import Stepwise.Proofs.Code.Nesting
import Stepwise.Proofs.Machine.Running
import Stepwise.Proofs.Sample

/-!
# Where cursors stand

Every frame runs code that lowering yields, or the code of an empty block, and lowered code is well
formed.  So the cursor of a frame stands at an instruction of its code or at the end of it
(`Frame.Seated`), through every move of a pass: most instructions move it by one, and jumps move it
to their targets, which well-formed code has inside (`seated_of_acts`).  `seated_of_passes` carries
this through everything that a host does.

What a jump that is taken does in a step is `step_of_jumps`.
-/

namespace Stepwise

open Stepwise.Action

/-- Lowered code is well formed. -/
theorem Lowers.wellFormed {ctx : Context} {code : Code} (h : Lowers ctx code) :
    WellFormed code := by
  obtain ⟨budget, e, memo, after, hlower⟩ := h
  exact wellFormed_of_lower hlower

/-! ## Frames -/

/-- A frame that runs lowered code or none, with its cursor in the code or at its end. -/
structure Frame.Seated (ctx : Context) (frame : Frame) : Prop where
  code : frame.code = [] ∨ Lowers ctx frame.code
  cursor : frame.cursor ≤ frame.code.length

namespace Frame.Seated

variable {ctx : Context} {frame other : Frame} {i : Instruction} {target : Nat}

theorem wellFormed (h : frame.Seated ctx) (hc : frame.current? = some i) :
    WellFormed frame.code := by
  rcases h.code with hnil | hlowers
  · rw [Frame.current?, hnil] at hc
    cases hc
  · exact hlowers.wellFormed

theorem move (h : frame.Seated ctx) (hcode : other.code = frame.code)
    (hcursor : other.cursor ≤ frame.code.length) : other.Seated ctx :=
  ⟨hcode ▸ h.code, hcode ▸ hcursor⟩

theorem next (h : frame.Seated ctx) (hc : frame.current? = some i) :
    (frame.advance 1).Seated ctx :=
  h.move rfl (List.getElem?_eq_some_iff.1 hc).1

/-- A jump leads to an instruction of the code or to its end. -/
theorem target_le (h : frame.Seated ctx) (hc : frame.current? = some i)
    (ht : i.jumpTarget? frame.cursor = some target) : target ≤ frame.code.length :=
  ((h.wellFormed hc).jumps frame.cursor i target hc ht).2.1

end Frame.Seated

namespace Evaluator

variable {ctx : Context} {ev after : Evaluator} {frame : Frame} {outer : List Frame}
  {i : Instruction} {budget : Nat}

/-- All frames are seated. -/
structure Seated (ctx : Context) (ev : Evaluator) : Prop where
  context : ev.context = ctx
  codes : ev.Faithful
  frames : ∀ frame ∈ ev.frames, frame.Seated ctx

/-! ## Moves -/

theorem seated_of_acts {r : Except Exception Unit} (hev : ev.Seated ctx)
    (hf : ev.frames = frame :: outer) (hc : frame.current? = some i)
    (h : Acts (ev.fetch frame outer i) i r after) : ∀ other ∈ after.frames, other.Seated ctx := by
  obtain ⟨hframe, houter⟩ := List.forall_mem_cons.1 (hf ▸ hev.frames)
  have hnext := hframe.next hc
  -- Whatever an instruction binds, its frame keeps code and cursor.
  have evolved {mid last : Evaluator} (hm : mid.Evolves last)
      (hmid : mid.frames = frame.advance 1 :: outer) :
      ∀ other ∈ last.frames, other.Seated ctx := by
    obtain ⟨bindings, hlast⟩ := hm.frames_cons hmid
    rw [hlast]
    exact List.forall_mem_cons.2 ⟨hnext.move rfl hnext.cursor, houter⟩
  have jumped {distance : Nat}
      (htarget : i.jumpTarget? frame.cursor = some (frame.cursor + 1 + distance)) :
      ∀ other ∈ (frame.advance 1).advance distance :: outer, other.Seated ctx :=
    List.forall_mem_cons.2 ⟨hframe.move rfl (hframe.target_le hc htarget), houter⟩
  cases h with
  | starts => exact List.forall_mem_cons.2 ⟨hnext, houter⟩
  | holds => exact List.forall_mem_cons.2 ⟨hnext, houter⟩
  | jumps distance node => exact jumped rfl
  | skips distance node =>
    refine jumped ?_
    rw [Instruction.jumpTarget?]
    congr 1
    omega
  | yields values lower mid value he hi hn hb ho hm hv =>
    have hmid := evolved hm rfl
    exact hmid
  | idles values lower mid he hi hn hb ho hm => exact evolved hm rfl
  | fails x values lower hi hb hm => exact evolved hm rfl
  | enters callee inputs values lower hi hd hn hb hs =>
    obtain ⟨mid, new, hm, hnew, -⟩ := hs
    have hcode : new.code = [] ∨ Lowers ctx new.code := by
      rcases hnew.code with ⟨id, hid⟩ | ⟨hnil, -⟩
      · rcases hm.codes id new.code hid with hold | hlowers
        · exact .inr (hev.context ▸ hev.codes id new.code hold)
        · exact .inr (hev.context ▸ hlowers)
      · exact .inl hnil
    refine List.forall_mem_cons.2 ⟨⟨hcode, ?_⟩, evolved hm rfl⟩
    show new.cursor ≤ new.code.length
    rw [hnew.cursor]
    exact Nat.zero_le _

theorem Raises.seated {x : Exception} (hev : ev.Seated ctx) (h : ev.Raises x after) :
    ∀ other ∈ after.frames, other.Seated ctx := by
  have below {frame : Frame} {outer : List Frame} (hf : ev.frames = frame :: outer) :
      ∀ other ∈ outer, other.Seated ctx :=
    (List.forall_mem_cons.1 (hf ▸ hev.frames)).2
  cases h with
  | act budget hf hc ha => exact seated_of_acts hev hf hc (act_cases ha)
  | result hf hd hr => exact below hf
  | noValue hf hd hr => exact below hf
  | idle hf => exact hev.frames
  | limit hl => exact hev.frames

theorem Moves.context (h : ev.Moves after) : after.context = ev.context := by
  cases h with
  | acts budget ho hf hc ha => exact (act_cases ha).context
  | halts ho hx =>
    cases hx with
    | act budget hf hc ha => exact (act_cases ha).context
    | _ => rfl
  | _ => rfl

theorem Moves.seated (h : ev.Moves after) (hev : ev.Seated ctx) : after.Seated ctx := by
  refine ⟨h.context.trans hev.context, h.faithful hev.codes, ?_⟩
  cases h with
  | acts budget ho hf hc ha => exact seated_of_acts hev hf hc (act_cases ha)
  | hands ho hf hd hr hv => exact (List.forall_mem_cons.1 (hf ▸ hev.frames)).2
  | produces => exact List.forall_mem_nil _
  | halts ho hx =>
    have hmid := hx.seated hev
    exact hmid
  | injects => exact hev.frames
  | defines => exact hev.frames

theorem seated_of_beginPass {root : Expr} (h : ev.beginPass budget root = some after)
    (hev : ev.Seated ctx) : after.Seated ctx := by
  have hcodes := faithful_of_beginPass h hev.codes
  obtain ⟨code, mid, hc, rfl⟩ := beginPass_cases h
  have hcontext : mid.context = ctx :=
    ((evolving_codeOf budget root).evolves hc).context.trans hev.context
  refine ⟨hcontext, hcodes, fun frame hmem => ?_⟩
  obtain rfl := List.mem_singleton.1 hmem
  have hfind : mid.lowered.find? root.id = some code := find?_of_codeOf hc
  exact ⟨.inr (hcontext ▸ hcodes root.id code hfind), Nat.zero_le _⟩

/-- Whatever a host does, all frames are seated. -/
theorem seated_of_passes {memo : Memo} {options : Options}
    (h : (new ctx memo options).Passes ev) : ev.Seated ctx := by
  induction h with
  | refl => exact ⟨rfl, fun _ _ h => (nomatch h), List.forall_mem_nil _⟩
  | tail _ ht ih =>
    cases ht with
    | begins budget root hb => exact seated_of_beginPass hb ih
    | moves hm => exact hm.seated ih

/-! ## Jumps -/

/-- The jump under the cursor is taken: at once, or because the condition that it takes is false. -/
def TakesJump (ev : Evaluator) : Instruction → Prop
  | .jump .. => True
  | .jumpIfFalse .. => ∃ lower, ev.stack.items = .boolean false :: lower ∧ ev.base ≤ lower.length
  | _ => False

/-- A jump that is taken moves the cursor to its target, and the pass goes on from there. -/
theorem step_of_jumps {target : Nat} (budget : Nat) (ho : ev.outcome = none)
    (hl : ev.reachedLimit? = none) (hf : ev.frames = frame :: outer)
    (hc : frame.current? = some i) (ht : i.jumpTarget? frame.cursor = some target)
    (htakes : ev.TakesJump i) :
    ∃ mid : Evaluator, mid.frames = { frame with cursor := target } :: outer ∧
      ev.step budget = some mid.completeFrames := by
  rw [step_eq budget ho hl hf, hc]
  cases i with
  | jump distance node =>
    obtain rfl := Option.some.inj ht
    exact ⟨(ev.fetch frame outer (.jump distance node)).advance distance, rfl, rfl⟩
  | jumpIfFalse distance node =>
    obtain rfl := Option.some.inj ht
    obtain ⟨lower, hi, hb⟩ := htakes
    let fetched := ev.fetch frame outer (.jumpIfFalse distance node)
    have hitems : fetched.stack.items = .boolean false :: lower := hi
    have hbase : fetched.base ≤ lower.length := by
      rw [base, hf] at hb
      exact hb
    have hact := act_jumpIfFalse budget distance node hitems hbase rfl
    refine ⟨(fetched.withItems lower).advance (distance + 1), ?_, congrArg (Option.map settle) hact⟩
    have hsum : frame.cursor + 2 + distance = frame.cursor + 1 + (distance + 1) := by omega
    rw [hsum]
    rfl
  | _ => cases ht

/-! ## Passes that have begun -/

/-- As long as a pass has not ended there is a frame, once there has been one. -/
theorem Moves.frames_ne_nil (h : ev.Moves after) (hev : ev.outcome = none → ev.frames ≠ []) :
    after.outcome = none → after.frames ≠ [] := by
  intro hafter
  cases h with
  | acts budget ho hf hc ha =>
    intro hnil
    have hle := (act_cases ha).le_length_frames
    rw [hnil] at hle
    exact Nat.not_succ_le_zero _ hle
  | hands => exact List.cons_ne_nil _ _
  | produces => exact nomatch hafter
  | halts => exact nomatch hafter
  | injects => exact hev hafter
  | defines => exact hev hafter

theorem Going.frames_ne_nil (h : ev.Going) : ev.frames ≠ [] := by
  obtain ⟨frame, outer, i, hf, -⟩ := h.fetches
  rw [hf]
  exact List.cons_ne_nil _ _

theorem frames_ne_nil_of_passes (hev : ev.Faithful) (hne : ev.outcome = none → ev.frames ≠ [])
    (h : ev.Passes after) : after.Faithful ∧ (after.outcome = none → after.frames ≠ []) := by
  induction h with
  | refl => exact ⟨hev, hne⟩
  | tail _ ht ih =>
    obtain ⟨hfaithful, hframes⟩ := ih
    cases ht with
    | begins budget root hb =>
      exact ⟨faithful_of_beginPass hb hfaithful,
        fun _ => (going_of_beginPass hfaithful hb).frames_ne_nil⟩
    | moves hm => exact ⟨hm.faithful hfaithful, hm.frames_ne_nil hframes⟩

/-- From the first pass on, a pass that has not ended has an instruction to fetch. -/
theorem going_of_begun {memo : Memo} {options : Options} {before begun : Evaluator} {root : Expr}
    (hbefore : (new ctx memo options).Reaches before)
    (hbegin : before.beginPass budget root = some begun) (h : begun.Reaches ev)
    (ho : ev.outcome = none) : ev.Going := by
  have hbegun : (new ctx memo options).Reaches begun :=
    .tail hbefore (.beginPass budget root hbegin)
  have hfirst := going_of_beginPass (faithful_of_passes hbefore.passes) hbegin
  rcases going_of_reaches (hbegun.trans h) ho with hnil | hgoing
  · have hne := (frames_ne_nil_of_passes (faithful_of_passes hbegun.passes)
      (fun _ => hfirst.frames_ne_nil) h.passes).2
    exact absurd hnil (hne ho)
  · exact hgoing

/-- Where the cursors of an evaluator stand that has begun a pass. -/
structure CursorsInCode (ev : Evaluator) : Prop where
  codes : ∀ frame ∈ ev.frames, frame.code = [] ∨ WellFormed frame.code
  cursors : ∀ frame ∈ ev.frames, frame.cursor ≤ frame.code.length
  /-- While the pass is running, the innermost frame has an instruction to fetch. -/
  fetches : ev.outcome = none →
    ∃ frame outer i, ev.frames = frame :: outer ∧ frame.current? = some i
  /-- A step in which a jump is taken moves the cursor to the target of the jump.  At the end of its
  code the frame is finished then. -/
  jumps : ∀ (budget : Nat) (frame : Frame) (outer : List Frame) (i : Instruction) (target : Nat),
    ev.outcome = none → ev.reachedLimit? = none → ev.frames = frame :: outer →
    frame.current? = some i → i.jumpTarget? frame.cursor = some target → ev.TakesJump i →
    ∃ mid : Evaluator, mid.frames = { frame with cursor := target } :: outer ∧
      ev.step budget = some mid.completeFrames ∧
      (target < frame.code.length → ev.step budget = some (.running, mid))

/-- Lowered code is well formed, and so every cursor stays in the code of its frame or at its end,
in whatever state a host brings an evaluator after it has begun a pass. -/
theorem lowered_code_wellFormed (ctx : Context) (memo : Memo) (options : Options) :
    (∀ (budget : Nat) (e : Expr) (known after : Memo) (code : Code),
      e.lower budget ctx known = some (code, after) → WellFormed code) ∧
    ∀ (before begun ev : Evaluator) (budget : Nat) (root : Expr),
      (new ctx memo options).Reaches before → before.beginPass budget root = some begun →
      begun.Reaches ev → ev.CursorsInCode := by
  refine ⟨fun budget e known after code h => wellFormed_of_lower h, ?_⟩
  intro before begun ev budget root hbefore hbegin h
  have hreaches : (new ctx memo options).Reaches ev :=
    (Relation.ReflTransGen.tail hbefore (.beginPass budget root hbegin)).trans h
  have hseated := seated_of_passes hreaches.passes
  exact
    { codes := fun frame hmem => (hseated.frames frame hmem).code.imp_right Lowers.wellFormed
      cursors := fun frame hmem => (hseated.frames frame hmem).cursor
      fetches := fun ho => (going_of_begun hbefore hbegin h ho).fetches
      jumps := fun budget frame outer i target ho hl hf hc ht htakes => by
        obtain ⟨mid, hmid, hstep⟩ := step_of_jumps budget ho hl hf hc ht htakes
        refine ⟨mid, hmid, hstep, fun hlt => ?_⟩
        have hactive : Frame.isDone { frame with cursor := target } = false := by
          simpa [Frame.isDone] using hlt
        rw [hstep, completeFrames_active hmid hactive] }

/-- In the code of `⊥ ? ⊤ ⊥` the conditional jump at `1` is taken to `4`. -/
theorem lowered_code_wellFormed_choice :
    let root := choiceOf 1 (booleanOf 2 false) (booleanOf 3 true) (booleanOf 4 false)
    let start := new { lexicon := .empty } .empty {}
    ∃ code begun ev mid, root.lower 2 { lexicon := .empty } .empty = some (code, .empty) ∧
      WellFormed code ∧ start.beginPass 2 root = some begun ∧
      begun.step 2 = some (.running, ev) ∧ ev.CursorsInCode ∧
      ev.step 2 = some (.running, mid) ∧ mid.frames.map Frame.cursor = [4] := by
  intro root start
  obtain ⟨hcode, hcursors⟩ := lowered_code_wellFormed { lexicon := .empty } .empty {}
  have hlower : ∃ code, root.lower 2 { lexicon := .empty } .empty = some (code, .empty) := ⟨_, rfl⟩
  have hbegin : ∃ begun, start.beginPass 2 root = some begun := ⟨_, rfl⟩
  obtain ⟨code, hlower⟩ := hlower
  obtain ⟨begun, hbegin⟩ := hbegin
  have hfirst : ∃ ev, begun.step 2 = some (.running, ev) := by
    obtain rfl := Option.some.inj hbegin
    exact ⟨_, rfl⟩
  obtain ⟨ev, hfirst⟩ := hfirst
  have hev : ev.CursorsInCode :=
    hcursors start begun ev 2 root .refl hbegin (.single (.step 2 .running hfirst))
  have hframes : ∃ frame, ev.frames = [frame] ∧ frame.cursor = 1 ∧
      frame.current? = some (.jumpIfFalse 1 ⟨1⟩) ∧ frame.code.length = 5 ∧
      ev.outcome = none ∧ ev.reachedLimit? = none ∧ ev.stack.items = [.boolean false] ∧
      frame.base = 0 := by
    obtain rfl := Option.some.inj hbegin
    obtain rfl := (Prod.mk.inj (Option.some.inj hfirst)).2
    exact ⟨_, rfl, rfl, rfl, rfl, rfl, rfl, rfl, rfl⟩
  obtain ⟨frame, hf, hcursor, hc, hlength, ho, hl, hi, hbase⟩ := hframes
  have htarget : (Instruction.jumpIfFalse 1 ⟨1⟩).jumpTarget? frame.cursor = some 4 := by
    rw [hcursor]
    rfl
  have htakes : ev.TakesJump (.jumpIfFalse 1 ⟨1⟩) :=
    ⟨[], hi, by rw [base, hf]; exact Nat.le_of_eq hbase⟩
  obtain ⟨mid, hmid, -, hrunning⟩ := hev.jumps 2 frame [] _ 4 ho hl hf hc htarget htakes
  refine ⟨code, begun, ev, mid, hlower, hcode 2 root .empty .empty code hlower, hbegin, hfirst, hev,
    hrunning (by rw [hlength]; decide), ?_⟩
  rw [hmid]
  rfl

end Evaluator

end Stepwise
