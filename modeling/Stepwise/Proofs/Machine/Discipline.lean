import Stepwise.Proofs.Machine.Moves
import Stepwise.Proofs.Sample

/-!
# Frames and the stack that they share

All frames keep their values on one stack.  What separates them is discipline: a frame starts at the
height that the stack has, takes nothing below that height, and is cut back to it when it is done.

`Evaluator.Disciplined` is the shape that follows for the bases of the frames.  It holds in every
state that an evaluator passes through (`disciplined_of_passes`), since every move keeps the values
below the base of the innermost frame and changes the frames at the inner end only (`Moves.shifts`).
From this, `frame_discipline` follows the stack through the whole life of a frame: what lay below
its base when it was pushed still lies there when it is popped, and a frame that is done leaves one
value on top of that.
-/

namespace Stepwise

/-! ## Values that stay -/

namespace Stack

variable {α : Type}

/-- The values below a height are there and are the same afterwards. -/
structure Keeps (base : Nat) (s s' : Stack α) : Prop where
  le : base ≤ s'.height
  take : s'.toList.take base = s.toList.take base

variable {base lower : Nat} {s s' s'' : Stack α}

theorem Keeps.refl (h : base ≤ s.height) : Keeps base s s := ⟨h, rfl⟩

theorem Keeps.trans (h : Keeps base s s') (h' : Keeps base s' s'') : Keeps base s s'' :=
  ⟨h'.le, h'.take.trans h.take⟩

theorem Keeps.mono (h : Keeps base s s') (hle : lower ≤ base) : Keeps lower s s' := by
  refine ⟨Nat.le_trans hle h.le, ?_⟩
  have := congrArg (List.take lower) h.take
  rwa [List.take_take, List.take_take, Nat.min_eq_left hle] at this

/-- Values were exchanged above a common part that reaches the base. -/
theorem keeps_of_items {values values' kept : List α} (h : s.items = values ++ kept)
    (h' : s'.items = values' ++ kept) (hb : base ≤ kept.length) : Keeps base s s' := by
  refine ⟨?_, ?_⟩
  · simp only [height, h', List.length_append]
    omega
  · have hlen : base ≤ kept.reverse.length := by simpa using hb
    simp only [toList, h, h', List.reverse_append]
    rw [List.take_append_of_le_length hlen, List.take_append_of_le_length hlen]

theorem keeps_of_taken {values kept : List α} (h : s.items = values ++ kept)
    (h' : s'.items = kept) (hb : base ≤ kept.length) : Keeps base s s' :=
  keeps_of_items h (h'.trans (List.nil_append kept).symm) hb

theorem keeps_truncate (h : base ≤ s.height) : Keeps base s (s.truncate base) := by
  refine ⟨?_, by rw [toList_truncate, List.take_take, Nat.min_self]⟩
  simp only [height, truncate, List.length_drop] at h ⊢
  omega

theorem keeps_push (value : α) (h : base ≤ s.height) : Keeps base s (s.push value) :=
  have hpush : (s.push value).items = [value] ++ s.items := rfl
  keeps_of_items (List.nil_append s.items).symm hpush h

/-- A stack that is kept up to its height is a lower part of the other. -/
theorem Keeps.items (h : Keeps s.height s s') : ∃ values, s'.items = values ++ s.items := by
  have hall : s.toList.take s.height = s.toList :=
    List.take_of_length_le (by simp [toList, height])
  have htake := h.take.trans hall
  refine ⟨(s'.toList.drop s.height).reverse, ?_⟩
  have hsplit := List.take_append_drop s.height s'.toList
  rw [htake] at hsplit
  have hreverse := congrArg List.reverse hsplit
  simpa [toList] using hreverse.symm

end Stack

namespace Evaluator

/-! ## The discipline -/

/-- The bases of the frames, innermost first. -/
def bases (ev : Evaluator) : List Nat :=
  ev.frames.map Frame.base

/-- How frames and stack fit together. -/
structure Disciplined (ev : Evaluator) : Prop where
  /-- No frame has a base below that of a frame around it. -/
  ordered : ev.bases.Pairwise (· ≥ ·)
  outermost : ∀ base, ev.bases.getLast? = some base → base = 0
  within : ∀ base ∈ ev.bases, base ≤ ev.stack.height
  depth : ev.frames.length ≤ max 1 ev.options.maxDepth

variable {ev after : Evaluator}

theorem base_eq_of_bases {base : Nat} {rest : List Nat} (h : ev.bases = base :: rest) :
    ev.base = base := by
  unfold bases at h
  cases hf : ev.frames with
  | nil => simp [hf] at h
  | cons frame outer =>
    rw [hf, List.map_cons] at h
    rw [base_of_frames hf]
    exact (List.cons.inj h).1

theorem Disciplined.base_le (h : ev.Disciplined) : ev.base ≤ ev.stack.height := by
  cases hf : ev.frames with
  | nil => simp [base, hf]
  | cons frame outer =>
    rw [base_of_frames hf]
    exact h.within _ (by simp [bases, hf])

/-- The innermost frame has the highest base. -/
theorem Disciplined.le_base (h : ev.Disciplined) {base : Nat} (hmem : base ∈ ev.bases) :
    base ≤ ev.base := by
  cases hb : ev.bases with
  | nil => simp [hb] at hmem
  | cons first rest =>
    have hord := hb ▸ h.ordered
    rw [base_eq_of_bases hb]
    rcases List.mem_cons.1 (hb ▸ hmem) with rfl | hrest
    · exact Nat.le_refl _
    · exact List.rel_of_pairwise_cons hord hrest

theorem Evolves.bases (h : ev.Evolves after) : after.bases = ev.bases := by
  obtain ⟨bindings, hf⟩ := h.frames
  unfold Evaluator.bases
  rw [hf]
  cases ev.frames <;> rfl

theorem bases_advance (ev : Evaluator) (distance : Nat) :
    (ev.advance distance).bases = ev.bases := by
  rw [advance_eq]
  unfold bases
  cases ev.frames <;> rfl

/-- What a move does to the frames and to the stack: it keeps what lies below the innermost frame,
and it changes the frames at the inner end only. -/
inductive Shifts (ev after : Evaluator) : Prop
  | stays (hs : ev.stack.Keeps ev.base after.stack) (hb : after.bases = ev.bases)
  | pushes (hs : ev.stack.Keeps ev.base after.stack)
      (hb : after.bases = after.stack.height :: ev.bases) (hne : ev.bases ≠ [])
      (room : ev.frames.length < ev.options.maxDepth)
  | pops (hs : ev.stack.Keeps ev.base after.stack) (hb : ev.bases = ev.base :: after.bases)

/-- Instructions shift frames and stack; only those that succeed start a frame. -/
theorem shifts_of_acts {i : Instruction} {r : Except Exception Unit} (h : Acts ev i r after)
    (hle : ev.base ≤ ev.stack.height) (hne : ev.bases ≠ []) : ev.Shifts after := by
  -- an expression without operands leaves the whole stack, however high the base is
  have lower_le {values lower : List Value} (hi : ev.stack.items = values ++ lower)
      (hb : values = [] ∨ ev.base ≤ lower.length) : ev.base ≤ lower.length := by
    rcases hb with rfl | hb
    · simpa [Stack.height, hi] using hle
    · exact hb
  have none_taken {values lower : List Value} {count : Nat} (hn : values.length = count)
      (hb : count = 0 ∨ ev.base ≤ lower.length) : values = [] ∨ ev.base ≤ lower.length :=
    hb.imp_left fun h0 => List.length_eq_zero_iff.1 (hn.trans h0)
  cases h with
  | starts => exact .stays (.refl hle) rfl
  | jumps distance =>
    refine .stays ?_ (bases_advance ev distance)
    rw [advance_eq]
    exact .refl hle
  | @holds distance node lower hi hb =>
    have hi : ev.stack.items = [.boolean true] ++ lower := hi
    exact .stays (Stack.keeps_of_taken hi rfl hb) rfl
  | @skips distance node lower hi hb =>
    have hi : ev.stack.items = [.boolean false] ++ lower := hi
    refine .stays ?_ (bases_advance ..)
    rw [advance_eq]
    exact Stack.keeps_of_taken hi rfl hb
  | yields values lower mid value he hi hn hb ho hm hv =>
    exact .stays (Stack.keeps_of_items hi (List.singleton_append.symm)
      (lower_le hi (none_taken hn hb))) hm.bases
  | idles values lower mid he hi hn hb ho hm =>
    refine .stays (Stack.keeps_of_taken hi ?_ (lower_le hi (none_taken hn hb))) hm.bases
    rw [hm.stack]
    rfl
  | enters callee inputs values lower hi hc hn hb hs =>
    obtain ⟨mid, frame, hm, -, hroom⟩ := hs
    have hi : ev.stack.items = (callee :: values) ++ lower := hi
    rw [hm.options, hm.length_frames] at hroom
    refine .pushes (Stack.keeps_of_taken hi ?_ hb) ?_ hne hroom
    · rw [pushFrame, hm.stack]
      rfl
    · exact congrArg _ hm.bases
  | fails x values lower hi hb hm =>
    refine .stays (Stack.keeps_of_taken hi ?_ (lower_le hi hb)) hm.bases
    rw [hm.stack]
    rfl

/-- What an instruction does, seen from before it was fetched. -/
theorem shifts_of_act {budget : Nat} {frame : Frame} {outer : List Frame} {i : Instruction}
    {r : Except Exception Unit} (hf : ev.frames = frame :: outer)
    (ha : i.act budget (ev.fetch frame outer i) = some (r, after))
    (hle : ev.base ≤ ev.stack.height) : ev.Shifts after := by
  have hbase : (ev.fetch frame outer i).base = ev.base := (base_of_frames hf).symm
  have hbases : (ev.fetch frame outer i).bases = ev.bases := by
    simp [bases, fetch, hf, Frame.advance]
  have hlen : (ev.fetch frame outer i).frames.length = ev.frames.length := by simp [fetch, hf]
  have hne : (ev.fetch frame outer i).bases ≠ [] := by simp [bases, fetch]
  cases shifts_of_acts (act_cases ha) (hbase ▸ hle) hne with
  | stays hs hb => exact .stays (hbase ▸ hs) (hbases ▸ hb)
  | pushes hs hb hne room => exact .pushes (hbase ▸ hs) (hbases ▸ hb) (hbases ▸ hne) (hlen ▸ room)
  | pops hs hb => exact .pops (hbase ▸ hs) (hbase ▸ hbases ▸ hb)

/-- A frame is gone, and the stack was cut down to its base first. -/
theorem shifts_of_popped {frame : Frame} {outer : List Frame} (hf : ev.frames = frame :: outer)
    (hs : ev.stack.Keeps frame.base after.stack) (hb : after.frames = outer) : ev.Shifts after := by
  rw [← base_of_frames hf] at hs
  refine .pops hs ?_
  rw [base_of_frames hf, bases, bases, hf, hb, List.map_cons]

theorem Raises.shifts {x : Exception} (h : ev.Raises x after) (hd : ev.Disciplined) :
    ev.Shifts after := by
  have hle := hd.base_le
  cases h with
  | act budget hf hc ha => exact shifts_of_act hf ha hle
  | result hf hdone hr =>
    rw [base_of_frames hf] at hle
    exact shifts_of_popped hf (Stack.keeps_truncate hle) rfl
  | noValue hf hdone hr =>
    rw [base_of_frames hf] at hle
    exact shifts_of_popped hf (.refl hle) rfl
  | idle => exact .stays (.refl hle) rfl
  | limit => exact .stays (.refl hle) rfl

/-- Every move shifts frames and stack. -/
theorem Moves.shifts (h : ev.Moves after) (hd : ev.Disciplined) : ev.Shifts after := by
  have hle := hd.base_le
  cases h with
  | acts budget ho hf hc ha => exact shifts_of_act hf ha hle
  | @hands _ frame caller outer value ho hf hdone hr hv =>
    rw [base_of_frames hf] at hle
    have hcut := Stack.keeps_truncate hle
    exact shifts_of_popped hf (hcut.trans (Stack.keeps_push value hcut.le)) rfl
  | produces ho hf hdone hr hv =>
    rw [base_of_frames hf] at hle
    exact shifts_of_popped hf (Stack.keeps_truncate hle) rfl
  | halts ho hx =>
    -- ending the pass changes neither the frames nor the stack
    cases hx.shifts hd with
    | stays hs hb => exact .stays hs hb
    | pushes hs hb hne room => exact .pushes hs hb hne room
    | pops hs hb => exact .pops hs hb
  | injects => exact .stays (.refl hle) rfl
  | defines => exact .stays (.refl hle) rfl

theorem Shifts.disciplined (h : ev.Shifts after) (hd : ev.Disciplined)
    (ho : after.options = ev.options) : after.Disciplined := by
  have length_frames (e : Evaluator) : e.frames.length = e.bases.length := by simp [bases]
  have hdepth := hd.depth
  rw [length_frames] at hdepth
  cases h with
  | stays hs hb =>
    refine ⟨hb ▸ hd.ordered, hb ▸ hd.outermost, fun base hmem => ?_, ?_⟩
    · exact Nat.le_trans (hd.le_base (hb ▸ hmem)) hs.le
    · rw [length_frames, hb, ho]
      exact hdepth
  | pushes hs hb hne room =>
    rw [length_frames] at room
    refine ⟨?_, fun base hlast => ?_, fun base hmem => ?_, ?_⟩
    · rw [hb, List.pairwise_cons]
      exact ⟨fun base hmem => Nat.le_trans (hd.le_base hmem) hs.le, hd.ordered⟩
    · obtain ⟨first, rest, hcons⟩ := List.exists_cons_of_ne_nil hne
      rw [hb, hcons, List.getLast?_cons_cons, ← hcons] at hlast
      exact hd.outermost base hlast
    · rcases List.mem_cons.1 (hb ▸ hmem) with rfl | hmem
      · exact Nat.le_refl _
      · exact Nat.le_trans (hd.le_base hmem) hs.le
    · rw [length_frames, hb, ho, List.length_cons]
      omega
  | pops hs hb =>
    have hord := hb ▸ hd.ordered
    refine ⟨hord.of_cons, fun base hlast => ?_, fun base hmem => ?_, ?_⟩
    · refine hd.outermost base ?_
      rw [hb, List.getLast?_cons, hlast]
      rfl
    · exact Nat.le_trans (hd.le_base (hb ▸ List.mem_cons_of_mem _ hmem)) hs.le
    · rw [hb, List.length_cons] at hdepth
      rw [length_frames, ho]
      omega

theorem Raises.options {x : Exception} (h : ev.Raises x after) : after.options = ev.options := by
  cases h with
  | act budget hf hc ha => exact (act_cases ha).options
  | _ => rfl

theorem Moves.options (h : ev.Moves after) : after.options = ev.options := by
  cases h with
  | acts budget ho hf hc ha => exact (act_cases ha).options
  | halts ho hx => exact hx.options
  | _ => rfl

theorem Moves.disciplined (h : ev.Moves after) (hd : ev.Disciplined) : after.Disciplined :=
  (h.shifts hd).disciplined hd h.options

/-- A pass begins with one frame at the bottom of an empty stack. -/
theorem frames_of_beginPass {budget : Nat} {root : Expr}
    (h : ev.beginPass budget root = some after) :
    after.bases = [0] ∧ after.stack.items = [] ∧ after.options = ev.options := by
  obtain ⟨code, mid, hc, rfl⟩ := beginPass_cases h
  have hev := (Action.evolving_codeOf budget root).evolves hc
  refine ⟨rfl, ?_, hev.options⟩
  have hstack : mid.stack = ev.stack.clear := hev.stack
  rw [hstack]
  rfl

theorem Turns.disciplined (h : ev.Turns after) (hd : ev.Disciplined) : after.Disciplined := by
  cases h with
  | moves h => exact h.disciplined hd
  | begins budget root h =>
    obtain ⟨hb, hi, -⟩ := frames_of_beginPass h
    have hlen : after.frames.length = 1 := by simpa [bases] using congrArg List.length hb
    refine ⟨?_, ?_, ?_, ?_⟩
    · simp [hb]
    · simp [hb]
    · simp [hb]
    · rw [hlen]
      exact Nat.le_max_left ..

theorem disciplined_new (ctx : Context) (memo : Memo) (options : Options) :
    (new ctx memo options).Disciplined :=
  ⟨.nil, nofun, nofun, Nat.zero_le _⟩

/-- Frames and stack fit together in every state that an evaluator passes through. -/
theorem disciplined_of_passes {ctx : Context} {memo : Memo} {options : Options}
    (h : (new ctx memo options).Passes ev) : ev.Disciplined := by
  induction h with
  | refl => exact disciplined_new ..
  | tail _ ht ih => exact ht.disciplined ih

/-! ## The life of a frame -/

/-- The base of the frame that has `n` frames around it. -/
def baseAt? (ev : Evaluator) (n : Nat) : Option Nat :=
  ev.bases.reverse[n]?

/-- A frame has just been pushed on `n` others. -/
inductive Pushes (ev : Evaluator) : Nat → Evaluator → Prop
  | starts {pushed : Evaluator} (h : ev.Moves pushed)
      (hn : pushed.frames.length = ev.frames.length + 1) : Pushes ev ev.frames.length pushed
  | begins {pushed : Evaluator} (budget : Nat) (root : Expr)
      (h : ev.beginPass budget root = some pushed) : Pushes ev 0 pushed

/-- Any number of moves throughout which more than `n` frames are active. -/
abbrev Stays (n : Nat) : Evaluator → Evaluator → Prop :=
  Relation.ReflTransGen fun ev after => ev.Moves after ∧ n < after.frames.length

/-- How a frame is popped that was pushed on `n` others and on a stack with `values`.  Unless an
exception has ended the pass, its one result lies on these values now, or is that of the pass. -/
inductive Retired (values : List Value) (n : Nat) (after : Evaluator) : Prop
  | returned (value : Value) (hn : after.frames.length = n) (ho : after.outcome = none)
      (hs : after.stack.toList = values ++ [value])
  | produced (value : Value) (hn : n = 0) (hf : after.frames = [])
      (ho : after.outcome = some (.produced value)) (hs : after.stack.toList = values)
  | abandoned (x : Exception) (ho : after.outcome = some (.halted x))

theorem Stays.progresses {n : Nat} {later : Evaluator} (h : Stays n ev later) :
    ev.Progresses later := by
  induction h with
  | refl => exact .refl
  | tail _ hm ih => exact ih.tail hm.1

theorem bases_of_pushes {n : Nat} {pushed : Evaluator} (h : ev.Pushes n pushed)
    (hd : ev.Disciplined) :
    pushed.baseAt? n = some pushed.stack.height ∧ pushed.frames.length = n + 1 := by
  cases h with
  | starts h hn =>
    refine ⟨?_, hn⟩
    have hlen : ev.bases.length = ev.frames.length := by simp [bases]
    have hlen' : pushed.bases.length = ev.frames.length + 1 := by simp [bases, hn]
    cases h.shifts hd with
    | stays hs hb => rw [hb] at hlen'; omega
    | pushes hs hb hne room =>
      rw [baseAt?, hb, List.reverse_cons, List.getElem?_append_right (by simp [hlen])]
      simp [hlen]
    | pops hs hb =>
      rw [hb, List.length_cons] at hlen
      omega
  | begins budget root h =>
    obtain ⟨hb, hi, -⟩ := frames_of_beginPass h
    have hlen : pushed.frames.length = 1 := by simpa [bases] using congrArg List.length hb
    refine ⟨?_, hlen⟩
    simp [baseAt?, hb, Stack.height, hi]

/-- One move keeps a frame that it does not pop, and what lies below it. -/
theorem Moves.keeps {n base : Nat} (h : ev.Moves after) (hd : ev.Disciplined)
    (hb : ev.baseAt? n = some base) (hn : n < after.frames.length) :
    after.baseAt? n = some base ∧ ev.stack.Keeps base after.stack := by
  have hle : base ≤ ev.base := by
    refine hd.le_base ?_
    rw [← List.mem_reverse]
    exact List.mem_of_getElem? hb
  cases h.shifts hd with
  | stays hs hbases => exact ⟨by rw [baseAt?, hbases]; exact hb, hs.mono hle⟩
  | pushes hs hbases hne room =>
    refine ⟨?_, hs.mono hle⟩
    obtain ⟨hlt, -⟩ := List.getElem?_eq_some_iff.1 hb
    rw [baseAt?, hbases, List.reverse_cons, List.getElem?_append_left hlt]
    exact hb
  | pops hs hbases =>
    refine ⟨?_, hs.mono hle⟩
    have hlen : n < after.bases.reverse.length := by simpa [bases] using hn
    rw [baseAt?, hbases, List.reverse_cons, List.getElem?_append_left hlen] at hb
    exact hb

theorem Stays.keeps {n base : Nat} {later : Evaluator} (h : Stays n ev later) (hd : ev.Disciplined)
    (hb : ev.baseAt? n = some base) (hle : base ≤ ev.stack.height) :
    later.Disciplined ∧ later.baseAt? n = some base ∧ ev.stack.Keeps base later.stack := by
  induction h with
  | refl => exact ⟨hd, hb, .refl hle⟩
  | tail _ hm ih =>
    obtain ⟨hd, hb, hs⟩ := ih
    obtain ⟨hb', hs'⟩ := hm.1.keeps hd hb hm.2
    exact ⟨hm.1.disciplined hd, hb', hs.trans hs'⟩

/-- A move that pops a frame leaves the result of the frame on what lay below it, or ends the
pass. -/
theorem Moves.pops {n base : Nat} (h : ev.Moves after)
    (hb : ev.baseAt? n = some base) (hn : after.frames.length ≤ n) :
    Retired (ev.stack.toList.take base) n after := by
  have hlt : n < ev.frames.length := by
    obtain ⟨hlt, -⟩ := List.getElem?_eq_some_iff.1 hb
    simpa [bases] using hlt
  have innermost {frame : Frame} {outer : List Frame} (hf : ev.frames = frame :: outer)
      (hlen : outer.length = n) : base = frame.base := by
    have : (outer.map Frame.base).reverse.length = n := by simpa using hlen
    rw [baseAt?, bases, hf, List.map_cons, List.reverse_cons, ← this] at hb
    simpa using hb.symm
  cases h with
  | acts budget ho hf hc ha =>
    have hle := (act_cases ha).le_length_frames
    simp only [fetch, List.length_cons] at hle
    simp only [hf, List.length_cons] at hlt
    omega
  | @hands _ frame caller outer value ho hf hdone hr hv =>
    have hlen : (caller :: outer).length = n := by
      simp only [hf, List.length_cons, handDown] at hlt hn ⊢
      omega
    refine .returned value hlen ho ?_
    rw [innermost hf hlen]
    simp [handDown]
  | @produces _ frame value ho hf hdone hr hv =>
    have hn0 : n = 0 := by simpa [hf] using hlt
    refine .produced value hn0 rfl rfl ?_
    rw [innermost hf hn0.symm]
    simp [cleared]
  | halts ho hx => exact .abandoned _ rfl
  | injects => exact absurd hlt (Nat.not_lt.2 hn)
  | defines => exact absurd hlt (Nat.not_lt.2 hn)

/-- Frame and stack discipline.  Whatever a host does with a new evaluator, bases fall from the
innermost frame to the outermost, where they reach zero, no base is above the stack, and there are
no more frames than allowed; between what a host sees, the evaluator passes from state to state in
moves.  And for every frame from its push until its pop, the stack below its base is what it was at
the push; popping it leaves that with its one result. -/
theorem frame_discipline (ctx : Context) (memo : Memo) (options : Options) :
    (∀ ev, (new ctx memo options).Reaches ev → ev.Disciplined) ∧
    (∀ ev after : Evaluator, ev.Serves after → ev.Passes after) ∧
    ∀ ev, (new ctx memo options).Passes ev → ev.Disciplined ∧
      ∀ n pushed, ev.Pushes n pushed → ∀ later, Stays n pushed later →
        later.baseAt? n = some pushed.stack.height ∧
        later.stack.toList.take pushed.stack.height = pushed.stack.toList ∧
        ∀ after, later.Moves after → after.frames.length ≤ n →
          Retired pushed.stack.toList n after := by
  refine ⟨fun ev h => disciplined_of_passes h.passes, fun ev after h => h.passes, ?_⟩
  intro ev h
  have hd := disciplined_of_passes h
  refine ⟨hd, fun n pushed hp later hstays => ?_⟩
  have hpushed : pushed.Disciplined := by
    cases hp with
    | starts hm => exact hm.disciplined hd
    | begins budget root hb => exact Turns.disciplined (.begins budget root hb) hd
  obtain ⟨hb, -⟩ := bases_of_pushes hp hd
  obtain ⟨-, hb', hs⟩ := hstays.keeps hpushed hb (Nat.le_refl _)
  have htake : later.stack.toList.take pushed.stack.height = pushed.stack.toList := by
    rw [hs.take, List.take_of_length_le (by simp [Stack.toList, Stack.height])]
  refine ⟨hb', htake, fun after hm hn => ?_⟩
  rw [← htake]
  exact hm.pops hb' hn

/-! ### Trying moves -/

/-- What the instruction under the cursor makes of an evaluator, if it does not fail. -/
def act? (budget : Nat) (ev : Evaluator) : Option Evaluator :=
  match ev.outcome, ev.frames with
  | none, frame :: outer =>
    frame.current?.bind fun i =>
      match i.act budget (ev.fetch frame outer i) with
      | some (.ok (), after) => some after
      | _ => none
  | _, _ => none

/-- The evaluator after a number of instructions, as long as there are more than `n` frames. -/
def afterActs (budget n : Nat) : Nat → Evaluator → Option Evaluator
  | 0, ev => some ev
  | count + 1, ev =>
    (ev.act? budget).bind fun after =>
      if n < after.frames.length then afterActs budget n count after else none

/-- What handing down the result of the innermost frame makes of an evaluator. -/
def return? (ev : Evaluator) : Option Evaluator :=
  match ev.outcome, ev.frames with
  | none, frame :: caller :: outer =>
    if frame.isDone then
      (ev.result? frame).bind fun value =>
        if value.isException then none else some (ev.handDown frame value (caller :: outer))
    else none
  | _, _ => none

theorem acts_of_act? {budget : Nat} (h : ev.act? budget = some after) : ∃ frame outer i,
    ev.outcome = none ∧ ev.frames = frame :: outer ∧ frame.current? = some i ∧
      i.act budget (ev.fetch frame outer i) = some (.ok (), after) := by
  unfold act? at h
  split at h
  · rename_i frame outer ho hf
    obtain ⟨i, hc, h⟩ := Option.bind_eq_some_iff.1 h
    split at h
    · rename_i last ha
      obtain rfl := Option.some.inj h
      exact ⟨frame, outer, i, ho, hf, hc, ha⟩
    · cases h
  · cases h

theorem moves_of_act? {budget : Nat} (h : ev.act? budget = some after) : ev.Moves after := by
  obtain ⟨frame, outer, i, ho, hf, hc, ha⟩ := acts_of_act? h
  exact .acts budget ho hf hc ha

theorem stays_of_afterActs {budget n count : Nat} {later : Evaluator}
    (h : ev.afterActs budget n count = some later) : Stays n ev later := by
  induction count generalizing ev with
  | zero => exact Option.some.inj h ▸ .refl
  | succ count ih =>
    obtain ⟨mid, hact, h⟩ := Option.bind_eq_some_iff.1 h
    split at h
    · rename_i hn
      exact .head ⟨moves_of_act? hact, hn⟩ (ih h)
    · cases h

theorem moves_of_return? (h : ev.return? = some after) : ev.Moves after := by
  unfold return? at h
  split at h
  · rename_i frame caller outer ho hf
    split at h
    · rename_i hd
      obtain ⟨value, hr, h⟩ := Option.bind_eq_some_iff.1 h
      split at h
      · cases h
      · rename_i hv
        obtain rfl := Option.some.inj h
        exact .hands ho hf hd hr (Bool.not_eq_true _ ▸ hv)
    · cases h
  · cases h

/-- The states that a call comes to whose frame takes so many instructions: with the frame, when the
frame is finished, and without it. -/
def calling (budget count : Nat) (ev : Evaluator) :
    Option (Evaluator × Evaluator × Evaluator) := do
  let pushed ← ev.act? budget
  let later ← pushed.afterActs budget ev.frames.length count
  let after ← later.return?
  pure (pushed, later, after)

theorem of_calling {budget count : Nat} {pushed later : Evaluator}
    (h : ev.calling budget count = some (pushed, later, after)) :
    ev.act? budget = some pushed ∧ Stays ev.frames.length pushed later ∧ later.Moves after := by
  simp only [calling, Option.bind_eq_bind, Option.pure_def, Option.bind_eq_some_iff,
    Option.some.injEq, Prod.mk.injEq] at h
  obtain ⟨_, hact, _, hacts, _, hreturn, rfl, rfl, rfl⟩ := h
  exact ⟨hact, stays_of_afterActs hacts, moves_of_return? hreturn⟩

namespace Called

/-- The list `⎡⊤ (ƒ f() ⊥)()⎦`, in which a function is called when `⊤` has been laid out. -/
def root : Expr :=
  listOf 1 [booleanOf 2 true,
    .call (callWith 3 (.function (functionOf 4 "f" [] none (some (booleanOf 5 false)))) [])]

/-- The states around the call. -/
def states : Option (Evaluator × Evaluator × Evaluator × Evaluator × Evaluator) := do
  let begun ← (startOf ⟨root⟩).beginPass 9 root
  let ev ← begun.afterActs 9 0 4
  let (pushed, later, after) ← ev.calling 9 1
  pure (begun, ev, pushed, later, after)

theorem view_states : states.map (fun (_, ev, pushed, later, after) =>
    (ev.frames.length, pushed.frames.length, pushed.stack.items, later.stack.items,
      after.frames.length, after.stack.items)) =
    some (1, 2, [.boolean true], [.boolean false, .boolean true], 1,
      [.boolean false, .boolean true]) := rfl

end Called

/-- The frame of the function, from its push to its pop: `⊤` lies below its base, and `⊥` on top of
that in the end. -/
theorem frame_discipline_called :
    let start := startOf ⟨Called.root⟩
    ∃ ev pushed later after : Evaluator, start.Passes ev ∧ ev.Pushes 1 pushed ∧
      pushed.stack.toList = [.boolean true] ∧ Stays 1 pushed later ∧
      later.baseAt? 1 = some 1 ∧ later.stack.toList = [.boolean true, .boolean false] ∧
      later.Moves after ∧ after.frames.length = 1 ∧ Retired [.boolean true] 1 after ∧
      after.stack.toList = [.boolean true, .boolean false] := by
  intro start
  obtain ⟨_, hstates, hview⟩ := Option.map_eq_some_iff.1 Called.view_states
  simp only [Called.states, Option.bind_eq_bind, Option.pure_def, Option.bind_eq_some_iff,
    Option.some.injEq, Prod.exists] at hstates
  obtain ⟨begun, hbegin, ev, hacts, pushed, later, after, hcalling, rfl⟩ := hstates
  simp only [Prod.mk.injEq] at hview
  obtain ⟨hdepth, hpushed, hbelow, hlater, hpopped, hafter⟩ := hview
  obtain ⟨hact, hstays, hreturn⟩ := of_calling hcalling
  rw [hdepth] at hstays
  have hpasses : start.Passes ev :=
    .trans (.single (.begins 9 _ hbegin)) (Stays.progresses (stays_of_afterActs hacts)).passes
  have hpushes : ev.Pushes 1 pushed := by
    have h := Pushes.starts (moves_of_act? hact) (by rw [hpushed, hdepth])
    rwa [hdepth] at h
  obtain ⟨-, -, hlife⟩ := frame_discipline { lexicon := Program.lexicon ⟨Called.root⟩ } .empty {}
  obtain ⟨-, hlife⟩ := hlife ev hpasses
  obtain ⟨hbase, -, hpop⟩ := hlife 1 pushed hpushes later hstays
  have hlist : pushed.stack.toList = [.boolean true] := by rw [Stack.toList, hbelow]; rfl
  refine ⟨ev, pushed, later, after, hpasses, hpushes, hlist, hstays, ?_, ?_, hreturn, hpopped, ?_,
    ?_⟩
  · rw [hbase, Stack.height, hbelow]
    rfl
  · rw [Stack.toList, hlater]
    rfl
  · rw [← hlist]
    exact hpop after hreturn (Nat.le_of_eq hpopped)
  · rw [Stack.toList, hafter]
    rfl

end Evaluator

end Stepwise
