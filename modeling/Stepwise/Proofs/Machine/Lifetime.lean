import Stepwise.Proofs.Code.Statements
import Stepwise.Proofs.Machine.Calling
import Stepwise.Proofs.Machine.Standing

/-!
# What a frame binds in its life

From its push to its pop a frame runs one code.  Its cursor moves on by one instruction or to where
a jump leads, and the only names that are bound in it are those of the expressions that finish in
it; whatever happens in the frames that it starts leaves it as it is.

`Frame.Executes` is what an instruction does to its frame, and `Moves.frameAt?` says that nothing
else is done to a frame that stays.  By induction over the moves, the names bound in a frame are
those it has started with and those of the expressions that have finished in it since
(`Stays.names`), and all expressions have finished that nothing skips and that the cursor has passed
(`Stays.tracks`).
-/

namespace Stepwise

open Stepwise.Action

/-! ## What an expression binds -/

section Execution

variable {frame : Frame} {outer : List Frame} {ev after : Evaluator} {budget : Nat}

theorem Evaluator.frames_bindAll (hf : ev.frames = frame :: outer) (aliases : List String)
    (value : Value) : (ev.bindAll aliases value).frames =
      frame.withBindings (bindAliases frame.bindings aliases value) :: outer := by
  rw [bindAll_eq, hf]
  rfl

/-- What is left of the frames when names have been bound in the innermost. -/
def Evaluator.Binds (ev : Evaluator) (frame : Frame) (outer : List Frame) (names : List String) :
    Prop :=
  ∃ bindings, ev.frames = frame.withBindings bindings :: outer ∧
    ∀ name, bindings.contains name = true ↔ name ∈ names ∨ frame.bindings.contains name = true

theorem Evaluator.binds_nothing (hf : ev.frames = frame :: outer) : ev.Binds frame outer [] :=
  ⟨frame.bindings, hf, fun name => by simp⟩

theorem Evaluator.binds_bindAll (hf : ev.frames = frame :: outer) (aliases : List String)
    (value : Value) : (ev.bindAll aliases value).Binds frame outer aliases :=
  ⟨_, frames_bindAll hf aliases value, fun _ => contains_bindAliases⟩

/-- Making a definition binds its names. -/
theorem binds_of_executeDefinition {aliases : List String} {close : Scope → Value}
    {r : Except Exception (Option Value)} (hf : ev.frames = frame :: outer)
    (h : (some <$> executeDefinition aliases close) ev = some (r, after)) :
    after.Binds frame outer aliases := by
  rw [map_apply, executeDefinition_apply] at h
  obtain ⟨-, rfl⟩ := Prod.mk.inj (Option.some.inj h)
  have hdrawn : { ev with nextScope := ev.nextScope + 1 }.frames = frame :: outer := hf
  exact Evaluator.binds_bindAll hdrawn aliases (close ev.closure)

/-- Working on operands binds the names of declarations and definitions, and no others. -/
theorem binds_of_operate {e : Expr} {values : List Value} {answer : Option Value}
    (hcount : values.length = e.demand) (hf : ev.frames = frame :: outer)
    (h : e.operate values ev = some (.ok answer, after)) : after.Binds frame outer e.binds := by
  let Same (now : Evaluator) : Prop := now.frames = frame :: outer
  have nothing {m : Action (Option Value)} (hm : Preserves Same (fun _ => True) m)
      (h : m ev = some (.ok answer, after)) : after.Binds frame outer [] :=
    Evaluator.binds_nothing (hm.keeps hf h).1
  have wraps {m : Action Value} (hm : Preserves Same (fun _ => True) m) :
      Preserves Same (fun _ => True) (some <$> m) :=
    hm.map fun _ _ => trivial
  cases e with
  | boolean | number | text | list | conditional | call | unparsable =>
    exact nothing (preserves_pure trivial) h
  | delete | insert => exact nothing (preserves_failAt ..) h
  | reference id name =>
    refine nothing (preserves_get.bind fun now _ => ?_) h
    split
    · exact preserves_pure trivial
    · exact preserves_failAt ..
  | access id subject dot name =>
    obtain ⟨operand, rfl⟩ := List.length_eq_one_iff.1 hcount
    exact nothing (wraps (preserves_accessMember _ _ fun _ _ _ _ _ => trivial)) h
  | binary id left mark op right =>
    obtain ⟨first, second, rfl⟩ := List.length_eq_two.1 hcount
    exact nothing (wraps (preserves_ofResult _ fun _ _ => trivial)) h
  | unary id mark op operand =>
    obtain ⟨value, rfl⟩ := List.length_eq_one_iff.1 hcount
    exact nothing (wraps (preserves_ofResult _ fun _ _ => trivial)) h
  | block id statements =>
    refine nothing (m := Expr.operate (.block id statements) values) ?_ h
    unfold Expr.operate
    dsimp only
    split
    · exact preserves_pure trivial
    · exact preserves_failAt ..
  | function f => exact binds_of_executeDefinition hf h
  | struct s => exact binds_of_executeDefinition hf h
  | bind b =>
    obtain ⟨value, rfl⟩ := List.length_eq_one_iff.1 hcount
    obtain ⟨-, rfl⟩ := Prod.mk.inj (Option.some.inj h)
    exact Evaluator.binds_bindAll hf b.aliases value

/-! ## What an instruction does to its frame -/

/-- A call takes its callee and its arguments, and makes the frame from them. -/
theorem prepare_of_prepareCall {call : Call} {made : Frame}
    (h : prepareCall budget call ev = some (.ok made, after)) :
    ∃ callee lower values items, ev.stack.items = callee :: lower ∧
      callee.declaredInputs?.isSome ∧
      prepare budget call values callee (ev.withItems items) = some (.ok made, after) := by
  unfold prepareCall at h
  rcases bind_eq_some h with ⟨callee, mid, hpop, h⟩ | ⟨x, -, hx⟩
  case inr => cases hx
  obtain ⟨lower, hi, -, -, rfl⟩ := popOperand_eq_ok hpop
  cases hinputs : callee.declaredInputs? with
  | none =>
    rw [hinputs] at h
    cases h
  | some inputs =>
    rw [hinputs] at h
    rcases bind_eq_some h with ⟨popped, mid, hpop, h⟩ | ⟨x, -, hx⟩
    case inr => cases hx
    cases popOperands_cases hpop with
    | taken _ rest hi' hn hb hv =>
      exact ⟨callee, lower, popped.reverse, rest, hi, by rw [hinputs]; rfl, h⟩

/-- Making the frame of a call leaves the frames alone. -/
theorem frames_prepareCall {call : Call} {made : Frame}
    (h : prepareCall budget call ev = some (.ok made, after)) : after.frames = ev.frames := by
  obtain ⟨callee, lower, values, items, -, hcallee, h⟩ := prepare_of_prepareCall h
  exact (Evaluator.spares_prepare hcallee h).frames

/-- The names that an instruction binds in its frame. -/
def Instruction.binds : Instruction → List String
  | .finish e => e.binds
  | _ => []

/-- What an instruction does to the frame that executes it. -/
structure Frame.Executes (i : Instruction) (frame next : Frame) : Prop where
  kind : next.kind = frame.kind
  code : next.code = frame.code
  /-- The next instruction is the one behind, or the one that the jump leads to. -/
  cursor : next.cursor = frame.cursor + 1 ∨ i.jumpTarget? frame.cursor = some next.cursor
  names : ∀ name, next.bindings.contains name = true ↔
    name ∈ i.binds ∨ frame.bindings.contains name = true

/-- The frames above a frame that has executed an instruction have been started by it, and those
below are the same. -/
def Evaluator.Advances (after : Evaluator) (i : Instruction) (frame : Frame) (outer : List Frame) :
    Prop :=
  ∃ started next, after.frames = started ++ next :: outer ∧ frame.Executes i next

theorem Evaluator.Binds.advances {i : Instruction}
    (h : after.Binds (frame.advance 1) outer i.binds) : after.Advances i frame outer := by
  obtain ⟨bindings, hframes, hnames⟩ := h
  exact ⟨[], _, hframes, rfl, rfl, .inl rfl, hnames⟩

theorem Evaluator.advances_of_jump {i : Instruction} {distance target : Nat}
    (hframes : after.frames = (frame.advance 1).advance distance :: outer)
    (hi : i.jumpTarget? frame.cursor = some target)
    (hdistance : frame.cursor + 1 + distance = target) (hbinds : i.binds = []) :
    after.Advances i frame outer := by
  refine ⟨[], _, hframes, rfl, rfl, .inr ?_, fun name => ?_⟩
  · exact hi.trans (congrArg some hdistance.symm)
  · rw [hbinds]
    simp [Frame.advance]

/-- A call binds nothing in its own frame, and starts another above it. -/
theorem advances_of_call {call : Call} (h : (Instruction.finish (.call call)).act budget
      (ev.fetch frame outer (.finish (.call call))) = some (.ok (), after)) :
    after.Advances (.finish (.call call)) frame outer := by
  rw [act_call, executeCall_eq] at h
  rcases bind_eq_some h with ⟨made, mid, hprepare, h⟩ | ⟨x, -, hx⟩
  case inr => cases hx
  have hmid : mid.frames = frame.advance 1 :: outer := frames_prepareCall hprepare
  rcases startFrame_cases h with ⟨hr, -, -⟩ | ⟨-, rfl, -⟩
  · cases hr
  · refine ⟨[{ made with base := mid.stack.height }], frame.advance 1, ?_, rfl, rfl, .inl rfl, ?_⟩
    · rw [Evaluator.pushFrame, hmid]
      rfl
    · simp [Instruction.binds, Expr.binds, Frame.advance]

theorem advances_of_act {i : Instruction}
    (h : i.act budget (ev.fetch frame outer i) = some (.ok (), after)) :
    after.Advances i frame outer := by
  have hf : (ev.fetch frame outer i).frames = frame.advance 1 :: outer := rfl
  have htaken (lower : List Value) :
      ((ev.fetch frame outer i).withItems lower).frames = frame.advance 1 :: outer := rfl
  cases act_cases h with
  | starts e => exact (Evaluator.binds_nothing hf).advances
  | holds distance node => exact (Evaluator.binds_nothing hf).advances
  | jumps distance node => exact Evaluator.advances_of_jump rfl rfl rfl rfl
  | skips distance node =>
    have htarget : frame.cursor + 1 + (distance + 1) = frame.cursor + 2 + distance := by omega
    exact Evaluator.advances_of_jump rfl rfl htarget rfl
  | yields values lower mid value he hi hn hb ho hm hv =>
    have hmid := binds_of_operate (by rwa [List.length_reverse]) (htaken lower) ho
    exact hmid.advances
  | idles values lower mid he hi hn hb ho hm =>
    exact (binds_of_operate (by rwa [List.length_reverse]) (htaken lower) ho).advances
  | enters => exact advances_of_call h

end Execution

/-! ## A frame through the moves -/

namespace Evaluator

variable {ev mid after later : Evaluator} {frame first next : Frame} {i : Instruction} {n : Nat}

/-- The frame that has `n` frames around it. -/
def frameAt? (ev : Evaluator) (n : Nat) : Option Frame :=
  ev.frames.reverse[n]?

theorem frameAt?_of_append (inner : List Frame) {outer : List Frame}
    (h : ev.frames = inner ++ frame :: outer) :
    ev.frameAt? outer.length = some frame := by
  rw [frameAt?, h, List.reverse_append, List.reverse_cons,
    List.getElem?_append_left (by simp), List.getElem?_append_right (by simp)]
  simp

/-- What has the same frames around it is the same. -/
theorem frameAt?_eq (inner inner' : List Frame) {outer : List Frame}
    (h : ev.frames = inner ++ outer) (h' : after.frames = inner' ++ outer) (hn : n < outer.length) :
    after.frameAt? n = ev.frameAt? n := by
  rw [frameAt?, frameAt?, h, h', List.reverse_append, List.reverse_append,
    List.getElem?_append_left (by simpa), List.getElem?_append_left (by simpa)]

theorem lt_length_of_frameAt? (h : ev.frameAt? n = some frame) : n < ev.frames.length := by
  obtain ⟨hlt, -⟩ := List.getElem?_eq_some_iff.1 h
  rwa [List.length_reverse] at hlt

/-- The instruction acts in the frame that has `n` frames around it, and does not fail. -/
def ActsIn (ev : Evaluator) (n : Nat) (i : Instruction) (after : Evaluator) : Prop :=
  ∃ budget frame outer, ev.outcome = none ∧ ev.frames = frame :: outer ∧ outer.length = n ∧
    frame.current? = some i ∧ i.act budget (ev.fetch frame outer i) = some (.ok (), after)

theorem ActsIn.executes (h : ev.ActsIn n i after) :
    ∃ frame next, ev.frameAt? n = some frame ∧ frame.current? = some i ∧
      after.frameAt? n = some next ∧ frame.Executes i next := by
  obtain ⟨budget, frame, outer, -, hf, rfl, hc, ha⟩ := h
  obtain ⟨started, next, hafter, hexecutes⟩ := advances_of_act ha
  exact ⟨frame, next, frameAt?_of_append [] hf, hc, frameAt?_of_append started hafter,
    hexecutes⟩

theorem ActsIn.moves (h : ev.ActsIn n i after) : ev.Moves after := by
  obtain ⟨budget, frame, outer, ho, hf, -, hc, ha⟩ := h
  exact .acts budget ho hf hc ha

/-- A pass that has not ended had not ended before. -/
theorem Moves.outcome_of_none (h : ev.Moves after) (ho : after.outcome = none) :
    ev.outcome = none := by
  cases h with
  | acts budget hev => exact hev
  | hands hev => exact hev
  | produces => cases ho
  | halts => cases ho
  | injects => exact ho
  | defines => exact ho

/-- A move that a frame outlasts leaves it as it is, or executes an instruction in it. -/
theorem Moves.frameAt? (h : ev.Moves after) (ho : after.outcome = none)
    (hn : n < after.frames.length) (hf : ev.frameAt? n = some frame) :
    after.frameAt? n = some frame ∨ ∃ i, ev.ActsIn n i after := by
  have hlt := lt_length_of_frameAt? hf
  cases h with
  | @acts budget ev after top outer i hev hframes hc ha =>
    rw [hframes, List.length_cons] at hlt
    rcases Nat.lt_succ_iff_lt_or_eq.1 hlt with hbelow | rfl
    · obtain ⟨started, next, hafter, -⟩ := advances_of_act ha
      have hsplit : after.frames = (started ++ [next]) ++ outer := by simp [hafter]
      exact .inl ((frameAt?_eq [top] (started ++ [next]) hframes hsplit hbelow).trans hf)
    · exact .inr ⟨i, budget, top, outer, hev, hframes, rfl, hc, ha⟩
  | @hands ev top caller outer value hev hframes hd hr hv =>
    exact .inl ((frameAt?_eq [top] [] hframes rfl hn).trans hf)
  | produces => cases ho
  | halts => cases ho
  | injects => exact .inl hf
  | defines => exact .inl hf

end Evaluator

/-! ## A frame through its life -/

/-- What has become of a frame after a while.  No name is bound no more, and expressions that the
cursor has passed, and that nothing skips, have bound their names. -/
structure Frame.Tracks (first frame : Frame) : Prop where
  kind : frame.kind = first.kind
  code : frame.code = first.code
  names : ∀ name, first.bindings.contains name = true → frame.bindings.contains name = true
  passed : ∀ address e, first.code[address]? = some (.finish e) → Unskipped first.code address →
    first.cursor ≤ address → address < frame.cursor →
      ∀ name ∈ e.binds, frame.bindings.contains name = true

namespace Frame

variable {first frame next : Frame} {i : Instruction}

theorem Tracks.refl (frame : Frame) : frame.Tracks frame :=
  ⟨rfl, rfl, fun _ => id, fun _ _ _ _ hle hlt => absurd hlt (Nat.not_lt.2 hle)⟩

/-- Whatever nothing skips has been executed when the cursor is behind it. -/
theorem Tracks.executes (h : first.Tracks frame) (hc : frame.current? = some i)
    (hi : frame.Executes i next) : first.Tracks next := by
  have hkept {name : String} (hname : frame.bindings.contains name = true) :
      next.bindings.contains name = true :=
    (hi.names name).2 (.inr hname)
  refine ⟨hi.kind.trans h.kind, hi.code.trans h.code, fun name hname => hkept (h.names name hname),
    fun address e he hskip hle hlt name hname => ?_⟩
  rw [current?, h.code] at hc
  rcases Nat.lt_trichotomy address frame.cursor with hbefore | rfl | hbehind
  · exact hkept (h.passed address e he hskip hle hbefore name hname)
  · obtain rfl := Option.some.inj (hc.symm.trans he)
    exact (hi.names name).2 (.inl hname)
  · rcases hi.cursor with hnext | htarget
    · omega
    · have := hskip frame.cursor i next.cursor hbehind hc htarget
      omega

end Frame

namespace Evaluator

variable {ev mid after later : Evaluator} {frame first last : Frame} {n : Nat} {name : String}

/-- A frame is tracked through all moves that it outlasts. -/
theorem Stays.tracks (h : Stays n ev later) (ho : later.outcome = none)
    (hf : ev.frameAt? n = some first) :
    ∃ last, later.frameAt? n = some last ∧ first.Tracks last := by
  induction h with
  | refl => exact ⟨first, hf, .refl first⟩
  | tail _ hm ih =>
    obtain ⟨frame, hframe, htracks⟩ := ih (hm.1.outcome_of_none ho)
    rcases hm.1.frameAt? ho hm.2 hframe with hsame | ⟨i, hacts⟩
    · exact ⟨frame, hsame, htracks⟩
    · obtain ⟨frame', next, hframe', hc, hnext, hexecutes⟩ := hacts.executes
      obtain rfl := Option.some.inj (hframe.symm.trans hframe')
      exact ⟨next, hnext, htracks.executes hc hexecutes⟩

/-- On the way, an expression that binds the name finishes in the frame that has `n` frames around
it. -/
def BindsIn (n : Nat) (ev later : Evaluator) (name : String) : Prop :=
  ∃ before e next, Stays n ev before ∧ before.ActsIn n (.finish e) next ∧ Stays n next later ∧
    name ∈ e.binds

theorem BindsIn.tail (h : BindsIn n ev mid name) (hm : mid.Moves after)
    (hn : n < after.frames.length) : BindsIn n ev after name := by
  obtain ⟨before, e, next, hbefore, hacts, hnext, hname⟩ := h
  exact ⟨before, e, next, hbefore, hacts, hnext.tail ⟨hm, hn⟩, hname⟩

/-- What has been bound in a frame stays bound in it. -/
theorem BindsIn.contains (h : BindsIn n ev later name) (ho : later.outcome = none)
    (hlast : later.frameAt? n = some last) : last.bindings.contains name = true := by
  obtain ⟨before, e, next, -, hacts, hnext, hname⟩ := h
  obtain ⟨frame, after, -, -, hafter, hexecutes⟩ := hacts.executes
  obtain ⟨last', hlast', htracks⟩ := hnext.tracks ho hafter
  obtain rfl := Option.some.inj (hlast.symm.trans hlast')
  exact htracks.names name ((hexecutes.names name).2 (.inl hname))

/-- A name that is bound in a frame has been bound before or when an expression finished in it. -/
theorem Stays.names_cases (h : Stays n ev later) (ho : later.outcome = none)
    (hfirst : ev.frameAt? n = some first) (hlast : later.frameAt? n = some last)
    (hname : last.bindings.contains name = true) :
    first.bindings.contains name = true ∨ BindsIn n ev later name := by
  induction h generalizing last with
  | refl =>
    obtain rfl := Option.some.inj (hfirst.symm.trans hlast)
    exact .inl hname
  | @tail mid after hstays hm ih =>
    have hmid := hm.1.outcome_of_none ho
    obtain ⟨frame, hframe, -⟩ := Stays.tracks hstays hmid hfirst
    have hbefore (hname : frame.bindings.contains name = true) :
        first.bindings.contains name = true ∨ BindsIn n ev after name :=
      (ih hmid hframe hname).imp_right fun hbinds => hbinds.tail hm.1 hm.2
    rcases hm.1.frameAt? ho hm.2 hframe with hsame | ⟨i, hacts⟩
    · obtain rfl := Option.some.inj (hsame.symm.trans hlast)
      exact hbefore hname
    · obtain ⟨frame', next, hframe', -, hnext, hexecutes⟩ := hacts.executes
      obtain rfl := Option.some.inj (hframe.symm.trans hframe')
      obtain rfl := Option.some.inj (hnext.symm.trans hlast)
      rcases (hexecutes.names name).1 hname with hown | hold
      · cases i with
        | finish e => exact .inr ⟨mid, e, after, hstays, hacts, .refl, hown⟩
        | _ => cases hown
      · exact hbefore hold

/-- The names bound in a frame are those that have been bound when it started, and those of the
expressions that have finished in it since. -/
theorem Stays.names (h : Stays n ev later) (ho : later.outcome = none)
    (hfirst : ev.frameAt? n = some first) (hlast : later.frameAt? n = some last) (name : String) :
    last.bindings.contains name = true ↔
      first.bindings.contains name = true ∨ BindsIn n ev later name := by
  refine ⟨h.names_cases ho hfirst hlast, ?_⟩
  rintro (hname | hbinds)
  · obtain ⟨last', hlast', htracks⟩ := h.tracks ho hfirst
    obtain rfl := Option.some.inj (hlast.symm.trans hlast')
    exact htracks.names name hname
  · exact hbinds.contains ho hlast

end Evaluator

end Stepwise
