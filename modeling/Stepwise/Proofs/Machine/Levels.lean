import Stepwise.Proofs.Code.Shape
import Stepwise.Proofs.Machine.Discipline
import Stepwise.Proofs.Machine.Purity

/-!
# What frames have laid out

The shape of its code says how many values a frame has laid out where its cursor stands
(`Frame.levels`).  An evaluator is tidy if the stack holds just these values, from the base of each
frame on, and those of a frame that waits for a callee lie below the base of that callee.

Passes begin tidy, and stay so as long as each call finds as many arguments laid out as its callee
asks for (`Follows.tidy`): then an instruction takes what lies above some of the levels, all of it,
and leaves one value for it, or none, or a frame that is going to leave one (`Tidy.leaves`).
-/

namespace Stepwise

open Stepwise.Action

/-! ## Where a frame stands -/

/-- What a frame has laid out before the instruction under its cursor. -/
def Frame.levels (frame : Frame) : List Level :=
  shapeAfter [⟨none, 0⟩] (frame.code.take frame.cursor)

/-- How many arguments a frame has laid out for the call that it is about to execute: all values but
the last, which is the callee. -/
def Frame.laidOut (frame : Frame) : Nat :=
  match frame.levels with
  | [] => 0
  | level :: _ => level.count - 1

/-- Code that has the right shape from its start on. -/
def Shaped (ctx : Context) (code : Code) : Prop :=
  Fits ctx [⟨none, 0⟩] code

variable {ctx : Context} {frame : Frame} {i : Instruction}

/-- Lowering yields code of the right shape. -/
theorem Lowers.shaped {code : Code} (h : Lowers ctx code) : Shaped ctx code := by
  obtain ⟨budget, e, memo, after, hlower⟩ := h
  obtain ⟨found, -, rfl, hformed⟩ := exists_layout_of_lower hlower
  exact (laysOne_code hformed).fits (List.cons_ne_nil _ _)

theorem Shaped.levels_ne_nil (h : Shaped ctx frame.code) : frame.levels ≠ [] :=
  h.shapeAfter_ne_nil (List.cons_ne_nil _ _) frame.cursor

theorem drop_of_current? (hc : frame.current? = some i) :
    frame.code.drop frame.cursor = i :: frame.code.drop (frame.cursor + 1) := by
  obtain ⟨hlt, rfl⟩ := List.getElem?_eq_some_iff.1 hc
  exact List.drop_eq_getElem_cons hlt

/-- The instruction under the cursor finds the levels that it needs. -/
theorem Shaped.fits (h : Shaped ctx frame.code) (hc : frame.current? = some i) :
    i.Fits ctx frame.levels (frame.code.drop (frame.cursor + 1)) := by
  have hdrop := Fits.drop h frame.cursor
  rw [drop_of_current? hc] at hdrop
  exact hdrop.1

/-- The levels after the instruction under the cursor and `distance` more. -/
theorem levels_advance (hc : frame.current? = some i) (distance : Nat) :
    ((frame.advance 1).advance distance).levels =
      shapeAfter (i.shape frame.levels) ((frame.code.drop (frame.cursor + 1)).take distance) := by
  have htake : frame.code.take (frame.cursor + 1 + distance) =
      frame.code.take frame.cursor ++
        i :: (frame.code.drop (frame.cursor + 1)).take distance := by
    rw [Nat.add_assoc, Nat.add_comm 1, List.take_add, drop_of_current? hc, List.take_succ_cons]
  rw [Frame.levels]
  show shapeAfter _ (frame.code.take (frame.cursor + 1 + distance)) = _
  rw [htake, shapeAfter_append, shapeAfter_cons]
  rfl

theorem levels_next (hc : frame.current? = some i) :
    (frame.advance 1).levels = i.shape frame.levels :=
  levels_advance hc 0

/-! ## Expressions that fit -/

theorem demand_le_of_parts {e : Expr} {count : Nat} (hp : e.Parts ctx count)
    (he : e.isCall = false) : e.demand ≤ count := by
  cases e with
  | call c => exact nomatch he
  | insert => exact Nat.zero_le _
  | conditional => exact hp.elim
  | unparsable => exact hp.elim
  | _ => exact Nat.le_of_eq hp.2.symm

/-- An expression that answers when it has parts takes as many operands as it has parts. -/
theorem count_of_parts {e : Expr} {count : Nat} {values : List Value} {ev after : Evaluator}
    {answer : Option Value} (hp : e.Parts ctx count) (he : e.isCall = false)
    (h : e.operate values ev = some (.ok answer, after)) : count = e.demand := by
  cases e with
  | call c => exact nomatch he
  | insert id table mark cells => simp [Expr.operate] at h
  | conditional => exact hp.elim
  | unparsable => exact hp.elim
  | _ => exact hp.2

theorem isSome_of_map {m : Action Value} {ev after : Evaluator} {answer : Option Value}
    (h : (some <$> m) ev = some (.ok answer, after)) : answer.isSome := by
  rw [map_apply, Option.map_eq_some_iff] at h
  obtain ⟨⟨r, mid⟩, -, hr⟩ := h
  cases r with
  | ok value => exact Except.ok.inj (Prod.mk.inj hr).1 ▸ rfl
  | error x => exact nomatch (Prod.mk.inj hr).1

theorem isSome_of_pure {value : Value} {ev after : Evaluator} {answer : Option Value}
    (h : (pure (some value) : Action (Option Value)) ev = some (.ok answer, after)) :
    answer.isSome := by
  rw [pure_apply, Option.some.injEq, Prod.mk.injEq] at h
  exact Except.ok.inj h.1 ▸ rfl

/-- An expression that has the operands it takes leaves a value. -/
theorem isSome_of_operate {e : Expr} {values : List Value} {ev after : Evaluator}
    {answer : Option Value} (hp : e.isLeaf = true ∨ ∃ count, e.Parts ctx count)
    (he : e.isCall = false) (hn : values.length = e.demand)
    (h : e.operate values ev = some (.ok answer, after)) : answer.isSome := by
  cases e with
  | call c => exact nomatch he
  | conditional =>
    rcases hp with hleaf | ⟨count, hp⟩
    · exact nomatch hleaf
    · exact hp.elim
  | unparsable =>
    rcases hp with hleaf | ⟨count, hp⟩
    · exact nomatch hleaf
    · exact hp.elim
  | insert => simp [Expr.operate] at h
  | delete => simp [Expr.operate] at h
  | access =>
    obtain ⟨subject, rfl⟩ := List.length_eq_one_iff.1 hn
    exact isSome_of_map h
  | unary =>
    obtain ⟨operand, rfl⟩ := List.length_eq_one_iff.1 hn
    exact isSome_of_map h
  | binary =>
    rw [List.eq_getElem_of_length_eq_two values hn] at h
    exact isSome_of_map h
  | bind b =>
    obtain ⟨value, rfl⟩ := List.length_eq_one_iff.1 hn
    rw [Expr.operate, bind_apply, bindAll, modify_apply, Option.bind_some, continuing_ok] at h
    exact isSome_of_pure h
  | function f => exact isSome_of_map h
  | struct s => exact isSome_of_map h
  | reference id name =>
    rw [Expr.operate, bind_apply, get_apply, Option.bind_some, continuing_ok] at h
    cases hl : ev.lookup name.text with
    | some value =>
      rw [hl] at h
      exact isSome_of_pure h
    | none => simp [hl] at h
  | block id statements =>
    rw [Expr.operate] at h
    cases hl : values.getLast? with
    | some last =>
      rw [hl] at h
      exact isSome_of_pure h
    | none => simp [hl] at h
  | boolean => exact isSome_of_pure h
  | number => exact isSome_of_pure h
  | text => exact isSome_of_pure h
  | list => exact isSome_of_pure h

/-! ## Stacks that are laid out -/

/-- Frames that wait for the result of a frame: each has laid out what lies between its base and the
height at which the frame that it has called started, and will have one value more. -/
def Awaits : List Frame → Nat → Prop
  | [], _ => True
  | frame :: outer, height =>
    (∃ below, below ≠ [] ∧ frame.levels = bump below ∧ height = frame.base + total below) ∧
      Awaits outer frame.base

/-- The stack holds what the frames have laid out. -/
def Measured : List Frame → Nat → Prop
  | [], _ => True
  | frame :: outer, height => height = frame.base + total frame.levels ∧ Awaits outer frame.base

/-- What has started in a frame that waits, started below the height at which its callee did. -/
theorem Awaits.le {inner outer : List Frame} {height : Nat} {e : Expr} {lower : List Level}
    (h : Awaits (inner ++ frame :: outer) height) (ho : Open frame.levels e lower) :
    frame.base + total lower ≤ height := by
  induction inner generalizing height with
  | nil =>
    obtain ⟨⟨below, -, hl, rfl⟩, -⟩ := h
    rw [hl, open_bump] at ho
    have := ho.total_le
    omega
  | cons first inner ih =>
    obtain ⟨⟨below, -, -, rfl⟩, h⟩ := h
    have := ih h
    omega

namespace Evaluator

/-- Everything that has been lowered was lowered in the context. -/
def Faithful (ev : Evaluator) : Prop :=
  ∀ id code, ev.lowered.find? id = some code → Lowers ev.context code

/-- An evaluator that runs lowered code on a stack with what this code has laid out. -/
structure Tidy (ev : Evaluator) : Prop where
  codes : ev.Faithful
  shaped : ∀ frame ∈ ev.frames, Shaped ev.context frame.code
  measured : Measured ev.frames ev.stack.height

/-- If a call is about to be executed, as many arguments have been laid out for it as the inputs of
its callee ask for. -/
def Agrees (ev : Evaluator) : Prop :=
  ∀ frame outer call callee inputs, ev.frames = frame :: outer →
    frame.current? = some (.finish (.call call)) → ev.stack.items.head? = some callee →
    callee.declaredInputs? = some inputs → valueCount (plan inputs call.inputs) = frame.laidOut

/-- `Agrees`, found out by looking. -/
def agreesNow (ev : Evaluator) : Bool :=
  match ev.frames, ev.stack.items with
  | frame :: _, callee :: _ =>
    match frame.current?, callee.declaredInputs? with
    | some (.finish (.call call)), some inputs =>
      valueCount (plan inputs call.inputs) = frame.laidOut
    | _, _ => true
  | _, _ => true

theorem agreesNow_iff {ev : Evaluator} : ev.agreesNow = true ↔ ev.Agrees := by
  constructor
  · intro h frame outer call callee inputs hf hc hi hd
    obtain ⟨others, hi⟩ := List.head?_eq_some_iff.1 hi
    simpa [agreesNow, hf, hi, hc, hd] using h
  · intro h
    unfold agreesNow
    split
    · rename_i frame outer callee others hf hi
      split
      · rename_i call inputs hc hd
        have hcount := h frame outer call callee inputs hf hc (by rw [hi]; rfl) hd
        simpa using hcount
      · rfl
    · rfl

instance (ev : Evaluator) : Decidable ev.Agrees :=
  decidable_of_iff _ agreesNow_iff

/-- Levels and values that an instruction does not take. -/
structure Remains (ev : Evaluator) (frame : Frame) (below : List Level) (kept : List Value) :
    Prop where
  ne : below ≠ []
  opened : ∀ e outer, Open below e outer → Open frame.levels e outer
  items : ∃ values, ev.stack.items = values ++ kept
  length : kept.length = frame.base + total below

/-- What an instruction leaves, where `below` and `kept` are the levels and the values that it does
not take, and `moved` is its frame afterwards. -/
inductive Leaves (ev : Evaluator) (frame : Frame) (outer : List Frame) (i : Instruction)
    (below : List Level) (kept : List Value) (moved : Frame) (after : Evaluator) : Prop
  | nothing (hf : after.frames = moved :: outer) (hl : moved.levels = below)
      (hi : after.stack.items = kept)
  /-- An expression starts. -/
  | level (e : Expr) (hstart : i = .start e) (hbelow : below = frame.levels)
      (hf : after.frames = moved :: outer) (hl : moved.levels = ⟨some e, 0⟩ :: below)
      (hi : after.stack.items = kept)
  | value (value : Value) (hf : after.frames = moved :: outer) (hl : moved.levels = bump below)
      (hi : after.stack.items = value :: kept)
  /-- A frame starts, which is going to leave a value. -/
  | call (new : Frame) (hf : after.frames = new :: moved :: outer) (hl : moved.levels = bump below)
      (hi : after.stack.items = kept) (hnew : new.levels = [⟨none, 0⟩])
      (hshaped : Shaped ev.context new.code) (hb : new.base = kept.length)

variable {ev after : Evaluator} {outer : List Frame}

theorem Tidy.shaped_head (ht : ev.Tidy) (hf : ev.frames = frame :: outer) :
    Shaped ev.context frame.code :=
  ht.shaped frame (by simp [hf])

theorem Tidy.measured_cons (ht : ev.Tidy) (hf : ev.frames = frame :: outer) :
    ev.stack.height = frame.base + total frame.levels ∧ Awaits outer frame.base := by
  have hm := ht.measured
  rw [hf] at hm
  exact hm

/-- A jump leaves everything, or everything but the condition. -/
theorem remains_unbump (ht : ev.Tidy) (hf : ev.frames = frame :: outer) {below : List Level}
    {value : Value} {kept : List Value} (hbelow : below ≠ []) (hl : frame.levels = bump below)
    (hi : ev.stack.items = value :: kept) : ev.Remains frame below kept := by
  obtain ⟨hheight, -⟩ := ht.measured_cons hf
  refine ⟨hbelow, fun e outer ho => ?_, ⟨[value], hi⟩, ?_⟩
  · rw [hl]
    exact open_bump.2 ho
  · rw [hl, total_bump hbelow, Stack.height, hi, List.length_cons] at hheight
    omega

theorem remains_all (ht : ev.Tidy) (hf : ev.frames = frame :: outer) :
    ev.Remains frame frame.levels ev.stack.items :=
  ⟨(ht.shaped_head hf).levels_ne_nil, fun _ _ ho => ho, ⟨[], rfl⟩, (ht.measured_cons hf).1⟩

/-- An expression leaves what lies below its own level. -/
theorem remains_tail (ht : ev.Tidy) (hf : ev.frames = frame :: outer) {level : Level}
    {below : List Level} {values kept : List Value} (hbelow : below ≠ [])
    (hl : frame.levels = level :: below) (hi : ev.stack.items = values ++ kept)
    (hn : values.length = level.count) : ev.Remains frame below kept := by
  obtain ⟨hheight, -⟩ := ht.measured_cons hf
  refine ⟨hbelow, fun e outer ho => ?_, ⟨values, hi⟩, ?_⟩
  · rw [hl]
    exact open_cons.2 (Or.inr ho)
  · rw [hl, total, Stack.height_of_append hi] at hheight
    omega

/-- The frame that a call starts is at the beginning of code of the right shape. -/
theorem Tidy.shaped_of_isNew (ht : ev.Tidy) {mid : Evaluator} {new : Frame}
    (hcodes : ∀ id code, mid.lowered.find? id = some code →
      ev.lowered.find? id = some code ∨ Lowers ev.context code)
    (hnew : new.IsNew mid) : Shaped ev.context new.code := by
  rcases hnew.code with ⟨id, hid⟩ | ⟨hnil, -⟩
  · rcases hcodes id new.code hid with h | h
    · exact (ht.codes id _ h).shaped
    · exact h.shaped
  · rw [hnil]
    trivial

/-- What an instruction does when calls agree with what has been laid out for them. -/
theorem Tidy.leaves {budget : Nat} (ht : ev.Tidy) (hagrees : ev.Agrees)
    (hf : ev.frames = frame :: outer) (hc : frame.current? = some i)
    (ha : i.act budget (ev.fetch frame outer i) = some (.ok (), after)) :
    ∃ below kept moved, ev.Remains frame below kept ∧ moved.code = frame.code ∧
      moved.base = frame.base ∧ ev.Leaves frame outer i below kept moved after := by
  have hfits := (ht.shaped_head hf).fits hc
  have hnext := levels_next hc
  cases act_cases ha with
  | starts e =>
    exact ⟨frame.levels, ev.stack.items, frame.advance 1, remains_all ht hf, rfl, rfl,
      .level e rfl rfl rfl hnext rfl⟩
  | jumps distance node =>
    refine ⟨frame.levels, ev.stack.items, (frame.advance 1).advance distance, remains_all ht hf,
      rfl, rfl, .nothing rfl ?_ rfl⟩
    rw [levels_advance hc]
    exact hfits.2
  | @holds distance node lower hi hb =>
    obtain ⟨⟨below, hbelow, hl⟩, -⟩ := hfits
    refine ⟨below, lower, frame.advance 1, remains_unbump ht hf hbelow hl hi, rfl, rfl,
      .nothing rfl ?_ rfl⟩
    rw [hnext, Instruction.shape, hl, unbump_bump]
  | @skips distance node lower hi hb =>
    obtain ⟨⟨below, hbelow, hl⟩, -, hshape⟩ := hfits
    refine ⟨below, lower, (frame.advance 1).advance (distance + 1),
      remains_unbump ht hf hbelow hl hi, rfl, rfl, .nothing rfl ?_ rfl⟩
    rw [levels_advance hc]
    exact hshape.trans (by rw [hl, unbump_bump])
  | yields values lower mid value he hi hn hb ho hm hv =>
    obtain ⟨bindings, hframes⟩ := @Evolves.frames_cons _ _ (frame.advance 1) outer hm rfl
    rcases hfits with hleaf | ⟨hleaf, count, below, hl, hbelow, hp⟩
    · -- an expression without parts takes nothing
      have hnil : values = [] := List.length_eq_zero_iff.1 (hn.trans (demand_of_isLeaf hleaf))
      subst hnil
      have hi : ev.stack.items = lower := hi
      refine ⟨frame.levels, lower, { frame.advance 1 with bindings := bindings },
        hi ▸ remains_all ht hf, rfl, rfl, .value value hframes ?_ rfl⟩
      exact hnext.trans (if_pos hleaf)
    · have hcount : values.length = count := hn.trans (count_of_parts hp he ho).symm
      refine ⟨below, lower, { frame.advance 1 with bindings := bindings },
        remains_tail ht hf hbelow hl hi hcount, rfl, rfl, .value value hframes ?_ rfl⟩
      refine hnext.trans ?_
      rw [Instruction.shape, if_neg (by simp [hleaf]), hl, List.tail_cons]
  | @idles e values lower mid he hi hn hb ho hm =>
    have hparts : e.isLeaf = true ∨ ∃ count, e.Parts ev.context count := by
      rcases hfits with hleaf | ⟨-, count, -, -, -, hp⟩
      · exact Or.inl hleaf
      · exact Or.inr ⟨count, hp⟩
    have hsome := isSome_of_operate hparts he (by rw [List.length_reverse, hn]) ho
    simp at hsome
  | @enters call callee inputs values lower _ hi hd hn hb hs =>
    obtain ⟨mid, new, hm, hnew, -⟩ := hs
    obtain ⟨bindings, hframes⟩ := @Evolves.frames_cons _ _ (frame.advance 1) outer hm rfl
    obtain ⟨-, count, below, hl, hbelow, hp⟩ := hfits.resolve_left (by simp [Expr.isLeaf])
    obtain ⟨ty, static, -, -, hcount⟩ := hp
    have hi : ev.stack.items = callee :: (values ++ lower) := hi
    have hlaid : valueCount (plan inputs call.inputs) = frame.laidOut :=
      hagrees frame outer call callee inputs hf hc (by rw [hi]; rfl) hd
    have hlen : (callee :: values).length = count := by
      rw [Frame.laidOut, hl] at hlaid
      simp only [List.length_cons] at hlaid ⊢
      omega
    have hshaped : Shaped ev.context new.code := ht.shaped_of_isNew hm.codes hnew
    refine ⟨below, lower, { frame.advance 1 with bindings := bindings },
      remains_tail ht hf hbelow hl hi hlen, rfl, rfl,
      .call { new with base := mid.stack.height } ?_ ?_ ?_ ?_ hshaped ?_⟩
    · exact congrArg (_ :: ·) hframes
    · refine hnext.trans ?_
      rw [Instruction.shape, if_neg (by simp [Expr.isLeaf]), hl, List.tail_cons]
    · show mid.stack.items = lower
      rw [hm.stack]
      rfl
    · show shapeAfter _ (new.code.take new.cursor) = _
      rw [hnew.cursor]
      rfl
    · show mid.stack.height = lower.length
      rw [hm.stack]
      rfl

/-! ## Cached code -/

theorem Evolves.faithful (h : ev.Evolves after) (hev : ev.Faithful) : after.Faithful := by
  intro id code hcode
  rw [h.context]
  rcases h.codes id code hcode with hold | hnew
  · exact hev id code hold
  · exact hnew

theorem faithful_of_acts {r : Except Exception Unit} (h : Acts ev i r after) (hev : ev.Faithful) :
    after.Faithful := by
  have taken (items : List Value) : (ev.withItems items).Faithful := hev
  cases h with
  | starts => exact hev
  | jumps =>
    rw [advance_eq]
    exact hev
  | holds => exact hev
  | skips =>
    rw [advance_eq]
    exact hev
  | yields values lower mid value he hi hn hb ho hm hv =>
    have hmid : mid.Faithful := hm.faithful (taken lower)
    exact hmid
  | idles values lower mid he hi hn hb ho hm => exact hm.faithful (taken lower)
  | enters callee inputs values lower hi hd hn hb hs =>
    obtain ⟨mid, new, hm, -, -⟩ := hs
    have hmid : mid.Faithful := hm.faithful (taken lower)
    exact hmid
  | fails x values lower hi hb hm => exact hm.faithful (taken lower)

theorem Raises.faithful {x : Exception} (h : ev.Raises x after) (hev : ev.Faithful) :
    after.Faithful := by
  cases h with
  | @act budget frame outer i _ _ hf hc ha =>
    have hfetch : (ev.fetch frame outer i).Faithful := hev
    exact faithful_of_acts (act_cases ha) hfetch
  | _ => exact hev

theorem Moves.faithful (h : ev.Moves after) (hev : ev.Faithful) : after.Faithful := by
  cases h with
  | @acts budget _ _ frame outer i ho hf hc ha =>
    have hfetch : (ev.fetch frame outer i).Faithful := hev
    exact faithful_of_acts (act_cases ha) hfetch
  | halts ho hx => exact hx.faithful hev
  | _ => exact hev

theorem faithful_of_beginPass {budget : Nat} {root : Expr}
    (h : ev.beginPass budget root = some after) (hev : ev.Faithful) : after.Faithful := by
  obtain ⟨code, mid, hc, rfl⟩ := beginPass_cases h
  have hreset : ev.reset.Faithful := hev
  have hmid : mid.Faithful := ((evolving_codeOf budget root).evolves hc).faithful hreset
  exact hmid

/-- Whatever a host does, cached code is code that lowering yields. -/
theorem faithful_of_passes {memo : Memo} {options : Options}
    (h : (new ctx memo options).Passes ev) : ev.Faithful := by
  induction h with
  | refl => exact fun _ _ h => nomatch h
  | tail _ ht ih =>
    cases ht with
    | begins budget root hb => exact faithful_of_beginPass hb ih
    | moves hm => exact hm.faithful ih

/-! ## Orderly passes -/

/-- A move of a pass that goes on, in which a call agrees with what has been laid out for it and the
host supplies no exceptions. -/
structure Follows (ev after : Evaluator) : Prop where
  moves : ev.Moves after
  agrees : ev.Agrees
  going : after.outcome = none
  supplied : after.Supplied

/-- Any number of such moves. -/
abbrev Orderly : Evaluator → Evaluator → Prop :=
  Relation.ReflTransGen Follows

theorem Leaves.shaped {below : List Level} {kept : List Value} {moved : Frame}
    (h : ev.Leaves frame outer i below kept moved after) (hcode : moved.code = frame.code)
    (hev : ∀ other ∈ frame :: outer, Shaped ev.context other.code) :
    ∀ other ∈ after.frames, Shaped ev.context other.code := by
  obtain ⟨hframe, houter⟩ := List.forall_mem_cons.1 hev
  have hmoved : Shaped ev.context moved.code := hcode ▸ hframe
  have both : ∀ other ∈ moved :: outer, Shaped ev.context other.code :=
    List.forall_mem_cons.2 ⟨hmoved, houter⟩
  cases h with
  | nothing hf => exact hf ▸ both
  | level e hstart hbelow hf => exact hf ▸ both
  | value value hf => exact hf ▸ both
  | call new hf hl hi hnew hshaped hb => exact hf ▸ List.forall_mem_cons.2 ⟨hshaped, both⟩

theorem Leaves.measured {below : List Level} {kept : List Value} {moved : Frame}
    (h : ev.Leaves frame outer i below kept moved after) (hr : ev.Remains frame below kept)
    (hbase : moved.base = frame.base) (ho : Awaits outer frame.base) :
    Measured after.frames after.stack.height := by
  have hlength := hr.length
  rw [← hbase] at hlength ho
  cases h with
  | nothing hf hl hi =>
    rw [hf, Stack.height, hi]
    exact ⟨by rw [hl, hlength], ho⟩
  | level e hstart hbelow hf hl hi =>
    rw [hf, Stack.height, hi]
    exact ⟨by rw [hl, hlength, total, Nat.zero_add], ho⟩
  | value value hf hl hi =>
    rw [hf, Stack.height, hi]
    exact ⟨by rw [hl, total_bump hr.ne, List.length_cons, hlength, Nat.add_assoc], ho⟩
  | call new hf hl hi hnew hshaped hb =>
    rw [hf, Stack.height, hi]
    exact ⟨by rw [hnew, hb]; rfl, ⟨below, hr.ne, hl, hb.trans hlength⟩, ho⟩

theorem height_handDown {frame : Frame} {value : Value} {outer : List Frame}
    (h : frame.base ≤ ev.stack.height) :
    (ev.handDown frame value outer).stack.height = frame.base + 1 := by
  simp only [handDown, Stack.push, Stack.truncate, Stack.height, List.length_cons,
    List.length_drop] at h ⊢
  omega

/-- An orderly pass stays tidy. -/
theorem Follows.tidy (h : ev.Follows after) (ht : ev.Tidy) : after.Tidy := by
  obtain ⟨hm, hagrees, hgoing, -⟩ := h
  have hcodes : after.Faithful := hm.faithful ht.codes
  cases hm with
  | @acts budget _ _ frame outer i ho hf hc ha =>
    obtain ⟨below, kept, moved, hr, hcode, hbase, hleaves⟩ := ht.leaves hagrees hf hc ha
    have hctx : after.context = ev.context := (act_cases ha).context
    refine ⟨hcodes, ?_, hleaves.measured hr hbase (ht.measured_cons hf).2⟩
    rw [hctx]
    exact hleaves.shaped hcode (hf ▸ ht.shaped)
  | @hands _ frame caller outer value ho hf hd hr hv =>
    obtain ⟨hheight, ⟨below, hbelow, hl, hbase⟩, houter⟩ := ht.measured_cons hf
    refine ⟨hcodes, fun other hmem => ht.shaped other (hf ▸ List.mem_cons_of_mem frame hmem), ?_⟩
    rw [height_handDown (by omega)]
    exact ⟨by rw [hl, total_bump hbelow, hbase, Nat.add_assoc], houter⟩
  | produces => exact nomatch hgoing
  | halts => exact nomatch hgoing
  | injects => exact ⟨hcodes, ht.shaped, ht.measured⟩
  | defines => exact ⟨hcodes, ht.shaped, ht.measured⟩

/-- A pass begins tidy. -/
theorem tidy_of_beginPass {budget : Nat} {root : Expr} (h : ev.beginPass budget root = some after)
    (hev : ev.Faithful) : after.Tidy := by
  have hcodes := faithful_of_beginPass h hev
  obtain ⟨-, hitems, -⟩ := frames_of_beginPass h
  obtain ⟨code, mid, hc, rfl⟩ := beginPass_cases h
  refine ⟨hcodes, fun other hmem => ?_, ?_⟩
  · obtain rfl := List.mem_singleton.1 hmem
    have hfind : mid.lowered.find? root.id = some code := find?_of_codeOf hc
    exact (hcodes root.id code hfind).shaped
  · rw [Stack.height, hitems]
    exact ⟨rfl, trivial⟩

end Evaluator

end Stepwise
