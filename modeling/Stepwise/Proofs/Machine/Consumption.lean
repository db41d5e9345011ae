import Stepwise.Program
import Stepwise.Proofs.Call.Alike
import Stepwise.Proofs.Machine.Levels
import Stepwise.Proofs.Sample
import Stepwise.Syntax.Node

/-!
# What calls consume

A call is laid out by the plan of its arguments against the type of its callee, and takes as many
arguments as the plan against the inputs of its callee asks for.  The two need not agree: function
types compare the facets of inputs and not their names, and a name that is declared twice stands for
the first declaration in types and for the latest at run time.

`call_consumption` says what follows for a pass up to the first call that does not agree.  Every
expression that has started is remembered with the state in which it did (`Recalls`), so that what a
call takes can be compared with what has been pushed since.  `renamedInput` is a program that passes
its check and comes to a call that does not agree.
-/

namespace Stepwise

open Stepwise.Action

variable {ctx : Context} {frame : Frame} {i : Instruction}

namespace Evaluator

variable {ev after : Evaluator} {outer : List Frame}

/-! ## The starts of expressions -/

/-- Orderly moves throughout which more than `n` frames are active. -/
abbrev Within (n : Nat) : Evaluator → Evaluator → Prop :=
  Relation.ReflTransGen fun ev after => ev.Follows after ∧ n < after.frames.length

/-- The state `opened` in which an expression has started that has not finished now, in the frame
that has `outer` around it, on top of the levels `lower`. -/
structure Opened (begun now : Evaluator) (frame : Frame) (outer : List Frame) (e : Expr)
    (lower : List Level) (opened : Evaluator) : Prop where
  reached : begun.Orderly opened
  within : Within outer.length opened now
  start : ∃ earlier, opened.frames = earlier :: outer ∧ earlier.current? = some (.start e) ∧
    earlier.code = frame.code ∧ earlier.base = frame.base
  height : opened.stack.height = frame.base + total lower
  keeps : opened.stack.Keeps opened.stack.height now.stack

/-- Every expression that has started and not finished has been seen starting. -/
def Recalls (begun now : Evaluator) : Prop :=
  ∀ inner frame outer, now.frames = inner ++ frame :: outer → ∀ e lower,
    Open frame.levels e lower → ∃ opened, Opened begun now frame outer e lower opened

variable {begun now opened : Evaluator}

/-- A start is remembered by a move that keeps the frame and the stack up to the start. -/
theorem Opened.next {moved : Frame} {e : Expr} {lower : List Level}
    (h : Opened begun now frame outer e lower opened) (hm : now.Follows after)
    (hlen : outer.length < after.frames.length)
    (hs : now.stack.Keeps (frame.base + total lower) after.stack) (hcode : moved.code = frame.code)
    (hbase : moved.base = frame.base) : Opened begun after moved outer e lower opened := by
  obtain ⟨hreached, hwithin, ⟨earlier, hf, hc, hcode', hbase'⟩, hheight, hkeeps⟩ := h
  refine ⟨hreached, hwithin.tail ⟨hm, hlen⟩, ⟨earlier, hf, hc, ?_, ?_⟩, ?_, ?_⟩
  · rw [hcode', hcode]
  · rw [hbase', hbase]
  · rw [hheight, hbase]
  · exact hkeeps.trans (hheight ▸ hs)

theorem Leaves.keeps {below : List Level} {kept : List Value} {moved : Frame}
    (h : ev.Leaves frame outer i below kept moved after) (hr : ev.Remains frame below kept) :
    ev.stack.Keeps (frame.base + total below) after.stack := by
  obtain ⟨values, hi⟩ := hr.items
  have hle : frame.base + total below ≤ kept.length := Nat.le_of_eq hr.length.symm
  cases h with
  | nothing hf hl hi' => exact Stack.keeps_of_taken hi hi' hle
  | level e hstart hbelow hf hl hi' => exact Stack.keeps_of_taken hi hi' hle
  | value value hf hl hi' =>
    exact Stack.keeps_of_items hi (hi'.trans List.singleton_append.symm) hle
  | call new hf hl hi' hnew hshaped hb => exact Stack.keeps_of_taken hi hi' hle

/-- After an instruction, the frame around it is one frame up at most. -/
theorem Leaves.split {below : List Level} {kept : List Value} {moved : Frame}
    (h : ev.Leaves frame outer i below kept moved after) {inner others : List Frame} {other : Frame}
    (hf : after.frames = inner ++ other :: others) :
    (other = moved ∧ others = outer) ∨ (∃ upper, outer = upper ++ other :: others) ∨
      other.levels = [⟨none, 0⟩] := by
  have tail {upper : List Frame} (hu : moved :: outer = upper ++ other :: others) :
      (other = moved ∧ others = outer) ∨ ∃ upper, outer = upper ++ other :: others := by
    rcases List.cons_eq_append_iff.1 hu with ⟨-, h⟩ | ⟨upper, -, h⟩
    · obtain ⟨rfl, rfl⟩ := List.cons.inj h
      exact Or.inl ⟨rfl, rfl⟩
    · exact Or.inr ⟨upper, h⟩
  cases h with
  | nothing hf' => exact (tail (hf'.symm.trans hf)).imp_right Or.inl
  | level e hstart hbelow hf' => exact (tail (hf'.symm.trans hf)).imp_right Or.inl
  | value value hf' => exact (tail (hf'.symm.trans hf)).imp_right Or.inl
  | call new hf' hl hi hnew =>
    rcases List.cons_eq_append_iff.1 (hf'.symm.trans hf) with ⟨-, h⟩ | ⟨upper, -, h⟩
    · obtain ⟨rfl, -⟩ := List.cons.inj h
      exact Or.inr (Or.inr hnew)
    · exact (tail h).imp_right Or.inl

/-- What is open after an instruction was open before, or it has just started. -/
theorem Leaves.of_open {below : List Level} {kept : List Value} {moved : Frame}
    (h : ev.Leaves frame outer i below kept moved after) {e : Expr} {lower : List Level}
    (ho : Open moved.levels e lower) :
    Open below e lower ∨ i = .start e ∧ lower = below ∧ below = frame.levels := by
  cases h with
  | nothing hf hl => exact Or.inl (hl ▸ ho)
  | value value hf hl => exact Or.inl (open_bump.1 (hl ▸ ho))
  | call new hf hl => exact Or.inl (open_bump.1 (hl ▸ ho))
  | level started hstart hbelow hf hl =>
    rcases open_cons.1 (hl ▸ ho) with ⟨he, hlower⟩ | ho
    · exact Or.inr ⟨Option.some.inj he ▸ hstart, hlower, hbelow⟩
    · exact Or.inl ho

theorem not_open_new {e : Expr} {lower : List Level} (hl : frame.levels = [⟨none, 0⟩]) :
    ¬ Open frame.levels e lower := by
  rw [hl, open_cons]
  rintro (⟨ho, -⟩ | ⟨count, h⟩)
  · exact nomatch ho
  · exact List.cons_ne_nil _ _ (List.suffix_nil.1 h)

/-- An orderly move remembers the starts. -/
theorem Follows.recalls (h : now.Follows after) (hreached : begun.Orderly now) (ht : now.Tidy)
    (hr : begun.Recalls now) : begun.Recalls after := by
  intro inner other others hsplit e lower ho
  have hlen : others.length < after.frames.length := by
    rw [hsplit, List.length_append, List.length_cons]
    omega
  -- a frame that waits is not touched, and neither is the stack up to where it waits
  have waits {frame : Frame} {outer upper : List Frame} (hf : now.frames = frame :: outer)
      (hs : now.stack.Keeps frame.base after.stack) (hu : outer = upper ++ other :: others) :
      ∃ opened, Opened begun after other others e lower opened := by
    obtain ⟨opened, hopened⟩ := hr (frame :: upper) other others (by rw [hf, hu]; rfl) e lower ho
    have hle := Awaits.le (hu ▸ (ht.measured_cons hf).2) ho
    exact ⟨opened, hopened.next h hlen (hs.mono hle) rfl rfl⟩
  -- the host touches neither frames nor stack
  have stays (hf : now.frames = inner ++ other :: others) (hs : after.stack = now.stack) :
      ∃ opened, Opened begun after other others e lower opened := by
    obtain ⟨opened, hopened⟩ := hr inner other others hf e lower ho
    have hle : other.base + total lower ≤ now.stack.height := hopened.height ▸ hopened.keeps.le
    exact ⟨opened, hopened.next h hlen (by rw [hs]; exact .refl hle) rfl rfl⟩
  cases h.moves with
  | @acts budget _ _ frame outer i hout hf hc ha =>
    obtain ⟨below, kept, moved, hremains, hcode, hbase, hleaves⟩ := ht.leaves h.agrees hf hc ha
    have hkeeps := hleaves.keeps hremains
    rcases hleaves.split hsplit with ⟨rfl, rfl⟩ | ⟨upper, hu⟩ | hnew
    · rcases hleaves.of_open ho with hopen | ⟨rfl, rfl, rfl⟩
      · obtain ⟨opened, hopened⟩ := hr [] frame others hf e lower (hremains.opened e lower hopen)
        have hle := Nat.add_le_add_left hopen.total_le frame.base
        exact ⟨opened, hopened.next h hlen (hkeeps.mono hle) hcode hbase⟩
      · have hheight := (ht.measured_cons hf).1
        refine ⟨now, hreached, .single ⟨h, hlen⟩, ⟨frame, hf, hc, hcode.symm, hbase.symm⟩, ?_, ?_⟩
        · rw [hheight, hbase]
        · rw [hheight]
          exact hkeeps
    · exact waits hf (hkeeps.mono (Nat.le_add_right ..)) hu
    · exact absurd ho (not_open_new hnew)
  | @hands _ frame caller outer value hout hf hd hres hv =>
    have hle : frame.base ≤ now.stack.height := by
      have := (ht.measured_cons hf).1
      omega
    have hcut := Stack.keeps_truncate hle
    exact waits hf (hcut.trans (Stack.keeps_push value hcut.le)) hsplit
  | produces => exact nomatch h.going
  | halts => exact nomatch h.going
  | injects => exact stays hsplit rfl
  | defines => exact stays hsplit rfl

/-- What holds throughout an orderly pass. -/
structure Regular (begun now : Evaluator) : Prop where
  going : now.outcome = none
  tidy : now.Tidy
  clean : now.Clean
  recalls : begun.Recalls now

theorem regular_of_beginPass {budget : Nat} {root : Expr}
    (h : ev.beginPass budget root = some begun) (hev : ev.Faithful) (hs : begun.Supplied) :
    begun.Regular begun := by
  have htidy := tidy_of_beginPass h hev
  have hclean := clean_of_beginPass h hs
  obtain ⟨code, mid, hc, rfl⟩ := beginPass_cases h
  have hgoing : mid.outcome = none := ((evolving_codeOf budget root).evolves hc).outcome
  refine ⟨hgoing, htidy, hclean, fun inner frame outer hf e lower ho => ?_⟩
  have hmem : frame ∈ inner ++ frame :: outer := by simp
  rw [← hf] at hmem
  obtain rfl := List.mem_singleton.1 hmem
  exact absurd ho (not_open_new rfl)

theorem Orderly.regular {budget : Nat} {root : Expr} (h : begun.Orderly now)
    (hb : ev.beginPass budget root = some begun) (hev : ev.Faithful) (hs : begun.Supplied) :
    begun.Regular now := by
  induction h with
  | refl => exact regular_of_beginPass hb hev hs
  | tail hreached hm ih =>
    exact ⟨hm.going, hm.tidy ih.tidy, hm.moves.clean ih.clean hm.going hm.supplied,
      hm.recalls hreached ih.tidy ih.recalls⟩

/-! ## Calls -/

/-- What a call finds that is about to be executed, from the bottom of the stack to its top: what
was there when this evaluation of the call started, the arguments that have been laid out for it
since, as many as the plan against the type `static` of its callee asks for, and its callee. -/
structure Laid (begun now : Evaluator) (frame : Frame) (outer : List Frame) (call : Call)
    (opened : Evaluator) (pushed : List Value) (callee : Value) (static : Callee) : Prop where
  start : ∃ lower, Opened begun now frame outer (.call call) lower opened
  stack : now.stack.toList = opened.stack.toList ++ pushed ++ [callee]
  finds : ∃ ty, call.callee.Finds now.context ty ∧ Callee.ofTy? ty = some static
  count : pushed.length = valueCount (plan static.inputs call.inputs)

theorem Laid.items {call : Call} {pushed : List Value} {callee : Value} {static : Callee}
    (h : Laid begun now frame outer call opened pushed callee static) :
    now.stack.items = callee :: (pushed.reverse ++ opened.stack.items) := by
  have hreverse := congrArg List.reverse h.stack
  simpa [Stack.toList] using hreverse

theorem Regular.laid (h : begun.Regular now) (hf : now.frames = frame :: outer) {call : Call}
    (hc : frame.current? = some (.finish (.call call))) :
    ∃ opened pushed callee static, Laid begun now frame outer call opened pushed callee static ∧
      pushed.length = frame.laidOut := by
  have hfits := (h.tidy.shaped_head hf).fits hc
  obtain ⟨count, below, hl, hbelow, hp⟩ := (hfits.resolve_left (by simp [Expr.isLeaf])).2
  obtain ⟨ty, static, hfinds, hstatic, hcount⟩ := hp
  have hopen : Open frame.levels (.call call) below := by
    rw [hl]
    exact open_cons.2 (Or.inl ⟨rfl, rfl⟩)
  obtain ⟨opened, hopened⟩ := h.recalls [] frame outer hf (.call call) below hopen
  obtain ⟨values, hvalues⟩ := hopened.keeps.items
  have hlen : values.length = valueCount (plan static.inputs call.inputs) + 1 := by
    have hheight := (h.tidy.measured_cons hf).1
    have hopened := hopened.height
    rw [Stack.height_of_append hvalues, hl, total] at hheight
    simp only [Stack.height] at hopened hheight
    omega
  obtain ⟨callee, popped, rfl⟩ := List.exists_cons_of_length_eq_add_one hlen
  have hcount' : popped.reverse.length = valueCount (plan static.inputs call.inputs) := by
    simpa using hlen
  refine ⟨opened, popped.reverse, callee, static, ⟨⟨below, hopened⟩, ?_, ⟨ty, hfinds, hstatic⟩,
    hcount'⟩, ?_⟩
  · simp [Stack.toList, hvalues]
  · rw [hcount', Frame.laidOut, hl]
    show _ = count - 1
    omega

/-- A call agrees with what has been laid out for it if its callee asks for as many arguments. -/
theorem agrees_iff (hf : now.frames = frame :: outer) {call : Call}
    (hc : frame.current? = some (.finish (.call call))) {callee : Value} {values : List Value}
    (hi : now.stack.items = callee :: values) :
    now.Agrees ↔ ∀ inputs, callee.declaredInputs? = some inputs →
      valueCount (plan inputs call.inputs) = frame.laidOut := by
  constructor
  · intro h inputs hd
    exact h frame outer call callee inputs hf hc (by rw [hi]; rfl) hd
  · intro h frame' outer' call' callee' inputs hf' hc' hi' hd
    obtain ⟨rfl, rfl⟩ := List.cons.inj (hf.symm.trans hf')
    obtain rfl : call = call' := by simpa using hc.symm.trans hc'
    obtain rfl : callee = callee' := by simpa [hi] using hi'
    exact h inputs hd

/-- Taking as many operands as lie above a part of the stack, and no others, leaves that part. -/
theorem popOperands_iff {values lower : List Value} {count : Nat}
    (hi : ev.stack.items = values ++ lower) (hb : ev.base ≤ lower.length)
    (hv : ∀ value ∈ values, value.isException = false) :
    popOperands count ev = some (.ok values, ev.withItems lower) ↔ count = values.length := by
  constructor
  · intro h
    cases popOperands_cases h with
    | taken _ _ _ hn => exact hn.symm
  · rintro rfl
    exact popOperands_apply hi hb hv

/-- There are as many operands above the base as the next instruction takes, unless it is a call
that does not agree. -/
theorem Tidy.operandsFor_le (ht : ev.Tidy) (hagrees : ev.Agrees) (hf : ev.frames = frame :: outer)
    (hc : frame.current? = some i) : frame.base + ev.operandsFor i ≤ ev.stack.height := by
  obtain ⟨hheight, -⟩ := ht.measured_cons hf
  have hfits := (ht.shaped_head hf).fits hc
  rw [hheight]
  refine Nat.add_le_add_left ?_ frame.base
  cases i with
  | start e => exact Nat.zero_le _
  | jump distance node => exact Nat.zero_le _
  | halt node reason => exact Nat.zero_le _
  | jumpIfFalse distance node =>
    obtain ⟨⟨below, hbelow, hl⟩, -⟩ := hfits
    rw [hl, total_bump hbelow]
    exact Nat.le_add_left 1 _
  | finish e =>
    rcases hfits with hleaf | ⟨hleaf, count, below, hl, hbelow, hp⟩
    · rw [operandsFor_finish ev (isCall_of_isLeaf hleaf), demand_of_isLeaf hleaf]
      exact Nat.zero_le _
    · rw [hl, total]
      refine Nat.le_trans ?_ (Nat.le_add_right count _)
      cases hcall : e.isCall with
      | false =>
        rw [operandsFor_finish ev hcall]
        exact demand_le_of_parts hp hcall
      | true =>
        cases e with
        | call call =>
          obtain ⟨ty, static, -, -, hcount⟩ := hp
          rw [operandsFor]
          cases hd : ev.stack.items.head?.bind Value.declaredInputs? with
          | none =>
            show 1 ≤ count
            omega
          | some inputs =>
            obtain ⟨callee, hhead, hd⟩ := Option.bind_eq_some_iff.1 hd
            have hlaid := hagrees frame outer call callee inputs hf hc hhead hd
            rw [Frame.laidOut, hl] at hlaid
            simp only at hlaid ⊢
            omega
        | _ => simp [Expr.isCall] at hcall

/-- Values run out for calls that do not agree, and for nothing else. -/
theorem Regular.not_agrees {x : Exception} (h : begun.Regular now) (hx : now.Raises x after)
    (hk : x.kind = .insufficientValues) : ¬ now.Agrees := by
  intro hagrees
  cases hx with
  | @act budget frame outer i _ _ hf hc ha =>
    have hfetch := h.clean.fetch hf i
    cases act_cases ha with
    | fails x values lower hi hb hm cause =>
      rcases cause hk with hlt | ⟨y, hmem⟩ | ⟨e, rfl, ho⟩
      · have hle : frame.base + now.operandsFor i ≤ now.stack.height :=
          h.tidy.operandsFor_le hagrees hf hc
        exact Nat.not_lt.2 hle hlt
      · exact nomatch (hfetch.stack _ hmem).isException
      · obtain ⟨hvalues, hlower⟩ := List.forall_mem_append.1 (hi ▸ hfetch.stack)
        have hreverse : ∀ value ∈ values.reverse, value.Clean := by simpa using hvalues
        have hkeep := clean_operate e hreverse
        have hclean := (hkeep.keeps (hfetch.withItems hlower) ho).2 _ rfl _ rfl
        exact nomatch hclean.isException
  | result hf hd hr => exact nomatch (h.clean.result? hf hr).isException
  | noValue => exact nomatch hk
  | idle => exact nomatch hk
  | limit => exact nomatch hk

/-- A call that starts a frame leaves the stack as it was when this evaluation of the call started
if and only if it takes as many arguments as have been laid out for it. -/
theorem Laid.stack_iff {budget : Nat} {call : Call} {pushed : List Value} {callee : Value}
    {static : Callee} {inputs : List Binder}
    (h : Laid begun now frame outer call opened pushed callee static)
    (hd : callee.declaredInputs? = some inputs)
    (ha : (Instruction.finish (.call call)).act budget
      (now.fetch frame outer (.finish (.call call))) = some (.ok (), after)) :
    after.stack.toList = opened.stack.toList ↔
      valueCount (plan inputs call.inputs) = pushed.length := by
  cases act_cases ha with
  | yields values lower mid value he => exact nomatch he
  | idles values lower mid he => exact nomatch he
  | enters callee' inputs' values lower hi hd' hn hb hs =>
    obtain ⟨mid, new, hm, -, -⟩ := hs
    have hall : callee' :: (values ++ lower) = callee :: (pushed.reverse ++ opened.stack.items) :=
      hi.symm.trans h.items
    obtain ⟨rfl, hitems⟩ := List.cons.inj hall
    obtain rfl : inputs = inputs' := Option.some.inj (hd.symm.trans hd')
    have hstack : (mid.pushFrame new).stack.items = lower := by
      rw [pushFrame, hm.stack]
      rfl
    rw [Stack.toList, Stack.toList, List.reverse_inj, hstack, ← hn]
    constructor
    · rintro rfl
      have hlen := congrArg List.length hitems
      simpa using hlen
    · intro hlen
      exact (List.append_inj hitems (by simpa using hlen)).2

/-- A call takes exactly what has been laid out for it if and only if its callee asks for as many
arguments. -/
theorem Laid.takes_iff {call : Call} {pushed : List Value} {callee : Value} {static : Callee}
    (h : Laid begun now frame outer call opened pushed callee static)
    (hf : now.frames = frame :: outer) (hclean : now.Clean) (count : Nat) :
    popOperands count (now.withItems (pushed.reverse ++ opened.stack.items)) =
        some (.ok pushed.reverse, now.withItems opened.stack.items) ↔ count = pushed.length := by
  obtain ⟨lower, hopened⟩ := h.start
  have hheight : opened.stack.items.length = frame.base + total lower := hopened.height
  have hbase : now.base ≤ opened.stack.items.length := by
    rw [base_of_frames hf, hheight]
    exact Nat.le_add_right ..
  have hplain : ∀ value ∈ pushed.reverse, value.isException = false := by
    intro value hmem
    refine (hclean.stack value ?_).isException
    rw [h.items]
    exact List.mem_cons_of_mem _ (List.mem_append_left _ hmem)
  rw [← List.length_reverse]
  exact popOperands_iff rfl hbase hplain

theorem Orderly.going (h : begun.Orderly now) (ho : begun.outcome = none) : now.outcome = none := by
  cases h with
  | refl => exact ho
  | tail _ hm => exact hm.going

theorem Orderly.supplied (h : begun.Orderly now) (hs : begun.Supplied) : now.Supplied := by
  cases h with
  | refl => exact hs
  | tail _ hm => exact hm.supplied

/-- A move leaves the pass as it stands, or ends it with a value or with an exception. -/
theorem Moves.outcome_or (h : now.Moves after) :
    after.outcome = now.outcome ∨ (∃ value, after.outcome = some (.produced value)) ∨
      ∃ x mid, now.Raises x mid ∧ after.outcome = some (.halted x) := by
  cases h with
  | acts budget ho hf hc ha => exact Or.inl (act_cases ha).outcome
  | hands => exact Or.inl rfl
  | produces => exact Or.inr (Or.inl ⟨_, rfl⟩)
  | halts ho hx => exact Or.inr (Or.inr ⟨_, _, hx, rfl⟩)
  | injects => exact Or.inl rfl
  | defines => exact Or.inl rfl

/-- A pass that has ended stays ended. -/
theorem Moves.outcome_of_ended {outcome : Outcome} (h : now.Moves after)
    (ho : now.outcome = some outcome) : after.outcome = some outcome := by
  cases h with
  | acts budget hgoing => exact nomatch hgoing.symm.trans ho
  | hands hgoing => exact nomatch hgoing.symm.trans ho
  | produces hgoing => exact nomatch hgoing.symm.trans ho
  | halts hgoing => exact nomatch hgoing.symm.trans ho
  | injects => exact ho
  | defines => exact ho

/-- What becomes of a pass: it goes on in order, or it comes to a call that does not agree, or it
ends before it comes to one. -/
theorem orderly_or {later : Evaluator} (h : begun.Runs later) (ho : begun.outcome = none)
    (hs : begun.Supplied) :
    begun.Orderly later ∨ (∃ now, begun.Orderly now ∧ ¬ now.Agrees) ∨
      ∃ now, begun.Orderly now ∧ now.Agrees ∧
        ((∃ value, later.outcome = some (.produced value)) ∨
          ∃ x mid, now.Raises x mid ∧ later.outcome = some (.halted x)) := by
  induction h with
  | refl => exact Or.inl .refl
  | @tail now next _ hw ih =>
    rcases ih with h | h | ⟨first, h, hagrees, hend⟩
    · by_cases hagrees : now.Agrees
      · have hnow : now.Supplied := h.supplied hs
        have hnext : next.Supplied := hw.supplied_iff.2 hnow
        rcases hw.moves.outcome_or with hgoing | hend
        · exact Or.inl (h.tail ⟨hw.moves, hagrees, hgoing.trans (h.going ho), hnext⟩)
        · exact Or.inr (Or.inr ⟨now, h, hagrees, hend⟩)
      · exact Or.inr (Or.inl ⟨now, h, hagrees⟩)
    · exact Or.inr (Or.inl h)
    · refine Or.inr (Or.inr ⟨first, h, hagrees, ?_⟩)
      rcases hend with ⟨value, hended⟩ | ⟨x, mid, hx, hended⟩
      · exact Or.inl ⟨value, hw.moves.outcome_of_ended hended⟩
      · exact Or.inr ⟨x, mid, hx, hw.moves.outcome_of_ended hended⟩

/-- What calls consume.  In a pass in which every call so far has agreed with what had been laid out
for it, a call that is about to be executed finds its own arguments and its callee on top of the
stack that it started on, as many arguments as the plan of its lowering asks for.  It takes exactly
them if and only if the plan against the inputs of the callee that it meets asks for as many; and if
it starts a frame, exactly then the stack is what it was when the call started.  Values run out only
for a call for which this is not so, and no run ends for want of values that does not come to
one. -/
theorem call_consumption {memo : Memo} {options : Options} {budget : Nat} {root : Expr}
    (hev : (new ctx memo options).Passes ev) (hb : ev.beginPass budget root = some begun)
    (hs : begun.Supplied) :
    (∀ now, begun.Orderly now →
      (∀ frame outer call, now.frames = frame :: outer →
        frame.current? = some (.finish (.call call)) →
        ∃ opened pushed callee static, Laid begun now frame outer call opened pushed callee static ∧
          (now.Agrees ↔ ∀ inputs, callee.declaredInputs? = some inputs →
            valueCount (plan inputs call.inputs) = pushed.length) ∧
          ∀ inputs, callee.declaredInputs? = some inputs →
            (popOperands (valueCount (plan inputs call.inputs))
                (now.withItems (pushed.reverse ++ opened.stack.items)) =
                  some (.ok pushed.reverse, now.withItems opened.stack.items) ↔
              valueCount (plan inputs call.inputs) = pushed.length) ∧
            (∀ bound after, (Instruction.finish (.call call)).act bound
                (now.fetch frame outer (.finish (.call call))) = some (.ok (), after) →
              (after.stack.toList = opened.stack.toList ↔
                valueCount (plan inputs call.inputs) = pushed.length)) ∧
            (List.Forall₂ (Binder.Alike call.inputs) static.inputs inputs →
              valueCount (plan inputs call.inputs) = pushed.length)) ∧
      ∀ x after, now.Raises x after → x.kind = .insufficientValues → ¬ now.Agrees) ∧
    ∀ bound fuel x after, begun.run bound fuel = some (.halted x, after) →
      x.kind = .insufficientValues → ∃ now, begun.Orderly now ∧ ¬ now.Agrees := by
  have hfaithful := faithful_of_passes hev
  refine ⟨fun now h => ?_, fun bound fuel x after hrun hk => ?_⟩
  · have hregular := h.regular hb hfaithful hs
    refine ⟨fun frame outer call hf hc => ?_, fun x after hx hk => hregular.not_agrees hx hk⟩
    obtain ⟨opened, pushed, callee, static, hlaid, hcount⟩ := hregular.laid hf hc
    refine ⟨opened, pushed, callee, static, hlaid, ?_, fun inputs hd =>
      ⟨?_, fun bound after ha => ?_, fun halike => ?_⟩⟩
    · rw [hcount]
      exact agrees_iff hf hc hlaid.items
    · exact hlaid.takes_iff hf hregular.clean _
    · exact hlaid.stack_iff hd ha
    · rw [hlaid.count]
      exact (valueCount_plan_alike halike).symm
  · have hbegun := regular_of_beginPass hb hfaithful hs
    have hended : after.outcome = some (.halted x) := outcome_of_run hrun
    rcases orderly_or (runs_of_run hrun) hbegun.going hs with h | h | ⟨now, h, hagrees, hend⟩
    · exact nomatch (h.regular hb hfaithful hs).going.symm.trans hended
    · exact h
    · rcases hend with ⟨value, hvalue⟩ | ⟨y, mid, hy, hhalted⟩
      · exact nomatch hvalue.symm.trans hended
      · obtain rfl : x = y := by simpa using hended.symm.trans hhalted
        exact absurd hagrees ((h.regular hb hfaithful hs).not_agrees hy hk)

/-- A new evaluator has been supplied with nothing. -/
theorem supplied_of_new {memo : Memo} {options : Options} {budget : Nat} {root : Expr}
    (h : (new ctx memo options).beginPass budget root = some begun) : begun.Supplied := by
  obtain ⟨code, mid, hc, rfl⟩ := beginPass_cases h
  have hrest := ((evolving_codeOf budget root).evolves hc).rest
  have hglobals : mid.globals = .empty := by
    rw [hrest]
    rfl
  have hstreams : mid.streams = .empty := by
    rw [hrest]
    rfl
  exact ⟨hglobals ▸ clean_bindings.empty, hstreams ▸ clean_bindings.empty⟩

end Evaluator

/-! ## A call that takes too much -/

/-- The function `f` expects a function whose first input is `x` and calls it with an argument of
that name.  It is given `h`, whose first input is `y`: function types do not compare names.  To `h`
the argument is one of those that its last input collects, and the first input has its default. -/
def renamedInput : Program :=
  let inputs (id : Nat) (text : String) : List Binder :=
    [bindingOf id text (booleanOf (id + 1) true), restOf (id + 2) "others" .boolean]
  let h := functionOf 1 "h" (inputs 2 "y") (some .boolean) (some (referenceOf 5 "y"))
  let g := binderOf 7 "g" (some (.function [] (inputs 8 "x") .boolean)) none
  let inner := callWith 11 (referenceOf 12 "g") [.bind (bindingOf 13 "x" (booleanOf 14 true))]
  let f := functionOf 6 "f" [g] (some .boolean) (some (.call inner))
  ⟨.block ⟨0⟩ [.function h, .function f,
    .call (callWith 15 (referenceOf 16 "f") [referenceOf 17 "h"])]⟩

/-- Whether a pass has ended for want of values. -/
def Outcome.isStarved : Outcome → Bool
  | .halted x => x.kind = .insufficientValues
  | .produced _ => false

/-- A program without text that could not be parsed, which passes its check and ends for want of
values all the same. -/
theorem renamedInput_starves :
    let ctx : Context := { lexicon := renamedInput.lexicon }
    (Node.expr renamedInput.root).descendants.all
        (fun node => !node.asExpr?.any Expr.isUnparsable) = true ∧
      (renamedInput.check 30 ctx .empty).any (fun found => found.1.toBool) = true ∧
      (renamedInput.evaluate 30 100 {} ctx .empty).any (fun found => found.1.isStarved) = true := by
  refine ⟨?_, ?_, ?_⟩ <;> decide +kernel

/-- In the pass over this program there is a call that does not agree with what has been laid out
for it. -/
theorem call_consumption_renamedInput :
    ∃ begun now, (Evaluator.new { lexicon := renamedInput.lexicon } .empty {}).beginPass 30
        renamedInput.root = some begun ∧ begun.Orderly now ∧ ¬ now.Agrees := by
  let start := Evaluator.new { lexicon := renamedInput.lexicon } .empty {}
  have hruns : ((start.beginPass 30 renamedInput.root).bind (Evaluator.run 30 100)).any
      (fun found => found.1.isStarved) = true := by decide +kernel
  obtain ⟨⟨outcome, after⟩, hrun, hstarved⟩ := (Option.any_eq_true _ _).1 hruns
  obtain ⟨begun, hb, hrun⟩ := Option.bind_eq_some_iff.1 hrun
  have h := Evaluator.call_consumption .refl hb (Evaluator.supplied_of_new hb)
  cases outcome with
  | produced value => exact nomatch hstarved
  | halted x =>
    obtain ⟨now, hnow, hagrees⟩ := h.2 30 100 x after hrun (of_decide_eq_true hstarved)
    exact ⟨begun, now, hb, hnow, hagrees⟩

end Stepwise
