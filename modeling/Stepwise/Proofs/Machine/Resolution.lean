import Stepwise.Proofs.Code.Halts
import Stepwise.Proofs.Machine.Independence
import Stepwise.Proofs.Machine.Replay
import Stepwise.Proofs.Machine.Scaling
import Stepwise.Proofs.Machine.Standing
import Stepwise.Proofs.Sample

/-!
# References find their names

Analysis accepts a reference to any name that is declared somewhere in the program.  The machine
looks for the name among those that have been bound by then, so a reference in front of the
declaration is accepted and fails.

References that stand behind the binding of their names do not fail.  `Evaluator.Placed` is the
invariant: all frames stand at places that the code of the program leads to, and see the names that
are bound there.  It holds through every pass over the program, whatever else the host does
(`placed_of_passesOf`).  Analysis does its part in that it knows of all names that are declared
nowhere (`declared_of_checked`).
-/

namespace Stepwise

open Stepwise.Action Query Relation

variable {S : Source}

/-! ## Instructions -/

section Instructions

variable {frame : Frame} {outer : List Frame} {names : List String} {ev after : Evaluator}
  {budget : Nat} {r : Except Exception Unit}

/-- What is left behind by an instruction.  If it has failed, then no frame goes on. -/
structure Evaluator.LeftPlaced (S : Source) (r : Except Exception Unit) (after : Evaluator) :
    Prop where
  supported : after.Supported S
  stack : r = .ok () → ∀ value ∈ after.stack.items, value.Placed S
  frames : r = .ok () → ∀ other ∈ after.frames, other.Placed S

theorem Evaluator.StandsIn.failed (h : after.StandsIn S frame outer names) (x : Exception) :
    Evaluator.LeftPlaced S (.error x) after :=
  ⟨h.supported, fun hr => (nomatch hr), fun hr => (nomatch hr)⟩

variable (hctx : S.context.Within S.root.nested) (hids : Identified S.root.nested)
  (hresolves : S.Resolves)
  (howner : ∀ s, frame.owner = some s → s.nested ⊆ S.root.nested)
  (houter : ∀ other ∈ outer, other.Placed S)

include howner houter

theorem Evaluator.StandsIn.left (h : after.StandsIn S frame outer names)
    (hplace : S.Reaches ⟨frame.code.drop frame.cursor, names, frame.owner⟩) :
    Evaluator.LeftPlaced S r after :=
  ⟨h.supported, fun _ => h.stack, fun _ => h.placed hplace howner houter⟩

/-- After a jump the frame stands where the jump leads. -/
theorem left_of_advance (distance : Nat) (hev : ev.StandsIn S frame outer names)
    (hplace : S.Reaches ⟨(frame.code.drop frame.cursor).drop distance, names, frame.owner⟩) :
    Evaluator.LeftPlaced S r (ev.advance distance) := by
  rw [List.drop_drop] at hplace
  have howner : ∀ s, (frame.advance distance).owner = some s → s.nested ⊆ S.root.nested := howner
  exact (hev.advance distance).left howner houter hplace

theorem left_of_condition {distance : Nat} {node : NodeId} (hev : ev.StandsIn S frame outer names)
    (hplace : S.Reaches
      ⟨.jumpIfFalse distance node :: frame.code.drop frame.cursor, names, frame.owner⟩)
    (h : (Instruction.jumpIfFalse distance node).act budget ev = some (r, after)) :
    Evaluator.LeftPlaced S r after := by
  rcases bind_eq_some h with ⟨value, mid, hpop, h⟩ | ⟨x, hpop, rfl⟩
  · obtain ⟨hmid, hvalue⟩ := (standsIn_stack.popValue.blaming node).keeps hev hpop
    have hvalue := hvalue value rfl
    cases value with
    | boolean b =>
      cases b with
      | true =>
        obtain ⟨rfl, rfl⟩ := Prod.mk.inj (Option.some.inj h)
        exact hmid.left howner houter (hplace.leads (.holds ..))
      | false =>
        obtain ⟨rfl, rfl⟩ := Prod.mk.inj (Option.some.inj h)
        exact left_of_advance howner houter (distance + 1) hmid (hplace.leads (.skips ..))
    | exception x => cases hvalue
    | _ =>
      obtain ⟨rfl, rfl⟩ := Prod.mk.inj (Option.some.inj h)
      exact hmid.failed _
  · exact ((standsIn_stack.popValue.blaming node).keeps hev hpop).1.failed x

include hctx hids

theorem left_of_call {call : Call} (hev : ev.StandsIn S frame outer names)
    (hplace : S.Reaches ⟨.finish (.call call) :: frame.code.drop frame.cursor, names, frame.owner⟩)
    (h : (Instruction.finish (.call call)).act budget ev = some (r, after)) :
    Evaluator.LeftPlaced S r after := by
  rw [act_call, executeCall_eq] at h
  rcases bind_eq_some h with ⟨made, mid, hprepare, h⟩ | ⟨x, hprepare, rfl⟩
  · obtain ⟨hmid, hmade⟩ := (standsIn_prepareCall hctx hids budget call).keeps hev hprepare
    have hmade := hmade made rfl
    rcases startFrame_cases h with ⟨rfl, rfl, -⟩ | ⟨rfl, rfl, -⟩
    · exact hmid.failed _
    · have hcaller := hmid.placed (hplace.leads (.finish ..)) howner houter
      refine ⟨hmid.supported.of_eq rfl rfl rfl, fun _ => hmid.stack, fun _ => ?_⟩
      exact List.forall_mem_cons.2 ⟨⟨hmade.owner, hmade.place.imp fun _ hat =>
        ⟨hat.1, hat.2.bindings, hat.2.scope, hat.2.names⟩⟩, hcaller⟩
  · exact ((standsIn_prepareCall hctx hids budget call).keeps hev hprepare).1.failed x

omit hids in
include hresolves in
theorem left_of_execute {e : Expr} (he : e.isCall = false) (hev : ev.StandsIn S frame outer names)
    (hplace : S.Reaches ⟨.finish e :: frame.code.drop frame.cursor, names, frame.owner⟩)
    (h : (Instruction.finish e).act budget ev = some (r, after)) :
    Evaluator.LeftPlaced S r after := by
  rw [Instruction.act, execute_eq budget he, bind_assoc] at h
  rcases bind_eq_some h with ⟨values, mid, hpop, h⟩ | ⟨x, hpop, rfl⟩
  case inr => exact ((standsIn_stack.popOperands e.demand).keeps hev hpop).1.failed x
  obtain ⟨hmid, hvalues⟩ := (standsIn_stack.popOperands e.demand).keeps hev hpop
  obtain ⟨hcount, hvalues⟩ := hvalues values rfl
  have hexecuted {result : Except Exception (Option Value)} {last : Evaluator}
      (hop : e.operate values.reverse mid = some (result, last)) :
      Executed S frame outer names e result last :=
    executed_operate hctx hresolves hplace (by simpa using hcount) (by simpa using hvalues) hmid hop
  rcases bind_eq_some h with ⟨answer, last, hop, h⟩ | ⟨x, hop, rfl⟩
  · have hlast := hexecuted hop
    have hbinds := hlast.binds answer rfl
    have hnext := hplace.leads (.finish e _ names frame.owner)
    cases answer with
    | none =>
      obtain ⟨rfl, rfl⟩ := Prod.mk.inj (Option.some.inj h)
      exact hbinds.left howner houter hnext
    | some value =>
      have hvalue := hlast.value value rfl
      have hpush : (r, after) = (.ok (), last.withItems (value :: last.stack.items)) := by
        cases hvalue <;> exact (Option.some.inj h).symm
      obtain ⟨rfl, rfl⟩ := Prod.mk.inj hpush
      have hstack := List.forall_mem_cons.2 ⟨hvalue, hbinds.stack⟩
      exact (hbinds.withItems hstack).left howner houter hnext
  · exact (hexecuted hop).stands.failed x

include hresolves

/-- An instruction leaves all frames at places that its own place leads to. -/
theorem left_of_act {i : Instruction} (hev : ev.StandsIn S frame outer names)
    (hplace : S.Reaches ⟨i :: frame.code.drop frame.cursor, names, frame.owner⟩)
    (h : i.act budget ev = some (r, after)) : Evaluator.LeftPlaced S r after := by
  cases i with
  | start e =>
    obtain ⟨rfl, rfl⟩ := Prod.mk.inj (Option.some.inj h)
    exact hev.left howner houter (hplace.leads (.start ..))
  | jump distance node =>
    obtain ⟨rfl, rfl⟩ := Prod.mk.inj (Option.some.inj h)
    exact left_of_advance howner houter distance hev (hplace.leads (.jump ..))
  | halt node reason =>
    obtain ⟨rfl, rfl⟩ := Prod.mk.inj (Option.some.inj h)
    exact hev.failed _
  | jumpIfFalse distance node => exact left_of_condition howner houter hev hplace h
  | finish e =>
    cases he : e.isCall with
    | false => exact left_of_execute hctx hresolves howner houter he hev hplace h
    | true =>
      cases e with
      | call call => exact left_of_call hctx hids howner houter hev hplace h
      | _ => cases he

end Instructions

/-! ## Passes -/

namespace Evaluator

variable {ev after : Evaluator}

/-- What is kept is about the program, and while a pass runs all frames stand at places that its
code leads to. -/
structure Placed (S : Source) (ev : Evaluator) : Prop where
  supported : ev.Supported S
  stack : ev.outcome = none → ∀ value ∈ ev.stack.items, value.Placed S
  frames : ev.outcome = none → ∀ frame ∈ ev.frames, frame.Placed S

/-- The instruction under the cursor acts in a frame that stands behind it. -/
theorem Placed.fetch {frame : Frame} {outer : List Frame} {i : Instruction} (h : ev.Placed S)
    (ho : ev.outcome = none) (hf : ev.frames = frame :: outer) (hc : frame.current? = some i) :
    ∃ names, S.Reaches ⟨i :: (frame.advance 1).code.drop (frame.advance 1).cursor, names,
        (frame.advance 1).owner⟩ ∧
      frame.Sees S names ∧ (ev.fetch frame outer i).StandsIn S (frame.advance 1) outer names := by
  obtain ⟨-, names, hplace, hsees⟩ := h.frames ho frame (by simp [hf])
  rw [drop_of_current? hc] at hplace
  refine ⟨names, hplace, hsees, h.supported.of_eq rfl rfl rfl, h.stack ho, frame.bindings, rfl, ?_⟩
  exact ⟨hsees.bindings, hsees.scope, hsees.names⟩

/-- The result of a finished frame.  The functions of an instance find in it what is bound at the
end of the block. -/
theorem Placed.result? {frame : Frame} {outer : List Frame} {value : Value} (h : ev.Placed S)
    (ho : ev.outcome = none) (hf : ev.frames = frame :: outer) (hd : frame.isDone = true)
    (hr : ev.result? frame = some value) : value.Placed S := by
  obtain ⟨howner, names, hplace, hsees⟩ := h.frames ho frame (by simp [hf])
  unfold Evaluator.result? at hr
  split at hr
  · rename_i s hkind
    have hown : frame.owner = some s := by rw [Frame.owner, hkind]
    have hend : frame.code.drop frame.cursor = [] :=
      List.drop_eq_nil_iff.2 (of_decide_eq_true hd)
    rw [hown, hend] at hplace
    obtain rfl := Option.some.inj hr
    refine .struct (howner s hown) (hsees.capture _) fun f hf body hbody => ?_
    exact ⟨names, hsees.isSome_capture _, fun code hcode =>
      hplace.leads (.member names hf hbody hcode)⟩
  · obtain ⟨⟨top, lower⟩, hpop, rfl⟩ := Option.map_eq_some_iff.1 hr
    exact h.stack ho _ (Stack.mem_of_popAbove hpop)

section

variable (hctx : S.context.Within S.root.nested) (hids : Identified S.root.nested)
  (hresolves : S.Resolves)

include hctx hids hresolves

theorem Placed.left {budget : Nat} {frame : Frame} {outer : List Frame} {i : Instruction}
    {r : Except Exception Unit} (h : ev.Placed S) (ho : ev.outcome = none)
    (hf : ev.frames = frame :: outer) (hc : frame.current? = some i)
    (ha : i.act budget (ev.fetch frame outer i) = some (r, after)) : LeftPlaced S r after := by
  obtain ⟨names, hplace, -, hstands⟩ := h.fetch ho hf hc
  have hframe := h.frames ho frame (by simp [hf])
  have houter : ∀ other ∈ outer, other.Placed S :=
    fun other hmem => h.frames ho other (hf ▸ List.mem_cons_of_mem frame hmem)
  have howner : ∀ s, (frame.advance 1).owner = some s → s.nested ⊆ S.root.nested := hframe.owner
  exact left_of_act hctx hids hresolves howner houter hstands hplace ha

/-- Every move leads from places to places. -/
theorem Moves.placed (hm : ev.Moves after) (h : ev.Placed S) : after.Placed S := by
  cases hm with
  | acts budget ho hf hc ha =>
    have hleft := h.left hctx hids hresolves ho hf hc ha
    exact ⟨hleft.supported, fun _ => hleft.stack rfl, fun _ => hleft.frames rfl⟩
  | @hands ev frame caller outer value ho hf hd hr hv =>
    have hvalue := h.result? ho hf hd hr
    refine ⟨h.supported.of_eq rfl rfl rfl, fun _ => ?_, fun _ other hmem => ?_⟩
    · refine List.forall_mem_cons.2 ⟨hvalue, fun other hmem => ?_⟩
      exact h.stack ho other (List.mem_of_mem_drop hmem)
    · exact h.frames ho other (hf ▸ List.mem_cons_of_mem frame hmem)
  | produces => exact ⟨h.supported.of_eq rfl rfl rfl, fun ho => (nomatch ho), fun ho => nomatch ho⟩
  | @halts ev mid x ho hx =>
    have hmid : mid.Supported S := by
      cases hx with
      | act budget hf hc ha => exact (h.left hctx hids hresolves ho hf hc ha).supported
      | _ => exact h.supported.of_eq rfl rfl rfl
    exact ⟨hmid.of_eq rfl rfl rfl, fun ho => (nomatch ho), fun ho => nomatch ho⟩
  | injects => exact ⟨h.supported.of_eq rfl rfl rfl, h.stack, h.frames⟩
  | defines => exact ⟨h.supported.of_eq rfl rfl rfl, h.stack, h.frames⟩

omit hresolves in
/-- A pass over the program begins at the start of its code, and nothing is bound there. -/
theorem placed_of_beginPass {budget : Nat} (h : ev.Placed S)
    (hb : ev.beginPass budget S.root = some after) : after.Placed S := by
  obtain ⟨-, hitems, -⟩ := frames_of_beginPass hb
  obtain ⟨code, mid, hc, rfl⟩ := beginPass_cases hb
  have hreset : ev.reset.Supported S := h.supported.of_eq rfl rfl rfl
  obtain ⟨hmid, hcode⟩ :=
    (supported_codeOf hctx hids budget (List.Subset.refl S.root.nested)).keeps hreset hc
  refine ⟨hmid.of_eq rfl rfl rfl, fun _ value hmem => ?_, fun _ => List.forall_mem_singleton.2 ?_⟩
  · rw [hitems] at hmem
    cases hmem
  · refine ⟨fun _ hkind => (nomatch hkind), [], ⟨code, hcode code rfl, .refl⟩, allBound_empty, ?_,
      fun _ hname => (nomatch hname)⟩
    exact .mk (fun _ _ hf => (nomatch hf)) fun _ hp => (nomatch hp)

/-- An exception that a frame comes upon when it is finished is that it has left no value. -/
theorem Completes.kind {x : Exception} {last : Evaluator} (hx : ev.Completes x last)
    (h : ev.Placed S) (ho : ev.outcome = none) : x.kind = .noValue := by
  induction hx with
  | noValue => rfl
  | result hf hd hr => cases h.result? ho hf hd hr
  | hands hf hd hr hv hx ih =>
    exact ih (Moves.placed hctx hids hresolves (.hands ho hf hd hr hv) h) ho

end

/-! ## Histories -/

/-- A move, or the start of a pass over the expression. -/
inductive TurnsOf (root : Expr) (ev after : Evaluator) : Prop
  | begins (budget : Nat) (h : ev.beginPass budget root = some after)
  | moves (h : ev.Moves after)

/-- The states that an evaluator passes through, those within a step included, when it evaluates
nothing but the expression.  The host may supply what it likes. -/
abbrev PassesOf (root : Expr) : Evaluator → Evaluator → Prop :=
  ReflTransGen (TurnsOf root)

theorem Progresses.passesOf (root : Expr) (h : ev.Progresses after) : ev.PassesOf root after := by
  induction h with
  | refl => exact .refl
  | tail _ hm ih => exact ih.tail (.moves hm)

/-- Stepping is no more than moving. -/
theorem passesOf_of_afterSteps (root : Expr) {budget n : Nat}
    (h : ev.afterSteps budget n = some after) : ev.PassesOf root after := by
  induction n generalizing ev with
  | zero => exact Option.some.inj h ▸ .refl
  | succ n ih =>
    obtain ⟨⟨answer, next⟩, hstep, hnext⟩ := Option.bind_eq_some_iff.1 h
    exact ((runs_of_step hstep).progresses.passesOf root).trans (ih hnext)

/-- In an evaluator that has evaluated nothing but the program, all frames stand at places that its
code leads to. -/
theorem placed_of_passesOf {options : Options} (hctx : S.context.Within S.root.nested)
    (hids : Identified S.root.nested) (hresolves : S.Resolves) (hrest : S.memo.AtRest)
    (hknown : S.memo.Known S.context S.root.nested)
    (h : (new S.context S.memo options).PassesOf S.root ev) : ev.Placed S := by
  induction h with
  | refl =>
    exact ⟨⟨rfl, ⟨.refl hrest, hknown⟩, fun _ _ _ hcode => (nomatch hcode)⟩,
      fun _ _ hmem => (nomatch hmem), fun _ _ hmem => (nomatch hmem)⟩
  | tail _ hturn ih =>
    cases hturn with
    | begins budget hb => exact placed_of_beginPass hctx hids ih hb
    | moves hm => exact hm.placed hctx hids hresolves ih

end Evaluator

/-! ## Checked programs -/

/-- Analysis accepts references to declared names only. -/
theorem declared_of_checked {program : Program} {ctx : Context} {start checked : Memo} {id : NodeId}
    {name : Token} (hcheck : Gives (fun n => program.check n) ctx start (.ok ()) checked)
    (hanalysed : .reference id name ∈ program.root.analysed) :
    (ctx.find? name.text).isSome = true := by
  obtain ⟨budget, hreported⟩ := Program.reported_of_check hcheck
  obtain ⟨mid, own, last, -, hown, -, hminor⟩ := hreported _ hanalysed
  have hown : referenceConflicts id name.text ctx mid = some (own, last) := hown
  unfold referenceConflicts at hown
  obtain ⟨found, mid', hread, hown⟩ := bind_eq_some.1 hown
  obtain ⟨rfl, rfl⟩ := Prod.mk.inj (Option.some.inj hread)
  cases hfind : ctx.find? name.text with
  | some found => rfl
  | none =>
    simp only [hfind] at hown
    obtain ⟨rfl, -⟩ := pure_eq_some.1 hown
    exact nomatch hminor _ List.mem_cons_self

/-- A reference pushes what its name is bound to. -/
theorem act_reference {ev : Evaluator} (id : NodeId) {name : Token} {value : Value}
    (hl : ev.lookup name.text = some value) (hv : value.isException = false) (budget : Nat) :
    (Instruction.finish (.reference id name)).act budget ev =
      some (.ok (), ev.withItems (value :: ev.stack.items)) := by
  have hexecute : (Expr.reference id name).execute budget ev = some (.ok (some value), ev) := by
    rw [execute_eq budget rfl]
    exact (operate_reference id name [] ev).trans (by rw [hl]; rfl)
  rw [Instruction.act, bind_apply, hexecute]
  cases value with
  | exception x => cases hv
  | _ => rfl

/-- In a program that has been checked, references find their names, provided that each stands
behind a binding of its name.

Along every path through the code of the program, from its start into the bodies of functions and
the blocks of structures, references to declared names come after the name has been bound.  Then,
whatever the host supplies and whatever the limits, the name of a reference that is to be executed
can be looked up in the frame and the scopes around it, its value is pushed, and the step does not
end the pass for want of a name. -/
theorem references_bound {program : Program} {ctx : Context} {start checked memo : Memo}
    {options : Options} {ev : Evaluator} {frame : Frame} {outer : List Frame} {id : NodeId}
    {name : Token} (hctx : ctx = { lexicon := program.lexicon })
    (hids : Identified program.root.nested)
    (hanalysed : ∀ id name, .reference id name ∈ program.root.nested →
      .reference id name ∈ program.root.analysed)
    (hcheck : Gives (fun n => program.check n) ctx start (.ok ()) checked)
    (hrest : memo.AtRest) (hknown : memo.Known ctx program.root.nested)
    (hplaces : ∀ id name rest names owner, Source.Reaches ⟨program.root, ctx, memo⟩
      ⟨.finish (.reference id name) :: rest, names, owner⟩ →
        (ctx.find? name.text).isSome = true → name.text ∈ names)
    (h : (Evaluator.new ctx memo options).PassesOf program.root ev) (ho : ev.outcome = none)
    (hf : ev.frames = frame :: outer) (hc : frame.current? = some (.finish (.reference id name))) :
    ∃ value, frame.lookup name.text = some value ∧ value.isException = false ∧
      ∀ budget,
        (Instruction.finish (.reference id name)).act budget
            (ev.fetch frame outer (.finish (.reference id name))) =
          some (.ok (), (ev.fetch frame outer (.finish (.reference id name))).withItems
            (value :: ev.stack.items)) ∧
        ∀ x after, ev.step budget = some (.ended (.halted x), after) →
          ∀ other, x.kind ≠ .unknownName other := by
  let S : Source := ⟨program.root, ctx, memo⟩
  have hwithin : ctx.Within program.root.nested := hctx ▸ program.within_nested
  have hresolves : S.Resolves := fun id name rest names owner hplace =>
    hplaces id name rest names owner hplace (declared_of_checked hcheck
      (hanalysed id name (hplace.finishes hwithin _ List.mem_cons_self (Expr.mem_nested_self _))))
  have hplaced : ev.Placed S := Evaluator.placed_of_passesOf hwithin hids hresolves hrest hknown h
  obtain ⟨names, hplace, hsees, -⟩ := hplaced.fetch ho hf hc
  have hname := hresolves id name _ names _ hplace
  obtain ⟨value, hvalue⟩ := Option.isSome_iff_exists.1 (hsees.names _ hname)
  have hplain := (hsees.lookup hvalue).isException
  have hlookup : (ev.fetch frame outer (.finish (.reference id name))).lookup name.text =
      some value := by
    have hnow : (frame.advance 1).lookup name.text = some value := hvalue
    simp [Evaluator.lookup, Evaluator.fetch, Evaluator.currentFrame?, hnow]
  have hact (budget : Nat) := act_reference id hlookup hplain budget
  refine ⟨value, hvalue, hplain, fun budget => ⟨hact budget, fun x after hs other => ?_⟩⟩
  cases hl : ev.reachedLimit? with
  | some limit =>
    rw [Evaluator.step_of_reachedLimit ho hl] at hs
    obtain ⟨hended, -⟩ := Prod.mk.inj (Option.some.inj hs)
    obtain rfl := Outcome.halted.inj (Step.ended.inj hended)
    rintro ⟨⟩
  | none =>
    -- The instruction has not failed, so it is the frame that has come to its end.
    rw [Evaluator.step_eq budget ho hl hf, hc] at hs
    simp only [hact budget, Option.map_some, Option.some.injEq] at hs
    obtain ⟨last, hlast⟩ := Evaluator.completes_of_completeFrames hs
    have hmoves := Evaluator.Moves.acts budget ho hf hc (hact budget)
    have hmid := hmoves.placed hwithin hids hresolves hplaced
    rw [hlast.kind hwithin hids hresolves hmid ho]
    rintro ⟨⟩

namespace Forward

/-- The declaration `x: ⊤`. -/
def declaration : Expr :=
  .bind (bindingOf 2 "x" (booleanOf 3 true))

/-- The program `x, x: ⊤`. -/
def program : Program :=
  ⟨.block ⟨1⟩ [referenceOf 4 "x", declaration]⟩

/-- Nothing in the program stands for text that could not be parsed, and analysis has nothing
against it.  It has no value all the same: the name is declared, but not bound when it is referred
to. -/
theorem name_not_bound : (∀ e ∈ program.root.nested, e.isUnparsable = false) ∧
    (∃ checked, Gives (fun n => program.check n) { lexicon := program.lexicon } .empty (.ok ())
      checked) ∧
    ∃ x last, (Evaluator.new { lexicon := program.lexicon } .empty {}).PassEnds program.root
      (.halted x) last ∧ x.kind = .unknownName "x" := by
  have hhalts : (Evaluator.new { lexicon := program.lexicon } .empty {}).raises program.root
      (.unknownName "x") = true := by
    decide +kernel
  exact ⟨by decide, ⟨_, 20, rfl⟩, Evaluator.passEnds_of_raises hhalts⟩

end Forward

namespace Behind

/-- What is finished can be evaluated where these names are bound: a reference to one of them, or a
function that yields what such a name, or a name of its own, stands for. -/
def Fits (names : List String) : Expr → Prop
  | .reference _ name => name.text ∈ names
  | .function f => ∀ body, f.body = some body →
    ∃ id name, body = .reference id name ∧ name.text ∈ f.ownNames ++ names
  | .struct _ => False
  | _ => True

/-- Code without jumps that binds names before it refers to them. -/
def InOrder : Code → List String → Prop
  | [], _ => True
  | .start _ :: rest, names => InOrder rest names
  | .finish e :: rest, names => Fits names e ∧ InOrder rest (e.binds ++ names)
  | _ :: _, _ => False

theorem inOrder_of_reaches {S : Source} {place : Place} (h : S.Reaches place)
    (hroot : ∀ code, S.Lowers S.root code → InOrder code []) :
    place.owner = none ∧ InOrder place.code place.names := by
  refine h.induct (P := fun place => place.owner = none ∧ InOrder place.code place.names)
    (fun code hcode => ⟨rfl, hroot code hcode⟩) ?_
  rintro place next ⟨howner, horder⟩ hnext
  cases hnext with
  | start => exact ⟨howner, horder⟩
  | finish => exact ⟨howner, horder.2⟩
  | jump => cases horder
  | holds => cases horder
  | skips => cases horder
  | @body f body code rest names owner hbody hcode =>
    obtain ⟨id, name, rfl, hname⟩ := horder.1 body hbody
    obtain ⟨-, memo, after, -, budget, hcode⟩ := hcode
    cases budget with
    | zero => cases hcode
    | succ budget =>
      have hcode : some ([Instruction.finish (.reference id name)], memo) = some (code, after) :=
        hcode
      obtain ⟨rfl, -⟩ := Prod.mk.inj (Option.some.inj hcode)
      exact ⟨rfl, hname, trivial⟩
  | block => cases horder.1
  | member => cases howner

/-- The program `x: ⊤, ƒ f() x, f()`. -/
def program : Program :=
  ⟨.block ⟨1⟩ [Forward.declaration, Circular.yields 4 "f" "x", callOf 6 7 "f"]⟩

/-- Where the program is checked and lowered. -/
def context : Context :=
  { lexicon := program.lexicon }

/-- The code of the program. -/
def code : Code :=
  [.start program.root, .start Forward.declaration,
    .finish (booleanOf 3 true), .finish Forward.declaration, .finish (Circular.yields 4 "f" "x"),
    .start (callOf 6 7 "f"), .finish (referenceOf 7 "f"), .finish (callOf 6 7 "f"),
    .finish program.root]

/-- What is known when the program has been lowered. -/
def memo : Memo :=
  { types := ⟨[(⟨3⟩, .boolean), (⟨5⟩, .boolean), (⟨7⟩, .function [] [] .boolean)]⟩ }

theorem lowered : Gives (fun n => program.root.lower n) context .empty code memo :=
  ⟨20, rfl⟩

theorem known : memo.Known context program.root.nested := by
  have hempty : Source.Knows ⟨program.root, context, .empty⟩ .empty :=
    ⟨.refl Memo.atRest_empty, .empty⟩
  obtain ⟨budget, hlower⟩ := lowered
  exact (hempty.lower program.within_nested (List.Subset.refl _) hlower).known

/-- The code of the program binds `x` before the body of `f` refers to it, and `f` before the
call. -/
theorem inOrder_code : InOrder code [] := by
  refine ⟨trivial, trivial, ?_, ?_, trivial, trivial, trivial⟩
  · rintro body ⟨⟩
    exact ⟨_, _, rfl, by decide⟩
  · show "f" ∈ _
    decide

/-- The program is lowered to its code whatever else is known by then. -/
theorem inOrder_of_lowers {other : Code}
    (h : Source.Lowers ⟨program.root, context, memo⟩ program.root other) : InOrder other [] := by
  obtain ⟨-, later, after, hlater, hother⟩ := h
  have hagain := lowered.again (steady_lower program.root) Memo.atRest_empty hlater.later
  obtain ⟨rfl, -⟩ := hagain.unique (steady_lower program.root) hother
  exact inOrder_code

/-- The reference that is executed next. -/
def reference? (ev : Evaluator) : Option (NodeId × Token) :=
  match ev.next? with
  | some (.finish (.reference id name)) => some (id, name)
  | _ => none

theorem frames_of_reference? {ev : Evaluator} {id : NodeId} {name : Token}
    (h : reference? ev = some (id, name)) : ∃ frame outer, ev.frames = frame :: outer ∧
      frame.current? = some (.finish (.reference id name)) := by
  unfold reference? at h
  split at h
  · rename_i hnext
    obtain ⟨rfl, rfl⟩ := Prod.mk.inj (Option.some.inj h)
    obtain ⟨frame, hframe, hc⟩ := Option.bind_eq_some_iff.1 hnext
    obtain ⟨outer, hf⟩ := List.head?_eq_some_iff.1 hframe
    exact ⟨frame, outer, hf, hc⟩
  · cases h

/-- The body of `f` finds `x` in the scope that `f` is closed over. -/
theorem references_bound_body :
    ∃ ev frame outer value, (Evaluator.new context memo {}).PassesOf program.root ev ∧
      ev.frames = frame :: outer ∧
      frame.current? = some (.finish (.reference ⟨5⟩ (tokenOf "x" .name))) ∧
      frame.lookup "x" = some value ∧ value.isException = false := by
  have hcomes : ((Evaluator.new context memo {}).beginPass 9 program.root).any (fun begun =>
      (begun.afterSteps 9 8).any fun ev =>
        ev.outcome.isNone && reference? ev == some (⟨5⟩, tokenOf "x" .name)) = true := by
    decide +kernel
  obtain ⟨begun, hbegin, hcomes⟩ := (Option.any_eq_true _ _).1 hcomes
  obtain ⟨ev, hsteps, hcomes⟩ := (Option.any_eq_true _ _).1 hcomes
  obtain ⟨ho, hnext⟩ := Bool.and_eq_true_iff.1 hcomes
  obtain ⟨frame, outer, hf, hc⟩ := frames_of_reference? (eq_of_beq hnext)
  have hpasses : (Evaluator.new context memo {}).PassesOf program.root ev :=
    .head (.begins 9 hbegin) (Evaluator.passesOf_of_afterSteps program.root hsteps)
  have hanalysed : program.root.nested = program.root.analysed := rfl
  have hcheck : ∃ checked, Gives (fun n => program.check n) context .empty (.ok ()) checked :=
    ⟨_, 20, rfl⟩
  obtain ⟨checked, hcheck⟩ := hcheck
  have hrest : memo.AtRest := rfl
  obtain ⟨value, hvalue, hplain, -⟩ := references_bound rfl (identified_of_nodup (by decide))
    (fun id name hmem => hanalysed ▸ hmem) hcheck hrest known
    (fun id name rest names owner hplace _ =>
      (inOrder_of_reaches hplace fun _ hcode => inOrder_of_lowers hcode).2.1)
    hpasses (Option.isNone_iff_eq_none.1 ho) hf hc
  exact ⟨ev, frame, outer, value, hpasses, hf, hc, hvalue, hplain⟩

end Behind

end Stepwise
