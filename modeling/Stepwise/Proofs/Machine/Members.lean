import Stepwise.Proofs.Machine.Independence
import Stepwise.Proofs.Machine.Lifetime

/-!
# Members of instances

An instance is what the frame of its structure has bound by the time that it is finished.  What can
be known of its members beforehand is read off the definition: the names of its inputs, of its
functions and of the declarations among its statements (`StructDef.HasMember`).  The two agree
(`instances_have_members`).  Inputs are bound when the frame starts, functions are found in the
definition itself, and a finished frame has come by the ends of all declarations, which nothing
skips.

The code that a structure is built with is kept by the identity of its block.  The last step rests
on the code being that of this block and not of another that has had its identity before.  An edit
of a declaration keeps the identity of the block: an instance of the edited structure is built with
the old code, and lacks a member that its definition has (`Stale.instances_lack_members`).
-/

namespace Stepwise

open Stepwise.Action Query

/-! ## Building an instance -/

section Building

variable {U : Expr → Prop} {s : StructDef} {scope : Scope} {ev after : Evaluator} {budget : Nat}
  {code : Code}

theorem blockCode_of_statement {block e : Expr} (hblock : s.block = some block)
    (he : e ∈ s.statements) (budget : Nat) : blockCode budget s = codeOf budget block := by
  rw [StructDef.statements, hblock] at he
  unfold blockCode
  rw [hblock]
  cases block with
  | block id statements =>
    cases statements with
    | nil => cases he
    | cons first rest => rfl
  | _ => rfl

/-- The code that builds an instance finishes every declaration among the statements. -/
theorem finishes_of_blockCode {b : Binder} (hev : ev.aside.From U)
    (hids : ∀ block e, s.block = some block → U e → e.id = block.id → e = block)
    (hb : .bind b ∈ s.statements) (h : blockCode budget s ev = some (.ok code, after)) :
    Finishes code (.bind b) := by
  obtain ⟨block, hblock⟩ : ∃ block, s.block = some block := by
    cases hblock : s.block with
    | none => simp [StructDef.statements, hblock] at hb
    | some block => exact ⟨block, rfl⟩
  rw [blockCode_of_statement hblock hb] at h
  obtain ⟨found, hcode, ⟨hfound, -⟩ | ⟨memo, -, hlower, -⟩⟩ := codeOf_cases h
  · obtain rfl := Except.ok.inj hcode
    obtain ⟨budget, memo, later, hlower⟩ := hev.own (hids block · hblock) hfound
    exact finishes_declaration hblock hb hlower
  · obtain rfl := Except.ok.inj hcode
    exact finishes_declaration hblock hb hlower

/-- A frame that starts to build an instance, in which the inputs are bound. -/
structure Frame.Opens (s : StructDef) (frame : Frame) : Prop where
  kind : frame.kind = .struct s
  cursor : frame.cursor = 0
  inputs : ∀ name, frame.bindings.contains name = true ↔ name ∈ s.inputs.flatMap Binder.aliases

theorem opens_of_prepare {call : Call} {values : List Value} {made : Frame}
    (h : prepare budget call values (.structDef s scope) ev = some (.ok made, after)) :
    made.Opens s ∧ ∃ mid, blockCode budget s ev = some (.ok made.code, mid) := by
  rcases bind_eq_some h with ⟨bindings, mid, harguments, h⟩ | ⟨x, -, hx⟩
  case inr => cases hx
  unfold argumentBindings at harguments
  cases hbound : bindInputs s.inputs values with
  | error x =>
    rw [hbound] at harguments
    cases harguments
  | ok bound =>
    rw [hbound] at harguments
    obtain ⟨hsame, rfl⟩ := Prod.mk.inj (Option.some.inj harguments)
    obtain rfl := Except.ok.inj hsame
    obtain ⟨r, hprepare, hr⟩ := blaming_eq_some h
    rcases bind_eq_some hprepare with ⟨code, last, hcode, hprepare⟩ | ⟨x, -, rfl⟩
    case inr => cases hr
    obtain ⟨rfl, -⟩ := Prod.mk.inj (Option.some.inj hprepare)
    obtain rfl := Except.ok.inj hr
    refine ⟨⟨rfl, rfl, fun name => ?_⟩, last, hcode⟩
    rw [contains_bindInputsAfter hbound, List.mem_flatMap]
    exact or_iff_right nofun

end Building

namespace Evaluator

variable {U : Expr → Prop} {s : StructDef} {ev pushed later after : Evaluator} {n : Nat}

/-- The next instruction is a call of the structure, and has started the frame that builds the
instance. -/
def Builds (ev : Evaluator) (s : StructDef) (pushed : Evaluator) : Prop :=
  (∃ scope lower, ev.stack.items = .structDef s scope :: lower) ∧
    ∃ depth call, ev.ActsIn depth (.finish (.call call)) pushed

/-- The frame that builds the instance starts above all others. -/
theorem Builds.opens (h : ev.Builds s pushed) :
    ∃ first, pushed.frameAt? ev.frames.length = some first ∧ first.Opens s ∧
      ∃ budget start mid, start.aside = ev.aside ∧
        blockCode budget s start = some (.ok first.code, mid) := by
  obtain ⟨⟨scope, lower, hitems⟩, depth, call, budget, frame, outer, -, hf, -, -, hact⟩ := h
  rw [act_call, executeCall_eq] at hact
  rcases bind_eq_some hact with ⟨made, mid, hprepare, hact⟩ | ⟨x, -, hx⟩
  case inr => cases hx
  have hmid := frames_prepareCall hprepare
  obtain ⟨callee, rest, values, items, hcallee, -, hprepare⟩ := prepare_of_prepareCall hprepare
  obtain ⟨rfl, -⟩ := List.cons.inj (hitems.symm.trans hcallee)
  obtain ⟨hopens, last, hcode⟩ := opens_of_prepare hprepare
  rcases startFrame_cases hact with ⟨hr, -, -⟩ | ⟨-, rfl, -⟩
  · cases hr
  · have hlength : ev.frames.length = mid.frames.length := by
      rw [hmid, hf]
      rfl
    refine ⟨{ made with base := mid.stack.height }, ?_, ⟨hopens.kind, hopens.cursor, hopens.inputs⟩,
      budget, _, last, ?_, hcode⟩
    · rw [hlength]
      exact frameAt?_of_append [] rfl
    · rfl

/-- The move pops the frame that has `n` frames around it, and the pass goes on. -/
structure Returns (n : Nat) (later after : Evaluator) : Prop where
  moves : later.Moves after
  popped : after.frames.length ≤ n
  going : after.outcome = none

/-- A frame that has built an instance has come to its end, and leaves what it has bound. -/
theorem Returns.built {last : Frame} (h : Returns n later after)
    (hlast : later.frameAt? n = some last) (hkind : last.kind = .struct s) :
    later.outcome = none ∧ last.isDone = true ∧
      ∃ id lower, after.stack.items = .struct s (last.capture id) :: lower := by
  have hlt := lt_length_of_frameAt? hlast
  obtain ⟨hmoves, hpopped, hgoing⟩ := h
  cases hmoves with
  | acts budget ho hf hc ha =>
    have hle := (act_cases ha).le_length_frames
    simp only [fetch, List.length_cons] at hle
    rw [hf, List.length_cons] at hlt
    omega
  | @hands later frame caller outer value ho hf hd hr hv =>
    have hn : (caller :: outer).length = n := by
      have hpopped : (caller :: outer).length ≤ n := hpopped
      rw [hf, List.length_cons] at hlt
      omega
    obtain rfl : frame = last := by
      rw [← hn, frameAt?_of_append [] hf] at hlast
      exact Option.some.inj hlast
    rw [result?, hkind] at hr
    obtain rfl := Option.some.inj hr
    exact ⟨ho, hd, _, _, rfl⟩
  | produces => cases hgoing
  | halts => cases hgoing
  | injects => exact absurd hlt (Nat.not_lt.2 hpopped)
  | defines => exact absurd hlt (Nat.not_lt.2 hpopped)

end Evaluator

/-! ## Members -/

/-- The name is one of an input, of a function or of a declaration among the statements. -/
inductive StructDef.HasMember (s : StructDef) (name : String) : Prop
  | input {input : Binder} (h : input ∈ s.inputs) (hname : name ∈ input.aliases)
  | function {f : FunctionDef} (h : s.functionNamed? name = some f)
  | declaration {b : Binder} (h : .bind b ∈ s.statements) (hname : name ∈ b.aliases)

theorem Binder.hasName_iff {b : Binder} {name : String} :
    b.hasName name = true ↔ name ∈ b.aliases := by
  simp [hasName]

theorem mem_statements_of_bindNamed? {s : StructDef} {name : String} {b : Binder}
    (h : s.bindNamed? name = some b) : .bind b ∈ s.statements ∧ name ∈ b.aliases := by
  obtain ⟨e, he, hfound⟩ := List.exists_of_findSome?_eq_some h
  cases e with
  | bind other =>
    dsimp only at hfound
    split at hfound
    · rename_i hname
      obtain rfl := Option.some.inj hfound
      exact ⟨he, Binder.hasName_iff.1 hname⟩
    · cases hfound
  | _ => cases hfound

/-- Whatever has a type as a member is one. -/
theorem hasMember_of_memberTypeOf {s : StructDef} {args : List Ty} {name : String} {ty : Ty}
    {ctx : Context} {memo after : Memo}
    (h : Gives (fun n => s.memberTypeOf n args name) ctx memo (some ty) after) :
    s.HasMember name := by
  obtain ⟨budget, h⟩ := h
  unfold StructDef.memberTypeOf StructDef.memberTypeWith at h
  cases hinput : s.inputNamed? name with
  | some input =>
    have hname := List.find?_some (p := fun b : Binder => b.hasName name) hinput
    exact .input (List.mem_of_find?_eq_some hinput) (Binder.hasName_iff.1 hname)
  | none =>
    cases hfunction : s.functionNamed? name with
    | some f => exact .function hfunction
    | none =>
      cases hbind : s.bindNamed? name with
      | some b =>
        obtain ⟨hb, hname⟩ := mem_statements_of_bindNamed? hbind
        exact .declaration hb hname
      | none =>
        simp only [hinput, hfunction, hbind] at h
        cases h

/-- Accessing the name on the value yields one value, which is no exception, wherever it is
accessed. -/
def Value.Offers (subject : Value) (name : String) : Prop :=
  ∃ value : Value, value.isException = false ∧
    ∀ (now : Evaluator) (lower : List Value), now.stack.items = subject :: lower →
      now.base ≤ lower.length → ∀ (budget : Nat) (id : NodeId) (e : Expr) (dot member : Token),
        member.text = name →
          (Expr.access id e dot member).execute budget now =
            some (.ok (some value), now.withItems lower)

theorem offers_of_memberValue? {s : StructDef} {scope : Scope} {name : String} {value : Value}
    (h : memberValue? s scope name = some value) (hv : value.isException = false) :
    (Value.struct s scope).Offers name := by
  refine ⟨value, hv, fun now lower hitems hbase budget id e dot member hname => ?_⟩
  have hpop := popOperand_of_items hitems hbase rfl
  rw [Expr.execute, map_apply, executeAccess, bind_apply, hpop, Option.bind_some, continuing_ok,
    hname]
  simp only [h]
  rfl

theorem ProperBindings.find? {bindings : Bindings} (h : ProperBindings bindings) {name : String}
    {value : Value} (hf : bindings.find? name = some value) : value.isException = false := by
  obtain ⟨entries⟩ := bindings
  obtain ⟨front, back, rfl, -⟩ := List.lookup_eq_some_iff.1 hf
  exact h (name, value) (by simp)

/-- What is bound in an instance can be accessed, and so can the functions of its structure. -/
theorem offers_of_contains {s : StructDef} {scope : Scope} {name : String}
    (hscope : ProperBindings scope.bindings) (h : scope.bindings.contains name = true) :
    (Value.struct s scope).Offers name := by
  obtain ⟨value, hvalue⟩ := Option.isSome_iff_exists.1 h
  exact offers_of_memberValue? (by rw [memberValue?, hvalue]) (hscope.find? hvalue)

theorem offers_of_functionNamed? {s : StructDef} {scope : Scope} {name : String} {f : FunctionDef}
    (hscope : ProperBindings scope.bindings) (h : s.functionNamed? name = some f) :
    (Value.struct s scope).Offers name := by
  cases hbound : scope.bindings.find? name with
  | some value => exact offers_of_memberValue? (by rw [memberValue?, hbound]) (hscope.find? hbound)
  | none => exact offers_of_memberValue? (by rw [memberValue?, hbound, h]; rfl) rfl

namespace Evaluator

/-- The members that are known from its definition exist in every instance, and what an instance
binds is known.

Wherever a host has brought an evaluator, let a call of a structure start a frame that is left with
an instance, whatever other frames come and go meanwhile.  The names bound in the instance are those
of the inputs and those of the expressions that have finished in the frame.  And every name for
which the definition has a member type can be accessed on the instance, provided that no other
expression with the identity of the block has been asked for its code before; the instance would be
built with the code of that expression. -/
theorem instances_have_members {U : Expr → Prop} {ctx : Context} {memo : Memo} {options : Options}
    {s : StructDef} {ev pushed later after : Evaluator}
    (hhistory : History U (new ctx memo options) ev) (hbuilds : ev.Builds s pushed)
    (hstays : Stays ev.frames.length pushed later)
    (hreturns : Returns ev.frames.length later after) :
    ∃ scope lower, after.stack.items = .struct s scope :: lower ∧
      (∀ name, scope.bindings.contains name = true ↔
        name ∈ s.inputs.flatMap Binder.aliases ∨ BindsIn ev.frames.length pushed later name) ∧
      ((∀ block e, s.block = some block → U e → e.id = block.id → e = block) →
        ∀ (types : Context) (known found : Memo) (args : List Ty) (name : String) (ty : Ty),
          Gives (fun n => s.memberTypeOf n args name) types known (some ty) found →
            (Value.struct s scope).Offers name) := by
  obtain ⟨first, hfirst, hopens, budget, start, mid, hstart, hcode⟩ := hbuilds.opens
  have hpushed : ev.Moves pushed := by
    obtain ⟨-, depth, call, hacts⟩ := hbuilds
    exact hacts.moves
  have hlater : later.Proper := by
    have hpasses := (hhistory.reaches.passes.tail (.moves hpushed)).trans hstays.progresses.passes
    exact proper_of_passes hpasses
  have ho : later.outcome = none := hreturns.moves.outcome_of_none hreturns.going
  obtain ⟨last, hlast, htracks⟩ := hstays.tracks ho hfirst
  obtain ⟨-, hdone, id, lower, hitems⟩ :=
    hreturns.built hlast (htracks.kind.trans hopens.kind)
  have hnames := hstays.names ho hfirst hlast
  have hbindings : ProperBindings last.bindings := by
    have hmem : last ∈ later.frames.reverse := List.mem_of_getElem? hlast
    exact hlater.frames last (List.mem_reverse.1 hmem)
  refine ⟨last.capture id, lower, hitems, fun name => ?_, fun hids types known found args name ty
    hmember => ?_⟩
  · rw [← hopens.inputs]
    exact hnames name
  · cases hasMember_of_memberTypeOf hmember with
    | input hinput hname =>
      have hbound := (hopens.inputs name).2 (List.mem_flatMap.2 ⟨_, hinput, hname⟩)
      exact offers_of_contains hbindings (htracks.names name hbound)
    | function hfunction => exact offers_of_functionNamed? hbindings hfunction
    | @declaration b hb hname =>
      have hkept : start.aside.From U := hstart ▸ hhistory.kept
      obtain ⟨address, haddress, hskip⟩ := finishes_of_blockCode hkept hids hb hcode
      have hend : address < last.cursor := by
        have hlt := (List.getElem?_eq_some_iff.1 haddress).1
        have hle : last.code.length ≤ last.cursor := of_decide_eq_true hdone
        rw [htracks.code] at hle
        omega
      have hbound := htracks.passed address _ haddress hskip (by rw [hopens.cursor]; omega) hend
      exact offers_of_contains hbindings (hbound name hname)

end Evaluator

theorem Evaluator.builds_of_calling {s : StructDef} {scope : Scope} {call : Call}
    {lower : List Value} {budget count : Nat} {ev pushed later after : Evaluator}
    (h : ev.calling budget count = some (pushed, later, after))
    (hitems : ev.stack.items = .structDef s scope :: lower)
    (hnext : ev.next? = some (.finish (.call call)))
    (hpopped : after.frames.length ≤ ev.frames.length) (hgoing : after.outcome = none) :
    ev.Builds s pushed ∧ Stays ev.frames.length pushed later ∧
      Returns ev.frames.length later after := by
  obtain ⟨hact, hstays, hreturn⟩ := of_calling h
  obtain ⟨frame, outer, i, ho, hf, hc, ha⟩ := acts_of_act? hact
  have hi : ev.next? = some i := by simp [next?, currentFrame?, hf, hc]
  obtain rfl := Option.some.inj (hnext.symm.trans hi)
  exact ⟨⟨⟨scope, lower, hitems⟩, _, call, budget, frame, outer, ho, hf, rfl, hc, ha⟩, hstays,
    hreturn, hpopped, hgoing⟩

theorem exists_memberTypeOf {s : StructDef} {budget : Nat} {name : String} {ctx : Context}
    {memo : Memo}
    (h : (s.memberTypeOf budget [] name ctx memo).any (fun found => found.1.isSome) = true) :
    ∃ ty found, Gives (fun n => s.memberTypeOf n [] name) ctx memo (some ty) found := by
  obtain ⟨⟨ty, found⟩, hfound, hsome⟩ := (Option.any_eq_true _ _).1 h
  obtain ⟨ty, rfl⟩ := Option.isSome_iff_exists.1 hsome
  exact ⟨ty, found, budget, hfound⟩

/-! ### An instance with a nested declaration -/

namespace Nested

/-- The declaration `y: z: x`. -/
def block : Expr :=
  .bind (bindingOf 4 "y" (.bind (bindingOf 5 "z" (referenceOf 6 "x"))))

/-- The structure `•(x•?) y: z: x`, with an input and a declaration that another is nested in. -/
def s : StructDef :=
  ⟨⟨2⟩, [], [], [binderOf 3 "x" (some .boolean) none], some block⟩

/-- The call of the structure. -/
def call : Call :=
  callWith 0 (.struct s) [booleanOf 1 true]

/-- The program that calls the structure. -/
def program : Program :=
  ⟨.call call⟩

/-- An evaluator that has evaluated nothing. -/
def start : Evaluator :=
  startOf program

/-- The evaluator after a number of steps that ask for no code. -/
def afterQuiet : Nat → Evaluator → Option Evaluator
  | 0, ev => some ev
  | n + 1, ev =>
    if ev.asked?.isNone then (ev.step 9).bind fun done => afterQuiet n done.2 else none

theorem history_of_afterQuiet {U : Expr → Prop} {ev after : Evaluator} {count : Nat}
    (h : afterQuiet count ev = some after) : Evaluator.History U ev after := by
  induction count generalizing ev with
  | zero => exact Option.some.inj h ▸ .refl
  | succ count ih =>
    rw [afterQuiet] at h
    split at h
    · rename_i hquiet
      obtain ⟨⟨answer, next⟩, hstep, hnext⟩ := Option.bind_eq_some_iff.1 h
      refine .head (.step 9 answer (fun e hasks => ?_) hstep) (ih hnext)
      rw [Evaluator.asked?_of_asks hasks] at hquiet
      cases hquiet
    · cases h

/-- The states before the call, with its frame, when the frame is finished, and without it. -/
def states : Option (Evaluator × Evaluator × Evaluator × Evaluator) := do
  let begun ← start.beginPass 9 program.root
  let ev ← afterQuiet 3 begun
  let (pushed, later, after) ← ev.calling 9 5
  pure (ev, pushed, later, after)

/-- The scope in which the structure is made. -/
def outside : Scope :=
  .mk (.captured 1) .empty (some (.mk (.captured 0) .empty none))

/-- The scope of the instance. -/
def inside : Scope :=
  .mk (.captured 3) ⟨[("x", .boolean true), ("z", .boolean true), ("y", .boolean true)]⟩
    (some (.mk (.captured 2) .empty (some outside)))

theorem view_states : states.map (fun (ev, _, _, after) =>
    (ev.stack.items, ev.next?, ev.frames.length, after.stack.items, after.frames.length,
      after.outcome)) =
    some ([.structDef s outside, .boolean true], some (.finish (.call call)), 1,
      [.struct s inside], 1, none) := by
  cbv

/-- The instance has a member `y`, and the name bound within it is bound in the instance because an
expression that binds it has finished in the frame. -/
theorem instances_have_members_nested :
    ∃ ev pushed later after, Evaluator.History (· = program.root) start ev ∧ ev.Builds s pushed ∧
      Evaluator.Stays ev.frames.length pushed later ∧
      Evaluator.Returns ev.frames.length later after ∧ after.stack.items = [.struct s inside] ∧
      Evaluator.BindsIn ev.frames.length pushed later "z" ∧
      (∃ ty found, Gives (fun n => s.memberTypeOf n [] "y") start.context .empty (some ty) found) ∧
      (Value.struct s inside).Offers "y" := by
  obtain ⟨_, hstates, hview⟩ := Option.map_eq_some_iff.1 view_states
  simp only [states, Option.bind_eq_bind, Option.pure_def, Option.bind_eq_some_iff,
    Option.some.injEq, Prod.exists] at hstates
  obtain ⟨begun, hbegin, ev, hquiet, pushed, later, after, hcalling, rfl⟩ := hstates
  simp only [Prod.mk.injEq] at hview
  obtain ⟨hitems, hnext, hlength, hresult, hlength', ho⟩ := hview
  have hhistory : Evaluator.History (· = program.root) start ev :=
    .head (.beginPass 9 program.root rfl hbegin) (history_of_afterQuiet hquiet)
  obtain ⟨hbuilds, hstays, hreturns⟩ :=
    Evaluator.builds_of_calling hcalling hitems hnext (by rw [hlength, hlength']) ho
  obtain ⟨scope, lower, hinstance, hbound, hmembers⟩ :=
    Evaluator.instances_have_members hhistory hbuilds hstays hreturns
  obtain ⟨hsame, rfl⟩ := List.cons.inj (hinstance.symm.trans hresult)
  obtain rfl := (Value.struct.inj hsame).2
  obtain ⟨ty, found, hty⟩ : ∃ ty found,
      Gives (fun n => s.memberTypeOf n [] "y") start.context .empty (some ty) found :=
    @exists_memberTypeOf s 9 "y" _ _ (by decide +kernel)
  -- The only expression that has been asked for its code has another identity than the block.
  have hids : ∀ block e, s.block = some block → e = program.root → e.id = block.id →
      e = block := by
    rintro block e hblock rfl hid
    obtain rfl := Option.some.inj hblock
    cases hid
  refine ⟨ev, pushed, later, after, hhistory, hbuilds, hstays, hreturns, hinstance, ?_,
    ⟨ty, found, hty⟩, hmembers hids start.context .empty found [] "y" ty hty⟩
  exact ((hbound "z").1 rfl).resolve_left (by decide)

end Nested

/-! ### An instance of an edited structure -/

namespace Stale

/-- A call of the structure `•() a: ⊤`. -/
def root : Expr :=
  .call (callWith 0 (.struct ⟨⟨1⟩, [], [], [],
    some (.block ⟨2⟩ [.bind (bindingOf 3 "a" (booleanOf 4 true))])⟩) [])

/-- The structure `•() b: ⊤`. -/
def s : StructDef :=
  ⟨⟨1⟩, [], [], [], some (.block ⟨2⟩ [.bind (bindingOf 5 "b" (booleanOf 6 true))])⟩

/-- The call with another declaration in the structure.  The block keeps its identity. -/
def edited : Expr :=
  root.replace ⟨⟨3⟩, .expr (.bind (bindingOf 5 "b" (booleanOf 6 true)))⟩

/-- The member `b` of the instance. -/
def member : Expr :=
  accessOf 7 edited "b"

example : edited = .call (callWith 0 (.struct s) []) := by rfl

/-- The states around the call, in a pass that begins when another has ended. -/
def states : Option (Evaluator × Evaluator × Evaluator × Evaluator) := do
  let (_, ended) ← nameless.tryPass root
  let begun ← ended.beginPass 9 member
  let ev ← begun.afterSteps 9 3
  let (pushed, later, after) ← ev.calling 9 5
  pure (ev, pushed, later, after)

/-- The scope in which the structure is made. -/
def outside : Scope :=
  .mk (.captured 5) .empty (some (.mk (.captured 4) .empty none))

/-- The scope of the instance, in which the name of the first declaration is bound. -/
def inside : Scope :=
  .mk (.captured 7) ⟨[("a", .boolean true)]⟩ (some (.mk (.captured 6) .empty (some outside)))

theorem view_states : states.map (fun (ev, _, _, after) =>
    (ev.stack.items, ev.next?, ev.frames.length, after.stack.items, after.frames.length,
      after.outcome, (after.run 9 9).bind fun done => done.1.kind?)) =
    some ([.structDef s outside], some (.finish (.call (callWith 0 (.struct s) []))), 1,
      [.struct s inside], 1, none, some (.unknownName "b")) := by
  cbv

/-- The definition has a type for the member `b`.  But the instance has been built with the code of
the block as it was in an earlier pass, and has no such member. -/
theorem instances_lack_members :
    ∃ ev pushed later after, nameless.Reaches ev ∧ ev.Builds s pushed ∧
      Evaluator.Stays ev.frames.length pushed later ∧
      Evaluator.Returns ev.frames.length later after ∧ after.stack.items = [.struct s inside] ∧
      (∃ ty found, Gives (fun n => s.memberTypeOf n [] "b") nameless.context .empty (some ty)
        found) ∧
      ¬(Value.struct s inside).Offers "b" ∧
      ∃ x last, after.EndsWith (.halted x) last ∧ x.kind = .unknownName "b" := by
  obtain ⟨_, hstates, hview⟩ := Option.map_eq_some_iff.1 view_states
  simp only [states, Option.bind_eq_bind, Option.pure_def, Option.bind_eq_some_iff,
    Option.some.injEq, Prod.exists] at hstates
  obtain ⟨_, ended, hpass, begun, hbegin, ev, hsteps, pushed, later, after, hcalling, rfl⟩ :=
    hstates
  simp only [Prod.mk.injEq] at hview
  obtain ⟨hitems, hnext, hlength, hresult, hlength', ho, hfails⟩ := hview
  have hreaches : nameless.Reaches ev :=
    .trans (Evaluator.reaches_of_tryPass hpass)
      (.head (.beginPass 9 member hbegin) (Evaluator.reaches_of_afterSteps hsteps))
  obtain ⟨hbuilds, hstays, hreturns⟩ :=
    Evaluator.builds_of_calling hcalling hitems hnext (by rw [hlength, hlength']) ho
  obtain ⟨⟨outcome, last⟩, hrun, hkind⟩ := Option.bind_eq_some_iff.1 hfails
  obtain ⟨x, rfl, hx⟩ := Outcome.eq_of_kind? hkind
  refine ⟨ev, pushed, later, after, hreaches, hbuilds, hstays, hreturns, hresult,
    @exists_memberTypeOf s 9 "b" _ _ (by decide +kernel), ?_, x, last, ⟨9, 9, hrun⟩, hx⟩
  rintro ⟨value, -, haccess⟩
  have hmember := haccess { nameless with stack := ⟨[.struct s inside], 0⟩ } [] rfl
    (Nat.le_refl _) 9 ⟨7⟩ edited (tokenOf "." .structural) (tokenOf "b" .name) rfl
  cases hmember

end Stale

end Stepwise
