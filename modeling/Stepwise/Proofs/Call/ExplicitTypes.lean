import Stepwise.Proofs.Call.Reports
import Stepwise.Proofs.Sample
import Stepwise.Proofs.Typing.Admission
import Stepwise.Proofs.Typing.Repeatable

/-!
# Types written at a call

A type written at a call for a type parameter of the callee is put in wherever the callee's inputs
and its output mention the parameter, before the receiver or any argument is asked.  That is so for
the types as the callee has them.

A member of a structure instance has them with the arguments of the instance already put in, by the
names of the parameters of the structure.  Where a member function declares a parameter of the same
name as the structure, its own parameter is taken for that of the structure, and what the receiver
supplies stands where the type written at the call should.  Only mentions by name, which inputs keep
as they are written, escape this.  `ExplicitTypes` says both, place by place.
-/

namespace Stepwise

open Query

/-! ## What is put in -/

section Places

variable (ctx : Context) (v : TypeVariable) (given : TypeInput)

/-- If the place is the variable then the type written at the call is put there. -/
def PutForVariable (leaf put : Ty) : Prop :=
  leaf = .var v.text → put = given.ty.resolveNames ctx

/-- If the place mentions the variable, as a variable or by name, then the type written at the call
is put there. -/
def PutForMention (leaf put : Ty) : Prop :=
  leaf.resolveNames ctx = .var v.text → put = given.ty.resolveNames ctx

/-- The same in a member of an instance that supplies types for names.  What it supplies comes first
where the place is a variable. -/
def PutInMember (supplied : String → Option Ty) (leaf put : Ty) : Prop :=
  leaf.resolveNames ctx = .var v.text →
    match if leaf.isName then none else supplied v.text with
    | some ty => ty.Filled (PutForMention ctx v given) put
    | none => put = given.ty.resolveNames ctx

/-- The same where names have been resolved before. -/
def PutInMemberOutput (supplied : String → Option Ty) (leaf put : Ty) : Prop :=
  leaf.resolveNames ctx = .var v.text →
    match supplied v.text with
    | some ty => ty.Filled (PutForVariable ctx v given) put
    | none => put = given.ty.resolveNames ctx

end Places

/-- The type is the one that the function has as a member of instances of the structure with the
type arguments. -/
def IsMemberType (ctx : Context) (s : StructDef) (args : List Ty) (f : FunctionDef) (ty : Ty) :
    Prop :=
  ∃ name memo after, s.inputNamed? name = none ∧ s.functionNamed? name = some f ∧
    Gives (fun n => s.memberTypeOf n args name) ctx memo (some ty) after

/-- What a type that is written at a call for a type parameter of the callee comes to. -/
structure ExplicitTypes (ctx : Context) (call : Call) (callee : Callee) (v : TypeVariable)
    (given : TypeInput) : Prop where
  /-- It stands wherever the type of an input mentions the parameter. -/
  expected : ∀ {input : Binder} {ty : Ty}, input.ty = some ty → ∀ {memo after expected},
    Gives (fun n => expectedAt n call callee input) ctx memo expected after →
      ∃ e, expected = (if input.rest then .list e else e) ∧ ty.Filled (PutForMention ctx v given) e
  /-- It stands wherever the output of a function has the parameter. -/
  output : ∀ {vars inputs output}, callee = .function vars inputs output →
    ∀ {memo mid after ty},
      Gives (fun n => call.callee.typeOf n) ctx memo (.function vars inputs output) mid →
      Gives (fun n => call.outputType n) ctx memo ty after →
        output.Filled (PutForVariable ctx v given) ty
  /-- If the callee is a function among the members of an instance, it stands wherever the written
  type of an input mentions the parameter by name, or as a variable for which the instance supplies
  no type. -/
  member : ∀ {s : StructDef} {args : List Ty} {f : FunctionDef} {calleeTy : Ty},
    IsMemberType ctx s args f calleeTy → Callee.ofTy? calleeTy = some callee →
      ∀ {b input : Binder} {written : Ty}, (b, input) ∈ f.inputs.zip callee.inputs →
        b.ty = some written → ∀ {memo after expected},
          Gives (fun n => expectedAt n call callee input) ctx memo expected after →
            ∃ e, expected = (if b.rest then .list e else e) ∧
              written.Filled (PutInMember ctx v given (s.argumentFor? args)) e
  /-- And it stands wherever the written output mentions the parameter, if the instance supplies no
  type for it. -/
  memberOutput : ∀ {s : StructDef} {args : List Ty} {f : FunctionDef} {calleeTy written : Ty},
    IsMemberType ctx s args f calleeTy → Callee.ofTy? calleeTy = some callee →
      f.output = some written → ∀ {memo mid after ty},
        Gives (fun n => call.callee.typeOf n) ctx memo calleeTy mid →
        Gives (fun n => call.outputType n) ctx memo ty after →
          written.Filled (PutInMemberOutput ctx v given (s.argumentFor? args)) ty

section Explicit

variable {ctx : Context} {call : Call} {callee : Callee} {k : Nat} {v : TypeVariable}
  {given : TypeInput}

/-- The type written at the call is found by the name of the parameter, if that is the only one of
its name. -/
theorem explicitType?_eq_some (hdistinct : (callee.typeVars.map TypeVariable.text).Nodup)
    (hv : callee.typeVars[k]? = some v) (hgiven : call.typeInputs[k]? = some given) :
    explicitType? call callee v.text = some given.ty := by
  obtain ⟨hk, hv⟩ := List.getElem?_eq_some_iff.1 hv
  have hindex : callee.typeVars.findIdx? (·.text == v.text) = some k := by
    refine List.findIdx?_eq_some_iff_getElem.2 ⟨hk, by simp [hv], fun j hj hsame => ?_⟩
    have heq : (callee.typeVars.map TypeVariable.text)[j]? =
        (callee.typeVars.map TypeVariable.text)[k]? := by
      simpa [hv, hj.trans hk, hk] using hsame
    exact absurd ((List.getElem?_inj (by simpa using hj.trans hk) hdistinct).1 heq) hj.ne
  simp [explicitType?, hindex, hgiven]

variable (hexplicit : explicitType? call callee v.text = some given.ty)

include hexplicit

/-- What is answered to the parameter is the type written at the call; names are left in place. -/
theorem fillsIn_typeFor (ask : Ask) :
    FillsIn (.answers ctx) (call.typeFor? ask callee) (PutForVariable ctx v given) := by
  refine ⟨fun name memo found after h heq => ?_, fun name heq => nomatch heq⟩
  obtain rfl : name = v.text := Ty.var.inj heq
  unfold Call.typeFor? at h
  rw [hexplicit] at h
  obtain ⟨rfl, -⟩ := Prod.mk.inj (Option.some.inj h)
  rfl

theorem filled_instantiate {budget : Nat} {memo after : Memo} {ty put : Ty}
    (h : call.instantiate (Expr.typeOf budget) callee ty ctx memo = some (put, after)) :
    ty.Filled (PutForVariable ctx v given) put :=
  Ty.filled_substituteM (fillsIn_typeFor hexplicit (Expr.typeOf budget)) ty memo put after h

/-- What an input expects is its type with the type written at the call in place of the
parameter. -/
theorem filled_expectedAt {input : Binder} {ty expected : Ty} {memo after : Memo}
    (hty : input.ty = some ty)
    (h : Gives (fun n => expectedAt n call callee input) ctx memo expected after) :
    ∃ e, expected = (if input.rest then .list e else e) ∧
      ty.Filled (PutForMention ctx v given) e := by
  obtain ⟨budget, h⟩ := h
  obtain ⟨declared, mid, hdeclared, h⟩ := bind_eq_some.1 h
  have hwritten : input.writtenTy? ctx = some (if input.rest then .list (ty.resolveNames ctx)
      else ty.resolveNames ctx) := by
    rw [Binder.writtenTy?, hty]
    rfl
  have hpure := input.says_typeWith (Expr.typeOf budget) hwritten memo
  obtain ⟨rfl, rfl⟩ := Prod.mk.inj (Option.some.inj (hpure.symm.trans hdeclared))
  have hput {e : Ty} (he : (ty.resolveNames ctx).Filled (PutForVariable ctx v given) e) :
      ty.Filled (PutForMention ctx v given) e :=
    he.of_resolveNames fun leaf u _ hu hmention => hu.place (by rw [hmention]; rfl) hmention
  have hfilled := filled_instantiate hexplicit h
  cases hrest : input.rest with
  | false =>
    simp only [hrest] at hfilled
    exact ⟨expected, rfl, hput hfilled⟩
  | true =>
    simp only [hrest, if_true] at hfilled
    cases hfilled with
    | list hitem => exact ⟨_, rfl, hput hitem⟩

theorem filled_outputType {vars : List TypeVariable} {inputs : List Binder} {output ty : Ty}
    {memo mid after : Memo} (hcallee : callee = .function vars inputs output)
    (htype : Gives (fun n => call.callee.typeOf n) ctx memo (.function vars inputs output) mid)
    (h : Gives (fun n => call.outputType n) ctx memo ty after) :
    output.Filled (PutForVariable ctx v given) ty := by
  obtain ⟨budget, h⟩ := h
  obtain ⟨calleeTy, start, hcalleeTy, h⟩ := bind_eq_some.1 h
  obtain ⟨rfl, rfl⟩ := htype.unique (steady_typeOf call.callee) ⟨budget, hcalleeTy⟩
  rw [hcallee] at hexplicit
  exact filled_instantiate hexplicit h

omit hexplicit in
/-- What is put in where the receiver has put in what it supplies. -/
theorem putInMember_of_filled {supplied : String → Option Ty} {leaf mid put : Ty}
    (hplace : leaf.isPlace = true) (hmid : mid = leaf.substitute supplied)
    (h : mid.Filled (PutForMention ctx v given) put) :
    PutInMember ctx v given supplied leaf put := by
  intro hmention
  subst hmid
  cases leaf with
  | name name => exact h.place rfl hmention
  | var name =>
    obtain rfl : name = v.text := Ty.var.inj hmention
    simp only [Ty.substitute_var, Ty.isName, Bool.false_eq_true, if_false] at h ⊢
    cases hsupplied : supplied v.text with
    | some ty => simpa [hsupplied] using h
    | none =>
      simp only [hsupplied, Option.getD_none] at h
      exact h.place rfl rfl
  | _ => cases hplace

omit hexplicit in
theorem putInMemberOutput_of_filled {supplied : String → Option Ty} {leaf mid put : Ty}
    (hmid : (leaf.resolveNames ctx).Filled (fun leaf u => u = leaf.substitute supplied) mid)
    (h : mid.Filled (PutForVariable ctx v given) put) :
    PutInMemberOutput ctx v given supplied leaf put := by
  intro hmention
  rw [hmention] at hmid
  have hmid' : mid = (supplied v.text).getD (.var v.text) := by
    simpa using hmid.place rfl
  subst hmid'
  cases hsupplied : supplied v.text with
  | some ty => simpa [hsupplied] using h
  | none =>
    simp only [hsupplied, Option.getD_none] at h
    exact h.place rfl rfl

omit hexplicit in
theorem function_of_typeWith {ask : Ask} {f : FunctionDef} {ty : Ty} {memo after : Memo}
    (h : f.typeWith ask ctx memo = some (ty, after)) :
    ∃ output, ty = .function f.typeVars f.inputs output ∧
      ∀ written, f.output = some written → output = written.resolveNames ctx := by
  obtain ⟨id, names, typeVars, inputs, written?, body⟩ := f
  cases written? with
  | some written =>
    obtain ⟨output, mid, houtput, h⟩ := bind_eq_some.1 h
    obtain ⟨rfl, -⟩ := pure_eq_some.1 h
    refine ⟨output, rfl, fun other hother => ?_⟩
    obtain rfl := Option.some.inj hother
    exact (Prod.mk.inj (Option.some.inj houtput)).1.symm
  | none =>
    cases body with
    | some body =>
      obtain ⟨output, mid, -, h⟩ := bind_eq_some.1 h
      obtain ⟨rfl, -⟩ := pure_eq_some.1 h
      exact ⟨output, rfl, nofun⟩
    | none =>
      obtain ⟨rfl, -⟩ := Prod.mk.inj (Option.some.inj h)
      exact ⟨_, rfl, nofun⟩

omit hexplicit in
/-- The type of a member function is its own type with what the instance supplies put in. -/
theorem filled_memberType {s : StructDef} {args : List Ty} {f : FunctionDef} {calleeTy : Ty}
    (h : IsMemberType ctx s args f calleeTy) :
    ∃ output, (∀ written, f.output = some written → output = written.resolveNames ctx) ∧
      (Ty.function f.typeVars f.inputs output).Filled
        (fun leaf u => u = leaf.substitute (s.argumentFor? args)) calleeTy := by
  obtain ⟨name, memo, after, hinput, hfunction, budget, h⟩ := h
  unfold StructDef.memberTypeOf StructDef.memberTypeWith at h
  simp only [hinput, hfunction, ← bind_pure_comp, bind_assoc, pure_bind] at h
  obtain ⟨declared, mid, hdeclared, h⟩ := bind_eq_some.1 h
  obtain ⟨hcallee, -⟩ := pure_eq_some.1 h
  obtain rfl := Option.some.inj hcallee
  obtain ⟨output, rfl, hwritten⟩ := function_of_typeWith hdeclared
  exact ⟨output, hwritten, Ty.filled_substitute (R := fun leaf u => u = leaf.substitute _) _
    (fun _ => (Ty.substitute_var ..).symm) (fun _ => rfl) _⟩

end Explicit

/-- A type written at a call for a type parameter comes to stand in the types of the inputs and of
the output as `ExplicitTypes` says, whatever the receiver and the arguments are. -/
theorem Call.explicit_types {ctx : Context} {call : Call} {callee : Callee} {k : Nat}
    {v : TypeVariable} {given : TypeInput}
    (hdistinct : (callee.typeVars.map TypeVariable.text).Nodup)
    (hv : callee.typeVars[k]? = some v) (hgiven : call.typeInputs[k]? = some given) :
    ExplicitTypes ctx call callee v given := by
  have hexplicit := explicitType?_eq_some hdistinct hv hgiven
  refine
    { expected := fun {_ _} hty {_ _ _} h => filled_expectedAt hexplicit hty h,
      output := fun {_ _ _} hcallee {_ _ _ _} htype h =>
        filled_outputType hexplicit hcallee htype h,
      member := ?_, memberOutput := ?_ }
  · intro s args f calleeTy hmember hcallee b input written hzip hb _ _ expected h
    obtain ⟨output, -, hfilled⟩ := filled_memberType hmember
    cases hfilled with
    | function hinputs houtput =>
      obtain rfl := Option.some.inj hcallee
      have hb' := List.forall₂_zip hinputs hzip
      obtain ⟨ty, hty, hfilled⟩ := hb'.ty_eq_some hb
      obtain ⟨e, rfl, he⟩ := filled_expectedAt hexplicit hty h
      rw [hb'.rest]
      exact ⟨e, rfl, hfilled.trans (fun leaf mid u => putInMember_of_filled) he⟩
  · intro s args f calleeTy written hmember hcallee hwritten _ _ _ ty htype h
    obtain ⟨output, houtput, hfilled⟩ := filled_memberType hmember
    obtain rfl := houtput written hwritten
    cases hfilled with
    | function hinputs houtput =>
      obtain rfl := Option.some.inj hcallee
      have hput := filled_outputType hexplicit rfl htype h
      have hmid := houtput.of_resolveNames fun leaf mid _ hmid => hmid
      exact hmid.trans (Q := PutInMemberOutput ctx v given (s.argumentFor? args))
        (fun leaf mid u _ hleaf hu => putInMemberOutput_of_filled hleaf hu) hput

namespace SharedParameter

/-- The parameter `T` of the structure. -/
def outer : TypeVariable :=
  ⟨⟨2⟩, nameOf "T"⟩

/-- The parameter `T` of the member. -/
def inner : TypeVariable :=
  ⟨⟨4⟩, nameOf "T"⟩

/-- The input `x•T` of the member. -/
def input : Binder :=
  binderOf 5 "x" (some (.var "T")) none

/-- The member `f⸨T⸩(x•T) T`, which yields its input. -/
def member : FunctionDef :=
  { functionOf 3 "f" [input] (some (.var "T")) (some (referenceOf 6 "x")) with typeVars := [inner] }

/-- A structure `S⸨T⸩` with the member. -/
def container : StructDef :=
  ⟨⟨1⟩, [nameOf "S"], [outer], [], some (.block ⟨7⟩ [.function member])⟩

/-- The instance `S⸨?⸩()`. -/
def subject : Expr :=
  .call { callWith 8 (referenceOf 10 "S") [] with typeInputs := [⟨⟨9⟩, .boolean⟩] }

/-- The type of texts, which is given at the call. -/
def given : TypeInput :=
  ⟨⟨12⟩, .text none⟩

/-- The call of the member of the instance, with a text and with the type of texts for `T`. -/
def call : Call :=
  { callWith 11 (accessOf 13 subject "f") [.text ⟨14⟩ (tokenOf "\"a\"" .text) none] with
    typeInputs := [given] }

def context : Context :=
  { lexicon := Program.lexicon ⟨.block ⟨0⟩ [.struct container, .call call]⟩ }

/-- The input of the member as the callee has it. -/
def received : Binder :=
  { input with ty := some .boolean }

/-- The callee of the call. -/
def callee : Callee :=
  .function [inner] [received] .boolean

/-- The member takes a `T` of its own, for which the call gives texts.  Still a truth value is
expected of the call, for that is what `T` is for the structure, and the text is reported. -/
theorem receiver_first :
    (callee.typeVars.map TypeVariable.text).Nodup ∧ callee.typeVars[0]? = some inner ∧
    call.typeInputs[0]? = some given ∧ member.inputs = [input] ∧ input.ty = some (.var inner.text) ∧
    (∃ mid, Gives (fun n => call.callee.typeOf n) context .empty
      (.function [inner] [received] .boolean) mid) ∧
    (∃ after, Gives (fun n => expectedAt n call callee received) context .empty .boolean after) ∧
    (∃ after, Gives (fun n => call.outputType n) context .empty .boolean after) ∧
    given.ty.resolveNames context = .text none ∧
    ∃ after, Gives (fun n => call.conflicts n) context .empty
      [{ kind := .incompatibleInput "x" .boolean (.text none), primary := [⟨14⟩],
         secondary := some [⟨5⟩] }] after :=
  ⟨by decide, rfl, rfl, rfl, rfl, ⟨_, 20, rfl⟩, ⟨_, 20, rfl⟩, ⟨_, 20, rfl⟩, rfl, _, 20, rfl⟩

/-- A call of the same function outside the structure. -/
def plainCall : Call :=
  { call with callee := referenceOf 13 "f" }

/-- Of a function that is no member a text is expected. -/
theorem explicit_types_plain :
    let ctx : Context :=
      { lexicon := Program.lexicon ⟨.block ⟨0⟩ [.function member, .call plainCall]⟩ }
    (∃ mid, Gives (fun n => plainCall.callee.typeOf n) ctx .empty
      (.function [inner] [input] (.var "T")) mid) ∧
    (∃ after, Gives (fun n => expectedAt n plainCall (.function [inner] [input] (.var "T")) input)
      ctx .empty (.text none) after) ∧
    ExplicitTypes ctx plainCall (.function [inner] [input] (.var "T")) inner given :=
  ⟨⟨_, 20, rfl⟩, ⟨_, 20, rfl⟩, @Call.explicit_types _ plainCall
    (.function [inner] [input] (.var "T")) 0 inner given (by decide) rfl rfl⟩

end SharedParameter

end Stepwise
