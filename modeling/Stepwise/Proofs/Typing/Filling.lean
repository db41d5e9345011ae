import Mathlib.Data.List.Forall2
import Mathlib.Data.Option.Basic
import Stepwise.Proofs.Code.Layout
import Stepwise.Proofs.Typing.Parts

/-!
# Filling in a type

Resolving names and substituting type variables leave a type as it is but for its variables and
names, in the places of which there are other types afterwards.  `Ty.Filled R` says so: the second
type is the first with, in the place of each variable or name, a type that `R` relates to it.  The
operands of derived units are left alone, and so are the values of inputs and columns.

Both operations fill in a type (`Ty.filled_resolveNames`, `Ty.filled_substitute`), whether the
answers to variables have effects or not (`filled_substituteM`); and one after the other they fill
in at each place what they come to there (`Ty.Filled.trans`).
-/

namespace Stepwise

mutual

/-- The second type is the first with a type that `R` relates to it in the place of each variable
and name. -/
inductive Ty.Filled (R : Ty → Ty → Prop) : Ty → Ty → Prop where
  | var {name : String} {ty : Ty} (h : R (.var name) ty) : Ty.Filled R (.var name) ty
  | name {name : String} {ty : Ty} (h : R (.name name) ty) : Ty.Filled R (.name name) ty
  | list {item item' : Ty} (h : item.Filled R item') : Ty.Filled R (.list item) (.list item')
  | function {vars : List TypeVariable} {inputs inputs' : List Binder} {output output' : Ty}
      (hinputs : List.Forall₂ (Binder.Filled R) inputs inputs')
      (houtput : output.Filled R output') :
      Ty.Filled R (.function vars inputs output) (.function vars inputs' output')
  | table {columns columns' : List Binder} (h : List.Forall₂ (Binder.Filled R) columns columns') :
      Ty.Filled R (.table columns) (.table columns')
  | struct {definition : StructDef} {args args' : List Ty}
      (h : List.Forall₂ (Ty.Filled R) args args') :
      Ty.Filled R (.struct definition args) (.struct definition args')
  | structDef {definition : StructDef} {args args' : List Ty}
      (h : List.Forall₂ (Ty.Filled R) args args') :
      Ty.Filled R (.structDef definition args) (.structDef definition args')
  | union {members members' : List Ty} (h : List.Forall₂ (Ty.Filled R) members members') :
      Ty.Filled R (.union members) (.union members')
  | number (unit : NumberUnit) : Ty.Filled R (.number unit) (.number unit)
  | text (language : Option String) : Ty.Filled R (.text language) (.text language)
  | boolean : Ty.Filled R .boolean .boolean
  | any : Ty.Filled R .any .any
  | unknown (reason : UnknownReason) (node : Option NodeId) :
      Ty.Filled R (.unknown reason node) (.unknown reason node)

/-- The second declaration is the first with its written type filled in. -/
inductive Binder.Filled (R : Ty → Ty → Prop) : Binder → Binder → Prop where
  | mk {id : NodeId} {names : List Name} {ty ty' : Option Ty} {value : Option Expr} {rest : Bool}
      (h : Option.Rel (Ty.Filled R) ty ty') :
      Binder.Filled R ⟨id, names, ty, value, rest⟩ ⟨id, names, ty', value, rest⟩

end

/-- A variable or a name: what is filled in. -/
def Ty.isPlace : Ty → Bool
  | .var _ => true
  | .name _ => true
  | _ => false

section Filled

variable {R S Q : Ty → Ty → Prop}

/-- What is filled in at a place. -/
theorem Ty.Filled.place {t t' : Ty} (h : t.Filled R t') (hplace : t.isPlace = true) : R t t' := by
  cases h with
  | var h => exact h
  | name h => exact h
  | _ => cases hplace

theorem Binder.Filled.names {b b' : Binder} (h : b.Filled R b') : b'.names = b.names := by
  cases h with
  | mk => rfl

theorem Binder.Filled.rest {b b' : Binder} (h : b.Filled R b') : b'.rest = b.rest := by
  cases h with
  | mk => rfl

theorem Binder.Filled.value {b b' : Binder} (h : b.Filled R b') : b'.value = b.value := by
  cases h with
  | mk => rfl

theorem Binder.Filled.ty_eq_some {b b' : Binder} {t : Ty} (h : b.Filled R b')
    (ht : b.ty = some t) : ∃ t', b'.ty = some t' ∧ t.Filled R t' := by
  cases h with
  | mk h =>
    cases h with
    | none => cases ht
    | some h =>
      obtain rfl := Option.some.inj ht
      exact ⟨_, rfl, h⟩

/-! ## Filling in twice -/

mutual

/-- Filling in a type and then what comes out fills in the type. -/
theorem Ty.Filled.trans
    (hQ : ∀ leaf mid u, leaf.isPlace = true → R leaf mid → mid.Filled S u → Q leaf u) :
    ∀ {t mid u : Ty}, t.Filled R mid → mid.Filled S u → t.Filled Q u
  | .var _, _, _, .var h, h' => .var (hQ _ _ _ rfl h h')
  | .name _, _, _, .name h, h' => .name (hQ _ _ _ rfl h h')
  | .list _, _, _, .list h, .list h' => .list (h.trans hQ h')
  | .function .., _, _, .function hi ho, .function hi' ho' =>
    .function (filledBinders_trans hQ hi hi') (ho.trans hQ ho')
  | .table _, _, _, .table h, .table h' => .table (filledBinders_trans hQ h h')
  | .struct .., _, _, .struct h, .struct h' => .struct (filledTys_trans hQ h h')
  | .structDef .., _, _, .structDef h, .structDef h' => .structDef (filledTys_trans hQ h h')
  | .union _, _, _, .union h, .union h' => .union (filledTys_trans hQ h h')
  | .number _, _, _, .number unit, .number _ => .number unit
  | .text _, _, _, .text language, .text _ => .text language
  | .boolean, _, _, .boolean, .boolean => .boolean
  | .any, _, _, .any, .any => .any
  | .unknown .., _, _, .unknown reason node, .unknown _ _ => .unknown reason node

theorem filledTys_trans
    (hQ : ∀ leaf mid u, leaf.isPlace = true → R leaf mid → mid.Filled S u → Q leaf u) :
    ∀ {ts mids us : List Ty}, List.Forall₂ (Ty.Filled R) ts mids →
      List.Forall₂ (Ty.Filled S) mids us → List.Forall₂ (Ty.Filled Q) ts us
  | [], _, _, .nil, .nil => .nil
  | _ :: _, _, _, .cons h hrest, .cons h' hrest' =>
    .cons (h.trans hQ h') (filledTys_trans hQ hrest hrest')

theorem filledBinder_trans
    (hQ : ∀ leaf mid u, leaf.isPlace = true → R leaf mid → mid.Filled S u → Q leaf u) :
    ∀ {b mid u : Binder}, b.Filled R mid → mid.Filled S u → b.Filled Q u
  | ⟨_, _, none, _, _⟩, _, _, .mk .none, .mk .none => .mk .none
  | ⟨_, _, some _, _, _⟩, _, _, .mk (.some h), .mk (.some h') => .mk (.some (h.trans hQ h'))

theorem filledBinders_trans
    (hQ : ∀ leaf mid u, leaf.isPlace = true → R leaf mid → mid.Filled S u → Q leaf u) :
    ∀ {bs mids us : List Binder}, List.Forall₂ (Binder.Filled R) bs mids →
      List.Forall₂ (Binder.Filled S) mids us → List.Forall₂ (Binder.Filled Q) bs us
  | [], _, _, .nil, .nil => .nil
  | _ :: _, _, _, .cons h hrest, .cons h' hrest' =>
    .cons (filledBinder_trans hQ h h') (filledBinders_trans hQ hrest hrest')

end

mutual

/-- Leaving all variables and names in place. -/
theorem Ty.filled_refl (hR : ∀ leaf : Ty, leaf.isPlace = true → R leaf leaf) :
    ∀ t : Ty, t.Filled R t
  | .var _ => .var (hR _ rfl)
  | .name _ => .name (hR _ rfl)
  | .list item => .list (Ty.filled_refl hR item)
  | .function _ inputs output => .function (filledBinders_refl hR inputs) (Ty.filled_refl hR output)
  | .table columns => .table (filledBinders_refl hR columns)
  | .struct _ args => .struct (filledTys_refl hR args)
  | .structDef _ args => .structDef (filledTys_refl hR args)
  | .union members => .union (filledTys_refl hR members)
  | .number unit => .number unit
  | .text language => .text language
  | .boolean => .boolean
  | .any => .any
  | .unknown reason node => .unknown reason node

theorem filledTys_refl (hR : ∀ leaf : Ty, leaf.isPlace = true → R leaf leaf) :
    ∀ ts : List Ty, List.Forall₂ (Ty.Filled R) ts ts
  | [] => .nil
  | t :: rest => .cons (Ty.filled_refl hR t) (filledTys_refl hR rest)

theorem filledBinder_refl (hR : ∀ leaf : Ty, leaf.isPlace = true → R leaf leaf) :
    ∀ b : Binder, b.Filled R b
  | ⟨_, _, none, _, _⟩ => .mk .none
  | ⟨_, _, some t, _, _⟩ => .mk (.some (Ty.filled_refl hR t))

theorem filledBinders_refl (hR : ∀ leaf : Ty, leaf.isPlace = true → R leaf leaf) :
    ∀ bs : List Binder, List.Forall₂ (Binder.Filled R) bs bs
  | [] => .nil
  | b :: rest => .cons (filledBinder_refl hR b) (filledBinders_refl hR rest)

end

end Filled

/-! ## Resolving names -/

section Names

variable {ctx : Context} {R S : Ty → Ty → Prop}

mutual

/-- Resolving names on both sides. -/
theorem Ty.Filled.resolveNames
    (hS : ∀ leaf u, leaf.isPlace = true → R leaf u →
      (leaf.resolveNames ctx).Filled S (u.resolveNames ctx)) :
    ∀ {t t' : Ty}, t.Filled R t' → (t.resolveNames ctx).Filled S (t'.resolveNames ctx)
  | .var _, _, .var h => hS _ _ rfl h
  | .name _, _, .name h => hS _ _ rfl h
  | .list _, _, .list h => .list (h.resolveNames hS)
  | .function .., _, .function hi ho =>
    .function (filledBinders_resolveNames hS hi) (ho.resolveNames hS)
  | .table _, _, .table h => .table (filledBinders_resolveNames hS h)
  | .struct .., _, .struct h => .struct (filledTys_resolveNames hS h)
  | .structDef .., _, .structDef h => .structDef (filledTys_resolveNames hS h)
  | .union _, _, .union h => .union (filledTys_resolveNames hS h)
  | .number _, _, .number unit => .number unit
  | .text _, _, .text language => .text language
  | .boolean, _, .boolean => .boolean
  | .any, _, .any => .any
  | .unknown .., _, .unknown reason node => .unknown reason node

theorem filledTys_resolveNames
    (hS : ∀ leaf u, leaf.isPlace = true → R leaf u →
      (leaf.resolveNames ctx).Filled S (u.resolveNames ctx)) :
    ∀ {ts ts' : List Ty}, List.Forall₂ (Ty.Filled R) ts ts' →
      List.Forall₂ (Ty.Filled S) (resolveInTys ctx ts) (resolveInTys ctx ts')
  | [], _, .nil => .nil
  | _ :: _, _, .cons h hrest => .cons (h.resolveNames hS) (filledTys_resolveNames hS hrest)

theorem filledBinder_resolveNames
    (hS : ∀ leaf u, leaf.isPlace = true → R leaf u →
      (leaf.resolveNames ctx).Filled S (u.resolveNames ctx)) :
    ∀ {b b' : Binder}, b.Filled R b' → (b.resolveNames ctx).Filled S (b'.resolveNames ctx)
  | ⟨_, _, none, _, _⟩, _, .mk .none => .mk .none
  | ⟨_, _, some _, _, _⟩, _, .mk (.some h) => .mk (.some (h.resolveNames hS))

theorem filledBinders_resolveNames
    (hS : ∀ leaf u, leaf.isPlace = true → R leaf u →
      (leaf.resolveNames ctx).Filled S (u.resolveNames ctx)) :
    ∀ {bs bs' : List Binder}, List.Forall₂ (Binder.Filled R) bs bs' →
      List.Forall₂ (Binder.Filled S) (resolveInBinders ctx bs) (resolveInBinders ctx bs')
  | [], _, .nil => .nil
  | _ :: _, _, .cons h hrest =>
    .cons (filledBinder_resolveNames hS h) (filledBinders_resolveNames hS hrest)

end

mutual

/-- Resolving names fills in what the names stand for. -/
theorem Ty.filled_resolveNames
    (hR : ∀ leaf : Ty, leaf.isPlace = true → R leaf (leaf.resolveNames ctx)) :
    ∀ t : Ty, t.Filled R (t.resolveNames ctx)
  | .var _ => .var (hR _ rfl)
  | .name _ => .name (hR _ rfl)
  | .list item => .list (Ty.filled_resolveNames hR item)
  | .function _ inputs output =>
    .function (filled_resolveInBinders hR inputs) (Ty.filled_resolveNames hR output)
  | .table columns => .table (filled_resolveInBinders hR columns)
  | .struct _ args => .struct (filled_resolveInTys hR args)
  | .structDef _ args => .structDef (filled_resolveInTys hR args)
  | .union members => .union (filled_resolveInTys hR members)
  | .number unit => .number unit
  | .text language => .text language
  | .boolean => .boolean
  | .any => .any
  | .unknown reason node => .unknown reason node

theorem filled_resolveInTys
    (hR : ∀ leaf : Ty, leaf.isPlace = true → R leaf (leaf.resolveNames ctx)) :
    ∀ ts : List Ty, List.Forall₂ (Ty.Filled R) ts (resolveInTys ctx ts)
  | [] => .nil
  | t :: rest => .cons (Ty.filled_resolveNames hR t) (filled_resolveInTys hR rest)

theorem filled_resolveInBinder
    (hR : ∀ leaf : Ty, leaf.isPlace = true → R leaf (leaf.resolveNames ctx)) :
    ∀ b : Binder, b.Filled R (b.resolveNames ctx)
  | ⟨_, _, none, _, _⟩ => .mk .none
  | ⟨_, _, some t, _, _⟩ => .mk (.some (Ty.filled_resolveNames hR t))

theorem filled_resolveInBinders
    (hR : ∀ leaf : Ty, leaf.isPlace = true → R leaf (leaf.resolveNames ctx)) :
    ∀ bs : List Binder, List.Forall₂ (Binder.Filled R) bs (resolveInBinders ctx bs)
  | [] => .nil
  | b :: rest => .cons (filled_resolveInBinder hR b) (filled_resolveInBinders hR rest)

end

/-- Filling in what names resolve to. -/
theorem Ty.Filled.of_resolveNames {t u : Ty} (h : (t.resolveNames ctx).Filled R u)
    (hS : ∀ leaf u, leaf.isPlace = true → (leaf.resolveNames ctx).Filled R u → S leaf u) :
    t.Filled S u := by
  have hresolved : t.Filled (fun leaf mid => mid = leaf.resolveNames ctx) (t.resolveNames ctx) :=
    Ty.filled_resolveNames (R := fun leaf mid => mid = leaf.resolveNames ctx) (fun _ _ => rfl) t
  refine Ty.Filled.trans (fun leaf mid u hplace hmid hu => ?_) hresolved h
  subst hmid
  exact hS leaf u hplace hu

end Names

/-! ## Substituting type variables -/

/-- A way to say what the results of computations are like that sequences inherit. -/
structure ResultLogic (m : Type → Type) [Monad m] where
  Yields : ∀ {α : Type}, m α → (α → Prop) → Prop
  yields_pure : ∀ {α : Type} {a : α} {P : α → Prop}, P a → Yields (pure a) P
  yields_bind : ∀ {α β : Type} {x : m α} {f : α → m β} {P : α → Prop} {Q : β → Prop},
    Yields x P → (∀ a, P a → Yields (f a) Q) → Yields (x >>= f) Q

/-- What the answers to the variables of a type are like, where names are left in place. -/
structure FillsIn {m : Type → Type} [Monad m] (L : ResultLogic m) (answer : String → m (Option Ty))
    (R : Ty → Ty → Prop) : Prop where
  var : ∀ name, L.Yields (answer name) fun found => R (.var name) (found.getD (.var name))
  name : ∀ name, R (.name name) (.name name)

section Substitution

variable {m : Type → Type} [Monad m] {L : ResultLogic m} {answer : String → m (Option Ty)}
  {R : Ty → Ty → Prop}

mutual

/-- Substituting fills in what is answered to the variables. -/
theorem Ty.filled_substituteM (h : FillsIn L answer R) :
    ∀ t : Ty, L.Yields (t.substituteM answer) (t.Filled R)
  | .var name => L.yields_bind (h.var name) fun found hfound => by
    cases found with
    | some ty => exact L.yields_pure (.var hfound)
    | none => exact L.yields_pure (.var hfound)
  | .name name => L.yields_pure (.name (h.name name))
  | .list item => L.yields_bind (Ty.filled_substituteM h item) fun _ hi => L.yields_pure (.list hi)
  | .function _ inputs output =>
    L.yields_bind (filled_substituteInBindersM h inputs) fun _ hi =>
      L.yields_bind (Ty.filled_substituteM h output) fun _ ho => L.yields_pure (.function hi ho)
  | .table columns =>
    L.yields_bind (filled_substituteInBindersM h columns) fun _ hc => L.yields_pure (.table hc)
  | .struct _ args =>
    L.yields_bind (filled_substituteInTysM h args) fun _ ha => L.yields_pure (.struct ha)
  | .structDef _ args =>
    L.yields_bind (filled_substituteInTysM h args) fun _ ha => L.yields_pure (.structDef ha)
  | .union members =>
    L.yields_bind (filled_substituteInTysM h members) fun _ hm => L.yields_pure (.union hm)
  | .number unit => L.yields_pure (.number unit)
  | .text language => L.yields_pure (.text language)
  | .boolean => L.yields_pure .boolean
  | .any => L.yields_pure .any
  | .unknown reason node => L.yields_pure (.unknown reason node)

theorem filled_substituteInTysM (h : FillsIn L answer R) : ∀ ts : List Ty,
    L.Yields (substituteInTysM answer ts) (List.Forall₂ (Ty.Filled R) ts)
  | [] => L.yields_pure .nil
  | t :: rest =>
    L.yields_bind (Ty.filled_substituteM h t) fun _ ht =>
      L.yields_bind (filled_substituteInTysM h rest) fun _ hrest => L.yields_pure (.cons ht hrest)

theorem filled_substituteInBinderM (h : FillsIn L answer R) : ∀ b : Binder,
    L.Yields (b.substituteM answer) (b.Filled R)
  | ⟨_, _, none, _, _⟩ => L.yields_bind (L.yields_pure .none) fun _ ht => L.yields_pure (.mk ht)
  | ⟨_, _, some t, _, _⟩ =>
    L.yields_bind (L.yields_bind (Ty.filled_substituteM h t) fun _ ht => L.yields_pure (.some ht))
      fun _ ht => L.yields_pure (.mk ht)

theorem filled_substituteInBindersM (h : FillsIn L answer R) : ∀ bs : List Binder,
    L.Yields (substituteInBindersM answer bs) (List.Forall₂ (Binder.Filled R) bs)
  | [] => L.yields_pure .nil
  | b :: rest =>
    L.yields_bind (filled_substituteInBinderM h b) fun _ hb =>
      L.yields_bind (filled_substituteInBindersM h rest) fun _ hrest =>
        L.yields_pure (.cons hb hrest)

end

end Substitution

/-- What computations without effects yield. -/
def ResultLogic.pureResults : ResultLogic Id where
  Yields x P := P x
  yields_pure h := h
  yields_bind h hf := hf _ h

/-- What queries in a context answer, if they answer. -/
def ResultLogic.answers (ctx : Context) : ResultLogic Query where
  Yields q P := ∀ memo a after, q ctx memo = some (a, after) → P a
  yields_pure h _ _ _ heq := (Query.pure_eq_some.1 heq).1 ▸ h
  yields_bind h hf memo b after heq := by
    obtain ⟨a, mid, ha, hb⟩ := Query.bind_eq_some.1 heq
    exact hf a (h memo a mid ha) mid b after hb

/-- Substituting without effects fills in the answers. -/
theorem Ty.filled_substitute {R : Ty → Ty → Prop} (answer : String → Option Ty)
    (hvar : ∀ name, R (.var name) ((answer name).getD (.var name)))
    (hname : ∀ name, R (.name name) (.name name)) (t : Ty) : t.Filled R (t.substitute answer) :=
  Ty.filled_substituteM (L := .pureResults) ⟨hvar, hname⟩ t

end Stepwise
