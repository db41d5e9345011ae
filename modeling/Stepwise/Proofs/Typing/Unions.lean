import Stepwise.Proofs.Sample
import Stepwise.Proofs.Typing.Admission

/-!
# Unions of types

A union keeps, of the types that are joined, the first of those that accept each other.  Accepting
each other is neither reflexive nor transitive: an unknown type does not accept itself, and what a
type variable goes with need not go with each other.  Still a union is a least upper bound of the
types that are joined, if these are regular: if they contain no unknown type, and each of their
tables has named columns of written types that can be told apart by their names
(`Ty.Regular`).

What carries this is that regular types admit themselves (`Ty.Regular.admits_self`), so that each
type that is joined is admitted by a member that is kept: by itself, or by the earlier one because
of which it is not kept (`Ty.Joined`).  That nothing lies between is so for any type that accepts
all that are joined, since the members are among these.
-/

namespace Stepwise

open Query Comparison

/-! ## Regular types -/

/-- The type is known, and if it is a table then its columns have written types and names that tell
them apart. -/
def Ty.isRegular : Ty → Prop
  | .unknown .. => False
  | .table columns => (∀ column ∈ columns, column.ty.isSome = true ∧ column.names ≠ []) ∧
      columns.Pairwise fun column other => column.sharesName other = false
  | _ => True

instance : DecidablePred Ty.isRegular
  | .table columns => inferInstanceAs (Decidable
      ((∀ column ∈ columns, column.ty.isSome = true ∧ column.names ≠ []) ∧
        columns.Pairwise fun column other => column.sharesName other = false))
  | .unknown .. => .isFalse id
  | .function .. | .list _ | .number _ | .text _ | .boolean | .struct .. | .structDef .. | .var _
  | .name _ | .union _ | .any => .isTrue trivial

/-- The type and all types written in it are regular. -/
def Ty.Regular (t : Ty) : Prop :=
  t.Throughout Ty.isRegular

instance (t : Ty) : Decidable t.Regular :=
  inferInstanceAs (Decidable (t.Throughout Ty.isRegular))

theorem Binder.sharesName_comm (a b : Binder) : a.sharesName b = b.sharesName a := by
  rw [Bool.eq_iff_iff, sharesName_iff, sharesName_iff]
  exact exists_congr fun _ => and_comm

theorem Binder.sharesName_self {b : Binder} (h : b.names ≠ []) : b.sharesName b = true := by
  obtain ⟨name, rest, hnames⟩ := List.exists_cons_of_ne_nil h
  refine sharesName_iff.2 ⟨name.text, ?_, ?_⟩ <;> simp [aliases, hnames]

/-- A column whose names tell it apart is the first one of its names. -/
theorem find?_sharesName_self {columns : List Binder} {column : Binder}
    (h : columns.Pairwise fun column other => column.sharesName other = false)
    (hnames : column.names ≠ []) (hmem : column ∈ columns) :
    columns.find? column.sharesName = some column := by
  induction h with
  | nil => cases hmem
  | @cons first rest hfirst _ ih =>
    rcases List.mem_cons.1 hmem with rfl | hmem
    · rw [List.find?_cons, Binder.sharesName_self hnames]
    · rw [List.find?_cons, Binder.sharesName_comm, hfirst column hmem]
      exact ih hmem

section Regular

variable {ctx : Context} {t : Ty} {ts : List Ty}

theorem Ty.Regular.written (h : t.Regular) : t.Written := by
  intro part hpart
  have hregular := h part hpart
  cases part with
  | table columns => exact fun column hcolumn => (hregular.1 column hcolumn).1
  | _ => trivial

theorem Ty.isRegular.resolveNames (h : t.isRegular) : (t.resolveNames ctx).isRegular := by
  cases t with
  | table columns =>
    obtain ⟨hcolumns, hapart⟩ := h
    change (∀ column ∈ resolveInBinders ctx columns, _) ∧ (resolveInBinders ctx columns).Pairwise _
    rw [resolveInBinders_eq_map]
    refine ⟨fun column hcolumn => ?_, List.pairwise_map.2 (hapart.imp fun {a b} hab => ?_)⟩
    · obtain ⟨b, hb, rfl⟩ := List.mem_map.1 hcolumn
      simpa using hcolumns b hb
    · have haliases (b : Binder) : (b.resolveNames ctx).aliases = b.aliases := by
        simp only [Binder.aliases, Binder.resolveNames_names]
      unfold Binder.sharesName Binder.hasName at hab ⊢
      simpa only [haliases] using hab
  | name name =>
    rcases ctx.namedType_cases name with ⟨definition, h⟩ | ⟨v, h⟩ | h <;>
      simp [Ty.resolveNames, h, Ty.isRegular]
  | unknown => cases h
  | _ => trivial

theorem Ty.Regular.resolveNames (h : t.Regular) : (t.resolveNames ctx).Regular :=
  Throughout.resolveNames h fun _ hpart => hpart.resolveNames

end Regular

/-! ## Regular types admit themselves -/

section Admits

variable {ctx : Context}

theorem Ty.Admits.of_union {a m : Ty} {ms : List Ty} (h : a.Admits ctx (.union ms)) (hm : m ∈ ms) :
    a.Admits ctx m := by
  cases h with
  | opened h =>
    have ha : a.isOpen = true := by simpa [Ty.isOpen] using h
    exact .opened (by rw [ha]; rfl)
  | members h => exact h m hm
  | alternative hsingle => cases hsingle
  | named hsingle => cases hsingle.2

/-- A union admits what one of its members admits. -/
theorem Ty.Admits.union {m given : Ty} {ms : List Ty} (h : m.Admits ctx given) (hm : m ∈ ms) :
    (Ty.union ms).Admits ctx given := by
  induction hheight : given.height using Nat.strongRecOn generalizing given with
  | ind height ih =>
    subst hheight
    cases hopen : given.isOpen with
    | true => exact .opened (by rw [hopen, Bool.or_true])
    | false =>
      cases hsingle : given.isSingle with
      | true => exact .alternative hsingle hm h
      | false =>
        obtain ⟨others, rfl⟩ := exists_members hopen hsingle
        exact .members fun other hother =>
          ih other.height (Ty.height_lt_union hother) (h.of_union hother) rfl

/-- By induction on the height, since written names are resolved on the way. -/
theorem Ty.Regular.admits_self {t : Ty} (h : t.Regular) : t.Admits ctx t := by
  induction hheight : t.height using Nat.strongRecOn generalizing t with
  | ind height ih =>
    subst hheight
    cases t with
    | any => exact .opened rfl
    | var => exact .opened rfl
    | unknown => exact h.self.elim
    | boolean => exact .boolean
    | text language => exact .text language language
    | number unit =>
      refine .number ?_
      cases unit <;> simp [NumberUnit.accepts]
    | struct => exact .struct rfl
    | structDef => exact .structDef rfl
    | list item => exact .item (ih item.height (Nat.lt_succ_self _) h.item rfl)
    | union members =>
      exact .members fun m hm =>
        Admits.union (ih m.height (height_lt_union hm) (h.member hm) rfl) hm
    | name name =>
      rcases ctx.namedType_cases name with ⟨definition, h⟩ | ⟨v, h⟩ | h
      · refine .named ⟨rfl, rfl⟩ rfl ?_ ?_ <;> rw [Ty.resolveNames, h]
        · exact ⟨rfl, rfl⟩
        · exact .struct rfl
      · refine .named ⟨rfl, rfl⟩ rfl ?_ ?_ <;> rw [Ty.resolveNames, h]
        · exact ⟨rfl, rfl⟩
        · exact .opened rfl
      · exact .sameName h
    | table columns =>
      obtain ⟨hcolumns, hapart⟩ := h.self
      have hfind (column : Binder) (hmem : column ∈ columns) :
          columns.find? column.sharesName = some column :=
        find?_sharesName_self hapart (hcolumns column hmem).2 hmem
      refine .table rfl (fun column hmem => by rw [hfind column hmem]; rfl)
        fun column other x y hmem hother hx hy => ?_
      rw [hfind column hmem] at hother
      obtain rfl := Option.some.inj hother
      rw [hx] at hy
      obtain rfl := Option.some.inj hy
      obtain ⟨hregular, hlt⟩ :=
        Throughout.writtenTy h (fun _ hpart => hpart.resolveNames) (fun _ => trivial) hmem hx
      exact ih x.height hlt hregular rfl
    | function vars inputs output =>
      have houtput := height_lt_function_output vars inputs output
      refine .function (ih output.height houtput h.output rfl) rfl (fun x y hxy => ?_)
        fun x y s u hxy hs hu => ?_
      · obtain rfl : x = y := List.forall₂_zip (List.forall₂_same.2 fun _ _ => rfl) hxy
        exact ⟨rfl, rfl⟩
      · obtain rfl : x = y := List.forall₂_zip (List.forall₂_same.2 fun _ _ => rfl) hxy
        rw [hs] at hu
        obtain rfl := Option.some.inj hu
        have hx := (List.of_mem_zip hxy).1
        have hregular : s.Regular := Throughout.input h hx hs
        exact ih _ (height_resolved_input_lt ctx vars output hx hs) hregular.resolveNames rfl

end Admits

/-! ## Compatible types -/

/-- The types admit each other. -/
def Ty.Compatible (ctx : Context) (a b : Ty) : Prop :=
  a.Admits ctx b ∧ b.Admits ctx a

theorem Ty.Compatible.symm {ctx : Context} {a b : Ty} (h : a.Compatible ctx b) :
    b.Compatible ctx a :=
  ⟨h.2, h.1⟩

section Joining

variable {ctx : Context} {ask : Ask} {budget : Nat}

theorem Ty.says_compatible (ask : Ask) {a b : Ty} (ha : a.Written) (hb : b.Written)
    (hbudget : a.height + b.height ≤ budget) :
    ∃ r, (a.compatibleWith ask budget b).Says ctx r ∧ (r = true ↔ a.Compatible ctx b) := by
  obtain ⟨there, hthere, hthere'⟩ := a.says_accepts_iff ask ha hb hbudget
  obtain ⟨back, hback, hback'⟩ :
      ∃ r, (b.acceptsWith ask budget a).Says ctx r ∧ (r = true ↔ b.Admits ctx a) :=
    b.says_accepts_iff ask hb ha (by omega)
  cases there with
  | true => exact ⟨back, hthere.bind hback, by simp [Compatible, ← hthere', hback']⟩
  | false => exact ⟨false, hthere.bind says_pure, by simp [Compatible, ← hthere']⟩

/-! ## Joining types -/

/-- What the members of a union are when the types that have been seen have been joined. -/
structure Ty.Joined (ctx : Context) (members seen : List Ty) : Prop where
  sublist : members.Sublist seen
  covered : ∀ t ∈ seen, ∃ m ∈ members, m.Admits ctx t
  apart : members.Pairwise fun m m' => ¬ m.Compatible ctx m'

theorem Ty.joined_nil : Ty.Joined ctx [] [] :=
  ⟨.slnil, nofun, .nil⟩

/-- Joining one more type. -/
theorem Ty.Joined.joinMember {members seen : List Ty} {ty : Ty} (h : Ty.Joined ctx members seen)
    (hseen : ∀ t ∈ seen, t.Written) (hty : ty.Regular)
    (hbudget : ∀ t ∈ seen, t.height + ty.height ≤ budget) :
    ∃ members', (joinMember (Ty.compatibleWith ask budget) members ty).Says ctx members' ∧
      Ty.Joined ctx members' (seen ++ [ty]) := by
  have hcompatible (m : Ty) (hm : m ∈ members) :
      ∃ r, (m.compatibleWith ask budget ty).Says ctx r ∧ (r = true ↔ m.Compatible ctx ty) :=
    says_compatible ask (hseen m (h.sublist.subset hm)) hty.written
      (hbudget m (h.sublist.subset hm))
  obtain ⟨found, hfound, hiff⟩ := says_anyM fun m hm =>
    (hcompatible m hm).imp fun _ hr => hr.1
  cases found with
  | true =>
    refine ⟨members, hfound.bind says_pure, h.sublist.trans (List.sublist_append_left ..), ?_,
      h.apart⟩
    intro t ht
    rcases List.mem_append.1 ht with ht | ht
    · exact h.covered t ht
    · obtain rfl := List.mem_singleton.1 ht
      obtain ⟨m, hm, hyes⟩ := hiff.1 rfl
      obtain ⟨r, hr, hr'⟩ := hcompatible m hm
      exact ⟨m, hm, (hr'.1 (hr.unique hyes)).1⟩
  | false =>
    refine ⟨members ++ [ty], hfound.bind says_pure, h.sublist.append_right _, ?_, ?_⟩
    · intro t ht
      rcases List.mem_append.1 ht with ht | ht
      · obtain ⟨m, hm, hadmits⟩ := h.covered t ht
        exact ⟨m, List.mem_append_left _ hm, hadmits⟩
      · obtain rfl := List.mem_singleton.1 ht
        exact ⟨t, List.mem_append_right _ (List.mem_singleton_self _), hty.admits_self⟩
    · refine List.pairwise_append.2 ⟨h.apart, List.pairwise_singleton .., fun m hm t ht hmt => ?_⟩
      obtain rfl := List.mem_singleton.1 ht
      obtain ⟨r, hr, hr'⟩ := hcompatible m hm
      rw [hr'.2 hmt] at hr
      exact Bool.false_ne_true (hiff.2 ⟨m, hm, hr⟩)

/-- By induction on the types that are still to be joined. -/
theorem Ty.Joined.foldlM {members seen types : List Ty} (h : Ty.Joined ctx members seen)
    (hregular : ∀ t ∈ seen ++ types, t.Regular)
    (hbudget : ∀ s ∈ seen ++ types, ∀ t ∈ seen ++ types, s.height + t.height ≤ budget) :
    ∃ members',
      (types.foldlM (Stepwise.joinMember (Ty.compatibleWith ask budget)) members).Says ctx
        members' ∧ Ty.Joined ctx members' (seen ++ types) := by
  induction types generalizing members seen with
  | nil => exact ⟨members, says_pure, by rwa [List.append_nil]⟩
  | cons ty rest ih =>
    have hty : ty ∈ seen ++ ty :: rest := by simp
    obtain ⟨mid, hmid, hjoined⟩ :
        ∃ mid, (Stepwise.joinMember (Ty.compatibleWith ask budget) members ty).Says ctx mid ∧
          Ty.Joined ctx mid (seen ++ [ty]) :=
      h.joinMember (fun t ht => (hregular t (List.mem_append_left _ ht)).written) (hregular ty hty)
        (fun t ht => hbudget t (List.mem_append_left _ ht) ty hty)
    rw [List.append_cons] at hregular hbudget ⊢
    obtain ⟨members', hmembers, hjoined'⟩ := ih hjoined hregular hbudget
    exact ⟨members', hmid.bind hmembers, hjoined'⟩

/-- The members of a union; another type counts as its only member. -/
def Ty.flattened : Ty → List Ty
  | .union members => members
  | other => [other]

theorem joinType_eq (compatible : Ty → Ty → Query Bool) (members : List Ty) (ty : Ty) :
    joinType compatible members ty = ty.flattened.foldlM (joinMember compatible) members := by
  cases ty <;> simp [joinType, Ty.flattened]

/-- Joining types is joining what they are flattened to. -/
theorem foldlM_joinType (compatible : Ty → Ty → Query Bool) (types members : List Ty) :
    types.foldlM (joinType compatible) members =
      (types.flatMap Ty.flattened).foldlM (joinMember compatible) members := by
  induction types generalizing members with
  | nil => rfl
  | cons ty rest ih =>
    rw [List.foldlM_cons, List.flatMap_cons, List.foldlM_append, joinType_eq]
    exact bind_congr fun mid => ih mid

theorem Ty.Regular.of_flattened {types : List Ty} (h : ∀ t ∈ types, t.Regular) :
    ∀ t ∈ types.flatMap Ty.flattened, t.Regular := by
  intro t ht
  obtain ⟨ty, hty, ht⟩ := List.mem_flatMap.1 ht
  cases ty with
  | union members => exact (h _ hty).member ht
  | _ => exact List.mem_singleton.1 ht ▸ h _ hty

end Joining

/-! ## What accepts a union -/

section Least

variable {ctx : Context} {memo : Memo}

/-- In a state in which no check adds anything, all checks together come out as each does. -/
theorem gives_allM_iff {α : Type} {p : α → Nat → Query Bool} (hp : ∀ a, Steady (p a))
    {l : List α} :
    Gives (fun n => l.allM fun a => p a n) ctx memo true memo ↔
      ∀ a ∈ l, Gives (p a) ctx memo true memo := by
  simp only [allM_eq_whileM]
  induction l with
  | nil => exact ⟨fun _ _ ha => (nomatch ha), fun _ => gives_pure.2 ⟨rfl, rfl⟩⟩
  | cons a rest ih =>
    rw [gives_whileM_cons hp, List.forall_mem_cons, ← ih]
    constructor
    · rintro ⟨first, mid, hfirst, hrest⟩
      cases first with
      | false => exact absurd (gives_pure.1 hrest).1 Bool.false_ne_true
      | true =>
        obtain rfl := (hfirst.grows (hp a)).antisymm (hrest.grows (steady_whileM hp rest))
        exact ⟨hfirst, hrest⟩
    · rintro ⟨hfirst, hrest⟩
      exact ⟨true, memo, hfirst, hrest⟩

theorem gives_accepts_union {x : Ty} {ms : List Ty} :
    Gives (fun n => x.accepts n (.union ms)) ctx memo true memo ↔
      ∀ m ∈ ms, Gives (fun n => x.accepts n m) ctx memo true memo := by
  cases hopen : x.isOpen with
  | true =>
    have hall (given : Ty) : Gives (fun n => x.accepts n given) ctx memo true memo := by
      refine gives_accepts.2 ?_
      simp only [acceptsStep_open (show (x.isOpen || given.isOpen) = true by rw [hopen]; rfl)]
      exact gives_pure.2 ⟨rfl, rfl⟩
    exact ⟨fun _ m _ => hall m, fun _ => hall _⟩
  | false =>
    rw [gives_accepts]
    simp only [acceptsStep_member hopen]
    exact gives_allM_iff fun m => steady_accepts x m

end Least

/-! ## Unions are least upper bounds -/

/-- What makes the type of the members a least upper bound of the types. -/
structure Ty.LeastBound (ctx : Context) (types members : List Ty) : Prop where
  /-- There is no type if and only if there is nothing to join. -/
  none_iff : unionOfMembers members = none ↔ types.flatMap Ty.flattened = []
  /-- The type accepts all types, in any state. -/
  accepts : ∀ u, unionOfMembers members = some u → ∀ t ∈ types, ∀ memo,
    Gives (fun n => u.accepts n t) ctx memo true memo
  /-- A type that accepts all types accepts the type, where nothing is left to be found out. -/
  least : ∀ u, unionOfMembers members = some u → ∀ (x : Ty) (memo : Memo),
    (∀ t ∈ types, Gives (fun n => x.accepts n t) ctx memo true memo) →
      Gives (fun n => x.accepts n u) ctx memo true memo
  /-- The same for checks made earlier, at any times between queries. -/
  least_later : ∀ u, unionOfMembers members = some u → ∀ (x : Ty) (later : Memo),
    (∀ t ∈ types, ∃ memo after, memo.AtRest ∧ Gives (fun n => x.accepts n t) ctx memo true after ∧
      after.Extends later) →
      Gives (fun n => x.accepts n u) ctx later true later
  /-- No two members accept each other. -/
  apart : members.Pairwise fun m m' => ∀ memo,
    Gives (fun n => m.compatible n m') ctx memo false memo ∧
      Gives (fun n => m'.compatible n m) ctx memo false memo

section LeastBound

variable {ctx : Context} {types members : List Ty}

theorem unionOfMembers_eq_none : unionOfMembers members = none ↔ members = [] := by
  match members with
  | [] => simp [unionOfMembers]
  | [_] => simp [unionOfMembers]
  | _ :: _ :: _ => simp [unionOfMembers]

/-- A type accepts the type of the members if it accepts the members. -/
theorem gives_accepts_unionOfMembers {x u : Ty} {memo : Memo}
    (hu : unionOfMembers members = some u)
    (h : ∀ m ∈ members, Gives (fun n => x.accepts n m) ctx memo true memo) :
    Gives (fun n => x.accepts n u) ctx memo true memo := by
  match members with
  | [] => cases hu
  | [only] =>
    obtain rfl := Option.some.inj hu
    exact h only (List.mem_singleton_self _)
  | first :: second :: rest =>
    obtain rfl := Option.some.inj hu
    exact gives_accepts_union.2 h

theorem admits_unionOfMembers {m u given : Ty} (hu : unionOfMembers members = some u)
    (hm : m ∈ members) (h : m.Admits ctx given) : u.Admits ctx given := by
  match members with
  | [] => cases hm
  | [only] =>
    obtain rfl := Option.some.inj hu
    rwa [← List.mem_singleton.1 hm]
  | first :: second :: rest =>
    obtain rfl := Option.some.inj hu
    exact h.union hm

theorem written_unionOfMembers {u : Ty} (hu : unionOfMembers members = some u)
    (h : ∀ m ∈ members, m.Written) : u.Written := by
  match members with
  | [] => cases hu
  | [only] =>
    obtain rfl := Option.some.inj hu
    exact h only (List.mem_singleton_self _)
  | first :: second :: rest =>
    obtain rfl := Option.some.inj hu
    exact Ty.throughout_union.2 ⟨trivial, h⟩

/-- A type that accepts the types accepts what they are flattened to. -/
theorem gives_accepts_flattened {x : Ty} {memo : Memo}
    (h : ∀ t ∈ types, Gives (fun n => x.accepts n t) ctx memo true memo) :
    ∀ m ∈ types.flatMap Ty.flattened, Gives (fun n => x.accepts n m) ctx memo true memo := by
  intro m hm
  obtain ⟨t, ht, hm⟩ := List.mem_flatMap.1 hm
  cases t with
  | union ms => exact gives_accepts_union.1 (h _ ht) m hm
  | _ => exact List.mem_singleton.1 hm ▸ h _ ht

theorem gives_compatible_false {a b : Ty} (ha : a.Written) (hb : b.Written)
    (h : ¬ a.Compatible ctx b) (memo : Memo) :
    Gives (fun n => a.compatible n b) ctx memo false memo := by
  obtain ⟨r, hr, hiff⟩ :=
    a.says_compatible (Expr.typeOf (a.height + b.height)) ha hb (Nat.le_refl _)
  cases r with
  | true => exact absurd (hiff.1 rfl) h
  | false => exact ⟨_, hr memo⟩

/-- Members of which each type that is joined is admitted by one, and no two of which admit each
other, make a least upper bound. -/
theorem Ty.Joined.leastBound (h : Ty.Joined ctx members (types.flatMap Ty.flattened))
    (hregular : ∀ t ∈ types, t.Regular) : Ty.LeastBound ctx types members := by
  have hwritten (m : Ty) (hm : m ∈ members) : m.Written :=
    (Regular.of_flattened hregular m (h.sublist.subset hm)).written
  have hleast (u : Ty) (hu : unionOfMembers members = some u) (x : Ty) (memo : Memo)
      (hx : ∀ t ∈ types, Gives (fun n => x.accepts n t) ctx memo true memo) :
      Gives (fun n => x.accepts n u) ctx memo true memo :=
    gives_accepts_unionOfMembers hu fun m hm =>
      gives_accepts_flattened hx m (h.sublist.subset hm)
  refine ⟨?_, fun u hu t ht memo => ?_, hleast, fun u hu x later hx => ?_, ?_⟩
  · rw [unionOfMembers_eq_none]
    constructor
    · rintro rfl
      refine List.eq_nil_iff_forall_not_mem.2 fun t ht => ?_
      obtain ⟨m, hm, -⟩ := h.covered t ht
      cases hm
    · intro hnil
      exact List.sublist_nil.1 (hnil ▸ h.sublist)
  · have hadmits (t' : Ty) (ht' : t' ∈ types.flatMap Ty.flattened) : u.Admits ctx t' := by
      obtain ⟨m, hm, hadmits⟩ := h.covered t' ht'
      exact admits_unionOfMembers hu hm hadmits
    refine Admits.gives ?_ (written_unionOfMembers hu hwritten) (hregular t ht).written memo
    cases t with
    | union ms => exact .members fun m hm => hadmits m (List.mem_flatMap.2 ⟨_, ht, hm⟩)
    | _ => exact hadmits _ (List.mem_flatMap.2 ⟨_, ht, List.mem_singleton_self _⟩)
  · refine hleast u hu x later fun t ht => ?_
    obtain ⟨memo, after, hrest, hgives, hlater⟩ := hx t ht
    exact hgives.again (steady_accepts x t) hrest hlater
  · refine h.apart.imp_of_mem fun {m m'} hm hm' hapart memo => ⟨?_, ?_⟩
    · exact gives_compatible_false (hwritten m hm) (hwritten m' hm') hapart memo
    · exact gives_compatible_false (hwritten m' hm') (hwritten m hm) (fun h => hapart h.symm) memo

/-- The union of regular types is a least upper bound of them, and there is one in every state. -/
theorem Ty.unionOf_leastBound (ctx : Context) (hregular : ∀ t ∈ types, t.Regular) :
    ∃ members,
      (∀ memo, Gives (fun n => Ty.unionOf n types) ctx memo (unionOfMembers members) memo) ∧
        Ty.LeastBound ctx types members := by
  have hheight (t : Ty) (ht : t ∈ types.flatMap Ty.flattened) :
      t.height ≤ heightOfTys (types.flatMap Ty.flattened) :=
    heightOfTys_le.1 (Nat.le_refl _) t ht
  generalize heightOfTys (types.flatMap Ty.flattened) = bound at hheight
  obtain ⟨members, hmembers, hjoined⟩ : ∃ members,
      ((types.flatMap Ty.flattened).foldlM
        (joinMember (Ty.compatibleWith (Expr.typeOf (bound + bound)) (bound + bound))) []).Says ctx
          members ∧ Ty.Joined ctx members ([] ++ types.flatMap Ty.flattened) :=
    Ty.joined_nil.foldlM (Regular.of_flattened hregular)
      fun s hs t ht => Nat.add_le_add (hheight s hs) (hheight t ht)
  refine ⟨members, fun memo => ⟨bound + bound, ?_⟩, hjoined.leastBound hregular⟩
  unfold Ty.unionOf Ty.unionWith
  dsimp only
  rw [foldlM_joinType]
  exact Says.bind (f := fun members => pure (unionOfMembers members)) hmembers says_pure memo

end LeastBound

namespace MixedLists

def context : Context :=
  { lexicon := Program.lexicon ⟨.block ⟨0⟩ []⟩ }

/-- Lists of truth values, a union of such lists with texts, and the table type `⟦x•⊤⊥⟧`. -/
def types : List Ty :=
  [.list .boolean, .union [.list .boolean, .text none],
    .table [binderOf 1 "x" (some .boolean) none]]

theorem mixed_lists_bounded :
    (∀ t ∈ types, t.Regular) ∧ ∃ members,
      (∀ memo, Gives (fun n => Ty.unionOf n types) context memo (unionOfMembers members) memo) ∧
        Ty.LeastBound context types members :=
  ⟨by decide, Ty.unionOf_leastBound context (by decide)⟩

end MixedLists

end Stepwise
