import Stepwise.Proofs.Sample
import Stepwise.Proofs.Typing.Forms
import Stepwise.Proofs.Typing.Termination

/-!
# What earlier queries change

Types could be inferred without memo and guard (`Expr.directType`), were it not for expressions
whose types depend on themselves, where this never ends.  Of all others a type query answers this
direct type, whatever is remembered and under way, as long as what is remembered of such expressions
is true (`follows_grounded`).  What type queries remember of them is true.

Of an expression whose type depends on itself a query may answer one type or another.  It remembers
the type of the expression by which it came to the circle, with a hole where it came back; asked
first for another expression of the circle, it leaves the hole elsewhere.  In `entangledValues` this
decides whether a value is a time or a product of a length and a time.  But nothing changes for a
query that does not come to such a remembered expression: it makes the same steps in both memos
(`follows_avoiding`).

`types_after_queries` puts the two together for any sequence of queries in one context.
-/

namespace Stepwise

open Query Query.Compositional

/-! ## Direct types -/

/-- The type of an expression, without memo and guard. -/
def Expr.directType : Nat → Ask
  | 0, _ => .outOfBudget
  | budget + 1, e => e.inferWith (Expr.directType budget) budget

/-- Inferring the type of an expression directly ends, with this type. -/
def Expr.HasDirectType (ctx : Context) (e : Expr) (ty : Ty) : Prop :=
  ∃ budget after, e.directType budget ctx .empty = some (ty, after)

/-- Inferring the type of an expression directly ends: its type does not depend on itself. -/
def Expr.Grounded (ctx : Context) (e : Expr) : Prop :=
  ∃ ty, e.HasDirectType ctx ty

/-! ## Queries that follow others -/

/-- Whatever the first query answers, the second answers in all memos that are like the one that the
first has found, and the memos that they leave are alike again. -/
structure Query.Follows {α : Type} (ctx : Context) (Like : Memo → Memo → Prop) (q q' : Query α)
    (P : α → Prop) : Prop where
  follows : ∀ {memo memo' a after}, Like memo memo' → q ctx memo = some (a, after) →
    P a ∧ ∃ after', q' ctx memo' = some (a, after') ∧ Like after after'

section Follows

variable {ctx : Context} {Like : Memo → Memo → Prop} {es : List Expr} {ask ask' : Ask}

/-- A query that has no answer is followed by any. -/
theorem follows_outOfBudget {α : Type} (q : Query α) (P : α → Prop) :
    Follows ctx Like .outOfBudget q P :=
  ⟨nofun⟩

/-- Following is a property that sequences inherit, of pairs of queries. -/
def following (ctx : Context) (Like : Memo → Memo → Prop) : Compositional Bool ctx where
  Holds q P := Follows ctx Like (q false) (q true) P
  holds_pure h := by
    refine ⟨fun hlike heq => ?_⟩
    obtain ⟨rfl, rfl⟩ := pure_eq_some.1 heq
    exact ⟨h, _, rfl, hlike⟩
  holds_read := by
    refine ⟨fun hlike heq => ?_⟩
    obtain ⟨rfl, rfl⟩ := Prod.mk.inj (Option.some.inj heq)
    exact ⟨rfl, _, rfl, hlike⟩
  holds_bind hq hf := by
    refine ⟨fun hlike heq => ?_⟩
    obtain ⟨a, mid, ha, hb⟩ := bind_eq_some.1 heq
    obtain ⟨hP, mid', ha', hmid⟩ := hq.follows hlike ha
    obtain ⟨hQ, after', hb', hafter⟩ := (hf a hP).follows hmid hb
    exact ⟨hQ, after', bind_eq_some.2 ⟨a, mid', ha', hb'⟩, hafter⟩

variable (hctx : ctx.Within es)
  (hask : ∀ e, e.nested ⊆ es → Follows ctx Like (ask e) (ask' e) fun ty => ty.nested ⊆ es)

include hctx hask

theorem follows_acceptsWith {size size' : Nat} (hle : size ≤ size') {a b : Ty}
    (ha : a.nested ⊆ es) (hb : b.nested ⊆ es) :
    Follows ctx Like (a.acceptsWith ask size b) (a.acceptsWith ask' size' b) fun _ => True := by
  induction size generalizing size' a b with
  | zero => exact follows_outOfBudget _ _
  | succ size ih =>
    obtain ⟨more, rfl⟩ : ∃ more, size' = more + 1 := ⟨size' - 1, by omega⟩
    have haccepts (a b : Ty) (ha : a.nested ⊆ es) (hb : b.nested ⊆ es) :=
      @ih more (by omega) a b ha hb
    exact @holds_acceptsStep Bool ctx (following ctx Like) es (fun i => cond i ask' ask) hctx hask
      (fun i => cond i (Ty.acceptsWith ask' more) (Ty.acceptsWith ask size)) haccepts a b ha hb

/-- The rules for types follow each other if the ways to ask do. -/
theorem follows_infer {size size' : Nat} (hle : size ≤ size') {e : Expr} (he : e.nested ⊆ es) :
    Follows ctx Like (e.inferWith ask size) (e.inferWith ask' size') fun ty => ty.nested ⊆ es :=
  @holds_infer Bool ctx (following ctx Like) es (fun i => cond i ask' ask)
    (fun i => cond i size' size) hctx hask
    (fun _ _ ha hb => follows_acceptsWith hctx hask hle ha hb) e he

omit hask in
/-- Inferring a type directly gives the same type in any memo, which stays as it is, and with any
larger budget. -/
theorem follows_directType (memo : Memo) {budget budget' : Nat} (hle : budget ≤ budget') {e : Expr}
    (he : e.nested ⊆ es) :
    Follows ctx (fun _ m => m = memo) (e.directType budget) (e.directType budget')
      fun ty => ty.nested ⊆ es := by
  induction budget generalizing budget' e with
  | zero => exact follows_outOfBudget _ _
  | succ budget ih =>
    obtain ⟨more, rfl⟩ : ∃ more, budget' = more + 1 := ⟨budget' - 1, by omega⟩
    have hmore : budget ≤ more := by omega
    exact follows_infer hctx (fun x hx => ih hmore hx) hmore he

end Follows

section Direct

variable {ctx : Context} {es : List Expr} {e : Expr} {ty : Ty} {budget : Nat} {memo after : Memo}
  (hctx : ctx.Within es) (he : e.nested ⊆ es)

include hctx he

theorem directType_more {budget' : Nat} (hle : budget ≤ budget') (memo' : Memo)
    (h : e.directType budget ctx memo = some (ty, after)) :
    e.directType budget' ctx memo' = some (ty, memo') := by
  obtain ⟨-, after', h', rfl⟩ := (follows_directType hctx memo' hle he).follows rfl h
  exact h'

theorem hasDirectType_of_eq_some (h : e.directType budget ctx memo = some (ty, after)) :
    e.HasDirectType ctx ty :=
  ⟨budget, .empty, directType_more hctx he (Nat.le_refl budget) .empty h⟩

theorem Expr.HasDirectType.nested (h : e.HasDirectType ctx ty) : ty.nested ⊆ es := by
  obtain ⟨budget, after, h⟩ := h
  exact ((follows_directType hctx .empty (Nat.le_refl budget) he).follows rfl h).1

/-- There is one direct type. -/
theorem Expr.HasDirectType.unique {ty' : Ty} (h : e.HasDirectType ctx ty)
    (h' : e.HasDirectType ctx ty') : ty' = ty := by
  obtain ⟨budget, after, h⟩ := h
  obtain ⟨budget', after', h'⟩ := h'
  have hlast := directType_more hctx he (Nat.le_max_left budget budget') .empty h
  rw [directType_more hctx he (Nat.le_max_right budget budget') .empty h'] at hlast
  exact (Prod.mk.inj (Option.some.inj hlast)).1

end Direct

/-! ## Memos that are true -/

section Truth

variable {ctx : Context} {es : List Expr} {memo mid after inner : Memo}

/-- What is remembered of expressions whose types do not depend on themselves is true. -/
def Memo.Truthful (ctx : Context) (es : List Expr) (memo : Memo) : Prop :=
  ∀ e : Expr, e.nested ⊆ es → ∀ ty found, e.HasDirectType ctx ty →
    memo.types.find? e.id = some found → found = ty

/-- True memos that differ only in what they know of expressions whose types do not depend on
themselves. -/
structure Memo.Supplements (ctx : Context) (es : List Expr) (memo after : Memo) : Prop where
  visiting : after.visiting = memo.visiting
  truthful : after.Truthful ctx es
  others : ∀ x : Expr, x.nested ⊆ es → ¬ x.Grounded ctx →
    after.types.find? x.id = memo.types.find? x.id

theorem Memo.truthful_empty : Memo.empty.Truthful ctx es :=
  fun _ _ _ _ _ h => nomatch h

theorem Memo.Truthful.supplements (h : memo.Truthful ctx es) : memo.Supplements ctx es memo :=
  ⟨rfl, h, fun _ _ _ => rfl⟩

theorem Memo.Supplements.trans (h : memo.Supplements ctx es mid)
    (h' : mid.Supplements ctx es after) : memo.Supplements ctx es after :=
  ⟨h'.visiting.trans h.visiting, h'.truthful,
    fun x hx hg => (h'.others x hx hg).trans (h.others x hx hg)⟩

theorem Memo.find?_insert_of_ne {types : Assoc NodeId Ty} {id id' : NodeId} (ty : Ty)
    (h : id' ≠ id) : (types.insert id ty).find? id' = types.find? id' := by
  rw [Assoc.find?_insert, beq_false_of_ne h]
  rfl

/-- A query that depends on none under way remembers its answer. -/
theorem Memo.leave_of_visiting {id : NodeId} {outer : List Visit} (ty : Ty)
    (h : inner.visiting = ⟨id, outer.length⟩ :: outer) :
    inner.leave ty = { types := inner.types.insert id ty, visiting := outer } := by
  rw [Memo.leave, h]
  exact if_neg (Nat.lt_irrefl _)

variable (hids : Identified es) {e : Expr} {ty : Ty} (he : e.nested ⊆ es)

include hids he

theorem Expr.eq_of_id_eq {x : Expr} (hx : x.nested ⊆ es) (h : x.id = e.id) : x = e :=
  hids x (hx x.mem_nested_self) e (he e.mem_nested_self) h

/-- Remembering a direct type. -/
theorem Memo.Supplements.leave (hctx : ctx.Within es) (hty : e.HasDirectType ctx ty)
    (h : (memo.enter e.id).Supplements ctx es inner) :
    memo.Supplements ctx es (inner.leave ty) := by
  rw [Memo.leave_of_visiting ty h.visiting]
  refine ⟨rfl, fun x hx ty' found hty' hfound => ?_, fun x hx hg => ?_⟩
  · by_cases hid : x.id = e.id
    · obtain rfl := Expr.eq_of_id_eq hids he hx hid
      rw [Assoc.find?_insert, beq_self_eq_true, if_pos rfl] at hfound
      exact (Option.some.inj hfound) ▸ hty'.unique hctx hx hty
    · rw [Memo.find?_insert_of_ne ty hid] at hfound
      exact h.truthful x hx ty' found hty' hfound
  · have hid : x.id ≠ e.id := fun hid => hg (Expr.eq_of_id_eq hids he hx hid ▸ ⟨ty, hty⟩)
    exact (Memo.find?_insert_of_ne ty hid).trans (h.others x hx hg)

end Truth

/-! ## Expressions whose types do not depend on themselves -/

section Grounded

variable {ctx : Context} {es : List Expr} (hctx : ctx.Within es) (hids : Identified es)

include hctx hids

/-- A type query for an expression with a direct type answers it, if no query for such an expression
is under way that takes as much budget.  By induction on the budget. -/
theorem follows_grounded {budget budget' : Nat} (hle : budget ≤ budget') {memo : Memo}
    (hunder : ∀ x : Expr, x.nested ⊆ es → (∃ r, x.directType budget ctx .empty = some r) →
      ∀ v ∈ memo.visiting, v.id ≠ x.id) {e : Expr} (he : e.nested ⊆ es) :
    Follows ctx (fun _ m => memo.Supplements ctx es m) (e.directType budget) (e.typeOf budget')
      fun ty => ty.nested ⊆ es := by
  induction budget generalizing budget' memo e with
  | zero => exact follows_outOfBudget _ _
  | succ budget ih =>
    obtain ⟨more, rfl⟩ : ∃ more, budget' = more + 1 := ⟨budget' - 1, by omega⟩
    refine ⟨fun {start m ty last} hm h => ?_⟩
    have hty : e.HasDirectType ctx ty := hasDirectType_of_eq_some hctx he h
    refine ⟨((follows_directType hctx m (Nat.le_refl _) he).follows rfl h).1, ?_⟩
    -- What has a direct type with less budget has it with more.
    have hearlier (x : Expr) (hx : x.nested ⊆ es)
        (h : ∃ r, x.directType budget ctx .empty = some r) :
        ∃ r, x.directType (budget + 1) ctx .empty = some r := by
      obtain ⟨⟨ty, after⟩, h⟩ := h
      exact ⟨_, directType_more hctx hx (Nat.le_succ budget) .empty h⟩
    by_cases hless : ∃ r, e.directType budget ctx .empty = some r
    · have hfollows := ih (by omega : budget ≤ more + 1)
        (fun x hx hdirect => hunder x hx (hearlier x hx hdirect)) he
      obtain ⟨⟨ty', after⟩, hless⟩ := hless
      obtain rfl := hty.unique hctx he (hasDirectType_of_eq_some hctx he hless)
      exact (hfollows.follows hm hless).2
    cases hf : m.types.find? e.id with
    | some found =>
      obtain rfl := hm.truthful e he ty found hty hf
      exact ⟨m, guarded_eq_some.2 (.inl ⟨hf, rfl⟩), hm⟩
    | none =>
      have hdirect := directType_more hctx he (Nat.le_refl _) .empty h
      have hd : Memo.depthIn? e.id m.visiting = none := by
        rw [Memo.depthIn?_eq_none_iff, hm.visiting]
        exact hunder e he ⟨_, hdirect⟩
      -- The query itself has no direct type with the budget of the queries that it asks for.
      have hinner : ∀ x : Expr, x.nested ⊆ es → (∃ r, x.directType budget ctx .empty = some r) →
          ∀ v ∈ (m.enter e.id).visiting, v.id ≠ x.id := by
        intro x hx hdirect v hv
        rcases List.mem_cons.1 hv with rfl | hv
        · exact fun hid => hless (Expr.eq_of_id_eq hids he hx hid.symm ▸ hdirect)
        · exact hunder x hx (hearlier x hx hdirect) v (hm.visiting ▸ hv)
      have hentered : (m.enter e.id).Supplements ctx es (m.enter e.id) :=
        Memo.Truthful.supplements hm.truthful
      have hmore : budget ≤ more := by omega
      obtain ⟨-, inner, hinfer, hsupplements⟩ :=
        (follows_infer hctx (fun x hx => ih hmore hinner hx) hmore he).follows hentered h
      exact ⟨inner.leave ty, guarded_eq_some.2 (.inr (.inr ⟨inner, hf, hd, hinfer, rfl⟩)),
        hm.trans (hsupplements.leave hids he hctx hty)⟩

end Grounded

/-! ## Queries that avoid what is remembered -/

/-- Type queries that have no answer if they come to one of the nodes. -/
def Expr.typeOfAvoiding (avoid : List NodeId) : Nat → Ask
  | 0, _ => .outOfBudget
  | budget + 1, e =>
    if e.id ∈ avoid then .outOfBudget
    else .guarded e.id (e.inferWith (Expr.typeOfAvoiding avoid budget) budget)

section Avoiding

variable {avoid : List NodeId}

/-- A query that avoids nodes answers as any other, if it has an answer. -/
theorem settles_typeOfAvoiding {budget budget' : Nat} (hle : budget ≤ budget') (e : Expr) :
    (e.typeOfAvoiding avoid budget).Settles (e.typeOf budget') := by
  induction budget generalizing budget' e with
  | zero => exact settles_outOfBudget _
  | succ budget ih =>
    obtain ⟨more, rfl⟩ : ∃ more, budget' = more + 1 := ⟨budget' - 1, by omega⟩
    have hmore : budget ≤ more := by omega
    unfold Expr.typeOfAvoiding
    split
    · exact settles_outOfBudget _
    · exact settles_guarded e.id (settles_infer (fun inner => ih hmore inner) hmore e)

/-- Nothing to avoid. -/
theorem typeOfAvoiding_nil (budget : Nat) (e : Expr) :
    e.typeOfAvoiding [] budget = e.typeOf budget := by
  induction budget generalizing e with
  | zero => rfl
  | succ budget ih =>
    have hask : Expr.typeOfAvoiding [] budget = Expr.typeOf budget := funext ih
    rw [Expr.typeOfAvoiding, Expr.typeOf, if_neg List.not_mem_nil, hask]

/-- True memos in which queries that avoid the nodes answer the same: all that is under way depends
on itself, and of what else does they know the same, apart from the nodes. -/
structure Memo.Alike (ctx : Context) (es : List Expr) (avoid : List NodeId) (memo memo' : Memo) :
    Prop where
  visiting : memo'.visiting = memo.visiting
  underWay : ∀ x : Expr, x.nested ⊆ es → x.Grounded ctx → ∀ v ∈ memo'.visiting, v.id ≠ x.id
  truthful : memo.Truthful ctx es
  truthful' : memo'.Truthful ctx es
  types : ∀ x : Expr, x.nested ⊆ es → ∀ ty, memo.types.find? x.id = some ty → ty.nested ⊆ es
  others : ∀ x : Expr, x.nested ⊆ es → ¬ x.Grounded ctx → x.id ∉ avoid →
    memo'.types.find? x.id = memo.types.find? x.id

variable {ctx : Context} {es : List Expr} {memo memo' after after' inner inner' : Memo} {e : Expr}
  {ty : Ty}

/-- Both memos may learn direct types. -/
theorem Memo.Alike.supplements (hctx : ctx.Within es) (h : memo.Alike ctx es avoid memo')
    (hm : memo.Supplements ctx es after) (hm' : memo'.Supplements ctx es after') :
    after.Alike ctx es avoid after' := by
  refine ⟨?_, fun x hx hg => ?_, hm.truthful, hm'.truthful, fun x hx ty hty => ?_,
    fun x hx hg ha => ?_⟩
  · rw [hm.visiting, hm'.visiting, h.visiting]
  · rw [hm'.visiting]
    exact h.underWay x hx hg
  · by_cases hg : x.Grounded ctx
    · obtain ⟨direct, hdirect⟩ := hg
      rw [hm.truthful x hx direct ty hdirect hty]
      exact hdirect.nested hctx hx
    · exact h.types x hx ty ((hm.others x hx hg).symm.trans hty)
  · rw [hm.others x hx hg, hm'.others x hx hg, h.others x hx hg ha]

theorem Memo.Alike.observe (h : memo.Alike ctx es avoid memo') (depth : Nat) :
    Memo.Alike ctx es avoid { memo with visiting := Memo.observe depth memo.visiting }
      { memo' with visiting := Memo.observe depth memo'.visiting } := by
  refine ⟨congrArg (Memo.observe depth) h.visiting, fun x hx hg v hv => ?_, h.truthful, h.truthful',
    h.types, h.others⟩
  obtain ⟨w, hw, hid⟩ := (Memo.grows_observe memo' depth).exists_visit hv
  exact hid ▸ h.underWay x hx hg w hw

variable (hids : Identified es) (he : e.nested ⊆ es) (hdepends : ¬ e.Grounded ctx)

include hids he hdepends

/-- A query begins for an expression whose type depends on itself. -/
theorem Memo.Alike.enter (h : memo.Alike ctx es avoid memo') :
    (memo.enter e.id).Alike ctx es avoid (memo'.enter e.id) := by
  refine ⟨?_, fun x hx hg v hv => ?_, h.truthful, h.truthful', h.types, h.others⟩
  · rw [Memo.enter, Memo.enter, h.visiting]
  · rcases List.mem_cons.1 hv with rfl | hv
    · exact fun hid => hdepends (Expr.eq_of_id_eq hids he hx hid.symm ▸ hg)
    · exact h.underWay x hx hg v hv

/-- A query ends for an expression whose type depends on itself. -/
theorem Memo.Alike.leave (h : inner.Alike ctx es avoid inner')
    (hgrows : (memo'.enter e.id).Grows inner') (hty : ty.nested ⊆ es) :
    (inner.leave ty).Alike ctx es avoid (inner'.leave ty) := by
  obtain ⟨v, outer, ⟨hv, -⟩, -, hvisiting'⟩ := List.forall₂_cons_left_iff.1 hgrows.visits
  have hvisiting : inner.visiting = v :: outer := h.visiting.symm.trans hvisiting'
  have houter (w : Visit) (hw : w ∈ outer) : w ∈ inner'.visiting :=
    hvisiting' ▸ List.mem_cons_of_mem v hw
  simp only at hv
  rw [Memo.leave, Memo.leave, hvisiting, hvisiting']
  dsimp only
  split
  · refine ⟨rfl, fun x hx hg w hw => ?_, h.truthful, h.truthful', h.types, h.others⟩
    obtain ⟨u, hu, hid⟩ := (Memo.grows_observe ⟨inner'.types, outer⟩ v.dependsOn).exists_visit hw
    exact hid ▸ h.underWay x hx hg u (houter u hu)
  · -- The expression has no direct type, so the new entry is none that has to be true.
    have hother (x : Expr) (hx : x.nested ⊆ es) (hg : x.Grounded ctx) : x.id ≠ e.id :=
      fun hid => hdepends (Expr.eq_of_id_eq hids he hx hid ▸ hg)
    rw [hv]
    refine ⟨rfl, fun x hx hg w hw => h.underWay x hx hg w (houter w hw),
      fun x hx ty' found hty' hfound => ?_, fun x hx ty' found hty' hfound => ?_,
      fun x hx found hfound => ?_, fun x hx hg ha => ?_⟩
    · rw [Memo.find?_insert_of_ne ty (hother x hx ⟨ty', hty'⟩)] at hfound
      exact h.truthful x hx ty' found hty' hfound
    · rw [Memo.find?_insert_of_ne ty (hother x hx ⟨ty', hty'⟩)] at hfound
      exact h.truthful' x hx ty' found hty' hfound
    · rw [Assoc.find?_insert] at hfound
      split at hfound
      · exact Option.some.inj hfound ▸ hty
      · exact h.types x hx found hfound
    · rw [Assoc.find?_insert, Assoc.find?_insert, h.others x hx hg ha]

end Avoiding

/-! ## Queries in different memos -/

section Memos

variable {ctx : Context} {es : List Expr} {avoid : List NodeId} (hctx : ctx.Within es)

include hctx

/-- There is a budget for all direct types. -/
theorem exists_directType_budget (exprs : List Expr) :
    ∃ enough, ∀ x ∈ exprs, x.nested ⊆ es → x.Grounded ctx →
      ∃ r, x.directType enough ctx .empty = some r := by
  induction exprs with
  | nil => exact ⟨0, fun _ h => nomatch h⟩
  | cons e rest ih =>
    obtain ⟨enough, h⟩ := ih
    have hrest (more : Nat) (x : Expr) (hx : x ∈ rest) (hes : x.nested ⊆ es)
        (hg : x.Grounded ctx) : ∃ r, x.directType (max enough more) ctx .empty = some r := by
      obtain ⟨⟨ty, after⟩, hty⟩ := h x hx hes hg
      exact ⟨_, directType_more hctx hes (Nat.le_max_left enough more) .empty hty⟩
    by_cases hg : e.Grounded ctx
    · obtain ⟨ty, budget, after, hty⟩ := hg
      refine ⟨max enough budget, fun x hx hes hg => ?_⟩
      rcases List.mem_cons.1 hx with rfl | hx
      · exact ⟨_, directType_more hctx hes (Nat.le_max_right enough budget) .empty hty⟩
      · exact hrest budget x hx hes hg
    · refine ⟨max enough 0, fun x hx hes hx' => ?_⟩
      rcases List.mem_cons.1 hx with rfl | hx
      · exact (hg hx').elim
      · exact hrest 0 x hx hes hx'

variable (hids : Identified es) {enough : Nat}
  (henough : ∀ x ∈ es, x.nested ⊆ es → x.Grounded ctx →
    ∃ r, x.directType enough ctx .empty = some r)

include hids henough

/-- The answer for an expression whose type does not depend on itself, where only queries for others
are under way. -/
theorem typeOf_of_grounded {memo : Memo} (hmemo : memo.Truthful ctx es)
    (hunder : ∀ x : Expr, x.nested ⊆ es → x.Grounded ctx → ∀ v ∈ memo.visiting, v.id ≠ x.id)
    {e : Expr} (he : e.nested ⊆ es) {ty : Ty} (hty : e.HasDirectType ctx ty) {budget : Nat}
    (hle : enough ≤ budget) :
    ty.nested ⊆ es ∧
      ∃ after, e.typeOf budget ctx memo = some (ty, after) ∧ memo.Supplements ctx es after := by
  obtain ⟨⟨ty', after⟩, h⟩ := henough e (he e.mem_nested_self) he ⟨ty, hty⟩
  obtain rfl := hty.unique hctx he (hasDirectType_of_eq_some hctx he h)
  refine (follows_grounded hctx hids hle (fun x hx hdirect => ?_) he).follows hmemo.supplements h
  obtain ⟨⟨ty, after⟩, hdirect⟩ := hdirect
  exact hunder x hx ⟨ty, hasDirectType_of_eq_some hctx hx hdirect⟩

/-- A query that avoids the nodes is answered the same in a memo that is like the one it has found.
By induction on the budget of the query. -/
theorem follows_avoiding {budget budget' : Nat} (hle : budget + enough ≤ budget') {e : Expr}
    (he : e.nested ⊆ es) :
    Follows ctx (Memo.Alike ctx es avoid) (e.typeOfAvoiding avoid budget) (e.typeOf budget')
      fun ty => ty.nested ⊆ es := by
  induction budget generalizing budget' e with
  | zero => exact follows_outOfBudget _ _
  | succ budget ih =>
    obtain ⟨more, rfl⟩ : ∃ more, budget' = more + 1 := ⟨budget' - 1, by omega⟩
    refine ⟨fun {memo memo' a after} hlike h => ?_⟩
    by_cases hg : e.Grounded ctx
    · obtain ⟨ty, hty⟩ := hg
      have hunder : ∀ x : Expr, x.nested ⊆ es → x.Grounded ctx → ∀ v ∈ memo.visiting, v.id ≠ x.id :=
        hlike.visiting ▸ hlike.underWay
      have hmore : enough ≤ more + 1 := by omega
      obtain ⟨hnested, last, hfound, hsupplements⟩ :=
        typeOf_of_grounded hctx hids henough hlike.truthful hunder he hty hmore
      obtain ⟨-, last', hfound', hsupplements'⟩ :=
        typeOf_of_grounded hctx hids henough hlike.truthful' hlike.underWay he hty hmore
      have hsame := (settles_typeOfAvoiding (by omega : budget + 1 ≤ more + 1) e).same h
      obtain ⟨rfl, rfl⟩ := Prod.mk.inj (Option.some.inj (hfound.symm.trans hsame))
      exact ⟨hnested, last', hfound', hlike.supplements hctx hsupplements hsupplements'⟩
    unfold Expr.typeOfAvoiding at h
    split at h
    · exact nomatch h
    rename_i havoid
    have hfind := hlike.others e he hg havoid
    rcases guarded_eq_some.1 h with ⟨hf, rfl⟩ | ⟨depth, hf, hd, rfl, rfl⟩ | ⟨inner, hf, hd, hi, rfl⟩
    · exact ⟨hlike.types e he a hf, memo', guarded_eq_some.2 (.inl ⟨hfind.trans hf, rfl⟩), hlike⟩
    · refine ⟨by simp [Ty.nested], _, guarded_eq_some.2 (.inr (.inl ⟨depth, hfind.trans hf,
        hlike.visiting ▸ hd, rfl, rfl⟩)), hlike.observe depth⟩
    · have hmore : budget + enough ≤ more := by omega
      obtain ⟨hnested, inner', hi', hinner⟩ := (follows_infer hctx (fun x hx => ih hmore hx)
        (by omega : budget ≤ more) he).follows (hlike.enter hids he hg) hi
      have hgrows := ((steady_infer e).settles (Nat.le_refl more)).grows hi'
      exact ⟨hnested, _, guarded_eq_some.2 (.inr (.inr ⟨inner', hfind.trans hf, hlike.visiting ▸ hd,
        hi', rfl⟩)), hinner.leave hids he hg hgrows hnested⟩

end Memos

/-! ## Sequences of queries -/

/-- What is remembered when the types of these expressions have been asked for in a fresh context,
the last one first, and these were the answers. -/
inductive Memo.Asked (ctx : Context) : List (Expr × Ty) → Memo → Prop where
  | fresh : Asked ctx [] .empty
  | query {queries : List (Expr × Ty)} {memo after : Memo} {e : Expr} {ty : Ty}
      (h : Asked ctx queries memo) (hgives : Gives (fun n => e.typeOf n) ctx memo ty after) :
      Asked ctx ((e, ty) :: queries) after

/-- A query for the type of the expression answers this type. -/
def Expr.GivesType (ctx : Context) (memo : Memo) (e : Expr) (ty : Ty) : Prop :=
  ∃ after, Gives (fun n => e.typeOf n) ctx memo ty after

/-- There is one answer. -/
theorem Expr.GivesType.iff {ctx : Context} {memo : Memo} {e : Expr} {ty : Ty}
    (h : e.GivesType ctx memo ty) (ty' : Ty) : e.GivesType ctx memo ty' ↔ ty' = ty := by
  obtain ⟨after, h⟩ := h
  constructor
  · rintro ⟨after', h'⟩
    exact (h.unique (steady_typeOf e) h').1
  · rintro rfl
    exact ⟨after, h⟩

/-- Between queries nothing is under way, and all answers are remembered. -/
theorem Memo.Asked.remembers {ctx : Context} {queries : List (Expr × Ty)} {memo : Memo}
    (h : memo.Asked ctx queries) :
    memo.AtRest ∧ ∀ q ∈ queries, memo.types.find? q.1.id = some q.2 := by
  induction h with
  | fresh => exact ⟨rfl, fun _ h => nomatch h⟩
  | @query queries memo after e ty _ hgives ih =>
    obtain ⟨hrest, hknown⟩ := ih
    have hgrows := hgives.grows (steady_typeOf e)
    refine ⟨hgrows.atRest hrest, fun q hq => ?_⟩
    rcases List.mem_cons.1 hq with rfl | hq
    · obtain ⟨budget, h⟩ := (gives_succ (steady_typeOf e)).1 hgives
      exact find?_of_guarded ((steady_infer e).settles (Nat.le_refl budget)).grows hrest h
    · exact hgrows.keeps q.1.id q.2 (hknown q hq)

section Sequences

variable {ctx : Context} {es : List Expr} {queries : List (Expr × Ty)} {memo : Memo} {e : Expr}
  (hctx : ctx.Within es) (hids : Identified es) (hasked : memo.Asked ctx queries)
  (hes : ∀ q ∈ queries, q.1.nested ⊆ es)

include hctx hids hasked hes

/-- Between queries a memo is like itself. -/
theorem Memo.Asked.alike : memo.Alike ctx es [] memo := by
  obtain ⟨enough, henough⟩ := exists_directType_budget hctx es
  induction hasked with
  | fresh =>
    exact ⟨rfl, fun _ _ _ _ h => (nomatch h), truthful_empty, truthful_empty,
      fun _ _ _ h => (nomatch h), fun _ _ _ _ => rfl⟩
  | @query queries memo after x ty _ hgives ih =>
    obtain ⟨hx, hes⟩ := List.forall_mem_cons.1 hes
    obtain ⟨budget, hgives⟩ := hgives
    have hmore := (settles_typeOf (Nat.le_add_right budget enough) x).same hgives
    simp only at hgives
    rw [← typeOfAvoiding_nil] at hgives
    obtain ⟨-, after', hgives', hafter⟩ := (follows_avoiding hctx hids henough
      (Nat.le_refl (budget + enough)) hx).follows (ih hes) hgives
    obtain ⟨-, rfl⟩ := Prod.mk.inj (Option.some.inj (hmore.symm.trans hgives'))
    exact hafter

/-- After any queries the type of an expression that has a direct type is this type. -/
theorem givesType_of_hasDirectType (he : e.nested ⊆ es) {ty : Ty} (hty : e.HasDirectType ctx ty) :
    e.GivesType ctx memo ty := by
  obtain ⟨enough, henough⟩ := exists_directType_budget hctx es
  have halike := Memo.Asked.alike hctx hids hasked hes
  obtain ⟨-, after, hfound, -⟩ := typeOf_of_grounded hctx hids henough halike.truthful
    halike.underWay he hty (Nat.le_refl enough)
  exact ⟨after, enough, hfound⟩

end Sequences

/-- What queries change.  Whatever has been asked for before, the answer for an expression whose
type can be inferred directly is this type, and an expression that has been asked for before keeps
its answer.  For all other expressions, the answers after two sequences of queries, one of which may
be empty, are the same if the query comes to no expression without a direct type that is not
remembered alike after both. -/
theorem types_after_queries {ctx : Context} {es : List Expr} {queries : List (Expr × Ty)}
    {memo : Memo} (hctx : ctx.Within es) (hids : Identified es) (hasked : memo.Asked ctx queries)
    (hes : ∀ q ∈ queries, q.1.nested ⊆ es) :
    (∀ e : Expr, e.nested ⊆ es → e.Grounded ctx → ∀ ty,
      (e.GivesType ctx memo ty ↔ e.HasDirectType ctx ty) ∧
      (e.GivesType ctx .empty ty ↔ e.HasDirectType ctx ty)) ∧
    (∀ q ∈ queries, ∀ ty, q.1.GivesType ctx memo ty ↔ ty = q.2) ∧
    ∀ (others : List (Expr × Ty)) (start : Memo), start.Asked ctx others →
      (∀ q ∈ others, q.1.nested ⊆ es) →
      ∀ avoid : List NodeId,
        (∀ x : Expr, x.nested ⊆ es → ¬ x.Grounded ctx →
          memo.types.find? x.id ≠ start.types.find? x.id → x.id ∈ avoid) →
        ∀ e : Expr, e.nested ⊆ es → Ends (fun n => e.typeOfAvoiding avoid n) ctx start →
          ∃ answer, ∀ ty, (e.GivesType ctx memo ty ↔ ty = answer) ∧
            (e.GivesType ctx start ty ↔ ty = answer) := by
  obtain ⟨hrest, hknown⟩ := hasked.remembers
  refine ⟨fun e he ⟨direct, hdirect⟩ ty => ?_, fun q hq ty => ?_, ?_⟩
  · have hafter := givesType_of_hasDirectType hctx hids hasked hes he hdirect
    have hfresh := givesType_of_hasDirectType hctx hids .fresh (fun _ h => nomatch h) he hdirect
    have hunique : e.HasDirectType ctx ty ↔ ty = direct :=
      ⟨fun h => hdirect.unique hctx he h, fun h => h ▸ hdirect⟩
    exact ⟨(hafter.iff ty).trans hunique.symm, (hfresh.iff ty).trans hunique.symm⟩
  · have hgives : q.1.GivesType ctx memo q.2 := ⟨memo, gives_typeOf.2 (.inl ⟨hknown q hq, rfl⟩)⟩
    exact hgives.iff ty
  · intro others start hstart hes' avoid havoid e he ⟨answer, last, budget, h⟩
    obtain ⟨enough, henough⟩ := exists_directType_budget hctx es
    have halike := hasked.alike hctx hids hes
    have halike' := hstart.alike hctx hids hes'
    have hlike : start.Alike ctx es avoid memo := by
      refine ⟨hrest.trans hstart.remembers.1.symm, halike.underWay, halike'.truthful,
        halike.truthful, halike'.types, fun x hx hg hx' => ?_⟩
      by_contra hne
      exact hx' (havoid x hx hg hne)
    obtain ⟨-, after, hfound, -⟩ := (follows_avoiding hctx hids henough
      (Nat.le_refl (budget + enough)) he).follows hlike h
    have hafter : e.GivesType ctx memo answer := ⟨after, budget + enough, hfound⟩
    have hbefore : e.GivesType ctx start answer :=
      ⟨last, budget, (settles_typeOfAvoiding (Nat.le_refl budget) e).same h⟩
    exact ⟨answer, fun ty => ⟨hafter.iff ty, hbefore.iff ty⟩⟩

namespace Entangled

/-- A length. -/
def metre : MeasureUnit := .named "m"

/-- A time. -/
def second : MeasureUnit := .named "s"

/-- A name and its value, which is an amount times the value of another name. -/
def scaled (name : String) (id : Nat) (amount : Float) (unit : MeasureUnit) (other : String) :
    Binder :=
  bindingOf 0 name
    (binaryOf id (numberOf (id + 1) amount unit) .multiply (referenceOf (id + 2) other))

/-- The program `x: 2m · y, y: 3s · x`. -/
def program : Program :=
  ⟨.block ⟨0⟩ [.bind (scaled "x" 2 2 metre "y"), .bind (scaled "y" 7 3 second "x")]⟩

def context : Context := { lexicon := program.lexicon }

/-- A reference to each of the two names. -/
def x : Expr := referenceOf 11 "x"

@[inherit_doc x]
def y : Expr := referenceOf 12 "y"

def expressions : List Expr :=
  nestedInExprs [x, y] ++ program.lexicon.nested

theorem context_within : context.Within expressions := by
  intro name d hd
  have hfind : program.lexicon.find? name = some d := by simpa [context, Context.find?] using hd
  exact List.Subset.trans (Lexicon.nested_find hfind) (List.subset_append_right _ _)

theorem identified : Identified expressions :=
  identified_of_nodup (by decide +kernel)

/-- The type of the product of a quantity and a number. -/
def productType (unit : MeasureUnit) (factor : Ty) : Ty :=
  .number (.derived .product (.number (.fixed unit)) (some factor) none)

/-- `y` is a time, unless `x` has been asked for first: then it is the product of a length and a
time. -/
theorem depends_on_queries :
    Identified expressions ∧ context.Within expressions ∧ [x, y] ⊆ expressions ∧
      ∃ first fresh later memo, Memo.Asked context [(y, later), (x, first)] memo ∧
        y.GivesType context .empty fresh ∧ ¬ y.GivesType context .empty later ∧
        fresh.concreteUnit? = some second ∧ later.concreteUnit? = metre.product second := by
  let first := productType metre .anyNumber
  let fresh := productType second .anyNumber
  let later := productType second first
  let known : List (NodeId × Ty) :=
    [(⟨3⟩, .number (.fixed metre)), (⟨8⟩, .number (.fixed second)), (⟨2⟩, first), (⟨11⟩, first)]
  have hfirst : Gives (fun n => x.typeOf n) context .empty first { types := ⟨known⟩ } :=
    ⟨10, rfl⟩
  obtain ⟨memo, hlater⟩ : y.GivesType context { types := ⟨known⟩ } later := ⟨_, 10, rfl⟩
  have hfresh : y.GivesType context .empty fresh := ⟨_, 10, rfl⟩
  have htime : fresh.concreteUnit? = some second := by decide +kernel
  have hproduct : later.concreteUnit? = metre.product second := by decide +kernel
  have hne : metre.product second ≠ some second := by decide +kernel
  refine ⟨identified, context_within, List.subset_append_left [x, y] _, first, fresh, later, memo,
    .query (.query .fresh hfirst) hlater, hfresh, fun h => ?_, htime, hproduct⟩
  rw [(hfresh.iff later).1 h] at hproduct
  exact hne (hproduct.symm.trans htime)

/-- The amount by which `y` is scaled. -/
def amount : Expr := numberOf 8 3 second

/-- Asking for the amount first does not change what `y` is. -/
theorem types_after_queries_amount :
    ∃ memo, memo.Asked context [(amount, .number (.fixed second))] ∧
      (∀ ty, amount.GivesType context memo ty ↔ amount.HasDirectType context ty) ∧
      (∀ ty, amount.GivesType context memo ty ↔ ty = .number (.fixed second)) ∧
      y.GivesType context memo (productType second .anyNumber) := by
  let known : Memo := { types := ⟨[(⟨8⟩, .number (.fixed second))]⟩ }
  have hasked : known.Asked context [(amount, .number (.fixed second))] := .query .fresh ⟨10, rfl⟩
  have hamount : amount.nested ⊆ expressions :=
    List.cons_subset.2 ⟨List.mem_of_getElem? (i := 6) rfl, List.nil_subset _⟩
  have hdirect : amount.HasDirectType context (.number (.fixed second)) := ⟨10, _, rfl⟩
  have hy : y.nested ⊆ expressions :=
    List.cons_subset.2 ⟨List.mem_of_getElem? (i := 1) rfl, List.nil_subset _⟩
  have hfresh : y.GivesType context .empty (productType second .anyNumber) := ⟨_, 10, rfl⟩
  obtain ⟨hgrounded, hkept, hothers⟩ := types_after_queries context_within identified hasked
    (by simpa using hamount)
  -- Only the amount is remembered, and its type does not depend on itself.
  have halike (e : Expr) (he : e.nested ⊆ expressions) (hg : ¬ e.Grounded context)
      (hne : known.types.find? e.id ≠ Memo.empty.types.find? e.id) : e.id ∈ ([] : List NodeId) := by
    have hid : e.id ≠ amount.id :=
      fun hid => hg (Expr.eq_of_id_eq identified hamount he hid ▸ ⟨_, hdirect⟩)
    exact (hne (@Memo.find?_insert_of_ne .empty _ _ _ hid)).elim
  obtain ⟨answer, hanswer⟩ := hothers [] .empty .fresh (by simp) [] halike y hy ⟨_, _, 10, rfl⟩
  obtain ⟨hafter, hbefore⟩ := hanswer (productType second .anyNumber)
  exact ⟨known, hasked, fun ty => (hgrounded amount hamount ⟨_, hdirect⟩ ty).1,
    hkept (amount, .number (.fixed second)) (by simp), hafter.2 (hbefore.1 hfresh)⟩

end Entangled

end Stepwise
