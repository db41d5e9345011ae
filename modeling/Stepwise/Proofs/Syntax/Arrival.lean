import Stepwise.Proofs.Syntax.Replacement

/-!
# What is offered arrives

The walk of a tree enters the arguments of a structure type, and replacing leaves a structure type
as it is.  A node is *sealed* if it stands in such an argument.  Replacing a sealed node changes
nothing (`outline_replace_of_sealed`); any other node gives way to what is offered for it, and
searching the tree for an identity that only the target could have had is then searching what is
offered (`find?_replace_of_not_sealed`).
-/

namespace Stepwise

/-- The identity that an outline shows of a node. -/
def Own.id? : Own → Option NodeId
  | .boolean id _ | .number id .. | .text id | .list id | .conditional id | .call id | .delete id
  | .insert id | .reference id | .access id | .binary id _ | .unary id _ | .function id | .struct id
  | .block id | .statement id _ | .unparsable id | .binder id _ | .name id | .typeVariable id
  | .typeInput id => some id
  | .token t => some t.id
  | .language l => some l.id
  | _ => none

namespace Node

theorem id?_own (n : Node) : n.own.id? = n.id? := by
  cases n with
  | expr e => cases e <;> rfl
  | ty t => cases t <;> rfl
  | _ => rfl

/-! ## Identities -/

section

variable {edit : Edit} {n : Node} {id : NodeId}

/-- The outline of a tree shows the identities in it. -/
theorem identities_eq_outline (n : Node) :
    n.identities = n.outline.filterMap fun entry => entry.own.id? := by
  rw [identities, outline, List.filterMap_map]
  exact List.filterMap_congr fun m _ => (id?_own m).symm

theorem identities_replace (h : (n.replace edit).outline = n.outline) :
    (n.replace edit).identities = n.identities := by
  rw [identities_eq_outline, h, ← identities_eq_outline]

theorem id?_of_rebuilds {after : Node} (h : Rebuilds edit n after) : after.id? = n.id? := by
  rw [← id?_own, h.own, id?_own]

theorem identities_subset {m : Node} (h : m ∈ n.descendants) : m.identities ⊆ n.identities := by
  intro id hid
  obtain ⟨k, hk, hid⟩ := List.mem_filterMap.1 hid
  exact List.mem_filterMap.2 ⟨k, descendants_trans h hk, hid⟩

theorem mem_identities {m : Node} (hm : m ∈ n.descendants) (hid : m.id? = some id) :
    id ∈ n.identities :=
  List.mem_filterMap.2 ⟨m, hm, hid⟩

theorem mem_identities_of_child {c : Node} (hc : c ∈ n.children) (hid : id ∈ c.identities) :
    id ∈ n.identities :=
  identities_subset (mem_descendants_of_mem_children hc (self_mem_descendants c)) hid

/-- Beneath a node its own identity does not come again. -/
theorem not_mem_identities_child {c : Node} (hdistinct : n.Distinct) (hid : n.id? = some id)
    (hc : c ∈ n.children) : id ∉ c.identities := by
  intro hmem
  rw [Distinct, identities_eq, hid] at hdistinct
  exact (List.nodup_cons.1 hdistinct).1 (List.mem_flatMap.2 ⟨c, hc, hmem⟩)

/-- If all that has an identity is one child, the other children do not have it. -/
theorem not_mem_identities_siblings {c : Node} {before after : List Node}
    (hdistinct : n.Distinct) (hchildren : n.children = before ++ c :: after)
    (honly : id ∈ n.identities → id ∈ c.identities) :
    (∀ d ∈ before, id ∉ d.identities) ∧ ∀ d ∈ after, id ∉ d.identities := by
  have hpairs := (distinct_children hdistinct).2
  rw [hchildren, List.pairwise_append, List.pairwise_cons] at hpairs
  obtain ⟨-, ⟨hright, -⟩, hleft⟩ := hpairs
  have hchild (d : Node) (hd : d ∈ n.children) (hid : id ∈ d.identities) : id ∈ c.identities :=
    honly (mem_identities_of_child hd hid)
  constructor
  · intro d hd hid
    exact hleft d hd c (List.mem_cons_self ..) hid (hchild d (by simp [hchildren, hd]) hid)
  · intro d hd hid
    exact hright d hd (hchild d (by simp [hchildren, hd]) hid) hid

/-! ## Searching -/

/-- A tree is searched from its root to the trees beneath the root, one after the other. -/
theorem find?_eq (n : Node) (id : NodeId) :
    n.find? id = if n.id? = some id then some n else n.children.findSome? (·.find? id) := by
  rw [find?, descendants_eq, List.find?_cons, List.find?_flatMap]
  by_cases hid : n.id? = some id
  · simp [hid]
  · rw [if_neg hid, show (n.id? == some id) = false by simpa using hid]
    rfl

theorem find?_eq_none_iff : n.find? id = none ↔ id ∉ n.identities := by
  rw [find?, List.find?_eq_none]
  constructor
  · intro h hmem
    obtain ⟨m, hm, hid⟩ := List.mem_filterMap.1 hmem
    exact h m hm (by simpa using hid)
  · intro h m hm hid
    exact h (mem_identities hm (by simpa using hid))

end

/-! ## Sealed nodes -/

/-- A node that stands in an argument of a structure type. -/
def Sealed (root n : Node) : Prop :=
  ∃ type ∈ root.descendants, type.isStructType = true ∧
    ∃ argument ∈ type.children, n ∈ argument.descendants

section

variable {edit : Edit} {n target new : Node} {id : NodeId}

theorem Sealed.of_child {c : Node} (hc : c ∈ n.children) (h : Sealed c target) :
    Sealed n target := by
  obtain ⟨type, htype, hs, hargument⟩ := h
  exact ⟨type, mem_descendants_of_mem_children hc htype, hs, hargument⟩

/-- Below a structure type everything is sealed. -/
theorem sealed_of_isStructType {c : Node} (hs : n.isStructType = true) (hc : c ∈ n.children)
    (hmem : target ∈ c.descendants) : Sealed n target :=
  ⟨n, self_mem_descendants n, hs, c, hc, hmem⟩

/-- What is sealed is sealed by the node itself or within a child. -/
theorem Sealed.cases (h : Sealed n target) :
    n.isStructType = true ∨ ∃ c ∈ n.children, Sealed c target ∧ target ∈ c.descendants := by
  obtain ⟨type, htype, hs, argument, hargument, hmem⟩ := h
  rw [descendants_eq] at htype
  cases List.mem_cons.1 htype with
  | inl hself => exact .inl (hself ▸ hs)
  | inr hbelow =>
    obtain ⟨c, hc, htype⟩ := List.mem_flatMap.1 hbelow
    exact .inr ⟨c, hc, ⟨type, htype, hs, argument, hargument, hmem⟩,
      descendants_trans htype (mem_descendants_of_mem_children hargument hmem)⟩

theorem offer?_of_isStructType (hs : n.isStructType = true) : edit.offer? n = none := by
  cases n with
  | ty t => rfl
  | _ => cases hs

theorem replace_of_isStructType (hs : n.isStructType = true) : n.replace edit = n := by
  cases n with
  | ty t => cases t <;> first | rfl | cases hs
  | _ => cases hs

/-- If something is offered for a node of the tree, it is not spared. -/
theorem not_spared (hmem : target ∈ n.descendants) (ho : edit.offer? target = some new) :
    ¬ Spared edit n := by
  intro h
  rw [h target hmem] at ho
  cases ho

/-- Where the target is beneath a node, nothing is offered for the node itself. -/
theorem offer?_eq_none_of_below {c : Node} (hdistinct : n.Distinct) (hc : c ∈ n.children)
    (hmem : target ∈ c.descendants) (ho : edit.offer? target = some new) :
    edit.offer? n = none := by
  by_contra hn
  obtain ⟨m, hm⟩ := Option.ne_none_iff_exists'.1 hn
  exact not_mem_identities_child hdistinct (id?_of_offer? hm) hc
    (mem_identities hmem (id?_of_offer? ho))

/-- An edit of a sealed node leaves the outline as it is. -/
theorem outline_replace_of_sealed (hdistinct : n.Distinct) (hsealed : Sealed n target)
    (ho : edit.offer? target = some new) : (n.replace edit).outline = n.outline := by
  induction n using Node.induction with
  | h n ih =>
    cases hsealed.cases with
    | inl hs => rw [replace_of_isStructType hs]
    | inr hbelow =>
      obtain ⟨c, hc, hsealed, hmem⟩ := hbelow
      cases replaced edit n with
      | offered hn hr =>
        rw [offer?_eq_none_of_below hdistinct hc hmem ho] at hn
        cases hn
      | kept hs hr => rw [hr]
      | rebuilt hn hr =>
        obtain ⟨before, after, hchildren⟩ := List.append_of_mem hc
        obtain ⟨hbefore, hafter⟩ := spared_siblings hdistinct hchildren (not_spared hmem ho)
        have hkept := ih c hc ((distinct_children hdistinct).1 c hc) hsealed
        refine outline_replace_of_children hr ?_
        rw [hchildren, List.forall_mem_append, List.forall_mem_cons]
        exact ⟨fun d hd => outline_replace_of_spared (hbefore d hd), hkept,
          fun d hd => outline_replace_of_spared (hafter d hd)⟩

/-! ## What is offered arrives -/

/-- A search of spared trees for an identity that none of them has. -/
theorem findSome?_replace_of_spared {ns : List Node} (hspared : ∀ n ∈ ns, Spared edit n)
    (hid : ∀ n ∈ ns, id ∉ n.identities) :
    (ns.map (replace edit)).findSome? (·.find? id) = none := by
  rw [List.findSome?_map, List.findSome?_eq_none_iff]
  intro n hn
  rw [Function.comp_apply, find?_eq_none_iff,
    identities_replace (outline_replace_of_spared (hspared n hn))]
  exact hid n hn

/-- A search of a rebuilt node comes to one child, if neither the node nor the other children have
the identity, and the edit spares the other children. -/
theorem find?_of_rebuilds {c : Node} {before after : List Node}
    (hr : Rebuilds edit n (n.replace edit)) (hchildren : n.children = before ++ c :: after)
    (hspared : (∀ d ∈ before, Spared edit d) ∧ ∀ d ∈ after, Spared edit d)
    (hself : n.id? ≠ some id)
    (hothers : (∀ d ∈ before, id ∉ d.identities) ∧ ∀ d ∈ after, id ∉ d.identities) :
    (n.replace edit).find? id = (c.replace edit).find? id := by
  rw [find?_eq, id?_of_rebuilds hr, if_neg hself, hr.children, hchildren, List.map_append,
    List.findSome?_append, findSome?_replace_of_spared hspared.1 hothers.1, Option.none_or,
    List.map_cons, List.findSome?_cons, findSome?_replace_of_spared hspared.2 hothers.2]
  cases (c.replace edit).find? id <;> rfl

/-- Where the target is not sealed, an identity that only the target or a node beneath it could have
had is found in what is offered, or not at all. -/
theorem find?_replace_of_not_sealed (hdistinct : n.Distinct) (hmem : target ∈ n.descendants)
    (ho : edit.offer? target = some new) (hopen : ¬ Sealed n target)
    (hid : id ∈ n.identities → id ∈ target.identities) :
    (n.replace edit).find? id = new.find? id := by
  induction n using Node.induction with
  | h n ih =>
    rw [descendants_eq] at hmem
    cases List.mem_cons.1 hmem with
    | inl hself =>
      subst hself
      cases replaced edit target with
      | offered hn hr => rw [hr, Option.some.inj (hn.symm.trans ho)]
      | kept hs hr =>
        rw [offer?_of_isStructType hs] at ho
        cases ho
      | rebuilt hn hr =>
        rw [hn] at ho
        cases ho
    | inr hbelow =>
      obtain ⟨c, hc, hmem⟩ := List.mem_flatMap.1 hbelow
      cases replaced edit n with
      | offered hn hr =>
        rw [offer?_eq_none_of_below hdistinct hc hmem ho] at hn
        cases hn
      | kept hs hr => exact absurd (sealed_of_isStructType hs hc hmem) hopen
      | rebuilt hn hr =>
        obtain ⟨before, after, hchildren⟩ := List.append_of_mem hc
        -- All that has the identity is the child that the target is in.
        have honly : id ∈ n.identities → id ∈ c.identities := fun h =>
          identities_subset hmem (hid h)
        have hself : n.id? ≠ some id := fun h =>
          not_mem_identities_child hdistinct h hc
            (honly (mem_identities (self_mem_descendants n) h))
        have hfound : (c.replace edit).find? id = new.find? id :=
          ih c hc ((distinct_children hdistinct).1 c hc) hmem (fun h => hopen (h.of_child hc))
            fun h => hid (mem_identities_of_child hc h)
        rw [← hfound]
        exact find?_of_rebuilds hr hchildren
          (spared_siblings hdistinct hchildren (not_spared hmem ho)) hself
          (not_mem_identities_siblings hdistinct hchildren honly)

end

/-- Let the nodes of a tree have distinct identities, and let what an edit offers for one of them
have an identity that is not in the tree.  The replacement is found in the edited tree if and only
if the target is not sealed.  The target is no longer found if and only if, besides, its identity
does not come again in the replacement.  If the target is sealed, the outline stays as it is. -/
theorem replacement_found_iff (root : Node) (edit : Edit) {target new : Node} {newId : NodeId}
    (hdistinct : root.Distinct) (hmem : target ∈ root.descendants)
    (htarget : target.id? = some edit.target) (hfit : edit.replacement.fit? target = some new)
    (hnew : new.id? = some newId) (hfresh : newId ∉ root.identities) :
    ((root.replace edit).find? newId = some new ↔ ¬ Sealed root target) ∧
      ((root.replace edit).find? edit.target = none ↔
        ¬ Sealed root target ∧ edit.target ∉ new.identities) ∧
        (Sealed root target → (root.replace edit).outline = root.outline) := by
  have ho : edit.offer? target = some new := by rw [Edit.offer?, if_pos htarget, hfit]
  have hkept (hsealed : Sealed root target) : (root.replace edit).identities = root.identities :=
    identities_replace (outline_replace_of_sealed hdistinct hsealed ho)
  refine ⟨⟨fun hfound hsealed => ?_, fun hopen => ?_⟩, ⟨fun hgone => ?_, fun h => ?_⟩,
    fun hsealed => outline_replace_of_sealed hdistinct hsealed ho⟩
  · have hnone : (root.replace edit).find? newId = none := by
      rw [find?_eq_none_iff, hkept hsealed]
      exact hfresh
    rw [hnone] at hfound
    cases hfound
  · rw [find?_replace_of_not_sealed hdistinct hmem ho hopen fun h => absurd h hfresh, find?_eq,
      if_pos hnew]
  · have hopen : ¬ Sealed root target := by
      intro hsealed
      rw [find?_eq_none_iff, hkept hsealed] at hgone
      exact hgone (mem_identities hmem htarget)
    rw [find?_replace_of_not_sealed hdistinct hmem ho hopen fun _ =>
      mem_identities (self_mem_descendants target) htarget, find?_eq_none_iff] at hgone
    exact ⟨hopen, hgone⟩
  · obtain ⟨hopen, hgone⟩ := h
    rw [find?_replace_of_not_sealed hdistinct hmem ho hopen fun _ =>
      mem_identities (self_mem_descendants target) htarget, find?_eq_none_iff]
    exact hgone

namespace Argument

/-- The declaration of an input of truth type. -/
def truth (id : Nat) (name : Name) : Binder :=
  ⟨⟨id⟩, [name], some .boolean, none, false⟩

/-- A name of one token. -/
def named (id : Nat) (text : String) : Name :=
  ⟨⟨id⟩, ⟨⟨id + 1⟩, text, .name⟩, none⟩

/-- The structure `S` of a type `T`. -/
def box : StructDef :=
  ⟨⟨1⟩, [named 2 "S"], [⟨⟨4⟩, named 5 "T"⟩], [], none⟩

/-- The program `•S⸨T⸩, x: S⸨ƒ(a•?) ?⸩`. -/
def root : Node :=
  .expr (.block ⟨0⟩ [.struct box, .bind ⟨⟨7⟩, [named 8 "x"],
    some (.struct box [.function [] [truth 10 (named 11 "a")] .boolean]), none, false⟩])

/-- The order to put `y` in the place of the name `x`. -/
def rename : Edit :=
  ⟨⟨8⟩, .name (named 13 "y")⟩

/-- The order to put an input `b` in the place of the input `a`. -/
def exchange : Edit :=
  ⟨⟨10⟩, .binder (truth 15 (named 16 "b"))⟩

/-- The name `y` is found, and so `x` is not sealed. -/
theorem replacement_found_iff_rename :
    root.Distinct ∧ (root.replace rename).find? ⟨13⟩ = some (.name (named 13 "y")) ∧
      ¬ Sealed root (.name (named 8 "x")) ∧ (root.replace rename).find? ⟨8⟩ = none := by
  have hdistinct : root.Distinct := by
    rw [Distinct]
    decide +kernel
  have hmem : .name (named 8 "x") ∈ root.descendants :=
    (mem_of_find?_eq_some (rfl : root.find? ⟨8⟩ = _)).1
  obtain ⟨hfound, hgone, -⟩ :=
    replacement_found_iff root rename hdistinct hmem rfl rfl rfl (by decide +kernel)
  have hopen : ¬ Sealed root (.name (named 8 "x")) := hfound.1 rfl
  exact ⟨hdistinct, rfl, hopen, hgone.2 ⟨hopen, by decide +kernel⟩⟩

/-- It is not so that every node of a tree can be replaced: the input `a` stands in an argument of
the structure type that `x` is declared with, and there it stays. -/
theorem replacement_not_found :
    ¬ ∀ (root : Node) (edit : Edit) (target new : Node) (newId : NodeId),
      root.Distinct → target ∈ root.descendants → target.id? = some edit.target →
        edit.replacement.fit? target = some new → new.id? = some newId →
          newId ∉ root.identities → edit.target ∉ new.identities →
            ((root.replace edit).find? newId).isSome = true ∧
              (root.replace edit).find? edit.target = none := by
  intro h
  have hdistinct : root.Distinct := by
    rw [Distinct]
    decide +kernel
  have hmem : .binder (truth 10 (named 11 "a")) ∈ root.descendants :=
    (mem_of_find?_eq_some (rfl : root.find? ⟨10⟩ = _)).1
  have hfound := (h root exchange _ _ ⟨15⟩ hdistinct hmem rfl rfl rfl (by decide +kernel)
    (by decide +kernel)).1
  revert hfound
  decide +kernel

end Argument

end Node

end Stepwise
