import Stepwise.Proofs.Call.Matching
import Mathlib.Data.List.FinRange

/-!
# Every argument at most once

An argument of a call is told apart by its place, not by what it looks like: a call can give the
same expression twice.  So the pool that matching goes through is taken here as a list of places,
with what stands at them.  `Picks.uses` says which places one input uses, and the induction over the
inputs follows it (`exists_spread`).  Over the places of a call it says that no argument is used
twice, that those without a name are used in order, and that none is left once an input collects
everything (`Call.arguments_spread`).

Nothing is asked of the inputs, so lists that are reported as ill-formed are matched in this way
too.
-/

namespace Stepwise

section Places

variable {ι : Type} {give : ι → Expr} {input : Binder} {places : List ι}

/-- The places at which an argument without a name stands. -/
def positionals (give : ι → Expr) (places : List ι) : List ι :=
  places.filter fun i => isPositional (give i)

theorem positionals_append (give : ι → Expr) (front back : List ι) :
    positionals give (front ++ back) = positionals give front ++ positionals give back :=
  List.filter_append ..

/-! ## One input -/

/-- What an input takes and leaves, in terms of places: those it uses and those that are left. -/
structure Uses (input : Binder) (give : ι → Expr) (places : List ι) (taken : Taken)
    (rest : List Expr) (used left : List ι) : Prop where
  arguments : taken.arguments = used.map give
  pool : rest = left.map give
  perm : (used ++ left).Perm places
  /-- The places without a name are used from the front. -/
  inOrder : positionals give used ++ positionals give left = positionals give places
  /-- An optional input uses no place with another name. -/
  named : input.isRequired = false → input.rest = false →
    ∀ i ∈ used, isPositional (give i) = false → isNamedFor input (give i) = true
  collects : input.rest = true → left = []

theorem Picks.uses {taken : Taken} {rest : List Expr}
    (h : Picks input (places.map give) taken rest) :
    ∃ used left, Uses input give places taken rest used left := by
  generalize hpool : places.map give = pool at h
  cases h with
  | next hq e pool =>
    obtain ⟨i, left, rfl, rfl, rfl⟩ := List.map_eq_cons_iff.1 hpool
    refine ⟨[i], left, ?_⟩
    exact
      { arguments := rfl
        pool := rfl
        perm := .refl _
        inOrder := (positionals_append give [i] left).symm
        named := fun h => by simp [h] at hq
        collects := fun h => by simp [Binder.isRequired_eq_false_of_rest h] at hq }
  | missing hq =>
    obtain rfl := List.map_eq_nil_iff.1 hpool
    exact ⟨[], [], ⟨rfl, rfl, .refl _, rfl, fun _ _ => List.forall_mem_nil _, fun _ => rfl⟩⟩
  | all hr =>
    refine ⟨places, [], ?_⟩
    exact
      { arguments := hpool.symm
        pool := rfl
        perm := .of_eq (List.append_nil places)
        inOrder := List.append_nil _
        named := fun _ h => by simp [h] at hr
        collects := fun _ => rfl }
  | @named hq hr before after e hbefore hnamed =>
    obtain ⟨front, back, rfl, rfl, hback⟩ := List.map_eq_append_iff.1 hpool
    obtain ⟨i, behind, rfl, rfl, rfl⟩ := List.map_eq_cons_iff.1 hback
    have hi : isPositional (give i) = false := isPositional_eq_false_of_isNamedFor hnamed
    refine ⟨[i], front ++ behind, ?_⟩
    exact
      { arguments := rfl
        pool := List.map_append.symm
        perm := by simpa using List.perm_middle.symm
        inOrder := by simp [positionals, hi]
        named := fun _ _ j hj _ => List.mem_singleton.1 hj ▸ hnamed
        collects := fun h => by simp [h] at hr }
  | @first hq hr e pool hnone hpositional =>
    obtain ⟨i, left, rfl, rfl, rfl⟩ := List.map_eq_cons_iff.1 hpool
    refine ⟨[i], left, ?_⟩
    exact
      { arguments := rfl
        pool := rfl
        perm := .refl _
        inOrder := (positionals_append give [i] left).symm
        named := fun _ _ j hj hname => by
          rw [List.mem_singleton.1 hj, hpositional] at hname
          cases hname
        collects := fun h => by simp [h] at hr }
  | nothing hq hr hnone hhead =>
    refine ⟨[], places, ?_⟩
    exact
      { arguments := rfl
        pool := hpool.symm
        perm := .refl _
        inOrder := rfl
        named := fun _ _ => List.forall_mem_nil _
        collects := fun h => by simp [h] at hr }

/-! ## All inputs -/

/-- How the places of a pool are spread over the inputs, one list of places for each input, and
which are left. -/
structure Spread (inputs : List Binder) (give : ι → Expr) (places : List ι)
    (uses : List (List ι)) (left : List ι) : Prop where
  /-- The places that an input uses feed its slot. -/
  fed : fed inputs (places.map give) = uses.map (List.map give)
  perm : (uses.flatten ++ left).Perm places
  inOrder : positionals give uses.flatten ++ positionals give left = positionals give places
  named : ∀ (k : Nat) (input : Binder) (used : List ι), inputs[k]? = some input →
    uses[k]? = some used → input.isRequired = false → input.rest = false →
      ∀ i ∈ used, isPositional (give i) = false → isNamedFor input (give i) = true
  collects : (∃ input ∈ inputs, input.rest = true) → left = []

theorem exists_spread (inputs : List Binder) (give : ι → Expr) (places : List ι) :
    ∃ uses left, Spread inputs give places uses left := by
  induction inputs generalizing places with
  | nil =>
    refine ⟨[], places, ?_⟩
    exact
      { fed := rfl
        perm := .refl _
        inOrder := rfl
        named := nofun
        collects := fun ⟨_, hmem, _⟩ => nomatch hmem }
  | cons input inputs ih =>
    obtain ⟨used, between, huses⟩ := (picks_takeFor input (places.map give)).uses
    obtain ⟨uses, left, hspread⟩ := ih between
    refine ⟨used :: uses, left, ?_⟩
    exact
      { fed := by rw [Stepwise.fed, huses.arguments, huses.pool, hspread.fed, List.map_cons]
        perm := by
          rw [List.flatten_cons, List.append_assoc]
          exact (hspread.perm.append_left used).trans huses.perm
        inOrder := by
          rw [List.flatten_cons, positionals_append, List.append_assoc, hspread.inOrder,
            huses.inOrder]
        named := fun k other used' hother hused => by
          cases k with
          | zero =>
            obtain rfl : input = other := Option.some.inj hother
            obtain rfl : used = used' := Option.some.inj hused
            exact huses.named
          | succ k => exact hspread.named k other used' hother hused
        collects := fun ⟨other, hmem, hrest⟩ => by
          rcases List.mem_cons.1 hmem with rfl | hmem
          · -- What the input has collected leaves nothing for the others to leave.
            have hperm := hspread.perm
            rw [huses.collects hrest] at hperm
            exact (List.append_eq_nil_iff.1 hperm.eq_nil).2
          · exact hspread.collects ⟨other, hmem, hrest⟩ }

end Places

/-! ## The arguments of a call -/

/-- How the arguments of a call feed the slots of a plan, where `uses` lists for each input the
places of the arguments that feed its slot. -/
structure SpreadOver (inputs : List Binder) (arguments : List Expr)
    (uses : List (List (Fin arguments.length))) : Prop where
  /-- What a slot does not have from a default is what the arguments that feed it give. -/
  slots : (plan inputs arguments).map Slot.fromArguments =
    uses.map (List.map fun i => argumentValue arguments[i])
  /-- No argument is used twice, be it in two slots or in one. -/
  once : uses.flatten.Nodup
  /-- The arguments without a name are used in the order in which they were written. -/
  inOrder : (uses.flatten.filter fun i => isPositional arguments[i]).Pairwise (· < ·)
  /-- A named argument feeds an optional input only if they have an alias in common. -/
  shares : ∀ (k : Nat) (input : Binder) (used : List (Fin arguments.length)),
    inputs[k]? = some input → uses[k]? = some used → input.isRequired = false →
      input.rest = false → ∀ i ∈ used, ∀ b, namedArgument? arguments[i] = some b →
        ∃ name ∈ b.aliases, name ∈ input.aliases
  /-- If an input collects what is left, every argument is used. -/
  collects : (∃ input ∈ inputs, input.rest = true) → ∀ i, i ∈ uses.flatten

/-- A plan has one slot per input, and the arguments are spread over its slots. -/
theorem Call.arguments_spread (call : Call) (inputs : List Binder) :
    (plan inputs call.inputs).length = inputs.length ∧
      ∃ uses, uses.length = inputs.length ∧ SpreadOver inputs call.inputs uses := by
  let give (i : Fin call.inputs.length) : Expr := call.inputs[i]
  have hpool : (List.finRange call.inputs.length).map give = call.inputs :=
    by simp [give]
  obtain ⟨uses, left, hspread⟩ := exists_spread inputs give (List.finRange call.inputs.length)
  have hslots : (plan inputs call.inputs).map Slot.fromArguments =
      uses.map (List.map fun i => argumentValue (give i)) := by
    have hfed := hspread.fed
    rw [hpool] at hfed
    rw [map_fromArguments_plan, hfed, List.map_map]
    exact List.map_congr_left fun used _ => List.map_map
  refine ⟨length_plan .., uses, ?_, ?_⟩
  · simpa using (congrArg List.length hslots).symm
  · exact
      { slots := hslots
        once := (List.nodup_append.1 (hspread.perm.nodup_iff.2 (List.nodup_finRange _))).1
        inOrder := by
          have hsorted := (List.pairwise_lt_finRange call.inputs.length).filter
            fun i => isPositional (give i)
          rw [← positionals, ← hspread.inOrder] at hsorted
          exact (List.pairwise_append.1 hsorted).1
        shares := fun k input used hinput hused hq hr i hi b hb => by
          have hpositional : isPositional (give i) = false := by
            rw [isPositional, hb, Option.isNone_some]
          have hnamed := hspread.named k input used hinput hused hq hr i hi hpositional
          rw [isNamedFor, hb] at hnamed
          exact Binder.sharesName_iff.1 hnamed
        collects := fun hrest i => by
          have hmem := hspread.perm.mem_iff.2 (List.mem_finRange i)
          rwa [hspread.collects hrest, List.append_nil] at hmem }

end Stepwise
