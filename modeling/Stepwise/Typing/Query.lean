import Stepwise.Lexicon

/-!
# Type queries

Inferring a type may ask for the types of other expressions, and programs may refer to themselves.
A query therefore runs against a `Memo`, which remembers the types already found and the queries
under way.  A query for an expression whose type is just being inferred does not start over; it
answers that the type depends on itself.

Such an answer is provisional.  Every query under way keeps track of the outermost query whose
provisional answer it has used, and its own answer is remembered only if that is the query itself
or none.  A query that used the provisional answer of an enclosing one passes the dependency on to
the query that asked for it.

Queries also have a budget, which bounds how deeply they are nested.  A query that has used it up
has no answer at all.
-/

namespace Stepwise

/-- A query under way. -/
structure Visit where
  id : NodeId
  /-- The depth of the outermost query whose provisional answer was used: the depth of this query
  when there was none. -/
  dependsOn : Nat

/-- What is known while types are inferred in one context. -/
structure Memo where
  /-- The types found. -/
  types : Assoc NodeId Ty := .empty
  /-- The queries under way, innermost first. -/
  visiting : List Visit := []

namespace Memo

/-- Nothing found and nothing under way. -/
def empty : Memo := {}

instance : Inhabited Memo := ⟨empty⟩

/-- The depth of the query under way for `id`, counted from the outermost. -/
def depthIn? (id : NodeId) : List Visit → Option Nat
  | [] => none
  | v :: outer => if v.id = id then some outer.length else depthIn? id outer

/-- Notes that the innermost query has used the provisional answer of the query at `depth`. -/
def observe (depth : Nat) : List Visit → List Visit
  | [] => []
  | v :: outer => { v with dependsOn := min v.dependsOn depth } :: outer

/-- Starts a query for `id`. -/
def enter (memo : Memo) (id : NodeId) : Memo :=
  { memo with visiting := ⟨id, memo.visiting.length⟩ :: memo.visiting }

/-- Ends the innermost query with the answer `ty`. -/
def leave (memo : Memo) (ty : Ty) : Memo :=
  match memo.visiting with
  | [] => memo
  | v :: outer =>
    if v.dependsOn < outer.length then { memo with visiting := observe v.dependsOn outer }
    else { types := memo.types.insert v.id ty, visiting := outer }

end Memo

/-- A computation that may ask for types.  It reads the context, changes the memo, and has no result
if the budget does not suffice. -/
abbrev Query := ReaderT Context (StateT Memo Option)

namespace Query

/-- Answers a query for the type of the node `id`: from the memo if its type is known, as a cycle if
it is under way, and else by `infer`. -/
def guarded (id : NodeId) (infer : Query Ty) : Query Ty := fun ctx memo =>
  match memo.types.find? id with
  | some ty => some (ty, memo)
  | none =>
    match Memo.depthIn? id memo.visiting with
    | some depth =>
      some (.unknown .cycle (some id), { memo with visiting := Memo.observe depth memo.visiting })
    | none =>
      match infer ctx (memo.enter id) with
      | some (ty, after) => some (ty, after.leave ty)
      | none => none

/-- Runs a query where `names` come before all other names.  It starts with an empty memo, since
types found outside need not hold inside, and what it finds is forgotten. -/
def inScope {α : Type} (names : List (String × Definition)) (query : Query α) : Query α :=
  fun ctx memo =>
    match query (ctx.push names) .empty with
    | some (result, _) => some (result, memo)
    | none => none

/-- Stops because the budget is used up. -/
def outOfBudget {α : Type} : Query α :=
  fun _ _ => none

end Query

end Stepwise
