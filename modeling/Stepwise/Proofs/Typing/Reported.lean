import Stepwise.Proofs.Call.Reports
import Stepwise.Proofs.Typing.Enough
import Stepwise.Proofs.Typing.Nested
import Stepwise.Proofs.Typing.Repeatable

/-!
# What analysis comes to

Analysis asks every expression that it comes to for its own conflicts and puts the answers together,
so all of them are among what it finds (`reports_analyze`).  Each expression is asked in a memo that
analysis has come to by then, and what is known only grows.
-/

namespace Stepwise

open Query

/-! ## What is found -/

/-- Between two memos the expression has been asked for its conflicts, and these are among what has
been found. -/
def Reported (budget : Nat) (ctx : Context) (memo after : Memo) (found : List Conflict)
    (e : Expr) : Prop :=
  ∃ mid own last, memo.Grows mid ∧ e.conflicts budget ctx mid = some (own, last) ∧
    last.Grows after ∧ own ⊆ found

/-- The query asks all these expressions for their conflicts, and finds them. -/
structure Query.Reports (budget : Nat) (ctx : Context) (q : Query (List Conflict))
    (es : List Expr) : Prop where
  settles : q.Settles q
  reported : ∀ {memo after found}, q ctx memo = some (found, after) →
    ∀ e ∈ es, Reported budget ctx memo after found e

section Laws

variable {budget : Nat} {ctx : Context} {q r : Query (List Conflict)} {es fs : List Expr}

/-- Any query finds what no expression is asked for. -/
theorem reports_nil (hq : q.Settles q) : Reports budget ctx q [] :=
  ⟨hq, fun _ _ he => nomatch he⟩

theorem reports_pure (found : List Conflict) : Reports budget ctx (pure found) [] :=
  reports_nil (settles_pure found)

theorem reports_own (e : Expr) : Reports budget ctx (e.conflicts budget) [e] := by
  refine ⟨settles_conflicts (Nat.le_refl budget) e, fun {memo after found} h x hx => ?_⟩
  obtain rfl := List.mem_singleton.1 hx
  exact ⟨memo, found, after, .refl memo, h, .refl after, List.Subset.refl found⟩

theorem Query.Reports.andThen (hq : Reports budget ctx q es) (hr : Reports budget ctx r fs) :
    Reports budget ctx (q.andThen r) (es ++ fs) := by
  refine ⟨hq.settles.andThen hr.settles, fun {memo after found} h e he => ?_⟩
  obtain ⟨first, mid, others, hfirst, hothers, rfl⟩ := append_eq_some.1 h
  rcases List.mem_append.1 he with he | he
  · obtain ⟨start, own, last, hstart, hown, hlast, hsub⟩ := hq.reported hfirst e he
    exact ⟨start, own, last, hstart, hown, hlast.trans (hr.settles.grows hothers),
      List.subset_append_of_subset_left _ hsub⟩
  · obtain ⟨start, own, last, hstart, hown, hlast, hsub⟩ := hr.reported hothers e he
    exact ⟨start, own, last, (hq.settles.grows hfirst).trans hstart, hown, hlast,
      List.subset_append_of_subset_right _ hsub⟩

end Laws

theorem analysisClosed_reports (budget : Nat) (ctx : Context) (es : List Expr) :
    AnalysisClosed es fun q asked => Reports budget ctx (q budget) asked where
  found := reports_pure
  own e _ := reports_own e
  andThen hfirst hsecond := hfirst.andThen hsecond
  inQueryOf _ hquery := reports_nil (settles_inQueryOf (Nat.le_refl budget) hquery.settles _)

/-- Analysis asks all expressions that it comes to for their conflicts, and finds them. -/
theorem reports_analyze (budget : Nat) (ctx : Context) (e : Expr) :
    Reports budget ctx (e.analyze budget) e.analysed :=
  (analysisClosed_reports budget ctx e.nested).expr (List.Subset.refl _)

/-! ## Checked programs -/

/-- A program without conflicts has been analysed, and all conflicts of the expressions that
analysis has come to are minor. -/
theorem Program.reported_of_check {program : Program} {ctx : Context} {memo after : Memo}
    (h : Gives (fun n => program.check n) ctx memo (.ok ()) after) :
    ∃ budget, ∀ e ∈ program.root.analysed, ∃ mid own last, memo.Grows mid ∧
      e.conflicts budget ctx mid = some (own, last) ∧ last.Grows after ∧
        ∀ c ∈ own, c.isMinor = true := by
  obtain ⟨budget, h⟩ := h
  obtain ⟨found, mid, hfound, hverdict⟩ := bind_eq_some.1 h
  obtain ⟨hok, rfl⟩ := pure_eq_some.1 hverdict
  have hminor : found.all (·.isMinor) = true := by
    by_contra hmajor
    rw [verdict, if_neg hmajor] at hok
    cases hok
  refine ⟨budget, fun e he => ?_⟩
  obtain ⟨start, own, last, hstart, hown, hlast, hsub⟩ :=
    (reports_analyze budget ctx program.root).reported hfound e he
  exact ⟨start, own, last, hstart, hown, hlast, fun c hc => List.all_eq_true.1 hminor c (hsub hc)⟩

end Stepwise
