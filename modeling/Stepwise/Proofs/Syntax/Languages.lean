import Mathlib.Data.List.Nodup
import Stepwise.Call.Inputs

/-!
# Languages that tag several names

A scan of the names of a declaration finds the languages that tag several of them.  At each name it
looks only at the names from there on, and it passes a language by that it has reported before.
That the names of a report are complete nevertheless rests on what has been reported so far
(`Scanned`): if an earlier name had the tag, two names would have it, and the language would have
been reported there (`Scanned.not_isTagged`).

So each language that tags two names or more is reported once, with all names that it tags, and the
reports come in the order in which the languages are first used (`duplicateLanguages_groups`).
-/

namespace Stepwise

/-- Whether a name is tagged with a language. -/
def Name.isTagged (name : Name) (code : String) : Bool :=
  name.languageCode == some code

/-! ## What is to be reported -/

/-- What is reported of a language: all names that it tags. -/
def languageReport (names : List Name) (code : String) : String × List NodeId :=
  (code, taggedWith code names)

/-- The languages to report once some of the names have been seen: those that tag one of the names
seen, and at least two of all names, in the order of their first uses. -/
structure Scanned (names seen : List Name) (codes : List String) : Prop where
  mem_iff : ∀ code, code ∈ codes ↔
    (∃ name ∈ seen, name.isTagged code = true) ∧ 2 ≤ names.countP (·.isTagged code)
  inOrder : codes.Pairwise fun code later =>
    names.findIdx (·.isTagged code) < names.findIdx (·.isTagged later)

section

variable {names seen rest : List Name} {codes : List String} {name : Name} {code : String}

theorem Name.isTagged_iff : name.isTagged code = true ↔ name.languageCode = some code := by
  simp [Name.isTagged]

/-- A name is tagged with one language at most. -/
theorem Name.isTagged_unique {other : String} (h : name.isTagged other = true)
    (hcode : name.isTagged code = true) : other = code :=
  Option.some.inj ((Name.isTagged_iff.1 h).symm.trans (Name.isTagged_iff.1 hcode))

theorem taggedWith_eq (code : String) (names : List Name) :
    taggedWith code names = (names.filter (·.isTagged code)).map Name.id := rfl

theorem length_taggedWith : (taggedWith code names).length = names.countP (·.isTagged code) := by
  rw [taggedWith_eq, List.length_map, List.countP_eq_length_filter]

theorem taggedWith_append_of_not_isTagged (h : ∀ earlier ∈ seen, earlier.isTagged code = false) :
    taggedWith code (seen ++ rest) = taggedWith code rest := by
  rw [taggedWith_eq, List.filter_append, List.filter_eq_nil_iff.2 (by simpa using h)]
  rfl

theorem exists_isTagged_append_singleton : (∃ other ∈ seen ++ [name], other.isTagged code = true) ↔
    (∃ other ∈ seen, other.isTagged code = true) ∨ name.isTagged code = true := by
  simp [or_and_right, exists_or]

namespace Scanned

theorem start (names : List Name) : Scanned names [] [] :=
  ⟨by simp, .nil⟩

/-- Had a name that has been seen the tag of the next one, the language would have been reported. -/
theorem not_isTagged (h : Scanned (seen ++ name :: rest) seen codes)
    (hname : name.isTagged code = true) (hnew : code ∉ codes) :
    ∀ earlier ∈ seen, earlier.isTagged code = false := by
  intro earlier hearlier
  by_contra htagged
  rw [Bool.not_eq_false] at htagged
  have hseen : 0 < seen.countP (·.isTagged code) :=
    List.countP_pos_iff.2 ⟨earlier, hearlier, htagged⟩
  have hrest : 0 < (name :: rest).countP (·.isTagged code) :=
    List.countP_pos_iff.2 ⟨name, List.mem_cons_self .., hname⟩
  refine hnew ((h.mem_iff code).2 ⟨⟨earlier, hearlier, htagged⟩, ?_⟩)
  rw [List.countP_append]
  omega

/-- A name changes nothing if its language has been reported, or tags no other name. -/
theorem skip (h : Scanned names seen codes)
    (hname : ∀ code, name.isTagged code = true →
      code ∈ codes ∨ names.countP (·.isTagged code) < 2) :
    Scanned names (seen ++ [name]) codes where
  mem_iff code := by
    rw [h.mem_iff, exists_isTagged_append_singleton]
    refine ⟨fun ⟨hseen, htwo⟩ => ⟨.inl hseen, htwo⟩, ?_⟩
    rintro ⟨hseen | hlast, htwo⟩
    · exact ⟨hseen, htwo⟩
    · exact (h.mem_iff code).1 ((hname code hlast).resolve_right (by omega))
  inOrder := h.inOrder

/-- The languages reported so far are first used in front of a language that has not been seen. -/
theorem findIdx_lt (h : Scanned (seen ++ name :: rest) seen codes) {earlier : String}
    (hearlier : earlier ∈ codes) (hnot : ∀ earlier ∈ seen, earlier.isTagged code = false) :
    (seen ++ name :: rest).findIdx (·.isTagged earlier) <
      (seen ++ name :: rest).findIdx (·.isTagged code) := by
  have hlt := List.findIdx_lt_length_of_exists ((h.mem_iff earlier).1 hearlier).1
  have hlength : seen.findIdx (·.isTagged code) = seen.length := List.findIdx_eq_length.2 hnot
  rw [List.findIdx_append, List.findIdx_append, if_pos hlt, hlength, if_neg (Nat.lt_irrefl _)]
  omega

/-- A language that tags several names is reported at the first of them. -/
theorem report (h : Scanned (seen ++ name :: rest) seen codes) (hname : name.isTagged code = true)
    (hnot : ∀ earlier ∈ seen, earlier.isTagged code = false)
    (htwo : 2 ≤ (seen ++ name :: rest).countP (·.isTagged code)) :
    Scanned (seen ++ name :: rest) (seen ++ [name]) (codes ++ [code]) where
  mem_iff other := by
    rw [List.mem_append, h.mem_iff, List.mem_singleton, exists_isTagged_append_singleton]
    constructor
    · rintro (⟨hseen, hother⟩ | rfl)
      · exact ⟨.inl hseen, hother⟩
      · exact ⟨.inr hname, htwo⟩
    · rintro ⟨hseen | hlast, hother⟩
      · exact .inl ⟨hseen, hother⟩
      · exact .inr (Name.isTagged_unique hlast hname)
  inOrder := by
    refine List.pairwise_append.2 ⟨h.inOrder, List.pairwise_singleton _ _, ?_⟩
    intro earlier hearlier later hlater
    obtain rfl := List.mem_singleton.1 hlater
    exact h.findIdx_lt hearlier hnot

end Scanned

/-! ## The scan -/

theorem any_languageReport :
    (codes.map (languageReport names)).any (·.1 == code) = true ↔ code ∈ codes := by
  simp [languageReport]

/-- A step of the scan reports what is to be reported at a name, in full. -/
theorem exists_scanned_step (hnames : names = seen ++ name :: rest) (h : Scanned names seen codes) :
    ∃ codes', Scanned names (seen ++ [name]) codes' ∧
      collectDuplicates (codes.map (languageReport names)) (name :: rest) =
        collectDuplicates (codes'.map (languageReport names)) rest := by
  rw [collectDuplicates]
  cases htag : name.languageCode with
  | none => exact ⟨codes, h.skip (by simp [Name.isTagged_iff, htag]), rfl⟩
  | some code =>
    have hname : name.isTagged code = true := Name.isTagged_iff.2 htag
    by_cases hcode : code ∈ codes
    · refine ⟨codes, h.skip fun other hother => .inl ?_, if_pos (any_languageReport.2 hcode)⟩
      rwa [Name.isTagged_unique hother hname]
    · subst hnames
      have hnot := h.not_isTagged hname hcode
      -- The names from here on are all that have the tag.
      have hids : taggedWith code (name :: rest) = taggedWith code (seen ++ name :: rest) :=
        (taggedWith_append_of_not_isTagged hnot).symm
      simp only [any_languageReport, hcode, if_false, hids, length_taggedWith]
      by_cases htwo : 1 < (seen ++ name :: rest).countP (·.isTagged code)
      · refine ⟨codes ++ [code], h.report hname hnot htwo, ?_⟩
        rw [if_pos htwo, List.map_append]
        rfl
      · refine ⟨codes, h.skip fun other hother => .inr ?_, ?_⟩
        · rw [Name.isTagged_unique hother hname]
          omega
        · rw [if_neg htwo]

/-- The scan of the remaining names reports what is to be reported of all names, in full. -/
theorem exists_scanned (hnames : names = seen ++ rest) (h : Scanned names seen codes) :
    ∃ codes', Scanned names names codes' ∧
      collectDuplicates (codes.map (languageReport names)) rest =
        codes'.map (languageReport names) := by
  induction rest generalizing seen codes with
  | nil =>
    rw [List.append_nil] at hnames
    exact ⟨codes, hnames ▸ h, rfl⟩
  | cons name rest ih =>
    obtain ⟨codes', h', hstep⟩ := exists_scanned_step hnames h
    rw [hstep]
    exact ih (by rw [hnames, List.append_cons]) h'

namespace Scanned

theorem nodup (h : Scanned names seen codes) : codes.Nodup := by
  refine h.inOrder.imp fun hlt hsame => ?_
  rw [hsame] at hlt
  exact Nat.lt_irrefl _ hlt

/-- Once all names have been seen, it is those languages that tag two of them. -/
theorem mem_iff_two_le (h : Scanned names names codes) :
    code ∈ codes ↔ 2 ≤ names.countP (·.isTagged code) := by
  rw [h.mem_iff, and_iff_right_iff_imp, ← List.countP_pos_iff]
  exact fun htwo => by omega

end Scanned

end

/-- The scan reports each language that tags at least two of the names once, and no other, in the
order in which the languages are first used.  A report lists the identities of all names with the
tag, in the order of the names. -/
theorem duplicateLanguages_groups (names : List Name) : ∃ codes : List String,
    duplicateLanguages names =
        codes.map (fun code => (code, (names.filter (·.isTagged code)).map Name.id)) ∧
      (∀ code, codes.count code = if 2 ≤ names.countP (·.isTagged code) then 1 else 0) ∧
        codes.Pairwise fun code later =>
          names.findIdx (·.isTagged code) < names.findIdx (·.isTagged later) := by
  obtain ⟨codes, h, hscan⟩ := exists_scanned (List.nil_append names).symm (.start names)
  refine ⟨codes, hscan, fun code => ?_, h.inOrder⟩
  rw [h.nodup.count]
  exact if_congr h.mem_iff_two_le rfl rfl

/-- Two languages are used twice, and the names between are left out. -/
example :
    let name (id : Nat) (code : Option String) : Name :=
      ⟨⟨id⟩, ⟨⟨id + 10⟩, "", .name⟩, code.map fun code => ⟨⟨id + 20⟩, code⟩⟩
    duplicateLanguages
        [name 0 (some "es"), name 1 (some "en"), name 2 none, name 3 (some "en"),
          name 4 (some "de"), name 5 (some "es"), name 6 (some "en")] =
      [("es", [⟨0⟩, ⟨5⟩]), ("en", [⟨1⟩, ⟨3⟩, ⟨6⟩])] := by
  decide

end Stepwise
