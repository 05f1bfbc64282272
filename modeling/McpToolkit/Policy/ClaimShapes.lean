import McpToolkit.Policy.Embed

/-!
# McpToolkit.Policy.ClaimShapes — what the shapes of a claim mean

Audiences come as a text of words or as an array, and several parts of the toolkit bring one shape into the
other.  Here are the facts that such a comparison needs: words have no blanks to trim and are their own only
word, the limits of an array are those of its entries that are not blank, and `enforce_claims` allows exactly
if each of its five checks passes.
-/

namespace McpToolkit.Policy

open List
open Lib.Text (getLast?_trimBy_any head?_trimBy_any infix_of_mem_splitOnP splitWhitespace trim
  trimBy_eq_self utf8Length_append)

theorem trim_trim (text : Text) : trim (trim text) = trim text :=
  trimBy_eq_self (head?_trimBy_any _ _) (getLast?_trimBy_any _ _)

/-! ### Words -/

section Words

variable {value word : Text} {limits : Boundary}

theorem within_of_mem_splitWhitespace (h : word ∈ splitWhitespace value)
    (hlimit : limits.stringWithinBoundaryLimit value = true) : limits.stringWithinBoundaryLimit word = true := by
  obtain ⟨before, after, rfl⟩ := infix_of_mem_splitOnP (mem_filter.mp h).1
  unfold Boundary.stringWithinBoundaryLimit at hlimit ⊢
  rw [decide_eq_true_eq] at hlimit ⊢
  rw [utf8Length_append, utf8Length_append] at hlimit
  omega

end Words

/-! ### Arrays -/

section Arrays

variable {ν : Type} {limits : Boundary}

/-- The strings of an array, trimmed, without the blank ones. -/
def nonBlankStrings (values : List (Claim ν)) : List Text :=
  ((values.filterMap Claim.asStr).map trim).filter fun text => !text.isEmpty

variable {values : List (Claim ν)}

theorem mem_nonBlankStrings {text : Text} :
    text ∈ nonBlankStrings values ↔ text ≠ [] ∧ ∃ entry ∈ values.filterMap Claim.asStr, trim entry = text := by
  rw [nonBlankStrings, mem_filter, and_comm]
  simp

theorem nonBlankStrings_map_string {texts : List Text} (h : ∀ text ∈ texts, trim text = text ∧ text ≠ []) :
    nonBlankStrings (texts.map (Claim.string (ν := ν))) = texts := by
  induction texts with
  | nil => rfl
  | cons text texts ih =>
    obtain ⟨⟨htrim, hne⟩, hrest⟩ := forall_mem_cons.mp h
    have hkeep : (!text.isEmpty) = true := by simp [isEmpty_eq_false_iff.mpr hne]
    have ih := ih hrest
    unfold nonBlankStrings at ih ⊢
    have hstr : (Claim.string text : Claim ν).asStr = some text := rfl
    rw [map_cons, filterMap_cons_some hstr, map_cons, htrim, filter_cons, if_pos hkeep, ih]

theorem trim_of_mem_nonBlankStrings : ∀ text ∈ nonBlankStrings values, trim text = text ∧ text ≠ [] := by
  intro text htext
  obtain ⟨hne, entry, -, rfl⟩ := mem_nonBlankStrings.mp htext
  exact ⟨trim_trim entry, hne⟩

/-- The loop over an array counts and measures the entries that are not blank. -/
theorem audiencesWithinLimits_iff {count : ℕ} : audiencesWithinLimits limits count values = true ↔
      (∀ text ∈ nonBlankStrings values, limits.stringWithinBoundaryLimit text = true) ∧
        (nonBlankStrings values ≠ [] → count + (nonBlankStrings values).length ≤ limits.maxListLength) := by
  induction values generalizing count with
  | nil => simp [audiencesWithinLimits, nonBlankStrings]
  | cons value values ih =>
    unfold audiencesWithinLimits
    cases hstr : value.asStr with
    | none =>
      have hskip : nonBlankStrings (value :: values) = nonBlankStrings values := by
        rw [nonBlankStrings, filterMap_cons_none hstr, nonBlankStrings]
      rw [hskip]
      exact ih
    | some aud =>
      dsimp only
      split_ifs with hblank hlimit
      · have hskip : nonBlankStrings (value :: values) = nonBlankStrings values := by
          rw [nonBlankStrings, filterMap_cons_some hstr, map_cons,
            filter_cons_of_neg (by simpa using hblank), nonBlankStrings]
        rw [hskip]
        exact ih
      all_goals
        have hkeep : nonBlankStrings (value :: values) = trim aud :: nonBlankStrings values := by
          rw [nonBlankStrings, filterMap_cons_some hstr, map_cons,
            filter_cons_of_pos (by simpa using hblank), nonBlankStrings]
        rw [hkeep, forall_mem_cons, length_cons]
        simp only [Bool.or_eq_true, decide_eq_true_eq, Bool.not_eq_true'] at hlimit
      · refine iff_of_false id ?_
        rintro ⟨⟨haud, -⟩, hcount⟩
        obtain hlong | hwide := hlimit
        · have := hcount (cons_ne_nil _ _)
          omega
        · rw [haud] at hwide
          cases hwide
      · rw [not_or, Bool.not_eq_false] at hlimit
        rw [ih]
        constructor
        · rintro ⟨hall, hcount⟩
          refine ⟨⟨hlimit.2, hall⟩, fun _ => ?_⟩
          cases hrest : nonBlankStrings values with
          | nil =>
            simp only [length_nil]
            omega
          | cons text texts =>
            have := hcount (by simp [hrest])
            simp only [hrest] at this ⊢
            omega
        · rintro ⟨⟨-, hall⟩, hcount⟩
          have := hcount (cons_ne_nil _ _)
          exact ⟨hall, fun _ => by omega⟩

end Arrays

/-! ### Decisions -/

theorem enforceClaims_allow_iff {ν : Type} {limits : Boundary} {cfg : ClaimsCfg} {claims : ClaimsMap ν} :
    (enforceClaims limits cfg claims).allow = true ↔
      claimsInputWithinBoundaryLimits limits cfg claims = true ∧ claimsHaveValidTypes claims = true ∧
        issuerAccepted cfg claims = true ∧ audienceAccepted cfg claims = true ∧ azpAccepted cfg claims = true := by
  unfold enforceClaims
  split_ifs with hlimits htypes hissuer haudience hazp <;> simp_all [Decision.allowed, Decision.deny]

end McpToolkit.Policy
