import Mathlib.Data.Finmap
import McpToolkit.Lib.Decimal

/-!
# McpToolkit.Scratchpad.ColumnNames — names for the columns of a result

`dedupe_column_names` gives every column of a query a name of its own.  A name that is in use is tried again with a
number behind it, and the next number to try is kept for each name.  The numbers that were tried are different, so the
loop ends at the latest when it has tried one name more than there are in use; the model gives it fuel, and
`dedupeColumnNames_unique` says that as much fuel as there are columns is enough.

The rows are maps from these names to values (`projectRow`).
-/

namespace McpToolkit.Scratchpad

open List
open Lib.Decimal (decimal decimal_injective decimal_ne_nil)

abbrev ColumnName := List Char

/-- The name of the column at a position, `column_N` if it has none. -/
def baseName (idx : ℕ) (name : ColumnName) : ColumnName :=
  if name = [] then "column_".toList ++ decimal Nat.digitChar (idx + 1) else name

/-- A name with a number behind it. -/
def numbered (base : ColumnName) (n : ℕ) : ColumnName := base ++ '_' :: decimal Nat.digitChar n

/-- The loop over the names that are in use: the name found, and the count it is left with. -/
def retry (used : List ColumnName) (base : ColumnName) : ℕ → ℕ → ColumnName → Option (ColumnName × ℕ)
  | 0, _, _ => none
  | fuel + 1, count, deduped =>
    if used.contains deduped then retry used base fuel (count + 1) (numbered base (count + 2)) else some (deduped, count)

/-- The columns from a position on. -/
def dedupeFrom (fuel : ℕ) : ℕ → (ColumnName → ℕ) → List ColumnName → List ColumnName → Option (List ColumnName)
  | _, _, _, [] => some []
  | idx, counts, used, name :: raw => do
    let base := baseName idx name
    let (deduped, count) ← retry used base fuel (counts base) base
    let rest ← dedupeFrom fuel (idx + 1) (Function.update counts base count) (deduped :: used) raw
    return deduped :: rest

def dedupeColumnNames (fuel : ℕ) (raw : List ColumnName) : Option (List ColumnName) :=
  dedupeFrom fuel 0 (fun _ => 0) [] raw

/-- A row of the result: the values are put in under their columns' names, one after the other. -/
def projectRow {V : Type} (names : List ColumnName) (values : List V) : Finmap fun _ : ColumnName => V :=
  (names.zip values).foldl (fun row column => row.insert column.1 column.2) ∅

/-! ### One column -/

theorem numbered_injective (base : ColumnName) {n n' : ℕ} (h : numbered base n = numbered base n') : n = n' := by
  have hdecimal : decimal Nat.digitChar n = decimal Nat.digitChar n' :=
    (List.cons.inj (append_cancel_left h)).2
  exact decimal_injective (fun c => c.toNat - 48) (by decide) hdecimal

theorem numbered_ne_base (base : ColumnName) (n : ℕ) : numbered base n ≠ base := by
  intro h
  have hlen := congrArg List.length h
  rw [numbered, length_append, length_cons] at hlen
  omega

theorem baseName_ne_nil (idx : ℕ) (name : ColumnName) : baseName idx name ≠ [] := by
  unfold baseName
  split_ifs with h
  · intro hnil
    exact decimal_ne_nil _ (append_eq_nil_iff.mp hnil).2
  · exact h

/-- What may become of a name: it stays, or a number of at least two is put behind it. -/
def Spelling (base deduped : ColumnName) : Prop := deduped = base ∨ ∃ n, 2 ≤ n ∧ deduped = numbered base n

theorem Spelling.ne_nil {base deduped : ColumnName} (h : Spelling base deduped) (hbase : base ≠ []) : deduped ≠ [] := by
  rcases h with rfl | ⟨n, -, rfl⟩
  · exact hbase
  · intro hnil
    exact hbase (append_eq_nil_iff.mp hnil).1

section Retry

variable {used : List ColumnName} {base : ColumnName}

theorem retry_of_mem {deduped : ColumnName} (h : deduped ∈ used) (fuel count : ℕ) :
    retry used base (fuel + 1) count deduped = retry used base fuel (count + 1) (numbered base (count + 2)) := by
  rw [retry, if_pos (contains_iff_mem.mpr h)]

theorem retry_of_notMem {deduped : ColumnName} (h : deduped ∉ used) (fuel count : ℕ) :
    retry used base (fuel + 1) count deduped = some (deduped, count) := by
  rw [retry, if_neg (mt contains_iff_mem.mp h)]

theorem retry_spec : ∀ (fuel count : ℕ) (deduped : ColumnName) {r : ColumnName × ℕ},
    retry used base fuel count deduped = some r → Spelling base deduped →
      r.1 ∉ used ∧ Spelling base r.1 ∧ (deduped ∉ used → r.1 = deduped) := by
  intro fuel
  induction fuel with
  | zero => exact fun _ _ _ h => absurd h.symm (Option.some_ne_none _)
  | succ fuel ih =>
    intro count deduped r h hspell
    by_cases hmem : deduped ∈ used
    · rw [retry_of_mem hmem] at h
      have hnext : Spelling base (numbered base (count + 2)) := .inr ⟨count + 2, by omega, rfl⟩
      obtain ⟨hfresh, hr, -⟩ := ih _ _ h hnext
      exact ⟨hfresh, hr, fun hnot => absurd hmem hnot⟩
    · rw [retry_of_notMem hmem] at h
      cases h
      exact ⟨hmem, hspell, fun _ => rfl⟩

/-- **The loop ends.**  The names tried before are in use and different, so there are no more of them than there are
names in use. -/
theorem exists_retry : ∀ (fuel count : ℕ) (deduped : ColumnName) (tried : List ColumnName),
    tried.Nodup → tried ⊆ used → deduped ∉ tried →
      (∀ n, count + 2 ≤ n → numbered base n ∉ deduped :: tried) → used.length < fuel + tried.length →
        ∃ r, retry used base fuel count deduped = some r := by
  intro fuel
  induction fuel with
  | zero =>
    intro count deduped tried hnodup hsub _ _ hlen
    have hle : tried.length ≤ used.length := (hnodup.subperm hsub).length_le
    omega
  | succ fuel ih =>
    intro count deduped tried hnodup hsub hnew hlater hlen
    by_cases hmem : deduped ∈ used
    · rw [retry_of_mem hmem]
      refine ih _ _ (deduped :: tried) (nodup_cons.mpr ⟨hnew, hnodup⟩) ?_ (hlater _ le_rfl) ?_ ?_
      · exact cons_subset.mpr ⟨hmem, hsub⟩
      · intro n hn hin
        rcases mem_cons.mp hin with heq | hin
        · have := numbered_injective base heq
          omega
        · exact hlater n (by omega) hin
      · rw [length_cons]
        omega
    · exact ⟨_, retry_of_notMem hmem fuel count⟩

theorem retry_of_le : ∀ (fuel fuel' count : ℕ) (deduped : ColumnName) {r : ColumnName × ℕ}, fuel ≤ fuel' →
    retry used base fuel count deduped = some r → retry used base fuel' count deduped = some r := by
  intro fuel
  induction fuel with
  | zero => exact fun _ _ _ _ _ h => absurd h.symm (Option.some_ne_none _)
  | succ fuel ih =>
    intro fuel' count deduped r hle h
    obtain ⟨fuel', rfl⟩ : ∃ n, fuel' = n + 1 := ⟨fuel' - 1, by omega⟩
    by_cases hmem : deduped ∈ used
    · rw [retry_of_mem hmem] at h ⊢
      exact ih _ _ _ (by omega) h
    · rwa [retry_of_notMem hmem] at h ⊢

theorem exists_retry_base (count : ℕ) : ∃ r, ∀ fuel, used.length < fuel → retry used base fuel count base = some r := by
  have hbase : ∀ n, count + 2 ≤ n → numbered base n ∉ [base] :=
    fun n _ hin => numbered_ne_base base n (mem_singleton.mp hin)
  obtain ⟨r, hr⟩ := exists_retry (used.length + 1) count base [] nodup_nil (nil_subset used)
    not_mem_nil hbase (Nat.lt_succ_self _)
  exact ⟨r, fun fuel hfuel => retry_of_le _ _ _ _ hfuel hr⟩

end Retry

/-! ### All columns -/

/-- What the names of the columns from a position on have to be, with the names given before in use. -/
structure Deduped (idx : ℕ) (used raw out : List ColumnName) : Prop where
  length : out.length = raw.length
  nodup : out.Nodup
  fresh : ∀ deduped ∈ out, deduped ∉ used
  spelling : ∀ (i : ℕ) (h : i < raw.length) (h' : i < out.length), Spelling (baseName (idx + i) raw[i]) out[i]
  unchanged : ∀ (i : ℕ) (h : i < raw.length) (h' : i < out.length), baseName (idx + i) raw[i] ∉ used →
    baseName (idx + i) raw[i] ∉ out.take i → out[i] = baseName (idx + i) raw[i]

theorem Deduped.nil (idx : ℕ) (used : List ColumnName) : Deduped idx used [] [] where
  length := rfl
  nodup := nodup_nil
  fresh := fun _ h => absurd h not_mem_nil
  spelling := fun _ h _ => absurd h (Nat.not_lt_zero _)
  unchanged := fun _ h _ => absurd h (Nat.not_lt_zero _)

theorem Deduped.cons {idx : ℕ} {used raw out : List ColumnName} {name deduped : ColumnName}
    (hfresh : deduped ∉ used) (hspell : Spelling (baseName idx name) deduped)
    (hsame : baseName idx name ∉ used → deduped = baseName idx name)
    (h : Deduped (idx + 1) (deduped :: used) raw out) : Deduped idx used (name :: raw) (deduped :: out) where
  length := by rw [length_cons, length_cons, h.length]
  nodup := nodup_cons.mpr ⟨fun hin => h.fresh deduped hin mem_cons_self, h.nodup⟩
  fresh := by
    intro x hx
    rcases mem_cons.mp hx with rfl | hx
    · exact hfresh
    · exact fun hused => h.fresh x hx (mem_cons_of_mem _ hused)
  spelling := by
    intro i hi hi'
    cases i with
    | zero => exact hspell
    | succ i =>
      have hs := h.spelling i (Nat.lt_of_succ_lt_succ hi) (Nat.lt_of_succ_lt_succ hi')
      rwa [Nat.add_right_comm] at hs
  unchanged := by
    intro i hi hi' hused htake
    cases i with
    | zero => exact hsame hused
    | succ i =>
      have hu := h.unchanged i (Nat.lt_of_succ_lt_succ hi) (Nat.lt_of_succ_lt_succ hi')
      rw [Nat.add_right_comm] at hu
      rw [take_succ_cons] at htake
      refine hu ?_ fun hin => htake (mem_cons_of_mem _ hin)
      intro hin
      rcases mem_cons.mp hin with heq | hin
      · exact htake (heq ▸ mem_cons_self)
      · exact hused hin

theorem exists_dedupeFrom : ∀ (raw : List ColumnName) (idx : ℕ) (counts : ColumnName → ℕ) (used : List ColumnName),
    ∃ out, (∀ fuel, used.length + raw.length ≤ fuel → dedupeFrom fuel idx counts used raw = some out) ∧
      Deduped idx used raw out := by
  intro raw
  induction raw with
  | nil => exact fun idx counts used => ⟨[], fun _ _ => rfl, .nil idx used⟩
  | cons name raw ih =>
    intro idx counts used
    obtain ⟨⟨deduped, count⟩, hretry⟩ := exists_retry_base (counts (baseName idx name))
    obtain ⟨hfresh, hspell, hsame⟩ := retry_spec _ _ _ (hretry _ (Nat.lt_succ_self _)) (.inl rfl)
    obtain ⟨out, hout, hdeduped⟩ := ih (idx + 1) (Function.update counts (baseName idx name) count) (deduped :: used)
    refine ⟨deduped :: out, fun fuel hfuel => ?_, .cons hfresh hspell hsame hdeduped⟩
    rw [length_cons] at hfuel
    have hrest := hout fuel (by rw [length_cons]; omega)
    simp only [dedupeFrom, hretry fuel (by omega), Option.bind_eq_bind, Option.bind_some, hrest, Option.pure_def]

/-! ### Rows -/

section Rows

variable {V : Type}

theorem lookup_foldl_insert_of_notMem (name : ColumnName) : ∀ (columns : List (ColumnName × V))
    (row : Finmap fun _ : ColumnName => V), name ∉ columns.map Prod.fst →
      (columns.foldl (fun row column => row.insert column.1 column.2) row).lookup name = row.lookup name := by
  intro columns
  induction columns with
  | nil => exact fun _ _ => rfl
  | cons column columns ih =>
    intro row hnot
    rw [map_cons, mem_cons, not_or] at hnot
    rw [foldl_cons, ih _ hnot.2]
    exact Finmap.lookup_insert_of_ne row hnot.1

theorem lookup_foldl_insert_of_mem {name : ColumnName} {value : V} : ∀ (columns : List (ColumnName × V))
    (row : Finmap fun _ : ColumnName => V), (columns.map Prod.fst).Nodup → (name, value) ∈ columns →
      (columns.foldl (fun row column => row.insert column.1 column.2) row).lookup name = some value := by
  intro columns
  induction columns with
  | nil => exact fun _ _ h => absurd h not_mem_nil
  | cons column columns ih =>
    intro row hnodup hmem
    rw [map_cons, nodup_cons] at hnodup
    rw [foldl_cons]
    rcases mem_cons.mp hmem with rfl | hmem
    · rw [lookup_foldl_insert_of_notMem name columns _ hnodup.1]
      exact Finmap.lookup_insert row
    · exact ih _ hnodup.2 hmem

theorem lookup_projectRow {names : List ColumnName} {values : List V} (hnodup : names.Nodup)
    (hlen : values.length = names.length) {i : ℕ} (h : i < names.length) (h' : i < values.length) :
    (projectRow names values).lookup names[i] = some values[i] := by
  have hfst : (names.zip values).map Prod.fst = names := map_fst_zip (by omega)
  have hzip : i < (names.zip values).length := by
    rw [length_zip]
    omega
  refine lookup_foldl_insert_of_mem _ ∅ (by rwa [hfst]) ?_
  rw [← getElem_zip]
  exact getElem_mem hzip

end Rows

/-- **Columns are given names of their own, and none is lost**: a column keeps its name, or `column_N` if it has none at
position `N`, unless an earlier column has it already, and then gets a number of at least 2 behind it. -/
theorem dedupeColumnNames_unique (raw : List ColumnName) : ∃ out : List ColumnName,
    (∀ fuel, raw.length ≤ fuel → dedupeColumnNames fuel raw = some out) ∧
    out.length = raw.length ∧ out.Nodup ∧ (∀ deduped ∈ out, deduped ≠ []) ∧
    (∀ (i : ℕ) (h : i < raw.length) (h' : i < out.length),
      let base := if raw[i] = [] then "column_".toList ++ decimal Nat.digitChar (i + 1) else raw[i]
      (out[i] = base ∨ ∃ n, 2 ≤ n ∧ out[i] = base ++ '_' :: decimal Nat.digitChar n) ∧
      (base ∉ out.take i → out[i] = base)) ∧
    ∀ (V : Type) (values : List V), values.length = raw.length →
      ∀ (i : ℕ) (h : i < out.length) (h' : i < values.length), (projectRow out values).lookup out[i] = some values[i] := by
  obtain ⟨out, hout, h⟩ := exists_dedupeFrom raw 0 (fun _ => 0) []
  have hspell : ∀ (i : ℕ) (hi : i < raw.length) (hi' : i < out.length), Spelling (baseName i raw[i]) out[i] := by
    intro i hi hi'
    have hs := h.spelling i hi hi'
    rwa [Nat.zero_add] at hs
  refine ⟨out, ?_, h.length, h.nodup, ?_, ?_, ?_⟩
  · intro fuel hfuel
    exact hout fuel (by rwa [length_nil, Nat.zero_add])
  · intro deduped hmem
    obtain ⟨i, hi, rfl⟩ := getElem_of_mem hmem
    exact (hspell i (h.length ▸ hi) hi).ne_nil (baseName_ne_nil i _)
  · intro i hi hi'
    refine ⟨hspell i hi hi', fun hnot => ?_⟩
    have hu := h.unchanged i hi hi' not_mem_nil
    rw [Nat.zero_add] at hu
    exact hu hnot
  · intro V values hlen i hi hi'
    exact lookup_projectRow h.nodup (hlen.trans h.length.symm) hi hi'

end McpToolkit.Scratchpad
