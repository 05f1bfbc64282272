import Mathlib.Data.Nat.Digits.Defs
import McpToolkit.Lib.Word

/-!
# McpToolkit.Lib.Decimal — numbers in decimal

`decimal` writes a number with the symbols that `digit` gives for `0` to `9`, the most significant
digit first and without leading zeros; `parseU64` reads a word of 64 bits.
-/

namespace McpToolkit.Lib.Decimal

open List
open Word (u64Max)

variable {α : Type} (digit : ℕ → α)

/-- The digits, the least significant first; zero has one. -/
def places (n : ℕ) : List ℕ := if n = 0 then [0] else Nat.digits 10 n

def decimal (n : ℕ) : List α := (places n).reverse.map digit

theorem ofDigits_places (n : ℕ) : Nat.ofDigits 10 (places n) = n := by
  unfold places
  split_ifs with h
  · rw [h, Nat.ofDigits_singleton]
  · exact Nat.ofDigits_digits 10 n

theorem lt_of_mem_places {n d : ℕ} (h : d ∈ places n) : d < 10 := by
  unfold places at h
  split_ifs at h
  · rw [mem_singleton] at h; omega
  · exact Nat.digits_lt_base (by decide) h

theorem places_ne_nil (n : ℕ) : places n ≠ [] := by
  unfold places
  split_ifs with h
  · exact cons_ne_nil _ _
  · exact Nat.digits_ne_nil_iff_ne_zero.mpr h

variable {digit}

theorem mem_decimal {n : ℕ} {c : α} (h : c ∈ decimal digit n) : ∃ d < 10, digit d = c := by
  obtain ⟨d, hd, hc⟩ := mem_map.mp h
  exact ⟨d, lt_of_mem_places (mem_reverse.mp hd), hc⟩

theorem decimal_ne_nil (n : ℕ) : decimal digit n ≠ [] := by
  intro h
  rw [decimal, map_eq_nil_iff, reverse_eq_nil_iff] at h
  exact places_ne_nil n h

theorem foldl_decimal (value : α → ℕ) (hvalue : ∀ d < 10, value (digit d) = d) (n : ℕ) :
    (decimal digit n).foldl (fun v c => v * 10 + value c) 0 = n := by
  have hread : ∀ l : List ℕ, (∀ d ∈ l, d < 10) →
      (l.reverse.map digit).foldl (fun v c => v * 10 + value c) 0 = Nat.ofDigits 10 l := by
    intro l hl
    induction l with
    | nil => rfl
    | cons d l ih =>
      rw [forall_mem_cons] at hl
      rw [reverse_cons, map_append, foldl_append, ih hl.2, map_singleton,
        foldl_cons, foldl_nil, hvalue d hl.1, Nat.ofDigits_cons]
      omega
  rw [decimal, hread _ fun d hd => lt_of_mem_places hd, ofDigits_places]

/-- **Numbers are read back from their decimals**, when digits have different symbols. -/
theorem decimal_injective (value : α → ℕ) (hvalue : ∀ d < 10, value (digit d) = d) {n n' : ℕ}
    (h : decimal digit n = decimal digit n') : n = n' := by
  rw [← foldl_decimal value hvalue n, h, foldl_decimal value hvalue n']

/-! ### Words in decimal -/

/-- `str::parse::<u64>`: an optional plus sign, and digits of a number that fits. -/
def parseU64 (text : List Char) : Option ℕ :=
  let digits := match text with
    | '+' :: rest => rest
    | text => text
  if digits.isEmpty || !digits.all Char.isDigit then none
  else
    let value := digits.foldl (fun value c => value * 10 + (c.toNat - 48)) 0
    if value ≤ u64Max then some value else none

theorem digitChar_toNat : ∀ d < 10, d.digitChar.toNat - 48 = d := by decide

theorem isDigit_digitChar : ∀ d < 10, d.digitChar.isDigit = true ∧ d.digitChar ≠ '+' := by decide

theorem parseU64_decimal {n : ℕ} (h : n ≤ u64Max) : parseU64 (decimal Nat.digitChar n) = some n := by
  have hdigits : ∀ c ∈ decimal Nat.digitChar n, c.isDigit = true ∧ c ≠ '+' := by
    intro c hc
    obtain ⟨d, hd, rfl⟩ := mem_decimal hc
    exact isDigit_digitChar d hd
  have hvalue := foldl_decimal (fun c : Char => c.toNat - 48) digitChar_toNat n
  unfold parseU64
  cases htext : decimal Nat.digitChar n with
  | nil => exact absurd htext (decimal_ne_nil n)
  | cons c text =>
    rw [htext] at hdigits hvalue
    have hall : (c :: text).all Char.isDigit = true := all_eq_true.mpr fun d hd => (hdigits d hd).1
    dsimp only
    split
    · rename_i heq
      exact absurd (List.cons.inj heq).1 (hdigits c mem_cons_self).2
    · rw [hall, hvalue, if_pos h]
      rfl

end McpToolkit.Lib.Decimal
