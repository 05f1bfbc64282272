import Mathlib.Data.Nat.Basic

/-!
# McpToolkit.Lib.Unfold — unfolding parts and references

A value has parts, and may refer to other values.  Unfolding replaces a reference by what it refers
to and goes on with the parts of that, so it ends only if no value comes back to itself.

`Ends U P n v` says that the unfolding of `v` ends, with at most `n` references inside one another,
and that every value met on the way satisfies `P`.
-/

namespace McpToolkit.Lib

structure Unfolding (α : Type) where
  child : α → α → Prop
  refers : α → α → Prop

namespace Unfolding

variable {α : Type} (U : Unfolding α) {P : α → Prop} {n k m : ℕ} {u v w : α}

def Step (v w : α) : Prop := U.child v w ∨ U.refers v w

/-- A way from one value to another, with the number of references that it follows. -/
inductive Path : ℕ → α → α → Prop
  | refl (v : α) : Path 0 v v
  | child {n : ℕ} {u v w : α} : U.child u v → Path n v w → Path n u w
  | refers {n : ℕ} {u v w : α} : U.refers u v → Path n v w → Path (n + 1) u w

inductive Ends (P : α → Prop) : ℕ → α → Prop
  | intro {n : ℕ} {v : α} (hv : P v) (hchild : ∀ w, U.child v w → Ends P n w)
      (hpos : ∀ w, U.refers v w → 0 < n) (hrefers : ∀ w, U.refers v w → Ends P (n - 1) w) : Ends P n v

variable {U}

theorem Ends.holds (h : U.Ends P n v) : P v := by
  obtain ⟨hv, -, -, -⟩ := h
  exact hv

theorem Ends.of_path (hpath : U.Path k v w) : ∀ {n : ℕ}, U.Ends P n v → k ≤ n ∧ U.Ends P (n - k) w := by
  induction hpath with
  | refl => exact fun h => ⟨Nat.zero_le _, h⟩
  | child hstep _ ih =>
    rintro n ⟨-, hchild, -, -⟩
    exact ih (hchild _ hstep)
  | @refers k _ v w hstep _ ih =>
    rintro n ⟨-, -, hpos, hrefers⟩
    have hn := hpos _ hstep
    obtain ⟨hle, hends⟩ := ih (hrefers _ hstep)
    rw [Nat.sub_sub, Nat.add_comm] at hends
    exact ⟨by omega, hends⟩

theorem Ends.acc (h : U.Ends P n v) : Acc (fun w v => U.Step v w) v := by
  induction h with
  | intro _ _ _ _ ihchild ihrefers =>
    refine .intro _ fun w hstep => ?_
    exact hstep.elim (ihchild w) (ihrefers w)

theorem Ends.not_path_self : ∀ {n : ℕ}, U.Ends P n v → ¬U.Path (k + 1) v v := by
  intro n
  induction n using Nat.strongRecOn with
  | _ n ih =>
    intro h hpath
    obtain ⟨hle, hends⟩ := h.of_path hpath
    exact ih (n - (k + 1)) (by omega) hends hpath

end Unfolding

end McpToolkit.Lib
