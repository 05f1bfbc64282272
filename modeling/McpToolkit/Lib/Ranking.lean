import Mathlib.Data.List.Sort

/-!
# McpToolkit.Lib.Ranking — sorting by a key, and the best of a pool

`BestOf r n pool best` says that `best` are the first `n` things of the pool in the order `r`.  A sort by a
key that tells the things of the pool apart gives them (`bestOf_take`), and its outcome does not depend
on the order of the pool (`eq_of_mem_iff`).
-/

namespace McpToolkit.Lib.Ranking

open List

variable {α κ : Type} [LinearOrder κ] {key : α → κ}

theorem pairwise_insertionSort {r : α → α → Prop} [DecidableRel r] {l : List α}
    (hr : ∀ a ∈ l, ∀ b ∈ l, r a b ↔ key a ≤ key b) (h : (l.map key).Nodup) :
    (l.insertionSort r).Pairwise fun a b => key a < key b := by
  have hmap : (l.insertionSort r).map key = (l.map key).insertionSort (· ≤ ·) :=
    map_insertionSort r (· ≤ ·) key l hr
  have hle : ((l.insertionSort r).map key).Pairwise (· ≤ ·) := by
    rw [hmap]
    exact List.pairwise_insertionSort _ _
  have hne : ((l.insertionSort r).map key).Nodup :=
    ((perm_insertionSort r l).map key).nodup_iff.mpr h
  exact pairwise_map.mp (hle.imp₂ (fun a b hab hab' => lt_of_le_of_ne hab hab') hne)

theorem eq_of_mem_iff {l l' : List α} (h : l.Pairwise fun a b => key a < key b)
    (h' : l'.Pairwise fun a b => key a < key b) (hmem : ∀ a, a ∈ l ↔ a ∈ l') : l = l' := by
  exact h.eq_of_mem_iff h' hmem

/-- The first `n` things of the pool. -/
structure BestOf (r : α → α → Prop) (n : ℕ) (pool best : List α) : Prop where
  sorted : best.Pairwise r
  subset : best ⊆ pool
  length : best.length = min n pool.length
  above : ∀ x ∈ pool, x ∉ best → ∀ y ∈ best, r y x

theorem bestOf_take {r : α → α → Prop} {n : ℕ} {pool sorted : List α} (hsorted : sorted.Pairwise r)
    (hperm : sorted.Perm pool) : BestOf r n pool (sorted.take n) where
  sorted := hsorted.sublist (take_sublist n sorted)
  subset := fun _ h => hperm.subset (mem_of_mem_take h)
  length := by rw [length_take, hperm.length_eq]
  above := by
    intro x hx hbest y hy
    rw [← take_append_drop n sorted] at hperm hsorted
    -- what is not among the first is among the rest
    obtain hx | hx := mem_append.mp (hperm.mem_iff.mpr hx)
    · exact absurd hx hbest
    · exact (pairwise_append.mp hsorted).2.2 y hy x hx

end McpToolkit.Lib.Ranking
