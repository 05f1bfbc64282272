import Mathlib.Data.Finset.Max

/-!
# McpToolkit.Lib.Recency — things in the order of their last use

The list names each thing once, the one used longest ago first.  A use moves a thing to the end (`touch`).
-/

namespace McpToolkit.Lib.Recency

open List

variable {α : Type} [BEq α] {l : List α} {a b c : α}

def touch (l : List α) (a : α) : List α := l.erase a ++ [a]

/-- The last use of `a` comes before the last use of `b`. -/
def Before (l : List α) (a b : α) : Prop := l.idxOf a < l.idxOf b

instance : Decidable (Before l a b) := inferInstanceAs (Decidable (_ < _))

theorem touch_sublist {l' : List α} (h : l'.Sublist l) : (touch l' a).Sublist (touch l a) :=
  (h.erase a).append_right [a]

theorem Before.asymm (h : Before l a b) : ¬Before l b a := Nat.lt_asymm h

variable [LawfulBEq α]

theorem nodup_touch (h : l.Nodup) : (touch l a).Nodup := by
  rw [touch, ← concat_eq_append]
  exact (h.erase a).concat h.not_mem_erase

theorem mem_touch : b ∈ touch l a ↔ b = a ∨ b ∈ l := by
  rw [touch, mem_append]
  by_cases h : b = a
  · simp [h]
  · simp [h]

theorem before_touch (h : l.Nodup) (hb : b ∈ l) (hne : b ≠ a) : Before (touch l a) b a := by
  have hmem : b ∈ l.erase a := (mem_erase_of_ne hne).mpr hb
  unfold Before touch
  rw [idxOf_append_of_mem hmem, idxOf_append_of_notMem h.not_mem_erase]
  exact Nat.lt_add_right _ (idxOf_lt_length_of_mem hmem)

theorem before_or_before (ha : a ∈ l) (hne : a ≠ b) : Before l a b ∨ Before l b a := by
  rcases Nat.lt_trichotomy (l.idxOf a) (l.idxOf b) with h | h | h
  · exact .inl h
  · exact absurd ((idxOf_inj ha).mp h) hne
  · exact .inr h

theorem before_of_sublist {xs ys : List α} (h : l.Nodup) (hsub : (xs ++ ys).Sublist l) (ha : a ∈ xs) (hb : b ∈ ys) :
    Before l a b := by
  obtain ⟨l₁, l₂, rfl, hxs, hys⟩ := append_sublist_iff.mp hsub
  have hb₁ : b ∉ l₁ := fun hb₁ => disjoint_of_nodup_append h hb₁ (hys.subset hb)
  unfold Before
  rw [idxOf_append_of_mem (hxs.subset ha), idxOf_append_of_notMem hb₁]
  exact Nat.lt_add_right _ (idxOf_lt_length_of_mem (hxs.subset ha))

theorem exists_before_all {s : List α} (hne : s ≠ []) (hs : ∀ a ∈ s, a ∈ l) :
    ∃ a ∈ s, ∀ b ∈ s, b ≠ a → Before l a b := by
  classical
  obtain ⟨a, ha, hmin⟩ := s.toFinset.exists_min_image l.idxOf (s.toFinset_nonempty_iff.mpr hne)
  rw [mem_toFinset] at ha
  refine ⟨a, ha, fun b hb hba => ?_⟩
  rcases before_or_before (hs b hb) hba with h | h
  · exact absurd h (not_lt.mpr (hmin b (mem_toFinset.mpr hb)))
  · exact h

end McpToolkit.Lib.Recency
