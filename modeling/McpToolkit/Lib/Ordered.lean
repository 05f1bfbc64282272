import Mathlib.Data.Prod.Lex

/-!
# McpToolkit.Lib.Ordered — maps kept in the order of their keys

An ordered map is an association list whose keys ascend.  Keys are compared by their `rank` in a
linear order, and keys of one rank are equal.  `insert` replaces the value of a key that is
present; `collect` inserts the pairs of a list one after the other.
-/

namespace McpToolkit.Lib.Ordered

open List

variable {κ ν σ : Type} [LinearOrder σ] (rank : κ → σ)

def insert (k : κ) (v : ν) : List (κ × ν) → List (κ × ν)
  | [] => [(k, v)]
  | (k', v') :: m =>
    if rank k < rank k' then (k, v) :: (k', v') :: m
    else if rank k' < rank k then (k', v') :: insert k v m
    else (k', v) :: m

def collect (l : List (κ × ν)) : List (κ × ν) := l.foldl (fun m e => insert rank e.1 e.2 m) []

/-- The keys ascend. -/
def Ascends (m : List (κ × ν)) : Prop := m.Pairwise fun e e' => rank e.1 < rank e'.1

variable {rank} {k : κ} {v : ν} {m l l' : List (κ × ν)}

theorem key_of_mem_insert {e : κ × ν} (h : e ∈ insert rank k v m) : rank e.1 = rank k ∨ e ∈ m := by
  induction m with
  | nil =>
    rw [insert, mem_singleton] at h
    exact .inl (h ▸ rfl)
  | cons p m ih =>
    rw [insert] at h
    split_ifs at h with hlt hgt
    · rcases mem_cons.mp h with rfl | h
      · exact .inl rfl
      · exact .inr h
    · rcases mem_cons.mp h with rfl | h
      · exact .inr mem_cons_self
      · exact (ih h).imp id (mem_cons_of_mem _)
    · rcases mem_cons.mp h with rfl | h
      · exact .inl (le_antisymm (not_lt.mp hlt) (not_lt.mp hgt))
      · exact .inr (mem_cons_of_mem _ h)

theorem Ascends.insert (h : Ascends rank m) : Ascends rank (insert rank k v m) := by
  induction m with
  | nil => exact pairwise_singleton _ _
  | cons p m ih =>
    obtain ⟨k', v'⟩ := p
    have hcons := pairwise_cons.mp h
    rw [Ordered.insert]
    split_ifs with hlt hgt
    · refine pairwise_cons.mpr ⟨fun e he => ?_, h⟩
      rcases mem_cons.mp he with rfl | he
      · exact hlt
      · exact hlt.trans (hcons.1 e he)
    · refine pairwise_cons.mpr ⟨fun e he => ?_, ih hcons.2⟩
      rcases key_of_mem_insert he with he | he
      · rw [he]; exact hgt
      · exact hcons.1 e he
    · exact pairwise_cons.mpr ⟨hcons.1, hcons.2⟩

theorem insert_perm (h : ∀ e ∈ m, rank e.1 ≠ rank k) : (insert rank k v m).Perm ((k, v) :: m) := by
  induction m with
  | nil => exact .refl _
  | cons p m ih =>
    rw [insert]
    split_ifs with hlt hgt
    · exact .refl _
    · have hrest := ih fun e he => h e (mem_cons_of_mem _ he)
      exact (hrest.cons _).trans (.swap _ _ _)
    · exact absurd (le_antisymm (not_lt.mp hlt) (not_lt.mp hgt)) (h _ mem_cons_self)

theorem ascends_foldl (h : Ascends rank m) : Ascends rank (l.foldl (fun m e => insert rank e.1 e.2 m) m) := by
  induction l generalizing m with
  | nil => exact h
  | cons e l ih => exact ih h.insert

theorem ascends_collect : Ascends rank (collect rank l) := ascends_foldl List.Pairwise.nil

theorem foldl_perm (h : (m ++ l).Pairwise fun e e' => rank e.1 ≠ rank e'.1) :
    (l.foldl (fun m e => insert rank e.1 e.2 m) m).Perm (m ++ l) := by
  induction l generalizing m with
  | nil => rw [foldl_nil, append_nil]
  | cons e l ih =>
    have hmove : ((e :: m) ++ l).Perm (m ++ e :: l) := perm_middle.symm
    have hpair := hmove.pairwise_iff (fun h' => h'.symm) |>.mpr h
    have hins : (insert rank e.1 e.2 m).Perm (e :: m) :=
      insert_perm fun e' he' => ((pairwise_cons.mp hpair).1 e' (mem_append_left _ he')).symm
    have hrest := ih ((hins.append_right l).pairwise_iff (fun h' => h'.symm) |>.mpr hpair)
    exact hrest.trans ((hins.append_right l).trans hmove)

section Distinct

variable (hrank : Function.Injective rank)
include hrank

theorem collect_perm (h : (l.map Prod.fst).Nodup) : (collect rank l).Perm l := by
  refine foldl_perm ((pairwise_map.mp h).imp fun hne heq => ?_)
  exact hne (hrank heq)

/-- **Reordered lists with distinct keys are collected to one map.** -/
theorem collect_congr (h : (l.map Prod.fst).Nodup) (hperm : l.Perm l') : collect rank l = collect rank l' := by
  have h' : (l'.map Prod.fst).Nodup := (hperm.map Prod.fst).nodup_iff.mp h
  refine List.Perm.eq_of_pairwise (fun e e' _ _ hlt hgt => absurd hgt hlt.not_gt)
    ascends_collect ascends_collect ?_
  exact (collect_perm hrank h).trans (hperm.trans (collect_perm hrank h').symm)

end Distinct

end McpToolkit.Lib.Ordered
