import Mathlib.Algebra.Order.Ring.Nat
import Mathlib.Data.List.Nodup
import Mathlib.Data.List.Perm.Basic

/-!
# McpToolkit.Lib.Buckets — maps whose values are lists

A map from keys to lists, as its buckets in some order.  `entries` is all that it holds, each value with its key, and
says up to order what every operation does.  A map is `Trim` if none of its buckets is empty: the operations that take
values out drop the bucket they empty.
-/

namespace McpToolkit.Lib

open List

structure Buckets (K V : Type) where
  buckets : List (K × List V)
  nodup : (buckets.map Prod.fst).Nodup

namespace Buckets

variable {K V : Type} {m : Buckets K V} {k : K} {items : List V} {v w : V}

def empty : Buckets K V := ⟨[], nodup_nil⟩

/-- The values with their keys. -/
def flat (l : List (K × List V)) : List (K × V) := l.flatMap fun b => b.2.map fun v => (b.1, v)

def entries (m : Buckets K V) : List (K × V) := flat m.buckets

/-- How many values there are. -/
def total (m : Buckets K V) : ℕ := (m.buckets.map fun b => b.2.length).sum

/-- No bucket is empty. -/
def Trim (m : Buckets K V) : Prop := ∀ b ∈ m.buckets, b.2 ≠ []

/-- Keeps the values that pass, and the buckets that keep one. -/
def retain (m : Buckets K V) (p : V → Bool) : Buckets K V where
  buckets := (m.buckets.map fun b => (b.1, b.2.filter p)).filter fun b => !b.2.isEmpty
  nodup := by
    have hkeys : (m.buckets.map fun b => (b.1, b.2.filter p)).map Prod.fst = m.buckets.map Prod.fst := by
      rw [map_map]
      rfl
    exact (hkeys ▸ m.nodup).sublist (filter_sublist.map Prod.fst)

theorem total_eq_length (m : Buckets K V) : m.total = m.entries.length := by
  rw [total, entries, flat, length_flatMap]
  simp only [length_map]

theorem mem_entries : (k, v) ∈ m.entries ↔ ∃ items, (k, items) ∈ m.buckets ∧ v ∈ items := by
  simp [entries, flat]

theorem flat_append (l l' : List (K × List V)) : flat (l ++ l') = flat l ++ flat l' := flatMap_append

theorem flat_cons (b : K × List V) (l : List (K × List V)) : flat (b :: l) = b.2.map (fun v => (b.1, v)) ++ flat l :=
  flatMap_cons

theorem entries_retain (p : V → Bool) : (m.retain p).entries = m.entries.filter fun e => p e.2 := by
  show flat ((m.buckets.map fun b => (b.1, b.2.filter p)).filter fun b => !b.2.isEmpty) =
    (flat m.buckets).filter fun e => p e.2
  induction m.buckets with
  | nil => rfl
  | cons b l ih =>
    have hb : (b.2.map fun v => (b.1, v)).filter (fun e => p e.2) = (b.2.filter p).map fun v => (b.1, v) := by
      rw [filter_map]
      rfl
    rw [flat_cons, filter_append, hb, ← ih, map_cons]
    cases hempty : b.2.filter p with
    | nil => rfl
    | cons v l => rfl

theorem trim_empty : (empty : Buckets K V).Trim := fun _ hb => absurd hb not_mem_nil

theorem trim_retain (p : V → Bool) : (m.retain p).Trim := by
  intro b hb hnil
  have hfull := (mem_filter.mp hb).2
  rw [hnil] at hfull
  cases hfull

/-! ### Operations at a key -/

variable [DecidableEq K]

def get? (m : Buckets K V) (k : K) : Option (List V) := (m.buckets.find? fun b => b.1 = k).map Prod.snd

/-- The bucket of `k` is changed in place. -/
def alter (m : Buckets K V) (k : K) (f : List V → List V) : Buckets K V where
  buckets := m.buckets.map fun b => (b.1, if b.1 = k then f b.2 else b.2)
  nodup := by
    have hkeys : (m.buckets.map fun b => (b.1, if b.1 = k then f b.2 else b.2)).map Prod.fst =
        m.buckets.map Prod.fst := by
      rw [map_map]
      rfl
    rw [hkeys]
    exact m.nodup

def remove (m : Buckets K V) (k : K) : Buckets K V where
  buckets := m.buckets.filter fun b => b.1 ≠ k
  nodup := m.nodup.sublist (filter_sublist.map Prod.fst)

/-- The `i`-th value of a bucket is taken out, and the bucket with the last one. -/
def removeAt (m : Buckets K V) (k : K) (i : ℕ) : Buckets K V :=
  let taken := m.alter k fun items => items.eraseIdx i
  if (taken.get? k).any List.isEmpty then taken.remove k else taken

theorem mem_of_get? (h : m.get? k = some items) : (k, items) ∈ m.buckets := by
  obtain ⟨b, hb, rfl⟩ := Option.map_eq_some_iff.mp h
  have hkey : b.1 = k := by simpa using find?_some hb
  exact hkey ▸ mem_of_find?_eq_some hb

theorem get?_eq_none (h : m.get? k = none) : k ∉ m.buckets.map Prod.fst := by
  intro hk
  obtain ⟨b, hb, rfl⟩ := mem_map.mp hk
  have hnone := find?_eq_none.mp (Option.map_eq_none_iff.mp h) b hb
  exact hnone (decide_eq_true rfl)

/-- A value goes to the end of its bucket, which there may not be yet. -/
def push (m : Buckets K V) (k : K) (v : V) : Buckets K V :=
  match h : m.get? k with
  | some _ => m.alter k fun items => items ++ [v]
  | none =>
    { buckets := m.buckets ++ [(k, [v])]
      nodup := by
        rw [map_append, map_singleton, nodup_append]
        refine ⟨m.nodup, nodup_singleton _, fun a ha b hb => ?_⟩
        rw [mem_singleton.mp hb]
        rintro rfl
        exact get?_eq_none h ha }

theorem get?_of_mem (h : (k, items) ∈ m.buckets) : m.get? k = some items := by
  cases hget : m.get? k with
  | none => exact absurd (mem_map_of_mem h) (get?_eq_none hget)
  | some items' =>
    have heq := inj_on_of_nodup_map m.nodup (mem_of_get? hget) h rfl
    exact congrArg (fun b => some b.2) heq

theorem mem_entries_of_get? (h : m.get? k = some items) (hv : v ∈ items) : (k, v) ∈ m.entries :=
  mem_entries.mpr ⟨items, mem_of_get? h, hv⟩

theorem exists_split (h : m.get? k = some items) :
    ∃ before after, m.buckets = before ++ (k, items) :: after ∧ (∀ b ∈ before, b.1 ≠ k) ∧ ∀ b ∈ after, b.1 ≠ k := by
  obtain ⟨before, after, hm⟩ := append_of_mem (mem_of_get? h)
  have hnodup := m.nodup
  rw [hm, map_append] at hnodup
  have hk := nodup_append.mp hnodup
  refine ⟨before, after, hm, fun b hb hbk => ?_, fun b hb hbk => ?_⟩
  · exact hk.2.2 b.1 (mem_map_of_mem hb) k mem_cons_self hbk
  · have hmem : b.1 ∈ after.map Prod.fst := mem_map_of_mem hb
    exact (nodup_cons.mp hk.2.1).1 (hbk ▸ hmem)

variable {f : List V → List V} {i : ℕ}

theorem map_alter_eq {l : List (K × List V)} (h : ∀ b ∈ l, b.1 ≠ k) :
    (l.map fun b => (b.1, if b.1 = k then f b.2 else b.2)) = l := by
  have hid : ∀ b ∈ l, (b.1, if b.1 = k then f b.2 else b.2) = b := by
    intro b hb
    rw [if_neg (h b hb)]
  rw [map_congr_left hid, map_id']

theorem exists_entries (h : m.get? k = some items) : ∃ rest, m.entries.Perm (items.map (fun v => (k, v)) ++ rest) ∧
      (∀ f, (m.alter k f).entries.Perm ((f items).map (fun v => (k, v)) ++ rest)) ∧
      ∀ f, ((m.alter k f).remove k).entries.Perm rest := by
  obtain ⟨before, after, hm, hbefore, hafter⟩ := exists_split h
  refine ⟨flat (before ++ after), ?_, fun f => ?_, fun f => ?_⟩
  · rw [entries, hm, flat_append, flat_append]
    exact perm_append_comm_assoc _ _ _
  · show List.Perm (flat (m.buckets.map fun b => (b.1, if b.1 = k then f b.2 else b.2))) _
    rw [hm, map_append, map_cons, map_alter_eq hbefore, map_alter_eq hafter, if_pos rfl, flat_append, flat_append]
    exact perm_append_comm_assoc _ _ _
  · have hkeep : ∀ l : List (K × List V), (∀ b ∈ l, b.1 ≠ k) → l.filter (fun b => b.1 ≠ k) = l := by
      intro l hl
      exact filter_eq_self.mpr fun b hb => decide_eq_true (hl b hb)
    show List.Perm (flat ((m.buckets.map fun b => (b.1, if b.1 = k then f b.2 else b.2)).filter fun b => b.1 ≠ k)) _
    rw [hm, map_append, map_cons, map_alter_eq hbefore, map_alter_eq hafter, filter_append,
      filter_cons, if_neg (by simp), hkeep _ hbefore, hkeep _ hafter]

theorem get?_alter (h : m.get? k = some items) (f : List V → List V) : (m.alter k f).get? k = some (f items) := by
  refine get?_of_mem (mem_map.mpr ⟨(k, items), mem_of_get? h, ?_⟩)
  rw [if_pos rfl]

/-! ### What the operations do to the entries -/

theorem entries_replace (h : m.get? k = some items) (hi : items[i]? = some v) (hf : f items = items.eraseIdx i ++ [w]) :
    ∃ rest, m.entries.Perm ((k, v) :: rest) ∧ (m.alter k f).entries.Perm ((k, w) :: rest) := by
  obtain ⟨rest, hentries, halter, -⟩ := exists_entries h
  obtain ⟨hlt, hv⟩ := List.getElem?_eq_some_iff.mp hi
  have hperm : items.Perm (v :: items.eraseIdx i) := hv ▸ (getElem_cons_eraseIdx_perm hlt).symm
  refine ⟨(items.eraseIdx i).map (fun v => (k, v)) ++ rest, ?_, ?_⟩
  · exact hentries.trans ((hperm.map _).append_right _)
  · refine (halter f).trans ?_
    rw [hf, map_append, append_assoc]
    exact perm_middle

theorem entries_removeAt (h : m.get? k = some items) (hi : items[i]? = some v) :
    m.entries.Perm ((k, v) :: (m.removeAt k i).entries) := by
  obtain ⟨rest, hentries, halter, hremove⟩ := exists_entries h
  obtain ⟨hlt, hv⟩ := List.getElem?_eq_some_iff.mp hi
  have hperm : items.Perm (v :: items.eraseIdx i) := hv ▸ (getElem_cons_eraseIdx_perm hlt).symm
  have htaken : m.entries.Perm ((k, v) :: ((items.eraseIdx i).map (fun v => (k, v)) ++ rest)) :=
    hentries.trans ((hperm.map _).append_right _)
  refine htaken.trans (List.Perm.cons _ ?_)
  rw [removeAt, get?_alter h]
  split_ifs with hempty
  · have hnil : items.eraseIdx i = [] := isEmpty_iff.mp hempty
    rw [hnil]
    exact (hremove _).symm
  · exact (halter fun items => items.eraseIdx i).symm

theorem entries_push : (m.push k v).entries.Perm ((k, v) :: m.entries) := by
  unfold push
  split
  case h_1 items h =>
    obtain ⟨rest, hentries, halter, -⟩ := exists_entries h
    refine (halter _).trans ?_
    rw [map_append, append_assoc]
    exact perm_middle.trans (hentries.symm.cons _)
  case h_2 h =>
    show List.Perm (flat (m.buckets ++ [(k, [v])])) _
    rw [flat_append]
    exact perm_append_comm

/-! ### Empty buckets -/

theorem Trim.alter (h : m.Trim) (hf : ∀ items, m.get? k = some items → f items ≠ []) : (m.alter k f).Trim := by
  intro b hb
  obtain ⟨b, hmem, rfl⟩ := mem_map.mp hb
  split_ifs with hk
  · exact hf b.2 (get?_of_mem (hk ▸ hmem))
  · exact h b hmem

theorem Trim.push (h : m.Trim) : (m.push k v).Trim := by
  unfold Buckets.push
  split
  case h_1 items _ => exact h.alter fun items _ => append_ne_nil_of_right_ne_nil _ (cons_ne_nil _ _)
  case h_2 _ =>
    intro b hb
    rcases mem_append.mp hb with hb | hb
    · exact h b hb
    · rw [mem_singleton.mp hb]
      exact cons_ne_nil _ _

theorem Trim.removeAt (h : m.Trim) : (m.removeAt k i).Trim := by
  unfold Buckets.removeAt
  dsimp only
  split_ifs with hempty
  · -- only the bucket of `k` was changed, and it is gone
    intro b hb
    obtain ⟨haltered, hk⟩ := mem_filter.mp hb
    obtain ⟨b, hmem, rfl⟩ := mem_map.mp haltered
    rw [if_neg (of_decide_eq_true hk)]
    exact h b hmem
  · refine h.alter fun items hget hnil => hempty ?_
    rw [get?_alter hget, hnil]
    rfl

end Buckets

end McpToolkit.Lib
