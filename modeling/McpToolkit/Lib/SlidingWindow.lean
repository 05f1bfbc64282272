import Mathlib.Data.List.Basic

/-!
# McpToolkit.Lib.SlidingWindow — at most so many in any span of time

A window keeps the times of the last admissions; before each decision those that are a full span old are dropped from
its front, and something is admitted if fewer than `limit` are left.  `Log` relates the window to all admissions so far.
It gives the rate for every position of the interval (`WithinRate`), and for a closed window the first moment at which it
opens, which is also the first one at which the rate allows another admission (`Log.opens_iff`, `Log.rate_iff`).
-/

namespace McpToolkit.Lib.SlidingWindow

open List

/-- What is left of a window. -/
def pruned (span : ℕ) (window : List ℕ) (now : ℕ) : List ℕ := window.dropWhile fun t => t + span ≤ now

/-- At most `limit` of the times lie in any half-open interval of the length `span`. -/
def WithinRate (limit span : ℕ) (times : List ℕ) : Prop :=
  ∀ a, (times.filter fun t => a ≤ t ∧ t < a + span).length ≤ limit

/-- The admissions so far, and the window at a moment that none of them is after. -/
structure Log (limit span : ℕ) (times window : List ℕ) (now : ℕ) : Prop where
  rate : WithinRate limit span times
  kept : ∃ old, times = old ++ window ∧ ∀ t ∈ old, t + span ≤ now
  sorted : times.Pairwise (· ≤ ·)
  past : ∀ t ∈ times, t ≤ now
  room : window.length ≤ limit

variable {limit span now now' first : ℕ} {times window : List ℕ}

theorem exists_pruned (span : ℕ) (window : List ℕ) (now : ℕ) :
    ∃ old, window = old ++ pruned span window now ∧ ∀ t ∈ old, t + span ≤ now := by
  refine ⟨window.takeWhile fun t => t + span ≤ now, takeWhile_append_dropWhile.symm, fun t ht => ?_⟩
  have hold := all_eq_true.mp (all_takeWhile) t ht
  exact of_decide_eq_true hold

theorem lt_of_head?_pruned (h : (pruned span window now).head? = some first) : now < first + span := by
  have hfirst := head?_dropWhile_not (fun t => decide (t + span ≤ now)) window
  rw [pruned] at h
  rw [h] at hfirst
  simp at hfirst
  omega

namespace Log

theorem empty (limit span now : ℕ) : Log limit span [] [] now where
  rate _ := Nat.zero_le limit
  kept := ⟨[], rfl, fun _ ht => absurd ht not_mem_nil⟩
  sorted := List.Pairwise.nil
  past _ ht := absurd ht not_mem_nil
  room := Nat.zero_le limit

section

variable (h : Log limit span times window now)
include h

theorem later (hle : now ≤ now') : Log limit span times window now' where
  rate := h.rate
  kept := by
    obtain ⟨old, htimes, hold⟩ := h.kept
    exact ⟨old, htimes, fun t ht => Nat.le_trans (hold t ht) hle⟩
  sorted := h.sorted
  past t ht := Nat.le_trans (h.past t ht) hle
  room := h.room

theorem prune : Log limit span times (pruned span window now) now where
  rate := h.rate
  kept := by
    obtain ⟨old, htimes, hold⟩ := h.kept
    obtain ⟨dropped, hwindow, hdropped⟩ := exists_pruned span window now
    refine ⟨old ++ dropped, ?_, fun t ht => ?_⟩
    · rw [append_assoc, ← hwindow, htimes]
    · exact (mem_append.mp ht).elim (hold t) (hdropped t)
  sorted := h.sorted
  past := h.past
  room := Nat.le_trans (dropWhile_sublist _).length_le h.room

theorem length_filter_le {a : ℕ} (ha : now < a + span) :
    (times.filter fun t => a ≤ t ∧ t < a + span).length ≤ window.length := by
  obtain ⟨old, rfl, hold⟩ := h.kept
  have hnone : old.filter (fun t => a ≤ t ∧ t < a + span) = [] := by
    rw [filter_eq_nil_iff]
    intro t ht
    have := hold t ht
    simp
    omega
  rw [filter_append, hnone]
  exact List.length_filter_le _ _

theorem rate_concat (hopen : window.length < limit) : WithinRate limit span (times ++ [now]) := by
  intro a
  rw [filter_append, length_append]
  by_cases hin : a ≤ now ∧ now < a + span
  · have hle := h.length_filter_le hin.2
    rw [filter_cons, if_pos (decide_eq_true hin), filter_nil, length_singleton]
    omega
  · rw [filter_cons, if_neg fun h => hin (of_decide_eq_true h), filter_nil]
    exact h.rate a

theorem append (hopen : window.length < limit) : Log limit span (times ++ [now]) (window ++ [now]) now where
  rate := h.rate_concat hopen
  kept := by
    obtain ⟨old, rfl, hold⟩ := h.kept
    exact ⟨old, append_assoc _ _ _, hold⟩
  sorted := by
    refine pairwise_append.mpr ⟨h.sorted, pairwise_singleton _ _, fun t ht u hu => ?_⟩
    rw [mem_singleton.mp hu]
    exact h.past t ht
  past t ht := by
    rcases mem_append.mp ht with ht | ht
    · exact h.past t ht
    · exact Nat.le_of_eq (mem_singleton.mp ht)
  room := by
    rw [length_append, length_singleton]
    omega

end

variable {rest : List ℕ}

/-- **The window opens** when its front is a full span old, not before. -/
theorem opens_iff (h : Log limit span times (first :: rest) now) (hclosed : limit ≤ (first :: rest).length) :
    (pruned span (first :: rest) now').length < limit ↔ first + span ≤ now' := by
  constructor
  · intro hopen
    by_contra hlt
    rw [pruned, dropWhile_cons_of_neg (by simpa using hlt)] at hopen
    omega
  · intro hle
    have hroom := h.room
    rw [pruned, dropWhile_cons_of_pos (by simpa using hle)]
    refine Nat.lt_of_le_of_lt (dropWhile_sublist _).length_le ?_
    simp only [length_cons] at hroom
    omega

/-- **The rate allows** another admission at the same moment. -/
theorem rate_iff (h : Log limit span times (first :: rest) now) (hclosed : limit ≤ (first :: rest).length)
    (hle : now ≤ now') : WithinRate limit span (times ++ [now']) ↔ first + span ≤ now' := by
  constructor
  · intro hrate
    by_contra hlt
    -- the window and the new one lie in the span that begins with its front
    have hfirst := hrate first
    have hwindow : ∀ t ∈ first :: rest, decide (first ≤ t ∧ t < first + span) = true := by
      intro t ht
      obtain ⟨old, rfl, -⟩ := h.kept
      have hsorted := (pairwise_append.mp h.sorted).2.1
      have hpast := h.past t (mem_append_right _ ht)
      have hmin : first ≤ t := by
        rcases mem_cons.mp ht with rfl | ht
        · exact Nat.le_refl _
        · exact (pairwise_cons.mp hsorted).1 t ht
      exact decide_eq_true ⟨hmin, by omega⟩
    have hnow : decide (first ≤ now' ∧ now' < first + span) = true := by
      obtain ⟨old, rfl, -⟩ := h.kept
      have hpast := h.past first (mem_append_right _ mem_cons_self)
      exact decide_eq_true ⟨Nat.le_trans hpast hle, by omega⟩
    obtain ⟨old, rfl, -⟩ := h.kept
    rw [filter_append, filter_append, filter_eq_self.mpr hwindow,
      filter_cons, if_pos hnow, filter_nil, length_append, length_append,
      length_singleton] at hfirst
    omega
  · intro hopen
    have hlater := (h.later hle).prune
    exact hlater.rate_concat ((h.opens_iff hclosed).mpr hopen)

end Log

end McpToolkit.Lib.SlidingWindow
