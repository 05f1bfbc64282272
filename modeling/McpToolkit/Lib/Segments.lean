import McpToolkit.Lib.Text

/-!
# McpToolkit.Lib.Segments — texts as lists of segments

The segments of a text are the pieces between separators that are not empty.  `collapse` drops
repeated separators; what it leaves is the joined segments, with one separator at the end if the
text had any there.  So a text with a separator in front is followed by another, segment by segment,
exactly if its segments are a prefix of the other's (`collapse_covered_iff`).
-/

namespace McpToolkit.Lib.Segments

open List
open Text

variable {α : Type} [DecidableEq α] (sep : α)

def segments (l : List α) : List (List α) :=
  (splitOnP (· == sep) l).filter fun s => !s.isEmpty

def join (segs : List (List α)) : List α := List.intercalate [sep] segs

/-- The loop that drops repeated separators; the flag says that one was just read. -/
def collapse : Bool → List α → List α
  | _, [] => []
  | afterSep, c :: l =>
    if c = sep then if afterSep then collapse true l else c :: collapse true l
    else c :: collapse false l

/-- A segment has a symbol and no separator. -/
def IsSegment (s : List α) : Prop := s ≠ [] ∧ sep ∉ s

variable {sep}

@[simp] theorem segments_nil : segments sep [] = [] := rfl

theorem segments_append_cons (a b : List α) : segments sep (a ++ sep :: b) = segments sep a ++ segments sep b := by
  have hsplit := splitOnP_append_cons (p := (· == sep)) a b (beq_self_eq_true sep)
  rw [segments, hsplit, filter_append]
  rfl

@[simp] theorem segments_cons_sep (l : List α) : segments sep (sep :: l) = segments sep l :=
  segments_append_cons [] l

@[simp] theorem segments_concat_sep (l : List α) : segments sep (l ++ [sep]) = segments sep l := by
  rw [segments_append_cons, segments_nil, append_nil]

variable {l s : List α} {c : α} {ss : List (List α)}

theorem segments_of_isSegment (h : IsSegment sep s) : segments sep s = [s] := by
  have hkeep : (!s.isEmpty) = true := by simp [isEmpty_eq_false_iff.mpr h.1]
  rw [segments, ← splitOn_eq_splitOnP, splitOn_eq_singleton h.2, filter_cons, if_pos hkeep, filter_nil]

theorem segments_cons_cons {d : α} (hc : c ≠ sep) (hd : d ≠ sep) (h : segments sep (d :: l) = s :: ss) :
    segments sep (c :: d :: l) = (c :: s) :: ss := by
  have hc' : (c == sep) = false := beq_eq_false_iff_ne.mpr hc
  have hd' : (d == sep) = false := beq_eq_false_iff_ne.mpr hd
  obtain ⟨a, as, ha⟩ := exists_cons_of_ne_nil (splitOnP_ne_nil (· == sep) l)
  have hdl := splitOnP_cons_of_neg (p := (· == sep)) hd' ha
  rw [segments, hdl] at h
  rw [segments, splitOnP_cons_of_neg (p := (· == sep)) hc' hdl, filter_cons_of_pos (by simp),
    (List.cons.inj h).1, (List.cons.inj h).2]

theorem segments_ne_nil_of_head (hc : c ≠ sep) : segments sep (c :: l) ≠ [] := by
  have hc' : (c == sep) = false := beq_eq_false_iff_ne.mpr hc
  obtain ⟨a, as, ha⟩ := exists_cons_of_ne_nil (splitOnP_ne_nil (· == sep) l)
  rw [segments, splitOnP_cons_of_neg (p := (· == sep)) hc' ha]
  exact cons_ne_nil _ _

theorem not_mem_of_mem_splitOnP (hs : s ∈ splitOnP (· == sep) l) : sep ∉ s := fun hmem => by
  have hfalse := eq_false_of_mem_splitOnP hs sep hmem
  rw [beq_self_eq_true] at hfalse
  cases hfalse

theorem isSegment_of_mem (h : s ∈ segments sep l) : IsSegment sep s := by
  obtain ⟨hs, hne⟩ := mem_filter.mp h
  refine ⟨?_, not_mem_of_mem_splitOnP hs⟩
  rintro rfl
  cases hne

/-! ### Joining -/

section Join

omit [DecidableEq α]

@[simp] theorem join_nil : join sep [] = [] := rfl

@[simp] theorem join_singleton (s : List α) : join sep [s] = s := by
  simp [join, List.intercalate]

theorem join_cons {s : List α} {ss : List (List α)} (h : ss ≠ []) : join sep (s :: ss) = s ++ sep :: join sep ss := by
  obtain ⟨t, ts, rfl⟩ := exists_cons_of_ne_nil h
  simp [join]

theorem join_append {ss ts : List (List α)} (hs : ss ≠ []) (ht : ts ≠ []) :
    join sep (ss ++ ts) = join sep ss ++ sep :: join sep ts := by
  induction ss with
  | nil => exact absurd rfl hs
  | cons s ss ih =>
    cases ss with
    | nil => rw [singleton_append, join_cons ht, join_singleton]
    | cons s' ss =>
      rw [cons_append, join_cons (by simp), ih (by simp), join_cons (cons_ne_nil s' ss), append_assoc, cons_append]

theorem join_cons_cons (c : α) (s : List α) (ss : List (List α)) :
    join sep ((c :: s) :: ss) = c :: join sep (s :: ss) := by
  cases ss with
  | nil => rw [join_singleton, join_singleton]
  | cons t ts =>
    rw [join_cons (cons_ne_nil t ts), join_cons (cons_ne_nil t ts), cons_append]

end Join

omit [DecidableEq α] in
theorem eq_or_mem_of_mem_join (h : c ∈ join sep ss) : c = sep ∨ ∃ s ∈ ss, c ∈ s := by
  induction ss with
  | nil => exact absurd h (not_mem_nil)
  | cons s ss ih =>
    by_cases hss : ss = []
    · rw [hss, join_singleton] at h
      exact .inr ⟨s, mem_cons_self, h⟩
    · rw [join_cons hss, mem_append, mem_cons] at h
      rcases h with h | h | h
      · exact .inr ⟨s, mem_cons_self, h⟩
      · exact .inl h
      · rcases ih h with h | ⟨t, ht, h⟩
        · exact .inl h
        · exact .inr ⟨t, mem_cons_of_mem s ht, h⟩

theorem segments_join (h : ∀ s ∈ ss, IsSegment sep s) : segments sep (join sep ss) = ss := by
  induction ss with
  | nil => rfl
  | cons s ss ih =>
    rw [forall_mem_cons] at h
    cases ss with
    | nil => rw [join_singleton, segments_of_isSegment h.1]
    | cons s' ss =>
      rw [join_cons (cons_ne_nil s' ss), segments_append_cons, segments_of_isSegment h.1, ih h.2, singleton_append]

/-! ### Collapsing -/

/-- The separator that is left at the end. -/
def trail (sep : α) (l : List α) : List α :=
  if l.getLast? = some sep ∧ segments sep l ≠ [] then [sep] else []

theorem trail_eq_nil_or (l : List α) : trail sep l = [] ∨ trail sep l = [sep] := by
  unfold trail
  split
  · exact .inr rfl
  · exact .inl rfl

theorem getLast?_cons_sep (h : segments sep l = []) : (sep :: l).getLast? = some sep := by
  induction l with
  | nil => rfl
  | cons c l ih =>
    by_cases hc : c = sep
    · subst hc
      rw [segments_cons_sep] at h
      rw [getLast?_cons_cons, ih h]
    · exact absurd h (segments_ne_nil_of_head hc)

theorem trail_cons_sep (l : List α) : trail sep (sep :: l) = trail sep l := by
  cases l with
  | nil => simp [trail]
  | cons d l => rw [trail, trail, segments_cons_sep, getLast?_cons_cons]

theorem trail_cons (hc : c ≠ sep) (hl : segments sep l ≠ []) : trail sep (c :: l) = trail sep l := by
  cases l with
  | nil => exact absurd rfl hl
  | cons d l =>
    rw [trail, trail]
    simp [segments_ne_nil_of_head hc, hl]

theorem segments_single_sep (hc : c ≠ sep) (l : List α) : segments sep (c :: sep :: l) = [c] :: segments sep l := by
  have hseg : IsSegment sep [c] := ⟨cons_ne_nil _ _, by simpa using Ne.symm hc⟩
  have happ : segments sep ([c] ++ sep :: l) = segments sep [c] ++ segments sep l :=
    segments_append_cons [c] l
  rwa [segments_of_isSegment hseg] at happ

/-- **What collapsing leaves**, behind a separator: the segments, and one separator at the end if the
text has one there. -/
theorem collapse_true_eq (l : List α) : collapse sep true l = join sep (segments sep l) ++ trail sep l := by
  induction l with
  | nil => rfl
  | cons c l ih =>
    by_cases hc : c = sep
    · subst hc
      rw [collapse, if_pos rfl, if_pos rfl, ih, segments_cons_sep, trail_cons_sep]
    · cases l with
      | nil =>
        have hseg : IsSegment sep [c] := ⟨cons_ne_nil _ _, by simpa using Ne.symm hc⟩
        rw [segments_of_isSegment hseg, collapse, if_neg hc, join_singleton, trail]
        simp [collapse, hc]
      | cons d l =>
        by_cases hd : d = sep
        · -- the segment ends here; without a further one the separators are the end of the text
          subst hd
          rw [collapse, if_pos rfl, if_pos rfl, segments_cons_sep, trail_cons_sep] at ih
          rw [collapse, if_neg hc, collapse, if_pos rfl, if_neg Bool.false_ne_true, ih, segments_single_sep hc]
          by_cases hl : segments d l = []
          · rw [hl, trail, trail, if_neg fun h => h.2 hl, getLast?_cons_cons, getLast?_cons_sep hl]
            simp [segments_ne_nil_of_head hc]
          · rw [trail_cons hc (by rwa [segments_cons_sep]), trail_cons_sep, join_cons hl]
            rfl
        · have hseg := segments_ne_nil_of_head (l := l) hd
          obtain ⟨s, ss, hs⟩ := exists_cons_of_ne_nil hseg
          rw [collapse, if_neg hd] at ih
          rw [collapse, if_neg hc, collapse, if_neg hd, ih, trail_cons hc hseg,
            segments_cons_cons hc hd hs, join_cons_cons, hs, cons_append]

@[simp] theorem segments_collapse (l : List α) : segments sep (collapse sep true l) = segments sep l := by
  have hjoin : segments sep (join sep (segments sep l)) = segments sep l :=
    segments_join fun _ => isSegment_of_mem
  have htrail : trail sep l = [] ∨ trail sep l = [sep] := trail_eq_nil_or l
  rw [collapse_true_eq]
  rcases htrail with h | h
  · rw [h, append_nil, hjoin]
  · rw [h, segments_concat_sep, hjoin]

theorem collapse_true_of_getLast? (h : l.getLast? ≠ some sep) : collapse sep true l = join sep (segments sep l) := by
  rw [collapse_true_eq, trail, if_neg fun hl => h hl.1, append_nil]

/-- **Prefixes of texts and of segment lists.**  A collapsed text is the joined segments `ss`, or goes
on behind them with a separator, exactly if its segments start with `ss`. -/
theorem collapse_covered_iff (hss : ∀ s ∈ ss, IsSegment sep s) (hne : ss ≠ []) (l : List α) :
    (collapse sep true l = join sep ss ∨ ∃ tail, collapse sep true l = join sep ss ++ sep :: tail) ↔
      ss <+: segments sep l := by
  constructor
  · rintro (h | ⟨tail, h⟩)
    · have heq := congrArg (segments sep) h
      rw [segments_collapse, segments_join hss] at heq
      rw [heq]
    · have heq := congrArg (segments sep) h
      rw [segments_collapse, segments_append_cons, segments_join hss] at heq
      rw [heq]
      exact prefix_append _ _
  · rintro ⟨ts, hts⟩
    rw [collapse_true_eq, ← hts]
    by_cases ht : ts = []
    · rw [ht, append_nil]
      have htrail : trail sep l = [] ∨ trail sep l = [sep] := trail_eq_nil_or l
      rcases htrail with h | h
      · exact .inl (by rw [h, append_nil])
      · exact .inr ⟨[], by rw [h]⟩
    · refine .inr ⟨join sep ts ++ trail sep l, ?_⟩
      rw [join_append hne ht, append_assoc, cons_append]

theorem collapse_false_eq (h : l.head? ≠ some sep) : collapse sep false l = collapse sep true l := by
  cases l with
  | nil => rfl
  | cons c l =>
    have hc : c ≠ sep := fun hc => h (by rw [hc]; rfl)
    rw [collapse, if_neg hc, collapse, if_neg hc]

theorem collapse_false_cons_sep (l : List α) : collapse sep false (sep :: l) = sep :: collapse sep true l := by
  rw [collapse, if_pos rfl, if_neg Bool.false_ne_true]

@[simp] theorem segments_collapse_false (l : List α) : segments sep (collapse sep false l) = segments sep l := by
  by_cases h : l.head? = some sep
  · obtain ⟨l, rfl⟩ := head?_eq_some_iff.mp h
    rw [collapse_false_cons_sep, segments_cons_sep, segments_cons_sep, segments_collapse]
  · rw [collapse_false_eq h, segments_collapse]

theorem segments_eq_nil_iff : segments sep l = [] ↔ ∀ c ∈ l, c = sep := by
  induction l with
  | nil => simp
  | cons c l ih =>
    rw [forall_mem_cons]
    by_cases hc : c = sep
    · subst hc
      rw [segments_cons_sep, ih]
      exact ⟨fun h => ⟨rfl, h⟩, And.right⟩
    · exact ⟨fun h => absurd h (segments_ne_nil_of_head hc), fun h => absurd h.1 hc⟩

theorem segments_trimBy (l : List α) : segments sep (trimBy (· == sep) l) = segments sep l := by
  obtain ⟨u, v, hl, hu, hv⟩ := trimBy_eq (· == sep) l
  have hsplit := congrArg (splitOnP (· == sep)) hl
  rw [splitOnP_append_right hv, splitOnP_append_left hu] at hsplit
  rw [segments, segments, hsplit]
  simp

/-! ### Longest prefixes -/

section LongestPrefix

variable {ι β : Type} {table table' : List (List ι × β)} {l : List ι}

/-- The entry whose key is the longest that is a prefix of `l`, if any is. -/
def LongestPrefix (table : List (List ι × β)) (l : List ι) : Option (List ι × β) → Prop
  | none => ∀ e ∈ table, ¬e.1 <+: l
  | some e => e ∈ table ∧ e.1 <+: l ∧ ∀ e' ∈ table, e'.1 <+: l → e'.1.length ≤ e.1.length

theorem LongestPrefix.of_perm {a : Option (List ι × β)} (h : LongestPrefix table l a)
    (hperm : table.Perm table') : LongestPrefix table' l a := by
  cases a with
  | none => exact fun e he => h e (hperm.mem_iff.mpr he)
  | some e =>
    exact ⟨hperm.mem_iff.mp h.1, h.2.1, fun e' he' => h.2.2 e' (hperm.mem_iff.mpr he')⟩

theorem LongestPrefix.unique (hkeys : ∀ e ∈ table, ∀ e' ∈ table, e.1 = e'.1 → e = e')
    {a b : Option (List ι × β)} (ha : LongestPrefix table l a) (hb : LongestPrefix table l b) : a = b := by
  cases a with
  | none =>
    cases b with
    | none => rfl
    | some e => exact absurd hb.2.1 (ha e hb.1)
  | some e =>
    cases b with
    | none => exact absurd ha.2.1 (hb e ha.1)
    | some e' =>
      obtain ⟨he, hpre, hmax⟩ := ha
      obtain ⟨he', hpre', hmax'⟩ := hb
      have hlen : e.1.length = e'.1.length := le_antisymm (hmax' e he hpre) (hmax e' he' hpre')
      have hkey : e.1 = e'.1 :=
        (prefix_of_prefix_length_le hpre hpre' hlen.le).eq_of_length hlen
      rw [hkeys e he e' he' hkey]

end LongestPrefix

end McpToolkit.Lib.Segments
