import Mathlib.Data.List.Chain
import McpToolkit.Lib.Segments

/-!
# McpToolkit.Core.GuardedAction — plan identifiers of guarded actions

`GuardedActionPlanSeed` of `guarded_action.rs`.  Texts are lists of characters.  A segment of an
identifier is normalised: only `a`–`z`, `0`–`9`, `.`, `_` and `-`, no two dashes in a row, and no
dash at the ends.  `Segment` carries that.

The identifier joins three segments with dots, and a segment may have dots itself.  Whether another
seed has the same identifier depends on the dots that could separate segments: those with no dash
beside them (`stablePlanId_unique_iff`).
-/

namespace McpToolkit.Core

open List
open Lib
open Lib.Text

inductive GuardedActionError
  | emptyField (field : String)
  deriving DecidableEq

/-! ### Segments -/

/-- The match in the loop of `normalize_segment`. -/
def mappedChar (c : Char) : Char :=
  if ('a' ≤ c && c ≤ 'z') || ('0' ≤ c && c ≤ '9') then c
  else if 'A' ≤ c && c ≤ 'Z' then c.toLower
  else if c == '.' || c == '_' then c
  else '-'

/-- `normalize_segment` before the check for an empty result.  The loop drops a dash after a dash. -/
def normalizedText (value : List Char) : List Char :=
  trimBy (· == '-') (Segments.collapse '-' false ((trim value).map mappedChar))

/-- No character that normalisation changes, and no dash after a dash. -/
def Clean (s : List Char) : Prop :=
  (∀ c ∈ s, mappedChar c = c) ∧ s.IsChain fun c d => ¬(c = '-' ∧ d = '-')

structure Normal (s : List Char) : Prop where
  ne_nil : s ≠ []
  clean : Clean s
  head : s.head? ≠ some '-'
  last : s.getLast? ≠ some '-'

-- The characters of the text are tried, not all characters.
instance : DecidablePred Clean := fun s =>
  @instDecidableAnd _ _ (List.decidableBAll (fun c => mappedChar c = c) s) inferInstance

instance : DecidablePred Normal := fun s =>
  decidable_of_iff (s ≠ [] ∧ Clean s ∧ s.head? ≠ some '-' ∧ s.getLast? ≠ some '-')
    ⟨fun h => ⟨h.1, h.2.1, h.2.2.1, h.2.2.2⟩, fun h => ⟨h.ne_nil, h.clean, h.head, h.last⟩⟩

/-! ### Normalisation -/

theorem mappedChar_of_not_ascii {c : Char} (h : ¬c.toNat < 128) : mappedChar c = '-' := by
  have hle : ∀ d : Char, d.toNat < 128 → decide (c ≤ d) = false := by
    intro d hd
    refine decide_eq_false fun hcd => ?_
    have hcd' : c.toNat ≤ d.toNat := hcd
    omega
  have hne : ∀ d : Char, d.toNat < 128 → (c == d) = false := by
    intro d hd
    rw [beq_eq_false_iff_ne]
    rintro rfl
    exact h hd
  unfold mappedChar
  rw [hle 'z' (by decide), hle '9' (by decide), hle 'Z' (by decide), hne '.' (by decide), hne '_' (by decide)]
  simp

theorem mappedChar_mappedChar (c : Char) : mappedChar (mappedChar c) = mappedChar c := by
  by_cases hascii : c.toNat < 128
  · exact forall_ascii (P := fun c => mappedChar (mappedChar c) = mappedChar c) (by decide) hascii
  · rw [mappedChar_of_not_ascii hascii]
    decide

theorem isWhitespace_of_mappedChar {c : Char} (h : mappedChar c = c) : isWhitespace c = false := by
  by_cases hascii : c.toNat < 128
  · exact forall_ascii (P := fun c => mappedChar c = c → isWhitespace c = false) (by decide) hascii h
  · rw [mappedChar_of_not_ascii hascii] at h
    rw [← h] at hascii
    exact absurd (by decide) hascii

theorem isChain_collapse (l : List Char) : (Segments.collapse '-' false l).IsChain (fun c d => ¬(c = '-' ∧ d = '-')) ∧
      (Segments.collapse '-' true l).IsChain (fun c d => ¬(c = '-' ∧ d = '-')) ∧
        (Segments.collapse '-' true l).head? ≠ some '-' := by
  induction l with
  | nil => simp [Segments.collapse]
  | cons c l ih =>
    obtain ⟨hfalse, htrue, hhead⟩ := ih
    unfold Segments.collapse
    by_cases hc : c = '-'
    · rw [if_pos hc, if_pos hc, if_neg Bool.false_ne_true, if_pos rfl]
      refine ⟨isChain_cons.mpr ⟨fun d hd hdash => hhead ?_, htrue⟩, htrue, hhead⟩
      exact hd.trans (congrArg some hdash.2)
    · rw [if_neg hc, if_neg hc]
      have hchain := isChain_cons.mpr ⟨fun d _ (hdash : c = '-' ∧ d = '-') => hc hdash.1, hfalse⟩
      exact ⟨hchain, hchain, fun hsome => hc (Option.some.inj hsome)⟩

theorem collapse_eq_self {l : List Char} (h : l.IsChain fun c d => ¬(c = '-' ∧ d = '-')) :
    Segments.collapse '-' false l = l ∧ (l.head? ≠ some '-' → Segments.collapse '-' true l = l) := by
  induction l with
  | nil => exact ⟨rfl, fun _ => rfl⟩
  | cons c l ih =>
    obtain ⟨hnext, hl⟩ := isChain_cons.mp h
    obtain ⟨hfalse, htrue⟩ := ih hl
    unfold Segments.collapse
    by_cases hc : c = '-'
    · have hhead : l.head? ≠ some '-' := fun hd => hnext '-' hd ⟨hc, rfl⟩
      rw [if_pos hc, if_pos hc, if_neg Bool.false_ne_true, htrue hhead]
      exact ⟨rfl, fun hne => absurd (congrArg some hc) hne⟩
    · rw [if_neg hc, if_neg hc, hfalse]
      exact ⟨rfl, fun _ => rfl⟩

theorem mem_of_mem_collapse {c d : Char} {b : Bool} {l : List Char} (h : c ∈ Segments.collapse d b l) : c ∈ l := by
  induction l generalizing b with
  | nil => exact h
  | cons e l ih =>
    unfold Segments.collapse at h
    split_ifs at h
    · exact mem_cons_of_mem _ (ih h)
    · exact (mem_cons.mp h).elim (fun h => h ▸ mem_cons_self) fun h => mem_cons_of_mem _ (ih h)
    · exact (mem_cons.mp h).elim (fun h => h ▸ mem_cons_self) fun h => mem_cons_of_mem _ (ih h)

theorem normal_normalizedText {value : List Char} (h : normalizedText value ≠ []) : Normal (normalizedText value) := by
  obtain ⟨u, v, hwhole, -, -⟩ :=
    trimBy_eq (· == '-') (Segments.collapse '-' false ((trim value).map mappedChar))
  refine ⟨h, ⟨fun c hc => ?_, ?_⟩, fun hhead => ?_, fun hlast => ?_⟩
  · obtain ⟨d, -, rfl⟩ := mem_map.mp (mem_of_mem_collapse (mem_of_mem_trimBy hc))
    exact mappedChar_mappedChar d
  · have hchain := (isChain_collapse ((trim value).map mappedChar)).1
    rw [hwhole] at hchain
    exact hchain.left_of_append.right_of_append
  · have hends := head?_trimBy_any (· == '-') (Segments.collapse '-' false ((trim value).map mappedChar))
    rw [← normalizedText, hhead] at hends
    cases hends
  · have hends := getLast?_trimBy_any (· == '-') (Segments.collapse '-' false ((trim value).map mappedChar))
    rw [← normalizedText, hlast] at hends
    cases hends

theorem Normal.normalizedText_eq {s : List Char} (h : Normal s) : normalizedText s = s := by
  have hspace : ∀ c ∈ s, isWhitespace c = false := fun c hc => isWhitespace_of_mappedChar (h.clean.1 c hc)
  have htrim : trim s = s := by
    refine trimBy_eq_self ?_ ?_
    · cases hc : s.head? with
      | none => rfl
      | some c => exact hspace c (mem_of_mem_head? hc)
    · cases hc : s.getLast? with
      | none => rfl
      | some c => exact hspace c (mem_of_mem_getLast? hc)
  have hmap : s.map mappedChar = s := (map_congr_left h.clean.1).trans (map_id' s)
  rw [normalizedText, htrim, hmap, (collapse_eq_self h.clean.2).1]
  refine trimBy_eq_self ?_ ?_
  · cases hc : s.head? with
    | none => rfl
    | some c => exact beq_eq_false_iff_ne.mpr fun hdash => h.head (hc.trans (congrArg some hdash))
  · cases hc : s.getLast? with
    | none => rfl
    | some c => exact beq_eq_false_iff_ne.mpr fun hdash => h.last (hc.trans (congrArg some hdash))

/-! ### Seeds and their identifiers -/

structure Segment where
  text : List Char
  normal : Normal text

@[ext] theorem Segment.ext {s s' : Segment} (h : s.text = s'.text) : s = s' := by
  cases s'
  cases h
  rfl

def normalizeSegment (field : String) (value : List Char) : Except GuardedActionError Segment :=
  if h : normalizedText value = [] then .error (.emptyField field)
  else .ok ⟨normalizedText value, normal_normalizedText h⟩

@[ext] structure GuardedActionPlanSeed where
  action : Segment
  scope : Segment
  target : Segment

namespace GuardedActionPlanSeed

def new (action scope target : List Char) : Except GuardedActionError GuardedActionPlanSeed := do
  let action ← normalizeSegment "action" action
  let scope ← normalizeSegment "scope" scope
  let target ← normalizeSegment "target" target
  return ⟨action, scope, target⟩

def stablePlanId (seed : GuardedActionPlanSeed) : List Char :=
  "gap.".toList ++ seed.action.text ++ '.' :: (seed.scope.text ++ '.' :: seed.target.text)

end GuardedActionPlanSeed

theorem new_segments (seed : GuardedActionPlanSeed) :
    GuardedActionPlanSeed.new seed.action.text seed.scope.text seed.target.text = .ok seed := by
  have hsegment : ∀ (field : String) (s : Segment), normalizeSegment field s.text = .ok s := by
    intro field s
    have hne : normalizedText s.text ≠ [] := by
      rw [s.normal.normalizedText_eq]
      exact s.normal.ne_nil
    rw [normalizeSegment, dif_neg hne]
    exact congrArg Except.ok (Segment.ext s.normal.normalizedText_eq)
  rw [GuardedActionPlanSeed.new, hsegment, hsegment, hsegment]
  rfl

/-! ### Cutting a text at a dot -/

/-- A dash stands beside the dot between these two texts. -/
def Dashed (u v : List Char) : Prop := u.getLast? = some '-' ∨ v.head? = some '-'

variable {u v s t : List Char}

theorem clean_append_dot : Clean (u ++ '.' :: v) ↔ Clean u ∧ Clean v := by
  unfold Clean
  rw [isChain_append, isChain_cons, forall_mem_append, forall_mem_cons]
  constructor
  · rintro ⟨⟨hu, -, hv⟩, hcu, ⟨-, hcv⟩, -⟩
    exact ⟨⟨hu, hcu⟩, hv, hcv⟩
  · rintro ⟨⟨hu, hcu⟩, hv, hcv⟩
    refine ⟨⟨hu, by decide, hv⟩, hcu, ⟨fun d _ hdash => ?_, hcv⟩, fun c _ d hd hdash => ?_⟩
    · exact absurd hdash.1 (by decide)
    · rw [hdash.2] at hd
      exact absurd hd (by simp)

theorem head?_append_dot : (u ++ '.' :: v).head? = some '-' ↔ u.head? = some '-' := by
  cases u with
  | nil => simp
  | cons c u => rfl

theorem getLast?_append_dot : (u ++ '.' :: v).getLast? = some '-' ↔ v.getLast? = some '-' := by
  rw [getLast?_append_of_ne_nil _ (cons_ne_nil _ _)]
  cases v with
  | nil => simp
  | cons c v => rw [getLast?_cons_cons]

theorem normal_append_dot :
    Normal (u ++ '.' :: v) ↔ Clean u ∧ Clean v ∧ u.head? ≠ some '-' ∧ v.getLast? ≠ some '-' := by
  constructor
  · intro h
    obtain ⟨hu, hv⟩ := clean_append_dot.mp h.clean
    exact ⟨hu, hv, mt head?_append_dot.mpr h.head, mt getLast?_append_dot.mpr h.last⟩
  · rintro ⟨hu, hv, hhead, hlast⟩
    exact ⟨by simp, clean_append_dot.mpr ⟨hu, hv⟩, mt head?_append_dot.mp hhead, mt getLast?_append_dot.mp hlast⟩

theorem Normal.dot_append (h : Normal (u ++ '.' :: v)) (hs : Normal s) (hdash : v.head? ≠ some '-') :
    Normal (v ++ '.' :: s) := by
  obtain ⟨-, hv, -, -⟩ := normal_append_dot.mp h
  exact normal_append_dot.mpr ⟨hv, hs.clean, hdash, hs.last⟩

theorem Normal.append_dot (hs : Normal s) (h : Normal (u ++ '.' :: v)) (hdash : u.getLast? ≠ some '-') :
    Normal (s ++ '.' :: u) := by
  obtain ⟨hu, -, -, -⟩ := normal_append_dot.mp h
  exact normal_append_dot.mpr ⟨hs.clean, hu, hs.head, hdash⟩

theorem Normal.left (h : Normal (u ++ '.' :: v)) (hne : u ≠ []) (hdash : u.getLast? ≠ some '-') : Normal u := by
  obtain ⟨hu, -, hhead, -⟩ := normal_append_dot.mp h
  exact ⟨hne, hu, hhead, hdash⟩

theorem Normal.right (h : Normal (u ++ '.' :: v)) (hne : v ≠ []) (hdash : v.head? ≠ some '-') : Normal v := by
  obtain ⟨-, hv, -, hlast⟩ := normal_append_dot.mp h
  exact ⟨hne, hv, hdash, hlast⟩

theorem head?_ne_of_append (hs : Normal s) (h : v ++ '.' :: t = s ++ '.' :: u) : v.head? ≠ some '-' := by
  intro hdash
  have hhead := head?_append_dot (v := t) |>.mpr hdash
  rw [h, head?_append_dot] at hhead
  exact hs.head hhead

/-! ### When the identifier is unique -/

/-- No dot of the segments can separate segments: a dash stands beside it, or it is the first
character of the action or the last of the target; or it is all of the scope. -/
structure Settled (seed : GuardedActionPlanSeed) : Prop where
  action : ∀ u v, seed.action.text = u ++ '.' :: v → u = [] ∨ Dashed u v
  scope : seed.scope.text = ['.'] ∨ ∀ u v, seed.scope.text = u ++ '.' :: v → Dashed u v
  target : ∀ u v, seed.target.text = u ++ '.' :: v → v = [] ∨ Dashed u v

theorem stablePlanId_eq {p q : GuardedActionPlanSeed}
    (h : p.action.text ++ '.' :: (p.scope.text ++ '.' :: p.target.text) =
      q.action.text ++ '.' :: (q.scope.text ++ '.' :: q.target.text)) : p.stablePlanId = q.stablePlanId := by
  rw [GuardedActionPlanSeed.stablePlanId, GuardedActionPlanSeed.stablePlanId, append_assoc, h, append_assoc]

/-- A dot that can separate segments gives another seed with the same identifier. -/
theorem settled_of_unique {p : GuardedActionPlanSeed}
    (h : ∀ q : GuardedActionPlanSeed, q.stablePlanId = p.stablePlanId → q = p) : Settled p where
  action u v ha := by
    by_contra hloose
    obtain ⟨hne, hdash⟩ := not_or.mp hloose
    obtain ⟨hu, hv⟩ := not_or.mp hdash
    have hnormal := p.action.normal
    rw [ha] at hnormal
    have hq := h ⟨⟨u, hnormal.left hne hu⟩, ⟨_, hnormal.dot_append p.scope.normal hv⟩, p.target⟩
      (stablePlanId_eq (by rw [ha]; simp))
    have haction : u = u ++ '.' :: v := (congrArg (fun q => q.action.text) hq).trans ha
    simp at haction
  scope := by
    by_contra hloose
    obtain ⟨hdot, hcut⟩ := not_or.mp hloose
    push Not at hcut
    obtain ⟨u, v, hs, hdash⟩ := hcut
    obtain ⟨hu, hv⟩ := not_or.mp hdash
    have hnormal := p.scope.normal
    rw [hs] at hnormal
    by_cases hne : u = []
    · have hvne : v ≠ [] := fun hv => hdot (by rw [hs, hne, hv]; rfl)
      have haction : Normal (p.action.text ++ '.' :: u) := p.action.normal.append_dot hnormal hu
      have hq := h ⟨⟨_, haction⟩, ⟨v, hnormal.right hvne hv⟩, p.target⟩
        (stablePlanId_eq (by rw [hs]; simp))
      have hlonger : p.action.text ++ '.' :: u = p.action.text := congrArg (fun q => q.action.text) hq
      simp at hlonger
    · have hq := h ⟨p.action, ⟨u, hnormal.left hne hu⟩, ⟨_, hnormal.dot_append p.target.normal hv⟩⟩
        (stablePlanId_eq (by rw [hs]; simp))
      have hscope : u = u ++ '.' :: v := (congrArg (fun q => q.scope.text) hq).trans hs
      simp at hscope
  target u v ht := by
    by_contra hloose
    obtain ⟨hne, hdash⟩ := not_or.mp hloose
    obtain ⟨hu, hv⟩ := not_or.mp hdash
    have hnormal := p.target.normal
    rw [ht] at hnormal
    have hq := h ⟨p.action, ⟨_, p.scope.normal.append_dot hnormal hu⟩, ⟨v, hnormal.right hne hv⟩⟩
      (stablePlanId_eq (by rw [ht]; simp))
    have hlonger : p.scope.text ++ '.' :: u = p.scope.text := congrArg (fun q => q.scope.text) hq
    simp at hlonger

section Unique

variable {p q : GuardedActionPlanSeed} (h : Settled p)
include h

theorem Settled.target_not_cut (hu : u.getLast? ≠ some '-') : p.target.text ≠ u ++ '.' :: q.target.text := by
  intro ht
  rcases h.target _ _ ht with hnil | hlast | hhead
  · exact q.target.normal.ne_nil hnil
  · exact hu hlast
  · exact q.target.normal.head hhead

theorem Settled.scope_unique (heq : p.scope.text ++ '.' :: p.target.text = q.scope.text ++ '.' :: q.target.text) :
    p.scope.text = q.scope.text ∧ p.target.text = q.target.text := by
  rcases append_cons_eq_append_cons heq with heq | ⟨w, hs, ht⟩ | ⟨w, hs, ht⟩
  · exact heq
  · exfalso
    rcases h.scope with hdot | hcut
    · rw [hdot] at hs
      have hlength := congrArg List.length hs
      have hpos := length_pos_of_ne_nil q.scope.normal.ne_nil
      simp at hlength
      omega
    · rcases hcut _ _ hs with hlast | hhead
      · exact q.scope.normal.last hlast
      · have hne := q.target.normal.head
        rw [ht] at hne
        exact hne (head?_append_dot.mpr hhead)
  · refine absurd ht (h.target_not_cut ?_)
    have hlast := q.scope.normal.last
    rw [hs] at hlast
    exact mt getLast?_append_dot.mpr hlast

/-- The action of the other seed is not longer. -/
theorem Settled.action_not_longer {w : List Char} (ha : q.action.text = p.action.text ++ '.' :: w)
    (heq : p.scope.text ++ '.' :: p.target.text = w ++ '.' :: (q.scope.text ++ '.' :: q.target.text)) : False := by
  have hw : w.getLast? ≠ some '-' := by
    have hlast := q.action.normal.last
    rw [ha] at hlast
    exact mt getLast?_append_dot.mpr hlast
  rcases append_cons_eq_append_cons heq with ⟨-, ht⟩ | ⟨x, hs, ht⟩ | ⟨x, -, ht⟩
  · exact h.target_not_cut q.scope.normal.last ht
  · rcases h.scope with hdot | hcut
    · -- the scope is a single dot, so the scope of the other seed starts with the second separator
      rw [hdot] at hs
      have hx : x = [] := by
        have hlength := congrArg List.length hs
        simp at hlength
        exact length_eq_zero_iff.mp (by omega)
      rw [hx, nil_append] at ht
      cases hq : q.scope.text with
      | nil => exact q.scope.normal.ne_nil hq
      | cons c y =>
        rw [hq, cons_append, List.cons.injEq] at ht
        refine h.target_not_cut ?_ ht.2.symm
        have hlast := q.scope.normal.last
        rw [hq, ht.1] at hlast
        exact fun hy => hlast (getLast?_append_dot (u := []) |>.mpr hy)
    · rcases hcut _ _ hs with hlast | hhead
      · exact hw hlast
      · exact head?_ne_of_append q.scope.normal ht.symm hhead
  · have hcut : p.target.text = (x ++ '.' :: q.scope.text) ++ '.' :: q.target.text := by
      rw [ht, append_assoc, cons_append]
    exact h.target_not_cut (mt getLast?_append_dot.mp q.scope.normal.last) hcut

theorem Settled.unique (hid : q.stablePlanId = p.stablePlanId) : q = p := by
  unfold GuardedActionPlanSeed.stablePlanId at hid
  rw [append_assoc] at hid
  have heq := (append_cancel_left hid).symm
  rcases append_cons_eq_append_cons heq with ⟨ha, hrest⟩ | ⟨w, ha, hrest⟩ | ⟨w, ha, hrest⟩
  · obtain ⟨hs, ht⟩ := h.scope_unique hrest
    exact GuardedActionPlanSeed.ext (Segment.ext ha.symm) (Segment.ext hs.symm) (Segment.ext ht.symm)
  · exfalso
    rcases h.action _ _ ha with hnil | hlast | hhead
    · exact q.action.normal.ne_nil hnil
    · exact q.action.normal.last hlast
    · exact head?_ne_of_append q.scope.normal hrest.symm hhead
  · exact (h.action_not_longer ha hrest).elim

end Unique

/-- **When a plan identifier stands for one seed only**: exactly if no dot of its segments could
separate segments. -/
theorem stablePlanId_unique_iff (p : GuardedActionPlanSeed) :
    (∀ q : GuardedActionPlanSeed, q ≠ p → q.stablePlanId ≠ p.stablePlanId) ↔ Settled p := by
  constructor
  · intro h
    exact settled_of_unique fun q hid => by_contra fun hne => h q hne hid
  · intro h q hne hid
    exact hne (h.unique hid)

/-- The action `a.b` on the scope `c`, and the action `a` on the scope `b.c`. -/
def dottedAction : GuardedActionPlanSeed :=
  ⟨⟨"a.b".toList, by decide⟩, ⟨"c".toList, by decide⟩, ⟨"d".toList, by decide⟩⟩

@[inherit_doc dottedAction]
def dottedScope : GuardedActionPlanSeed :=
  ⟨⟨"a".toList, by decide⟩, ⟨"b.c".toList, by decide⟩, ⟨"d".toList, by decide⟩⟩

theorem stablePlanId_not_injective : ¬∀ p q : GuardedActionPlanSeed, p ≠ q → p.stablePlanId ≠ q.stablePlanId := by
  intro h
  refine h dottedAction dottedScope (fun heq => ?_) (by decide)
  have haction : "a.b".toList = "a".toList := congrArg (fun p => p.action.text) heq
  exact absurd haction (by decide)

end McpToolkit.Core
