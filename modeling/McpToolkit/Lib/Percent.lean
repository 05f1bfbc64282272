import McpToolkit.Lib.Text

/-!
# McpToolkit.Lib.Percent — percent decoding

Texts are lists of UTF-8 bytes.  `decode` replaces every escape `%hl` by the character with that
code point and leaves malformed escapes as they are; a byte outside ASCII is read as the code point
of that number, so it is written with two bytes.  `Escaped v t` says that an escape of `v` stands
somewhere in `t`, whether or not decoding from the left reads it there.

What decoding cannot do without an escape of `v` in the text: write `v` where it was not, or move
the pieces between the bytes `v` (`splitOnP_decode`).
-/

namespace McpToolkit.Lib.Percent

open List
open Text

def percent : UInt8 := 37

def hexValue (b : UInt8) : Option UInt8 :=
  if 48 ≤ b && b ≤ 57 then some (b - 48)
  else if 97 ≤ b && b ≤ 102 then some (b - 97 + 10)
  else if 65 ≤ b && b ≤ 70 then some (b - 65 + 10)
  else none

/-- The byte that two hexadecimal digits stand for. -/
def octet (h l : UInt8) : Option UInt8 := do
  let hi ← hexValue h
  let lo ← hexValue l
  return (hi <<< 4) ||| lo

/-- The UTF-8 bytes of the character with the code point `b`. -/
def latin1 (b : UInt8) : List UInt8 :=
  if b < 128 then [b] else [(0xC0 : UInt8) ||| (b >>> 6), (0x80 : UInt8) ||| (b &&& 0x3F)]

/-- The byte of the escape that starts with `b`, if it is well formed. -/
def escape (b : UInt8) (rest : List UInt8) : Option UInt8 :=
  if b = percent then
    match rest with
    | h :: l :: _ => octet h l
    | _ => none
  else none

def decode : List UInt8 → List UInt8
  | [] => []
  | b :: rest =>
    match escape b rest with
    | none => latin1 b ++ decode rest
    | some v =>
      latin1 v ++
        match rest with
        | _ :: _ :: rest => decode rest
        | _ => []

def Escaped (v : UInt8) (t : List UInt8) : Prop :=
  ∃ u h l w, t = u ++ percent :: h :: l :: w ∧ octet h l = some v

variable {v b : UInt8} {t : List UInt8} {h l : UInt8} {rest : List UInt8}

theorem Escaped.cons (h : Escaped v t) : Escaped v (b :: t) := by
  obtain ⟨u, h, l, w, rfl, hv⟩ := h
  exact ⟨b :: u, h, l, w, rfl, hv⟩

theorem Escaped.of_infix {s : List UInt8} (hst : s <:+: t) (h : Escaped v s) : Escaped v t := by
  obtain ⟨u, h, l, w, rfl, hv⟩ := h
  obtain ⟨a, b, rfl⟩ := hst
  exact ⟨a ++ u, h, l, w ++ b, by simp, hv⟩

/-! ### The two ways to read the front of a text -/

theorem decode_nil : decode [] = [] := rfl

theorem escape_percent (h l : UInt8) (rest : List UInt8) : escape percent (h :: l :: rest) = octet h l := by
  rw [escape, if_pos rfl]

theorem escape_of_ne (hb : b ≠ percent) (rest : List UInt8) : escape b rest = none := if_neg hb

theorem decode_of_escape (hv : octet h l = some v) : decode (percent :: h :: l :: rest) = latin1 v ++ decode rest := by
  rw [decode, escape_percent, hv]

theorem decode_of_plain (hb : escape b rest = none) : decode (b :: rest) = latin1 b ++ decode rest := by
  rw [decode.eq_def]
  simp only [hb]

theorem exists_of_escape (h : escape b rest = some v) :
    ∃ hi lo rest', b = percent ∧ rest = hi :: lo :: rest' ∧ octet hi lo = some v := by
  unfold escape at h
  split at h
  · split at h
    · exact ⟨_, _, _, ‹_›, rfl, h⟩
    · cases h
  · cases h

theorem decode_induct {P : List UInt8 → Prop} (nil : P [])
    (escaped : ∀ h l v rest, octet h l = some v → P rest → P (percent :: h :: l :: rest))
    (plain : ∀ b rest, escape b rest = none → P rest → P (b :: rest)) (t : List UInt8) : P t := by
  suffices h : ∀ n, ∀ t : List UInt8, t.length ≤ n → P t from h t.length t le_rfl
  intro n
  induction n with
  | zero =>
    intro t ht
    rwa [length_eq_zero_iff.mp (Nat.le_zero.mp ht)]
  | succ n ih =>
    intro t ht
    cases t with
    | nil => exact nil
    | cons b rest =>
      rw [length_cons] at ht
      cases hb : escape b rest with
      | none => exact plain b rest hb (ih rest (by omega))
      | some v =>
        obtain ⟨h, l, rest, rfl, rfl, hv⟩ := exists_of_escape hb
        rw [length_cons, length_cons] at ht
        exact escaped h l v rest hv (ih rest (by omega))

/-! ### Bytes -/

theorem eq_of_mem_latin1 {c : UInt8} (hc : c < 128) (h : c ∈ latin1 b) : b = c ∧ latin1 b = [b] := by
  have hhigh : ∀ b : UInt8, b < 128 ∨ (latin1 b).all (fun d => ¬d < 128) = true := forall_byte (by decide +kernel)
  by_cases hb : b < 128
  · have heq : latin1 b = [b] := if_pos hb
    rw [heq, mem_singleton] at h
    exact ⟨h.symm, heq⟩
  · have hall := (hhigh b).resolve_left hb
    exact absurd hc (of_decide_eq_true (all_eq_true.mp hall c h))

theorem latin1_ne_nil (b : UInt8) : latin1 b ≠ [] := by
  unfold latin1
  split <;> exact cons_ne_nil _ _

theorem hexValue_of_octet (hv : octet h l = some v) : hexValue h ≠ none ∧ hexValue l ≠ none := by
  unfold octet at hv
  cases hh : hexValue h <;> cases hl : hexValue l <;> simp_all

theorem octet_of_left (hh : hexValue h = none) (l : UInt8) : octet h l = none :=
  Option.eq_none_iff_forall_ne_some.mpr fun _ hv => (hexValue_of_octet hv).1 hh

theorem octet_of_right (hl : hexValue l = none) (h : UInt8) : octet h l = none :=
  Option.eq_none_iff_forall_ne_some.mpr fun _ hv => (hexValue_of_octet hv).2 hl

theorem decode_eq_nil (h : decode t = []) : t = [] := by
  induction t using decode_induct with
  | nil => rfl
  | escaped hi lo v rest hv _ =>
    rw [decode_of_escape hv] at h
    exact absurd (append_eq_nil_iff.mp h).1 (latin1_ne_nil v)
  | plain b rest hb _ =>
    rw [decode_of_plain hb] at h
    exact absurd (append_eq_nil_iff.mp h).1 (latin1_ne_nil b)

theorem mem_of_mem_decode {c : UInt8} (hc : c < 128) (h : c ∈ decode t) : c ∈ t ∨ Escaped c t := by
  induction t using decode_induct with
  | nil => exact .inl h
  | escaped hi lo v rest hv ih =>
    rw [decode_of_escape hv, mem_append] at h
    rcases h with h | h
    · obtain ⟨rfl, _⟩ := eq_of_mem_latin1 hc h
      exact .inr ⟨[], hi, lo, rest, rfl, hv⟩
    · exact (ih h).imp (fun hm => mem_cons_of_mem _ (mem_cons_of_mem _
        (mem_cons_of_mem _ hm))) fun he => he.cons.cons.cons
  | plain b rest hb ih =>
    rw [decode_of_plain hb, mem_append] at h
    rcases h with h | h
    · obtain ⟨rfl, _⟩ := eq_of_mem_latin1 hc h
      exact .inl mem_cons_self
    · exact (ih h).imp (mem_cons_of_mem _) Escaped.cons

theorem eq_of_decode_eq {u : List UInt8} : ∀ {t : List UInt8}, decode t = u →
    (∀ c ∈ u, c < 128 ∧ ¬Escaped c t) → t = u := by
  intro t h hu
  induction t using decode_induct generalizing u with
  | nil => exact h
  | escaped hi lo v rest hv ih =>
    exfalso
    rw [decode_of_escape hv] at h
    obtain ⟨c, cs, hcs⟩ := exists_cons_of_ne_nil (latin1_ne_nil v)
    have hmem : c ∈ latin1 v := by rw [hcs]; exact mem_cons_self
    obtain ⟨hc, hesc⟩ := hu c (by rw [← h]; exact mem_append_left _ hmem)
    obtain ⟨rfl, _⟩ := eq_of_mem_latin1 hc hmem
    exact hesc ⟨[], hi, lo, rest, rfl, hv⟩
  | plain b rest hb ih =>
    rw [decode_of_plain hb] at h
    obtain ⟨c, cs, hcs⟩ := exists_cons_of_ne_nil (latin1_ne_nil b)
    have hmem : c ∈ latin1 b := by rw [hcs]; exact mem_cons_self
    have hcu := (hu c (by rw [← h]; exact mem_append_left _ hmem)).1
    obtain ⟨rfl, hb'⟩ := eq_of_mem_latin1 hcu hmem
    rw [hb', singleton_append] at h
    have hrest := ih rfl fun d hd => by
      obtain ⟨hd', hesc⟩ := hu d (by rw [← h]; exact mem_cons_of_mem _ hd)
      exact ⟨hd', fun he => hesc he.cons⟩
    rw [← h, ← hrest]

/-! ### Looking for an escape -/

/-- The escape of `v` in lower case. -/
def spelling (v : UInt8) : List UInt8 := [percent, lowerDigit (v >>> 4), lowerDigit (v &&& 15)]
where
  lowerDigit (d : UInt8) : UInt8 := if d < 10 then 48 + d else 87 + d

theorem hexValue_spec {d : UInt8} (h : hexValue b = some d) : d < 16 ∧ toAsciiLowercase b = spelling.lowerDigit d := by
  have hall : (hexValue b).all fun d => d < 16 && toAsciiLowercase b == spelling.lowerDigit d :=
    forall_byte (P := fun b => (hexValue b).all fun d =>
      d < 16 && toAsciiLowercase b == spelling.lowerDigit d) (by decide +kernel) b
  rw [h, Option.all_some, Bool.and_eq_true, decide_eq_true_eq, beq_iff_eq] at hall
  exact hall

theorem nibbles_fin : ∀ hi lo : Fin 16, ((UInt8.ofNat hi <<< 4) ||| UInt8.ofNat lo) >>> 4 = UInt8.ofNat hi ∧
      ((UInt8.ofNat hi <<< 4) ||| UInt8.ofNat lo) &&& 15 = UInt8.ofNat lo := by decide

theorem nibbles {hi lo : UInt8} (hhi : hi < 16) (hlo : lo < 16) :
    ((hi <<< 4) ||| lo) >>> 4 = hi ∧ ((hi <<< 4) ||| lo) &&& 15 = lo := by
  have h := nibbles_fin ⟨hi.toNat, hhi⟩ ⟨lo.toNat, hlo⟩
  rwa [UInt8.ofNat_toNat, UInt8.ofNat_toNat] at h

theorem spelling_of_octet (hv : octet h l = some v) : [percent, h, l].map toAsciiLowercase = spelling v := by
  unfold octet at hv
  simp only [Option.bind_eq_bind, Option.bind_eq_some_iff, Option.pure_def, Option.some.injEq] at hv
  obtain ⟨hi, hhi, lo, hlo, rfl⟩ := hv
  obtain ⟨hlt, hh⟩ := hexValue_spec hhi
  obtain ⟨hlt', hl⟩ := hexValue_spec hlo
  obtain ⟨hhigh, hlow⟩ := nibbles hlt hlt'
  rw [spelling, hhigh, hlow, ← hh, ← hl]
  rfl

theorem Escaped.contains (h : Escaped v t) : contains (spelling v) (t.map toAsciiLowercase) = true := by
  obtain ⟨u, h, l, w, rfl, hv⟩ := h
  refine contains_of_infix ⟨u.map toAsciiLowercase, w.map toAsciiLowercase, ?_⟩
  rw [← spelling_of_octet hv, ← map_append, ← map_append]
  simp

/-! ### Pieces -/

section Pieces

variable {c : UInt8} (hdigit : hexValue c = none)
include hdigit

/-- Whether an escape starts here is seen in the piece. -/
theorem escape_piece {rest piece : List UInt8} {pieces : List (List UInt8)}
    (hrest : splitOnP (· == c) rest = piece :: pieces) (b : UInt8) : escape b piece = escape b rest := by
  by_cases hb : b = percent
  · subst hb
    cases rest with
    | nil =>
      rw [← (List.cons.inj hrest).1]
      rfl
    | cons h rest =>
      by_cases hh : h = c
      · -- a separator cuts the escape off
        rw [splitOnP_cons_eq_if_modifyHead, if_pos (beq_iff_eq.mpr hh)] at hrest
        rw [← (List.cons.inj hrest).1]
        cases rest with
        | nil => rfl
        | cons l rest => rw [escape_percent, hh, octet_of_left hdigit]; rfl
      · obtain ⟨piece', pieces', hrest'⟩ := exists_cons_of_ne_nil (splitOnP_ne_nil (· == c) rest)
        rw [splitOnP_cons_of_neg (p := (· == c)) (beq_eq_false_iff_ne.mpr hh) hrest'] at hrest
        rw [← (List.cons.inj hrest).1]
        cases rest with
        | nil =>
          rw [← (List.cons.inj hrest').1]
          rfl
        | cons l rest =>
          by_cases hl : l = c
          · rw [splitOnP_cons_eq_if_modifyHead, if_pos (beq_iff_eq.mpr hl)] at hrest'
            rw [← (List.cons.inj hrest').1, escape_percent, hl, octet_of_right hdigit]
            rfl
          · obtain ⟨p, ps, hp⟩ := exists_cons_of_ne_nil (splitOnP_ne_nil (· == c) rest)
            rw [splitOnP_cons_of_neg (p := (· == c)) (beq_eq_false_iff_ne.mpr hl) hp] at hrest'
            rw [← (List.cons.inj hrest').1, escape_percent, escape_percent]
  · rw [escape_of_ne hb, escape_of_ne hb]

variable (hc : c < 128) (hpercent : c ≠ percent)
include hc hpercent

/-- **Decoding keeps the pieces** between the bytes `c`, if the text escapes no `c`. -/
theorem splitOnP_decode {t : List UInt8} (ht : ¬Escaped c t) :
    splitOnP (· == c) (decode t) = (splitOnP (· == c) t).map decode := by
  have hlatin : ∀ b, b ≠ c → ∀ d ∈ latin1 b, (d == c) = false := by
    intro b hb d hd
    rw [beq_eq_false_iff_ne]
    rintro rfl
    exact hb (eq_of_mem_latin1 hc hd).1
  induction t using decode_induct with
  | nil => rfl
  | escaped hi lo v rest hv ih =>
    have hv' : v ≠ c := fun heq => ht ⟨[], hi, lo, rest, rfl, heq ▸ hv⟩
    have hkeep : ∀ d ∈ [percent, hi, lo], (d == c) = false := by
      have hdigits := hexValue_of_octet hv
      intro d hd
      rw [beq_eq_false_iff_ne]
      rintro rfl
      simp only [mem_cons, not_mem_nil, or_false] at hd
      rcases hd with rfl | rfl | rfl
      · exact hpercent rfl
      · exact hdigits.1 hdigit
      · exact hdigits.2 hdigit
    obtain ⟨piece, pieces, hpiece⟩ := exists_cons_of_ne_nil (splitOnP_ne_nil (· == c) rest)
    have ih := ih fun he => ht he.cons.cons.cons
    rw [hpiece] at ih
    have hsplit : splitOnP (· == c) (percent :: hi :: lo :: rest) =
        (percent :: hi :: lo :: piece) :: pieces := splitOnP_append [percent, hi, lo] hkeep hpiece
    rw [decode_of_escape hv, splitOnP_append (latin1 v) (hlatin v hv') ih, hsplit, map_cons, decode_of_escape hv]
  | plain b rest hb ih =>
    have ih := ih fun he => ht he.cons
    by_cases hbc : b = c
    · subst hbc
      rw [decode_of_plain hb, latin1, if_pos hc, singleton_append,
        splitOnP_cons_eq_if_modifyHead, if_pos (beq_self_eq_true b), ih,
        splitOnP_cons_eq_if_modifyHead, if_pos (beq_self_eq_true b), map_cons, decode_nil]
    · obtain ⟨piece, pieces, hpiece⟩ := exists_cons_of_ne_nil (splitOnP_ne_nil (· == c) rest)
      rw [hpiece] at ih
      have hbc' : (b == c) = false := beq_eq_false_iff_ne.mpr hbc
      rw [decode_of_plain hb, splitOnP_append (latin1 b) (hlatin b hbc) ih,
        splitOnP_cons_of_neg (p := (· == c)) hbc' hpiece, map_cons,
        decode_of_plain ((escape_piece hdigit hpiece b).trans hb)]

end Pieces

end McpToolkit.Lib.Percent
