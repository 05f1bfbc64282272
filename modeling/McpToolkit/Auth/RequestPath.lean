import McpToolkit.Auth.Path
import McpToolkit.Lib.DotSegments
import McpToolkit.Lib.Segments

/-!
# McpToolkit.Auth.RequestPath — what normalisation leaves of a request path

A normalised path is a slash and joined segments.  Where a percent sign is not followed by two hex digits, the first loop
skips the two characters behind it, so it leaves a backslash or an escape that begins there as it is.  `settled_iff` says
that this is all that can go wrong: the normal form is a fixed point without backslashes and escapes exactly if every
segment that hides one is dropped by a later `..`.
-/

namespace McpToolkit.Auth

open List
open Lib
open Lib.Text (splitOnP_map infix_of_mem_splitOnP exists_infix_of_splitOnP)
open Lib.Segments (join join_nil not_mem_of_mem_splitOnP eq_or_mem_of_mem_join)
open Lib.DotSegments

/-- The spellings of `.`, `/` and `\`. -/
def escapes : List (List Char) := ["%2e", "%2E", "%2f", "%2F", "%5c", "%5C"].map String.toList

/-- A path that can be taken as it is: segments behind a slash, none of them empty or made of dots only to be resolved,
nothing left to decode, and its own normal form. -/
structure Settled (path : Path) : Prop where
  segments : ∃ segments, path = '/' :: join '/' segments ∧
    ∀ segment ∈ segments, '/' ∉ segment ∧ segment ≠ [] ∧ segment ≠ ['.'] ∧ segment ≠ ['.', '.']
  backslash : '\\' ∉ path
  escape : ∀ e ∈ escapes, ¬ e <:+: path
  fixed : normalizeRequestPath path = path

/-! ### Escapes -/

variable {path : Path} {c : Char} {d : ℕ} {hi lo : Char} {segment : List Char}

theorem toNat_lt_of_hexDigit (h : hexDigit c = some d) : c.toNat < 128 := by
  by_contra hge
  unfold hexDigit at h
  rw [if_neg (by omega), if_neg (by omega), if_neg (by omega)] at h
  cases h

theorem hexDigit_cases (h : hexDigit c = some d) :
    d < 16 ∧ (d = 2 → c = '2') ∧ (d = 5 → c = '5') ∧ (d = 12 → c = 'c' ∨ c = 'C') ∧ (d = 14 → c = 'e' ∨ c = 'E') ∧
      (d = 15 → c = 'f' ∨ c = 'F') := by
  have hcases := Text.forall_ascii (P := fun c => ∀ d ∈ hexDigit c, d < 16 ∧ (d = 2 → c = '2') ∧ (d = 5 → c = '5') ∧
    (d = 12 → c = 'c' ∨ c = 'C') ∧ (d = 14 → c = 'e' ∨ c = 'E') ∧ (d = 15 → c = 'f' ∨ c = 'F')) (by decide +kernel)
    (toNat_lt_of_hexDigit h)
  exact hcases d h

theorem decodeHexPair_eq_some {n : ℕ} :
    decodeHexPair hi lo = some n ↔ ∃ a b, hexDigit hi = some a ∧ hexDigit lo = some b ∧ a * 16 + b = n := by
  simp only [decodeHexPair, Option.bind_eq_bind, Option.bind_eq_some_iff]
  grind

/-- The escapes that are decoded. -/
def isDecoded (hi lo : Char) : Bool :=
  decodeHexPair hi lo == some 0x2E || decodeHexPair hi lo == some 0x2F || decodeHexPair hi lo == some 0x5C

theorem isDecoded_iff : isDecoded hi lo = true ↔ ['%', hi, lo] ∈ escapes := by
  constructor
  · intro h
    rw [isDecoded, Bool.or_eq_true, Bool.or_eq_true, beq_iff_eq, beq_iff_eq, beq_iff_eq, decodeHexPair_eq_some,
      decodeHexPair_eq_some, decodeHexPair_eq_some] at h
    have hdigits : ∃ a b, hexDigit hi = some a ∧ hexDigit lo = some b ∧
        (a * 16 + b = 0x2E ∨ a * 16 + b = 0x2F ∨ a * 16 + b = 0x5C) := by grind
    obtain ⟨a, b, ha, hb, hn⟩ := hdigits
    obtain ⟨-, htwo, hfive, -⟩ := hexDigit_cases ha
    obtain ⟨hlt, -, -, htwelve, hfourteen, hfifteen⟩ := hexDigit_cases hb
    rcases hn with hn | hn | hn
    · rw [htwo (by omega)]
      rcases hfourteen (by omega) with rfl | rfl <;> decide +kernel
    · rw [htwo (by omega)]
      rcases hfifteen (by omega) with rfl | rfl <;> decide +kernel
    · rw [hfive (by omega)]
      rcases htwelve (by omega) with rfl | rfl <;> decide +kernel
  · intro h
    have hlist : ∀ e ∈ escapes, e.length = 3 ∧ isDecoded (e.getD 1 'x') (e.getD 2 'x') = true := by decide +kernel
    exact (hlist _ h).2

theorem exists_of_mem_escapes {e : List Char} (h : e ∈ escapes) :
    ∃ hi lo, e = ['%', hi, lo] ∧ '/' ∉ e ∧ isDecoded hi lo = true := by
  have hlist : ∀ e ∈ escapes, e = ['%', e.getD 1 'x', e.getD 2 'x'] ∧ e.contains '/' = false := by decide +kernel
  obtain ⟨heq, hslash⟩ := hlist e h
  refine ⟨_, _, heq, ?_, isDecoded_iff.mpr (heq ▸ h)⟩
  intro hmem
  rw [contains_iff_mem.mpr hmem] at hslash
  cases hslash

theorem decodeEscape_of_not (h : isDecoded hi lo = false) : decodeEscape hi lo = ['%', hi, lo] := by
  unfold isDecoded at h
  unfold decodeEscape
  split
  case h_1 heq => rw [heq] at h; cases h
  case h_2 heq => rw [heq] at h; cases h
  case h_3 heq => rw [heq] at h; cases h
  case h_4 => rfl

/-! ### The first loop -/

theorem decodePath_eq_self (hbackslash : '\\' ∉ path) (hescape : ∀ e ∈ escapes, ¬ e <:+: path) :
    decodePath path = path := by
  fun_induction decodePath path with
  | case1 => rfl
  | case2 hi lo chars ih =>
    have hkept : isDecoded hi lo = false := by
      rw [← Bool.not_eq_true, isDecoded_iff]
      intro hmem
      exact hescape _ hmem (prefix_append ['%', hi, lo] chars).isInfix
    have hrest : chars <:+ '%' :: hi :: lo :: chars := suffix_append ['%', hi, lo] chars
    rw [decodeEscape_of_not hkept, ih (fun h => hbackslash (hrest.subset h))
      fun e he h => hescape e he (h.trans hrest.isInfix)]
    rfl
  | case3 chars h => rfl
  | case4 ch chars hch ih =>
    have hne : ch ≠ '\\' := by
      rintro rfl
      exact hbackslash mem_cons_self
    rw [if_neg hne, ih (fun h => hbackslash (mem_cons_of_mem _ h))
      fun e he h => hescape e he (h.trans (suffix_cons ch chars).isInfix)]

/-- What the first loop writes for `%hilo`, each character with whether it was skipped. -/
def scanEscape (hi lo : Char) : List (Char × Bool) :=
  match decodeHexPair hi lo with
  | none => [('%', false), (hi, true), (lo, true)]
  | some _ => (decodeEscape hi lo).map fun c => (c, false)

/-- What the first loop writes, each character with whether it was skipped: a percent sign that is not followed by two
hex digits makes the loop copy what follows it, up to two characters, without a look at them. -/
def scanPath : List Char → List (Char × Bool)
  | [] => []
  | ch :: chars =>
    if ch = '%' then
      match chars with
      | hi :: lo :: chars => scanEscape hi lo ++ scanPath chars
      | chars => ('%', false) :: chars.map fun c => (c, true)
    else ((if ch = '\\' then '/' else ch), false) :: scanPath chars

theorem scanEscape_fst (hi lo : Char) : (scanEscape hi lo).map Prod.fst = decodeEscape hi lo := by
  unfold scanEscape
  split
  case h_1 hnone =>
    unfold decodeEscape
    rw [hnone]
    rfl
  case h_2 n hsome =>
    rw [map_map]
    exact List.map_id _

theorem decodePath_of_ne {ch : Char} (h : ch ≠ '%') (chars : List Char) :
    decodePath (ch :: chars) = (if ch = '\\' then '/' else ch) :: decodePath chars := by
  conv_lhs => unfold decodePath
  exact if_neg h

theorem decodePath_of_short {chars : List Char} (h : ∀ hi lo rest, chars ≠ hi :: lo :: rest) :
    decodePath ('%' :: chars) = '%' :: chars := by
  unfold decodePath
  rw [if_pos rfl]
  split
  case h_1 hi lo rest => exact absurd rfl (h hi lo rest)
  case h_2 => rfl

theorem scanPath_fst (path : Path) : (scanPath path).map Prod.fst = decodePath path := by
  fun_induction scanPath path with
  | case1 => rfl
  | case2 hi lo chars ih => rw [map_append, scanEscape_fst, ih, decodePath, if_pos rfl]
  | case3 chars h =>
    rw [decodePath_of_short h, map_cons, map_map]
    exact congrArg (List.cons '%') (List.map_id chars)
  | case4 ch chars hch ih => rw [map_cons, ih, decodePath_of_ne hch]

theorem ne_of_hexDigit (h : hexDigit c = some d) : c ≠ '%' ∧ c ≠ '\\' := by
  constructor
  · rintro rfl
    cases h
  · rintro rfl
    cases h

theorem scanEscape_cases (hi lo : Char) :
    (isDecoded hi lo = false ∧ scanEscape hi lo = [('%', false), (hi, true), (lo, true)]) ∨
      (∃ c, c ≠ '%' ∧ c ≠ '\\' ∧ scanEscape hi lo = [(c, false)]) ∨
      (isDecoded hi lo = false ∧ (hi ≠ '%' ∧ hi ≠ '\\') ∧ (lo ≠ '%' ∧ lo ≠ '\\') ∧
        scanEscape hi lo = [('%', false), (hi, false), (lo, false)]) := by
  cases hpair : decodeHexPair hi lo with
  | none =>
    refine .inl ⟨?_, ?_⟩
    · rw [isDecoded, hpair]
      rfl
    · rw [scanEscape, hpair]
  | some n =>
    have hscan : scanEscape hi lo = (decodeEscape hi lo).map fun c => (c, false) := by rw [scanEscape, hpair]
    cases hdecoded : isDecoded hi lo with
    | false =>
      obtain ⟨a, b, ha, hb, -⟩ := decodeHexPair_eq_some.mp hpair
      refine .inr (.inr ⟨rfl, ne_of_hexDigit ha, ne_of_hexDigit hb, ?_⟩)
      rw [hscan, decodeEscape_of_not hdecoded]
      rfl
    | true =>
      refine .inr (.inl ?_)
      rw [hscan]
      unfold decodeEscape
      split
      case h_1 => exact ⟨'/', by decide, by decide, rfl⟩
      case h_2 => exact ⟨'/', by decide, by decide, rfl⟩
      case h_3 => exact ⟨'.', by decide, by decide, rfl⟩
      case h_4 hslash hbackslash hdot =>
        rw [isDecoded, Bool.or_eq_true, Bool.or_eq_true, beq_iff_eq, beq_iff_eq, beq_iff_eq] at hdecoded
        rcases hdecoded with (h | h) | h
        · exact absurd h hdot
        · exact absurd h hslash
        · exact absurd h hbackslash

theorem ne_backslash_of_scanPath (h : (c, false) ∈ scanPath path) : c ≠ '\\' := by
  fun_induction scanPath path with
  | case1 => exact absurd h not_mem_nil
  | case2 hi lo chars ih =>
    rcases mem_append.mp h with h | h
    · rcases scanEscape_cases hi lo with ⟨-, heq⟩ | ⟨d, -, hd, heq⟩ | ⟨-, hhi, hlo, heq⟩
      · rw [heq] at h
        simp only [mem_cons, Prod.mk.injEq, and_true, Bool.false_eq_true, and_false, not_mem_nil, or_false] at h
        rw [h]
        decide
      · rw [heq, mem_singleton] at h
        rwa [(Prod.mk.inj h).1]
      · rw [heq] at h
        simp only [mem_cons, Prod.mk.injEq, and_true, not_mem_nil, or_false] at h
        rcases h with rfl | rfl | rfl
        · decide
        · exact hhi.2
        · exact hlo.2
    · exact ih h
  | case3 chars hshort =>
    rcases mem_cons.mp h with h | h
    · rw [(Prod.mk.inj h).1]
      decide
    · obtain ⟨d, -, hd⟩ := mem_map.mp h
      cases (Prod.mk.inj hd).2
  | case4 ch chars hch ih =>
    rcases mem_cons.mp h with h | h
    · obtain rfl := (Prod.mk.inj h).1
      split_ifs with hslash
      · decide
      · exact hslash
    · exact ih h

/-- Only what was skipped can begin an escape. -/
theorem not_escape_of_scanPath {hi lo : Char × Bool} (h : [('%', false), hi, lo] <:+: scanPath path) :
    isDecoded hi.1 lo.1 = false := by
  fun_induction scanPath path with
  | case1 => exact absurd (infix_nil.mp h) (cons_ne_nil _ _)
  | case2 a b chars ih =>
    rcases scanEscape_cases a b with ⟨hno, heq⟩ | ⟨d, hd, -, heq⟩ | ⟨hno, ha, hb, heq⟩
    · rw [heq] at h
      simp only [cons_append, infix_cons_iff, cons_prefix_cons, Prod.mk.injEq,
        Bool.false_eq_true, and_false, false_and, false_or] at h
      rcases h with ⟨-, rfl, rfl, -⟩ | h
      · exact hno
      · exact ih h
    · rw [heq] at h
      simp only [cons_append, infix_cons_iff, cons_prefix_cons, Prod.mk.injEq, hd.symm, false_and, false_or] at h
      exact ih h
    · rw [heq] at h
      simp only [cons_append, infix_cons_iff, cons_prefix_cons, Prod.mk.injEq,
        ha.1.symm, hb.1.symm, false_and, false_or] at h
      rcases h with ⟨-, rfl, rfl, -⟩ | h
      · exact hno
      · exact ih h
  | case3 chars hshort =>
    exfalso
    rcases infix_cons_iff.mp h with h | h
    · rw [cons_prefix_cons] at h
      obtain ⟨c, rest, hc⟩ : ∃ c rest, chars = c :: rest := by
        cases chars with
        | nil => exact absurd (prefix_nil.mp h.2) (cons_ne_nil _ _)
        | cons c rest => exact ⟨c, rest, rfl⟩
      subst hc
      rw [map_cons, cons_prefix_cons] at h
      cases rest with
      | nil => exact absurd (prefix_nil.mp h.2.2) (cons_ne_nil _ _)
      | cons d rest => exact hshort c d rest rfl
    · obtain ⟨d, -, hd⟩ := mem_map.mp (h.subset mem_cons_self)
      cases (Prod.mk.inj hd).2
  | case4 ch chars hch ih =>
    have hne : (if ch = '\\' then '/' else ch) ≠ '%' := by
      split_ifs with hslash
      · decide
      · exact hch
    simp only [infix_cons_iff, cons_prefix_cons, Prod.mk.injEq, hne.symm, false_and, false_or] at h
    exact ih h

/-! ### The second loop -/

/-- What a segment does to the segments before it. -/
def segmentKind (segment : List Char) : Kind :=
  if segment = [] ∨ segment = ['.'] then .skip else if segment = ['.', '.'] then .climb else .name

theorem resolveSegment_eq (segments : List (List Char)) (segment : List Char) :
    resolveSegment segments segment = push segmentKind segments segment := by
  unfold resolveSegment push segmentKind
  split_ifs <;> rfl

theorem segmentKind_eq_name : segmentKind segment = .name ↔ segment ≠ [] ∧ segment ≠ ['.'] ∧ segment ≠ ['.', '.'] := by
  unfold segmentKind
  split_ifs with hskip hclimb
  · tauto
  · tauto
  · tauto

/-- The segments that normalisation keeps, in order. -/
def keptSegments (path : Path) : List (List Char) :=
  (resolve segmentKind (splitOnP (· == '/') (decodePath path))).reverse

theorem normalizeRequestPath_eq (path : Path) : normalizeRequestPath path = '/' :: join '/' (keptSegments path) := by
  have hfold : (splitOnP (· == '/') (decodePath path)).foldl resolveSegment [] =
      resolve segmentKind (splitOnP (· == '/') (decodePath path)) := by
    rw [resolve, funext fun segments => funext (resolveSegment_eq segments)]
  rw [normalizeRequestPath, hfold]
  show (if keptSegments path = [] then ['/'] else '/' :: join '/' (keptSegments path)) = _
  split_ifs with hnil
  · rw [hnil, join_nil]
  · rfl

theorem mem_keptSegments :
    segment ∈ keptSegments path ↔ Stays segmentKind (splitOnP (· == '/') (decodePath path)) segment := by
  rw [keptSegments, mem_reverse, mem_resolve_iff]

theorem of_mem_keptSegments (h : segment ∈ keptSegments path) :
    '/' ∉ segment ∧ segment ≠ [] ∧ segment ≠ ['.'] ∧ segment ≠ ['.', '.'] := by
  have hstays := mem_keptSegments.mp h
  exact ⟨not_mem_of_mem_splitOnP hstays.mem, segmentKind_eq_name.mp hstays.name⟩

theorem mem_splitOnP_join {segments : List (List Char)} (h : ∀ segment ∈ segments, '/' ∉ segment) {piece : List Char}
    (hpiece : piece ∈ splitOnP (· == '/') ('/' :: join '/' segments)) : piece = [] ∨ piece ∈ segments := by
  rw [splitOnP_cons_eq_if_modifyHead, if_pos (beq_self_eq_true '/')] at hpiece
  rcases mem_cons.mp hpiece with rfl | hpiece
  · exact .inl rfl
  · by_cases hnil : segments = []
    · rw [hnil] at hpiece
      exact .inl (mem_singleton.mp hpiece)
    · rw [← splitOn_eq_splitOnP, join, splitOn_intercalate _ h hnil] at hpiece
      exact .inr hpiece

/-- There is nothing to decode in any of the segments. -/
def Clean (segment : List Char) : Prop := '\\' ∉ segment ∧ ∀ e ∈ escapes, ¬ e <:+: segment

theorem keptSegments_join {segments : List (List Char)} (hsegments : ∀ segment ∈ segments,
      '/' ∉ segment ∧ segment ≠ [] ∧ segment ≠ ['.'] ∧ segment ≠ ['.', '.'])
    (hdecode : decodePath ('/' :: join '/' segments) = '/' :: join '/' segments) :
    keptSegments ('/' :: join '/' segments) = segments := by
  have hempty : push segmentKind [] [] = [] := rfl
  rw [keptSegments, hdecode, splitOnP_cons_eq_if_modifyHead, if_pos (beq_self_eq_true '/'), resolve,
    foldl_cons, hempty]
  by_cases hnil : segments = []
  · rw [hnil]
    rfl
  · have hsplit := splitOn_intercalate '/' (fun segment h => (hsegments segment h).1) hnil
    rw [← splitOn_eq_splitOnP, join, hsplit, ← resolve,
      resolve_of_names fun segment h => segmentKind_eq_name.mpr (hsegments segment h).2, reverse_reverse]

/-- Normalisation leaves a path alone that has no segment to resolve and nothing to decode. -/
theorem normalizeRequestPath_eq_self {segments : List (List Char)} (hpath : path = '/' :: join '/' segments)
    (hsegments : ∀ segment ∈ segments, '/' ∉ segment ∧ segment ≠ [] ∧ segment ≠ ['.'] ∧ segment ≠ ['.', '.'])
    (hbackslash : '\\' ∉ path) (hescape : ∀ e ∈ escapes, ¬ e <:+: path) : normalizeRequestPath path = path := by
  have hdecode := decodePath_eq_self hbackslash hescape
  rw [hpath] at hdecode ⊢
  rw [normalizeRequestPath_eq, keptSegments_join hsegments hdecode]

/-- A normal form can be taken as it is if its segments are clean. -/
theorem settled_iff_clean (path : Path) :
    Settled (normalizeRequestPath path) ↔ ∀ segment ∈ keptSegments path, Clean segment := by
  have hkept : ∀ segment ∈ keptSegments path,
      '/' ∉ segment ∧ segment ≠ [] ∧ segment ≠ ['.'] ∧ segment ≠ ['.', '.'] := fun segment => of_mem_keptSegments
  constructor
  · intro h segment hsegment
    have hpart : segment <:+: normalizeRequestPath path := by
      rw [normalizeRequestPath_eq]
      refine List.IsInfix.trans ?_ (suffix_cons '/' _).isInfix
      refine infix_of_mem_splitOnP (p := (· == '/')) ?_
      have hne := ne_nil_of_mem hsegment
      rw [← splitOn_eq_splitOnP, join, splitOn_intercalate _ (fun segment h => (hkept segment h).1) hne]
      exact hsegment
    exact ⟨fun hmem => h.backslash (hpart.subset hmem), fun e he hin => h.escape e he (hin.trans hpart)⟩
  · intro h
    have hbackslash : '\\' ∉ normalizeRequestPath path := by
      rw [normalizeRequestPath_eq]
      intro hmem
      rcases mem_cons.mp hmem with heq | hmem
      · cases heq
      · rcases eq_or_mem_of_mem_join hmem with heq | ⟨segment, hsegment, hmem⟩
        · cases heq
        · exact (h segment hsegment).1 hmem
    have hescape : ∀ e ∈ escapes, ¬ e <:+: normalizeRequestPath path := by
      intro e he hin
      obtain ⟨hi, lo, heq, hslash, -⟩ := exists_of_mem_escapes he
      rw [normalizeRequestPath_eq] at hin
      obtain ⟨a, b, hab⟩ := hin
      have hno : ∀ c ∈ e, (c == '/') = false := by
        intro c hc
        rw [beq_eq_false_iff_ne]
        rintro rfl
        exact hslash hc
      obtain ⟨piece, hpiece, hin⟩ := exists_infix_of_splitOnP hno a
      rw [← append_assoc, hab] at hpiece
      rcases mem_splitOnP_join (fun segment h => (hkept segment h).1) hpiece with rfl | hpiece
      · rw [heq] at hin
        exact absurd (infix_nil.mp hin) (cons_ne_nil _ _)
      · exact (h piece hpiece).2 e he hin
    exact ⟨⟨keptSegments path, normalizeRequestPath_eq path, hkept⟩, hbackslash, hescape,
      normalizeRequestPath_eq_self (normalizeRequestPath_eq path) hkept hbackslash hescape⟩

/-! ### What is hidden -/

/-- Among the characters that were skipped there is a backslash, or the percent sign of an escape. -/
def Hides (segment : List (Char × Bool)) : Prop :=
  ('\\', true) ∈ segment ∨
    ∃ hi lo, [('%', true), hi, lo] <:+: segment ∧ ['%', hi.1, lo.1] ∈ escapes

/-- Every segment that hides something is dropped by a later `..`. -/
def NothingHidden (path : Path) : Prop :=
  ∀ segment, Stays (fun segment => segmentKind (segment.map Prod.fst)) (splitOnP (fun c => c.1 == '/') (scanPath path))
    segment → ¬ Hides segment

theorem clean_iff {segment : List (Char × Bool)} (h : segment <:+: scanPath path) :
    Clean (segment.map Prod.fst) ↔ ¬ Hides segment := by
  constructor
  · rintro ⟨hbackslash, hescape⟩ (hmem | ⟨hi, lo, hin, he⟩)
    · exact hbackslash (mem_map_of_mem hmem)
    · exact hescape _ he (hin.map Prod.fst)
  · intro hno
    refine ⟨fun hmem => ?_, fun e he hin => ?_⟩
    · obtain ⟨⟨c, skipped⟩, hc, rfl⟩ := mem_map.mp hmem
      cases skipped with
      | false => exact ne_backslash_of_scanPath (h.subset hc) rfl
      | true => exact hno (.inl hc)
    · obtain ⟨hi, lo, rfl, -, hdecoded⟩ := exists_of_mem_escapes he
      obtain ⟨l, hl, hmap⟩ := infix_map_iff.mp hin
      obtain ⟨⟨c, skipped⟩, rest, rfl, rfl, hrest⟩ := map_eq_cons_iff.mp hmap.symm
      obtain ⟨hi', rest', rfl, rfl, hrest'⟩ := map_eq_cons_iff.mp hrest
      obtain ⟨lo', rest'', rfl, rfl, hnil⟩ := map_eq_cons_iff.mp hrest'
      obtain rfl := map_eq_nil_iff.mp hnil
      cases skipped with
      | false =>
        rw [not_escape_of_scanPath (hl.trans h)] at hdecoded
        cases hdecoded
      | true => exact hno (.inr ⟨hi', lo', hl, he⟩)

/-- **Normalisation reaches a fixed point** exactly where nothing is hidden. -/
theorem settled_iff (path : Path) : Settled (normalizeRequestPath path) ↔ NothingHidden path := by
  have hpieces : splitOnP (· == '/') (decodePath path) =
      (splitOnP (fun c => c.1 == '/') (scanPath path)).map (List.map Prod.fst) := by
    rw [← scanPath_fst, splitOnP_map]
  rw [settled_iff_clean]
  constructor
  · intro h segment hstays
    rw [← clean_iff (infix_of_mem_splitOnP hstays.mem)]
    refine h _ (mem_keptSegments.mpr ?_)
    rw [hpieces]
    exact stays_map.mpr ⟨segment, hstays, rfl⟩
  · intro h segment hsegment
    have hstays := mem_keptSegments.mp hsegment
    rw [hpieces] at hstays
    obtain ⟨scanned, hscanned, rfl⟩ := stays_map.mp hstays
    exact (clean_iff (infix_of_mem_splitOnP hscanned.mem)).mpr (h scanned hscanned)

/-- The stray sign in front skips the empty segment in the first pass and the next percent sign in the second, which
then finds an escaped slash. -/
theorem strayPercent_not_settled : normalizeRequestPath "/%//%%2fmcp".toList = "/%/%%2fmcp".toList ∧
      normalizeRequestPath "/%/%%2fmcp".toList = "/%/%/mcp".toList ∧
      ¬ Settled (normalizeRequestPath "/%//%%2fmcp".toList) := by
  have hfirst : normalizeRequestPath "/%//%%2fmcp".toList = "/%/%%2fmcp".toList := by decide +kernel
  have hsecond : normalizeRequestPath "/%/%%2fmcp".toList = "/%/%/mcp".toList := by decide +kernel
  refine ⟨hfirst, hsecond, fun h => ?_⟩
  have hfixed := h.fixed
  exact absurd hfixed (by decide +kernel)

end McpToolkit.Auth
