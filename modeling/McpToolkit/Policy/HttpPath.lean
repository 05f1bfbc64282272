import McpToolkit.Lib.Percent
import McpToolkit.Policy.Decision

/-!
# McpToolkit.Policy.HttpPath — hardening of request paths

`http_path.rs` of the policy core, on the UTF-8 bytes of a path (an ASCII character is found in a
text exactly where its byte is found in the bytes).

The checks look at the path and at what one decoding makes of it.  A text in which no delimiter and
no dot is escaped decodes to pieces that are the decoded pieces of the text and to no delimiter it
did not have; the second check says this of the decoded path, so it holds of the second decoding
too, which the code never computes.
-/

namespace McpToolkit.Policy

open List
open Lib.Text (ascii contains infix_of_mem_splitOnP mem_splitOnP_trimBy length_splitOnP
  toAsciiLowercase trimBy)
open Lib.Percent

def hash : UInt8 := 35
def dot : UInt8 := 46
def slash : UInt8 := 47
def semicolon : UInt8 := 59
def question : UInt8 := 63
def backslash : UInt8 := 92

/-- `str::as_bytes`. -/
def utf8 (text : Text) : List UInt8 := text.flatMap String.utf8EncodeChar

/-- The pieces of a path between slashes. -/
def pieces (path : List UInt8) : List (List UInt8) := splitOnP (· == slash) path

def eqIgnoreAsciiCase (a b : UInt8) : Bool := toAsciiLowercase a == toAsciiLowercase b

def containsMatrixParams : List UInt8 → Bool
  | [] => false
  | b :: rest =>
    if b == semicolon then true
    else if matrixEscape b rest then true
    else containsMatrixParams rest
where
  /-- The second condition of the loop: `%3b` in either case. -/
  matrixEscape (b : UInt8) : List UInt8 → Bool
    | x :: y :: _ => b == percent && eqIgnoreAsciiCase x 51 && eqIgnoreAsciiCase y 98
    | _ => false

def containsEncodedDelimiter (path : List UInt8) : Bool :=
  let lower := path.map toAsciiLowercase
  contains (ascii "%2f") lower || contains (ascii "%3b") lower || contains (ascii "%3f") lower ||
    contains (ascii "%23") lower || contains (ascii "%2e") lower || contains (ascii "%5c") lower

def hasMalformedPercentEncoding : List UInt8 → Bool
  | [] => false
  | b :: rest =>
    if b = percent then
      match rest with
      | h :: l :: rest =>
        if (hexValue h).isNone || (hexValue l).isNone then true
        else hasMalformedPercentEncoding rest
      | _ => true
    else hasMalformedPercentEncoding rest

/-- The result is a text in which each decoded byte is a character. -/
def percentDecodeOnce : List UInt8 → Option (List UInt8)
  | [] => some []
  | b :: rest =>
    if b = percent then
      match rest with
      | h :: l :: rest => do
        let hi ← hexValue h
        let lo ← hexValue l
        let decoded ← percentDecodeOnce rest
        return latin1 ((hi <<< 4) ||| lo) ++ decoded
      | _ => none
    else do
      let decoded ← percentDecodeOnce rest
      return latin1 b ++ decoded

def hasDotSegment (path : List UInt8) : Bool :=
  (pieces (trimBy (· == slash) path)).any fun segment => segment == [dot] || segment == [dot, dot]

def containsPathConfusion (path : List UInt8) : Bool :=
  path.elem backslash || containsEncodedDelimiter path || hasMalformedPercentEncoding path ||
    hasDotSegment path ||
    ((percentDecodeOnce path).map fun decoded =>
      decoded.elem backslash || decoded.elem semicolon || decoded.elem question ||
        decoded.elem hash || containsEncodedDelimiter decoded || hasDotSegment decoded).getD true

def hasPathSegment (path : List UInt8) : Bool :=
  (pieces (trimBy (· == slash) path)).any fun segment => !segment.isEmpty

def validateHttpPath (limits : Boundary) (path : Text) : Decision :=
  let bytes := utf8 path
  if !limits.stringWithinBoundaryLimit path then .deny .invalidInput (some "boundary_limits")
  else if containsMatrixParams bytes || bytes.elem question || bytes.elem hash then
    .deny .invalidPath none
  else if containsPathConfusion bytes then .deny .invalidPath none
  else .allowed

/-! ### What the checks say -/

/-- No delimiter that a router could take for one, and no segment that names a directory. -/
structure Hardened (path : List UInt8) : Prop where
  delimiter : ∀ c ∈ [backslash, semicolon, question, hash], c ∉ path
  dots : ∀ segment ∈ pieces path, segment ≠ [dot] ∧ segment ≠ [dot, dot]

/-- The bytes whose escapes the checks look for. -/
def guarded : List UInt8 := [slash, semicolon, question, hash, dot, backslash]

variable {path : List UInt8}

theorem not_escaped (h : containsEncodedDelimiter path = false) : ∀ c ∈ guarded, ¬Escaped c path := by
  have hspell : guarded.map spelling =
      [ascii "%2f", ascii "%3b", ascii "%3f", ascii "%23", ascii "%2e", ascii "%5c"] := by
    decide +kernel
  intro c hc he
  have hmem : spelling c ∈ guarded.map spelling := mem_map_of_mem hc
  have hcontains := he.contains
  simp only [containsEncodedDelimiter] at h
  rw [hspell] at hmem
  simp only [mem_cons, not_mem_nil, or_false] at hmem
  rcases hmem with hs | hs | hs | hs | hs | hs <;> rw [hs] at hcontains <;> simp_all

theorem semicolon_notMem (h : containsMatrixParams path = false) : semicolon ∉ path := by
  induction path with
  | nil => exact not_mem_nil
  | cons b rest ih =>
    rw [containsMatrixParams] at h
    split_ifs at h with hb hesc
    rw [mem_cons, not_or]
    exact ⟨fun heq => hb (beq_iff_eq.mpr heq.symm), ih h⟩

theorem dots_of_hasDotSegment (h : hasDotSegment path = false) :
    ∀ segment ∈ pieces path, segment ≠ [dot] ∧ segment ≠ [dot, dot] := by
  have hall := any_eq_false.mp h
  intro segment hmem
  constructor
  · rintro rfl
    exact hall _ ((mem_splitOnP_trimBy (cons_ne_nil _ _)).mpr hmem) rfl
  · rintro rfl
    exact hall _ ((mem_splitOnP_trimBy (cons_ne_nil _ _)).mpr hmem) rfl

theorem ne_percent_of_wellFormed {b : UInt8} {rest : List UInt8} (hb : escape b rest = none)
    (h : hasMalformedPercentEncoding (b :: rest) = false) : b ≠ percent := by
  rintro rfl
  match rest, hb, h with
  | [], _, h => cases h
  | [x], _, h => cases h
  | x :: y :: rest, hb, h =>
    rw [escape_percent, octet] at hb
    rw [hasMalformedPercentEncoding, if_pos rfl] at h
    cases hx : hexValue x with
    | none => simp [hx] at h
    | some hi =>
      cases hy : hexValue y with
      | none => simp [hy] at h
      | some lo => simp [hx, hy] at hb

theorem percentDecodeOnce_eq (h : hasMalformedPercentEncoding path = false) :
    percentDecodeOnce path = some (decode path) := by
  induction path using decode_induct with
  | nil => rfl
  | escaped hi lo v rest hv ih =>
    obtain ⟨a, ha⟩ := Option.ne_none_iff_exists'.mp (hexValue_of_octet hv).1
    obtain ⟨b, hb⟩ := Option.ne_none_iff_exists'.mp (hexValue_of_octet hv).2
    have hv' : (a <<< 4) ||| b = v := by simpa [octet, ha, hb] using hv
    have hrest : hasMalformedPercentEncoding rest = false := by
      simpa [hasMalformedPercentEncoding, ha, hb] using h
    simp [percentDecodeOnce, ha, hb, ih hrest, hv', decode_of_escape hv]
  | plain b rest hb ih =>
    have hne := ne_percent_of_wellFormed hb h
    rw [hasMalformedPercentEncoding.eq_def] at h
    simp only [if_neg hne] at h
    rw [decode_of_plain hb, percentDecodeOnce.eq_def]
    simp [hne, ih h]

/-- The facts that the guards of an accepted path establish. -/
structure Accepted (path : List UInt8) : Prop where
  raw : Hardened path
  rawPlain : ∀ c ∈ guarded, ¬Escaped c path
  decodes : percentDecodeOnce path = some (decode path)
  decoded : Hardened (decode path)
  decodedPlain : ∀ c ∈ guarded, ¬Escaped c (decode path)

theorem accepted_of_allow {limits : Boundary} {path : Text}
    (h : (validateHttpPath limits path).allow = true) : Accepted (utf8 path) := by
  unfold validateHttpPath at h
  dsimp only at h
  split_ifs at h with hlimit hmatrix hconfusion
  · cases h
  · cases h
  · cases h
  · simp only [Bool.or_eq_true, not_or, Bool.not_eq_true] at hmatrix
    simp only [containsPathConfusion, Bool.or_eq_true, not_or, Bool.not_eq_true] at hconfusion
    obtain ⟨⟨hsemi, hquestion⟩, hhash⟩ := hmatrix
    obtain ⟨⟨⟨⟨hback, hencoded⟩, hmalformed⟩, hdots⟩, hdecoded⟩ := hconfusion
    have hdecodes := percentDecodeOnce_eq hmalformed
    rw [hdecodes] at hdecoded
    simp only [Option.map_some, Option.getD_some, Bool.or_eq_false_iff] at hdecoded
    obtain ⟨⟨⟨⟨⟨dback, dsemi⟩, dquestion⟩, dhash⟩, dencoded⟩, ddots⟩ := hdecoded
    refine ⟨⟨?_, dots_of_hasDotSegment hdots⟩, not_escaped hencoded, hdecodes,
      ⟨?_, dots_of_hasDotSegment ddots⟩, not_escaped dencoded⟩
    · have hsemi' := semicolon_notMem hsemi
      simp_all
    · simp_all

/-! ### Decoding once more -/

theorem pieces_decode (h : ∀ c ∈ guarded, ¬Escaped c path) : pieces (decode path) = (pieces path).map decode :=
  splitOnP_decode (by decide) (by decide) (by decide) (h slash (by decide))

theorem count_slash_decode (h : ∀ c ∈ guarded, ¬Escaped c path) : (decode path).count slash = path.count slash := by
  have hlen := congrArg List.length (pieces_decode h)
  rw [length_map, pieces, pieces, length_splitOnP, length_splitOnP] at hlen
  exact Nat.succ_injective hlen

/-- **Decoding keeps a path hardened** if it escapes no guarded byte. -/
theorem Hardened.decode (h : Hardened path) (hplain : ∀ c ∈ guarded, ¬Escaped c path) : Hardened (decode path) where
  delimiter c hc hmem := by
    have hguard : ∀ c ∈ [backslash, semicolon, question, hash], c ∈ guarded ∧ c < 128 := by decide +kernel
    rcases mem_of_mem_decode (hguard c hc).2 hmem with hraw | hesc
    · exact h.delimiter c hc hraw
    · exact hplain c (hguard c hc).1 hesc
  dots segment hmem := by
    rw [pieces_decode hplain, mem_map] at hmem
    obtain ⟨raw, hraw, rfl⟩ := hmem
    -- a dot of the decoded segment stood in the segment
    have hdot : ∀ c ∈ [dot, dot], c < 128 ∧ ¬Escaped c raw := by
      intro c hc
      have hc' : c = dot := by simpa using hc
      subst hc'
      exact ⟨by decide, fun he => hplain dot (by decide) (he.of_infix (infix_of_mem_splitOnP hraw))⟩
    constructor
    · intro heq
      refine (h.dots raw hraw).1 (eq_of_decode_eq heq fun c hc => hdot c ?_)
      exact mem_cons_of_mem _ hc
    · exact fun heq => (h.dots raw hraw).2 (eq_of_decode_eq heq hdot)

/-- **Hardening survives decoding.**  Let an accepted path be decoded once, and once more with
malformed escapes left as they are.  No delimiter and no dot segment appears, the slashes are as
many, and the pieces between them are the decoded pieces. -/
theorem validateHttpPath_hardens_decodings (limits : Boundary) (path : Text)
    (h : (validateHttpPath limits path).allow = true) : ∃ decoded, percentDecodeOnce (utf8 path) = some decoded ∧
      (∀ p ∈ [utf8 path, decoded, decode decoded], Hardened p ∧ p.count slash = (utf8 path).count slash) ∧
      pieces decoded = (pieces (utf8 path)).map decode ∧ pieces (decode decoded) = (pieces decoded).map decode := by
  have hacc := accepted_of_allow h
  have hcount := count_slash_decode hacc.rawPlain
  have hcount' := count_slash_decode hacc.decodedPlain
  refine ⟨_, hacc.decodes, ?_, pieces_decode hacc.rawPlain, pieces_decode hacc.decodedPlain⟩
  intro p hp
  simp only [mem_cons, not_mem_nil, or_false] at hp
  rcases hp with rfl | rfl | rfl
  · exact ⟨hacc.raw, rfl⟩
  · exact ⟨hacc.decoded, hcount⟩
  · exact ⟨hacc.decoded.decode hacc.decodedPlain, hcount'.trans hcount⟩

/-- The escape `%25` and the digits behind it make a new escape, which the second decoding reads. -/
theorem validateHttpPath_hardens_nestedEscape :
    ∃ decoded, percentDecodeOnce (utf8 "/admin//%2541".toList) = some decoded ∧
      (∀ p ∈ [utf8 "/admin//%2541".toList, decoded, decode decoded],
        Hardened p ∧ p.count slash = (utf8 "/admin//%2541".toList).count slash) ∧
      pieces decoded = (pieces (utf8 "/admin//%2541".toList)).map decode ∧
      pieces (decode decoded) = (pieces decoded).map decode :=
  validateHttpPath_hardens_decodings .fallback _ (by decide +kernel)

end McpToolkit.Policy
