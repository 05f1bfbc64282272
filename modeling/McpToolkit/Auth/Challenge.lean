import McpToolkit.Lib.HttpAuth

/-!
# McpToolkit.Auth.Challenge — Bearer challenges

`build_bearer_challenge` of `challenge.rs`.  Texts are lists of characters.  Which texts `HeaderValue`
takes is for its library to say (`accepts`); a text that it refuses is replaced by `Bearer`.

A value loses its control characters and the blanks at its ends, and its quotes and backslashes are
escaped in two passes.  So the header reads as one challenge, with the values as they were sanitised
(`bearerChallenge_reads`).
-/

namespace McpToolkit.Auth

open List
open Lib
open Lib.Text

structure BearerChallenge where
  realm : List Char
  resourceMetadata : Option (List Char)
  scope : Option (List Char)
  error : Option (List Char)
  errorDescription : Option (List Char)
  errorUri : Option (List Char)
  deriving DecidableEq

def sanitizeValue (value : List Char) : List Char := trim (value.filter fun c => !isControl c)

def escapeQuoted (value : List Char) : List Char :=
  replaceChar '"' "\\\"".toList (replaceChar '\\' "\\\\".toList value)

def formatParam (name : String) (escaped : List Char) : List Char :=
  name.toList ++ "=\"".toList ++ escaped ++ "\"".toList

def pushParam (parts : List (List Char)) (name : String) (value : List Char) : List (List Char) :=
  if (sanitizeValue value).isEmpty then parts
  else parts ++ [formatParam name (escapeQuoted (sanitizeValue value))]

def pushOptional (parts : List (List Char)) (name : String) : Option (List Char) → List (List Char)
  | some value => pushParam parts name value
  | none => parts

def challengeValue (challenge : BearerChallenge) : List Char :=
  let parts := ["Bearer ".toList ++ formatParam "realm" (escapeQuoted (sanitizeValue challenge.realm))]
  let parts := pushOptional parts "resource_metadata" challenge.resourceMetadata
  let parts := pushOptional parts "scope" challenge.scope
  let parts := pushOptional parts "error" challenge.error
  let parts := pushOptional parts "error_description" challenge.errorDescription
  let parts := pushOptional parts "error_uri" challenge.errorUri
  List.intercalate ", ".toList parts

/-- The bytes of the header value. -/
def buildBearerChallenge (accepts : List UInt8 → Bool) (challenge : BearerChallenge) : List UInt8 :=
  if accepts (utf8 (challengeValue challenge)) then utf8 (challengeValue challenge) else ascii "Bearer"

/-! ### What the header should read as -/

def BearerChallenge.optionalFields (challenge : BearerChallenge) : List (String × Option (List Char)) :=
  [("resource_metadata", challenge.resourceMetadata), ("scope", challenge.scope), ("error", challenge.error),
    ("error_description", challenge.errorDescription), ("error_uri", challenge.errorUri)]

/-- The sanitised value of a field that is there and not empty then. -/
def sanitizedField (field : String × Option (List Char)) : Option (String × List Char) :=
  match field.2 with
  | some value => if (sanitizeValue value).isEmpty then none else some (field.1, sanitizeValue value)
  | none => none

def BearerChallenge.params (challenge : BearerChallenge) : List (String × List Char) :=
  ("realm", sanitizeValue challenge.realm) :: challenge.optionalFields.filterMap sanitizedField

/-- A parameter in bytes. -/
def paramBytes (param : String × List Char) : List UInt8 × List UInt8 := (utf8 param.1.toList, utf8 param.2)

/-! ### Escaping -/

theorem flatMap_escape_of_plain {c : Char} (hquote : c ≠ '"') (hback : c ≠ '\\') :
    (String.utf8EncodeChar c).flatMap HttpAuth.escape = String.utf8EncodeChar c := by
  have hplain : ∀ b ∈ String.utf8EncodeChar c, HttpAuth.escape b = [b] := by
    intro b hb
    refine if_neg ?_
    by_cases hascii : c.toNat < 128
    · rw [utf8EncodeChar_of_lt hascii, mem_singleton] at hb
      rw [hb]
      exact forall_ascii (P := fun c => c ≠ '"' → c ≠ '\\' →
        ¬(c.toNat.toUInt8 = HttpAuth.quote ∨ c.toNat.toUInt8 = HttpAuth.backslash)) (by decide)
        hascii hquote hback
    · have hhigh := le_of_mem_utf8EncodeChar hascii hb
      rintro (rfl | rfl) <;> exact absurd hhigh (by decide)
  rw [flatMap_congr hplain, flatMap_singleton']

theorem utf8_escapeQuoted (value : List Char) : utf8 (escapeQuoted value) = (utf8 value).flatMap HttpAuth.escape := by
  induction value with
  | nil => rfl
  | cons c value ih =>
    have hcons : escapeQuoted (c :: value) = escapeQuoted [c] ++ escapeQuoted value := by
      simp [escapeQuoted, replaceChar]
    have hchar : utf8 (escapeQuoted [c]) = (String.utf8EncodeChar c).flatMap HttpAuth.escape := by
      by_cases hback : c = '\\'
      · rw [hback]; decide
      · by_cases hquote : c = '"'
        · rw [hquote]; decide
        · rw [flatMap_escape_of_plain hquote hback]
          simp [escapeQuoted, replaceChar, hback, hquote, utf8]
    rw [hcons, utf8_append, hchar, ih, utf8_cons, flatMap_append]

theorem isQuotable_sanitizeValue {value : List Char} {b : UInt8} (h : b ∈ utf8 (sanitizeValue value)) :
    HttpAuth.isQuotable b = true := by
  obtain ⟨c, hc, hb⟩ := mem_flatMap.mp h
  have hcontrol : isControl c = false := by
    simpa using (mem_filter.mp (mem_of_mem_trimBy hc)).2
  by_cases hascii : c.toNat < 128
  · rw [utf8EncodeChar_of_lt hascii, mem_singleton] at hb
    rw [hb]
    exact forall_ascii (P := fun c => isControl c = false → HttpAuth.isQuotable c.toNat.toUInt8 = true)
      (by decide) hascii hcontrol
  · exact forall_byte (P := fun b => 128 ≤ b → HttpAuth.isQuotable b = true) (by decide +kernel) b
      (le_of_mem_utf8EncodeChar hascii hb)

/-! ### The header -/

theorem pushOptional_eq (parts : List (List Char)) (name : String) (value : Option (List Char)) :
    pushOptional parts name value =
      parts ++ (sanitizedField (name, value)).toList.map fun p => formatParam p.1 (escapeQuoted p.2) := by
  cases value with
  | none => simp [pushOptional, sanitizedField]
  | some value =>
    unfold pushOptional pushParam sanitizedField
    dsimp only
    split_ifs <;> simp

theorem utf8_formatParam (param : String × List Char) :
    utf8 (formatParam param.1 (escapeQuoted param.2)) = HttpAuth.writeParam (paramBytes param) := by
  have hopen : utf8 "=\"".toList = [HttpAuth.equals, HttpAuth.quote] := by decide
  have hclose : utf8 "\"".toList = [HttpAuth.quote] := by decide
  rw [formatParam, utf8_append, utf8_append, utf8_append, hopen, hclose, utf8_escapeQuoted]
  simp [HttpAuth.writeParam, paramBytes]

theorem challengeValue_eq (challenge : BearerChallenge) : challengeValue challenge = List.intercalate ", ".toList
      (("Bearer ".toList ++ formatParam "realm" (escapeQuoted (sanitizeValue challenge.realm))) ::
        (challenge.optionalFields.filterMap sanitizedField).map fun p => formatParam p.1 (escapeQuoted p.2)) := by
  unfold challengeValue BearerChallenge.optionalFields
  simp only [pushOptional_eq, filterMap_eq_flatMap_toList, flatMap_cons, flatMap_nil, map_append,
    append_assoc, cons_append, nil_append, append_nil]

theorem utf8_challengeValue (challenge : BearerChallenge) :
    utf8 (challengeValue challenge) = HttpAuth.write (ascii "Bearer")
      (paramBytes ("realm", sanitizeValue challenge.realm))
      ((challenge.optionalFields.filterMap sanitizedField).map paramBytes) := by
  have hscheme : utf8 "Bearer ".toList = ascii "Bearer" ++ [32] := by decide
  have hcomma : utf8 ", ".toList = [HttpAuth.comma, 32] := by decide
  have hrealm := utf8_formatParam ("realm", sanitizeValue challenge.realm)
  have hmore : ∀ params : List (String × List Char),
      utf8 ((params.map fun p => formatParam p.1 (escapeQuoted p.2)).flatMap (", ".toList ++ ·)) =
        HttpAuth.writeMore (params.map paramBytes) := by
    intro params
    induction params with
    | nil => rfl
    | cons param params ih =>
      rw [map_cons, flatMap_cons, utf8_append, utf8_append, hcomma, utf8_formatParam, ih]
      simp [HttpAuth.writeMore]
  rw [challengeValue_eq, intercalate_cons, utf8_append, utf8_append, hscheme, hrealm, hmore, HttpAuth.write]
  simp

theorem isParam_paramBytes {name : String} (value : List Char) (h : HttpAuth.IsToken (utf8 name.toList)) :
    HttpAuth.IsParam (paramBytes (name, sanitizeValue value)) :=
  ⟨h, fun _ hb => isQuotable_sanitizeValue hb⟩

theorem isParam_of_mem {challenge : BearerChallenge} {param : String × List Char}
    (h : param ∈ challenge.optionalFields.filterMap sanitizedField) : HttpAuth.IsParam (paramBytes param) := by
  obtain ⟨⟨name, value⟩, hfield, hparam⟩ := mem_filterMap.mp h
  have hname : name ∈ ["resource_metadata", "scope", "error", "error_description", "error_uri"] :=
    mem_map_of_mem (f := Prod.fst) hfield
  have htoken : ∀ name ∈ ["resource_metadata", "scope", "error", "error_description", "error_uri"],
      HttpAuth.IsToken (utf8 name.toList) := by decide
  cases value with
  | none => cases hparam
  | some value =>
    obtain ⟨-, hparam⟩ := Option.ite_none_left_eq_some.mp hparam
    rw [← Option.some.inj hparam]
    exact isParam_paramBytes value (htoken name hname)

/-- **Nothing can be injected into a challenge.**  The header is the bare scheme, or it reads as one
Bearer challenge that has the realm and then the fields that are there and not empty when they are
sanitised, in their order and with their sanitised values. -/
theorem bearerChallenge_reads (accepts : List UInt8 → Bool) (challenge : BearerChallenge) :
    buildBearerChallenge accepts challenge = ascii "Bearer" ∨ HttpAuth.parse (buildBearerChallenge accepts challenge) =
        some [⟨ascii "Bearer", none, challenge.params.map paramBytes⟩] := by
  unfold buildBearerChallenge
  split_ifs
  · refine .inr ?_
    rw [utf8_challengeValue]
    refine HttpAuth.parse_write (by decide) (isParam_paramBytes _ (by decide)) fun param hparam => ?_
    obtain ⟨param, hmem, rfl⟩ := mem_map.mp hparam
    exact isParam_of_mem hmem
  · exact .inl rfl

end McpToolkit.Auth
