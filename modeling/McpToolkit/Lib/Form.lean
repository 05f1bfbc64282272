import McpToolkit.Lib.Percent
import McpToolkit.Lib.Segments

/-!
# McpToolkit.Lib.Form — `application/x-www-form-urlencoded`

A form is a list of names with their values.  `write` joins the fields with `&`; in a name or a value
letters, digits and `*-._` stand for themselves, a space is written `+`, and every other byte of the
UTF-8 text is escaped.  `parse` splits at `&`, then at the first `=`, reads `+` as a space, undoes the
escapes and reads UTF-8.  What is written is read back (`parse_write`).
-/

namespace McpToolkit.Lib.Form

open List
open Text Percent Segments

def space : UInt8 := 32
def ampersand : UInt8 := 38
def plus : UInt8 := 43
def equals : UInt8 := 61

/-! ### Writing -/

/-- The bytes that stand for themselves. -/
def isUnreserved (b : UInt8) : Bool :=
  b == 42 || b == 45 || b == 46 || (48 ≤ b && b ≤ 57) || (65 ≤ b && b ≤ 90) || b == 95 || (97 ≤ b && b ≤ 122)

def upperDigit (d : UInt8) : UInt8 := if d < 10 then 48 + d else 55 + d

def writeByte (b : UInt8) : List UInt8 :=
  if isUnreserved b then [b]
  else if b = space then [plus]
  else [percent, upperDigit (b >>> 4), upperDigit (b &&& 15)]

def writeText (text : List Char) : List UInt8 := (utf8 text).flatMap writeByte

def writeField (field : List Char × List Char) : List UInt8 :=
  writeText field.1 ++ equals :: writeText field.2

def write (fields : List (List Char × List Char)) : List UInt8 := join ampersand (fields.map writeField)

/-! ### Reading -/

/-- Percent decoding to bytes; a malformed escape is left as it is. -/
def unescape : List UInt8 → List UInt8
  | [] => []
  | b :: rest =>
    match escape b rest with
    | none => b :: unescape rest
    | some v =>
      v ::
        match rest with
        | _ :: _ :: rest => unescape rest
        | _ => []

def readText (bytes : List UInt8) : Option (List Char) :=
  utf8Decode (unescape (bytes.map fun b => if b = plus then space else b))

def parseField (piece : List UInt8) : Option (List Char × List Char) := do
  let name ← readText (piece.takeWhile (· ≠ equals))
  let value ← readText ((piece.dropWhile (· ≠ equals)).drop 1)
  return (name, value)

def parse (body : List UInt8) : Option (List (List Char × List Char)) :=
  (segments ampersand body).mapM parseField

/-! ### What is written is read back -/

theorem unescape_of_escape {h l v : UInt8} {rest : List UInt8} (hv : octet h l = some v) :
    unescape (percent :: h :: l :: rest) = v :: unescape rest := by
  rw [unescape, escape_percent, hv]

variable {b : UInt8} {fields : List (List Char × List Char)}

theorem unescape_of_plain {rest : List UInt8} (hb : escape b rest = none) :
    unescape (b :: rest) = b :: unescape rest := by
  rw [unescape.eq_def]
  simp only [hb]

theorem unescape_of_ne (hb : b ≠ percent) (rest : List UInt8) : unescape (b :: rest) = b :: unescape rest :=
  unescape_of_plain (escape_of_ne hb rest)

theorem octet_upperDigit : ∀ b : UInt8, octet (upperDigit (b >>> 4)) (upperDigit (b &&& 15)) = some b :=
  forall_byte (by decide +kernel)

theorem mem_writeByte {c : UInt8} (h : c ∈ writeByte b) : c ≠ ampersand ∧ c ≠ equals := by
  have hall : ∀ b : UInt8, (writeByte b).all (fun c => c ≠ ampersand ∧ c ≠ equals) = true :=
    forall_byte (by decide +kernel)
  exact of_decide_eq_true (all_eq_true.mp (hall b) c h)

theorem isUnreserved_ne : ∀ b : UInt8, isUnreserved b = true → b ≠ plus ∧ b ≠ percent :=
  forall_byte (by decide +kernel)

theorem upperDigit_ne_plus : ∀ b : UInt8, upperDigit (b >>> 4) ≠ plus ∧ upperDigit (b &&& 15) ≠ plus :=
  forall_byte (by decide +kernel)

theorem unescape_writeByte (b : UInt8) (rest : List UInt8) :
    unescape ((writeByte b ++ rest).map fun b => if b = plus then space else b) =
      b :: unescape (rest.map fun b => if b = plus then space else b) := by
  unfold writeByte
  by_cases hb : isUnreserved b = true
  · obtain ⟨hplus, hpercent⟩ := isUnreserved_ne b hb
    rw [if_pos hb, singleton_append, map_cons, if_neg hplus, unescape_of_ne hpercent]
  · rw [if_neg hb]
    by_cases hs : b = space
    · rw [if_pos hs, singleton_append, map_cons, if_pos rfl, unescape_of_ne (by decide), hs]
    · obtain ⟨hhigh, hlow⟩ := upperDigit_ne_plus b
      rw [if_neg hs, cons_append, cons_append, singleton_append, map_cons, map_cons,
        map_cons, if_neg (by decide), if_neg hhigh, if_neg hlow, unescape_of_escape (octet_upperDigit b)]

theorem unescape_flatMap_writeByte (l : List UInt8) :
    unescape ((l.flatMap writeByte).map fun b => if b = plus then space else b) = l := by
  induction l with
  | nil => rfl
  | cons b l ih => rw [flatMap_cons, unescape_writeByte, ih]

theorem readText_writeText (text : List Char) : readText (writeText text) = some text := by
  rw [readText, writeText, unescape_flatMap_writeByte, utf8Decode_utf8]

theorem not_mem_writeText (text : List Char) : ampersand ∉ writeText text ∧ equals ∉ writeText text := by
  constructor <;> intro h <;> obtain ⟨b, -, hb⟩ := mem_flatMap.mp h
  · exact (mem_writeByte hb).1 rfl
  · exact (mem_writeByte hb).2 rfl

theorem writeField_ne_nil (field : List Char × List Char) : writeField field ≠ [] :=
  append_ne_nil_of_right_ne_nil _ (cons_ne_nil _ _)

theorem isSegment_writeField (field : List Char × List Char) : IsSegment ampersand (writeField field) := by
  refine ⟨writeField_ne_nil field, fun h => ?_⟩
  rcases mem_append.mp h with h | h
  · exact (not_mem_writeText _).1 h
  · rcases mem_cons.mp h with h | h
    · exact absurd h (by decide)
    · exact (not_mem_writeText _).1 h

theorem takeWhile_field {name value : List UInt8} (h : equals ∉ name) :
    (name ++ equals :: value).takeWhile (· ≠ equals) = name := by
  have hname : ∀ b ∈ name, decide (b ≠ equals) = true := fun b hb => decide_eq_true fun heq => h (heq ▸ hb)
  rw [takeWhile_append_of_pos hname, takeWhile_cons_of_neg (by simp), append_nil]

theorem dropWhile_field {name value : List UInt8} (h : equals ∉ name) :
    ((name ++ equals :: value).dropWhile (· ≠ equals)).drop 1 = value := by
  have hname : ∀ b ∈ name, decide (b ≠ equals) = true := fun b hb => decide_eq_true fun heq => h (heq ▸ hb)
  rw [dropWhile_append_of_pos hname, dropWhile_cons_of_neg (by simp), drop_one, tail_cons]

theorem parseField_writeField (field : List Char × List Char) : parseField (writeField field) = some field := by
  have hname := (not_mem_writeText field.1).2
  rw [parseField, writeField, takeWhile_field hname, dropWhile_field hname, readText_writeText, readText_writeText]
  rfl

theorem mapM_parseField (fields : List (List Char × List Char)) :
    (fields.map writeField).mapM parseField = some fields := by
  induction fields with
  | nil => rfl
  | cons field fields ih => rw [map_cons, mapM_cons, parseField_writeField, ih]; rfl

theorem isSegment_of_mem_writeField {s : List UInt8} (hs : s ∈ fields.map writeField) : IsSegment ampersand s := by
  obtain ⟨field, -, rfl⟩ := mem_map.mp hs
  exact isSegment_writeField field

/-- **The round trip.** -/
theorem parse_write (fields : List (List Char × List Char)) : parse (write fields) = some fields := by
  rw [parse, write, segments_join fun _ => isSegment_of_mem_writeField, mapM_parseField]

/-! ### A form that grows -/

theorem write_singleton (field : List Char × List Char) : write [field] = writeField field := join_singleton _

theorem write_append {fields' : List (List Char × List Char)} (h : fields ≠ []) (h' : fields' ≠ []) :
    write (fields ++ fields') = write fields ++ ampersand :: write fields' := by
  rw [write, map_append, join_append (mt map_eq_nil_iff.mp h) (mt map_eq_nil_iff.mp h')]
  rfl

theorem write_ne_nil (h : fields ≠ []) : write fields ≠ [] := by
  obtain ⟨field, fields, rfl⟩ := exists_cons_of_ne_nil h
  cases fields with
  | nil => rw [write_singleton]; exact writeField_ne_nil field
  | cons field' fields =>
    have happend := write_append (cons_ne_nil field []) (cons_ne_nil field' fields)
    rw [singleton_append] at happend
    exact append_ne_nil_of_right_ne_nil _ (cons_ne_nil _ _)

theorem length_write_le (fields fields' : List (List Char × List Char)) :
    (write fields).length ≤ (write (fields ++ fields')).length := by
  by_cases h : fields = []
  · rw [h]; exact Nat.zero_le _
  · by_cases h' : fields' = []
    · rw [h', append_nil]
    · rw [write_append h h', length_append]
      exact Nat.le_add_right _ _

end McpToolkit.Lib.Form
