import McpToolkit.Lib.Text

/-!
# McpToolkit.Observability.Logfmt — log lines in logfmt

`render_logfmt` of `logging.rs` and a reader of the format: fields are cut at the spaces outside quotes, the key of
a field ends at its first equals sign, and the value is a run without whitespace or a quoted string.
-/

namespace McpToolkit.Observability

open List
open Lib.Text

def isControlChar (c : Char) : Bool := c.toNat ≤ 0x1F || c.toNat == 0x7F

def stripControlChars (value : List Char) : List Char := value.filter fun c => !isControlChar c

def cleanLogValue (value : List Char) : List Char := stripControlChars value

def cleanLogfmtKey (key : List Char) : List Char :=
  (stripControlChars key).filter fun c => !isWhitespace c && c != '=' && c != '"'

/-- A value as it is written: quoted if it holds a character that matters to a reader. -/
def logfmtValue (value : List Char) : List Char :=
  if value.any fun c => isWhitespace c || c == '"' || c == '=' || c == '\\' then
    '"' :: (replaceChar '"' ['\\', '"'] (replaceChar '\\' ['\\', '\\'] value) ++ ['"'])
  else value

def logfmtPart (entry : List Char × List Char) : List Char :=
  cleanLogfmtKey entry.1 ++ '=' :: logfmtValue (cleanLogValue entry.2)

/-- The entries that the loop does not skip. -/
def shown (payload : List (List Char × List Char)) : List (List Char × List Char) :=
  payload.filter fun entry => !entry.2.isEmpty && !(cleanLogfmtKey entry.1).isEmpty

def renderLogfmt (payload : List (List Char × List Char)) : List Char :=
  List.intercalate [' '] ((shown payload).map logfmtPart)

/-! ### Reading -/

inductive Reading where
  | outside
  | quoted
  | escaped
  deriving DecidableEq

/-- The reader after one more character of a field; a space outside quotes ends the field. -/
def Reading.next : Reading → Char → Option Reading
  | .outside, c => if c = ' ' then none else if c = '"' then some .quoted else some .outside
  | .quoted, c => if c = '"' then some .outside else if c = '\\' then some .escaped else some .quoted
  | .escaped, _ => some .quoted

def fields (s : Reading) : List Char → List (List Char)
  | [] => [[]]
  | c :: rest =>
    match s.next c with
    | none => [] :: fields .outside rest
    | some s => (fields s rest).modifyHead (c :: ·)

/-- A string up to the quote that ends the text; `true` behind a backslash. -/
def unquote : Bool → List Char → Option (List Char)
  | _, [] => none
  | true, c :: rest => (unquote false rest).map (c :: ·)
  | false, c :: rest =>
    if c = '"' then (if rest = [] then some [] else none)
    else if c = '\\' then unquote true rest
    else (unquote false rest).map (c :: ·)

def readValue (text : List Char) : Option (List Char) :=
  if text.head? = some '"' then unquote false text.tail
  else if text.any isWhitespace then none
  else some text

def readPair (field : List Char) : Option (List Char × List Char) :=
  match field.dropWhile (· ≠ '=') with
  | [] => none
  | _ :: value => (readValue value).map fun value => (field.takeWhile (· ≠ '='), value)

def parseLogfmt (text : List Char) : Option (List (List Char × List Char)) :=
  if text = [] then some [] else (fields .outside text).mapM readPair

/-! ### Fields are found again -/

theorem fields_append {s s' : Reading} {text : List Char} (h : text.foldlM Reading.next s = some s') (rest : List Char) :
    fields s (text ++ rest) = (fields s' rest).modifyHead (text ++ ·) := by
  induction text generalizing s with
  | nil =>
    obtain rfl := Option.some.inj h
    cases hfields : fields s rest <;> simp [hfields]
  | cons c text ih =>
    rw [foldlM_cons] at h
    obtain ⟨s₁, hs₁, h⟩ := Option.bind_eq_some_iff.mp h
    rw [cons_append, fields, hs₁]
    dsimp only
    rw [ih h, modifyHead_modifyHead]
    rfl

/-- A text that leaves the reader outside quotes, with no space there. -/
def Closed (text : List Char) : Prop := text.foldlM Reading.next .outside = some .outside

theorem fields_intercalate {parts : List (List Char)} (hne : parts ≠ []) (h : ∀ part ∈ parts, Closed part) :
    fields .outside (List.intercalate [' '] parts) = parts := by
  induction parts with
  | nil => exact absurd rfl hne
  | cons part parts ih =>
    rw [forall_mem_cons] at h
    cases parts with
    | nil => simpa [List.intercalate, fields] using fields_append h.1 []
    | cons part' parts =>
      rw [intercalate_cons_cons, append_assoc, fields_append h.1, singleton_append, fields]
      simp [Reading.next, ih (cons_ne_nil _ _) h.2]

theorem closed_of_forall {text : List Char} (h : ∀ c ∈ text, c ≠ ' ' ∧ c ≠ '"') : Closed text := by
  induction text with
  | nil => rfl
  | cons c text ih =>
    rw [forall_mem_cons] at h
    rw [Closed, foldlM_cons, Reading.next, if_neg h.1.1, if_neg h.1.2]
    exact ih h.2

theorem Closed.append {text text' : List Char} (h : Closed text) (h' : Closed text') : Closed (text ++ text') := by
  rw [Closed, foldlM_append, h]
  exact h'

/-! ### Values are read back -/

def escape (c : Char) : List Char := if c = '"' ∨ c = '\\' then ['\\', c] else [c]

theorem replaceChar_replaceChar (value : List Char) :
    replaceChar '"' ['\\', '"'] (replaceChar '\\' ['\\', '\\'] value) = value.flatMap escape := by
  rw [replaceChar, replaceChar, flatMap_assoc]
  refine flatMap_congr fun c _ => ?_
  by_cases hc : c = '\\'
  · subst hc; rfl
  · by_cases hc' : c = '"' <;> simp [escape, hc, hc']

theorem foldlM_escape (value : List Char) : (value.flatMap escape).foldlM Reading.next .quoted = some .quoted := by
  induction value with
  | nil => rfl
  | cons c value ih =>
    rw [flatMap_cons, foldlM_append, escape]
    split_ifs with hc
    · exact ih
    · rw [not_or] at hc
      simp [Reading.next, hc, ih]

theorem unquote_escape (value : List Char) : unquote false (value.flatMap escape ++ ['"']) = some value := by
  induction value with
  | nil => rfl
  | cons c value ih =>
    rw [flatMap_cons, escape]
    split_ifs with hc
    · simp [unquote, ih]
    · rw [not_or] at hc
      simp [unquote, hc, ih]

theorem closed_logfmtValue (value : List Char) : Closed (logfmtValue value) := by
  unfold logfmtValue
  split_ifs with h
  · rw [replaceChar_replaceChar, Closed, foldlM_cons]
    simp [Reading.next, foldlM_escape]
  · refine closed_of_forall fun c hc => ?_
    simp only [any_eq_true, not_exists, not_and, Bool.not_eq_true, Bool.or_eq_false_iff, beq_eq_false_iff_ne] at h
    obtain ⟨⟨⟨hspace, hquote⟩, -⟩, -⟩ := h c hc
    exact ⟨fun hc => by subst hc; revert hspace; decide, hquote⟩

theorem readValue_logfmtValue (value : List Char) : readValue (logfmtValue value) = some value := by
  unfold logfmtValue
  split_ifs with h
  · rw [replaceChar_replaceChar]
    exact unquote_escape value
  · simp only [any_eq_true, not_exists, not_and, Bool.not_eq_true, Bool.or_eq_false_iff, beq_eq_false_iff_ne] at h
    rw [readValue, if_neg, if_neg]
    · simpa using fun c hc => (h c hc).1.1.1
    · exact fun hhead => (h _ (mem_of_mem_head? hhead)).1.1.2 rfl

/-! ### Lines are read back -/

theorem mem_cleanLogfmtKey {key : List Char} {c : Char} (h : c ∈ cleanLogfmtKey key) :
    c ≠ ' ' ∧ c ≠ '"' ∧ c ≠ '=' ∧ isControlChar c = false := by
  simp only [cleanLogfmtKey, stripControlChars, mem_filter, Bool.and_eq_true, Bool.not_eq_true', bne_iff_ne] at h
  obtain ⟨⟨-, hcontrol⟩, ⟨hspace, hequals⟩, hquote⟩ := h
  exact ⟨fun hc => by subst hc; revert hspace; decide, hquote, hequals, hcontrol⟩

theorem closed_logfmtPart (entry : List Char × List Char) : Closed (logfmtPart entry) :=
  (closed_of_forall fun _ hc => ⟨(mem_cleanLogfmtKey hc).1, (mem_cleanLogfmtKey hc).2.1⟩).append
    ((show Closed ['='] from rfl).append (closed_logfmtValue _))

theorem readPair_logfmtPart (entry : List Char × List Char) :
    readPair (logfmtPart entry) = some (cleanLogfmtKey entry.1, cleanLogValue entry.2) := by
  have hkey : ∀ c ∈ cleanLogfmtKey entry.1, decide (c ≠ '=') = true := fun c hc => decide_eq_true (mem_cleanLogfmtKey hc).2.2.1
  rw [readPair, logfmtPart, dropWhile_append_of_pos hkey, takeWhile_append_of_pos hkey]
  simp [readValue_logfmtValue]

theorem not_control_of_mem_logfmtPart {entry : List Char × List Char} {c : Char} (h : c ∈ logfmtPart entry) :
    isControlChar c = false := by
  rw [logfmtPart, mem_append, mem_cons] at h
  rcases h with hkey | rfl | hvalue
  · exact (mem_cleanLogfmtKey hkey).2.2.2
  · decide
  have hclean : ∀ c ∈ cleanLogValue entry.2, isControlChar c = false :=
    fun c hc => by simpa using (mem_filter.mp hc).2
  unfold logfmtValue at hvalue
  split_ifs at hvalue
  · rw [replaceChar_replaceChar] at hvalue
    simp only [mem_cons, mem_append, mem_flatMap, escape, not_mem_nil, or_false] at hvalue
    rcases hvalue with rfl | ⟨d, hd, hc⟩ | rfl
    · decide
    · split_ifs at hc
      · rcases mem_pair.mp hc with rfl | rfl
        · decide
        · exact hclean _ hd
      · exact mem_singleton.mp hc ▸ hclean d hd
    · decide
  · exact hclean c hvalue

theorem shown_eq (payload : List (List Char × List Char)) :
    shown payload = payload.filter fun entry => entry.2 ≠ [] ∧ cleanLogfmtKey entry.1 ≠ [] :=
  filter_congr fun entry _ => by cases entry.2 <;> cases cleanLogfmtKey entry.1 <;> simp

/-- **Log lines cannot be forged**: the text stays on one line, and a reader finds one pair for every entry whose value
and cleaned key are not empty, with the cleaned key and the value without control characters. -/
theorem renderLogfmt_read_back (payload : List (List Char × List Char)) :
    '\r' ∉ renderLogfmt payload ∧ '\n' ∉ renderLogfmt payload ∧ parseLogfmt (renderLogfmt payload) =
      some ((payload.filter fun entry => entry.2 ≠ [] ∧ cleanLogfmtKey entry.1 ≠ []).map fun entry =>
        (cleanLogfmtKey entry.1, entry.2.filter fun c => 0x1F < c.toNat ∧ c.toNat ≠ 0x7F)) := by
  have hstrip : ∀ value : List Char, (value.filter fun c => 0x1F < c.toNat ∧ c.toNat ≠ 0x7F) = stripControlChars value :=
    fun value => filter_congr fun c _ => by grind [isControlChar]
  simp only [← shown_eq, hstrip]
  have hcontrol : ∀ c ∈ renderLogfmt payload, isControlChar c = false := by
    rw [renderLogfmt]
    cases shown payload with
    | nil => exact fun c hc => absurd hc not_mem_nil
    | cons entry entries =>
      rw [map_cons, intercalate_cons]
      simp only [mem_append, mem_flatMap, mem_map, mem_singleton]
      rintro c (hc | ⟨-, ⟨entry', -, rfl⟩, rfl | hc⟩)
      · exact not_control_of_mem_logfmtPart hc
      · decide
      · exact not_control_of_mem_logfmtPart hc
  refine ⟨fun h => absurd (hcontrol _ h) (by decide), fun h => absurd (hcontrol _ h) (by decide), ?_⟩
  rw [renderLogfmt]
  cases shown payload with
  | nil => rfl
  | cons entry entries =>
    have hfields := fields_intercalate (show (entry :: entries).map logfmtPart ≠ [] from cons_ne_nil _ _)
      (forall_mem_map.mpr fun entry _ => closed_logfmtPart entry)
    have hne : List.intercalate [' '] ((entry :: entries).map logfmtPart) ≠ [] := by
      intro hnil
      rw [hnil] at hfields
      simp [fields, logfmtPart] at hfields
    have hpairs : readPair ∘ logfmtPart = fun entry => pure (cleanLogfmtKey entry.1, stripControlChars entry.2) :=
      funext readPair_logfmtPart
    rw [parseLogfmt, if_neg hne, hfields, mapM_map, hpairs, mapM_pure]
    rfl

-- a value that looks like another field stays inside its quotes
example : renderLogfmt [("user".toList, "a\" b=c".toList), ("=".toList, "x".toList)] = "user=\"a\\\" b=c\"".toList ∧
    parseLogfmt "user=\"a\\\" b=c\"".toList = some [("user".toList, "a\" b=c".toList)] := by decide

end McpToolkit.Observability
