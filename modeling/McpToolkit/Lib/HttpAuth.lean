import McpToolkit.Lib.Text

/-!
# McpToolkit.Lib.HttpAuth — authentication challenges in a header

The grammar of `WWW-Authenticate` in RFC 9110, on bytes: a list of challenges, separated by commas.  A
challenge is a scheme, alone or followed by a single `token68` or by parameters, and the parameters
are separated by commas as well.  So an element of the list that reads as a parameter belongs to the
challenge before it, and any other element starts a challenge.  List elements may be empty, and blanks
are allowed around commas and around `=`.

`write` is a challenge with quoted values; it is read back as that one challenge (`parse_write`).
-/

namespace McpToolkit.Lib.HttpAuth

open List

def blank (b : UInt8) : Bool := b == 32 || b == 9

def isAlnum (b : UInt8) : Bool := (48 ≤ b && b ≤ 57) || (65 ≤ b && b ≤ 90) || (97 ≤ b && b ≤ 122)

/-- `tchar`: letters, digits and ``!#$%&'*+-.^_`|~``. -/
def isTokenByte (b : UInt8) : Bool :=
  isAlnum b || [33, 35, 36, 37, 38, 39, 42, 43, 45, 46, 94, 95, 96, 124, 126].contains b

/-- What may stand in a quoted string after a backslash: tabs, spaces, visible and opaque bytes. -/
def isQuotable (b : UInt8) : Bool := b == 9 || (32 ≤ b && b ≠ 127)

def quote : UInt8 := 34
def comma : UInt8 := 44
def equals : UInt8 := 61
def backslash : UInt8 := 92

/-- `qdtext`. -/
def isQuotedText (b : UInt8) : Bool := isQuotable b && b ≠ quote && b ≠ backslash

structure Challenge where
  scheme : List UInt8
  token68 : Option (List UInt8)
  params : List (List UInt8 × List UInt8)
  deriving DecidableEq

/-! ### Reading -/

/-- A token, and the rest. -/
def readToken (l : List UInt8) : Option (List UInt8 × List UInt8) :=
  if (l.takeWhile isTokenByte).isEmpty then none else some (l.takeWhile isTokenByte, l.dropWhile isTokenByte)

/-- A quoted string after its first quote, and the rest. -/
def readQuoted : List UInt8 → Option (List UInt8 × List UInt8)
  | [] => none
  | b :: l =>
    if b = quote then some ([], l)
    else if b = backslash then
      match l with
      | [] => none
      | c :: l => if isQuotable c then (readQuoted l).map fun r => (c :: r.1, r.2) else none
    else if isQuotedText b then (readQuoted l).map fun r => (b :: r.1, r.2)
    else none

/-- A parameter, and the rest. -/
def readParam (l : List UInt8) : Option ((List UInt8 × List UInt8) × List UInt8) := do
  let (name, l) ← readToken l
  match l.dropWhile blank with
  | [] => none
  | b :: l =>
    if b = equals then
      match l.dropWhile blank with
      | [] => none
      | c :: l =>
        let (value, l) ← if c = quote then readQuoted l else readToken (c :: l)
        return ((name, value), l)
    else none

/-- The end of a list element: the end of the header, or a comma; and the rest. -/
def readEnd (l : List UInt8) : Option (List UInt8) :=
  match l.dropWhile blank with
  | [] => some []
  | b :: l => if b = comma then some l else none

/-- A parameter that is a list element. -/
def readParamElement (l : List UInt8) : Option ((List UInt8 × List UInt8) × List UInt8) := do
  let (param, l) ← readParam l
  let l ← readEnd l
  return (param, l)

/-- A `token68` that is a list element. -/
def readToken68 (l : List UInt8) : Option (List UInt8 × List UInt8) :=
  let isByte := fun b => isAlnum b || [43, 45, 46, 47, 95, 126].contains b
  let text := l.takeWhile isByte
  let pad := (l.dropWhile isByte).takeWhile (· == equals)
  if text.isEmpty then none
  else (readEnd ((l.dropWhile isByte).dropWhile (· == equals))).map fun l => (text ++ pad, l)

/-- An element that starts a challenge. -/
def readStart (l : List UInt8) : Option (Challenge × List UInt8) := do
  let (scheme, l) ← readToken l
  match readEnd l with
  | some l => return (⟨scheme, none, []⟩, l)
  | none =>
    if l.head? = some 32 then
      match readParamElement (l.dropWhile (· == 32)) with
      | some (param, l) => return (⟨scheme, none, [param]⟩, l)
      | none =>
        let (token, l) ← readToken68 (l.dropWhile (· == 32))
        return (⟨scheme, some token, []⟩, l)
    else none

/-- The elements from here on, for the challenge that was started last; the number bounds the
elements. -/
def readParams : ℕ → Challenge → List UInt8 → Option (List Challenge)
  | 0, _, _ => none
  | n + 1, challenge, l =>
    match l.dropWhile fun b => blank b || b == comma with
    | [] => some [challenge]
    | b :: l =>
      match readParamElement (b :: l) with
      | some (param, l) =>
        if challenge.token68.isSome then none
        else readParams n { challenge with params := challenge.params ++ [param] } l
      | none => do
        let (next, l) ← readStart (b :: l)
        return challenge :: (← readParams n next l)

def parse (header : List UInt8) : Option (List Challenge) :=
  match header.dropWhile fun b => blank b || b == comma with
  | [] => some []
  | b :: l => do
    let (challenge, l) ← readStart (b :: l)
    readParams header.length challenge l

/-! ### Writing -/

def escape (b : UInt8) : List UInt8 := if b = quote ∨ b = backslash then [backslash, b] else [b]

def writeParam (param : List UInt8 × List UInt8) : List UInt8 :=
  param.1 ++ equals :: quote :: (param.2.flatMap escape ++ [quote])

/-- Further parameters, each after a comma and a space. -/
def writeMore (params : List (List UInt8 × List UInt8)) : List UInt8 :=
  params.flatMap fun param => comma :: 32 :: writeParam param

def write (scheme : List UInt8) (param : List UInt8 × List UInt8) (params : List (List UInt8 × List UInt8)) :
    List UInt8 :=
  scheme ++ 32 :: (writeParam param ++ writeMore params)

/-! ### What is written is read back -/

def IsToken (l : List UInt8) : Prop := l ≠ [] ∧ ∀ b ∈ l, isTokenByte b = true

instance : DecidablePred IsToken := fun l =>
  @instDecidableAnd _ _ inferInstance (List.decidableBAll (fun b => isTokenByte b = true) l)

/-- A name, and a value that a quoted string can have. -/
def IsParam (param : List UInt8 × List UInt8) : Prop :=
  IsToken param.1 ∧ ∀ b ∈ param.2, isQuotable b = true

theorem not_blank_of_isTokenByte : ∀ b : UInt8, isTokenByte b = true → (blank b || b == comma) = false :=
  Text.forall_byte (by decide +kernel)

variable {param : List UInt8 × List UInt8} {b : UInt8}

theorem readToken_append {token rest : List UInt8} (h : IsToken token) (hb : isTokenByte b = false) :
    readToken (token ++ b :: rest) = some (token, b :: rest) := by
  have htake : (token ++ b :: rest).takeWhile isTokenByte = token := by
    rw [takeWhile_append_of_pos h.2, takeWhile_cons_of_neg (by simp [hb]), append_nil]
  have hdrop : (token ++ b :: rest).dropWhile isTokenByte = b :: rest := by
    rw [dropWhile_append_of_pos h.2, dropWhile_cons_of_neg (by simp [hb])]
  rw [readToken, htake, hdrop, if_neg (by simpa using h.1)]

theorem readQuoted_quote (l : List UInt8) : readQuoted (quote :: l) = some ([], l) := by
  rw [readQuoted.eq_def]
  exact if_pos rfl

theorem readQuoted_pair (h : isQuotable b = true) (l : List UInt8) :
    readQuoted (backslash :: b :: l) = (readQuoted l).map fun r => (b :: r.1, r.2) := by
  rw [readQuoted.eq_def]
  dsimp only
  rw [if_neg (by decide), if_pos rfl, if_pos h]

theorem readQuoted_text (h : isQuotable b = true) (hesc : ¬(b = quote ∨ b = backslash))
    (l : List UInt8) : readQuoted (b :: l) = (readQuoted l).map fun r => (b :: r.1, r.2) := by
  obtain ⟨hquote, hback⟩ := not_or.mp hesc
  have htext : isQuotedText b = true := by simp [isQuotedText, h, hquote, hback]
  rw [readQuoted.eq_def]
  dsimp only
  rw [if_neg hquote, if_neg hback, if_pos htext]

theorem readQuoted_escape {value : List UInt8} (h : ∀ b ∈ value, isQuotable b = true) (rest : List UInt8) :
    readQuoted (value.flatMap escape ++ quote :: rest) = some (value, rest) := by
  induction value with
  | nil => exact readQuoted_quote rest
  | cons b value ih =>
    rw [forall_mem_cons] at h
    rw [flatMap_cons, append_assoc, escape]
    by_cases hesc : b = quote ∨ b = backslash
    · rw [if_pos hesc, cons_append, singleton_append, readQuoted_pair h.1, ih h.2]
      rfl
    · rw [if_neg hesc, singleton_append, readQuoted_text h.1 hesc, ih h.2]
      rfl

theorem readParam_writeParam (h : IsParam param) (rest : List UInt8) :
    readParam (writeParam param ++ rest) = some (param, rest) := by
  have htext : writeParam param ++ rest =
      param.1 ++ equals :: quote :: (param.2.flatMap escape ++ quote :: rest) := by
    simp [writeParam]
  have hquoted := readQuoted_escape h.2 rest
  have hequals : (equals :: quote :: (param.2.flatMap escape ++ quote :: rest)).dropWhile blank =
      equals :: quote :: (param.2.flatMap escape ++ quote :: rest) := dropWhile_cons_of_neg (by decide)
  have hquote : (quote :: (param.2.flatMap escape ++ quote :: rest)).dropWhile blank =
      quote :: (param.2.flatMap escape ++ quote :: rest) := dropWhile_cons_of_neg (by decide)
  rw [readParam, htext, readToken_append h.1 (by decide)]
  simp only [Option.bind_eq_bind, Option.bind_some, hequals, hquote, if_pos, hquoted]
  rfl

/-- The rest after the comma that ends an element. -/
def afterComma : List (List UInt8 × List UInt8) → List UInt8
  | [] => []
  | param :: params => 32 :: (writeParam param ++ writeMore params)

theorem length_le_writeMore (params : List (List UInt8 × List UInt8)) : params.length ≤ (writeMore params).length := by
  induction params with
  | nil => exact le_rfl
  | cons param params ih =>
    rw [writeMore, flatMap_cons, ← writeMore, length_append, length_cons, length_cons]
    omega

theorem readEnd_writeMore (params : List (List UInt8 × List UInt8)) :
    readEnd (writeMore params) = some (afterComma params) := by
  cases params with
  | nil => rfl
  | cons param params =>
    rfl

theorem readParamElement_write (h : IsParam param) (params : List (List UInt8 × List UInt8)) :
    readParamElement (writeParam param ++ writeMore params) = some (param, afterComma params) := by
  rw [readParamElement, readParam_writeParam h]
  simp only [Option.bind_eq_bind, Option.bind_some, readEnd_writeMore]
  rfl

theorem writeParam_eq_cons (h : IsParam param) (rest : List UInt8) :
    ∃ b l, isTokenByte b = true ∧ writeParam param ++ rest = b :: l := by
  obtain ⟨b, name, hname⟩ := exists_cons_of_ne_nil h.1.1
  refine ⟨b, name ++ (equals :: quote :: (param.2.flatMap escape ++ [quote])) ++ rest, h.1.2 b ?_, ?_⟩
  · rw [hname]; exact mem_cons_self
  · rw [writeParam, hname]; simp

theorem readParams_write {params : List (List UInt8 × List UInt8)} (h : ∀ param ∈ params, IsParam param)
    {n : ℕ} (hn : params.length < n) {challenge : Challenge} (htoken : challenge.token68 = none) :
    readParams n challenge (afterComma params) = some [{ challenge with params := challenge.params ++ params }] := by
  induction params generalizing n challenge with
  | nil =>
    cases n with
    | zero => exact absurd hn (Nat.not_lt_zero _)
    | succ n => simp [afterComma, readParams]
  | cons param params ih =>
    rw [forall_mem_cons] at h
    cases n with
    | zero => exact absurd hn (Nat.not_lt_zero _)
    | succ n =>
      obtain ⟨b, l, hb, hl⟩ := writeParam_eq_cons h.1 (writeMore params)
      have hskip : (afterComma (param :: params)).dropWhile (fun b => blank b || b == comma) = b :: l := by
        rw [afterComma, hl, dropWhile_cons_of_pos (by decide),
          dropWhile_cons_of_neg (by simp [not_blank_of_isTokenByte b hb])]
      have helement := readParamElement_write h.1 params
      rw [hl] at helement
      unfold readParams
      simp only [hskip, helement]
      have hrest : readParams n { challenge with params := challenge.params ++ [param] } (afterComma params) = _ :=
        ih h.2 (Nat.lt_of_succ_lt_succ hn) htoken
      rw [if_neg (by simp [htoken]), hrest, append_assoc, singleton_append]

theorem readStart_write {scheme : List UInt8} (hscheme : IsToken scheme)
    (h : IsParam param) (params : List (List UInt8 × List UInt8)) :
    readStart (write scheme param params) = some (⟨scheme, none, [param]⟩, afterComma params) := by
  obtain ⟨b, l, hb, hl⟩ := writeParam_eq_cons h (writeMore params)
  have helement := readParamElement_write h params
  rw [hl] at helement
  have hblank : blank b = false ∧ (b == comma) = false := Bool.or_eq_false_iff.mp (not_blank_of_isTokenByte b hb)
  have hend : readEnd (32 :: b :: l) = none := by
    rw [readEnd, dropWhile_cons_of_pos (by decide), dropWhile_cons_of_neg (by simp [hblank.1])]
    exact if_neg (by simpa using hblank.2)
  have hspaces : (32 :: b :: l).dropWhile (· == 32) = b :: l := by
    have hspace : (b == 32) = false := (Bool.or_eq_false_iff.mp hblank.1).1
    rw [dropWhile_cons_of_pos (by decide), dropWhile_cons_of_neg (by simp [hspace])]
  rw [readStart, write, hl, readToken_append hscheme (by decide)]
  simp only [Option.bind_eq_bind, Option.bind_some, hend, hspaces, helement]
  rfl

/-- **A challenge is read back**, as the only one. -/
theorem parse_write {scheme : List UInt8}
    {params : List (List UInt8 × List UInt8)} (hscheme : IsToken scheme) (h : IsParam param)
    (hs : ∀ param ∈ params, IsParam param) :
    parse (write scheme param params) = some [⟨scheme, none, param :: params⟩] := by
  obtain ⟨b, l, rfl⟩ := exists_cons_of_ne_nil hscheme.1
  have hskip : (write (b :: l) param params).dropWhile (fun b => blank b || b == comma) =
      b :: (l ++ 32 :: (writeParam param ++ writeMore params)) := by
    have hb := hscheme.2 b mem_cons_self
    rw [write, cons_append, dropWhile_cons_of_neg (by simp [not_blank_of_isTokenByte b hb])]
  have hlength : params.length < (write (b :: l) param params).length := by
    have hmore := length_le_writeMore params
    simp only [write, length_append, length_cons]
    omega
  have hstart := readStart_write hscheme h params
  rw [write, cons_append] at hstart
  unfold parse
  simp only [hskip, hstart, Option.bind_eq_bind, Option.bind_some]
  rw [readParams_write hs hlength rfl]
  rfl

/-- An element that is no parameter starts another challenge. -/
example : parse (Text.ascii "Basic realm=\"a\\\"b\", Bearer x=1 , Negotiate eHl6==") =
    some [⟨Text.ascii "Basic", none, [(Text.ascii "realm", Text.ascii "a\"b")]⟩,
      ⟨Text.ascii "Bearer", none, [(Text.ascii "x", Text.ascii "1")]⟩,
      ⟨Text.ascii "Negotiate", some (Text.ascii "eHl6=="), []⟩] := by decide +kernel

end McpToolkit.Lib.HttpAuth
