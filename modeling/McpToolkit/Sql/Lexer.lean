import McpToolkit.Lib.Text

/-!
# McpToolkit.Sql.Lexer — the lexical surface

`lexical_surface` of `sql_read_only.rs`, on the bytes of the text.  It copies the code outside
literals, comments and dollar quotes and blanks everything else.  Every byte it writes is ASCII, so
the surface is a list of bytes as well.

The loop carries a `State` and, apart from it, the tag of the dollar quote it is in.  `lexStep` is
its body, with the rules in which `lexical_sql_surface` of the scratchpad differs as a parameter; `lexLoop` runs it with the length of the text as fuel (each turn consumes a byte).  The
nesting depth of block comments is a `u32` in the source; it overflows after 4 GiB of nested
comment openings and is a natural number here.
-/

namespace McpToolkit.Sql

open Lib

inductive RestrictedSqlErrorCode where
  | emptySql
  | unterminatedToken
  | multipleStatements
  | notReadOnlyPrefix
  | forbiddenKeyword
  | forbiddenFunction
  | explainNotReadOnly
  | classifierUnavailable
  deriving DecidableEq

structure RestrictedSqlError where
  code : RestrictedSqlErrorCode
  message : String
  deriving DecidableEq

/-! ### Bytes -/

def tab : UInt8 := 9
def newline : UInt8 := 10
def carriageReturn : UInt8 := 13
def space : UInt8 := 32
def doubleQuote : UInt8 := 34
def dollar : UInt8 := 36
def quote : UInt8 := 39
def openParen : UInt8 := 40
def closeParen : UInt8 := 41
def star : UInt8 := 42
def comma : UInt8 := 44
def dash : UInt8 := 45
def dot : UInt8 := 46
def slash : UInt8 := 47
def semicolon : UInt8 := 59
def backslash : UInt8 := 92
def underscore : UInt8 := 95

def isAsciiDigit (b : UInt8) : Bool := 48 ≤ b && b ≤ 57
def isAsciiLetter (b : UInt8) : Bool := (65 ≤ b && b ≤ 90) || (97 ≤ b && b ≤ 122)
def isAsciiAlphanumeric (b : UInt8) : Bool := isAsciiDigit b || isAsciiLetter b

/-- `u8::is_ascii_whitespace`. -/
def isAsciiWhitespace (b : UInt8) : Bool :=
  b == tab || b == newline || b == 12 || b == carriageReturn || b == space

/-- `char::is_whitespace` on ASCII, the class of `str::trim` and of the `\s` of a pattern. -/
def isBlank (b : UInt8) : Bool := (9 ≤ b && b ≤ 13) || b == space

def toAsciiUppercase (b : UInt8) : UInt8 := if 97 ≤ b && b ≤ 122 then b - 32 else b

def isWordByte (b : UInt8) : Bool := isAsciiAlphanumeric b || b == underscore

def maskByte (b : UInt8) : UInt8 :=
  if b = newline ∨ b = carriageReturn ∨ b = tab then b
  else if isAsciiAlphanumeric b || b == underscore || b == space || b == comma || b == dot ||
    b == openParen || b == closeParen || b == semicolon then b
  else space

def maskHiddenByte (b : UInt8) : UInt8 :=
  if b = newline ∨ b = carriageReturn ∨ b = tab then b else space

/-- What is written for the quote of a quoted identifier. -/
def quoteMark (maskDoubleQuoted : Bool) : UInt8 := if maskDoubleQuoted then space else doubleQuote

/-- What is written for a byte inside a quoted identifier. -/
def maskQuotedByte (maskDoubleQuoted : Bool) (b : UInt8) : UInt8 :=
  if maskDoubleQuoted then maskHiddenByte b else maskByte b

section Bytes

attribute [local grind =] tab newline carriageReturn space openParen comma dot closeParen semicolon underscore
  isAsciiDigit isAsciiLetter isAsciiAlphanumeric isAsciiWhitespace isBlank toAsciiUppercase isWordByte maskByte
  maskHiddenByte

variable (b : UInt8)

theorem maskByte_eq_self (h : isWordByte b = true) : maskByte b = b := by grind

theorem not_isWordByte : (!isAsciiAlphanumeric b && b != underscore) = !isWordByte b := by grind

theorem isWordByte_maskByte : isWordByte (maskByte b) = isWordByte b := by grind

theorem maskByte_eq_semicolon (h : maskByte b = semicolon) : b = semicolon := by grind

theorem isBlank_maskByte (h : isBlank b = true) : isBlank (maskByte b) = true := by grind

theorem maskByte_lt : maskByte b < 128 := by grind

theorem maskHiddenByte_lt : maskHiddenByte b < 128 := by grind

theorem maskHiddenByte_of_isWordByte (h : isWordByte b = true) : maskHiddenByte b = space := by grind

theorem isBlank_maskHiddenByte : isBlank (maskHiddenByte b) = true := by grind

theorem isAsciiWhitespace_maskHiddenByte : isAsciiWhitespace (maskHiddenByte b) = true := by grind

theorem isWordByte_false_of_isBlank (h : isBlank b = true) : isWordByte b = false := by grind

theorem isBlank_false_of_isWordByte (h : isWordByte b = true) : isBlank b = false := by grind

theorem isBlank_of_isAsciiWhitespace (h : isAsciiWhitespace b = true) : isBlank b = true := by grind

theorem toAsciiUppercase_idem : toAsciiUppercase (toAsciiUppercase b) = toAsciiUppercase b := by grind

theorem isWordByte_toAsciiUppercase : isWordByte (toAsciiUppercase b) = isWordByte b := by grind

theorem isAsciiWhitespace_toAsciiUppercase : isAsciiWhitespace (toAsciiUppercase b) = isAsciiWhitespace b := by grind

theorem toAsciiUppercase_eq_openParen : toAsciiUppercase b = openParen ↔ b = openParen := by grind

end Bytes

/-! ### Dollar tags -/

/-- The loop of `parse_dollar_tag`, from index `idx` on. -/
def dollarTagLoop (idx : ℕ) : List UInt8 → Option ℕ
  | [] => none
  | b :: input =>
    if b = dollar then some (idx + 1)
    else if !isAsciiAlphanumeric b && b != underscore then none
    else dollarTagLoop (idx + 1) input

def parseDollarTag : List UInt8 → Option ℕ
  | [] => none
  | b :: input => if b = dollar then dollarTagLoop 1 input else none

/-! ### The loop -/

inductive LexState where
  | normal
  | singleQuote
  | doubleQuote
  | lineComment
  | blockComment (depth : ℕ)
  deriving DecidableEq

structure Cursor where
  state : LexState
  dollarTag : Option (List UInt8)
  deriving DecidableEq

def Cursor.start : Cursor := ⟨.normal, none⟩

/-- Where the lexers of this family differ: what they write for a byte of the code, for a byte inside a quoted identifier
and for its quotes, and which bytes end a line comment. -/
structure LexRules where
  code : UInt8 → UInt8
  quoted : UInt8 → UInt8
  mark : UInt8
  endsLine : UInt8 → Bool
  code_of_endsLine : ∀ b, endsLine b = true → code b = b

/-- One turn of the loop at byte `b` with `rest` behind it: the bytes written, the new state and
the bytes not read yet. -/
def lexStep (rules : LexRules) (cur : Cursor) (b : UInt8) (rest : List UInt8) :
    List UInt8 × Cursor × List UInt8 :=
  match cur.dollarTag with
  | some tag =>
    if tag.isPrefixOf (b :: rest) then
      (List.replicate tag.length space, ⟨cur.state, none⟩, (b :: rest).drop tag.length)
    else ([maskHiddenByte b], cur, rest)
  | none =>
    match cur.state with
    | .normal =>
      if b = dash ∧ rest.head? = some dash then
        ([space, space], ⟨.lineComment, none⟩, rest.drop 1)
      else if b = slash ∧ rest.head? = some star then
        ([space, space], ⟨.blockComment 1, none⟩, rest.drop 1)
      else if b = quote then ([space], ⟨.singleQuote, none⟩, rest)
      else if b = doubleQuote then ([rules.mark], ⟨.doubleQuote, none⟩, rest)
      else
        match parseDollarTag (b :: rest) with
        | some tagLen => (List.replicate tagLen space,
            ⟨.normal, some ((b :: rest).take tagLen)⟩, (b :: rest).drop tagLen)
        | none => ([rules.code b], cur, rest)
    | .singleQuote =>
      if b = quote then
        if rest.head? = some quote then ([space, space], cur, rest.drop 1)
        else ([space], ⟨.normal, none⟩, rest)
      else ([maskHiddenByte b], cur, rest)
    | .doubleQuote =>
      if b = doubleQuote then
        if rest.head? = some doubleQuote then ([rules.mark, rules.mark], cur, rest.drop 1)
        else ([rules.mark], ⟨.normal, none⟩, rest)
      else ([rules.quoted b], cur, rest)
    | .lineComment =>
      if rules.endsLine b then ([b], ⟨.normal, none⟩, rest)
      else ([space], cur, rest)
    | .blockComment depth =>
      if b = slash ∧ rest.head? = some star then
        ([space, space], ⟨.blockComment (depth + 1), none⟩, rest.drop 1)
      else if b = star ∧ rest.head? = some slash then
        ([space, space], ⟨if depth = 1 then .normal else .blockComment (depth - 1), none⟩,
          rest.drop 1)
      else ([maskHiddenByte b], cur, rest)

def lexLoop (rules : LexRules) : ℕ → Cursor → List UInt8 → List UInt8 × Cursor
  | 0, cur, _ => ([], cur)
  | _ + 1, cur, [] => ([], cur)
  | fuel + 1, cur, b :: rest =>
    let turn := lexStep rules cur b rest
    let out := lexLoop rules fuel turn.2.1 turn.2.2
    (turn.1 ++ out.1, out.2)

def Cursor.unterminated (cur : Cursor) : Bool :=
  cur.dollarTag.isSome ||
    match cur.state with
    | .singleQuote | .doubleQuote | .blockComment _ => true
    | .normal | .lineComment => false

/-- A line comment goes on. -/
def inLine (b : UInt8) : Bool := b != newline && b != carriageReturn

/-- The rules of `lexical_surface`. -/
def surfaceRules (maskDoubleQuoted : Bool) : LexRules where
  code := maskByte
  quoted := maskQuotedByte maskDoubleQuoted
  mark := quoteMark maskDoubleQuoted
  endsLine b := !inLine b
  code_of_endsLine _ h := if_pos (by grind [inLine])

def lexicalSurface (sql : List UInt8) (maskDoubleQuoted : Bool) :
    Except RestrictedSqlError (List UInt8) :=
  let out := lexLoop (surfaceRules maskDoubleQuoted) sql.length .start sql
  if out.2.unterminated then
    .error ⟨.unterminatedToken, "restricted mode could not parse SQL lexical surface"⟩
  else .ok out.1

end McpToolkit.Sql
