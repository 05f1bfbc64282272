import McpToolkit.Sql.Classifier

/-!
# McpToolkit.Sql.Scratchpad — the SQL policy of the DuckDB scratchpad

`sql_safety.rs` of the scratchpad.  It has a lexer of its own, asks the core classifier about the
text, lets a statement through that the classifier rejects for its first word alone when that word
is `DESCRIBE` or `SUMMARIZE`, and then looks for keywords and functions of DuckDB on its own surface.

The lexer is `lexical_surface` again, apart from three places: a line comment ends at a newline only, every printable byte
of the code is kept, and so are the bytes of quoted identifiers, whose quotes it blanks (`surfaceRules`).
-/

namespace McpToolkit.Sql.Scratchpad

open List (splitOnP)
open Lib.Text (ascii trimBy forall_byte)

inductive ScratchpadSqlPolicyCode where
  | emptySql
  | unterminatedToken
  | multipleStatements
  | notReadOnlyPrefix
  | forbiddenKeyword
  | forbiddenFunction
  | explainNotReadOnly
  | classifierUnavailable
  | sqlTooLarge
  | duckDbForbiddenKeyword
  | duckDbForbiddenFunction
  deriving DecidableEq

structure ScratchpadSqlPolicyError where
  code : ScratchpadSqlPolicyCode
  message : String
  deriving DecidableEq

/-! ### The lexer -/

def maskByte (b : UInt8) : UInt8 :=
  if b = newline ∨ b = carriageReturn ∨ b = tab then b
  else if 0x20 ≤ b ∧ b ≤ 0x7e then b
  else space

/-- The rules of `lexical_sql_surface`. -/
def surfaceRules : LexRules where
  code := maskByte
  quoted := maskByte
  mark := space
  endsLine b := b == newline
  code_of_endsLine _ h := if_pos (.inl (beq_iff_eq.mp h))

def lexicalSqlSurface (sql : List UInt8) : Except ScratchpadSqlPolicyError (List UInt8) :=
  let out := lexLoop surfaceRules sql.length .start sql
  if out.2.unterminated then
    .error ⟨.unterminatedToken, "scratchpad policy rejected SQL with unterminated quote/comment"⟩
  else .ok out.1

/-! ### The checks -/

def duckdbAllowedPrefixes : List String := ["DESCRIBE", "SUMMARIZE"]

def duckdbForbiddenKeywords : List String :=
  ["INSTALL", "LOAD", "ATTACH", "DETACH", "EXPORT", "IMPORT"]

def duckdbForbiddenFunctions : List String :=
  ["READ_CSV", "READ_CSV_AUTO", "READ_PARQUET", "READ_JSON", "READ_JSON_AUTO", "READ_NDJSON",
    "READ_BLOB", "READ_TEXT", "READ_XLSX", "CSV_SCAN", "PARQUET_SCAN", "JSON_SCAN",
    "POSTGRES_SCAN", "MYSQL_SCAN", "SQLITE_SCAN"]

def mapCoreError (err : RestrictedSqlError) : ScratchpadSqlPolicyError :=
  let code := match err.code with
    | .emptySql => .emptySql
    | .unterminatedToken => .unterminatedToken
    | .multipleStatements => .multipleStatements
    | .notReadOnlyPrefix => .notReadOnlyPrefix
    | .forbiddenKeyword => .forbiddenKeyword
    | .forbiddenFunction => .forbiddenFunction
    | .explainNotReadOnly => .explainNotReadOnly
    | .classifierUnavailable => .classifierUnavailable
  ⟨code, err.message⟩

def containsForbiddenKeyword (surfaceUpper : List UInt8) : Bool :=
  ((splitOnP (fun b => !isWordByte b) surfaceUpper).filter fun token => !token.isEmpty).any
    fun token => decide (token ∈ duckdbForbiddenKeywords.map ascii)

def hasAllowedDuckdbPrefix (surfaceUpper : List UInt8) : Bool :=
  duckdbAllowedPrefixes.any fun start =>
    startsWith surfaceUpper start &&
      match surfaceUpper[(ascii start).length]? with
      | some b => isAsciiWhitespace b
      | none => true

def isIdentifierStart (b : UInt8) : Bool := isAsciiLetter b || b == underscore

/-- The loop of `contains_forbidden_function_call`; a turn reads an identifier or one byte. -/
def forbiddenCallLoop : ℕ → List UInt8 → Bool
  | 0, _ | _ + 1, [] => false
  | fuel + 1, b :: rest =>
    if isIdentifierStart b then
      let token := b :: rest.takeWhile isWordByte
      let behind := rest.dropWhile isWordByte
      if (behind.dropWhile isAsciiWhitespace).head? = some openParen ∧
          token ∈ duckdbForbiddenFunctions.map ascii then true
      else forbiddenCallLoop fuel behind
    else forbiddenCallLoop fuel rest

def containsForbiddenFunctionCall (surfaceUpper : List UInt8) : Bool :=
  forbiddenCallLoop surfaceUpper.length surfaceUpper

def validateScratchpadSql (sql : List UInt8) (maxSqlBytes : ℕ) :
    Except ScratchpadSqlPolicyError Unit := do
  if maxSqlBytes = 0 then
    throw ⟨.classifierUnavailable,
      "scratchpad sql policy is unavailable due to invalid max_sql_bytes"⟩
  if maxSqlBytes < sql.length then
    throw ⟨.sqlTooLarge, "sql payload exceeds max size of " ++ toString maxSqlBytes ++ " bytes"⟩
  let lexical ← lexicalSqlSurface sql
  let upper := (trimBy isBlank lexical).map toAsciiUppercase
  match classifyRestrictedSql sql with
  | .ok () => pure ()
  | .error err =>
    if !(err.code == .notReadOnlyPrefix && hasAllowedDuckdbPrefix upper) then
      throw (mapCoreError err)
  if containsForbiddenKeyword upper then
    throw ⟨.duckDbForbiddenKeyword, "scratchpad policy rejected DuckDB extension/file keyword"⟩
  if containsForbiddenFunctionCall upper then
    throw ⟨.duckDbForbiddenFunction,
      "scratchpad policy rejected DuckDB external scan/read function"⟩

end McpToolkit.Sql.Scratchpad
