import McpToolkit.Lib.Regex
import McpToolkit.Sql.Lexer

/-!
# McpToolkit.Sql.Classifier — `classify_restricted_sql`

The checks of the restricted policy on the lexical surface: one statement, an allowlisted start, no
forbidden keyword, no call of a forbidden function outside the header of a common table expression.
The patterns are those of the source; the surface is ASCII, so their Unicode classes and case
folding are the ASCII ones.  They are constants that compile, so the classifier is never
unavailable.  Like the nesting depth of comments, the `u32` depth of parentheses is a natural number.
-/

namespace McpToolkit.Sql

open List (splitOnP)
open Lib
open Lib.Text (ascii trimBy)

/-! ### Patterns -/

def caseless (k : UInt8) : UInt8 → Bool := fun b => toAsciiUppercase b == toAsciiUppercase k

/-- A literal of a pattern with the flag `i`. -/
def caselessLit (s : String) : Regex UInt8 := Regex.lit ((ascii s).map caseless)

/-- Two words with `\s+` between them. -/
def caselessPair (s t : String) : Regex UInt8 :=
  .seq (caselessLit s) (.seq (.chr isBlank) (.seq (.star isBlank) (caselessLit t)))

def bounded (rs : List (Regex UInt8)) : Regex UInt8 :=
  .seq .boundary (.seq (Regex.alts rs) .boundary)

/-- The alternatives of `FORBIDDEN_KEYWORD_PATTERN` before and after `SECURITY\s+LABEL`. -/
def forbiddenKeywords : List String :=
  ["INSERT", "UPDATE", "DELETE", "ALTER", "DROP", "TRUNCATE", "GRANT", "REVOKE", "COPY", "CALL",
    "DO", "MERGE", "REINDEX", "CLUSTER", "COMMENT"]

def forbiddenKeywordsAfter : List String :=
  ["CREATE", "DISCARD", "RESET", "SET", "LOCK", "REFRESH"]

def forbiddenKeywordRe : Regex UInt8 :=
  bounded (forbiddenKeywords.map caselessLit ++
    caselessPair "SECURITY" "LABEL" :: forbiddenKeywordsAfter.map caselessLit)

def explainForbidden : List String :=
  ["INSERT", "UPDATE", "DELETE", "MERGE", "ALTER", "DROP", "TRUNCATE", "CREATE", "GRANT", "REVOKE",
    "COPY", "CALL", "DO", "LOCK"]

def explainForbiddenRe : Regex UInt8 :=
  bounded (explainForbidden.map caselessLit ++ [caselessPair "FOR" "UPDATE"])

def forbiddenFunctions : List String :=
  ["pg_sleep", "pg_terminate_backend", "pg_cancel_backend", "pg_reload_conf", "pg_rotate_logfile",
    "pg_log_backend_memory_contexts", "pg_read_file", "pg_read_binary_file", "pg_ls_dir",
    "pg_stat_file", "pg_write_file", "set_config", "dblink_connect", "dblink_exec",
    "dblink_send_query", "lo_import", "lo_export", "pg_advisory_lock", "pg_advisory_lock_shared",
    "pg_advisory_xact_lock", "pg_advisory_xact_lock_shared"]

/-- The optional closing quote of a quoted name, with blanks around it. -/
def closingQuoteRe : Regex UInt8 :=
  .seq (.star isBlank) (.seq (.chr (· == doubleQuote)) (.star isBlank))

def forbiddenFunctionRe : Regex UInt8 :=
  .seq (bounded (forbiddenFunctions.map caselessLit))
    (.seq (.opt closingQuoteRe) (.chr (· == openParen)))

/-! ### Headers of common table expressions -/

def previousWordUpper (surface : List UInt8) (before : ℕ) : Option (List UInt8) :=
  if before = 0 ∨ surface.length < before then none
  else
    let word := (((surface.take before).reverse.dropWhile isAsciiWhitespace).takeWhile
      isWordByte).reverse
    if word = [] then none else some (word.map toAsciiUppercase)

def nextWordUpper (surface : List UInt8) (start : ℕ) : Option (List UInt8) :=
  if surface.length ≤ start then none
  else
    let word := ((surface.drop start).dropWhile isAsciiWhitespace).takeWhile isWordByte
    if word = [] then none else some (word.map toAsciiUppercase)

def closeParenLoop : ℕ → ℕ → List UInt8 → Option ℕ
  | _, _, [] => none
  | depth, i, b :: bytes =>
    if b = openParen then closeParenLoop (depth + 1) (i + 1) bytes
    else if b = closeParen then
      if depth = 0 then none
      else if depth - 1 = 0 then some i
      else closeParenLoop (depth - 1) (i + 1) bytes
    else closeParenLoop depth (i + 1) bytes

def matchingCloseParen (bytes : List UInt8) (open_paren : ℕ) : Option ℕ :=
  if bytes[open_paren]? = some openParen then
    closeParenLoop 1 (open_paren + 1) (bytes.drop (open_paren + 1))
  else none

def isCteHeaderForbiddenMatch (surface : List UInt8) (matchStart open_paren : ℕ) : Bool :=
  let previous := previousWordUpper surface matchStart
  if previous ≠ some (ascii "WITH") ∧ previous ≠ some (ascii "RECURSIVE") then false
  else
    match matchingCloseParen surface open_paren with
    | none => false
    | some close => nextWordUpper surface (close + 1) == some (ascii "AS")

def containsForbiddenFunction (surface : List UInt8) : Bool :=
  (Regex.findIter isWordByte forbiddenFunctionRe surface).any fun m =>
    m.2 != 0 && !isCteHeaderForbiddenMatch surface m.1 (m.2 - 1)

/-! ### The classifier -/

def allowedPrefixes : List String :=
  ["SELECT", "WITH", "EXPLAIN", "SHOW", "VALUES", "DECLARE", "FETCH", "CLOSE", "PREPARE",
    "DEALLOCATE"]

def startsWith (text : List UInt8) (s : String) : Bool := (ascii s).isPrefixOf text

/-- The pieces between semicolons that are not blank. -/
def statementCount (text : List UInt8) : ℕ :=
  ((splitOnP (· == semicolon) text).filter fun part => !(trimBy isBlank part).isEmpty).length

def classifyRestrictedSql (sql : List UInt8) : Except RestrictedSqlError Unit := do
  let lexical ← lexicalSurface sql true
  let lexicalFunctions ← lexicalSurface sql false
  let trimmed := trimBy isBlank lexical
  let functionSurface := trimBy isBlank lexicalFunctions
  if trimmed.isEmpty then
    throw ⟨.emptySql, "sql must not be empty"⟩
  if 1 < statementCount trimmed then
    throw ⟨.multipleStatements, "restricted mode allows only a single SQL statement"⟩
  let upper := trimmed.map toAsciiUppercase
  if !allowedPrefixes.any (startsWith upper) then
    throw ⟨.notReadOnlyPrefix, "restricted mode allows only allowlisted SQL prefixes"⟩
  if startsWith upper "EXPLAIN" then
    if Regex.isMatch isWordByte explainForbiddenRe trimmed then
      throw ⟨.explainNotReadOnly, "restricted mode allows EXPLAIN only for read-only statements"⟩
  else if Regex.isMatch isWordByte forbiddenKeywordRe trimmed then
    throw ⟨.forbiddenKeyword, "restricted mode rejected write/admin SQL"⟩
  if containsForbiddenFunction functionSurface then
    throw ⟨.forbiddenFunction, "restricted mode rejected unsafe function call"⟩

def accepted (sql : List UInt8) : Bool := (classifyRestrictedSql sql).isOk

/-- What an accepted text with the surfaces `lex` and `fns` has passed. -/
structure Accepted (sql lex fns : List UInt8) : Prop where
  lexical : lexicalSurface sql true = .ok lex
  functions : lexicalSurface sql false = .ok fns
  nonempty : trimBy isBlank lex ≠ []
  single : statementCount (trimBy isBlank lex) ≤ 1
  start : allowedPrefixes.any (startsWith ((trimBy isBlank lex).map toAsciiUppercase)) = true
  keyword : startsWith ((trimBy isBlank lex).map toAsciiUppercase) "EXPLAIN" = false →
    Regex.isMatch isWordByte forbiddenKeywordRe (trimBy isBlank lex) = false
  explain : startsWith ((trimBy isBlank lex).map toAsciiUppercase) "EXPLAIN" = true →
    Regex.isMatch isWordByte explainForbiddenRe (trimBy isBlank lex) = false
  function : containsForbiddenFunction (trimBy isBlank fns) = false

theorem isOk_ite_error {ε α : Type} {c : Prop} [Decidable c] {e : ε} {x : Except ε α} :
    (if c then Except.error e else x).isOk = true ↔ ¬ c ∧ x.isOk = true := by
  split_ifs with h
  · exact ⟨fun h => (by cases h), fun h' => absurd h h'.1⟩
  · exact ⟨fun hx => ⟨h, hx⟩, fun h' => h'.2⟩

theorem accepted_iff {sql : List UInt8} : accepted sql = true ↔ ∃ lex fns, Accepted sql lex fns := by
  unfold accepted classifyRestrictedSql
  cases hlex : lexicalSurface sql true with
  | error e =>
    refine ⟨fun h => (by cases h), fun ⟨lex, fns, ha⟩ => ?_⟩
    rw [ha.lexical] at hlex; cases hlex
  | ok lex =>
    cases hfns : lexicalSurface sql false with
    | error e =>
      refine ⟨fun h => (by cases h), fun ⟨lex, fns, ha⟩ => ?_⟩
      rw [ha.functions] at hfns; cases hfns
    | ok fns =>
      have hself : (∃ lex' fns', Accepted sql lex' fns') ↔ Accepted sql lex fns := by
        refine ⟨fun ⟨lex', fns', ha⟩ => ?_, fun ha => ⟨lex, fns, ha⟩⟩
        obtain rfl := Except.ok.inj (hlex.symm.trans ha.lexical)
        obtain rfl := Except.ok.inj (hfns.symm.trans ha.functions)
        exact ha
      simp only [hself, bind, Except.bind, throw, throwThe, MonadExceptOf.throw,
        isOk_ite_error, List.isEmpty_iff, not_lt, Bool.not_eq_true', Bool.not_eq_false]
      cases hexp : startsWith ((trimBy isBlank lex).map toAsciiUppercase) "EXPLAIN" with
      | true =>
        simp only [if_true, isOk_ite_error, Bool.not_eq_true]
        constructor
        · rintro ⟨h1, h2, h3, h4, h5, -⟩
          exact ⟨hlex, hfns, h1, h2, h3, fun h => (by rw [hexp] at h; cases h), fun _ => h4, h5⟩
        · exact fun ha => ⟨ha.nonempty, ha.single, ha.start, ha.explain hexp, ha.function, rfl⟩
      | false =>
        simp only [Bool.false_eq_true, if_false, isOk_ite_error, Bool.not_eq_true]
        constructor
        · rintro ⟨h1, h2, h3, h4, h5, -⟩
          exact ⟨hlex, hfns, h1, h2, h3, fun _ => h4, fun h => (by rw [hexp] at h; cases h), h5⟩
        · exact fun ha => ⟨ha.nonempty, ha.single, ha.start, ha.keyword hexp, ha.function, rfl⟩

end McpToolkit.Sql
