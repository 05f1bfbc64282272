import McpToolkit.Sql.Lexer

/-!
# McpToolkit.Sql.Postgres — the lexical rules of the database

How PostgreSQL cuts a text into tokens, with `standard_conforming_strings` on: the reference for
the lexical surface.  Only `E'...'` strings know backslash escapes; a string goes on, as what it is, with the
next quote if there are only white space and line comments between them, with a line break; an identifier may
contain `$` after its first character; the tag of a dollar quote is empty or starts with a letter or
underscore, and it cannot start inside an identifier; block comments nest; line comments end at a
line break.  Bytes above 127 are letters.

A number swallows the letters directly behind it (the database reports them as trailing junk), and
so does a parameter `$1`.  The prefixes `B`, `X`, `N` and `U&` of a string are a token of their
own here, as they change nothing in how the string is delimited.
-/

namespace McpToolkit.Sql.Postgres

open List
open Lib.Text (ascii)

inductive Kind where
  | space
  | lineComment
  | blockComment
  | word
  | quotedIdentifier
  | string
  | escapeString
  | escapeContinuation
  | dollarString
  | number
  | parameter
  | symbol
  deriving DecidableEq

/-- A piece of the text, with the bytes it stands for. -/
structure Lexeme where
  kind : Kind
  bytes : List UInt8
  deriving DecidableEq

def isSpace (b : UInt8) : Bool := (9 ≤ b && b ≤ 13) || b == space

def isLetter (b : UInt8) : Bool := isAsciiLetter b || 128 ≤ b

def isIdentStart (b : UInt8) : Bool := isLetter b || b == underscore

def isTagByte (b : UInt8) : Bool := isIdentStart b || isAsciiDigit b

def isIdentByte (b : UInt8) : Bool := isTagByte b || b == dollar

/-! ### Delimited tokens

Each reader takes the text behind the opening delimiter and returns the bytes up to and including
the closing one, with the text behind it; `none` if the token is not closed. -/

def cons (b : UInt8) (r : Option (List UInt8 × List UInt8)) : Option (List UInt8 × List UInt8) :=
  r.map fun (body, rest) => (b :: body, rest)

/-- Up to the closing quote `q`; a doubled quote stands for itself. -/
def readQuoted (q : UInt8) : List UInt8 → Option (List UInt8 × List UInt8)
  | [] => none
  | [b] => if b = q then some ([b], []) else none
  | b :: c :: rest =>
    if b = q then
      if c = q then cons b (cons c (readQuoted q rest)) else some ([b], c :: rest)
    else cons b (readQuoted q (c :: rest))

/-- The body of an `E'...'` string. -/
def readEscaped : List UInt8 → Option (List UInt8 × List UInt8)
  | [] => none
  | [b] => if b = quote then some ([b], []) else none
  | b :: c :: rest =>
    if b = backslash then cons b (cons c (readEscaped rest))
    else if b = quote then
      if c = quote then cons b (cons c (readEscaped rest)) else some ([b], c :: rest)
    else cons b (readEscaped (c :: rest))

/-- The rest of a block comment that is `depth` levels deep. -/
def readComment : ℕ → List UInt8 → Option (List UInt8 × List UInt8)
  | _, [] => none
  | _, [_] => none
  | depth, b :: c :: rest =>
    if b = slash ∧ c = star then cons b (cons c (readComment (depth + 1) rest))
    else if b = star ∧ c = slash then
      if depth = 1 then some ([b, c], rest) else cons b (cons c (readComment (depth - 1) rest))
    else cons b (readComment depth (c :: rest))

/-- Up to the next occurrence of the delimiter of a dollar quote. -/
def readDollar (delim : List UInt8) : List UInt8 → Option (List UInt8 × List UInt8)
  | [] => none
  | b :: rest =>
    if delim.isPrefixOf (b :: rest) then some (delim, (b :: rest).drop delim.length)
    else cons b (readDollar delim rest)

theorem of_cons_eq_some {b : UInt8} {r : Option (List UInt8 × List UInt8)} {body rest : List UInt8}
    (h : cons b r = some (body, rest)) : ∃ body', body = b :: body' ∧ r = some (body', rest) := by
  cases r with
  | none => cases h
  | some p => cases h; exact ⟨_, rfl, rfl⟩

section Append

variable {l body rest : List UInt8}

theorem append_of_cons {b : UInt8} {o : Option (List UInt8 × List UInt8)}
    (ih : ∀ {body}, o = some (body, rest) → l = body ++ rest) {body : List UInt8} (h : cons b o = some (body, rest)) :
    b :: l = body ++ rest := by
  obtain ⟨body, rfl, hbody⟩ := of_cons_eq_some h
  rw [ih hbody]
  rfl

theorem readQuoted_append {q : UInt8} (h : readQuoted q l = some (body, rest)) : l = body ++ rest := by
  fun_induction readQuoted q l generalizing body with
  | case1 | case3 => cases h
  | case2 | case5 => cases h; rfl
  | case4 l ih => exact append_of_cons (append_of_cons ih) h
  | case6 b c l hb ih => exact append_of_cons ih h

theorem readEscaped_append (h : readEscaped l = some (body, rest)) : l = body ++ rest := by
  fun_induction readEscaped l generalizing body with
  | case1 | case3 => cases h
  | case2 | case6 => cases h; rfl
  | case4 c l ih | case5 l hslash ih => exact append_of_cons (append_of_cons ih) h
  | case7 b c l hslash hquote ih => exact append_of_cons ih h

theorem readComment_append {depth : ℕ} (h : readComment depth l = some (body, rest)) : l = body ++ rest := by
  fun_induction readComment depth l generalizing body with
  | case1 | case2 => cases h
  | case4 => cases h; rfl
  | case3 _ _ _ _ _ ih | case5 _ _ _ _ _ _ _ ih => exact append_of_cons (append_of_cons ih) h
  | case6 _ _ _ _ _ _ ih => exact append_of_cons ih h

theorem readDollar_append {delim : List UInt8} (h : readDollar delim l = some (body, rest)) : l = body ++ rest := by
  induction l generalizing body with
  | nil => cases h
  | cons b l ih =>
    rw [readDollar] at h
    split_ifs at h with hclose
    · cases h
      obtain ⟨tail, htail⟩ := List.isPrefixOf_iff_prefix.mp hclose
      rw [← htail, drop_left]
    · exact append_of_cons ih h

end Append

/-- The tag of a dollar quote, given the text behind its first `$`. -/
def dollarTag (l : List UInt8) : Option (List UInt8) :=
  let tag := l.takeWhile isTagByte
  if (l.dropWhile isTagByte).head? = some dollar ∧ tag.head?.all isIdentStart then some tag
  else none

theorem append_of_dollarTag {l tag : List UInt8} (h : dollarTag l = some tag) : ∃ l', l = tag ++ dollar :: l' := by
  simp only [dollarTag] at h
  split_ifs at h with hc
  obtain ⟨l', hl'⟩ := head?_eq_some_iff.mp hc.1
  rw [← Option.some.inj h]
  exact ⟨l', by rw [← hl', takeWhile_append_dropWhile]⟩

/-! ### Tokens -/

/-- The piece that a `$` starts, given the text behind it. -/
def nextDollar (l : List UInt8) : Option (Lexeme × List UInt8) :=
  match dollarTag l with
  | some tag =>
    (readDollar (dollar :: tag ++ [dollar]) (l.drop (tag.length + 1))).map fun (body, rest) =>
      (⟨.dollarString, dollar :: tag ++ dollar :: body⟩, rest)
  | none =>
    if l.head?.any isAsciiDigit then
      some (⟨.parameter, dollar :: l.takeWhile isTagByte⟩, l.dropWhile isTagByte)
    else some (⟨.symbol, [dollar]⟩, l)

/-- Whether the text is behind an `E'...'` string that can go on, with or without a line break since.  The other
strings go on as well, which changes nothing in how they are delimited. -/
inductive Continuation where
  | no
  | closed
  | broken
  deriving DecidableEq

def Continuation.after (c : Continuation) (x : Lexeme) : Continuation :=
  match x.kind with
  | .escapeString | .escapeContinuation => .closed
  | .space => if c ≠ .no ∧ (x.bytes = [newline] ∨ x.bytes = [carriageReturn]) then .broken else c
  | .lineComment => c
  | _ => .no

/-- The next piece of a text that is not empty. -/
def next (c : Continuation) (b : UInt8) (l : List UInt8) : Option (Lexeme × List UInt8) :=
  if isSpace b then some (⟨.space, [b]⟩, l)
  else if b = dash ∧ l.head? = some dash then
    some (⟨.lineComment, b :: l.takeWhile inLine⟩, l.dropWhile inLine)
  else if b = slash ∧ l.head? = some star then
    (readComment 1 (l.drop 1)).map fun (body, rest) => (⟨.blockComment, b :: star :: body⟩, rest)
  else if b = quote ∧ c = .broken then
    (readEscaped l).map fun (body, rest) => (⟨.escapeContinuation, b :: body⟩, rest)
  else if b = quote then
    (readQuoted quote l).map fun (body, rest) => (⟨.string, b :: body⟩, rest)
  else if b = doubleQuote then
    (readQuoted doubleQuote l).map fun (body, rest) => (⟨.quotedIdentifier, b :: body⟩, rest)
  else if (b = 69 ∨ b = 101) ∧ l.head? = some quote then
    (readEscaped (l.drop 1)).map fun (body, rest) => (⟨.escapeString, b :: quote :: body⟩, rest)
  else if isIdentStart b then
    some (⟨.word, b :: l.takeWhile isIdentByte⟩, l.dropWhile isIdentByte)
  else if isAsciiDigit b then
    some (⟨.number, b :: l.takeWhile isTagByte⟩, l.dropWhile isTagByte)
  else if b = dollar then nextDollar l
  else some (⟨.symbol, [b]⟩, l)

/-- What `next` can return. -/
inductive Next : UInt8 → List UInt8 → Lexeme → List UInt8 → Prop
  | space {b l} : isSpace b = true → Next b l ⟨.space, [b]⟩ l
  | lineComment {l} :
      Next dash (dash :: l) ⟨.lineComment, dash :: dash :: l.takeWhile inLine⟩ (l.dropWhile inLine)
  | blockComment {l body rest} : readComment 1 l = some (body, rest) →
      Next slash (star :: l) ⟨.blockComment, slash :: star :: body⟩ rest
  | string {l body rest} : readQuoted quote l = some (body, rest) →
      Next quote l ⟨.string, quote :: body⟩ rest
  | escapeContinuation {l body rest} : readEscaped l = some (body, rest) →
      Next quote l ⟨.escapeContinuation, quote :: body⟩ rest
  | quotedIdentifier {l body rest} : readQuoted doubleQuote l = some (body, rest) →
      Next doubleQuote l ⟨.quotedIdentifier, doubleQuote :: body⟩ rest
  | escapeString {b l body rest} : isIdentStart b = true → readEscaped l = some (body, rest) →
      Next b (quote :: l) ⟨.escapeString, b :: quote :: body⟩ rest
  | word {b l} : isIdentStart b = true →
      Next b l ⟨.word, b :: l.takeWhile isIdentByte⟩ (l.dropWhile isIdentByte)
  | number {b l} : isAsciiDigit b = true →
      Next b l ⟨.number, b :: l.takeWhile isTagByte⟩ (l.dropWhile isTagByte)
  | dollarString {l tag body rest} : dollarTag l = some tag →
      readDollar (dollar :: tag ++ [dollar]) (l.drop (tag.length + 1)) = some (body, rest) →
      Next dollar l ⟨.dollarString, dollar :: tag ++ dollar :: body⟩ rest
  | parameter {l} : dollarTag l = none → l.head?.any isAsciiDigit = true →
      Next dollar l ⟨.parameter, dollar :: l.takeWhile isTagByte⟩ (l.dropWhile isTagByte)
  | dollar {l} : dollarTag l = none → l.head?.any isAsciiDigit = false →
      Next dollar l ⟨.symbol, [dollar]⟩ l
  | symbol {b l} : isIdentByte b = false → isSpace b = false → b ≠ quote → b ≠ doubleQuote →
      ¬ (b = dash ∧ l.head? = some dash) → ¬ (b = slash ∧ l.head? = some star) →
      Next b l ⟨.symbol, [b]⟩ l

variable {l : List UInt8}

/-- A piece is the front of the text. -/
theorem Next.append {b : UInt8} {x : Lexeme} {rest : List UInt8} (h : Next b l x rest) : b :: l = x.bytes ++ rest := by
  cases h with
  | space | dollar | symbol => rfl
  | lineComment => exact congrArg (dash :: dash :: ·) takeWhile_append_dropWhile.symm
  | blockComment hbody => exact congrArg (slash :: star :: ·) (readComment_append hbody)
  | string hbody => exact congrArg (quote :: ·) (readQuoted_append hbody)
  | escapeContinuation hbody => exact congrArg (quote :: ·) (readEscaped_append hbody)
  | quotedIdentifier hbody => exact congrArg (doubleQuote :: ·) (readQuoted_append hbody)
  | escapeString _ hbody => exact congrArg (b :: quote :: ·) (readEscaped_append hbody)
  | word | number | parameter => exact congrArg (_ :: ·) takeWhile_append_dropWhile.symm
  | @dollarString _ tag body _ htag hbody =>
    obtain ⟨l', rfl⟩ := append_of_dollarTag htag
    rw [← drop_drop, drop_left, drop_one, tail_cons] at hbody
    rw [readDollar_append hbody]
    simp

theorem nextDollar_cases {x : Lexeme} {rest : List UInt8}
    (h : nextDollar l = some (x, rest)) : Next dollar l x rest := by
  unfold nextDollar at h
  cases htag : dollarTag l with
  | some tag =>
    rw [htag] at h
    obtain ⟨⟨body, rest⟩, hr, ⟨⟩⟩ := Option.map_eq_some_iff.mp h
    exact .dollarString htag hr
  | none =>
    rw [htag] at h
    split_ifs at h with hd
    · cases h
      exact .parameter htag hd
    · cases h
      exact .dollar htag (Bool.eq_false_iff.mpr hd)

theorem next_cases {c : Continuation} {b : UInt8} {x : Lexeme} {rest : List UInt8}
    (h : next c b l = some (x, rest)) : Next b l x rest := by
  unfold next at h
  split_ifs at h with hspace hdash hslash hbroken hquote hdouble he hident hdigit hdollar
  · cases h
    exact .space hspace
  · obtain ⟨rfl, hl⟩ := hdash
    obtain ⟨l, rfl⟩ := head?_eq_some_iff.mp hl
    cases h
    exact .lineComment
  · obtain ⟨rfl, hl⟩ := hslash
    obtain ⟨⟨body, rest⟩, hr, ⟨⟩⟩ := Option.map_eq_some_iff.mp h
    obtain ⟨l, rfl⟩ := head?_eq_some_iff.mp hl
    exact .blockComment hr
  · obtain ⟨⟨body, rest⟩, hr, ⟨⟩⟩ := Option.map_eq_some_iff.mp h
    exact hbroken.1 ▸ .escapeContinuation hr
  · obtain ⟨⟨body, rest⟩, hr, ⟨⟩⟩ := Option.map_eq_some_iff.mp h
    exact hquote ▸ .string hr
  · obtain ⟨⟨body, rest⟩, hr, ⟨⟩⟩ := Option.map_eq_some_iff.mp h
    exact hdouble ▸ .quotedIdentifier hr
  · obtain ⟨⟨body, rest⟩, hr, ⟨⟩⟩ := Option.map_eq_some_iff.mp h
    obtain ⟨l, rfl⟩ := head?_eq_some_iff.mp he.2
    refine .escapeString ?_ hr
    rcases he.1 with rfl | rfl <;> decide
  · cases h
    exact .word hident
  · cases h
    exact .number hdigit
  · exact hdollar ▸ nextDollar_cases h
  · cases h
    refine .symbol ?_ (Bool.eq_false_iff.mpr hspace) hquote hdouble hdash hslash
    simp only [isIdentByte, isTagByte, Bool.or_eq_false_iff, beq_eq_false_iff_ne]
    exact ⟨⟨Bool.eq_false_iff.mpr hident, Bool.eq_false_iff.mpr hdigit⟩, hdollar⟩

def lexLoop : ℕ → Continuation → List UInt8 → Option (List Lexeme)
  | _, _, [] => some []
  | 0, _, _ :: _ => none
  | fuel + 1, c, b :: l => do
    let (x, rest) ← next c b l
    let xs ← lexLoop fuel (c.after x) rest
    return x :: xs

theorem of_lexLoop_cons {fuel : ℕ} {c : Continuation} {b : UInt8} {xs : List Lexeme}
    (h : lexLoop (fuel + 1) c (b :: l) = some xs) : ∃ x rest xs', xs = x :: xs' ∧
      next c b l = some (x, rest) ∧ lexLoop fuel (c.after x) rest = some xs' := by
  simp only [lexLoop, Option.bind_eq_bind, Option.bind_eq_some_iff] at h
  obtain ⟨⟨x, rest⟩, hnext, xs', hxs', hxs⟩ := h
  exact ⟨x, rest, xs', (Option.some.inj hxs).symm, hnext, hxs'⟩

/-- The whole text in pieces; `none` if a token is not closed. -/
def lex (sql : List UInt8) : Option (List Lexeme) := lexLoop sql.length .no sql

def Lexeme.isToken (x : Lexeme) : Bool :=
  x.kind != .space && x.kind != .lineComment && x.kind != .blockComment

def tokens (sql : List UInt8) : Option (List Lexeme) := (lex sql).map (List.filter Lexeme.isToken)

/-! ### Statements -/

def Lexeme.isSymbol (x : Lexeme) (b : UInt8) : Bool := x.kind == .symbol && x.bytes == [b]

/-- The token is the unquoted word `s`, in any letter case. -/
def Lexeme.isWord (x : Lexeme) (s : String) : Bool :=
  x.kind == .word && x.bytes.map toAsciiUppercase == ascii s

/-- The statements between top-level semicolons that are not empty. -/
def statements (toks : List Lexeme) : List (List Lexeme) :=
  (splitOnP (fun x => x.isSymbol semicolon) toks).filter fun st => !st.isEmpty

/-- The first statement starts with the word `s`. -/
def startsWithWord (toks : List Lexeme) (s : String) : Bool :=
  (((statements toks).head?.bind List.head?).any fun x => x.isWord s)

end McpToolkit.Sql.Postgres
