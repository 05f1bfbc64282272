import McpToolkit.Sql.Scratchpad
import McpToolkit.Sql.Statements
import McpToolkit.Sql.Tokens

/-!
# McpToolkit.Sql.ScratchpadPolicy — what an accepted scratchpad text shows

The core lexer decides what is code.  A text that the scratchpad accepts has one statement, and a text that the core
classifier accepts has no keyword and no call that the classifier forbids.  The rest is the scratchpad's own: the
exemption for `DESCRIBE` and `SUMMARIZE` skips the core checks, and the names of DuckDB are sought on the surface of the
scratchpad's lexer.

The two lexers find the same regions as long as no line comment ends at a bare carriage return (`scan_own`).  Then both
surfaces have the same words, and the same calls apart from operators, which only the core lexer blanks.
-/

namespace McpToolkit.Sql.Scratchpad

open List
open Lib
open Lib.Text (ascii trimBy)

/-! ### Accepted texts -/

/-- What an accepted text with the scratchpad surface `own` has passed. -/
structure Validated (sql own : List UInt8) : Prop where
  lexical : lexicalSqlSurface sql = .ok own
  core : classifyRestrictedSql sql = .ok () ∨
    ∃ err, classifyRestrictedSql sql = .error err ∧ err.code = .notReadOnlyPrefix
  keyword : containsForbiddenKeyword ((trimBy isBlank own).map toAsciiUppercase) = false
  function : containsForbiddenFunctionCall ((trimBy isBlank own).map toAsciiUppercase) = false

theorem of_core {c : Except RestrictedSqlError Unit} {stop : RestrictedSqlError → Bool}
    {rest : Except ScratchpadSqlPolicyError Unit}
    (h : (match c with
      | .ok () => rest
      | .error err => if stop err = true then .error (mapCoreError err) else rest) = .ok ()) :
    rest = .ok () ∧ (c = .ok () ∨ ∃ err, c = .error err ∧ stop err = false) := by
  cases c with
  | ok u => exact ⟨h, .inl rfl⟩
  | error err =>
    dsimp only at h
    split_ifs at h with hstop
    exact ⟨h, .inr ⟨err, rfl, Bool.not_eq_true _ ▸ hstop⟩⟩

variable {sql own blanks : List UInt8}

theorem validated_of_ok {maxSqlBytes : ℕ}
    (h : validateScratchpadSql sql maxSqlBytes = .ok ()) : ∃ own, Validated sql own := by
  unfold validateScratchpadSql at h
  cases hown : lexicalSqlSurface sql with
  | error e =>
    simp only [bind, Except.bind, hown] at h
    split_ifs at h
  | ok own =>
    simp only [bind, Except.bind, hown] at h
    rw [if_neg (fun h0 => by rw [if_pos h0] at h; cases h)] at h
    rw [if_neg (fun h0 => by rw [if_pos h0] at h; cases h)] at h
    obtain ⟨hrest, hcore⟩ := of_core h
    split_ifs at hrest with hkey hfun
    refine ⟨own, hown, hcore.imp_right ?_, Bool.not_eq_true _ ▸ hkey, Bool.not_eq_true _ ▸ hfun⟩
    rintro ⟨err, herr, hstop⟩
    rw [Bool.not_eq_false', Bool.and_eq_true, beq_iff_eq] at hstop
    exact ⟨err, herr, hstop.1⟩

/-- No keyword and no call that the core policy forbids. -/
structure CoreClean (lex fns : List UInt8) : Prop where
  keyword : startsWith ((trimBy isBlank lex).map toAsciiUppercase) "EXPLAIN" = false →
    Regex.isMatch isWordByte forbiddenKeywordRe (trimBy isBlank lex) = false
  explain : startsWith ((trimBy isBlank lex).map toAsciiUppercase) "EXPLAIN" = true →
    Regex.isMatch isWordByte explainForbiddenRe (trimBy isBlank lex) = false
  function : containsForbiddenFunction (trimBy isBlank fns) = false

/-- The surfaces of a text with one statement, which the core policy forbids for its start at most. -/
structure CorePassed (sql lex fns : List UInt8) : Prop where
  lexical : lexicalSurface sql true = .ok lex
  functions : lexicalSurface sql false = .ok fns
  single : statementCount (trimBy isBlank lex) ≤ 1
  clean : allowedPrefixes.any (startsWith ((trimBy isBlank lex).map toAsciiUppercase)) = true →
    CoreClean lex fns

theorem code_of_lexicalSurface {mask : Bool} {err : RestrictedSqlError}
    (h : lexicalSurface sql mask = .error err) : err.code = .unterminatedToken := by
  unfold lexicalSurface at h
  dsimp only at h
  split_ifs at h
  rw [← Except.error.inj h]

theorem corePassed_of_notReadOnlyPrefix {err : RestrictedSqlError}
    (h : classifyRestrictedSql sql = .error err) (hcode : err.code = .notReadOnlyPrefix) :
    ∃ lex fns, CorePassed sql lex fns := by
  unfold classifyRestrictedSql at h
  cases hlex : lexicalSurface sql true with
  | error e =>
    rw [hlex] at h
    obtain rfl := Except.error.inj h
    rw [code_of_lexicalSurface hlex] at hcode
    cases hcode
  | ok lex =>
    cases hfns : lexicalSurface sql false with
    | error e =>
      rw [hlex, hfns] at h
      obtain rfl := Except.error.inj h
      rw [code_of_lexicalSurface hfns] at hcode
      cases hcode
    | ok fns =>
      simp only [hlex, hfns, bind, Except.bind, pure, Except.pure, throw, throwThe, MonadExceptOf.throw] at h
      split_ifs at h with hempty hmany hstart
      · rw [← Except.error.inj h] at hcode; cases hcode
      · rw [← Except.error.inj h] at hcode; cases hcode
      · refine ⟨lex, fns, hlex, hfns, not_lt.mp hmany, fun hany => ?_⟩
        rw [hany] at hstart
        cases hstart
      all_goals (rw [← Except.error.inj h] at hcode; cases hcode)

theorem corePassed_of_ok (h : classifyRestrictedSql sql = .ok ()) : ∃ lex fns, CorePassed sql lex fns := by
  obtain ⟨lex, fns, ha⟩ := accepted_iff.mp (show accepted sql = true by rw [accepted, h]; rfl)
  exact ⟨lex, fns, ha.lexical, ha.functions, ha.single, fun _ => ⟨ha.keyword, ha.explain, ha.function⟩⟩

theorem Validated.corePassed (h : Validated sql own) : ∃ lex fns, CorePassed sql lex fns := by
  rcases h.core with hok | ⟨err, herr, hcode⟩
  · exact corePassed_of_ok hok
  · exact corePassed_of_notReadOnlyPrefix herr hcode

/-! ### Calls on a surface -/

/-- The name of a file or scan function, then blanks and an opening parenthesis. -/
def ShowsCall (surface : List UInt8) : Prop :=
  ∃ pre name blanks post, surface = pre ++ (name ++ (blanks ++ openParen :: post)) ∧
    name ∈ duckdbForbiddenFunctions.map ascii ∧ (∀ b ∈ blanks, isAsciiWhitespace b = true) ∧
    pre.getLast?.any isWordByte = false

theorem name_facts : ∀ name ∈ duckdbForbiddenFunctions.map ascii, ∃ b rest,
    name = b :: rest ∧ isIdentifierStart b = true ∧ ∀ c ∈ rest, isWordByte c = true := by
  have hall : (duckdbForbiddenFunctions.map ascii).all (fun name =>
      (name.head?.any isIdentifierStart) && name.tail.all isWordByte) = true := by decide
  intro name hname
  have hone := all_eq_true.mp hall name hname
  cases name with
  | nil => cases hone
  | cons b rest =>
    rw [Bool.and_eq_true] at hone
    exact ⟨b, rest, rfl, hone.1, all_eq_true.mp hone.2⟩

theorem takeWhile_word {l t : List UInt8} (hl : ∀ c ∈ l, isWordByte c = true) (ht : t.head?.any isWordByte = false) :
    (l ++ t).takeWhile isWordByte = l ∧ (l ++ t).dropWhile isWordByte = t := by
  constructor
  · rw [takeWhile_append_of_pos hl]
    cases t with
    | nil => simp
    | cons c t => rw [takeWhile_cons_of_neg (Bool.not_eq_true _ ▸ ht), append_nil]
  · rw [dropWhile_append_of_pos hl]
    cases t with
    | nil => rfl
    | cons c t => exact dropWhile_cons_of_neg (Bool.not_eq_true _ ▸ ht)

theorem isWordByte_of_whitespace (b : UInt8) (h : isAsciiWhitespace b = true) : isWordByte b = false :=
  isWordByte_false_of_isBlank b (isBlank_of_isAsciiWhitespace b h)

theorem isWordByte_of_identifierStart (b : UInt8) (h : isIdentifierStart b = true) : isWordByte b = true := by
  grind [isIdentifierStart, isWordByte, isAsciiAlphanumeric]

theorem dropWhile_blanks {post : List UInt8} (h : ∀ b ∈ blanks, isAsciiWhitespace b = true) :
    ((blanks ++ openParen :: post).dropWhile isAsciiWhitespace).head? = some openParen := by
  rw [dropWhile_append_of_pos h]
  rfl

theorem head_blanks (post : List UInt8) (h : ∀ b ∈ blanks, isAsciiWhitespace b = true) :
    (blanks ++ openParen :: post).head?.any isWordByte = false := by
  cases blanks with
  | nil => rfl
  | cons b blanks => exact isWordByte_of_whitespace b (h b mem_cons_self)

/-- The loop finds every call. -/
theorem forbiddenCallLoop_eq_true {name post : List UInt8} (hname : name ∈ duckdbForbiddenFunctions.map ascii)
    (hblanks : ∀ b ∈ blanks, isAsciiWhitespace b = true) :
    ∀ (fuel : ℕ) (pre : List UInt8), pre.getLast?.any isWordByte = false → pre.length < fuel →
      forbiddenCallLoop fuel (pre ++ (name ++ (blanks ++ openParen :: post))) = true := by
  intro fuel
  induction fuel with
  | zero => intro pre _ h; cases h
  | succ fuel ih =>
    intro pre hpre hlen
    cases pre with
    | nil =>
      obtain ⟨b, rest, rfl, hstart, hrest⟩ := name_facts name hname
      obtain ⟨htake, hdrop⟩ := takeWhile_word hrest (head_blanks post hblanks)
      rw [nil_append, cons_append, forbiddenCallLoop, if_pos hstart]
      rw [htake, hdrop, if_pos ⟨dropWhile_blanks hblanks, hname⟩]
    | cons c pre =>
      rw [cons_append, forbiddenCallLoop]
      rw [length_cons, Nat.add_lt_add_iff_right] at hlen
      have htail : pre.getLast?.any isWordByte = false := by
        cases pre with
        | nil => rfl
        | cons d pre => rwa [getLast?_cons_cons] at hpre
      split_ifs with hstart
      · -- The identifier at `c` ends within `pre`.
        have hne : (pre.dropWhile isWordByte).isEmpty = false := by
          rw [Bool.eq_false_iff]
          intro hempty
          have hword := dropWhile_eq_nil_iff.mp (isEmpty_iff.mp hempty)
          have hc := isWordByte_of_identifierStart c hstart
          have hlast := getLast?_eq_getLast_of_ne_nil (cons_ne_nil c pre)
          rw [hlast, Option.any_some] at hpre
          rcases mem_cons.mp (getLast_mem (cons_ne_nil c pre)) with heq | hmem
          · rw [heq, hc] at hpre; cases hpre
          · rw [hword _ hmem] at hpre; cases hpre
        have hdrop : ∀ t, (pre ++ t).dropWhile isWordByte = pre.dropWhile isWordByte ++ t := by
          intro t
          rw [dropWhile_append, hne]
          rfl
        dsimp only
        rw [hdrop]
        split_ifs
        · rfl
        · refine ih _ (Text.getLast?_dropWhile_any htail) (lt_of_le_of_lt ?_ hlen)
          exact (dropWhile_sublist _).length_le
      · exact ih pre htail hlen

theorem containsForbiddenFunctionCall_of_showsCall {surface : List UInt8} (h : ShowsCall surface) :
    containsForbiddenFunctionCall surface = true := by
  obtain ⟨pre, name, blanks, post, rfl, hname, hblanks, hpre⟩ := h
  refine forbiddenCallLoop_eq_true hname hblanks _ pre hpre ?_
  simp only [length_append, length_cons]
  omega

/-! ### Where the two lexers agree -/

/-- Every carriage return stands before a newline. -/
def NoBareReturn (text : List UInt8) : Prop :=
  ∀ pre post, text = pre ++ carriageReturn :: post → post.head? = some newline

theorem NoBareReturn.drop {text : List UInt8} (h : NoBareReturn text) (n : ℕ) : NoBareReturn (text.drop n) := by
  intro pre post heq
  refine h (text.take n ++ pre) post ?_
  rw [append_assoc, ← heq, take_append_drop]

/-- A turn is one of the core lexer, except at a carriage return in a line comment. -/
theorem turn_own {cur : Cursor} {b : UInt8} (rest : List UInt8) (h : cur = ⟨.lineComment, none⟩ → b ≠ carriageReturn) :
    turn (· == newline) cur b rest = turn (!inLine ·) cur b rest := by
  have hends : ∀ b : UInt8, b ≠ carriageReturn → (b == newline) = !inLine b := by grind [inLine]
  obtain ⟨state, dollarTag⟩ := cur
  cases dollarTag with
  | some tag => rfl
  | none =>
    cases state with
    | lineComment => simp only [turn, hends b (h rfl)]
    | _ => rfl

/-- The region that the own lexer finds for a byte: it takes a carriage return that ends a comment for the core lexer
alone for a part of the comment. -/
def OwnRegion (z : Region × UInt8) (region : Region) : Prop :=
  region = z.1 ∨ z.2 = carriageReturn ∧ region = .lineComment

theorem forall₂_ownRegion (region : Region) (l : List UInt8) :
    List.Forall₂ OwnRegion ((List.replicate l.length region).zip l) (List.replicate l.length region) := by
  induction l with
  | nil => exact .nil
  | cons b l ih => exact .cons (.inl rfl) ih

/-- **Without a bare carriage return the lexers find the same regions.** -/
theorem scan_own (n : ℕ) (cur : Cursor) (bytes : List UInt8) (hcur : cur.Valid) (hlen : bytes.length ≤ n)
    (hbare : NoBareReturn bytes) :
    List.Forall₂ OwnRegion ((scan (!inLine ·) cur bytes).1.zip bytes) (scan (· == newline) cur bytes).1 := by
  induction n using Nat.strong_induction_on generalizing cur bytes with
  | h n ih =>
    cases bytes with
    | nil =>
      rw [scan, scan]
      exact .nil
    | cons b rest =>
      rw [length_cons] at hlen
      by_cases hreturn : cur = ⟨.lineComment, none⟩ ∧ b = carriageReturn
      · -- the core lexer leaves the comment here, the scratchpad at the newline behind
        obtain ⟨rfl, rfl⟩ := hreturn
        obtain ⟨rest, rfl⟩ := head?_eq_some_iff.mp (hbare [] rest rfl)
        rw [length_cons] at hlen
        have hout := ih rest.length (by omega) .start rest Cursor.valid_start le_rfl (hbare.drop 2)
        rw [scan_cons (n := 0) rfl, drop_zero, scan_cons (n := 0) rfl, drop_zero, scan_cons (n := 0) rfl,
          drop_zero, scan_cons (n := 0) rfl]
        exact .cons (.inr ⟨rfl, rfl⟩) (.cons (.inl rfl) hout)
      · obtain ⟨hnext, hle, -⟩ := turnOf_turn (Sql.surfaceRules true) hcur b rest
        rw [scan, scan, turn_own rest fun hc hb => hreturn ⟨hc, hb⟩]
        have hends : (Sql.surfaceRules true).endsLine = (!inLine ·) := rfl
        rw [hends] at hnext hle
        generalize turn (!inLine ·) cur b rest = t at hnext hle
        obtain ⟨region, k, next⟩ := t
        dsimp only at hle ⊢
        have hout := ih (rest.drop k).length (by rw [length_drop]; omega) next (rest.drop k) hnext le_rfl
          (hbare.drop (k + 1))
        have htake : ((b :: rest).take (k + 1)).length = k + 1 := by
          rw [length_take, length_cons]
          omega
        have hfront := forall₂_ownRegion region ((b :: rest).take (k + 1))
        rw [htake] at hfront
        have happend : List.Forall₂ OwnRegion (_ ++ _) (_ ++ _) := rel_append hfront hout
        rwa [← zip_append (by rw [length_replicate, htake]), ← drop_succ_cons (a := b), take_append_drop] at happend

/-- What the own surface has for a byte of the text. -/
def Own (z : Region × UInt8) (x : UInt8) : Prop :=
  x = surfaceRules.write z.1 z.2 ∨ z.2 = carriageReturn ∧ x = space

/-- The bytes of a text with their regions and what the own surface has for them. -/
theorem exists_owned {rs : List Region} (hbare : NoBareReturn sql) (hown : lexicalSqlSurface sql = .ok own)
    (hrs : regions sql = some rs) : ∃ bytes : List ((Region × UInt8) × UInt8),
      rs.zip sql = bytes.map Prod.fst ∧ own = bytes.map Prod.snd ∧ ∀ x ∈ bytes, Own x.1 x.2 := by
  have hscan := scan_own sql.length .start sql Cursor.valid_start le_rfl hbare
  have hends : surfaceRules.endsLine = (· == newline) := rfl
  have hrslen := length_regions hrs
  rw [← readRegions_eq, readRegions] at hrs
  unfold lexicalSqlSurface at hown
  dsimp only at hown
  rw [(lexLoop_eq_scan surfaceRules _ _ _ Cursor.valid_start le_rfl).2, hends] at hown
  split_ifs at hown hrs
  rw [Option.some.inj hrs] at hscan
  obtain ⟨hlen, hzip⟩ := forall₂_iff_zip.mp hscan
  generalize (scan (· == newline) .start sql).1 = found at hown hlen hzip
  have hzips : ((rs.zip sql).zip found).map Prod.fst = rs.zip sql := map_fst_zip hlen.le
  have hfound : ((rs.zip sql).zip found).map Prod.snd = found := map_snd_zip hlen.ge
  have hsql : ((rs.zip sql).zip found).map (Prod.snd ∘ Prod.fst) = sql := by
    rw [← map_map, hzips, map_snd_zip hrslen.ge]
  refine ⟨((rs.zip sql).zip found).map fun x => (x.1, surfaceRules.write x.2 x.1.2), ?_, ?_, ?_⟩
  · rw [map_map]
    exact hzips.symm
  · rw [map_map, ← Except.ok.inj hown]
    generalize (rs.zip sql).zip found = bytes at hfound hsql
    rw [← hfound, ← hsql, zipWith_map, zipWith_self]
    rfl
  · refine forall_mem_map.mpr fun x hx => ?_
    rcases hzip hx with h | ⟨hb, h⟩
    · exact .inl (by rw [h])
    · exact .inr ⟨hb, by rw [h]; rfl⟩

/-! ### Calls on the two surfaces -/

def unquote (b : UInt8) : UInt8 := if b = doubleQuote then space else b

/-- What the core lexer shows as code, quoted identifiers included, in capitals. -/
def visible (fns : List UInt8) : List UInt8 := (fns.map unquote).map toAsciiUppercase

/-- What the core lexer shows for a byte. -/
def visibleByte (z : Region × UInt8) : UInt8 := toAsciiUppercase (unquote ((Sql.surfaceRules false).write z.1 z.2))

theorem of_lexicalSurface {mask : Bool} {out : List UInt8} (h : lexicalSurface sql mask = .ok out) :
    ∃ rs, regions sql = some rs ∧ out = (rs.zip sql).map fun z => (Sql.surfaceRules mask).write z.1 z.2 := by
  rw [lexicalSurface_eq] at h
  cases hrs : regions sql with
  | none =>
    rw [hrs] at h
    cases h
  | some rs =>
    rw [hrs] at h
    exact ⟨rs, rfl, (Except.ok.inj h).symm.trans map_uncurry_zip_eq_zipWith.symm⟩

/-- A byte of the code; what is hidden in strings, dollar quotes and comments, and unless `quoted` is set in quoted
identifiers, is blank, and so are their quotes. -/
def codeByte (quoted : Bool) (z : Region × UInt8) : UInt8 :=
  match z.1 with
  | .code => z.2
  | .identifier => if quoted && z.2 != doubleQuote then z.2 else space
  | _ => space

/-- The text without its strings, dollar quotes and comments, and unless `quoted` is set without its quoted identifiers. -/
def codeText (quoted : Bool) (sql : List UInt8) : List UInt8 :=
  (((regions sql).getD []).zip sql).map (codeByte quoted)

/-- A byte that the core lexer shows wherever it is code. -/
def isShown (b : UInt8) : Bool :=
  isWordByte b || b == comma || b == dot || b == openParen || b == closeParen || b == semicolon

/-- A printable byte that the core lexer blanks and the scratchpad's own lexer keeps. -/
def isOperator (b : UInt8) : Bool := 0x21 ≤ b && b ≤ 0x7e && !isShown b

/-- In the code an operator is between the name of a file or scan function and an opening parenthesis, with nothing
else but blanks. -/
def operatorBeforeParen (code : List UInt8) : Bool :=
  code.tails.any fun text => duckdbForbiddenFunctions.any fun name =>
    let behind := text.drop (ascii name).length
    startsWith (text.map toAsciiUppercase) name && (behind.takeWhile (!isShown ·)).any isOperator &&
      (behind.dropWhile (!isShown ·)).head? == some openParen

section Bytes

attribute [local grind =] tab newline carriageReturn space doubleQuote comma dot openParen closeParen semicolon underscore
  isAsciiDigit isAsciiLetter isAsciiAlphanumeric isAsciiWhitespace isWordByte isShown isOperator maskByte Sql.maskByte unquote

variable (b : UInt8)

theorem isAsciiWhitespace_of_isShown (h : isShown b = true) : isAsciiWhitespace b = false := by grind

theorem isShown_of_isWordByte (h : isWordByte b = true) : isShown b = true := by grind

theorem isAsciiWhitespace_unquote (h : isAsciiWhitespace b = true) : isAsciiWhitespace (unquote b) = true := by grind

theorem unquote_maskByte : unquote (Sql.maskByte b) = Sql.maskByte b := by grind

theorem maskByte_of_isShown (h : isShown b = true) : Sql.maskByte b = b ∧ maskByte b = b := by
  constructor <;> grind

theorem maskByte_of_not_isShown (h : isShown b = false) : isAsciiWhitespace (Sql.maskByte b) = true ∧
    isWordByte (maskByte b) = false ∧ (isOperator b = true ∨ isAsciiWhitespace (maskByte b) = true) := by
  grind

end Bytes

/-- Both lexers show a byte of the code or of a quoted identifier; for any other one they write blanks. -/
theorem visibleByte_cases (z : Region × UInt8) :
    visibleByte z = toAsciiUppercase (Sql.maskByte z.2) ∧ codeByte true z = z.2 ∧
        surfaceRules.write z.1 z.2 = maskByte z.2 ∨
      isAsciiWhitespace (visibleByte z) = true ∧ codeByte true z = space ∧
        isAsciiWhitespace (surfaceRules.write z.1 z.2) = true := by
  obtain ⟨region, b⟩ := z
  have hblank := isAsciiWhitespace_maskHiddenByte b
  cases region with
  | code => exact .inl ⟨congrArg toAsciiUppercase (unquote_maskByte b), rfl, rfl⟩
  | identifier =>
    by_cases hb : b = doubleQuote
    · subst hb
      exact .inr (by decide)
    · have hwrite : ∀ rules : LexRules, rules.write .identifier b = rules.quoted b := fun rules => if_neg hb
      refine .inl ⟨?_, if_pos (by simpa using hb), hwrite surfaceRules⟩
      rw [visibleByte, hwrite]
      exact congrArg toAsciiUppercase (unquote_maskByte b)
  | lineComment => exact .inr ⟨rfl, rfl, rfl⟩
  | string | blockComment | dollarQuote => 
    exact .inr ⟨(isAsciiWhitespace_toAsciiUppercase _).trans (isAsciiWhitespace_unquote _ hblank), rfl, hblank⟩

section Facts

attribute [local grind =] isWordByte_toAsciiUppercase isAsciiWhitespace_toAsciiUppercase toAsciiUppercase_eq_openParen
attribute [local grind →] maskByte_of_isShown maskByte_of_not_isShown isAsciiWhitespace_of_isShown isShown_of_isWordByte isWordByte_of_whitespace

theorem code_facts (z : Region × UInt8) :
    (isWordByte (visibleByte z) = true → toAsciiUppercase (codeByte true z) = visibleByte z) ∧
      (visibleByte z = openParen → codeByte true z = openParen) ∧
      (isAsciiWhitespace (visibleByte z) = true → isShown (codeByte true z) = false) := by
  have hspace : isShown space = false ∧ isShown openParen = true := by decide
  cases hb : isShown z.2 <;> grind [visibleByte_cases z]

theorem own_facts {z : Region × UInt8} {x : UInt8} (h : Own z x) :
    isWordByte (toAsciiUppercase x) = isWordByte (visibleByte z) ∧
      (isWordByte (visibleByte z) = true ∨ visibleByte z = openParen → toAsciiUppercase x = visibleByte z) ∧
      (isAsciiWhitespace (visibleByte z) = true →
        isOperator (codeByte true z) = true ∨ isAsciiWhitespace (toAsciiUppercase x) = true) := by
  have hspace : isShown space = false ∧ isShown openParen = true := by decide
  rcases h with rfl | ⟨hz, rfl⟩
  · cases hb : isShown z.2 <;> grind [visibleByte_cases z]
  · obtain ⟨region, b⟩ := z
    subst hz
    cases region <;> decide

theorem codeByte_write (mask : Bool) (z : Region × UInt8) :
    isWordByte (codeByte (!mask) z) = isWordByte ((Sql.surfaceRules mask).write z.1 z.2) ∧
      (isWordByte ((Sql.surfaceRules mask).write z.1 z.2) = true →
        (Sql.surfaceRules mask).write z.1 z.2 = codeByte (!mask) z) := by
  obtain ⟨region, b⟩ := z
  have hspace : isWordByte space = false ∧ isWordByte doubleQuote = false := by decide
  have hmask := isWordByte_maskByte b
  have hself := maskByte_eq_self b
  have hhidden := isWordByte_of_whitespace _ (isAsciiWhitespace_maskHiddenByte b)
  cases mask <;> cases region <;> simp only [codeByte, LexRules.write, Sql.surfaceRules, maskQuotedByte, quoteMark] <;> grind

end Facts

theorem operatorBeforeParen_eq_true (pre post : List UInt8) {named gap : List UInt8} {name : String}
    (hname : name ∈ duckdbForbiddenFunctions) (hnamed : named.map toAsciiUppercase = ascii name)
    (hgap : ∀ b ∈ gap, isShown b = false) {b : UInt8} (hb : b ∈ gap) (hop : isOperator b = true) :
    operatorBeforeParen (pre ++ (named ++ (gap ++ openParen :: post))) = true := by
  have hlen : (ascii name).length = named.length := by rw [← hnamed, length_map]
  have hhidden : ∀ c ∈ gap, (!isShown c) = true := fun c hc => by rw [hgap c hc]; rfl
  rw [operatorBeforeParen, any_eq_true]
  refine ⟨named ++ (gap ++ openParen :: post), (mem_tails _ _).mpr ⟨pre, rfl⟩, ?_⟩
  rw [any_eq_true]
  refine ⟨name, hname, ?_⟩
  dsimp only
  rw [hlen, drop_left, takeWhile_append_of_pos hhidden, dropWhile_append_of_pos hhidden, Bool.and_eq_true,
    Bool.and_eq_true, startsWith, List.isPrefixOf_iff_prefix, map_append, hnamed, any_append,
    any_eq_true.mpr ⟨b, hb, hop⟩]
  exact ⟨⟨⟨_, rfl⟩, rfl⟩, rfl⟩

section Owned

variable {bytes : List ((Region × UInt8) × UInt8)}

/-- The own surface shows the calls that the core surface shows, unless there is an operator in them. -/
theorem showsCall_own (hown : ∀ x ∈ bytes, Own x.1 x.2) (hcall : ShowsCall (bytes.map fun x => visibleByte x.1))
    (hop : operatorBeforeParen (bytes.map fun x => codeByte true x.1) = false) :
    ShowsCall (bytes.map fun x => toAsciiUppercase x.2) := by
  obtain ⟨pre, name, blanks, post, heq, hname, hblanks, hpre⟩ := hcall
  obtain ⟨before, l₁, rfl, rfl, hl₁⟩ := map_eq_append_iff.mp heq
  obtain ⟨named, l₂, rfl, rfl, hl₂⟩ := map_eq_append_iff.mp hl₁
  obtain ⟨gap, l₃, rfl, rfl, hl₃⟩ := map_eq_append_iff.mp hl₂
  obtain ⟨paren, behind, rfl, hparen, rfl⟩ := map_eq_cons_iff.mp hl₃
  rw [forall_mem_map] at hblanks
  have hword : ∀ x ∈ named, isWordByte (visibleByte x.1) = true := by
    obtain ⟨b, rest, hcons, hb, hrest⟩ := name_facts _ hname
    have hall : ∀ c ∈ b :: rest, isWordByte c = true :=
      forall_mem_cons.mpr ⟨isWordByte_of_identifierStart b hb, hrest⟩
    rwa [← hcons, forall_mem_map] at hall
  have hgap : ∀ x ∈ gap, isOperator (codeByte true x.1) = false := by
    obtain ⟨s, hs, hspelled⟩ := mem_map.mp hname
    have hnamed : (named.map fun x => codeByte true x.1).map toAsciiUppercase = ascii s := by
      rw [hspelled, map_map]
      exact map_congr_left fun y hy => (code_facts y.1).1 (hword y hy)
    have hhidden : ∀ b ∈ gap.map fun x => codeByte true x.1, isShown b = false :=
      forall_mem_map.mpr fun y hy => (code_facts y.1).2.2 (hblanks y hy)
    intro x hx
    cases hoperator : isOperator (codeByte true x.1) with
    | false => rfl
    | true =>
      have htrue := operatorBeforeParen_eq_true (before.map fun x => codeByte true x.1)
        (behind.map fun x => codeByte true x.1) hs hnamed hhidden
        (mem_map.mpr ⟨x, hx, rfl⟩) hoperator
      rw [map_append, map_append, map_append, map_cons, (code_facts paren.1).2.1 hparen, htrue] at hop
      cases hop
  simp only [mem_append, mem_cons] at hown
  refine ⟨before.map fun x => toAsciiUppercase x.2, named.map fun x => visibleByte x.1,
    gap.map fun x => toAsciiUppercase x.2, behind.map fun x => toAsciiUppercase x.2, ?_, ?_, ?_, ?_⟩
  · have hnamed : ∀ x ∈ named, toAsciiUppercase x.2 = visibleByte x.1 := fun x hx =>
      (own_facts (hown x (.inr (.inl hx)))).2.1 (.inl (hword x hx))
    have hopen := (own_facts (hown paren (.inr (.inr (.inr (.inl rfl)))))).2.1 (.inr hparen)
    rw [map_append, map_append, map_append, map_cons, map_congr_left hnamed, hopen, hparen]
  · exact hname
  · refine forall_mem_map.mpr fun x hx => ?_
    have hkept := (own_facts (hown x (.inr (.inr (.inl hx))))).2.2 (hblanks x hx)
    rw [hgap x hx] at hkept
    exact hkept.resolve_left Bool.false_ne_true
  · rw [getLast?_map] at hpre ⊢
    cases hlast : before.getLast? with
    | none => rfl
    | some x =>
      rw [hlast] at hpre
      exact (own_facts (hown x (.inl (mem_of_getLast? hlast)))).1.trans hpre

/-- Both surfaces have the same words. -/
theorem containsForbiddenKeyword_own (hown : ∀ x ∈ bytes, Own x.1 x.2) :
    containsForbiddenKeyword (bytes.map fun x => visibleByte x.1) =
      containsForbiddenKeyword (bytes.map fun x => toAsciiUppercase x.2) := by
  have hwords : splitOnP (fun b => !isWordByte b) (bytes.map fun x => visibleByte x.1) =
      splitOnP (fun b => !isWordByte b) (bytes.map fun x => toAsciiUppercase x.2) := by
    refine Text.splitOnP_congr ?_
    rw [forall₂_map_left_iff, forall₂_map_right_iff, forall₂_same]
    intro x hx
    obtain ⟨hclass, hsame, -⟩ := own_facts (hown x hx)
    rw [hclass]
    exact ⟨rfl, fun hword => (hsame (.inl (by simpa using hword))).symm⟩
  rw [containsForbiddenKeyword, containsForbiddenKeyword, hwords]

end Owned

theorem showsCall_trim (own : List UInt8) (h : ShowsCall (own.map toAsciiUppercase)) :
    ShowsCall ((trimBy isBlank own).map toAsciiUppercase) := by
  obtain ⟨pre, name, blanks, post, heq, hname, hblanks, hpre⟩ := h
  obtain ⟨before, l₁, rfl, rfl, hl₁⟩ := map_eq_append_iff.mp heq
  obtain ⟨named, l₂, rfl, rfl, hl₂⟩ := map_eq_append_iff.mp hl₁
  obtain ⟨gap, l₃, rfl, rfl, hl₃⟩ := map_eq_append_iff.mp hl₂
  obtain ⟨paren, behind, rfl, hparen, rfl⟩ := map_eq_cons_iff.mp hl₃
  have hsplit : before ++ (named ++ (gap ++ paren :: behind)) = before ++ (named ++ gap ++ [paren]) ++ behind := by simp
  have hhead : (named ++ gap ++ [paren]).head?.any isBlank = false := by
    obtain ⟨b, rest, hcons, hb, -⟩ := name_facts _ hname
    obtain ⟨c, named, rfl, rfl, -⟩ := map_eq_cons_iff.mp hcons
    rw [Bool.eq_false_iff]
    intro hc
    have hfalse := isWordByte_false_of_isBlank c hc
    rw [← isWordByte_toAsciiUppercase, isWordByte_of_identifierStart _ hb] at hfalse
    cases hfalse
  have hlast : (named ++ gap ++ [paren]).getLast?.any isBlank = false := by
    rw [getLast?_concat, Option.any_some, (toAsciiUppercase_eq_openParen _).mp hparen]
    rfl
  rw [hsplit, Text.trimBy_append (by simp) hhead hlast]
  refine ⟨(before.dropWhile isBlank).map toAsciiUppercase, _, _,
    ((behind.reverse.dropWhile isBlank).reverse).map toAsciiUppercase, ?_, hname, hblanks, ?_⟩
  · simp only [map_append, map_cons, hparen, append_assoc, cons_append, nil_append]
  · rw [getLast?_map, Option.any_map] at hpre ⊢
    exact Text.getLast?_dropWhile_any hpre

theorem containsForbiddenKeyword_trim (own : List UInt8) :
    containsForbiddenKeyword ((trimBy isBlank own).map toAsciiUppercase) =
      containsForbiddenKeyword (own.map toAsciiUppercase) := by
  have hsep : ∀ u : List UInt8, (∀ c ∈ u, isBlank c = true) →
      ∀ c ∈ u.map toAsciiUppercase, (!isWordByte c) = true := by
    intro u hu c hc
    obtain ⟨b, hb, rfl⟩ := mem_map.mp hc
    rw [isWordByte_toAsciiUppercase, isWordByte_false_of_isBlank b (hu b hb)]
    rfl
  have hempty : ∀ n, (List.replicate n ([] : List UInt8)).filter (fun t => !t.isEmpty) = [] := by
    intro n
    rw [filter_replicate]
    rfl
  obtain ⟨u, v, hown, hu, hv⟩ := Text.trimBy_eq isBlank own
  have hmap : own.map toAsciiUppercase = u.map toAsciiUppercase ++
      (trimBy isBlank own).map toAsciiUppercase ++ v.map toAsciiUppercase := by
    rw [← map_append, ← map_append, ← hown]
  rw [hmap, containsForbiddenKeyword, containsForbiddenKeyword,
    Text.splitOnP_append_right (hsep v hv), Text.splitOnP_append_left (hsep u hu), filter_append,
    filter_append, hempty, hempty, nil_append, append_nil]

/-! ### Words of the code -/

/-- The name is a word of the text, in some letter case. -/
def Mentions (text : List UInt8) (s : String) : Prop :=
  ∃ pre w post, text = pre ++ (w ++ post) ∧ Spells w s ∧ pre.getLast?.any isWordByte = false ∧
    post.head?.any isWordByte = false

section Words

variable {s t : String} {u text : List UInt8}

/-- What a bounded pattern finds are words. -/
theorem mentions_of_bounded {rs : List (Regex UInt8)} {e : Option UInt8 × List UInt8}
    (h : e ∈ Regex.ends isWordByte (bounded rs) (Regex.lastOr none u, text)) :
    ∃ r ∈ rs, (∀ s, r = caselessLit s → wordLike s = true → Mentions (u ++ text) s) ∧
      ∀ s t, r = caselessPair s t → wordLike s = true → wordLike t = true →
        Mentions (u ++ text) s ∧ Mentions (u ++ text) t := by
  obtain ⟨m, hm, h⟩ := Regex.mem_ends_seq.mp h
  obtain ⟨rfl, hstart⟩ := Regex.mem_ends_boundary.mp hm
  obtain ⟨⟨p, behind⟩, halts, h⟩ := Regex.mem_ends_seq.mp h
  obtain ⟨-, hend⟩ := Regex.mem_ends_boundary.mp h
  obtain ⟨r, hr, hends⟩ := Regex.mem_ends_alts.mp halts
  rw [lastOr_none] at hstart
  have hbefore : text.head?.any isWordByte = true → u.getLast?.any isWordByte = false := fun hhead => by
    rw [hhead] at hstart
    exact Bool.eq_false_iff.mpr hstart
  have hbehind : p.any isWordByte = true → behind.head?.any isWordByte = false := fun hlast => by
    rw [hlast] at hend
    exact Bool.eq_false_iff.mpr hend.symm
  refine ⟨r, hr, ?_, ?_⟩
  · rintro s rfl hs
    obtain ⟨w, rfl, hspells, rfl⟩ := mem_ends_caselessLit.mp hends
    have hne := hspells.ne_nil hs
    obtain ⟨hhead, hlast⟩ := head_getLast_any hne (hspells.all_isWordByte hs)
    refine ⟨u, w, behind, rfl, hspells, hbefore ?_, hbehind ?_⟩
    · rwa [head?_append_of_ne_nil _ hne]
    · rwa [lastOr_of_ne_nil hne]
  · rintro s t rfl hs ht
    obtain ⟨⟨_, l₁⟩, h₁, h⟩ := Regex.mem_ends_seq.mp hends
    obtain ⟨⟨_, l₂⟩, h₂, h⟩ := Regex.mem_ends_seq.mp h
    obtain ⟨⟨_, l₃⟩, h₃, h₄⟩ := Regex.mem_ends_seq.mp h
    obtain ⟨w, rfl, hspells, rfl⟩ := mem_ends_caselessLit.mp h₁
    obtain ⟨c, rfl, hc, rfl⟩ := Regex.mem_ends_chr.mp h₂
    obtain ⟨g, rfl, hg, rfl⟩ := Regex.mem_ends_star.mp h₃
    obtain ⟨w', rfl, hspells', rfl⟩ := mem_ends_caselessLit.mp h₄
    have hne := hspells.ne_nil hs
    have hne' := hspells'.ne_nil ht
    have hblank : ∀ b ∈ c :: g, isWordByte b = false :=
      forall_mem_cons.mpr ⟨isWordByte_false_of_isBlank c hc, fun b hb => isWordByte_false_of_isBlank b (hg b hb)⟩
    refine ⟨⟨u, w, _, rfl, hspells, hbefore ?_, hblank c mem_cons_self⟩,
      ⟨u ++ w ++ c :: g, w', behind, by simp, hspells', ?_, hbehind ?_⟩⟩
    · rw [head?_append_of_ne_nil _ hne]
      exact (head_getLast_any hne (hspells.all_isWordByte hs)).1
    · rw [getLast?_append_of_ne_nil _ (cons_ne_nil c g), getLast?_eq_some_getLast (cons_ne_nil c g)]
      exact hblank _ (getLast_mem _)
    · rw [lastOr_of_ne_nil hne']
      exact (head_getLast_any hne' (hspells'.all_isWordByte ht)).2

theorem Mentions.of_trim (h : Mentions (trimBy isBlank text) s) : Mentions text s := by
  have hblank : ∀ {o : Option UInt8}, (∀ b ∈ o, isBlank b = true) → o.any isWordByte = false := by
    intro o ho
    cases o with
    | none => rfl
    | some b => exact isWordByte_false_of_isBlank b (ho b rfl)
  obtain ⟨front, back, htext, hfront, hback⟩ := Text.trimBy_eq isBlank text
  obtain ⟨pre, w, post, heq, hspells, hpre, hpost⟩ := h
  refine ⟨front ++ pre, w, post ++ back, ?_, hspells, ?_, ?_⟩
  · conv_lhs => rw [htext, heq]
    simp
  · by_cases hnil : pre = []
    · rw [hnil, append_nil]
      exact hblank fun b hb => hfront b (mem_of_getLast? hb)
    · rwa [getLast?_append_of_ne_nil _ hnil]
  · by_cases hnil : post = []
    · rw [hnil, nil_append]
      exact hblank fun b hb => hback b (mem_of_head? hb)
    · rwa [head?_append_of_ne_nil _ hnil]

/-- The words that the core lexer shows are words of the code. -/
theorem Mentions.of_write {mask : Bool} {zs : List (Region × UInt8)} (hs : wordLike s = true)
    (h : Mentions (zs.map fun z => (Sql.surfaceRules mask).write z.1 z.2) s) : Mentions (zs.map (codeByte !mask)) s := by
  have hbyte := codeByte_write mask
  have hany : ∀ o : Option (Region × UInt8), (o.map (codeByte !mask)).any isWordByte =
      (o.map fun z => (Sql.surfaceRules mask).write z.1 z.2).any isWordByte := by
    intro o
    cases o with
    | none => rfl
    | some z => exact (hbyte z).1
  obtain ⟨pre, w, post, heq, hspells, hpre, hpost⟩ := h
  have hall := all_eq_true.mp (hspells.all_isWordByte hs)
  obtain ⟨before, l, rfl, rfl, hl⟩ := map_eq_append_iff.mp heq
  obtain ⟨named, behind, rfl, rfl, rfl⟩ := map_eq_append_iff.mp hl
  rw [forall_mem_map] at hall
  rw [map_congr_left fun z hz => (hbyte z).2 (hall z hz)] at hspells
  rw [getLast?_map, ← hany] at hpre
  rw [head?_map, ← hany] at hpost
  refine ⟨before.map (codeByte !mask), named.map (codeByte !mask), behind.map (codeByte !mask), ?_, hspells, ?_, ?_⟩
  · rw [map_append, map_append]
  · rwa [getLast?_map]
  · rwa [head?_map]

theorem Mentions.of_surface {mask : Bool} {out : List UInt8} (hout : lexicalSurface sql mask = .ok out)
    (hs : wordLike s = true) (h : Mentions (trimBy isBlank out) s) : Mentions (codeText (!mask) sql) s := by
  obtain ⟨rs, hrs, rfl⟩ := of_lexicalSurface hout
  rw [codeText, hrs]
  exact h.of_trim.of_write hs

end Words

/-! ### Soundness -/

/-- On the core surface there is one statement at most, no keyword and no call of DuckDB that the
scratchpad forbids, and none that the core policy forbids. -/
structure PolicySound (sql lex fns : List UInt8) : Prop where
  lexical : lexicalSurface sql true = .ok lex
  functions : lexicalSurface sql false = .ok fns
  single : statementCount (trimBy isBlank lex) ≤ 1
  keyword : containsForbiddenKeyword (visible fns) = false
  call : ¬ ShowsCall (visible fns)
  clean : CoreClean lex fns

/-- The keywords that the core policy looks for; of the two words of a label the first. -/
def coreKeywords : List String := "SECURITY" :: (forbiddenKeywords ++ forbiddenKeywordsAfter)

/-- None of the names that the core policy looks for is a word of the code. -/
structure NamesAbsent (sql : List UInt8) : Prop where
  keyword : ∀ s ∈ coreKeywords, ¬Mentions (codeText false sql) s
  function : ∀ s ∈ forbiddenFunctions, ¬Mentions (codeText true sql) s

theorem NamesAbsent.coreClean {lex fns : List UInt8} (h : NamesAbsent sql) (hlex : lexicalSurface sql true = .ok lex)
    (hfns : lexicalSurface sql false = .ok fns) : CoreClean lex fns := by
  have hlike : ∀ s ∈ coreKeywords, wordLike s = true := by decide
  have hlike' : ∀ s ∈ forbiddenFunctions, wordLike s = true := by decide
  have hexplain : ∀ s ∈ explainForbidden, s ∈ coreKeywords := by decide
  have hno : ∀ s ∈ coreKeywords, ¬Mentions (trimBy isBlank lex) s := fun s hs hm =>
    h.keyword s hs (hm.of_surface hlex (hlike s hs))
  have hfind : ∀ rs : List (Regex UInt8), Regex.isMatch isWordByte (bounded rs) (trimBy isBlank lex) = true →
      ∃ r ∈ rs, (∀ s, r = caselessLit s → wordLike s = true → Mentions (trimBy isBlank lex) s) ∧
        ∀ s t, r = caselessPair s t → wordLike s = true → wordLike t = true →
          Mentions (trimBy isBlank lex) s ∧ Mentions (trimBy isBlank lex) t := by
    intro rs hmatch
    obtain ⟨u, text, e, heq, he⟩ := Regex.exists_of_isMatchFrom hmatch
    rw [heq]
    exact mentions_of_bounded he
  refine ⟨fun _ => Bool.eq_false_iff.mpr fun hmatch => ?_, fun _ => Bool.eq_false_iff.mpr fun hmatch => ?_,
    Bool.eq_false_iff.mpr fun hcall => ?_⟩
  · obtain ⟨r, hr, hword, hpair⟩ := hfind _ hmatch
    simp only [mem_append, mem_cons, mem_map] at hr
    rcases hr with ⟨s, hs, rfl⟩ | rfl | ⟨s, hs, rfl⟩
    · have hmem := mem_cons_of_mem "SECURITY" (mem_append_left forbiddenKeywordsAfter hs)
      exact hno s hmem (hword s rfl (hlike s hmem))
    · exact hno "SECURITY" mem_cons_self (hpair _ _ rfl (by decide) (by decide)).1
    · have hmem := mem_cons_of_mem "SECURITY" (mem_append_right forbiddenKeywords hs)
      exact hno s hmem (hword s rfl (hlike s hmem))
  · obtain ⟨r, hr, hword, hpair⟩ := hfind _ hmatch
    simp only [mem_append, mem_singleton, mem_map] at hr
    rcases hr with ⟨s, hs, rfl⟩ | rfl
    · exact hno s (hexplain s hs) (hword s rfl (hlike s (hexplain s hs)))
    · exact hno "UPDATE" (by decide) (hpair _ _ rfl (by decide) (by decide)).2
  · obtain ⟨m, hm, -⟩ := any_eq_true.mp hcall
    obtain ⟨u, text, e, heq, he⟩ :=
      Regex.exists_of_isMatchFrom (Regex.isMatchFrom_of_findIterFrom (ne_nil_of_mem hm))
    obtain ⟨e', he', -⟩ := Regex.mem_ends_seq.mp he
    obtain ⟨r, hr, hword, -⟩ := mentions_of_bounded he'
    rw [← heq] at hword
    obtain ⟨s, hs, rfl⟩ := mem_map.mp hr
    exact h.function s hs ((hword s rfl (hlike' s hs)).of_surface hfns (hlike' s hs))

theorem Mentions.spelled {s : String} {text : List UInt8} (h : Mentions text s) :
    (ascii s).map toAsciiUppercase <:+: text.map toAsciiUppercase := by
  obtain ⟨pre, w, post, rfl, hspells, -, -⟩ := h
  refine ⟨pre.map toAsciiUppercase, post.map toAsciiUppercase, ?_⟩
  rw [← hspells, map_append, map_append, append_assoc]

theorem noBareReturn_of_tails {text : List UInt8}
    (h : ∀ t ∈ text.tails, t.head? = some carriageReturn → t.tail.head? = some newline) : NoBareReturn text :=
  fun pre post heq => h (carriageReturn :: post) ((mem_tails _ _).mpr ⟨pre, heq.symm⟩) rfl

/-- A statement that only the exemption lets through, with forbidden names where they are no code or no call. -/
def describedText : List UInt8 := ascii "DESCRIBE SELECT 'DROP; LOAD', csv_scan, \"a;b\" FROM t -- read_csv(1)\r\n"

end McpToolkit.Sql.Scratchpad
