import McpToolkit.Sql.Regions

/-!
# McpToolkit.Sql.Surface — where the two lexers agree

The loop of `lexical_surface` against the tokens of the database.  As long as a text gives the two
no reason to part (`inStep`), a piece starts wherever a token starts, and the surface is the tokens, each masked in its
own way (`Lexeme.surface`).

They part at four places: an escaped quote inside an `E'...'` string or where it goes on, a dollar quote that the loop
opens inside an identifier, one it opens at a parameter such as `$1$`, and one it does not open
because its tag is not ASCII.
-/

namespace McpToolkit.Sql

open List Postgres

variable {b : UInt8} {l rest : List UInt8}

/-! ### Bytes of code -/

/-- A byte that is code for the loop. -/
structure Plain (b : UInt8) (l : List UInt8) : Prop where
  dash : ¬ (b = dash ∧ l.head? = some dash)
  comment : ¬ (b = slash ∧ l.head? = some star)
  quote : b ≠ quote
  doubleQuote : b ≠ doubleQuote
  dollar : parseDollarTag (b :: l) = none

theorem readRegions_plain (h : Plain b l) :
    readRegions .start (b :: l) = (readRegions .start l).map ([.code] ++ ·) := by
  refine readRegions_cons (n := 0) ?_
  rw [turn_start, if_neg h.dash, if_neg h.comment, if_neg h.quote, if_neg h.doubleQuote, h.dollar]
  rfl

theorem isIdentByte_of_isTagByte (h : isTagByte b = true) : isIdentByte b = true := by
  rw [isIdentByte, h, Bool.true_or]

theorem isIdentByte_of_isIdentStart (h : isIdentStart b = true) : isIdentByte b = true :=
  isIdentByte_of_isTagByte (by rw [isTagByte, h, Bool.true_or])

theorem parseDollarTag_of_ne (h : b ≠ dollar) : parseDollarTag (b :: l) = none := by
  rw [parseDollarTag, if_neg h]

theorem plain_of_isIdentByte (h : isIdentByte b = true)
    (hd : b = dollar → parseDollarTag (b :: l) = none) : Plain b l := by
  have hne : ∀ c : UInt8, isIdentByte c = false → b ≠ c := by
    rintro c hc rfl
    rw [h] at hc; cases hc
  refine ⟨fun hb => hne _ (by decide) hb.1, fun hb => hne _ (by decide) hb.1, hne _ (by decide),
    hne _ (by decide), ?_⟩
  by_cases hb : b = dollar
  · exact hd hb
  · exact parseDollarTag_of_ne hb

/-- The loop opens a dollar quote at a byte of `w`, with `rest` behind it. -/
def opensDollar : List UInt8 → List UInt8 → Bool
  | [], _ => false
  | b :: w, rest => (parseDollarTag (b :: w ++ rest)).isSome || opensDollar w rest

theorem plain_of_isIdentStart (h : isIdentStart b = true) : Plain b l :=
  plain_of_isIdentByte (isIdentByte_of_isIdentStart h) fun hb => by
    subst hb
    cases h

theorem readRegions_run : ∀ {w rest : List UInt8}, w.all isIdentByte = true → opensDollar w rest = false →
    readRegions .start (w ++ rest) = (readRegions .start rest).map ((w.map fun _ => .code) ++ ·)
  | [], rest, _, _ => by simp
  | b :: w, rest, hw, hd => by
    rw [all_cons, Bool.and_eq_true] at hw
    rw [opensDollar, Bool.or_eq_false_iff, Option.isSome_eq_false_iff, Option.isNone_iff_eq_none] at hd
    have hplain : Plain b (w ++ rest) := plain_of_isIdentByte hw.1 fun _ => hd.1
    rw [cons_append, readRegions_plain hplain, readRegions_run hw.2 hd.2, map_append_append]
    rfl

theorem readRegions_takeWhile {p : UInt8 → Bool} (hb : isIdentByte b = true)
    (hp : ∀ c, p c = true → isIdentByte c = true)
    (hopen : opensDollar (b :: l.takeWhile p) (l.dropWhile p) = false) : readRegions .start (b :: l) =
      (readRegions .start (l.dropWhile p)).map (((b :: l.takeWhile p).map fun _ => .code) ++ ·) := by
  have hall : (b :: l.takeWhile p).all isIdentByte = true := by
    rw [all_cons, hb, Bool.true_and, all_eq_true]
    exact fun c hc => hp c (mem_takeWhile_imp hc)
  rw [← readRegions_run hall hopen, cons_append, takeWhile_append_dropWhile]

/-! ### Escape strings -/

/-- The text behind the opening quote of an `E'...'` string has a backslash before a quote, inside
the string. -/
def escapesQuote : List UInt8 → Bool
  | b :: c :: rest =>
    if b = backslash then c == quote || escapesQuote rest
    else if b = quote then c == quote && escapesQuote rest
    else escapesQuote (c :: rest)
  | _ => false

theorem readRegions_escaped {l : List UInt8} (he : escapesQuote l = false) :
    readRegions ⟨.singleQuote, none⟩ l = readBehind .string (readEscaped l) := by
  fun_induction readEscaped l with
  | case1 => exact readRegions_nil_eq_none rfl
  | case2 => exact quoting_single.readRegions_close (by simp)
  | case3 b hb => rw [quoting_single.readRegions_inside hb, readRegions_nil_eq_none rfl]; rfl
  | case4 c l ih =>
    -- the loop reads the backslash and the byte behind it as two bytes of the string
    rw [escapesQuote, if_pos rfl, Bool.or_eq_false_iff, beq_eq_false_iff_ne] at he
    rw [quoting_single.readRegions_inside (by decide), quoting_single.readRegions_inside he.1, ih he.2,
      readBehind_cons, readBehind_cons]
  | case5 l hslash ih =>
    rw [escapesQuote, if_neg hslash, if_pos rfl, beq_self_eq_true] at he
    rw [quoting_single.readRegions_pair, ih he, readBehind_cons, readBehind_cons, map_append_append]
    rfl
  | case6 c l hc => exact quoting_single.readRegions_close fun hq => hc (Option.some.inj hq)
  | case7 b c l hslash hb ih =>
    rw [escapesQuote, if_neg hslash, if_neg hb] at he
    rw [quoting_single.readRegions_inside hb, ih he, readBehind_cons]

theorem readRegions_escapedQuote {body : List UInt8} (hbody : readEscaped l = some (body, rest))
    (hfree : escapesQuote (body ++ rest) = false) : readRegions .start (quote :: l) =
      (readRegions .start rest).map (((quote :: body).map fun _ => .string) ++ ·) := by
  have hturn : turn (!inLine ·) .start quote l = (.string, 0, ⟨.singleQuote, none⟩) := rfl
  rw [← readEscaped_append hbody] at hfree
  rw [readRegions_cons hturn, drop_zero, readRegions_escaped hfree, hbody, map_const']
  exact map_append_append _ _ _

/-! ### Dollar quotes -/

variable {tag l : List UInt8}

theorem takeWhile_tag (h : tag.all isTagByte = true) :
    (tag ++ dollar :: l).takeWhile isTagByte = tag ∧
      (tag ++ dollar :: l).dropWhile isTagByte = dollar :: l := by
  have h' : ∀ b ∈ tag, isTagByte b = true := all_eq_true.mp h
  rw [takeWhile_append_of_pos h', dropWhile_append_of_pos h']
  exact ⟨append_nil _, rfl⟩

theorem dollarTag_eq_some_iff : dollarTag l = some tag ↔
    (∃ l', l = tag ++ dollar :: l') ∧ tag.all isTagByte = true ∧
      tag.head?.all isIdentStart = true := by
  constructor
  · intro h
    simp only [dollarTag] at h
    split_ifs at h with hc
    obtain rfl := Option.some.inj h
    obtain ⟨l', hl'⟩ := head?_eq_some_iff.mp hc.1
    refine ⟨⟨l', ?_⟩, all_takeWhile, hc.2⟩
    rw [← hl', takeWhile_append_dropWhile]
  · rintro ⟨⟨l', rfl⟩, htag, hstart⟩
    obtain ⟨htake, hdrop⟩ := takeWhile_tag (l := l') htag
    simp only [dollarTag, htake, hdrop]
    exact if_pos ⟨rfl, hstart⟩

theorem isTagByte_of_isWordByte {b : UInt8} (h : isWordByte b = true) : isTagByte b = true := by
  simp only [isWordByte, isAsciiAlphanumeric, Bool.or_eq_true] at h
  simp only [isTagByte, isIdentStart, isLetter, Bool.or_eq_true]
  rcases h with (h | h) | h
  · exact Or.inr h
  · exact Or.inl (Or.inl (Or.inl h))
  · exact Or.inl (Or.inr h)

theorem all_isTagByte_of_all_isWordByte (h : tag.all isWordByte = true) : tag.all isTagByte = true :=
  all_eq_true.mpr fun b hb => isTagByte_of_isWordByte (all_eq_true.mp h b hb)

/-- Where the loop opens a dollar quote at a dollar sign that is a token of its own, the database
does as well. -/
theorem parseDollarTag_eq_none (htag : dollarTag l = none)
    (hdigit : l.head?.any isAsciiDigit = false) : parseDollarTag (dollar :: l) = none := by
  rw [parseDollarTag_eq, Option.map_eq_none_iff, Option.eq_none_iff_forall_ne_some]
  intro tag h
  obtain ⟨-, hword, l', rfl⟩ := of_tagAt h
  have hstart : tag.head?.all isIdentStart = true := by
    cases tag with
    | nil => rfl
    | cons b tag =>
      rw [all_cons, Bool.and_eq_true] at hword
      have hb := isTagByte_of_isWordByte hword.1
      rw [isTagByte, Bool.or_eq_true] at hb
      rcases hb with hb | hb
      · exact hb
      · have hfalse : isAsciiDigit b = false := hdigit
        rw [hb] at hfalse; cases hfalse
  rw [dollarTag_eq_some_iff.mpr ⟨⟨l', rfl⟩, all_isTagByte_of_all_isWordByte hword, hstart⟩] at htag
  cases htag

/-- A dollar quote of the database is one for the loop if the loop finds its tag. -/
theorem tagAt_of_dollarTag {body : List UInt8} (htag : dollarTag l = some tag)
    (hopen : (parseDollarTag (dollar :: tag ++ dollar :: body)).isSome = true) : tagAt dollar l = some tag := by
  obtain ⟨⟨l', rfl⟩, hall, -⟩ := dollarTag_eq_some_iff.mp htag
  rw [cons_append, parseDollarTag_eq, Option.isSome_map] at hopen
  obtain ⟨tag', htag'⟩ := Option.isSome_iff_exists.mp hopen
  obtain ⟨-, hword, l'', heq⟩ := of_tagAt htag'
  have htake := congrArg (List.takeWhile isTagByte) heq
  rw [(takeWhile_tag hall).1, (takeWhile_tag (all_isTagByte_of_all_isWordByte hword)).1] at htake
  subst htake
  exact wordTag_append hword l'

/-! ### A token at a time -/

/-- The loop reads the token as the database does; `rest` is the text behind it. -/
def aligned (x : Postgres.Lexeme) (rest : List UInt8) : Bool :=
  match x.kind with
  | .escapeString => !escapesQuote (x.bytes.drop 2 ++ rest)
  | .escapeContinuation => !escapesQuote (x.bytes.drop 1 ++ rest)
  | .word | .number | .parameter => !opensDollar x.bytes rest
  | .dollarString => (parseDollarTag x.bytes).isSome
  | .space | .lineComment | .blockComment | .quotedIdentifier | .string | .symbol => true

/-- What the token leaves on the surface. -/
def Postgres.Lexeme.surface (mask : Bool) (x : Postgres.Lexeme) : List UInt8 :=
  match x.kind with
  | .space | .word | .number | .parameter | .symbol => x.bytes.map maskByte
  | .lineComment => x.bytes.map fun _ => Sql.space
  | .blockComment | .string | .escapeContinuation | .dollarString => x.bytes.map maskHiddenByte
  | .quotedIdentifier => x.bytes.map ((surfaceRules mask).write .identifier)
  | .escapeString => (x.bytes.take 1).map maskByte ++ (x.bytes.drop 1).map maskHiddenByte

theorem plain_of_isSpace (h : isSpace b = true) : Plain b l := by
  have hne : ∀ c : UInt8, isSpace c = false → b ≠ c := by
    rintro c hc rfl
    rw [h] at hc; cases hc
  exact ⟨fun hb => hne _ (by decide) hb.1, fun hb => hne _ (by decide) hb.1, hne _ (by decide),
    hne _ (by decide), parseDollarTag_of_ne (hne _ (by decide))⟩

/-- What the bytes of the token are part of. -/
def Postgres.Lexeme.regions (x : Postgres.Lexeme) : List Region :=
  match x.kind with
  | .space | .word | .number | .parameter | .symbol => x.bytes.map fun _ => .code
  | .lineComment => x.bytes.map fun _ => .lineComment
  | .blockComment => x.bytes.map fun _ => .blockComment
  | .string | .escapeContinuation => x.bytes.map fun _ => .string
  | .dollarString => x.bytes.map fun _ => .dollarQuote
  | .quotedIdentifier => x.bytes.map fun _ => .identifier
  | .escapeString => ((x.bytes.take 1).map fun _ => .code) ++ (x.bytes.drop 1).map fun _ => .string

theorem readRegions_of_nextPiece {region : Region} {bytes : List UInt8}
    (h : nextPiece b l = some ((region, bytes), rest)) :
    readRegions .start (b :: l) = (readRegions .start rest).map ((bytes.map fun _ => region) ++ ·) := by
  rw [readRegions_piece, h, map_const']
  rfl

/-- **Where the loop reads a token as the database does, the token is a piece, or bytes of code.** -/
theorem readRegions_next {x : Postgres.Lexeme} (h : Postgres.Next b l x rest) (ha : aligned x rest = true) :
    readRegions .start (b :: l) = (readRegions .start rest).map (x.regions ++ ·) := by
  cases h with
  | space hb => exact readRegions_plain (plain_of_isSpace hb)
  | lineComment => exact readRegions_of_nextPiece rfl
  | blockComment hbody => exact readRegions_of_nextPiece (congrArg (Option.map _) hbody)
  | string hbody | quotedIdentifier hbody => exact readRegions_of_nextPiece (congrArg (Option.map _) hbody)
  | escapeContinuation hbody => exact readRegions_escapedQuote hbody (Bool.not_eq_true' _ ▸ ha)
  | escapeString hb hbody =>
    rw [readRegions_plain (plain_of_isIdentStart hb), readRegions_escapedQuote hbody (Bool.not_eq_true' _ ▸ ha),
      map_append_append]
    rfl
  | word hb =>
    exact readRegions_takeWhile (isIdentByte_of_isIdentStart hb) (fun _ => id) (Bool.not_eq_true' _ ▸ ha)
  | number hb =>
    refine readRegions_takeWhile (isIdentByte_of_isTagByte ?_) (fun _ => isIdentByte_of_isTagByte)
      (Bool.not_eq_true' _ ▸ ha)
    rw [isTagByte, hb, Bool.or_true]
  | dollarString htag hbody =>
    refine readRegions_of_nextPiece ?_
    have hpiece : nextPiece dollar l = _ := nextPiece_dollar (tagAt_of_dollarTag htag ha)
    rw [hpiece, hbody]
    rfl
  | parameter htag hdigit =>
    exact readRegions_takeWhile rfl (fun _ => isIdentByte_of_isTagByte) (Bool.not_eq_true' _ ▸ ha)
  | dollar htag hdigit =>
    exact readRegions_plain ⟨fun h => (by cases h.1), fun h => (by cases h.1), by decide, by decide,
      parseDollarTag_eq_none htag hdigit⟩
  | symbol hident _ hquote hdouble hdash hslash =>
    refine readRegions_plain ⟨hdash, hslash, hquote, hdouble, parseDollarTag_of_ne ?_⟩
    rintro rfl
    cases hident

/-! ### The whole text -/

def inStepLoop : ℕ → Postgres.Continuation → List UInt8 → Bool
  | fuel + 1, c, b :: l =>
    match next c b l with
    | some (x, rest) => aligned x rest && inStepLoop fuel (c.after x) rest
    | none => true
  | _, _, _ => true

/-- The loop reads every token of the text as the database does. -/
def inStep (sql : List UInt8) : Bool := inStepLoop sql.length .no sql

theorem zipWith_write_map (mask : Bool) (region : Region) (l : List UInt8) :
    List.zipWith (surfaceRules mask).write (l.map fun _ => region) l = l.map ((surfaceRules mask).write region) := by
  rw [zipWith_map_left, zipWith_self]

theorem zipWith_regions (mask : Bool) (x : Postgres.Lexeme) :
    x.regions.length = x.bytes.length ∧ List.zipWith (surfaceRules mask).write x.regions x.bytes = x.surface mask := by
  obtain ⟨kind, bytes⟩ := x
  cases kind with
  | escapeString =>
    cases bytes with
    | nil => exact ⟨rfl, rfl⟩
    | cons b bytes =>
      exact ⟨congrArg Nat.succ (length_map _), congrArg (maskByte b :: ·) (zipWith_write_map mask .string bytes)⟩
  | _ => exact ⟨length_map _, zipWith_write_map mask _ bytes⟩

theorem readRegions_lexLoop (mask : Bool) : ∀ {fuel : ℕ} {c : Postgres.Continuation} {l : List UInt8}
    {xs : List Postgres.Lexeme}, Postgres.lexLoop fuel c l = some xs → inStepLoop fuel c l = true →
    ∃ rs, readRegions .start l = some rs ∧
      List.zipWith (surfaceRules mask).write rs l = xs.flatMap (Postgres.Lexeme.surface mask)
  | fuel, c, [], xs, h, _ => by
    cases fuel <;> cases h <;> exact ⟨[], readRegions_nil _, rfl⟩
  | 0, c, b :: l, xs, h, _ => by cases h
  | fuel + 1, c, b :: l, xs, h, hstep => by
    obtain ⟨x, rest, xs, rfl, hnext, hxs⟩ := Postgres.of_lexLoop_cons h
    rw [inStepLoop, hnext, Bool.and_eq_true] at hstep
    have hspec := next_cases hnext
    obtain ⟨rs, hrs, hwritten⟩ := readRegions_lexLoop mask hxs hstep.2
    obtain ⟨hlen, hsurface⟩ := zipWith_regions mask x
    refine ⟨x.regions ++ rs, ?_, ?_⟩
    · rw [readRegions_next hspec hstep.1, hrs]
      rfl
    · rw [hspec.append, zipWith_append hlen, hsurface, hwritten, flatMap_cons]

/-- **The surface of a text that the two lexers read alike is the surfaces of its tokens.** -/
theorem lexicalSurface_of_inStep {mask : Bool} {sql : List UInt8} {xs : List Postgres.Lexeme}
    (h : Postgres.lex sql = some xs) (hstep : inStep sql = true) :
    lexicalSurface sql mask = .ok (xs.flatMap (Postgres.Lexeme.surface mask)) := by
  obtain ⟨rs, hrs, hwritten⟩ := readRegions_lexLoop mask h hstep
  rw [lexicalSurface_eq, ← readRegions_eq, hrs, ← hwritten]
  rfl

end McpToolkit.Sql
