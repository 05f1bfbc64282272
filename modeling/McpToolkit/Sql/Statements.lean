import McpToolkit.Sql.Classifier
import McpToolkit.Sql.Tokens

/-!
# McpToolkit.Sql.Statements — one statement, no forbidden keyword

The promise of the restricted policy, read with the tokens of the database: an accepted text has at
most one statement and, unless it is an `EXPLAIN`, no forbidden keyword among its words.  Where the
two lexers read the text alike (`inStep`) this comes down to what the surface does not show: a
statement that leaves blanks only, and a text that only looks as if it started with `EXPLAIN`.
-/

namespace McpToolkit.Sql

open List
open Lib
open Lib.Text (ascii trimBy)
open Postgres (Lexeme Lexed statements startsWithWord)
open Postgres.Lexeme (isToken surface)

/-! ### Counting statements -/

theorem statementCount_eq (text : List UInt8) :
    statementCount text = ((splitOnP (· == semicolon) text).map (·.all isBlank)).countP (!·) := by
  rw [statementCount, countP_map, countP_eq_length_filter]
  simp only [Text.isEmpty_trimBy]
  rfl

theorem statementCount_trimBy (text : List UInt8) : statementCount (trimBy isBlank text) = statementCount text := by
  have hblank : ∀ b : UInt8, isBlank b = true → (b == semicolon) = false := by
    grind [isBlank, semicolon, space]
  rw [statementCount_eq, statementCount_eq, Text.map_all_splitOnP_trimBy hblank]

/-- The pieces of a text between its semicolon tokens. -/
def pieces (xs : List Lexeme) : List (List Lexeme) := splitOnP (·.isSymbol semicolon) xs

/-- The tokens leave blanks only. -/
def hidden (xs : List Lexeme) : Bool := xs.all fun x => (x.surface true).all isBlank

theorem all_isBlank_flatMap (xs : List Lexeme) : (xs.flatMap (surface true)).all isBlank = hidden xs := by
  rw [hidden, all_flatMap]

variable {s t : String} {xs : List Lexeme} {words : List String} {toks : List Lexeme}

theorem statementCount_surface (h : Lexed xs) :
    statementCount (xs.flatMap (surface true)) = (pieces xs).countP fun p => !hidden p := by
  have hsplit : splitOnP (· == semicolon) (xs.flatMap (surface true)) =
      (pieces xs).map (List.flatMap (surface true)) := by
    refine Text.splitOnP_flatMap (fun x hx => ⟨semicolon, ?_, rfl⟩) xs fun x hx hsemi => ?_
    · exact Lexeme.surface_of_isSymbol hx
    · exact (h.ok x hx).surface_semicolon hsemi
  rw [statementCount_eq, hsplit, map_map, countP_map]
  congr 1
  funext p
  exact congrArg _ (all_isBlank_flatMap p)

theorem hidden_filter {p : List Lexeme} (h : ∀ x ∈ p, x.Ok) : hidden (p.filter isToken) = hidden p := by
  rw [hidden, hidden, all_filter, Bool.eq_iff_iff, all_eq_true, all_eq_true]
  refine forall₂_congr fun x hx => ?_
  cases hx' : x.isToken with
  | true => simp
  | false => simp [(h x hx).surface_blank_of_not_isToken hx']

theorem statements_filter (xs : List Lexeme) : statements (xs.filter isToken) =
      ((pieces xs).map (List.filter isToken)).filter fun st => !st.isEmpty := by
  rw [statements, Text.splitOnP_filter ?_ xs]
  · rfl
  · intro x hx
    rw [Lexeme.isSymbol, Bool.and_eq_true, beq_iff_eq] at hx
    rw [isToken, hx.1]
    rfl

theorem countP_statements (h : Lexed xs) : ((statements (xs.filter isToken)).countP fun st => !hidden st) =
      statementCount (xs.flatMap (surface true)) := by
  rw [statementCount_surface h, statements_filter, countP_filter, countP_map]
  refine countP_congr fun p hp => ?_
  have hok : ∀ x ∈ p, x.Ok := fun x hx => h.ok x (Text.mem_of_mem_splitOnP hp hx)
  rw [Function.comp_apply, hidden_filter hok, Bool.and_eq_true, and_iff_left_iff_imp]
  intro hvisible
  rw [← hidden_filter hok] at hvisible
  cases hempty : p.filter isToken with
  | nil => rw [hempty] at hvisible; cases hvisible
  | cons x st => rfl

theorem length_statements_le_one (h : Lexed xs) (hone : statementCount (xs.flatMap (surface true)) = 1) :
    (statements (xs.filter isToken)).length ≤ 1 ↔
      ∀ st ∈ statements (xs.filter isToken), hidden st = false := by
  rw [← countP_statements h] at hone
  have hle : (statements (xs.filter isToken)).countP (fun st => !hidden st) ≤
    (statements (xs.filter isToken)).length := countP_le_length
  have hall := countP_eq_length (p := fun st => !hidden st)
    (l := statements (xs.filter isToken))
  simp only [Bool.not_eq_true'] at hall
  rw [← hall]
  omega

/-! ### Finding keywords -/

section Search

variable {rs : List (Regex UInt8)} {u w v : List UInt8}

theorem mem_ends_bounded {prev : Option UInt8} (hprev : prev.any isWordByte = false)
    (hv : v.head?.any isWordByte = false) (hhead : w.head?.any isWordByte = true)
    (hlast : w.getLast?.any isWordByte = true)
    (hw : (w.getLast?, v) ∈ Regex.ends isWordByte (Regex.alts rs) (prev, w ++ v)) :
    (w.getLast?, v) ∈ Regex.ends isWordByte (bounded rs) (prev, w ++ v) := by
  have hne : w ≠ [] := by
    rintro rfl
    cases hhead
  have hstart : prev.any isWordByte ≠ (w ++ v).head?.any isWordByte := by
    rw [hprev, head?_append_of_ne_nil w hne, hhead]
    decide
  have hend : w.getLast?.any isWordByte ≠ v.head?.any isWordByte := by
    rw [hlast, hv]
    decide
  exact Regex.mem_ends_seq.mpr ⟨_, Regex.mem_ends_boundary.mpr ⟨rfl, hstart⟩,
    Regex.mem_ends_seq.mpr ⟨_, hw, Regex.mem_ends_boundary.mpr ⟨rfl, hend⟩⟩⟩

theorem lastOr_none (u : List UInt8) : Regex.lastOr none u = u.getLast? := by
  rw [Regex.lastOr, Option.or_none]

theorem any_isBlank_of_any_isWordByte {o : Option UInt8} (h : o.any isWordByte = true) : o.any isBlank = false := by
  cases o with
  | none => rfl
  | some b => exact isBlank_false_of_isWordByte b h

theorem isMatch_bounded_trimBy (hu : u.getLast?.any isWordByte = false)
    (hv : v.head?.any isWordByte = false) (hhead : w.head?.any isWordByte = true)
    (hlast : w.getLast?.any isWordByte = true)
    (hw : ∀ prev t, (w.getLast?, t) ∈ Regex.ends isWordByte (Regex.alts rs) (prev, w ++ t)) :
    Regex.isMatch isWordByte (bounded rs) (trimBy isBlank (u ++ w ++ v)) = true := by
  have hne : w ≠ [] := by
    rintro rfl
    cases hhead
  rw [Text.trimBy_append hne (any_isBlank_of_any_isWordByte hhead)
    (any_isBlank_of_any_isWordByte hlast)]
  have hprev : (u.dropWhile isBlank).getLast?.any isWordByte = false :=
    Text.getLast?_dropWhile_any hu
  have hbehind : (v.reverse.dropWhile isBlank).reverse.head?.any isWordByte = false := by
    rw [head?_reverse]
    refine Text.getLast?_dropWhile_any ?_
    rwa [getLast?_reverse]
  rw [append_assoc]
  rw [← lastOr_none] at hprev
  exact Regex.isMatchFrom_of_mem (mem_ends_bounded hprev hbehind hhead hlast (hw _ _))

end Search

/-- The bytes spell the name in some letter case. -/
def Spells (w : List UInt8) (s : String) : Prop :=
  w.map toAsciiUppercase = (ascii s).map toAsciiUppercase

/-- The name is made of the characters of words. -/
def wordLike (s : String) : Bool :=
  !(ascii s).isEmpty && ((ascii s).map toAsciiUppercase).all isWordByte

section Spelling

variable {w v : List UInt8} {s : String}

theorem Spells.all_isWordByte (h : Spells w s) (hs : wordLike s = true) : w.all isWordByte = true := by
  rw [wordLike, Bool.and_eq_true, ← h, all_map, all_eq_true] at hs
  exact all_eq_true.mpr fun b hb => (isWordByte_toAsciiUppercase b).symm.trans (hs.2 b hb)

theorem Spells.ne_nil (h : Spells w s) (hs : wordLike s = true) : w ≠ [] := by
  rintro rfl
  have hnil : ascii s = [] := map_eq_nil_iff.mp (show (ascii s).map _ = [] from h.symm)
  rw [wordLike, hnil] at hs
  cases hs

theorem head_getLast_any {p : UInt8 → Bool} (hne : w ≠ []) (h : w.all p = true) :
    w.head?.any p = true ∧ w.getLast?.any p = true := by
  rw [head?_eq_some_head hne, getLast?_eq_some_getLast hne]
  exact ⟨all_eq_true.mp h _ (head_mem hne), all_eq_true.mp h _ (getLast_mem hne)⟩

theorem mem_ends_caselessLit {prev prev' : Option UInt8} {t : List UInt8} :
    (prev', v) ∈ Regex.ends isWordByte (caselessLit s) (prev, t) ↔
      ∃ w, t = w ++ v ∧ Spells w s ∧ prev' = Regex.lastOr prev w := by
  have hspells : ∀ w : List UInt8, List.Forall₂ (fun (p : UInt8 → Bool) b => p b = true)
      ((ascii s).map caseless) w ↔ Spells w s := by
    intro w
    rw [Spells, eq_comm, ← forall₂_eq_eq_eq, forall₂_map_left_iff, forall₂_map_left_iff, forall₂_map_right_iff]
    simp only [caseless, beq_iff_eq]
    exact ⟨fun h => h.imp fun _ _ => Eq.symm, fun h => h.imp fun _ _ => Eq.symm⟩
  rw [caselessLit, Regex.mem_ends_lit]
  simp only [hspells]

variable {x : Lexeme}

theorem spells_of_isWord (h : x.isWord s = true) : x.kind = .word ∧ Spells x.bytes s := by
  rw [Lexeme.isWord, Bool.and_eq_true, beq_iff_eq, beq_iff_eq] at h
  refine ⟨h.1, ?_⟩
  rw [Spells, ← h.2, map_map]
  exact map_congr_left fun b _ => (toAsciiUppercase_idem b).symm

theorem surface_of_word {mask : Bool} (hkind : x.kind = .word)
    (hall : x.bytes.all isWordByte = true) : x.surface mask = x.bytes := by
  obtain ⟨kind, bytes⟩ := x
  obtain rfl : kind = .word := hkind
  show bytes.map maskByte = bytes
  rw [map_congr_left fun b hb => maskByte_eq_self b (all_eq_true.mp hall b hb), map_id']

theorem surface_of_isWord {mask : Bool} (h : x.isWord s = true) (hs : wordLike s = true) : x.surface mask = x.bytes :=
  surface_of_word (spells_of_isWord h).1 ((spells_of_isWord h).2.all_isWordByte hs)

theorem startsWord_of_head (h : x.bytes.head?.any isWordByte = true) : x.startsWord = true := by
  rw [Lexeme.startsWord]
  cases hb : x.bytes.head? with
  | none => rw [hb] at h; cases h
  | some b => rw [hb] at h; exact isTagByte_of_isWordByte h

theorem word_of_isWord (mask : Bool) (h : x.isWord s = true) (hs : wordLike s = true) :
    (x.surface mask).head?.any isWordByte = true ∧ (x.surface mask).getLast?.any isWordByte = true ∧
      x.startsWord = true ∧ x.endsWord = true := by
  obtain ⟨hkind, hspells⟩ := spells_of_isWord h
  obtain ⟨hhead, hlast⟩ := head_getLast_any (hspells.ne_nil hs) (hspells.all_isWordByte hs)
  rw [surface_of_isWord h hs]
  exact ⟨hhead, hlast, startsWord_of_head hhead, by rw [Lexeme.endsWord, hkind]; rfl⟩

theorem lastOr_of_ne_nil (hne : w ≠ []) (prev : Option UInt8) : Regex.lastOr prev w = w.getLast? := by
  rw [Regex.lastOr, getLast?_eq_some_getLast hne]
  rfl

end Spelling

variable {xs : List Lexeme} {rs : List (Regex UInt8)} {mask : Bool}

theorem isMatch_of_isWord (h : Lexed xs) {x : Lexeme} (hx : x ∈ xs)
    (hword : x.isWord s = true) (hs : wordLike s = true) (hrs : caselessLit s ∈ rs) :
    Regex.isMatch isWordByte (bounded rs) (trimBy isBlank (xs.flatMap (surface mask))) = true := by
  obtain ⟨pre, post, rfl⟩ := append_of_mem hx
  obtain ⟨hhead, hlast, hstarts, hends⟩ := word_of_isWord mask hword hs
  have hspells := (spells_of_isWord hword).2
  rw [flatMap_append, flatMap_cons, ← append_assoc]
  refine isMatch_bounded_trimBy (h.getLast_before hstarts) (h.head_behind hends) hhead hlast ?_
  intro prev t
  rw [surface_of_isWord hword hs, ← lastOr_of_ne_nil (hspells.ne_nil hs) prev]
  exact Regex.mem_ends_alts.mpr ⟨_, hrs, mem_ends_caselessLit.mpr ⟨_, rfl, hspells, rfl⟩⟩

theorem mem_ends_caselessPair {w₁ g w₂ : List UInt8} (h₁ : Spells w₁ s)
    (h₂ : Spells w₂ t) (hne : g ≠ []) (hg : g.all isBlank = true) (prev : Option UInt8)
    (v : List UInt8) : (Regex.lastOr prev (w₁ ++ g ++ w₂), v) ∈
      Regex.ends isWordByte (caselessPair s t) (prev, w₁ ++ g ++ w₂ ++ v) := by
  obtain ⟨c, g, rfl⟩ := exists_cons_of_ne_nil hne
  rw [all_cons, Bool.and_eq_true, all_eq_true] at hg
  rw [Regex.lastOr_append, Regex.lastOr_append, Regex.lastOr_cons]
  simp only [append_assoc]
  exact Regex.mem_ends_seq.mpr ⟨_, mem_ends_caselessLit.mpr ⟨w₁, rfl, h₁, rfl⟩,
    Regex.mem_ends_seq.mpr ⟨_, Regex.mem_ends_chr.mpr ⟨c, rfl, hg.1, rfl⟩,
      Regex.mem_ends_seq.mpr ⟨_, Regex.mem_ends_star.mpr ⟨g, rfl, hg.2, rfl⟩,
        mem_ends_caselessLit.mpr ⟨w₂, rfl, h₂, rfl⟩⟩⟩⟩

/-- So are two keywords in a row. -/
theorem isMatch_of_pair {pre gap post : List Lexeme} {x y : Lexeme}
    (h : Lexed (pre ++ x :: (gap ++ y :: post))) (hgap : ∀ z ∈ gap, z.isToken = false)
    (hx : x.isWord s = true) (hy : y.isWord t = true) (hs : wordLike s = true)
    (ht : wordLike t = true) (hrs : caselessPair s t ∈ rs) : Regex.isMatch isWordByte (bounded rs)
      (trimBy isBlank ((pre ++ x :: (gap ++ y :: post)).flatMap (surface mask))) = true := by
  obtain ⟨hhead, -, hstarts, hends⟩ := word_of_isWord mask hx hs
  obtain ⟨-, hlast, hstarts', hends'⟩ := word_of_isWord mask hy ht
  have hspells := (spells_of_isWord hx).2
  have hspells' := (spells_of_isWord hy).2
  -- two words do not touch, so there is something between them
  have hne : gap.flatMap (surface mask) ≠ [] := by
    cases gap with
    | nil => rw [(isChain_append_cons_cons.mp h.apart).2.1 hends] at hstarts'; cases hstarts'
    | cons z gap =>
      exact append_ne_nil_of_left_ne_nil (Postgres.surface_ne_nil (h.ok z (by simp))) _
  have hblank : (gap.flatMap (surface mask)).all isBlank = true := by
    rw [all_flatMap, all_eq_true]
    exact fun z hz => (h.ok z (by simp [hz])).surface_blank_of_not_isToken (hgap z hz)
  have hbehind : (post.flatMap (surface mask)).head?.any isWordByte = false := by
    have h' : Lexed ((pre ++ x :: gap) ++ y :: post) := by simpa using h
    exact h'.head_behind hends'
  have hsplit : (pre ++ x :: (gap ++ y :: post)).flatMap (surface mask) =
      pre.flatMap (surface mask) ++
        (x.surface mask ++ gap.flatMap (surface mask) ++ y.surface mask) ++
        post.flatMap (surface mask) := by
    simp
  rw [surface_of_isWord hx hs] at hhead hsplit
  rw [surface_of_isWord hy ht] at hlast hsplit
  rw [hsplit]
  refine isMatch_bounded_trimBy (h.getLast_before hstarts) hbehind ?_ ?_ ?_
  · rwa [append_assoc, head?_append_of_ne_nil _ (hspells.ne_nil hs)]
  · rwa [getLast?_append_of_ne_nil _ (hspells'.ne_nil ht)]
  · intro prev t
    rw [← lastOr_of_ne_nil (append_ne_nil_of_right_ne_nil _ (hspells'.ne_nil ht)) prev]
    exact Regex.mem_ends_alts.mpr ⟨_, hrs, mem_ends_caselessPair hspells hspells' hne hblank prev t⟩

/-! ### Keywords among the tokens -/

/-- One of the words is a token. -/
def hasWord (words : List String) (toks : List Lexeme) : Bool :=
  toks.any fun x => words.any fun s => x.isWord s

theorem hasWord_iff : hasWord words toks = true ↔ ∃ x ∈ toks, ∃ s ∈ words, x.isWord s = true := by
  simp only [hasWord, any_eq_true]

/-- The two words are tokens in a row. -/
def hasPair (s t : String) : List Lexeme → Bool
  | x :: y :: toks => (x.isWord s && y.isWord t) || hasPair s t (y :: toks)
  | _ => false

theorem exists_of_hasPair : ∀ {toks : List Lexeme}, hasPair s t toks = true →
    ∃ a x y b, toks = a ++ x :: y :: b ∧ x.isWord s = true ∧ y.isWord t = true
  | [], h => by cases h
  | [x], h => by cases h
  | x :: y :: toks, h => by
    rw [hasPair, Bool.or_eq_true, Bool.and_eq_true] at h
    rcases h with ⟨hx, hy⟩ | h
    · exact ⟨[], x, y, toks, rfl, hx, hy⟩
    · obtain ⟨a, x', y', b, hab, hx, hy⟩ := exists_of_hasPair h
      exact ⟨x :: a, x', y', b, by rw [hab]; rfl, hx, hy⟩

theorem isMatch_of_hasWord (h : Lexed xs) (hwords : ∀ s ∈ words, wordLike s = true ∧ caselessLit s ∈ rs)
    (hin : hasWord words (xs.filter isToken) = true) : Regex.isMatch isWordByte (bounded rs)
      (trimBy isBlank (xs.flatMap (surface mask))) = true := by
  obtain ⟨x, hx, s, hs, hword⟩ := hasWord_iff.mp hin
  exact isMatch_of_isWord h (mem_of_mem_filter hx) hword (hwords s hs).1 (hwords s hs).2

theorem isMatch_of_hasPair (h : Lexed xs) (hs : wordLike s = true)
    (ht : wordLike t = true) (hrs : caselessPair s t ∈ rs)
    (hin : hasPair s t (xs.filter isToken) = true) : Regex.isMatch isWordByte (bounded rs)
      (trimBy isBlank (xs.flatMap (surface mask))) = true := by
  obtain ⟨a, x, y, b, hab, hx, hy⟩ := exists_of_hasPair hin
  obtain ⟨l₁, l₂, rfl, -, h₂⟩ := filter_eq_append_iff.mp hab
  obtain ⟨pre, l₃, rfl, -, -, h₃⟩ := filter_eq_cons_iff.mp h₂
  obtain ⟨gap, post, rfl, hgap, -, -⟩ := filter_eq_cons_iff.mp h₃
  rw [← append_assoc] at h ⊢
  exact isMatch_of_pair h (fun z hz => Bool.eq_false_iff.mpr (hgap z hz)) hx hy hs ht hrs

/-! ### The promise -/

/-- A word of the forbidden keyword pattern is a token, or `SECURITY LABEL` are two in a row. -/
def hasForbiddenKeyword (toks : List Lexeme) : Bool :=
  hasWord (forbiddenKeywords ++ forbiddenKeywordsAfter) toks || hasPair "SECURITY" "LABEL" toks

/-- What acceptance is to guarantee about the tokens of the text. -/
structure Restricted (toks : List Lexeme) : Prop where
  single : (statements toks).length ≤ 1
  keywords : startsWithWord toks "EXPLAIN" = false → hasForbiddenKeyword toks = false

/-- The keywords that the pattern for `EXPLAIN` lets pass. -/
def hasKeywordOutsideExplain (toks : List Lexeme) : Bool :=
  hasWord ((forbiddenKeywords ++ forbiddenKeywordsAfter).filter fun s => !explainForbidden.contains s)
    toks || hasPair "SECURITY" "LABEL" toks

/-- With literals, comments and operators blanked, the text starts with the letters `EXPLAIN`. -/
def readsAsExplain (xs : List Lexeme) : Bool :=
  startsWith ((trimBy isBlank (xs.flatMap (surface true))).map toAsciiUppercase) "EXPLAIN"

/-- The blanked text shows what matters: every statement leaves a character, and a text that reads
as an `EXPLAIN` is one or has none of the keywords that an `EXPLAIN` may have. -/
structure Exposed (xs : List Lexeme) : Prop where
  statements : ∀ st ∈ statements (xs.filter isToken), hidden st = false
  explain : readsAsExplain xs = true →
    startsWithWord (xs.filter isToken) "EXPLAIN" = true ∨
      hasKeywordOutsideExplain (xs.filter isToken) = false

theorem one_le_statementCount {text : List UInt8}
    (h : allowedPrefixes.any (startsWith (text.map toAsciiUppercase)) = true) : 1 ≤ statementCount text := by
  have hlike' : ∀ s ∈ allowedPrefixes, (ascii s).head?.any isWordByte = true := by decide
  obtain ⟨s, hs, hstart⟩ := any_eq_true.mp h
  have hlike := hlike' s hs
  obtain ⟨b, text, rfl, hb⟩ : ∃ b t, text = b :: t ∧ isWordByte b = true := by
    cases text with
    | nil =>
      rw [prefix_nil.mp (List.isPrefixOf_iff_prefix.mp hstart)] at hlike
      cases hlike
    | cons b t =>
      obtain ⟨rest, hrest⟩ := List.isPrefixOf_iff_prefix.mp hstart
      cases hk : ascii s with
      | nil => rw [hk] at hlike; cases hlike
      | cons k ks =>
        rw [hk] at hlike hrest
        obtain ⟨rfl, -⟩ := List.cons.inj hrest
        exact ⟨b, t, rfl, (isWordByte_toAsciiUppercase b).symm.trans hlike⟩
  have hsemi : (b == semicolon) = false := by
    rw [beq_eq_false_iff_ne]
    rintro rfl
    cases hb
  obtain ⟨piece, pieces, hsplit⟩ := exists_cons_of_ne_nil
    (splitOnP_ne_nil (· == semicolon) text)
  rw [statementCount_eq, Text.splitOnP_cons_of_neg (p := (· == semicolon)) hsemi hsplit, map_cons, all_cons,
    isBlank_false_of_isWordByte b hb, countP_cons_of_pos rfl]
  omega

theorem forbiddenKeyword_mem (hs : s ∈ forbiddenKeywords ++ forbiddenKeywordsAfter) :
    wordLike s = true ∧ caselessLit s ∈ forbiddenKeywords.map caselessLit ++
      caselessPair "SECURITY" "LABEL" :: forbiddenKeywordsAfter.map caselessLit := by
  refine ⟨?_, ?_⟩
  · revert s
    decide
  · rcases mem_append.mp hs with hs | hs
    · exact mem_append_left _ (mem_map_of_mem hs)
    · exact mem_append_right _ (mem_cons_of_mem _ (mem_map_of_mem hs))

theorem explainForbidden_mem (hs : s ∈ explainForbidden) :
    wordLike s = true ∧ caselessLit s ∈ explainForbidden.map caselessLit ++ [caselessPair "FOR" "UPDATE"] := by
  refine ⟨?_, mem_append_left _ (mem_map_of_mem hs)⟩
  revert s
  decide

theorem hasWord_mono {words' : List String} (h : words ⊆ words')
    (hin : hasWord words toks = true) : hasWord words' toks = true := by
  obtain ⟨x, hx, s, hs, hword⟩ := hasWord_iff.mp hin
  exact hasWord_iff.mpr ⟨x, hx, s, h hs, hword⟩

theorem hasWord_explainForbidden (h : hasForbiddenKeyword toks = true)
    (hout : hasKeywordOutsideExplain toks = false) : hasWord explainForbidden toks = true := by
  rw [hasKeywordOutsideExplain, Bool.or_eq_false_iff] at hout
  rw [hasForbiddenKeyword, hout.2, Bool.or_false] at h
  obtain ⟨x, hx, s, hs, hword⟩ := hasWord_iff.mp h
  refine hasWord_iff.mpr ⟨x, hx, s, ?_, hword⟩
  by_contra hnot
  have hin : hasWord ((forbiddenKeywords ++ forbiddenKeywordsAfter).filter
      fun s => !explainForbidden.contains s) toks = true := by
    refine hasWord_iff.mpr ⟨x, hx, s, mem_filter.mpr ⟨hs, ?_⟩, hword⟩
    simpa using hnot
  rw [hin] at hout
  cases hout.1

theorem isMatch_of_hasForbiddenKeyword (h : Lexed xs) (hin : hasForbiddenKeyword (xs.filter isToken) = true) :
    Regex.isMatch isWordByte forbiddenKeywordRe (trimBy isBlank (xs.flatMap (surface mask))) = true := by
  rw [hasForbiddenKeyword, Bool.or_eq_true] at hin
  rcases hin with hin | hin
  · exact isMatch_of_hasWord h (fun s hs => forbiddenKeyword_mem hs) hin
  · exact isMatch_of_hasPair h (by decide) (by decide)
      (mem_append_right _ mem_cons_self) hin

/-- **An accepted text that both lexers read alike is one statement without a forbidden keyword if
and only if its blanked form shows every statement and does not feign an `EXPLAIN`.** -/
theorem accepted_restricted_iff {sql : List UInt8} {xs : List Lexeme} (hacc : accepted sql = true)
    (hlex : Postgres.lex sql = some xs) (hstep : inStep sql = true) :
    Restricted (xs.filter isToken) ↔ Exposed xs := by
  have hlexed := Postgres.lexed_of_lex hlex
  obtain ⟨lex, fns, ha⟩ := accepted_iff.mp hacc
  obtain rfl := Except.ok.inj ((lexicalSurface_of_inStep hlex hstep).symm.trans ha.lexical)
  have hone : statementCount (xs.flatMap (surface true)) = 1 := by
    rw [← statementCount_trimBy]
    exact le_antisymm ha.single (one_le_statementCount ha.start)
  constructor
  · refine fun h => ⟨(length_statements_le_one hlexed hone).mp h.single, fun _ => ?_⟩
    cases hexp : startsWithWord (xs.filter isToken) "EXPLAIN" with
    | true => exact .inl rfl
    | false =>
      have hnone := h.keywords hexp
      rw [hasForbiddenKeyword, Bool.or_eq_false_iff] at hnone
      refine .inr (Bool.or_eq_false_iff.mpr ⟨?_, hnone.2⟩)
      rw [Bool.eq_false_iff]
      intro hin
      rw [hasWord_mono (filter_subset_self _) hin] at hnone
      cases hnone.1
  · refine fun h => ⟨(length_statements_le_one hlexed hone).mpr h.statements, fun hexp => ?_⟩
    rw [Bool.eq_false_iff]
    intro hin
    cases hreads : readsAsExplain xs with
    | false =>
      have hno := ha.keyword hreads
      rw [isMatch_of_hasForbiddenKeyword hlexed hin] at hno
      cases hno
    | true =>
      have hno := ha.explain hreads
      rcases h.explain hreads with hstart | hout
      · rw [hstart] at hexp
        cases hexp
      · rw [explainForbiddenRe, isMatch_of_hasWord hlexed (fun s hs => explainForbidden_mem hs)
          (hasWord_explainForbidden hin hout)] at hno
        cases hno

theorem accepted_restricted_iff_of_select :
    ∃ xs, Postgres.lex (ascii "SELECT 'a;b' -- SET") = some xs ∧
      Restricted (xs.filter isToken) := by
  have hlex : Postgres.lex (ascii "SELECT 'a;b' -- SET") =
      some ((Postgres.lex (ascii "SELECT 'a;b' -- SET")).getD []) := by decide
  refine ⟨_, hlex, (accepted_restricted_iff (by decide) hlex (by decide)).mpr ⟨?_, ?_⟩⟩
  · decide
  · intro hreads
    exact absurd hreads (by decide)

/-- The text behind an escaped quote is a literal for the policy and code for the database. -/
theorem accepted_two_statements : ∃ toks,
    accepted (ascii "SELECT E'\\''; DROP TABLE t; --'") = true ∧
      Postgres.tokens (ascii "SELECT E'\\''; DROP TABLE t; --'") = some toks ∧
      ¬ Restricted toks := by
  refine ⟨(Postgres.tokens (ascii "SELECT E'\\''; DROP TABLE t; --'")).getD [], by decide,
    by decide, fun h => ?_⟩
  exact absurd h.single (by decide)

end McpToolkit.Sql
