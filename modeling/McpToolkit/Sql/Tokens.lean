import Mathlib.Data.List.Chain
import McpToolkit.Sql.Surface

/-!
# McpToolkit.Sql.Tokens — what the tokens leave on the surface

The tokens of a text are cut maximally: behind a word, a number or a parameter no token starts with
a letter, a digit or an underscore (`Apart`).  So the word characters of two tokens never meet on
the surface, and a semicolon is on the surface only where it is a token.
-/

namespace McpToolkit.Sql

open List
open Postgres (Lexeme)

/-! ### The bytes of a token -/

namespace Postgres

def Lexeme.Ok (x : Lexeme) : Prop :=
  match x.kind with
  | .space => ∃ b, x.bytes = [b] ∧ isSpace b = true
  | .symbol => ∃ b, x.bytes = [b] ∧ isTagByte b = false
  | .word | .number | .parameter => x.bytes ≠ [] ∧ x.bytes.all isIdentByte = true
  | .quotedIdentifier => ∃ inner, x.bytes = doubleQuote :: inner ++ [doubleQuote]
  | .escapeString => ∃ b body, x.bytes = b :: body ∧ body ≠ [] ∧ isIdentStart b = true
  | .lineComment | .blockComment | .string | .escapeContinuation | .dollarString => x.bytes ≠ []

/-- The token ends with a character of a word. -/
def Lexeme.endsWord (x : Lexeme) : Bool :=
  x.kind == .word || x.kind == .number || x.kind == .parameter

/-- The token starts with a character of a word. -/
def Lexeme.startsWord (x : Lexeme) : Bool := x.bytes.head?.any isTagByte

def Apart (x y : Lexeme) : Prop := x.endsWord = true → y.startsWord = false

theorem readQuoted_concat {q : UInt8} {l body rest : List UInt8} (hl : readQuoted q l = some (body, rest)) :
    ∃ inner, body = inner ++ [q] := by
  fun_induction readQuoted q l generalizing body with
  | case1 | case3 => cases hl
  | case2 | case5 => cases hl; exact ⟨[], rfl⟩
  | case4 l ih =>
    obtain ⟨body, rfl, hl'⟩ := of_cons_eq_some hl
    obtain ⟨body, rfl, hbody⟩ := of_cons_eq_some hl'
    obtain ⟨inner, rfl⟩ := ih hbody
    exact ⟨q :: q :: inner, rfl⟩
  | case6 b c l hb ih =>
    obtain ⟨body, rfl, hbody⟩ := of_cons_eq_some hl
    obtain ⟨inner, rfl⟩ := ih hbody
    exact ⟨b :: inner, rfl⟩

theorem isTagByte_false_of_isIdentByte {b : UInt8} (h : isIdentByte b = false) : isTagByte b = false :=
  (Bool.or_eq_false_iff.mp h).1

section Next

variable {b : UInt8} {l rest : List UInt8} {x : Lexeme}

theorem Next.ok (h : Next b l x rest) : x.Ok := by
  cases h with
  | space hb => exact ⟨b, rfl, hb⟩
  | lineComment | blockComment hbody | string hbody | escapeContinuation hbody | dollarString htag hbody => exact cons_ne_nil _ _
  | quotedIdentifier hbody =>
    obtain ⟨inner, rfl⟩ := readQuoted_concat hbody
    exact ⟨inner, rfl⟩
  | escapeString hb hbody => exact ⟨_, _, rfl, cons_ne_nil _ _, hb⟩
  | word hb =>
    refine ⟨cons_ne_nil _ _, ?_⟩
    rw [all_cons, all_takeWhile, isIdentByte_of_isIdentStart hb]
    rfl
  | number hb =>
    refine ⟨cons_ne_nil _ _, all_eq_true.mpr fun c hc => isIdentByte_of_isTagByte ?_⟩
    rcases mem_cons.mp hc with rfl | hc
    · rw [isTagByte, hb, Bool.or_true]
    · exact mem_takeWhile_imp hc
  | parameter htag hdigit =>
    refine ⟨cons_ne_nil _ _, all_eq_true.mpr fun c hc => ?_⟩
    rcases mem_cons.mp hc with rfl | hc
    · rfl
    · exact isIdentByte_of_isTagByte (mem_takeWhile_imp hc)
  | dollar htag hdigit => exact ⟨_, rfl, rfl⟩
  | symbol hident => exact ⟨b, rfl, isTagByte_false_of_isIdentByte hident⟩

theorem Next.head (h : Next b l x rest) : x.bytes.head? = some b := by
  cases h <;> rfl

theorem head?_dropWhile_any {p : UInt8 → Bool} (l : List UInt8) : (l.dropWhile p).head?.any p = false := by
  induction l with
  | nil => rfl
  | cons c l ih =>
    by_cases hc : p c = true
    · rwa [dropWhile_cons_of_pos hc]
    · rw [dropWhile_cons_of_neg hc]
      exact Bool.eq_false_iff.mpr hc

theorem Next.rest_apart (h : Next b l x rest) (hx : x.endsWord = true) : rest.head?.any isTagByte = false := by
  cases h with
  | word hb =>
    have hrest := head?_dropWhile_any (p := isIdentByte) l
    cases hhead : (l.dropWhile isIdentByte).head? with
    | none => rfl
    | some c => rw [hhead] at hrest; exact isTagByte_false_of_isIdentByte hrest
  | number hb | parameter htag hdigit => exact head?_dropWhile_any l
  | _ => cases hx

end Next

theorem of_lexLoop : ∀ {fuel : ℕ} {c : Continuation} {l : List UInt8} {xs : List Lexeme},
    lexLoop fuel c l = some xs →
    (∀ x ∈ xs, x.Ok) ∧ xs.IsChain Apart ∧ ∀ x ∈ xs.head?, x.bytes.head? = l.head?
  | fuel, c, [], xs, h => by
    cases fuel <;> cases h <;> exact ⟨by simp, .nil, by simp⟩
  | 0, c, b :: l, xs, h => by cases h
  | fuel + 1, c, b :: l, xs, h => by
    obtain ⟨x, rest, xs, rfl, hnext, hxs⟩ := of_lexLoop_cons h
    obtain ⟨hok, hchain, hhead⟩ := of_lexLoop hxs
    have hspec := next_cases hnext
    refine ⟨forall_mem_cons.mpr ⟨hspec.ok, hok⟩, isChain_cons.mpr ⟨?_, hchain⟩, ?_⟩
    · intro y hy hx
      rw [Lexeme.startsWord, hhead y hy]
      exact hspec.rest_apart hx
    · rintro y hy
      cases hy
      exact hspec.head

/-- What holds of the tokens of any text. -/
structure Lexed (xs : List Lexeme) : Prop where
  ok : ∀ x ∈ xs, x.Ok
  apart : xs.IsChain Apart

theorem lexed_of_lex {sql : List UInt8} {xs : List Lexeme} (h : lex sql = some xs) : Lexed xs :=
  ⟨(of_lexLoop h).1, (of_lexLoop h).2.1⟩

end Postgres

/-! ### Their surface -/

section Bytes

theorem isBlank_maskIdentifierByte (b : UInt8) : isBlank ((surfaceRules true).write .identifier b) = true := by
  dsimp only [LexRules.write]
  split_ifs
  · rfl
  · exact isBlank_maskHiddenByte b

theorem all_isBlank_map {f : UInt8 → UInt8} (hf : ∀ b, isBlank (f b) = true) (l : List UInt8) :
    (l.map f).all isBlank = true := by
  rw [all_map, all_eq_true]
  exact fun b _ => hf b

end Bytes

namespace Postgres

variable {x : Lexeme} {mask : Bool}

theorem Lexeme.Ok.bytes_ne_nil (h : x.Ok) : x.bytes ≠ [] := by
  obtain ⟨kind, bytes⟩ := x
  cases kind with
  | space | symbol => obtain ⟨b, rfl, -⟩ := h; exact cons_ne_nil _ _
  | word | number | parameter => exact h.1
  | quotedIdentifier => obtain ⟨inner, rfl⟩ := h; exact cons_ne_nil _ _
  | escapeString => obtain ⟨b, body, rfl, -⟩ := h; exact cons_ne_nil _ _
  | lineComment | blockComment | string | escapeContinuation | dollarString => exact h

theorem Lexeme.length_surface : (x.surface mask).length = x.bytes.length := by
  obtain ⟨kind, bytes⟩ := x
  cases kind with
  | escapeString =>
    simp only [Lexeme.surface, length_append, length_map, length_take, length_drop]
    omega
  | _ => exact length_map _

/-- Tokens that leave blanks only, whether or not quoted identifiers are masked. -/
def Lexeme.isBlanked (x : Lexeme) : Bool :=
  match x.kind with
  | .space | .lineComment | .blockComment | .string | .escapeContinuation | .dollarString => true
  | _ => false

theorem Lexeme.Ok.surface_blank (h : x.Ok) (hx : x.isBlanked = true) : (x.surface mask).all isBlank = true := by
  obtain ⟨kind, bytes⟩ := x
  cases kind with
  | space =>
    obtain ⟨b, rfl, hb⟩ := h
    exact all_eq_true.mpr (forall_mem_singleton.mpr (isBlank_maskByte b hb))
  | lineComment => exact all_isBlank_map (fun _ => rfl) bytes
  | blockComment | string | escapeContinuation | dollarString => exact all_isBlank_map isBlank_maskHiddenByte bytes
  | _ => cases hx

theorem Lexeme.Ok.surface_blank_of_not_isToken (h : x.Ok) (hx : x.isToken = false) :
    (x.surface mask).all isBlank = true := by
  refine h.surface_blank ?_
  obtain ⟨kind, bytes⟩ := x
  cases kind <;> first | rfl | cases hx

theorem not_word_of_blank {l : List UInt8} (h : l.all isBlank = true) :
    l.head?.any isWordByte = false ∧ l.getLast?.any isWordByte = false := by
  have hmem : ∀ b ∈ l, isWordByte b = false := fun b hb =>
    isWordByte_false_of_isBlank b (all_eq_true.mp h b hb)
  constructor
  · cases hl : l.head? with
    | none => rfl
    | some b => exact hmem b (mem_of_head? hl)
  · cases hl : l.getLast? with
    | none => rfl
    | some b => exact hmem b (mem_of_getLast? hl)

theorem isWordByte_false_of_isTagByte {b : UInt8} (h : isTagByte b = false) : isWordByte b = false := by
  rw [Bool.eq_false_iff] at h ⊢
  exact fun hb => h (isTagByte_of_isWordByte hb)

theorem Lexeme.Ok.surface_getLast (h : x.Ok) (hx : x.endsWord = false) :
    (x.surface mask).getLast?.any isWordByte = false := by
  cases hb : x.isBlanked with
  | true => exact (not_word_of_blank (h.surface_blank hb)).2
  | false =>
    obtain ⟨kind, bytes⟩ := x
    cases kind with
    | symbol =>
      obtain ⟨b, rfl, htag⟩ := h
      exact (isWordByte_maskByte b).trans (isWordByte_false_of_isTagByte htag)
    | quotedIdentifier =>
      obtain ⟨inner, rfl⟩ := h
      have hlast : (Lexeme.surface mask ⟨.quotedIdentifier, doubleQuote :: inner ++ [doubleQuote]⟩)
          = (doubleQuote :: inner).map ((surfaceRules mask).write .identifier) ++ [quoteMark mask] :=
        map_append
      rw [hlast, getLast?_concat]
      cases mask <;> rfl
    | escapeString =>
      obtain ⟨b, body, rfl, hne, -⟩ := h
      have hlast : (Lexeme.surface mask ⟨.escapeString, b :: body⟩) =
          [maskByte b] ++ body.map maskHiddenByte := rfl
      rw [hlast, getLast?_append_of_ne_nil _ (by simpa using hne)]
      exact (not_word_of_blank (all_isBlank_map isBlank_maskHiddenByte body)).2
    | word | number | parameter => cases hx
    | _ => cases hb

theorem Lexeme.Ok.surface_head (h : x.Ok) (hx : x.startsWord = false) :
    (x.surface mask).head?.any isWordByte = false := by
  cases hb : x.isBlanked with
  | true => exact (not_word_of_blank (h.surface_blank hb)).1
  | false =>
    obtain ⟨b, bytes, hbytes⟩ := exists_cons_of_ne_nil h.bytes_ne_nil
    have hword : isWordByte (maskByte b) = false := by
      rw [Lexeme.startsWord, hbytes] at hx
      exact (isWordByte_maskByte b).trans (isWordByte_false_of_isTagByte hx)
    obtain ⟨kind, bytes'⟩ := x
    obtain rfl : bytes' = b :: bytes := hbytes
    cases kind with
    | symbol | escapeString | word | number | parameter => exact hword
    | quotedIdentifier =>
      obtain ⟨inner, hinner⟩ := h
      obtain ⟨rfl, -⟩ := List.cons.inj hinner
      cases mask <;> rfl
    | _ => cases hb

theorem Lexeme.surface_of_isSymbol {b : UInt8} (hx : x.isSymbol b = true) : x.surface mask = [maskByte b] := by
  obtain ⟨kind, bytes⟩ := x
  simp only [Lexeme.isSymbol, Bool.and_eq_true, beq_iff_eq] at hx
  obtain ⟨rfl, rfl⟩ := hx
  rfl

section Context

variable {pre post : List Lexeme}

theorem surface_ne_nil (h : x.Ok) : x.surface mask ≠ [] := by
  rw [← length_pos_iff, Lexeme.length_surface, length_pos_iff]
  exact h.bytes_ne_nil

theorem Lexed.getLast_before (h : Lexed (pre ++ x :: post)) (hx : x.startsWord = true) :
    (pre.flatMap (Lexeme.surface mask)).getLast?.any isWordByte = false := by
  rcases eq_nil_or_concat' pre with rfl | ⟨pre, y, rfl⟩
  · rfl
  · have hy : y.Ok := h.ok y (by simp)
    have hapart : Apart y x := by
      have hchain := h.apart
      rw [append_assoc, singleton_append, isChain_append_cons_cons] at hchain
      exact hchain.2.1
    rw [flatMap_append, flatMap_singleton, getLast?_append_of_ne_nil _ (surface_ne_nil hy)]
    refine hy.surface_getLast ?_
    cases hends : y.endsWord with
    | true => rw [hapart hends] at hx; cases hx
    | false => rfl

theorem Lexed.head_behind (h : Lexed (pre ++ x :: post)) (hx : x.endsWord = true) :
    (post.flatMap (Lexeme.surface mask)).head?.any isWordByte = false := by
  cases post with
  | nil => rfl
  | cons y post =>
    have hy : y.Ok := h.ok y (by simp)
    rw [flatMap_cons, head?_append_of_ne_nil _ (surface_ne_nil hy)]
    exact hy.surface_head ((isChain_append_cons_cons.mp h.apart).2.1 hx)

end Context

/-- Semicolons are on the surface only where they are tokens. -/
theorem Lexeme.Ok.surface_semicolon (h : x.Ok) (hx : x.isSymbol semicolon = false) :
    ∀ c ∈ x.surface true, (c == semicolon) = false := by
  have hblank : ∀ l : List UInt8, l.all isBlank = true → ∀ c ∈ l, (c == semicolon) = false := by
    intro l hl c hc
    rw [beq_eq_false_iff_ne]
    rintro rfl
    exact absurd (all_eq_true.mp hl _ hc) (by decide)
  have hmask : ∀ b, isIdentByte b = true → (maskByte b == semicolon) = false := by
    intro b hb
    rw [beq_eq_false_iff_ne]
    intro hc
    rw [maskByte_eq_semicolon b hc] at hb
    exact absurd hb (by decide)
  cases hb : x.isBlanked with
  | true => exact hblank _ (h.surface_blank hb)
  | false =>
    obtain ⟨kind, bytes⟩ := x
    cases kind with
    | symbol =>
      obtain ⟨b, rfl, -⟩ := h
      rintro c hc
      obtain rfl := mem_singleton.mp hc
      rw [beq_eq_false_iff_ne]
      intro hb
      rw [maskByte_eq_semicolon b hb] at hx
      cases hx
    | word | number | parameter =>
      intro c hc
      obtain ⟨b, hb, rfl⟩ := mem_map.mp hc
      exact hmask b (all_eq_true.mp h.2 b hb)
    | quotedIdentifier => exact hblank _ (all_isBlank_map isBlank_maskIdentifierByte bytes)
    | escapeString =>
      obtain ⟨b, body, rfl, -, hb⟩ := h
      intro c hc
      rcases mem_append.mp hc with hc | hc
      · obtain rfl := mem_singleton.mp hc
        exact hmask b (isIdentByte_of_isIdentStart hb)
      · exact hblank _ (all_isBlank_map isBlank_maskHiddenByte body) c hc
    | _ => cases hb

end Postgres

end McpToolkit.Sql
