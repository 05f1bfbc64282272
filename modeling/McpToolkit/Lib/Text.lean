import Mathlib.Algebra.GroupWithZero.Nat
import Mathlib.Data.List.Basic
import Mathlib.Data.List.Forall2
import Mathlib.Data.List.Infix
import Mathlib.Data.List.TakeWhile

/-!
# McpToolkit.Lib.Text — trimming and splitting

Texts are lists: of characters, or of the bytes of a text that is known to be ASCII.
`isWhitespace` is the Unicode `White_Space` property and `trim` removes it on both ends;
`trimBy` takes the class of symbols as a parameter; the facts about `List.splitOnP` add to those of the
standard library.  `utf8` is the encoding of a text.
-/

namespace McpToolkit.Lib.Text

open List

theorem bind_ok {ε α β : Type} {x : Except ε α} {f : α → Except ε β} {b : β} (h : x.bind f = .ok b) :
    ∃ a, x = .ok a ∧ f a = .ok b := by
  cases x with
  | error e => cases h
  | ok a => exact ⟨a, rfl, h⟩

/-- The bytes of an ASCII text. -/
def ascii (s : String) : List UInt8 := s.toList.map fun c => c.toNat.toUInt8

theorem forall_byte {P : UInt8 → Prop} (h : ∀ n : Fin 256, P (UInt8.ofFin n)) (b : UInt8) : P b := by
  have hb := h b.toFin
  rwa [UInt8.ofFin_toFin] at hb

theorem forall_ascii {P : Char → Prop} (h : ∀ n : Fin 128, P (Char.ofNat n)) {c : Char} (hc : c.toNat < 128) : P c := by
  have hp := h ⟨c.toNat, hc⟩
  rwa [Char.ofNat_toNat] at hp

def isWhitespace (c : Char) : Bool :=
  let n := c.toNat
  (9 ≤ n && n ≤ 13) || n == 0x20 || n == 0x85 || n == 0xA0 || n == 0x1680 ||
    (0x2000 ≤ n && n ≤ 0x200A) || n == 0x2028 || n == 0x2029 || n == 0x202F || n == 0x205F ||
    n == 0x3000

/-- `char::is_control`. -/
def isControl (c : Char) : Bool := c.toNat < 0x20 || (0x7F ≤ c.toNat && c.toNat < 0xA0)

/-- `u8::to_ascii_lowercase`. -/
def toAsciiLowercase (b : UInt8) : UInt8 := if 65 ≤ b && b ≤ 90 then b + 32 else b

/-- `str::replace` of one character. -/
def replaceChar (c : Char) (new : List Char) (text : List Char) : List Char :=
  text.flatMap fun d => if d = c then new else [d]

/-- The length in UTF-8. -/
def utf8Length (l : List Char) : ℕ := (l.map Char.utf8Size).sum

theorem utf8Length_append (l l' : List Char) : utf8Length (l ++ l') = utf8Length l + utf8Length l' := by
  rw [utf8Length, map_append, sum_append]
  rfl

theorem utf8Length_pos {l : List Char} (h : l ≠ []) : 0 < utf8Length l := by
  obtain ⟨c, l, rfl⟩ := exists_cons_of_ne_nil h
  exact Nat.add_pos_left c.utf8Size_pos _

/-- The bytes of a text. -/
def utf8 (l : List Char) : List UInt8 := l.flatMap String.utf8EncodeChar

/-- The text with these bytes, if there is one. -/
def utf8Decode (bytes : List UInt8) : Option (List Char) := bytes.toByteArray.utf8Decode?.map Array.toList

theorem utf8Decode_utf8 (l : List Char) : utf8Decode (utf8 l) = some l := by
  have h : (utf8 l).toByteArray = l.utf8Encode := rfl
  rw [utf8Decode, h, utf8Decode?_utf8Encode, Option.map_some]

theorem utf8_injective {l l' : List Char} (h : utf8 l = utf8 l') : l = l' := by
  have hdecode := congrArg utf8Decode h
  rwa [utf8Decode_utf8, utf8Decode_utf8, Option.some.injEq] at hdecode

theorem utf8_cons (c : Char) (l : List Char) : utf8 (c :: l) = String.utf8EncodeChar c ++ utf8 l :=
  flatMap_cons

theorem utf8_append (l l' : List Char) : utf8 (l ++ l') = utf8 l ++ utf8 l' := flatMap_append

theorem utf8EncodeChar_of_lt {c : Char} (h : c.toNat < 128) : String.utf8EncodeChar c = [c.toNat.toUInt8] := by
  have hle : c.val.toNat ≤ 0x7F := Nat.le_of_lt_succ h
  unfold String.utf8EncodeChar
  rw [if_pos hle]
  rfl

theorem le_of_mem_utf8EncodeChar {c : Char} (h : ¬c.toNat < 128) {b : UInt8} (hb : b ∈ String.utf8EncodeChar c) :
    128 ≤ b := by
  have hgt : ¬c.val.toNat ≤ 0x7F := fun hle => h (Nat.lt_succ_of_le hle)
  unfold String.utf8EncodeChar at hb
  rw [if_neg hgt] at hb
  have hbyte : ∀ n, 128 ≤ n → n < 256 → (128 : UInt8) ≤ UInt8.ofNat n := by
    intro n hlow hhigh
    rw [UInt8.le_iff_toNat_le, UInt8.toNat_ofNat', Nat.mod_eq_of_lt hhigh]
    exact hlow
  split_ifs at hb <;> simp only [mem_cons, not_mem_nil, or_false] at hb
  · rcases hb with rfl | rfl <;> exact hbyte _ (by omega) (by omega)
  · rcases hb with rfl | rfl | rfl <;> exact hbyte _ (by omega) (by omega)
  · rcases hb with rfl | rfl | rfl | rfl <;> exact hbyte _ (by omega) (by omega)

variable {α β : Type}

def trimBy (p : α → Bool) (l : List α) : List α :=
  ((l.dropWhile p).reverse.dropWhile p).reverse

def trim (l : List Char) : List Char := trimBy isWhitespace l

/-- `needle` stands somewhere in the text. -/
def contains [BEq α] (needle l : List α) : Bool := l.tails.any needle.isPrefixOf

variable {p : α → Bool} {l : List α} {c : α} {piece : List α} {q : α → Bool} {u v : List α}

theorem contains_of_infix [BEq α] [LawfulBEq α] {needle : List α} (h : needle <:+: l) : contains needle l = true := by
  obtain ⟨u, w, rfl⟩ := h
  refine any_eq_true.mpr ⟨needle ++ w, (mem_tails _ _).mpr ⟨u, ?_⟩, ?_⟩
  · exact (append_assoc _ _ _).symm
  · exact List.isPrefixOf_iff_prefix.mpr (prefix_append _ _)

theorem trimBy_eq (p : α → Bool) (l : List α) :
    ∃ u v, l = u ++ trimBy p l ++ v ∧ (∀ c ∈ u, p c = true) ∧ ∀ c ∈ v, p c = true := by
  refine ⟨l.takeWhile p, ((l.dropWhile p).reverse.takeWhile p).reverse, ?_, ?_, ?_⟩
  · rw [trimBy, append_assoc, ← reverse_append, takeWhile_append_dropWhile,
      reverse_reverse, takeWhile_append_dropWhile]
  · exact fun c hc => mem_takeWhile_imp hc
  · exact fun c hc => mem_takeWhile_imp (mem_reverse.mp hc)

theorem mem_of_mem_trimBy (h : c ∈ trimBy p l) : c ∈ l := by
  obtain ⟨u, v, hl, -, -⟩ := trimBy_eq p l
  rw [hl]
  exact mem_append_left _ (mem_append_right _ h)

theorem dropWhile_append_cons (h : p c = false) (v : List α) :
    ∀ u : List α, (u ++ c :: v).dropWhile p = u.dropWhile p ++ c :: v
  | [] => dropWhile_cons_of_neg (by simp [h])
  | d :: u => by
    by_cases hd : p d = true
    · rw [cons_append, dropWhile_cons_of_pos hd, dropWhile_cons_of_pos hd, dropWhile_append_cons h v u]
    · rw [cons_append, dropWhile_cons_of_neg hd, dropWhile_cons_of_neg hd]
      rfl

theorem trimBy_append {w : List α} (hne : w ≠ []) (hhead : w.head?.any p = false)
    (hlast : w.getLast?.any p = false) (u v : List α) :
    trimBy p (u ++ w ++ v) = u.dropWhile p ++ w ++ (v.reverse.dropWhile p).reverse := by
  have hfront : (u ++ w ++ v).dropWhile p = u.dropWhile p ++ w ++ v := by
    obtain ⟨c, w', rfl⟩ := exists_cons_of_ne_nil hne
    simp only [append_assoc]
    exact dropWhile_append_cons (c := c) hhead _ u
  have hback : ((u.dropWhile p ++ w ++ v).reverse).dropWhile p =
      v.reverse.dropWhile p ++ (w.reverse ++ (u.dropWhile p).reverse) := by
    rw [← head?_reverse] at hlast
    obtain ⟨c, w', hc⟩ := exists_cons_of_ne_nil (reverse_ne_nil_iff.mpr hne)
    rw [hc] at hlast
    rw [reverse_append, reverse_append, hc, cons_append, dropWhile_append_cons (c := c) hlast]
  rw [trimBy, hfront, hback]
  simp

theorem getLast?_dropWhile_any (h : l.getLast?.any q = false) : (l.dropWhile p).getLast?.any q = false := by
  cases hl : l.dropWhile p with
  | nil => rfl
  | cons c l' =>
    rw [← takeWhile_append_dropWhile (l := l), hl, getLast?_append_of_ne_nil _ (cons_ne_nil _ _)] at h
    exact h

theorem head?_dropWhile_any (p : α → Bool) (l : List α) : (l.dropWhile p).head?.any p = false := by
  induction l with
  | nil => rfl
  | cons c l ih =>
    cases hc : p c with
    | true => rwa [dropWhile_cons_of_pos hc]
    | false => rw [dropWhile_cons_of_neg (by simp [hc]), head?_cons, Option.any_some, hc]

theorem head?_trimBy_any (p : α → Bool) (l : List α) : (trimBy p l).head?.any p = false := by
  rw [trimBy, head?_reverse]
  refine getLast?_dropWhile_any ?_
  rw [getLast?_reverse]
  exact head?_dropWhile_any p l

theorem getLast?_trimBy_any (p : α → Bool) (l : List α) : (trimBy p l).getLast?.any p = false := by
  rw [trimBy, getLast?_reverse]
  exact head?_dropWhile_any p _

theorem trimBy_eq_self (hhead : l.head?.any p = false) (hlast : l.getLast?.any p = false) : trimBy p l = l := by
  by_cases hl : l = []
  · rw [hl]; rfl
  · have h := trimBy_append hl hhead hlast [] []
    simpa using h

theorem trimBy_of_forall (h : ∀ c ∈ l, p c = false) : trimBy p l = l := by
  refine trimBy_eq_self ?_ ?_
  · cases hhead : l.head? with
    | none => rfl
    | some c => exact h c (mem_of_head? hhead)
  · cases hlast : l.getLast? with
    | none => rfl
    | some c => exact h c (mem_of_getLast? hlast)

theorem isEmpty_trimBy (p : α → Bool) (l : List α) : (trimBy p l).isEmpty = l.all p := by
  rw [Bool.eq_iff_iff, List.isEmpty_iff, all_eq_true, trimBy, reverse_eq_nil_iff, dropWhile_eq_nil_iff]
  simp only [mem_reverse]
  constructor
  · intro h c hc
    rw [← takeWhile_append_dropWhile (l := l), mem_append] at hc
    exact hc.elim mem_takeWhile_imp (h c)
  · exact fun h c hc => h c ((dropWhile_sublist p).mem hc)

theorem strip_starts_iff [DecidableEq α] {a : List α} :
    (a.isPrefixOf l && (l.drop a.length).head? == some c) = true ↔ ∃ tail, l = a ++ c :: tail := by
  rw [Bool.and_eq_true, List.isPrefixOf_iff_prefix, beq_iff_eq]
  constructor
  · rintro ⟨⟨t, rfl⟩, hhead⟩
    rw [drop_left] at hhead
    obtain ⟨tail, rfl⟩ := head?_eq_some_iff.mp hhead
    exact ⟨tail, rfl⟩
  · rintro ⟨tail, rfl⟩
    exact ⟨prefix_append _ _, by rw [drop_left, head?_cons]⟩

theorem append_cons_inj_of_last {u' v' : List α} (hv : c ∉ v) (hv' : c ∉ v')
    (h : u ++ c :: v = u' ++ c :: v') : u = u' ∧ v = v' := by
  rcases append_eq_append_iff.mp h with ⟨a, rfl, ha⟩ | ⟨a, rfl, ha⟩
  · cases a with
    | nil => exact ⟨(append_nil u).symm, (List.cons.inj ha).2⟩
    | cons d a =>
      rw [cons_append, List.cons.injEq] at ha
      exact absurd (ha.2 ▸ mem_append_right a mem_cons_self) hv
  · cases a with
    | nil => exact ⟨append_nil u', (List.cons.inj ha).2.symm⟩
    | cons d a =>
      rw [cons_append, List.cons.injEq] at ha
      exact absurd (ha.2 ▸ mem_append_right a mem_cons_self) hv'

/-! ### Splitting -/

theorem intercalate_cons (sep x : List α) (xs : List (List α)) :
    List.intercalate sep (x :: xs) = x ++ xs.flatMap (sep ++ ·) := by
  induction xs generalizing x with
  | nil => simp [List.intercalate]
  | cons y xs ih =>
    have hstep : List.intercalate sep (x :: y :: xs) = x ++ (sep ++ List.intercalate sep (y :: xs)) := by
      simp [List.intercalate]
    rw [hstep, ih, flatMap_cons, append_assoc]

theorem append_cons_eq_append_cons {u' v' : List α} (h : u ++ c :: v = u' ++ c :: v') :
    u = u' ∧ v = v' ∨ (∃ w, u = u' ++ c :: w ∧ v' = w ++ c :: v) ∨ ∃ w, u' = u ++ c :: w ∧ v = w ++ c :: v' := by
  rcases append_eq_append_iff.mp h with ⟨w, hu, hv⟩ | ⟨w, hu, hv⟩
  · cases w with
    | nil => exact .inl ⟨by simpa using hu.symm, (List.cons.inj hv).2⟩
    | cons d w =>
      obtain ⟨rfl, hrest⟩ := List.cons.inj hv
      exact .inr (.inr ⟨w, hu, hrest⟩)
  · cases w with
    | nil => exact .inl ⟨by simpa using hu, (List.cons.inj hv).2.symm⟩
    | cons d w =>
      obtain ⟨rfl, hrest⟩ := List.cons.inj hv
      exact .inr (.inl ⟨w, hu, hrest⟩)

theorem append_cons_inj_of_first {u' v' : List α} (hu : c ∉ u) (hu' : c ∉ u')
    (h : u ++ c :: v = u' ++ c :: v') : u = u' ∧ v = v' := by
  rcases append_cons_eq_append_cons h with h | ⟨w, rfl, -⟩ | ⟨w, rfl, -⟩
  · exact h
  · exact absurd (mem_append_right _ mem_cons_self) hu
  · exact absurd (mem_append_right _ mem_cons_self) hu'

theorem splitOnP_cons_of_neg {pieces : List (List α)} (h : p c = false) (hl : splitOnP p l = piece :: pieces) :
    splitOnP p (c :: l) = (c :: piece) :: pieces := by
  rw [splitOnP_cons_eq_if_modifyHead, if_neg (by simp [h]), hl, modifyHead_cons]

/-- The induction for splitting: a symbol in front opens a new piece or goes into the first one. -/
theorem splitOnP_rec {motive : List α → List (List α) → Prop} (nil : motive [] [[]])
    (sep : ∀ c l pieces, p c = true → motive l pieces → motive (c :: l) ([] :: pieces))
    (keep : ∀ c l piece pieces, p c = false → motive l (piece :: pieces) → motive (c :: l) ((c :: piece) :: pieces))
    (l : List α) : motive l (splitOnP p l) := by
  induction l with
  | nil => exact nil
  | cons c l ih =>
    cases hc : p c with
    | true =>
      rw [splitOnP_cons_eq_if_modifyHead, if_pos hc]
      exact sep c l _ hc ih
    | false =>
      obtain ⟨piece, pieces, hl⟩ := exists_cons_of_ne_nil (splitOnP_ne_nil p l)
      rw [splitOnP_cons_of_neg hc hl]
      exact keep c l piece pieces hc (hl ▸ ih)

theorem infix_of_mem_splitOnP (h : piece ∈ splitOnP p l) : piece <:+: l := by
  -- the first piece is even a prefix
  have hpieces : (∀ piece ∈ (splitOnP p l).head?, piece <+: l) ∧ ∀ piece ∈ splitOnP p l, piece <:+: l := by
    refine splitOnP_rec (motive := fun l pieces => (∀ piece ∈ pieces.head?, piece <+: l) ∧
      ∀ piece ∈ pieces, piece <:+: l) (by simp) ?_ ?_ l
    · rintro c l pieces - ⟨-, ih⟩
      refine ⟨by simp, forall_mem_cons.mpr ⟨List.nil_infix, fun piece hpiece => ?_⟩⟩
      exact (ih piece hpiece).trans (suffix_cons c l).isInfix
    · rintro c l piece pieces - ⟨hfirst, ih⟩
      have hfirst : c :: piece <+: c :: l := prefix_cons_inj c |>.mpr (hfirst piece rfl)
      refine ⟨by simpa using hfirst, forall_mem_cons.mpr ⟨hfirst.isInfix, fun piece' hpiece => ?_⟩⟩
      exact (ih piece' (mem_cons_of_mem _ hpiece)).trans (suffix_cons c l).isInfix
  exact hpieces.2 piece h

theorem mem_of_mem_splitOnP (hpiece : piece ∈ splitOnP p l) (hc : c ∈ piece) : c ∈ l :=
  (infix_of_mem_splitOnP hpiece).subset hc

theorem eq_false_of_mem_splitOnP {piece : List α} (h : piece ∈ splitOnP p l) : ∀ c ∈ piece, p c = false := by
  refine splitOnP_rec (motive := fun _ pieces => ∀ piece ∈ pieces, ∀ c ∈ piece, p c = false) (by simp)
    (fun c l pieces _ ih => by simpa using ih) (fun c l piece pieces hc ih => ?_) l piece h
  rw [forall_mem_cons] at ih ⊢
  exact ⟨forall_mem_cons.mpr ⟨hc, ih.1⟩, ih.2⟩

theorem splitOnP_append {pieces : List (List α)} :
    ∀ u : List α, (∀ c ∈ u, p c = false) → splitOnP p l = piece :: pieces →
      splitOnP p (u ++ l) = (u ++ piece) :: pieces
  | [], _, hl => hl
  | c :: u, hu, hl => by
    have ih := splitOnP_append u (fun d hd => hu d (mem_cons_of_mem _ hd)) hl
    exact splitOnP_cons_of_neg (hu c mem_cons_self) ih

theorem splitOnP_map {β : Type} {f : β → α} (l : List β) :
    splitOnP p (l.map f) = (splitOnP (fun c => p (f c)) l).map (List.map f) := by
  refine splitOnP_rec (motive := fun l pieces => splitOnP p (l.map f) = pieces.map (List.map f)) rfl ?_ ?_ l
  · intro c l pieces hc ih
    rw [map_cons, splitOnP_cons_eq_if_modifyHead, if_pos hc, ih, map_cons, map_nil]
  · exact fun c l piece pieces hc ih => splitOnP_cons_of_neg hc ih

theorem exists_infix_of_splitOnP {w b : List α} (hw : ∀ c ∈ w, p c = false) :
    ∀ a : List α, ∃ piece ∈ splitOnP p (a ++ (w ++ b)), w <:+: piece
  | [] => by
    obtain ⟨piece, pieces, h⟩ := exists_cons_of_ne_nil (splitOnP_ne_nil p b)
    refine ⟨w ++ piece, ?_, (prefix_append w piece).isInfix⟩
    rw [nil_append, splitOnP_append w hw h]
    exact mem_cons_self
  | c :: a => by
    obtain ⟨piece, hpiece, hpart⟩ := exists_infix_of_splitOnP hw a
    cases hc : p c with
    | true =>
      refine ⟨piece, ?_, hpart⟩
      rw [cons_append, splitOnP_cons_eq_if_modifyHead, if_pos hc]
      exact mem_cons_of_mem _ hpiece
    | false =>
      obtain ⟨d, ds, hd⟩ := exists_cons_of_ne_nil (splitOnP_ne_nil p (a ++ (w ++ b)))
      rw [cons_append, splitOnP_cons_of_neg hc hd]
      rw [hd] at hpiece
      rcases mem_cons.mp hpiece with rfl | hpiece
      · exact ⟨c :: piece, mem_cons_self, hpart.trans (suffix_cons c piece).isInfix⟩
      · exact ⟨piece, mem_cons_of_mem _ hpiece, hpart⟩

theorem splitOnP_append_left (hu : ∀ c ∈ u, p c = true) (l : List α) :
    splitOnP p (u ++ l) = List.replicate u.length [] ++ splitOnP p l := by
  induction u with
  | nil => rfl
  | cons c u ih =>
    rw [cons_append, splitOnP_cons_eq_if_modifyHead, if_pos (hu c mem_cons_self),
      ih fun d hd => hu d (mem_cons_of_mem _ hd), length_cons, replicate_succ,
      cons_append]

theorem splitOnP_append_right (hv : ∀ c ∈ v, p c = true) (l : List α) :
    splitOnP p (l ++ v) = splitOnP p l ++ List.replicate v.length [] := by
  induction v generalizing l with
  | nil => rw [append_nil, length_nil, replicate_zero, append_nil]
  | cons c v ih =>
    have hv' : ∀ d ∈ v, p d = true := fun d hd => hv d (mem_cons_of_mem _ hd)
    rw [splitOnP_append_cons l v (hv c mem_cons_self), length_cons, replicate_succ,
      ← nil_append v, ih hv' [], splitOnP_nil, nil_append, singleton_append]

theorem length_splitOnP (p : α → Bool) (l : List α) : (splitOnP p l).length = l.countP p + 1 := by
  refine splitOnP_rec (motive := fun l pieces => pieces.length = l.countP p + 1) rfl ?_ ?_ l
  · intro c l pieces hc ih
    rw [countP_cons_of_pos hc, length_cons, ih]
  · intro c l piece pieces hc ih
    rw [countP_cons_of_neg (by simp [hc]), ← ih]
    rfl

theorem mem_splitOnP_trimBy (hne : piece ≠ []) : piece ∈ splitOnP p (trimBy p l) ↔ piece ∈ splitOnP p l := by
  obtain ⟨u, v, hl, hu, hv⟩ := trimBy_eq p l
  have hempty : ∀ n, piece ∉ List.replicate n [] := fun n h => hne (eq_of_mem_replicate h)
  have hsplit := congrArg (splitOnP p) hl
  rw [splitOnP_append_right hv, splitOnP_append_left hu] at hsplit
  rw [hsplit, mem_append, mem_append]
  simp only [hempty, false_or, or_false]

theorem splitOnP_congr {l' : List α} (h : List.Forall₂ (fun x y => p x = p y ∧ (p x = false → x = y)) l l') :
    splitOnP p l = splitOnP p l' := by
  induction h with
  | nil => rfl
  | @cons x y l l' hxy _ ih =>
    cases hx : p x with
    | true => rw [splitOnP_cons_eq_if_modifyHead, if_pos hx, splitOnP_cons_eq_if_modifyHead, if_pos (hxy.1 ▸ hx), ih]
    | false =>
      obtain rfl := hxy.2 hx
      obtain ⟨a, as, ha⟩ := exists_cons_of_ne_nil (splitOnP_ne_nil p l)
      rw [splitOnP_cons_of_neg hx ha, splitOnP_cons_of_neg hx (ih ▸ ha)]

theorem splitOnP_filter (h : ∀ c, p c = true → q c = true) (l : List α) :
    splitOnP p (l.filter q) = (splitOnP p l).map (List.filter q) := by
  refine splitOnP_rec (motive := fun l pieces => splitOnP p (l.filter q) = pieces.map (List.filter q)) rfl ?_ ?_ l
  · intro c l pieces hp ih
    rw [filter_cons_of_pos (h c hp), splitOnP_cons_eq_if_modifyHead, if_pos hp, ih]
    rfl
  · intro c l piece pieces hp ih
    rw [map_cons]
    by_cases hq : q c = true
    · rw [filter_cons_of_pos hq, filter_cons_of_pos hq]
      exact splitOnP_cons_of_neg hp ih
    · rw [filter_cons_of_neg hq, filter_cons_of_neg hq]
      exact ih

section Trim

variable {p q : α → Bool} (hq : ∀ c, q c = true → p c = false)
include hq

theorem map_all_splitOnP_append_left {u : List α} (hu : ∀ c ∈ u, q c = true) (l : List α) :
    (splitOnP p (u ++ l)).map (·.all q) = (splitOnP p l).map (·.all q) := by
  cases hl : splitOnP p l with
  | nil => exact absurd hl (splitOnP_ne_nil p l)
  | cons piece pieces =>
    rw [splitOnP_append u (fun c hc => hq c (hu c hc)) hl, map_cons, map_cons,
      all_append, all_eq_true.mpr hu, Bool.true_and]

theorem map_all_splitOnP_append_right {v : List α} (hv : ∀ c ∈ v, q c = true) : ∀ l : List α,
    (splitOnP p (l ++ v)).map (·.all q) = (splitOnP p l).map (·.all q)
  | [] => by
    have h := map_all_splitOnP_append_left hq hv []
    rwa [append_nil] at h
  | c :: l => by
    have ih := map_all_splitOnP_append_right hv l
    cases hp : p c with
    | true => rw [cons_append, splitOnP_cons_eq_if_modifyHead, if_pos hp, splitOnP_cons_eq_if_modifyHead, if_pos hp, map_cons,
        map_cons, ih]
    | false =>
      obtain ⟨a, as, ha⟩ := exists_cons_of_ne_nil (splitOnP_ne_nil p (l ++ v))
      obtain ⟨b, bs, hb⟩ := exists_cons_of_ne_nil (splitOnP_ne_nil p l)
      rw [ha, hb, map_cons, map_cons, List.cons.injEq] at ih
      rw [cons_append, splitOnP_cons_of_neg hp ha, splitOnP_cons_of_neg hp hb, map_cons,
        map_cons, all_cons, all_cons, ih.1, ih.2]

theorem map_all_splitOnP_trimBy (l : List α) :
    (splitOnP p (trimBy q l)).map (·.all q) = (splitOnP p l).map (·.all q) := by
  obtain ⟨u, v, hl, hu, hv⟩ := trimBy_eq q l
  rw [congrArg (fun t => (splitOnP p t).map (·.all q)) hl, map_all_splitOnP_append_right hq hv,
    map_all_splitOnP_append_left hq hu]

end Trim

/-- **Splitting commutes with expansion**: when separators expand to separators and other symbols
to texts without one, the pieces of the expansion are the expansions of the pieces. -/
theorem splitOnP_flatMap {p : β → Bool} {f : α → List β}
    (hsep : ∀ x, q x = true → ∃ c, f x = [c] ∧ p c = true) (l : List α) :
    (∀ x ∈ l, q x = false → ∀ c ∈ f x, p c = false) →
      splitOnP p (l.flatMap f) = (splitOnP q l).map (List.flatMap f) := by
  refine splitOnP_rec (motive := fun l pieces => (∀ x ∈ l, q x = false → ∀ c ∈ f x, p c = false) →
    splitOnP p (l.flatMap f) = pieces.map (List.flatMap f)) (fun _ => rfl) ?_ ?_ l
  · intro x l pieces hx ih hin
    obtain ⟨c, hc, hp⟩ := hsep x hx
    rw [flatMap_cons, hc, singleton_append, splitOnP_cons_eq_if_modifyHead, if_pos hp,
      ih fun y hy => hin y (mem_cons_of_mem _ hy)]
    rfl
  · intro x l piece pieces hx ih hin
    exact splitOnP_append (f x) (hin x mem_cons_self hx) (ih fun y hy => hin y (mem_cons_of_mem _ hy))

/-! ### Words -/

/-- `str::split_whitespace`. -/
def splitWhitespace (text : List Char) : List (List Char) :=
  (splitOnP isWhitespace text).filter fun word => !word.isEmpty

section Words

variable {text word : List Char} (h : word ∈ splitWhitespace text)
include h

theorem ne_nil_of_mem_splitWhitespace : word ≠ [] := by
  obtain ⟨-, hne⟩ := mem_filter.mp h
  rintro rfl
  cases hne

theorem isWhitespace_of_mem_splitWhitespace : ∀ c ∈ word, isWhitespace c = false :=
  eq_false_of_mem_splitOnP (mem_filter.mp h).1

theorem trim_of_mem_splitWhitespace : trim word = word :=
  trimBy_of_forall (isWhitespace_of_mem_splitWhitespace h)

theorem splitWhitespace_of_mem : splitWhitespace word = [word] := by
  have hkeep : (!word.isEmpty) = true := by
    simp [isEmpty_eq_false_iff.mpr (ne_nil_of_mem_splitWhitespace h)]
  rw [splitWhitespace, splitOnP_eq_singleton (isWhitespace_of_mem_splitWhitespace h), filter_cons,
    if_pos hkeep, filter_nil]

end Words

end McpToolkit.Lib.Text
