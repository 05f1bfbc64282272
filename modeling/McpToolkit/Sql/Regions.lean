import McpToolkit.Sql.Postgres

/-!
# McpToolkit.Sql.Regions — what is code and what is not

A text in pieces: strings, quoted identifiers, comments and dollar quotes, each from its opening to its closing delimiter,
and single bytes of code between them.  A doubled quote stands for itself, a backslash for nothing else; block comments
nest, line comments end before a line break; the tag of a dollar quote is made of ASCII letters, digits and underscores and
may stand behind any byte of the code.  This is said with the readers of delimited tokens and knows nothing of the loop of
`lexical_surface`.

The loop finds the same pieces (`readRegions_eq`): it fails where one of them is not closed, and otherwise writes for each
byte what its region asks for (`lexicalSurface_eq`).
-/

namespace McpToolkit.Sql

open List
open Lib
open Postgres (readQuoted readComment readDollar)

/-- What a byte of a text is part of; the delimiters of a piece are part of it. -/
inductive Region where
  | code
  | string
  | identifier
  | lineComment
  | blockComment
  | dollarQuote
  deriving DecidableEq

/-! ### The pieces of a text -/

/-- The tag of a dollar quote, given the text behind its first `$`. -/
def wordTag (l : List UInt8) : Option (List UInt8) :=
  if (l.dropWhile isWordByte).head? = some dollar then some (l.takeWhile isWordByte) else none

/-- The tag of a dollar quote that starts at `b`. -/
def tagAt (b : UInt8) (l : List UInt8) : Option (List UInt8) := if b = dollar then wordTag l else none

/-- The first piece of a text that is not empty, and the text behind it; `none` if the piece is not closed. -/
def nextPiece (b : UInt8) (l : List UInt8) : Option ((Region × List UInt8) × List UInt8) :=
  if b = dash ∧ l.head? = some dash then some ((.lineComment, b :: l.takeWhile inLine), l.dropWhile inLine)
  else if b = slash ∧ l.head? = some star then
    (readComment 1 (l.drop 1)).map fun (body, rest) => ((.blockComment, b :: star :: body), rest)
  else if b = quote then (readQuoted quote l).map fun (body, rest) => ((.string, b :: body), rest)
  else if b = doubleQuote then (readQuoted doubleQuote l).map fun (body, rest) => ((.identifier, b :: body), rest)
  else
    match tagAt b l with
    | some tag => (readDollar (dollar :: tag ++ [dollar]) (l.drop (tag.length + 1))).map fun (body, rest) =>
        ((.dollarQuote, dollar :: tag ++ dollar :: body), rest)
    | none => some ((.code, [b]), l)

def piecesLoop : ℕ → List UInt8 → Option (List (Region × List UInt8))
  | _, [] => some []
  | 0, _ :: _ => none
  | fuel + 1, b :: l => do
    let (piece, rest) ← nextPiece b l
    let pieces ← piecesLoop fuel rest
    return piece :: pieces

/-- The regions of a text, one for each byte; `none` if a piece is not closed. -/
def regions (sql : List UInt8) : Option (List Region) :=
  (piecesLoop sql.length sql).map (List.flatMap fun piece => List.replicate piece.2.length piece.1)

example : regions (Text.ascii "a\"b\"'c'--") =
    some [.code, .identifier, .identifier, .identifier, .string, .string, .string, .lineComment, .lineComment] := by
  decide

/-! ### A turn of the loop -/

/-- What is written for a byte. -/
def LexRules.write (rules : LexRules) (region : Region) (b : UInt8) : UInt8 :=
  match region with
  | .code => rules.code b
  | .identifier => if b = doubleQuote then rules.mark else rules.quoted b
  | .lineComment => space
  | .string | .blockComment | .dollarQuote => maskHiddenByte b

/-- A turn of the loop apart from what it writes: the region of the bytes it reads, how many there are behind the first
one, and the next state. -/
def turn (endsLine : UInt8 → Bool) (cur : Cursor) (b : UInt8) (rest : List UInt8) : Region × ℕ × Cursor :=
  match cur.dollarTag with
  | some tag =>
    if tag.isPrefixOf (b :: rest) then (.dollarQuote, tag.length - 1, ⟨cur.state, none⟩) else (.dollarQuote, 0, cur)
  | none =>
    match cur.state with
    | .normal =>
      if b = dash ∧ rest.head? = some dash then (.lineComment, 1, ⟨.lineComment, none⟩)
      else if b = slash ∧ rest.head? = some star then (.blockComment, 1, ⟨.blockComment 1, none⟩)
      else if b = quote then (.string, 0, ⟨.singleQuote, none⟩)
      else if b = doubleQuote then (.identifier, 0, ⟨.doubleQuote, none⟩)
      else
        match parseDollarTag (b :: rest) with
        | some tagLen => (.dollarQuote, tagLen - 1, ⟨.normal, some ((b :: rest).take tagLen)⟩)
        | none => (.code, 0, cur)
    | .singleQuote =>
      if b = quote then if rest.head? = some quote then (.string, 1, cur) else (.string, 0, .start)
      else (.string, 0, cur)
    | .doubleQuote =>
      if b = doubleQuote then if rest.head? = some doubleQuote then (.identifier, 1, cur) else (.identifier, 0, .start)
      else (.identifier, 0, cur)
    | .lineComment => if endsLine b then (.code, 0, .start) else (.lineComment, 0, cur)
    | .blockComment depth =>
      if b = slash ∧ rest.head? = some star then (.blockComment, 1, ⟨.blockComment (depth + 1), none⟩)
      else if b = star ∧ rest.head? = some slash then
        (.blockComment, 1, ⟨if depth = 1 then .normal else .blockComment (depth - 1), none⟩)
      else (.blockComment, 0, cur)

/-- The tag of an open dollar quote is not empty, and blanked byte by byte it is blank. -/
def Cursor.Valid (cur : Cursor) : Prop :=
  ∀ tag, cur.dollarTag = some tag → tag ≠ [] ∧ ∀ b ∈ tag, maskHiddenByte b = space

theorem Cursor.valid_of_none {state : LexState} : Cursor.Valid ⟨state, none⟩ := by
  intro tag h; cases h

theorem dollarTagLoop_le {idx n : ℕ} {l : List UInt8} (h : dollarTagLoop idx l = some n) :
    idx + 1 ≤ n ∧ n ≤ idx + l.length ∧ ∀ b ∈ l.take (n - idx), maskHiddenByte b = space := by
  induction l generalizing idx with
  | nil => cases h
  | cons b l ih =>
    rw [dollarTagLoop, not_isWordByte] at h
    rw [length_cons]
    split_ifs at h with hb hw
    · obtain rfl := Option.some.inj h
      refine ⟨le_rfl, by omega, ?_⟩
      rw [Nat.add_sub_cancel_left, hb]
      exact forall_mem_singleton.mpr rfl
    · obtain ⟨hlow, hhigh, hblank⟩ := ih h
      refine ⟨by omega, by omega, ?_⟩
      rw [show n - idx = n - (idx + 1) + 1 by omega, take_succ_cons]
      exact forall_mem_cons.mpr ⟨maskHiddenByte_of_isWordByte b (by simpa using hw), hblank⟩

theorem of_parseDollarTag {b : UInt8} {l : List UInt8} {n : ℕ} (h : parseDollarTag (b :: l) = some n) :
    2 ≤ n ∧ n ≤ l.length + 1 ∧ ∀ c ∈ (b :: l).take n, maskHiddenByte c = space := by
  rw [parseDollarTag] at h
  split_ifs at h with hb
  obtain ⟨hlow, hhigh, hblank⟩ := dollarTagLoop_le h
  refine ⟨by omega, by omega, ?_⟩
  rw [show n = n - 1 + 1 by omega, take_succ_cons, hb]
  exact forall_mem_cons.mpr ⟨rfl, hblank⟩

/-- The turn `t` at `b`: it writes for each byte that it reads what its region asks for. -/
def TurnOf (rules : LexRules) (cur : Cursor) (b : UInt8) (rest : List UInt8) (t : Region × ℕ × Cursor) : Prop :=
  t.2.2.Valid ∧ t.2.1 ≤ rest.length ∧
    lexStep rules cur b rest = (((b :: rest).take (t.2.1 + 1)).map (rules.write t.1), t.2.2, rest.drop t.2.1)

variable {rules : LexRules} {cur next : Cursor} {b c : UInt8} {rest : List UInt8} {region : Region}

theorem turnOf_one (hnext : next.Valid) (h : lexStep rules cur b rest = ([rules.write region b], next, rest)) :
    TurnOf rules cur b rest (region, 0, next) := ⟨hnext, Nat.zero_le _, h⟩

theorem turnOf_two (hnext : next.Valid) (hc : rest.head? = some c)
    (h : lexStep rules cur b rest = ([rules.write region b, rules.write region c], next, rest.drop 1)) :
    TurnOf rules cur b rest (region, 1, next) := by
  obtain ⟨tail, rfl⟩ := head?_eq_some_iff.mp hc
  exact ⟨hnext, Nat.le_add_left 1 _, h⟩

/-- A turn that reads a tag of a dollar quote. -/
theorem turnOf_tag {n : ℕ} (hnext : next.Valid) (hn : 1 ≤ n) (hle : n ≤ rest.length + 1)
    (hblank : ∀ c ∈ (b :: rest).take n, maskHiddenByte c = space)
    (h : lexStep rules cur b rest = (List.replicate n space, next, (b :: rest).drop n)) :
    TurnOf rules cur b rest (.dollarQuote, n - 1, next) := by
  obtain ⟨n, rfl⟩ := Nat.exists_eq_add_of_le' hn
  refine ⟨hnext, Nat.le_of_succ_le_succ hle, h.trans (Prod.ext ?_ rfl)⟩
  show _ = ((b :: rest).take (n + 1)).map maskHiddenByte
  rw [map_congr_left hblank, map_const', length_take, length_cons, Nat.min_eq_left hle]

variable (rules) in
/-- **A turn writes for each byte that it reads what its region asks for.** -/
theorem turnOf_turn (h : cur.Valid) (b : UInt8) (rest : List UInt8) :
    TurnOf rules cur b rest (turn rules.endsLine cur b rest) := by
  have hnone : ∀ state, Cursor.Valid ⟨state, none⟩ := fun _ => Cursor.valid_of_none
  obtain ⟨state, dollarTag⟩ := cur
  cases dollarTag with
  | some tag =>
    obtain ⟨hne, hblank⟩ := h tag rfl
    simp only [turn]
    split_ifs with hclose
    · have hlen := (List.isPrefixOf_iff_prefix.mp hclose).length_le
      obtain ⟨tail, htail⟩ := List.isPrefixOf_iff_prefix.mp hclose
      refine turnOf_tag (hnone _) (length_pos_iff.mpr hne) hlen ?_ (by simp only [lexStep, if_pos hclose])
      rwa [← htail, take_left]
    · exact turnOf_one h (by simp only [lexStep, if_neg hclose]; rfl)
  | none =>
    cases state with
    | normal =>
      simp only [turn]
      split_ifs with hline hblock hquote hdouble
      · exact turnOf_two (hnone _) hline.2 (by simp only [lexStep, if_pos hline]; rfl)
      · obtain ⟨rfl, hstar⟩ := hblock
        exact turnOf_two (hnone _) hstar (by simp only [lexStep, hstar]; rfl)
      · exact turnOf_one (hnone _) (by subst hquote; rfl)
      · exact turnOf_one (hnone _) (by subst hdouble; rfl)
      · cases htag : parseDollarTag (b :: rest) with
        | none =>
          refine turnOf_one h ?_
          simp only [lexStep, if_neg hline, if_neg hblock, if_neg hquote, if_neg hdouble, htag]
          rfl
        | some n =>
          obtain ⟨hlow, hhigh, hblank⟩ := of_parseDollarTag htag
          refine turnOf_tag ?_ (by omega) hhigh hblank ?_
          · rintro tag ht
            obtain rfl := Option.some.inj ht
            refine ⟨fun hnil => ?_, hblank⟩
            rcases take_eq_nil_iff.mp hnil with hn | hn
            · omega
            · cases hn
          · simp only [lexStep, if_neg hline, if_neg hblock, if_neg hquote, if_neg hdouble, htag]
    | singleQuote =>
      simp only [turn]
      split_ifs with hquote hpair
      · exact turnOf_two h hpair (by subst hquote; simp only [lexStep, if_pos, hpair]; rfl)
      · exact turnOf_one (hnone _) (by subst hquote; simp only [lexStep, if_pos, if_neg hpair]; rfl)
      · exact turnOf_one h (by simp only [lexStep, if_neg hquote]; rfl)
    | doubleQuote =>
      simp only [turn]
      split_ifs with hquote hpair
      · exact turnOf_two h hpair (by subst hquote; simp only [lexStep, if_pos, hpair]; rfl)
      · exact turnOf_one (hnone _) (by subst hquote; simp only [lexStep, if_pos, if_neg hpair]; rfl)
      · exact turnOf_one h (by simp only [lexStep, LexRules.write, if_neg hquote])
    | lineComment =>
      simp only [turn]
      split_ifs with hend
      · exact turnOf_one (hnone _) (by simp only [lexStep, if_pos hend, LexRules.write, rules.code_of_endsLine b hend]; rfl)
      · exact turnOf_one h (by simp only [lexStep, if_neg hend]; rfl)
    | blockComment depth =>
      simp only [turn]
      split_ifs with hopen hclose hdepth
      · obtain ⟨rfl, hstar⟩ := hopen
        exact turnOf_two (hnone _) hstar (by simp only [lexStep, hstar]; rfl)
      · obtain ⟨rfl, hslash⟩ := hclose
        exact turnOf_two (hnone _) hslash (by simp only [lexStep, hslash, if_pos hdepth]; rfl)
      · obtain ⟨rfl, hslash⟩ := hclose
        exact turnOf_two (hnone _) hslash (by simp only [lexStep, hslash, if_neg hdepth]; rfl)
      · exact turnOf_one h (by simp only [lexStep, if_neg hopen, if_neg hclose]; rfl)

/-! ### A run of the loop -/

section Run

variable (endsLine : UInt8 → Bool)

/-- The regions of the bytes from a state on, and the state at the end. -/
def scan (cur : Cursor) : List UInt8 → List Region × Cursor
  | [] => ([], cur)
  | b :: rest =>
    let t := turn endsLine cur b rest
    let out := scan t.2.2 (rest.drop t.2.1)
    (List.replicate (t.2.1 + 1) t.1 ++ out.1, out.2)
termination_by bytes => bytes.length
decreasing_by
  rw [length_drop, length_cons]
  omega

variable {endsLine}

theorem scan_cons {n : ℕ} (h : turn endsLine cur b rest = (region, n, next)) : scan endsLine cur (b :: rest) =
    (List.replicate (n + 1) region ++ (scan endsLine next (rest.drop n)).1, (scan endsLine next (rest.drop n)).2) := by
  rw [scan, h]

theorem zipWith_replicate (f : Region → UInt8 → UInt8) (region : Region) (l : List UInt8) :
    List.zipWith f (List.replicate l.length region) l = l.map (f region) := by
  induction l with
  | nil => rfl
  | cons b l ih => rw [length_cons, replicate_succ, zipWith_cons_cons, ih, map_cons]

/-- **The loop writes what the regions ask for.**  By induction over the turns. -/
theorem lexLoop_eq_scan (rules : LexRules) (fuel : ℕ) (cur : Cursor) (bytes : List UInt8) (h : cur.Valid)
    (hfuel : bytes.length ≤ fuel) : (scan rules.endsLine cur bytes).1.length = bytes.length ∧
      lexLoop rules fuel cur bytes =
        (List.zipWith rules.write (scan rules.endsLine cur bytes).1 bytes, (scan rules.endsLine cur bytes).2) := by
  induction fuel generalizing cur bytes with
  | zero =>
    obtain rfl : bytes = [] := length_eq_zero_iff.mp (Nat.le_zero.mp hfuel)
    rw [scan]
    exact ⟨rfl, rfl⟩
  | succ fuel ih =>
    cases bytes with
    | nil =>
      rw [scan]
      exact ⟨rfl, rfl⟩
    | cons b rest =>
      obtain ⟨hnext, hle, hstep⟩ := turnOf_turn rules h b rest
      rw [scan]
      generalize turn rules.endsLine cur b rest = t at hnext hle hstep
      obtain ⟨region, n, next⟩ := t
      have hrest : (rest.drop n).length ≤ fuel := by
        rw [length_cons] at hfuel
        rw [length_drop]
        omega
      obtain ⟨hlen, hloop⟩ := ih next (rest.drop n) hnext hrest
      have htake : ((b :: rest).take (n + 1)).length = n + 1 := by
        rw [length_take, length_cons]
        exact Nat.min_eq_left (Nat.succ_le_succ hle)
      refine ⟨?_, ?_⟩
      · rw [length_append, length_replicate, hlen, length_drop, length_cons]
        dsimp only at hle ⊢
        omega
      · rw [lexLoop, hstep]
        dsimp only
        rw [hloop, ← zipWith_replicate, htake, ← zipWith_append (by rw [length_replicate, htake])]
        rw [← drop_succ_cons (a := b), take_append_drop]

end Run

theorem Cursor.valid_start : Cursor.start.Valid := Cursor.valid_of_none

/-- The regions of a text from a state on, as the loop of `lexical_surface` takes them; `none` if it ends inside a
piece. -/
def readRegions (cur : Cursor) (bytes : List UInt8) : Option (List Region) :=
  if (scan (!inLine ·) cur bytes).2.unterminated then none else some (scan (!inLine ·) cur bytes).1

/-! ### Delimited pieces

Each reader against the state of the loop behind the same opening delimiter. -/

variable {l : List UInt8}

theorem readRegions_cons {n : ℕ} (h : turn (!inLine ·) cur b l = (region, n, next)) :
    readRegions cur (b :: l) = (readRegions next (l.drop n)).map (List.replicate (n + 1) region ++ ·) := by
  unfold readRegions
  rw [scan_cons h]
  split_ifs <;> rfl

theorem map_append_append (u v : List Region) (o : Option (List Region)) :
    (o.map (v ++ ·)).map (u ++ ·) = o.map ((u ++ v) ++ ·) := by
  cases o with
  | none => rfl
  | some rs => exact congrArg some (append_assoc u v rs).symm

/-- The rest of a piece, and what is behind it. -/
def readBehind (region : Region) (o : Option (List UInt8 × List UInt8)) : Option (List Region) :=
  o.bind fun p => (readRegions .start p.2).map (List.replicate p.1.length region ++ ·)

theorem readBehind_cons (region : Region) (b : UInt8) (o : Option (List UInt8 × List UInt8)) :
    readBehind region (Postgres.cons b o) = (readBehind region o).map ([region] ++ ·) := by
  cases o with
  | none => rfl
  | some p => exact (map_append_append [region] _ _).symm

theorem readRegions_nil (cur : Cursor) : readRegions cur [] = if cur.unterminated then none else some [] := by
  rw [readRegions, scan]

theorem readRegions_nil_eq_none (h : cur.unterminated = true) : readRegions cur [] = none := by
  rw [readRegions_nil, if_pos h]

/-- The state of the loop inside a piece that is closed by `q`, a doubled `q` standing for itself. -/
structure Quoting (state : LexState) (q : UInt8) (region : Region) : Prop where
  unterminated : Cursor.unterminated ⟨state, none⟩ = true
  pair : ∀ rest, turn (!inLine ·) ⟨state, none⟩ q (q :: rest) = (region, 1, ⟨state, none⟩)
  close : ∀ rest, rest.head? ≠ some q → turn (!inLine ·) ⟨state, none⟩ q rest = (region, 0, .start)
  inside : ∀ b rest, b ≠ q → turn (!inLine ·) ⟨state, none⟩ b rest = (region, 0, ⟨state, none⟩)

theorem quoting_single : Quoting .singleQuote quote .string where
  unterminated := rfl
  pair rest := rfl
  close rest h := by simp only [turn]; rw [if_neg h]; rfl
  inside b rest h := by simp only [turn]; rw [if_neg h]

theorem quoting_double : Quoting .doubleQuote doubleQuote .identifier where
  unterminated := rfl
  pair rest := rfl
  close rest h := by simp only [turn]; rw [if_neg h]; rfl
  inside b rest h := by simp only [turn]; rw [if_neg h]

section Quoting

variable {state : LexState} {q : UInt8}

theorem Quoting.readRegions_inside (h : Quoting state q region) (hb : b ≠ q) : readRegions ⟨state, none⟩ (b :: l) =
    (readRegions ⟨state, none⟩ l).map ([region] ++ ·) := readRegions_cons (h.inside b l hb)

theorem Quoting.readRegions_pair (h : Quoting state q region) : readRegions ⟨state, none⟩ (q :: q :: l) =
    (readRegions ⟨state, none⟩ l).map ([region, region] ++ ·) := readRegions_cons (h.pair l)

theorem Quoting.readRegions_close (h : Quoting state q region) (hl : l.head? ≠ some q) :
    readRegions ⟨state, none⟩ (q :: l) = readBehind region (some ([q], l)) := readRegions_cons (h.close l hl)

theorem Quoting.readRegions_eq (h : Quoting state q region) (l : List UInt8) :
    readRegions ⟨state, none⟩ l = readBehind region (readQuoted q l) := by
  fun_induction readQuoted q l with
  | case1 => exact readRegions_nil_eq_none h.unterminated
  | case2 => exact h.readRegions_close (by simp)
  | case3 b hb => rw [h.readRegions_inside hb, readRegions_nil_eq_none h.unterminated]; rfl
  | case4 l ih =>
    rw [h.readRegions_pair, ih, readBehind_cons, readBehind_cons, map_append_append]
    rfl
  | case5 c l hc => exact h.readRegions_close fun hq => hc (Option.some.inj hq)
  | case6 b c l hb ih => rw [h.readRegions_inside hb, ih, readBehind_cons]

end Quoting

theorem readRegions_comment (depth : ℕ) (l : List UInt8) :
    readRegions ⟨.blockComment depth, none⟩ l = readBehind .blockComment (readComment depth l) := by
  have hinside : ∀ {depth b l}, ¬(b = slash ∧ l.head? = some star) → ¬(b = star ∧ l.head? = some slash) →
      readRegions ⟨.blockComment depth, none⟩ (b :: l) =
        (readRegions ⟨.blockComment depth, none⟩ l).map ([.blockComment] ++ ·) := by
    intro depth b l hopen hclose
    refine readRegions_cons (n := 0) ?_
    simp only [turn]
    rw [if_neg hopen, if_neg hclose]
  fun_induction readComment depth l with
  | case1 => exact readRegions_nil_eq_none rfl
  | case2 =>
    rw [hinside (fun h => by cases h.2) (fun h => by cases h.2), readRegions_nil_eq_none rfl]
    rfl
  | case3 depth b c l hopen ih =>
    obtain ⟨rfl, rfl⟩ := hopen
    rw [readRegions_cons (n := 1) rfl, drop_one, tail_cons, ih, readBehind_cons, readBehind_cons, map_append_append]
    rfl
  | case4 b c l hopen hclose =>
    obtain ⟨rfl, rfl⟩ := hclose
    exact readRegions_cons (n := 1) rfl
  | case5 depth b c l hopen hclose hdepth ih =>
    obtain ⟨rfl, rfl⟩ := hclose
    have hturn : turn (!inLine ·) ⟨.blockComment depth, none⟩ star (slash :: l) =
        (.blockComment, 1, ⟨if depth = 1 then .normal else .blockComment (depth - 1), none⟩) := rfl
    rw [if_neg hdepth] at hturn
    rw [readRegions_cons hturn, drop_one, tail_cons, ih, readBehind_cons, readBehind_cons, map_append_append]
    rfl
  | case6 depth b c l hopen hclose ih =>
    have hopen' : ¬(b = slash ∧ (c :: l).head? = some star) := fun h => hopen ⟨h.1, Option.some.inj h.2⟩
    have hclose' : ¬(b = star ∧ (c :: l).head? = some slash) := fun h => hclose ⟨h.1, Option.some.inj h.2⟩
    rw [hinside hopen' hclose', ih, readBehind_cons]

theorem readRegions_lineComment (l : List UInt8) : readRegions ⟨.lineComment, none⟩ l =
    readBehind .lineComment (some (l.takeWhile inLine, l.dropWhile inLine)) := by
  induction l with
  | nil =>
    have hbehind : readBehind .lineComment (some ([], [])) = (readRegions .start []).map ([] ++ ·) := rfl
    rw [takeWhile_nil, dropWhile_nil, hbehind, readRegions_nil, readRegions_nil]
    rfl
  | cons b l ih =>
    by_cases hb : inLine b = true
    · have hturn : turn (!inLine ·) ⟨.lineComment, none⟩ b l = (.lineComment, 0, ⟨.lineComment, none⟩) := by
        simp only [turn, hb, Bool.not_true, Bool.false_eq_true, if_false]
      rw [readRegions_cons hturn, drop_zero, ih, takeWhile_cons_of_pos hb, dropWhile_cons_of_pos hb]
      exact (readBehind_cons .lineComment b (some (l.takeWhile inLine, l.dropWhile inLine))).symm
    · -- the line break is read as in the normal state
      have hturn : turn (!inLine ·) ⟨.lineComment, none⟩ b l = (.code, 0, .start) ∧ turn (!inLine ·) .start b l = (.code, 0, .start) := by
        simp only [inLine, Bool.and_eq_true, bne_iff_ne, not_and_or, not_not] at hb
        rcases hb with rfl | rfl <;> exact ⟨rfl, rfl⟩
      rw [takeWhile_cons_of_neg hb, dropWhile_cons_of_neg hb, readRegions_cons hturn.1, ← readRegions_cons hturn.2]
      exact Option.map_id'.symm

theorem readRegions_dollar {delim : List UInt8} (hne : delim ≠ []) (l : List UInt8) :
    readRegions ⟨.normal, some delim⟩ l = readBehind .dollarQuote (readDollar delim l) := by
  induction l with
  | nil => exact readRegions_nil_eq_none rfl
  | cons b l ih =>
    rw [readDollar]
    split_ifs with hclose
    · obtain ⟨d, delim, rfl⟩ := exists_cons_of_ne_nil hne
      refine readRegions_cons ?_
      simp only [turn]
      rw [if_pos hclose]
      rfl
    · have hturn : turn (!inLine ·) ⟨.normal, some delim⟩ b l = (.dollarQuote, 0, ⟨.normal, some delim⟩) := by
        simp only [turn]
        rw [if_neg hclose]
      rw [readRegions_cons hturn, drop_zero, ih, readBehind_cons]
      rfl

theorem wordTag_cons (h : isWordByte b = true) : wordTag (b :: l) = (wordTag l).map (b :: ·) := by
  unfold wordTag
  rw [dropWhile_cons_of_pos h, takeWhile_cons_of_pos h]
  split_ifs <;> rfl

theorem dollarTagLoop_eq (idx : ℕ) (l : List UInt8) :
    dollarTagLoop idx l = (wordTag l).map fun tag => idx + tag.length + 1 := by
  induction l generalizing idx with
  | nil => rfl
  | cons b l ih =>
    rw [dollarTagLoop, not_isWordByte]
    by_cases hdollar : b = dollar
    · subst hdollar
      rfl
    · rw [if_neg hdollar]
      cases hb : isWordByte b with
      | true =>
        rw [if_neg (by decide), ih, wordTag_cons hb, Option.map_map]
        refine Option.map_congr fun tag _ => ?_
        rw [Function.comp_apply, length_cons]
        omega
      | false =>
        rw [if_pos (by decide), wordTag, dropWhile_cons_of_neg (Bool.not_eq_true _ ▸ hb),
          head?_cons, if_neg fun h => hdollar (Option.some.inj h)]
        rfl

theorem of_tagAt {tag : List UInt8} (h : tagAt b l = some tag) :
    b = dollar ∧ tag.all isWordByte = true ∧ ∃ l', l = tag ++ dollar :: l' := by
  unfold tagAt wordTag at h
  split_ifs at h with hb hclose
  obtain rfl := Option.some.inj h
  obtain ⟨l', hl'⟩ := head?_eq_some_iff.mp hclose
  exact ⟨hb, all_takeWhile, l', by rw [← hl', takeWhile_append_dropWhile]⟩

theorem parseDollarTag_eq (b : UInt8) (l : List UInt8) :
    parseDollarTag (b :: l) = (tagAt b l).map fun tag => tag.length + 2 := by
  rw [parseDollarTag, tagAt]
  split_ifs
  · rw [dollarTagLoop_eq]
    refine Option.map_congr fun tag _ => ?_
    omega
  · rfl

theorem turn_start (b : UInt8) (l : List UInt8) : turn (!inLine ·) .start b l =
    if b = dash ∧ l.head? = some dash then (.lineComment, 1, ⟨.lineComment, none⟩)
    else if b = slash ∧ l.head? = some star then (.blockComment, 1, ⟨.blockComment 1, none⟩)
    else if b = quote then (.string, 0, ⟨.singleQuote, none⟩)
    else if b = doubleQuote then (.identifier, 0, ⟨.doubleQuote, none⟩)
    else (parseDollarTag (b :: l)).elim (.code, 0, .start) fun tagLen =>
      (.dollarQuote, tagLen - 1, ⟨.normal, some ((b :: l).take tagLen)⟩) := by
  simp only [turn, Cursor.start]
  cases parseDollarTag (b :: l) <;> rfl

theorem wordTag_append {tag : List UInt8} (h : tag.all isWordByte = true) (l : List UInt8) :
    wordTag (tag ++ dollar :: l) = some tag := by
  have h' : ∀ b ∈ tag, isWordByte b = true := all_eq_true.mp h
  rw [wordTag, dropWhile_append_of_pos h', takeWhile_append_of_pos h']
  exact congrArg some (append_nil tag)

/-- **The loop reads a piece and is back in its normal state behind it.** -/
theorem readRegions_piece (b : UInt8) (l : List UInt8) : readRegions .start (b :: l) =
    (nextPiece b l).bind fun p => (readRegions .start p.2).map (List.replicate p.1.2.length p.1.1 ++ ·) := by
  have hopen : ∀ {region : Region} {n : ℕ} {next : Cursor} (front : List UInt8)
      {o : Option (List UInt8 × List UInt8)}, turn (!inLine ·) .start b l = (region, n, next) →
      readRegions next (l.drop n) = readBehind region o → front.length = n + 1 →
      readRegions .start (b :: l) = (o.map fun p => ((region, front ++ p.1), p.2)).bind fun p =>
        (readRegions .start p.2).map (List.replicate p.1.2.length p.1.1 ++ ·) := by
    intro region n next front o hturn hread hfront
    rw [readRegions_cons hturn, hread]
    cases o with
    | none => rfl
    | some p =>
      refine (map_append_append _ _ _).trans ?_
      rw [← hfront, ← replicate_add, ← length_append]
      rfl
  have hturn := turn_start b l
  unfold nextPiece
  split_ifs at hturn ⊢ with hline hblock hquote hdouble
  · obtain ⟨rfl, hdash⟩ := hline
    obtain ⟨l, rfl⟩ := head?_eq_some_iff.mp hdash
    exact hopen [dash, dash] hturn (readRegions_lineComment l) rfl
  · exact hopen [b, star] hturn (readRegions_comment 1 (l.drop 1)) rfl
  · exact hopen [b] hturn (quoting_single.readRegions_eq l) rfl
  · exact hopen [b] hturn (quoting_double.readRegions_eq l) rfl
  · rw [parseDollarTag_eq] at hturn
    cases htag : tagAt b l with
    | none =>
      rw [htag] at hturn
      exact readRegions_cons hturn
    | some tag =>
      rw [htag] at hturn
      obtain ⟨rfl, -, l', rfl⟩ := of_tagAt htag
      have htake : (dollar :: (tag ++ dollar :: l')).take (tag.length + 2) = dollar :: tag ++ [dollar] := by
        simp [take_append]
      rw [Option.map_some, Option.elim_some, htake] at hturn
      refine (hopen (dollar :: tag ++ [dollar]) hturn (readRegions_dollar (by simp) _) (by simp)).trans ?_
      simp

theorem nextPiece_dollar {tag : List UInt8} (h : tagAt dollar l = some tag) : nextPiece dollar l =
    (readDollar (dollar :: tag ++ [dollar]) (l.drop (tag.length + 1))).map fun (body, rest) =>
      ((.dollarQuote, dollar :: tag ++ dollar :: body), rest) := by
  rw [nextPiece, if_neg fun h => absurd h.1 (by decide), if_neg fun h => absurd h.1 (by decide), if_neg (by decide),
    if_neg (by decide), h]

theorem nextPiece_append {piece : Region × List UInt8} {rest : List UInt8} (h : nextPiece b l = some (piece, rest)) :
    ∃ body, piece.2 = b :: body ∧ l = body ++ rest := by
  unfold nextPiece at h
  split_ifs at h with hline hblock
  · cases h
    exact ⟨_, rfl, takeWhile_append_dropWhile.symm⟩
  · obtain ⟨⟨body, rest⟩, hbody, hx⟩ := Option.map_eq_some_iff.mp h
    obtain ⟨l, rfl⟩ := head?_eq_some_iff.mp hblock.2
    cases hx
    exact ⟨_, rfl, congrArg (star :: ·) (Postgres.readComment_append hbody)⟩
  · obtain ⟨⟨body, rest⟩, hbody, ⟨⟩⟩ := Option.map_eq_some_iff.mp h
    exact ⟨_, rfl, Postgres.readQuoted_append hbody⟩
  · obtain ⟨⟨body, rest⟩, hbody, ⟨⟩⟩ := Option.map_eq_some_iff.mp h
    exact ⟨_, rfl, Postgres.readQuoted_append hbody⟩
  · cases htag : tagAt b l with
    | none =>
      rw [htag] at h
      cases h
      exact ⟨_, rfl, rfl⟩
    | some tag =>
      rw [htag] at h
      obtain ⟨⟨body, rest⟩, hbody, ⟨⟩⟩ := Option.map_eq_some_iff.mp h
      obtain ⟨rfl, -, l', rfl⟩ := of_tagAt htag
      rw [← drop_drop, drop_left, drop_one, tail_cons] at hbody
      refine ⟨tag ++ dollar :: body, rfl, ?_⟩
      rw [Postgres.readDollar_append hbody, append_assoc]
      rfl

/-- **The loop finds the pieces of the text.**  By induction over the pieces. -/
theorem readRegions_eq_pieces {fuel : ℕ} {sql : List UInt8} (hfuel : sql.length ≤ fuel) : readRegions .start sql =
    (piecesLoop fuel sql).map (List.flatMap fun piece => List.replicate piece.2.length piece.1) := by
  induction fuel generalizing sql with
  | zero =>
    obtain rfl : sql = [] := length_eq_zero_iff.mp (Nat.le_zero.mp hfuel)
    exact readRegions_nil _
  | succ fuel ih =>
    cases sql with
    | nil => exact readRegions_nil _
    | cons b l =>
      rw [readRegions_piece, piecesLoop]
      cases hnext : nextPiece b l with
      | none => rfl
      | some p =>
        obtain ⟨⟨region, bytes⟩, rest⟩ := p
        obtain ⟨body, -, rfl⟩ := nextPiece_append hnext
        have hrest : rest.length ≤ fuel := by
          rw [length_cons, length_append] at hfuel
          omega
        show (readRegions .start rest).map _ = _
        rw [ih hrest]
        cases hpieces : piecesLoop fuel rest with
        | none => simp [hpieces]
        | some pieces => simp [hpieces]

theorem readRegions_eq (sql : List UInt8) : readRegions .start sql = regions sql := readRegions_eq_pieces le_rfl

/-- **The surface of a text**: an error if a piece is not closed, and else for each byte what its region asks for. -/
theorem lexicalSurface_eq (sql : List UInt8) (mask : Bool) : lexicalSurface sql mask = (regions sql).elim
    (.error ⟨.unterminatedToken, "restricted mode could not parse SQL lexical surface"⟩)
    fun rs => .ok (List.zipWith (surfaceRules mask).write rs sql) := by
  have hends : (surfaceRules mask).endsLine = (!inLine ·) := rfl
  unfold lexicalSurface
  dsimp only
  rw [(lexLoop_eq_scan (surfaceRules mask) _ _ _ Cursor.valid_start le_rfl).2, hends, ← readRegions_eq, readRegions]
  split_ifs <;> rfl

theorem length_regions {sql : List UInt8} {rs : List Region} (h : regions sql = some rs) : rs.length = sql.length := by
  rw [← readRegions_eq, readRegions] at h
  split_ifs at h
  rw [← Option.some.inj h]
  exact (lexLoop_eq_scan (surfaceRules true) _ _ _ Cursor.valid_start le_rfl).1

/-! ### The two surfaces -/

/-- What the two surfaces may have at a position. -/
structure Alike (region : Region) (masked plain : UInt8) : Prop where
  ascii : masked < 128 ∧ plain < 128
  same : region ≠ .identifier → masked = plain
  blank : region ≠ .code → region ≠ .identifier →
    isAsciiWhitespace masked = true ∧ isAsciiWhitespace plain = true

theorem alike_write (region : Region) (b : UInt8) : Alike region ((surfaceRules true).write region b) ((surfaceRules false).write region b) := by
  have hcode := maskByte_lt b
  have hhidden := maskHiddenByte_lt b
  have hblank := isAsciiWhitespace_maskHiddenByte b
  cases region with
  | code => exact ⟨⟨hcode, hcode⟩, fun _ => rfl, fun hne => absurd rfl hne⟩
  | identifier =>
    refine ⟨?_, fun hne => absurd rfl hne, fun _ hne => absurd rfl hne⟩
    dsimp only [LexRules.write]
    split_ifs
    · decide
    · exact ⟨hhidden, hcode⟩
  | lineComment =>
    have hspace : space < 128 ∧ isAsciiWhitespace space = true := by decide
    exact ⟨⟨hspace.1, hspace.1⟩, fun _ => rfl, fun _ _ => ⟨hspace.2, hspace.2⟩⟩
  | string | blockComment | dollarQuote =>
    exact ⟨⟨hhidden, hhidden⟩, fun _ => rfl, fun _ _ => ⟨hblank, hblank⟩⟩

/-- **The two surfaces agree.**  They fail together, where a piece of the text is not closed; otherwise both have a byte of
ASCII for each byte of the text, the same one outside quoted identifiers and whitespace inside strings, dollar quotes and
comments. -/
theorem lexicalSurface_agree (sql : List UInt8) :
    (regions sql = none ∧ ∃ e, lexicalSurface sql true = .error e ∧ lexicalSurface sql false = .error e) ∨
      ∃ rs masked plain, regions sql = some rs ∧ lexicalSurface sql true = .ok masked ∧
        lexicalSurface sql false = .ok plain ∧
        rs.length = sql.length ∧ masked.length = sql.length ∧ plain.length = sql.length ∧
        ∀ (i : ℕ) (region : Region) (m p : UInt8), rs[i]? = some region → masked[i]? = some m →
          plain[i]? = some p → Alike region m p := by
  rw [lexicalSurface_eq, lexicalSurface_eq]
  cases hrs : regions sql with
  | none => exact .inl ⟨rfl, _, rfl, rfl⟩
  | some rs =>
    have hlen := length_regions hrs
    have hwritten : ∀ mask, (List.zipWith (surfaceRules mask).write rs sql).length = sql.length := fun mask => by
      rw [length_zipWith, hlen, Nat.min_self]
    refine .inr ⟨rs, _, _, rfl, rfl, rfl, hlen, hwritten true, hwritten false, fun i region m p hr hm hp => ?_⟩
    obtain ⟨r, b, hr', hb, rfl⟩ := getElem?_zipWith_eq_some.mp hm
    obtain ⟨r', b', hr'', hb', rfl⟩ := getElem?_zipWith_eq_some.mp hp
    obtain rfl := Option.some.inj (hr'.symm.trans hr)
    obtain rfl := Option.some.inj (hr''.symm.trans hr)
    obtain rfl := Option.some.inj (hb'.symm.trans hb)
    exact alike_write _ _

end McpToolkit.Sql
