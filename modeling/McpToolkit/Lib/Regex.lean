import Mathlib.Data.List.Forall2

/-!
# McpToolkit.Lib.Regex — a backtracking matcher

Regular expressions with symbol classes, greedy repetition of a class, options, alternatives and
word boundaries.  A position of a text is the symbol before it, if any, and the text from there on.
`ends` lists where a match from a position can end, in the order a leftmost-first engine tries
them; `isMatch` and `findIter` search a whole text.
-/

namespace McpToolkit.Lib

open List

inductive Regex (α : Type) where
  | eps
  | chr (p : α → Bool)
  | star (p : α → Bool)
  | opt (r : Regex α)
  | seq (r s : Regex α)
  | alt (r s : Regex α)
  | boundary

namespace Regex

variable {α : Type} (word : α → Bool)

/-- Greedy repetition: the longest run of the class first. -/
def starEnds (p : α → Bool) : Option α → List α → List (Option α × List α)
  | prev, [] => [(prev, [])]
  | prev, c :: t => if p c then starEnds p (some c) t ++ [(prev, c :: t)] else [(prev, c :: t)]

def ends : Regex α → Option α × List α → List (Option α × List α)
  | .eps, pos => [pos]
  | .chr _, (_, []) => []
  | .chr p, (_, c :: t) => if p c then [(some c, t)] else []
  | .star p, (prev, t) => starEnds p prev t
  | .opt r, pos => ends r pos ++ [pos]
  | .seq r s, pos => (ends r pos).flatMap (ends s)
  | .alt r s, pos => ends r pos ++ ends s pos
  | .boundary, (prev, t) => if prev.any word != t.head?.any word then [(prev, t)] else []

/-- `Regex::is_match` from a position on. -/
def isMatchFrom (r : Regex α) : Option α → List α → Bool
  | prev, [] => !(ends word r (prev, [])).isEmpty
  | prev, c :: t => !(ends word r (prev, c :: t)).isEmpty || isMatchFrom r (some c) t

def isMatch (r : Regex α) (text : List α) : Bool := isMatchFrom word r none text

/-- `Regex::find_iter` from a position on: start and end of the successive matches.  The patterns
here never match the empty text. -/
def findIterFrom (r : Regex α) : ℕ → ℕ → Option α → List α → List (ℕ × ℕ)
  | 0, _, _, _ => []
  | fuel + 1, i, prev, t =>
    match ends word r (prev, t) with
    | (prev', t') :: _ => (i, i + (t.length - t'.length)) ::
        findIterFrom r fuel (i + (t.length - t'.length)) prev' t'
    | [] =>
      match t with
      | [] => []
      | c :: t => findIterFrom r fuel (i + 1) (some c) t

def findIter (r : Regex α) (text : List α) : List (ℕ × ℕ) :=
  findIterFrom word r (text.length + 1) 0 none text

/-- One symbol of each class in turn. -/
def lit : List (α → Bool) → Regex α
  | [] => .eps
  | p :: ps => .seq (.chr p) (lit ps)

def alts : List (Regex α) → Regex α
  | [] => .chr fun _ => false
  | r :: rs => .alt r (alts rs)

/-! ### What a match is -/

/-- The symbol before a position that stands behind `u`. -/
def lastOr (prev : Option α) (u : List α) : Option α := u.getLast?.or prev

@[simp] theorem lastOr_nil (prev : Option α) : lastOr prev [] = prev := rfl

theorem lastOr_cons (prev : Option α) (c : α) (u : List α) : lastOr prev (c :: u) = lastOr (some c) u := by
  cases u with
  | nil => rfl
  | cons d u => simp [lastOr, getLast?_cons_cons, Option.or_of_isSome]

theorem lastOr_append (prev : Option α) (u v : List α) : lastOr prev (u ++ v) = lastOr (lastOr prev u) v := by
  induction u generalizing prev with
  | nil => rfl
  | cons c u ih => rw [cons_append, lastOr_cons, lastOr_cons, ih]

variable {word} {prev prev' : Option α} {t t' : List α}

theorem mem_ends_chr {p : α → Bool} :
    (prev', t') ∈ ends word (.chr p) (prev, t) ↔ ∃ c, t = c :: t' ∧ p c = true ∧ prev' = some c := by
  cases t with
  | nil => simp [ends]
  | cons c t =>
    simp only [ends]
    split_ifs with hp
    · constructor
      · intro h
        obtain ⟨rfl, rfl⟩ := Prod.mk.inj (mem_singleton.mp h)
        exact ⟨c, rfl, hp, rfl⟩
      · rintro ⟨d, hd, -, rfl⟩
        obtain ⟨rfl, rfl⟩ := List.cons.inj hd
        exact mem_singleton_self _
    · constructor
      · intro h; cases h
      · rintro ⟨d, hd, hpd, -⟩
        obtain ⟨rfl, -⟩ := List.cons.inj hd
        exact absurd hpd hp

theorem mem_ends_star {p : α → Bool} : (prev', t') ∈ ends word (.star p) (prev, t) ↔
    ∃ u, t = u ++ t' ∧ (∀ c ∈ u, p c = true) ∧ prev' = lastOr prev u := by
  show (prev', t') ∈ starEnds p prev t ↔ _
  induction t generalizing prev with
  | nil =>
    simp only [starEnds, mem_singleton, Prod.mk.injEq, nil_eq, append_eq_nil_iff]
    constructor
    · rintro ⟨rfl, rfl⟩
      exact ⟨[], ⟨rfl, rfl⟩, by simp, rfl⟩
    · rintro ⟨u, ⟨rfl, rfl⟩, -, rfl⟩
      exact ⟨rfl, rfl⟩
  | cons c t ih =>
    rw [starEnds]
    split_ifs with hp
    · rw [mem_append, ih, mem_singleton, Prod.mk.injEq]
      constructor
      · rintro (⟨u, rfl, hu, rfl⟩ | ⟨rfl, rfl⟩)
        · refine ⟨c :: u, rfl, ?_, (lastOr_cons _ _ _).symm⟩
          exact forall_mem_cons.mpr ⟨hp, hu⟩
        · exact ⟨[], rfl, by simp, rfl⟩
      · rintro ⟨u, hu, hall, rfl⟩
        cases u with
        | nil => exact .inr ⟨rfl, hu.symm⟩
        | cons d u =>
          obtain ⟨rfl, rfl⟩ := List.cons.inj hu
          exact .inl ⟨u, rfl, (forall_mem_cons.mp hall).2, lastOr_cons _ _ _⟩
    · rw [mem_singleton, Prod.mk.injEq]
      constructor
      · rintro ⟨rfl, rfl⟩
        exact ⟨[], rfl, by simp, rfl⟩
      · rintro ⟨u, hu, hall, rfl⟩
        cases u with
        | nil => exact ⟨rfl, hu.symm⟩
        | cons d u =>
          obtain ⟨rfl, -⟩ := List.cons.inj hu
          exact absurd (forall_mem_cons.mp hall).1 hp

variable {r : Regex α} {pos' pos : Option α × List α}

theorem mem_ends_seq {s : Regex α} : pos' ∈ ends word (.seq r s) pos ↔ ∃ m ∈ ends word r pos, pos' ∈ ends word s m :=
  mem_flatMap

theorem mem_ends_alt {s : Regex α} :
    pos' ∈ ends word (.alt r s) pos ↔ pos' ∈ ends word r pos ∨ pos' ∈ ends word s pos :=
  mem_append

theorem mem_ends_alts {rs : List (Regex α)} : pos' ∈ ends word (alts rs) pos ↔ ∃ r ∈ rs, pos' ∈ ends word r pos := by
  induction rs with
  | nil =>
    obtain ⟨prev, t⟩ := pos
    cases t <;> simp [alts, ends]
  | cons r rs ih => rw [alts, mem_ends_alt, ih, exists_mem_cons_iff]

theorem mem_ends_boundary : pos' ∈ ends word (.boundary : Regex α) (prev, t) ↔
      pos' = (prev, t) ∧ prev.any word ≠ t.head?.any word := by
  simp only [ends, bne_iff_ne]
  split_ifs with h
  · simp [h]
  · simp [h]

theorem mem_ends_lit {ps : List (α → Bool)} : (prev', t') ∈ ends word (lit ps) (prev, t) ↔
    ∃ u, t = u ++ t' ∧ List.Forall₂ (fun p c => p c = true) ps u ∧ prev' = lastOr prev u := by
  induction ps generalizing prev t with
  | nil =>
    simp only [lit, ends, mem_singleton, Prod.mk.injEq, forall₂_nil_left_iff]
    constructor
    · rintro ⟨rfl, rfl⟩
      exact ⟨[], rfl, rfl, rfl⟩
    · rintro ⟨u, rfl, rfl, rfl⟩
      exact ⟨rfl, rfl⟩
  | cons p ps ih =>
    rw [lit, mem_ends_seq]
    constructor
    · rintro ⟨⟨prev₁, t₁⟩, h₁, h₂⟩
      obtain ⟨c, rfl, hp, rfl⟩ := mem_ends_chr.mp h₁
      obtain ⟨u, rfl, hu, rfl⟩ := ih.mp h₂
      exact ⟨c :: u, rfl, .cons hp hu, (lastOr_cons _ _ _).symm⟩
    · rintro ⟨u, rfl, hu, rfl⟩
      cases hu with
      | @cons _ c _ u hp hu =>
        exact ⟨(some c, u ++ t'), mem_ends_chr.mpr ⟨c, rfl, hp, rfl⟩,
          ih.mpr ⟨u, rfl, hu, lastOr_cons _ _ _⟩⟩

/-! ### Searching -/

theorem isMatchFrom_of_mem : ∀ {prev : Option α} {u : List α}, pos' ∈ ends word r (lastOr prev u, t) →
      isMatchFrom word r prev (u ++ t) = true := by
  intro prev u
  induction u generalizing prev with
  | nil =>
    intro h
    cases hends : ends word r (prev, t) with
    | nil => rw [lastOr_nil, hends] at h; cases h
    | cons e es => cases t <;> simp [isMatchFrom, hends]
  | cons c u ih =>
    intro h
    rw [lastOr_cons] at h
    rw [cons_append, isMatchFrom, ih h, Bool.or_true]

theorem exists_of_isMatchFrom (h : isMatchFrom word r prev t = true) :
    ∃ u t₁ e, t = u ++ t₁ ∧ e ∈ ends word r (lastOr prev u, t₁) := by
  induction t generalizing prev with
  | nil =>
    obtain ⟨e, he⟩ := exists_mem_of_ne_nil _ (by simpa [isMatchFrom] using h)
    exact ⟨[], [], e, rfl, he⟩
  | cons c t ih =>
    rw [isMatchFrom, Bool.or_eq_true] at h
    rcases h with h | h
    · obtain ⟨e, he⟩ := exists_mem_of_ne_nil _ (by simpa using h)
      exact ⟨[], c :: t, e, rfl, he⟩
    · obtain ⟨u, t₁, e, rfl, he⟩ := ih h
      exact ⟨c :: u, t₁, e, rfl, by rwa [lastOr_cons]⟩

theorem isMatchFrom_of_findIterFrom {fuel i : ℕ} (h : findIterFrom word r fuel i prev t ≠ []) :
    isMatchFrom word r prev t = true := by
  induction fuel generalizing i prev t with
  | zero => exact absurd rfl h
  | succ fuel ih =>
    cases hends : ends word r (prev, t) with
    | cons e es => cases t <;> simp [isMatchFrom, hends]
    | nil =>
      rw [findIterFrom.eq_def] at h
      simp only [hends] at h
      cases t with
      | nil => exact absurd rfl h
      | cons c t => rw [isMatchFrom, ih h, Bool.or_true]

end Regex

end McpToolkit.Lib
