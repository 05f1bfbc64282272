import McpToolkit.Lib.Text

/-!
# McpToolkit.Core.SearchQuery — negative intent in search queries

`normalize_ranked_query` of `tool_inventory.rs`, with the tokens and their variants.  Texts are lists of
characters; a set of action lexemes is a list without repetitions.

A query is read word by word.  A contraction is read as `not`; from a negation on, every word that is
not ignored excludes what it and its variants name.  `RuledOut` and `Dangling` say in terms of the words
what a reader of the query means by that, and `normalizeRankedQuery_excludes` that the loop finds it.
-/

namespace McpToolkit.Core.Search

open List
open Lib.Text

/-! ### Tokens -/

def truncateSearchText (value : List Char) (maxChars : ℕ) : List Char × Bool :=
  (value.take maxChars, maxChars < value.length)

/-- A cut inside a token removes what is left of the token. -/
def truncateSearchTextAtTokenBoundary (value : List Char) (maxChars : ℕ) : List Char × Bool :=
  let bounded := value.take maxChars
  match value.drop maxChars with
  | [] => (bounded, false)
  | next :: _ =>
    if next.isAlphanum && bounded.getLast?.any Char.isAlphanum then
      ((bounded.reverse.dropWhile Char.isAlphanum).reverse, true)
    else (bounded, true)

/-- `str::to_ascii_lowercase`. -/
def toAsciiLowercase (value : List Char) : List Char := value.map Char.toLower

def singularTable : List (String × List String) :=
  [("ads", ["ad"]), ("aliases", ["alias"]), ("analyses", ["analysis"]), ("apis", ["api"]),
    ("axes", ["axis", "axe"]), ("buses", ["bus"]), ("campaigns", ["campaign"]), ("canvases", ["canvas"]),
    ("capabilities", ["capability"]), ("categories", ["category"]), ("cookies", ["cookie"]),
    ("creatives", ["creative"]), ("dependencies", ["dependency"]), ("entries", ["entry"]),
    ("groups", ["group"]), ("ids", ["id"]), ("indices", ["index"]), ("items", ["item"]), ("jobs", ["job"]),
    ("keys", ["key"]), ("logs", ["log"]), ("matrices", ["matrix"]), ("movies", ["movie"]),
    ("networks", ["network"]), ("orders", ["order"]), ("pages", ["page"]), ("placements", ["placement"]),
    ("policies", ["policy"]), ("processes", ["process"]), ("queries", ["query"]), ("reports", ["report"]),
    ("repositories", ["repository"]), ("results", ["result"]), ("schemas", ["schema"]),
    ("searches", ["search"]), ("sessions", ["session"]), ("sizes", ["size"]), ("statuses", ["status"]),
    ("strategies", ["strategy"]), ("tables", ["table"]), ("tools", ["tool"]), ("uis", ["ui"]),
    ("units", ["unit"]), ("urls", ["url"])]

def singularSearchTokens (token : List Char) : List (List Char) :=
  (((singularTable.map fun row => (row.1.toList, row.2)).lookup token).getD []).map String.toList

/-- Adds the texts that are not there yet. -/
def pushNew (texts added : List (List Char)) : List (List Char) :=
  added.foldl (fun texts text => if texts.elem text then texts else texts ++ [text]) texts

def searchTokenVariants (raw : List Char) : List (List Char) :=
  let token := toAsciiLowercase (trim raw)
  if token.isEmpty then []
  else pushNew [token] ((singularSearchTokens token).filter fun singular => singular ≠ token)

def tokenizeSearchText (value : List Char) : List (List Char) :=
  (splitOnP (fun c => !c.isAlphanum) value).flatMap searchTokenVariants

def stripSuffix (ending : String) (value : List Char) : Option (List Char) :=
  if ending.toList.isSuffixOf value then some (value.take (value.length - ending.length)) else none

def endsWith (value : List Char) (ending : String) : Bool := ending.toList.isSuffixOf value

def stripDoubledFinalCharacter (value : List Char) : Option (List Char) :=
  match value.reverse with
  | last :: before :: _ => if before = last then some value.dropLast else none
  | _ => none

/-- What a stem of `-ing` or `-ed` may come from. -/
def stemCandidates (base : List Char) : List (List Char) :=
  [base, base ++ ['e']] ++ (if endsWith base "ck" then [base.dropLast] else []) ++
    (stripDoubledFinalCharacter base).toList

/-- The texts that `add_negative_action_variants` looks up among the action lexemes.  Tokens are ASCII,
so their bytes are their characters. -/
def inflectionCandidates (source : List Char) : List (List Char) :=
  (match (stripSuffix "ies" source).filter fun base => 2 ≤ base.length with
    | some base => [base ++ ['y']]
    | none =>
      ((stripSuffix "s" source).filter fun base => 3 ≤ base.length && !endsWith base "s").toList ++
        ((stripSuffix "es" source).filter fun base => 3 ≤ base.length).toList) ++
    (match (stripSuffix "ing" source).filter fun base => 3 ≤ base.length with
    | some base => stemCandidates base
    | none => []) ++
    match (stripSuffix "ied" source).filter fun base => 2 ≤ base.length with
    | some base => [base ++ ['y']]
    | none =>
      match (stripSuffix "ed" source).filter fun base => 3 ≤ base.length with
      | some base => stemCandidates base
      | none => []

def addNegativeActionVariants (source : List Char) (variants actionLexemes : List (List Char)) :
    List (List Char) :=
  pushNew variants ((inflectionCandidates source).filter fun candidate => actionLexemes.elem candidate)

def defaultSearchActionLexemes : List (List Char) :=
  ["add", "apply", "archive", "call", "close", "create", "deactivate", "delete", "destroy", "dispatch", "drop",
    "execute", "fetch", "find", "get", "ingest", "inspect", "invoke", "launch", "list", "mutate", "open",
    "plan", "preview", "publish", "purge", "push", "query", "read", "refresh", "remove", "rename", "retarget",
    "rotate", "run", "search", "select", "send", "start", "stop", "traffic", "unpublish", "update",
    "write"].map String.toList

/-! ### Classes of words -/

def isSearchNegationMarker (term : List Char) : Bool :=
  (["avoid", "except", "exclude", "excluding", "never", "no", "not", "without"].map String.toList).elem term

def isSearchNegationContinuation (term : List Char) : Bool :=
  (["and", "nor", "or"].map String.toList).elem term

def isSearchNegationContraction (term : List Char) : Bool :=
  (["arent", "cannot", "cant", "couldnt", "didnt", "doesnt", "dont", "hadnt", "hasnt", "havent", "aint", "isnt",
    "mustnt", "neednt", "shouldnt", "shant", "wasnt", "werent", "wont", "wouldnt"].map String.toList).elem term

def isSearchNegationContractionStem (term : List Char) : Bool :=
  (["aren", "can", "couldn", "didn", "doesn", "don", "hadn", "hasn", "haven", "ain", "isn", "mustn", "needn",
    "shouldn", "shan", "wasn", "weren", "won", "wouldn"].map String.toList).elem term

def isSearchNegationFiller (term : List Char) : Bool :=
  (["call", "accidentally", "actually", "any", "calling", "choose", "choosing", "invoke", "invoking", "ever",
    "select", "selecting", "tool", "tools", "use", "using"].map String.toList).elem term

def isSearchStopWord (term : List Char) : Bool :=
  (["a", "an", "and", "are", "be", "by", "can", "could", "do", "does", "for", "from", "have", "how", "i", "in",
    "is", "it", "me", "my", "of", "on", "only", "or", "please", "should", "show", "that", "the", "this", "to",
    "want", "we", "would", "with", "you", "your"].map String.toList).elem term

/-! ### Reading a query -/

structure RankedQueryConcept where
  source : List Char
  variants : List (List Char)
  deriving DecidableEq

structure NormalizedRankedQuery where
  positiveConcepts : List RankedQueryConcept
  excludedConcepts : List RankedQueryConcept
  ignoredTerms : List (List Char)
  positiveTermsTruncated : Bool
  excludedTermsTruncated : Bool
  ignoredTermsTruncated : Bool
  danglingNegation : Bool
  deriving DecidableEq

/-- The variables of the loop. -/
structure QueryState where
  positiveConcepts : List RankedQueryConcept
  excludedConcepts : List RankedQueryConcept
  ignoredTerms : List (List Char)
  positiveTermsTruncated : Bool
  excludedTermsTruncated : Bool
  ignoredTermsTruncated : Bool
  negativeScope : Bool
  negativeScopeHasExclusion : Bool
  deriving DecidableEq

def maxQueryTerms : ℕ := 32
def maxExcludedTerms : ℕ := 16
def maxIgnoredTerms : ℕ := 16

/-- The terms, and whether the new one had to be dropped. -/
def pushBoundedUnique (terms : List (List Char)) (term : List Char) (maxTerms : ℕ) : List (List Char) × Bool :=
  if terms.elem term then (terms, false)
  else if maxTerms ≤ terms.length then (terms, true)
  else (terms ++ [term], false)

/-- Adds the variants to the first concept that shares one; none if there is no such concept. -/
def mergeConcept (variants : List (List Char)) : List RankedQueryConcept → Option (List RankedQueryConcept)
  | [] => none
  | concept :: concepts =>
    if concept.variants.any fun variant => variants.elem variant then
      some ({ concept with variants := pushNew concept.variants variants } :: concepts)
    else (mergeConcept variants concepts).map (concept :: ·)

def pushQueryConcept (concepts : List RankedQueryConcept) (source : List Char) (variants : List (List Char))
    (maxConcepts : ℕ) : List RankedQueryConcept × Bool :=
  match mergeConcept variants concepts with
  | some concepts => (concepts, false)
  | none =>
    if maxConcepts ≤ concepts.length then (concepts, true) else (concepts ++ [⟨source, variants⟩], false)

section Query

variable (actionLexemes : List (List Char))

/-- The variants of a word in the scope of a negation. -/
def negativeVariants (raw : List Char) : List (List Char) :=
  addNegativeActionVariants raw (searchTokenVariants raw) actionLexemes

/-- A filler that is no action. -/
def isIgnoredFiller (raw : List Char) : Bool :=
  isSearchNegationFiller raw && !(negativeVariants actionLexemes raw).any fun variant => actionLexemes.elem variant

def QueryState.ignore (state : QueryState) (raw : List Char) : QueryState :=
  let pushed := pushBoundedUnique state.ignoredTerms raw maxIgnoredTerms
  { state with
    ignoredTerms := pushed.1
    ignoredTermsTruncated := state.ignoredTermsTruncated || pushed.2 }

/-- The body of the loop, from where contractions are replaced. -/
def QueryState.read (state : QueryState) (raw : List Char) : QueryState :=
  if raw.isEmpty then state
  else if isSearchNegationMarker raw then
    { state.ignore raw with negativeScope := true, negativeScopeHasExclusion := false }
  else if state.negativeScope && isSearchNegationContinuation raw then state.ignore raw
  else if state.negativeScope && isIgnoredFiller actionLexemes raw then state.ignore raw
  else if isSearchStopWord raw then state.ignore raw
  else if (searchTokenVariants raw).isEmpty then state
  else if state.negativeScope then
    let pushed := pushQueryConcept state.excludedConcepts raw (negativeVariants actionLexemes raw) maxExcludedTerms
    { state with
      excludedConcepts := pushed.1
      excludedTermsTruncated := state.excludedTermsTruncated || pushed.2
      negativeScopeHasExclusion := true }
  else
    let pushed := pushQueryConcept state.positiveConcepts raw (searchTokenVariants raw) maxQueryTerms
    { state with
      positiveConcepts := pushed.1
      positiveTermsTruncated := state.positiveTermsTruncated || pushed.2 }

/-- The loop.  A stem takes a `t` behind it. -/
def QueryState.readAll : QueryState → List (List Char) → QueryState
  | state, [] => state
  | state, [raw] => state.read actionLexemes (if isSearchNegationContraction raw then "not".toList else raw)
  | state, raw :: next :: rest =>
    if isSearchNegationContractionStem raw && next == ['t'] then
      QueryState.readAll (state.read actionLexemes "not".toList) rest
    else
      QueryState.readAll
        (state.read actionLexemes (if isSearchNegationContraction raw then "not".toList else raw)) (next :: rest)

def QueryState.start : QueryState := ⟨[], [], [], false, false, false, false, false⟩

def queryWords (query : List Char) : List (List Char) :=
  (((splitOnP (fun c => !c.isAlphanum) query).map trim).filter fun word => !word.isEmpty).map toAsciiLowercase

def normalizeRankedQuery (query : List Char) : NormalizedRankedQuery :=
  let state := QueryState.start.readAll actionLexemes (queryWords query)
  { positiveConcepts := state.positiveConcepts
    excludedConcepts := state.excludedConcepts
    ignoredTerms := state.ignoredTerms
    positiveTermsTruncated := state.positiveTermsTruncated
    excludedTermsTruncated := state.excludedTermsTruncated
    ignoredTermsTruncated := state.ignoredTermsTruncated
    danglingNegation := state.negativeScope && !state.negativeScopeHasExclusion }

end Query

/-! ### What a query rules out -/

/-- A marker, a contraction in one word, or a stem with its `t`. -/
inductive IsNegation : List (List Char) → Prop
  | marker {word : List Char} : isSearchNegationMarker word = true → IsNegation [word]
  | contraction {word : List Char} : isSearchNegationContraction word = true → IsNegation [word]
  | stem {word : List Char} : isSearchNegationContractionStem word = true → IsNegation [word, ['t']]

/-- A continuation, a filler that is no action, or a stop word. -/
def Ignorable (actionLexemes : List (List Char)) (word : List Char) : Prop :=
  isSearchNegationContinuation word = true ∨ isIgnoredFiller actionLexemes word = true ∨
    isSearchStopWord word = true

/-- The word comes after a negation, belongs to none itself, and is not ignored. -/
def RuledOut (actionLexemes words : List (List Char)) (word : List Char) : Prop :=
  ∃ before negation between after, words = before ++ negation ++ between ++ word :: after ∧
    IsNegation negation ∧ ¬(word = ['t'] ∧ between.getLast?.any isSearchNegationContractionStem = true) ∧
    ¬IsNegation [word] ∧ ¬(isSearchNegationContractionStem word = true ∧ after.head? = some ['t']) ∧
    ¬Ignorable actionLexemes word

variable {text word : List Char} {actionLexemes : List (List Char)} {piece : List Char}

theorem RuledOut.mem {words : List (List Char)} (h : RuledOut actionLexemes words word) : word ∈ words := by
  obtain ⟨before, negation, between, after, rfl, -⟩ := h
  exact mem_append_right _ mem_cons_self

/-- Behind the last negation, every word is ignored. -/
def Dangling (actionLexemes words : List (List Char)) : Prop :=
  ∃ before negation after, words = before ++ negation ++ after ∧ IsNegation negation ∧
    ∀ word ∈ after, Ignorable actionLexemes word

/-! ### Contractions -/

def expandContraction (raw : List Char) : List Char :=
  if isSearchNegationContraction raw then "not".toList else raw

/-- The words that the loop reads. -/
def foldContractions : List (List Char) → List (List Char)
  | [] => []
  | [raw] => [expandContraction raw]
  | raw :: next :: rest =>
    if isSearchNegationContractionStem raw && next == ['t'] then "not".toList :: foldContractions rest
    else expandContraction raw :: foldContractions (next :: rest)

theorem readAll_eq (actionLexemes : List (List Char)) (state : QueryState) (words : List (List Char)) :
    state.readAll actionLexemes words = (foldContractions words).foldl (QueryState.read actionLexemes) state := by
  fun_induction QueryState.readAll actionLexemes state words with
  | case1 state => rfl
  | case2 state raw => rfl
  | case3 state raw next rest h ih =>
    rw [foldContractions, if_pos h]
    exact ih
  | case4 state raw next rest h ih =>
    rw [foldContractions, if_neg h]
    exact ih

theorem foldContractions_cons {rest : List (List Char)}
    (h : ¬(isSearchNegationContractionStem word = true ∧ rest.head? = some ['t'])) :
    foldContractions (word :: rest) = expandContraction word :: foldContractions rest := by
  cases rest with
  | nil => rfl
  | cons next rest =>
    rw [foldContractions, if_neg]
    rw [Bool.and_eq_true, beq_iff_eq]
    exact fun hstem => h ⟨hstem.1, congrArg some hstem.2⟩

theorem foldContractions_append (words rest : List (List Char))
    (h : ¬(words.getLast?.any isSearchNegationContractionStem = true ∧ rest.head? = some ['t'])) :
    foldContractions (words ++ rest) = foldContractions words ++ foldContractions rest := by
  fun_induction foldContractions words with
  | case1 => rfl
  | case2 raw => exact foldContractions_cons h
  | case3 raw next words hstem ih =>
    rw [cons_append, cons_append, foldContractions, if_pos hstem, cons_append, ih]
    rintro ⟨hlast, hhead⟩
    cases words with
    | nil => cases hlast
    | cons word words => exact h ⟨by simpa using hlast, hhead⟩
  | case4 raw next words hstem ih =>
    rw [cons_append, cons_append, foldContractions, if_neg hstem, cons_append]
    rw [← cons_append, ih]
    exact fun hcut => h ⟨by simpa using hcut.1, hcut.2⟩

theorem forall_of_elem {l : List (List Char)} {P : List Char → Prop} (h : l.elem word = true)
    (hall : ∀ w ∈ l, P w) : P word :=
  hall word (elem_iff.mp h)

theorem IsNegation.fold {negation : List (List Char)} (h : IsNegation negation) :
    (∃ marker, isSearchNegationMarker marker = true ∧ foldContractions negation = [marker]) ∧
      negation.getLast?.any isSearchNegationContractionStem = false ∧ negation.head? ≠ some ['t'] := by
  cases h with
  | marker hmarker =>
    refine ⟨⟨_, ?_, rfl⟩, forall_of_elem (P := fun w => isSearchNegationContractionStem w = false) hmarker (by decide),
      fun hhead => ?_⟩
    · unfold expandContraction
      split_ifs
      · decide
      · exact hmarker
    · rw [Option.some.inj hhead] at hmarker
      exact absurd hmarker (by decide)
  | contraction hword =>
    refine ⟨⟨_, ?_, rfl⟩, forall_of_elem (P := fun w => isSearchNegationContractionStem w = false) hword (by decide),
      fun hhead => ?_⟩
    · rw [expandContraction, if_pos hword]
      decide
    · rw [Option.some.inj hhead] at hword
      exact absurd hword (by decide)
  | stem hstem =>
    refine ⟨⟨"not".toList, by decide, ?_⟩, rfl, fun hhead => ?_⟩
    · rw [foldContractions, hstem]
      rfl
    · rw [Option.some.inj hhead] at hstem
      exact absurd hstem (by decide)

theorem foldContractions_negation {negation : List (List Char)} (h : IsNegation negation)
    (before after : List (List Char)) : ∃ marker, isSearchNegationMarker marker = true ∧
      foldContractions (before ++ negation ++ after) = foldContractions before ++ marker :: foldContractions after := by
  obtain ⟨⟨marker, hmarker, hfold⟩, hlast, hhead⟩ := h.fold
  have hne : negation ≠ [] := by cases h <;> exact cons_ne_nil _ _
  refine ⟨marker, hmarker, ?_⟩
  rw [foldContractions_append, foldContractions_append, hfold, append_assoc, singleton_append]
  · exact fun hcut => hhead hcut.2
  · rintro ⟨hcut, -⟩
    rw [getLast?_append_of_ne_nil _ hne, hlast] at hcut
    cases hcut

/-- The word is no part of a negation. -/
abbrev IsPlain (word : List Char) : Prop :=
  isSearchNegationContraction word = false ∧ isSearchNegationMarker word = false ∧ word ≠ ['t']

theorem Ignorable.plain (h : Ignorable actionLexemes word) : IsPlain word := by
  obtain h | h | h := h
  · exact forall_of_elem h (by decide)
  · rw [isIgnoredFiller, Bool.and_eq_true] at h
    exact forall_of_elem h.1 (by decide)
  · exact forall_of_elem h (by decide)

theorem foldContractions_ignorable :
    ∀ {words : List (List Char)}, (∀ word ∈ words, Ignorable actionLexemes word) → foldContractions words = words
  | [], _ => rfl
  | word :: words, h => by
    have hrest := fun w hw => h w (mem_cons_of_mem _ hw)
    rw [foldContractions_cons, foldContractions_ignorable hrest, expandContraction, (h word mem_cons_self).plain.1]
    · rfl
    · rintro ⟨-, hhead⟩
      exact (hrest _ (mem_of_head? hhead)).plain.2.2 rfl

/-! ### Concepts -/

theorem mem_pushNew {texts added : List (List Char)} : text ∈ pushNew texts added ↔ text ∈ texts ∨ text ∈ added := by
  unfold pushNew
  induction added generalizing texts with
  | nil => simp
  | cons head added ih =>
    rw [foldl_cons, ih, mem_cons]
    by_cases hmem : texts.elem head = true
    · rw [if_pos hmem]
      constructor
      · exact fun h => h.imp id .inr
      · rintro (h | rfl | h)
        · exact .inl h
        · exact .inl (elem_iff.mp hmem)
        · exact .inr h
    · rw [if_neg hmem, mem_append, mem_singleton, or_assoc]

/-- A text that a concept excludes. -/
def Covers (concepts : List RankedQueryConcept) (text : List Char) : Prop :=
  ∃ concept ∈ concepts, text ∈ concept.variants

theorem covers_cons {concept : RankedQueryConcept} {concepts : List RankedQueryConcept} :
    Covers (concept :: concepts) text ↔ text ∈ concept.variants ∨ Covers concepts text :=
  exists_mem_cons_iff ..

theorem covers_mergeConcept {variants : List (List Char)} :
    ∀ {concepts concepts' : List RankedQueryConcept}, mergeConcept variants concepts = some concepts' →
      (Covers concepts' text ↔ Covers concepts text ∨ text ∈ variants)
  | [], _, h => by cases h
  | concept :: concepts, concepts', h => by
    unfold mergeConcept at h
    split_ifs at h with hshares
    · obtain rfl := Option.some.inj h
      rw [covers_cons, covers_cons, mem_pushNew]
      tauto
    · obtain ⟨merged, hmerged, rfl⟩ := Option.map_eq_some_iff.mp h
      rw [covers_cons, covers_cons, covers_mergeConcept hmerged, or_assoc]

theorem covers_pushQueryConcept (concepts : List RankedQueryConcept) (source : List Char)
    (variants : List (List Char)) (maxConcepts : ℕ) :
    Covers (pushQueryConcept concepts source variants maxConcepts).1 text ↔ Covers concepts text ∨
        (pushQueryConcept concepts source variants maxConcepts).2 = false ∧ text ∈ variants := by
  unfold pushQueryConcept
  cases hmerge : mergeConcept variants concepts with
  | some merged => simpa using covers_mergeConcept hmerge
  | none =>
    split_ifs
    · simp
    · simp [Covers, or_and_right, exists_or]

/-! ### The loop -/

section Loop

variable {actionLexemes : List (List Char)} {state state' : QueryState} {raw : List Char}

/-- What the loop never takes back. -/
structure Grows (state state' : QueryState) : Prop where
  scope : state.negativeScope = true → state'.negativeScope = true
  truncated : state.excludedTermsTruncated = true → state'.excludedTermsTruncated = true
  covers : ∀ text, Covers state.excludedConcepts text → Covers state'.excludedConcepts text

theorem Grows.refl (state : QueryState) : Grows state state := ⟨id, id, fun _ => id⟩

theorem Grows.trans {state'' : QueryState} (h : Grows state state') (h' : Grows state' state'') : Grows state state'' :=
  ⟨h'.scope ∘ h.scope, h'.truncated ∘ h.truncated, fun text => h'.covers text ∘ h.covers text⟩

theorem grows_ignore (state : QueryState) (raw : List Char) : Grows state (state.ignore raw) :=
  ⟨id, id, fun _ => id⟩

theorem grows_read (actionLexemes : List (List Char)) (state : QueryState) (raw : List Char) :
    Grows state (state.read actionLexemes raw) := by
  unfold QueryState.read
  split_ifs
  · exact .refl state
  · exact ⟨fun _ => rfl, id, fun _ => id⟩
  · exact grows_ignore state raw
  · exact grows_ignore state raw
  · exact grows_ignore state raw
  · exact .refl state
  · refine ⟨id, fun h => ?_, fun text h => ?_⟩
    · dsimp only
      rw [h, Bool.true_or]
    · exact (covers_pushQueryConcept ..).mpr (.inl h)
  · exact ⟨id, id, fun _ => id⟩

theorem grows_foldl (actionLexemes words : List (List Char)) (state : QueryState) :
    Grows state (words.foldl (QueryState.read actionLexemes) state) := by
  induction words generalizing state with
  | nil => exact .refl state
  | cons word words ih => exact (grows_read actionLexemes state word).trans (ih _)

theorem read_marker (actionLexemes : List (List Char)) (state : QueryState)
    (h : isSearchNegationMarker raw = true) : (state.read actionLexemes raw).negativeScope = true ∧
      (state.read actionLexemes raw).negativeScopeHasExclusion = false := by
  have hne : raw.isEmpty = false := forall_of_elem (P := fun w => w.isEmpty = false) h (by decide)
  rw [QueryState.read, if_neg (by rw [hne]; exact Bool.false_ne_true), if_pos h]
  exact ⟨rfl, rfl⟩

section

variable (hscope : state.negativeScope = true)
include hscope

theorem read_ignorable (h : Ignorable actionLexemes raw) : (state.read actionLexemes raw).negativeScope = true ∧
      (state.read actionLexemes raw).negativeScopeHasExclusion = state.negativeScopeHasExclusion := by
  have hmarker : ¬isSearchNegationMarker raw = true := Bool.eq_false_iff.mp h.plain.2.1
  by_cases hempty : raw.isEmpty = true
  · rw [QueryState.read, if_pos hempty]
    exact ⟨hscope, rfl⟩
  · rw [QueryState.read, if_neg hempty, if_neg hmarker]
    split_ifs with hcontinues hfiller hstop
    · exact ⟨hscope, rfl⟩
    · exact ⟨hscope, rfl⟩
    · exact ⟨hscope, rfl⟩
    all_goals
      rw [hscope] at hcontinues hfiller
      exact absurd h (by rintro (h | h | h) <;> contradiction)

theorem foldl_ignorable (words : List (List Char)) (h : ∀ word ∈ words, Ignorable actionLexemes word) :
    (words.foldl (QueryState.read actionLexemes) state).negativeScope = true ∧
      (words.foldl (QueryState.read actionLexemes) state).negativeScopeHasExclusion =
        state.negativeScopeHasExclusion := by
  induction words generalizing state with
  | nil => exact ⟨hscope, rfl⟩
  | cons word words ih =>
    obtain ⟨hscope', hsame⟩ := read_ignorable hscope (h word mem_cons_self)
    obtain ⟨hscope'', hsame'⟩ := ih hscope' fun w hw => h w (mem_cons_of_mem _ hw)
    exact ⟨hscope'', hsame'.trans hsame⟩

theorem read_excluded (hmarker : isSearchNegationMarker raw = false)
    (h : ¬Ignorable actionLexemes raw) (hne : searchTokenVariants raw ≠ []) :
    (state.read actionLexemes raw).excludedTermsTruncated = true ∨
      ∀ text ∈ negativeVariants actionLexemes raw, Covers (state.read actionLexemes raw).excludedConcepts text := by
  have hempty : ¬raw.isEmpty = true := by
    rintro hempty
    rw [List.isEmpty_iff.mp hempty] at hne
    exact hne rfl
  have hcontinues : ¬(state.negativeScope && isSearchNegationContinuation raw) = true := by
    rw [hscope]
    exact fun hc => h (.inl hc)
  have hfiller : ¬(state.negativeScope && isIgnoredFiller actionLexemes raw) = true := by
    rw [hscope]
    exact fun hf => h (.inr (.inl hf))
  rw [QueryState.read, if_neg hempty, if_neg (Bool.eq_false_iff.mp hmarker), if_neg hcontinues, if_neg hfiller,
    if_neg fun hs => h (.inr (.inr hs)), if_neg fun hv => hne (List.isEmpty_iff.mp hv), if_pos hscope]
  dsimp only
  cases hpushed : (pushQueryConcept state.excludedConcepts raw (negativeVariants actionLexemes raw)
      maxExcludedTerms).2 with
  | true => exact .inl (Bool.or_true _)
  | false => exact .inr fun text htext => (covers_pushQueryConcept ..).mpr (.inr ⟨hpushed, htext⟩)

end

theorem foldl_excluded {before between after : List (List Char)} {marker : List Char} (state : QueryState)
    (hmarker : isSearchNegationMarker marker = true) (hraw : isSearchNegationMarker raw = false)
    (h : ¬Ignorable actionLexemes raw) (hne : searchTokenVariants raw ≠ []) :
    (((before ++ marker :: between) ++ raw :: after).foldl (QueryState.read actionLexemes)
        state).excludedTermsTruncated = true ∨ ∀ text ∈ negativeVariants actionLexemes raw,
        Covers (((before ++ marker :: between) ++ raw :: after).foldl (QueryState.read actionLexemes)
          state).excludedConcepts text := by
  rw [foldl_append, foldl_append, foldl_cons, foldl_cons]
  generalize before.foldl (QueryState.read actionLexemes) state = state₁
  have hscope := (grows_foldl actionLexemes between _).scope (read_marker actionLexemes state₁ hmarker).1
  generalize between.foldl (QueryState.read actionLexemes) (state₁.read actionLexemes marker) = state₂ at hscope ⊢
  have hrest := grows_foldl actionLexemes after (state₂.read actionLexemes raw)
  obtain htruncated | hcovers := read_excluded hscope hraw h hne
  · exact .inl (hrest.truncated htruncated)
  · exact .inr fun text htext => hrest.covers text (hcovers text htext)

end Loop

/-! ### Words -/

theorem isAlphanum_lt {c : Char} (h : c.isAlphanum = true) : c.toNat < 128 := by
  have hranges : (decide (65 ≤ c.val ∧ c.val ≤ 90) || (decide (97 ≤ c.val) && decide (c.val ≤ 122)) ||
      (decide (48 ≤ c.val) && decide (c.val ≤ 57))) = true := h
  simp only [Bool.or_eq_true, Bool.and_eq_true, decide_eq_true_eq, UInt32.le_iff_toNat_le, UInt32.reduceToNat]
    at hranges
  have hval : c.toNat = c.val.toNat := rfl
  omega

theorem alphanum_facts {c : Char} (h : c.isAlphanum = true) :
    isWhitespace c = false ∧ c.toLower.isAlphanum = true ∧ c.toLower.toLower = c.toLower :=
  forall_ascii (P := fun c => c.isAlphanum = true →
      isWhitespace c = false ∧ c.toLower.isAlphanum = true ∧ c.toLower.toLower = c.toLower)
    (by decide) (isAlphanum_lt h) h

/-- The words of a text: its maximal runs of ASCII letters and digits, in lower case. -/
def words (text : List Char) : List (List Char) :=
  ((splitOnP (fun c => !c.isAlphanum) text).filter fun word => !word.isEmpty).map toAsciiLowercase

theorem isAlphanum_of_mem_splitOnP (h : piece ∈ splitOnP (fun c => !c.isAlphanum) text) :
    ∀ c ∈ piece, c.isAlphanum = true := fun c hc => by simpa using eq_false_of_mem_splitOnP h c hc

theorem trim_alphanum (h : ∀ c ∈ piece, c.isAlphanum = true) : trim piece = piece :=
  trimBy_of_forall fun c hc => (alphanum_facts (h c hc)).1

theorem queryWords_eq (query : List Char) : queryWords query = words query := by
  have htrim : (splitOnP (fun c => !c.isAlphanum) query).map trim = splitOnP (fun c => !c.isAlphanum) query :=
    (map_congr_left fun piece hpiece => trim_alphanum (isAlphanum_of_mem_splitOnP hpiece)).trans (List.map_id _)
  rw [queryWords, htrim, words]

theorem mem_searchTokenVariants (h : ∀ c ∈ piece, c.isAlphanum = true) (hne : piece ≠ []) :
    toAsciiLowercase piece ∈ searchTokenVariants piece := by
  unfold searchTokenVariants
  rw [trim_alphanum h, if_neg]
  · exact mem_pushNew.mpr (.inl (mem_singleton_self _))
  · rw [List.isEmpty_iff, toAsciiLowercase, map_eq_nil_iff]
    exact hne

theorem of_mem_words (h : word ∈ words text) :
    ∃ piece ∈ splitOnP (fun c => !c.isAlphanum) text, piece ≠ [] ∧ (∀ c ∈ piece, c.isAlphanum = true) ∧
      toAsciiLowercase piece = word := by
  obtain ⟨piece, hpiece, rfl⟩ := mem_map.mp h
  obtain ⟨hmem, hne⟩ := mem_filter.mp hpiece
  refine ⟨piece, hmem, ?_, isAlphanum_of_mem_splitOnP hmem, rfl⟩
  rintro rfl
  cases hne

theorem words_eq_nil (h : (trim text).isEmpty = true) : words text = [] := by
  rw [trim, isEmpty_trimBy, all_eq_true] at h
  refine eq_nil_iff_forall_not_mem.mpr fun word hword => ?_
  obtain ⟨piece, hpiece, hne, halnum, -⟩ := of_mem_words hword
  obtain ⟨c, rest, rfl⟩ := exists_cons_of_ne_nil hne
  have hblank := h c (mem_of_mem_splitOnP hpiece mem_cons_self)
  rw [(alphanum_facts (halnum c mem_cons_self)).1] at hblank
  cases hblank

theorem mem_tokenizeSearchText (h : word ∈ words text) : word ∈ tokenizeSearchText text := by
  obtain ⟨piece, hpiece, hne, halnum, rfl⟩ := of_mem_words h
  exact mem_flatMap.mpr ⟨piece, hpiece, mem_searchTokenVariants halnum hne⟩

theorem mem_searchTokenVariants_self (h : word ∈ words text) : word ∈ searchTokenVariants word := by
  obtain ⟨piece, -, hne, halnum, rfl⟩ := of_mem_words h
  have hlower : ∀ c ∈ toAsciiLowercase piece, c.isAlphanum = true := by
    intro c hc
    obtain ⟨d, hd, rfl⟩ := mem_map.mp hc
    exact (alphanum_facts (halnum d hd)).2.1
  have hidem : toAsciiLowercase (toAsciiLowercase piece) = toAsciiLowercase piece := by
    rw [toAsciiLowercase, toAsciiLowercase, map_map]
    exact map_congr_left fun c hc => (alphanum_facts (halnum c hc)).2.2
  have hmem := mem_searchTokenVariants hlower (by rw [toAsciiLowercase, Ne, map_eq_nil_iff]; exact hne)
  rw [hidem] at hmem
  exact hmem

theorem mem_negativeVariants_self (actionLexemes : List (List Char)) (h : word ∈ words text) :
    word ∈ negativeVariants actionLexemes word :=
  mem_pushNew.mpr (.inl (mem_searchTokenVariants_self h))

/-! ### Whole queries -/

/-- **The loop excludes what the query rules out**, or says that it had to drop a word. -/
theorem normalizeRankedQuery_excludes {query : List Char} (h : RuledOut actionLexemes (words query) word) :
    (normalizeRankedQuery actionLexemes query).excludedTermsTruncated = true ∨
      ∀ text ∈ negativeVariants actionLexemes word,
        Covers (normalizeRankedQuery actionLexemes query).excludedConcepts text := by
  have hword := h.mem
  obtain ⟨before, negation, between, after, hwords, hnegation, htail, hplain, hstem, hignorable⟩ := h
  obtain ⟨marker, hmarker, hfold⟩ := foldContractions_negation hnegation before between
  have hread : foldContractions (words query) =
      (foldContractions before ++ marker :: foldContractions between) ++ word :: foldContractions after := by
    rw [hwords, foldContractions_append, hfold, foldContractions_cons hstem, expandContraction, if_neg]
    · exact fun hcontraction => hplain (.contraction hcontraction)
    · rintro ⟨hlast, hhead⟩
      cases between with
      | nil =>
        have hne : negation ≠ [] := by cases hnegation <;> exact cons_ne_nil _ _
        rw [append_nil, getLast?_append_of_ne_nil _ hne, hnegation.fold.2.1] at hlast
        cases hlast
      | cons first between =>
        rw [getLast?_append_of_ne_nil _ (cons_ne_nil _ _)] at hlast
        exact htail ⟨Option.some.inj hhead, hlast⟩
  unfold normalizeRankedQuery
  rw [queryWords_eq, readAll_eq, hread]
  exact foldl_excluded .start hmarker (Bool.eq_false_iff.mpr fun hm => hplain (.marker hm)) hignorable
    (ne_nil_of_mem (mem_searchTokenVariants_self hword))

theorem normalizeRankedQuery_dangling {query : List Char} (h : Dangling actionLexemes (words query)) :
    (normalizeRankedQuery actionLexemes query).danglingNegation = true := by
  obtain ⟨before, negation, after, hwords, hnegation, hafter⟩ := h
  obtain ⟨marker, hmarker, hfold⟩ := foldContractions_negation hnegation before after
  unfold normalizeRankedQuery
  dsimp only
  rw [queryWords_eq, readAll_eq, hwords, hfold, foldContractions_ignorable hafter, foldl_append, foldl_cons]
  obtain ⟨hscope, hnone⟩ := read_marker actionLexemes
    ((foldContractions before).foldl (QueryState.read actionLexemes) .start) hmarker
  obtain ⟨hscope', hsame⟩ := foldl_ignorable hscope after hafter
  rw [hscope', hsame, hnone]
  rfl

end McpToolkit.Core.Search
