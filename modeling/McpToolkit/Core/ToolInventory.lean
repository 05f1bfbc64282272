import Mathlib.Data.Char
import Mathlib.Data.List.Dedup
import Mathlib.Data.List.Lex
import Mathlib.Data.List.Sort
import McpToolkit.Core.SearchQuery

/-!
# McpToolkit.Core.ToolInventory — ranked search over a tool inventory

`ToolInventory::search_ranked` of `tool_inventory.rs`, with registration and the inventory policy.  Hash
sets and the map of the inventory are lists, whose order nothing depends on: `capabilities` sorts by
name, and the lexemes of a tool are sorted before they are used.

A search excludes what its query rules out, over the whole text of a tool and not only over the part
that is compared: where a text, a set of lexemes or the query had to be cut, nothing is returned
(`searchRanked_excludes`).
-/

namespace McpToolkit.Core.Search

open List
open Lib.Text

/-! ### Tools -/

inductive ToolOperation
  | list
  | call
  deriving DecidableEq

inductive ToolExposure
  | all
  | listOnly
  | callOnly
  | disabled
  deriving DecidableEq

def ToolExposure.allows : ToolExposure → ToolOperation → Bool
  | .all, _ => true
  | .listOnly, .list => true
  | .callOnly, .call => true
  | _, _ => false

inductive GuardedActionOperationClass
  | read
  | sensitiveRead
  | noMutationProof
  | preview
  | guardedApply
  | mutating
  | destructive
  | sendAdjacent
  deriving DecidableEq

structure GuardedActionPosture where
  operationClass : GuardedActionOperationClass
  requiresRuntimeEnablement : Bool
  writesEnabledByDefault : Bool
  postApplyReadbackRequired : Bool
  deriving DecidableEq

structure ToolDiscoveryMetadata where
  description : List Char
  keywords : List (List Char)
  deriving DecidableEq

structure ToolCapability where
  name : List Char
  group : Option (List Char)
  readOnly : Bool
  featureFlag : Option (List Char)
  exposure : ToolExposure
  discovery : Option ToolDiscoveryMetadata
  riskPosture : Option GuardedActionPosture
  actionLexemes : List (List Char)
  actionLexemesTruncated : Bool
  deriving DecidableEq

def ToolCapability.new (name : List Char) : ToolCapability := ⟨name, none, false, none, .all, none, none, [], false⟩

def maxActionLexemesPerCapability : ℕ := 32
def maxActionLexemesTotal : ℕ := 256
def minActionLexemeChars : ℕ := 3
def maxActionLexemeChars : ℕ := 64

/-- One lexeme of `with_action_lexemes`. -/
def ToolCapability.addActionLexeme (capability : ToolCapability) (raw : List Char) : ToolCapability :=
  let bounded := truncateSearchText raw maxActionLexemeChars
  let lexeme := toAsciiLowercase (trim bounded.1)
  if bounded.2 || utf8Length lexeme < minActionLexemeChars || !lexeme.all Char.isAlphanum then
    { capability with actionLexemesTruncated := true }
  else if capability.actionLexemes.length = maxActionLexemesPerCapability &&
      !capability.actionLexemes.elem lexeme then
    { capability with actionLexemesTruncated := true }
  else { capability with actionLexemes := pushNew capability.actionLexemes [lexeme] }

def ToolCapability.withActionLexemes (capability : ToolCapability) (lexemes : List (List Char)) : ToolCapability :=
  let added := (lexemes.take maxActionLexemesPerCapability).foldl ToolCapability.addActionLexeme capability
  if maxActionLexemesPerCapability < lexemes.length then { added with actionLexemesTruncated := true } else added

/-! ### Policy -/

structure ToolInventoryPolicy where
  allowedGroups : Option (List (List Char))
  readOnlyOnly : Bool
  enabledFeatureFlags : List (List Char)
  includeUnregistered : Bool
  deriving DecidableEq

def ToolInventoryPolicy.strict : ToolInventoryPolicy := ⟨none, false, [], false⟩

inductive ToolInventoryDenialReason
  | blankToolName
  | unregisteredTool
  | exposureDisabled
  | readOnlyProfile
  | groupNotAllowed
  | featureFlagDisabled
  deriving DecidableEq

def ToolInventoryPolicy.groupDenied (policy : ToolInventoryPolicy) (capability : ToolCapability) : Bool :=
  policy.allowedGroups.any fun groups =>
    match capability.group with
    | none => true
    | some group => !groups.elem group

def ToolInventoryPolicy.denialReason (policy : ToolInventoryPolicy) (capability : ToolCapability)
    (operation : ToolOperation) : Option ToolInventoryDenialReason :=
  if !capability.exposure.allows operation then some .exposureDisabled
  else if policy.readOnlyOnly && !capability.readOnly then some .readOnlyProfile
  else if policy.groupDenied capability then some .groupNotAllowed
  else if capability.featureFlag.any fun flag => !policy.enabledFeatureFlags.elem flag then
    some .featureFlagDisabled
  else none

def ToolInventoryPolicy.allowsCapability (policy : ToolInventoryPolicy) (capability : ToolCapability)
    (operation : ToolOperation) : Bool :=
  (policy.denialReason capability operation).isNone

/-! ### The inventory -/

/-- Tools have different names. -/
structure ToolInventory where
  entries : List ToolCapability
  names_nodup : (entries.map ToolCapability.name).Nodup

def ToolInventory.empty : ToolInventory := ⟨[], nodup_nil⟩

structure ToolInventoryError where
  code : String
  message : List Char
  deriving DecidableEq

def normalizeNonEmpty (field : String) (value : List Char) : Except ToolInventoryError (List Char) :=
  if (trim value).isEmpty then
    .error ⟨"TOOL_INVENTORY_INVALID_VALUE", field.toList ++ " must not be empty; got '".toList ++ value ++ "'".toList⟩
  else .ok (trim value)

def normalizeOptional (field : String) : Option (List Char) → Except ToolInventoryError (Option (List Char))
  | none => .ok none
  | some value => (normalizeNonEmpty field value).map some

def ToolInventory.register (inventory : ToolInventory) (capability : ToolCapability) :
    Except ToolInventoryError ToolInventory :=
  (normalizeNonEmpty "tool name" capability.name).bind fun name =>
    if h : name ∈ inventory.entries.map ToolCapability.name then
      .error ⟨"TOOL_INVENTORY_DUPLICATE_NAME",
        "tool inventory contains duplicate registration for '".toList ++ name ++ "'".toList⟩
    else
      (normalizeOptional "tool group" capability.group).bind fun group =>
        (normalizeOptional "feature flag" capability.featureFlag).bind fun featureFlag =>
          .ok ⟨{ capability with name := name, group := group, featureFlag := featureFlag } :: inventory.entries,
            nodup_cons.mpr ⟨h, inventory.names_nodup⟩⟩

def ToolInventory.capabilities (inventory : ToolInventory) : List ToolCapability :=
  inventory.entries.insertionSort fun left right => left.name ≤ right.name

/-! ### Documents -/

def maxGroupChars : ℕ := 128
def maxDescriptionChars : ℕ := 512
def maxKeywords : ℕ := 32
def maxKeywordChars : ℕ := 128
def maxToolNameChars : ℕ := 256

structure RankedCapabilityDocument where
  capability : ToolCapability
  nameTerms : List (List Char)
  groupTerms : List (List Char)
  descriptionTerms : List (List Char)
  keywordTerms : List (List Char)
  exclusionTerms : List (List Char)
  metadataTruncated : Bool
  nameSelectable : Bool
  deriving DecidableEq

namespace RankedCapabilityDocument

/-- Some of the discovery texts are too long. -/
def discoveryTruncated (discovery : ToolDiscoveryMetadata) : Bool :=
  (truncateSearchTextAtTokenBoundary discovery.description maxDescriptionChars).2 ||
    decide (maxKeywords < discovery.keywords.length) ||
    (discovery.keywords.take maxKeywords).any fun keyword =>
      (truncateSearchTextAtTokenBoundary keyword maxKeywordChars).2

def new (capability : ToolCapability) : RankedCapabilityDocument :=
  let name := truncateSearchTextAtTokenBoundary capability.name maxToolNameChars
  let group := (capability.group.map fun group => truncateSearchTextAtTokenBoundary group maxGroupChars).getD ([], false)
  { capability := capability
    nameTerms := tokenizeSearchText name.1
    groupTerms := tokenizeSearchText group.1
    descriptionTerms := (capability.discovery.map fun discovery =>
      tokenizeSearchText (truncateSearchTextAtTokenBoundary discovery.description maxDescriptionChars).1).getD []
    keywordTerms := (capability.discovery.map fun discovery =>
      (discovery.keywords.take maxKeywords).foldl (fun terms keyword =>
        pushNew terms (tokenizeSearchText (truncateSearchTextAtTokenBoundary keyword maxKeywordChars).1)) []).getD []
    exclusionTerms := []
    metadataTruncated := capability.actionLexemesTruncated || name.2 || group.2 ||
      capability.discovery.any discoveryTruncated
    nameSelectable := !name.2 && !name.1.isEmpty }

def buildExclusionTerms (actionLexemes : List (List Char)) (document : RankedCapabilityDocument) :
    RankedCapabilityDocument :=
  { document with
    exclusionTerms :=
      (document.nameTerms ++ document.groupTerms ++ document.descriptionTerms ++ document.keywordTerms).foldl
        (fun terms term => pushNew terms (negativeVariants actionLexemes term)) document.exclusionTerms }

end RankedCapabilityDocument

def tokenFieldScore (queryTerm : List Char) (fieldTerms : List (List Char)) (exactScore : ℕ) : ℕ :=
  if fieldTerms.any fun fieldTerm => queryTerm == fieldTerm then exactScore else 0

namespace RankedCapabilityDocument

def queryTermScore (document : RankedCapabilityDocument) (term : List Char) : ℕ :=
  max (max (max (tokenFieldScore term document.nameTerms 64) (tokenFieldScore term document.groupTerms 24))
    (tokenFieldScore term document.keywordTerms 36)) (tokenFieldScore term document.descriptionTerms 12)

def queryConceptScore (document : RankedCapabilityDocument) (concept : RankedQueryConcept) : ℕ :=
  (concept.variants.map document.queryTermScore).foldl max 0

def matchesExcludedConcept (document : RankedCapabilityDocument) (concept : RankedQueryConcept) : Bool :=
  concept.variants.any fun variant => document.exclusionTerms.elem variant

end RankedCapabilityDocument

def capabilitySafetyRank (capability : ToolCapability) : ℕ :=
  match capability.riskPosture with
  | none => if capability.readOnly then 0 else 5
  | some posture =>
    match posture.operationClass with
    | .read => 0
    | .sensitiveRead => 1
    | .noMutationProof => 2
    | .preview => 3
    | .guardedApply => 4
    | .mutating => 5
    | .sendAdjacent => 6
    | .destructive => 7

/-! ### Search -/

structure ToolSearchFilter where
  query : Option (List Char)
  group : Option (List Char)
  readOnly : Option Bool
  limit : Option ℕ
  deriving DecidableEq

structure ToolSearchResult where
  name : List Char
  group : Option (List Char)
  readOnly : Bool
  description : Option (List Char)
  keywords : List (List Char)
  riskPosture : Option GuardedActionPosture
  deriving DecidableEq

structure ToolSearchResponse where
  operation : String
  query : Option (List Char)
  group : Option (List Char)
  readOnly : Option Bool
  results : List ToolSearchResult
  deriving DecidableEq

structure ToolSearchMatchSummary where
  totalMatches : ℕ
  returnedCount : ℕ
  resultLimit : ℕ
  truncated : Bool
  truncationReasons : List String
  normalizedQueryTerms : List (List Char)
  excludedQueryTerms : List (List Char)
  ignoredQueryTerms : List (List Char)
  deriving DecidableEq

structure RankedToolSearchResponse where
  response : ToolSearchResponse
  matchSummary : ToolSearchMatchSummary
  deriving DecidableEq

def defaultLimit : ℕ := 20
def maxLimit : ℕ := 100
def maxQueryChars : ℕ := 1024

/-- The result for a tool, and whether its texts had to be cut. -/
def ToolCapability.toRankedSearchResult (capability : ToolCapability) : ToolSearchResult × Bool :=
  let group := capability.group.map fun group => truncateSearchText group maxGroupChars
  let description := capability.discovery.map fun discovery =>
    truncateSearchTextAtTokenBoundary discovery.description maxDescriptionChars
  let keywords := (capability.discovery.map fun discovery =>
    (discovery.keywords.take maxKeywords).map fun keyword =>
      truncateSearchTextAtTokenBoundary keyword maxKeywordChars).getD []
  ({ name := capability.name
     group := group.map Prod.fst
     readOnly := capability.readOnly
     description := (description.map Prod.fst).filter fun description => !description.isEmpty
     keywords := pushNew [] ((keywords.map Prod.fst).filter fun keyword => !keyword.isEmpty)
     riskPosture := capability.riskPosture },
    capability.actionLexemesTruncated || group.any Prod.snd || description.any Prod.snd ||
      capability.discovery.any (fun discovery => decide (maxKeywords < discovery.keywords.length)) ||
      keywords.any Prod.snd)

/-- The lexemes of the visible tools are added until there are too many. -/
def addActionLexemes : List (List Char) → List (List Char) → List (List Char) × Bool
  | actionLexemes, [] => (actionLexemes, false)
  | actionLexemes, lexeme :: rest =>
    if actionLexemes.length = maxActionLexemesTotal && !actionLexemes.elem lexeme then (actionLexemes, true)
    else addActionLexemes (pushNew actionLexemes [lexeme]) rest

structure RankedMatch where
  score : ℕ
  matchedTerms : ℕ
  safetyRank : ℕ
  document : RankedCapabilityDocument
  deriving DecidableEq

/-- The order of matches without a query. -/
def browseLe (left right : RankedMatch) : Bool :=
  if left.safetyRank ≠ right.safetyRank then left.safetyRank < right.safetyRank
  else left.document.capability.name ≤ right.document.capability.name

/-- The order of matches for a query. -/
def scoreLe (left right : RankedMatch) : Bool :=
  if left.score ≠ right.score then right.score < left.score
  else if left.matchedTerms ≠ right.matchedTerms then right.matchedTerms < left.matchedTerms
  else browseLe left right

/-- The score of a document for the concepts, each with the number of documents it matches; and how
many concepts it matches. -/
def conceptScore (documentCount : ℕ) (document : RankedCapabilityDocument) :
    List (RankedQueryConcept × ℕ) → ℕ × ℕ
  | [] => (0, 0)
  | (concept, documentFrequency) :: rest =>
    let fieldScore := document.queryConceptScore concept
    let (score, matchedTerms) := conceptScore documentCount document rest
    if fieldScore = 0 then (score, matchedTerms)
    else (fieldScore * max ((documentCount + 1) / (documentFrequency + 1)) 1 + score, matchedTerms + 1)

def pushUniqueReason (reasons : List String) (condition : Bool) (reason : String) : List String :=
  if condition && !reasons.elem reason then reasons ++ [reason] else reasons

namespace ToolInventory

/-- The group to search in, if it is not blank, and whether it had to be cut. -/
def boundedGroup (filter : ToolSearchFilter) : Option (List Char) × Bool :=
  match filter.group with
  | none => (none, false)
  | some group =>
    let bounded := truncateSearchText group maxGroupChars
    ((some (trim bounded.1)).filter fun group => !group.isEmpty, bounded.2)

def boundedQuery (filter : ToolSearchFilter) : Option (List Char) × Bool :=
  match filter.query with
  | none => (none, false)
  | some query => ((some (truncateSearchText query maxQueryChars).1), (truncateSearchText query maxQueryChars).2)

def visibleCapabilities (inventory : ToolInventory) (filter : ToolSearchFilter) (operation : ToolOperation)
    (policy : ToolInventoryPolicy) : List ToolCapability :=
  inventory.capabilities.filter fun capability =>
    policy.allowsCapability capability operation &&
      (!(boundedGroup filter).2 && (boundedGroup filter).1.all fun group => capability.group == some group) &&
      filter.readOnly.all fun readOnly => capability.readOnly == readOnly

/-- The action lexemes of a search, and whether there were too many. -/
def searchLexemes (visible : List ToolCapability) : List (List Char) × Bool :=
  addActionLexemes defaultSearchActionLexemes
    (visible.flatMap fun capability => capability.actionLexemes.insertionSort fun left right => left ≤ right)

/-- Everything that `search_ranked` derives before it ranks. -/
structure Prepared where
  documents : List RankedCapabilityDocument
  query : NormalizedRankedQuery
  browseQuery : Bool
  queryInputTruncated : Bool
  visibleMetadataTruncated : Bool

def prepare (inventory : ToolInventory) (filter : ToolSearchFilter) (operation : ToolOperation)
    (policy : ToolInventoryPolicy) : Prepared :=
  let query := boundedQuery filter
  let visible := inventory.visibleCapabilities filter operation policy
  let lexemes := searchLexemes visible
  let documents := visible.map fun capability =>
    (RankedCapabilityDocument.new capability).buildExclusionTerms lexemes.1
  { documents := documents.filter RankedCapabilityDocument.nameSelectable
    query := normalizeRankedQuery lexemes.1 (query.1.getD [])
    browseQuery := !query.2 && query.1.all fun query => (trim query).isEmpty
    queryInputTruncated := query.2
    visibleMetadataTruncated := lexemes.2 || documents.any RankedCapabilityDocument.metadataTruncated }

namespace Prepared

def failClosedQuery (prepared : Prepared) : Bool :=
  prepared.queryInputTruncated || prepared.query.excludedTermsTruncated || prepared.query.danglingNegation ||
    (prepared.visibleMetadataTruncated && !prepared.query.excludedConcepts.isEmpty)

def documentFrequencies (prepared : Prepared) : List (RankedQueryConcept × ℕ) :=
  prepared.query.positiveConcepts.map fun concept =>
    (concept, (prepared.documents.filter fun document => 0 < document.queryConceptScore concept).length)

/-- The match of a document, if it is one. -/
def rank (prepared : Prepared) (document : RankedCapabilityDocument) : Option RankedMatch :=
  if prepared.failClosedQuery then none
  else if prepared.browseQuery then some ⟨0, 0, capabilitySafetyRank document.capability, document⟩
  else if prepared.query.positiveConcepts.isEmpty ||
      prepared.query.excludedConcepts.any document.matchesExcludedConcept then none
  else
    let scored := conceptScore prepared.documents.length document prepared.documentFrequencies
    if 0 < scored.1 then some ⟨scored.1, scored.2, capabilitySafetyRank document.capability, document⟩ else none

def ranked (prepared : Prepared) : List RankedMatch :=
  (prepared.documents.filterMap prepared.rank).insertionSort fun left right =>
    (if prepared.browseQuery then browseLe left right else scoreLe left right) = true

end Prepared

def searchRanked (inventory : ToolInventory) (filter : ToolSearchFilter) (operation : ToolOperation)
    (policy : ToolInventoryPolicy) : RankedToolSearchResponse :=
  let prepared := inventory.prepare filter operation policy
  let requestedLimit := filter.limit.getD defaultLimit
  let resultLimit := min requestedLimit maxLimit
  let ranked := prepared.ranked
  let returned := (ranked.take resultLimit).map fun found => found.document.capability.toRankedSearchResult
  let reasons := pushUniqueReason [] prepared.queryInputTruncated "query_input"
  let reasons := pushUniqueReason reasons (decide (maxLimit < requestedLimit)) "result_limit_clamped"
  let reasons := pushUniqueReason reasons (boundedGroup filter).2 "group_input"
  let reasons := pushUniqueReason reasons prepared.query.positiveTermsTruncated "normalized_query_terms"
  let reasons := pushUniqueReason reasons prepared.query.excludedTermsTruncated "excluded_query_terms"
  let reasons := pushUniqueReason reasons prepared.query.ignoredTermsTruncated "ignored_query_terms"
  let reasons := pushUniqueReason reasons prepared.query.danglingNegation "query_intent_ambiguous"
  let reasons := pushUniqueReason reasons prepared.visibleMetadataTruncated "result_metadata"
  let reasons := pushUniqueReason reasons (decide (resultLimit < ranked.length)) "result_limit"
  let reasons := pushUniqueReason reasons (returned.any Prod.snd) "result_metadata"
  { response :=
      { operation := "find_tools"
        query := (boundedQuery filter).1
        group := (boundedGroup filter).1
        readOnly := filter.readOnly
        results := returned.map Prod.fst }
    matchSummary :=
      { totalMatches := ranked.length
        returnedCount := returned.length
        resultLimit := resultLimit
        truncated := !reasons.isEmpty
        truncationReasons := reasons
        normalizedQueryTerms := prepared.query.positiveConcepts.map RankedQueryConcept.source
        excludedQueryTerms := prepared.query.excludedConcepts.map RankedQueryConcept.source
        ignoredQueryTerms := prepared.query.ignoredTerms } }

end ToolInventory

/-! ### What a document holds of its tool -/

theorem truncate_snd (value : List Char) (maxChars : ℕ) :
    (truncateSearchTextAtTokenBoundary value maxChars).2 = decide (maxChars < value.length) := by
  unfold truncateSearchTextAtTokenBoundary
  cases hrest : value.drop maxChars with
  | nil =>
    have hle := drop_eq_nil_iff.mp hrest
    exact (decide_eq_false (not_lt.mpr hle)).symm
  | cons next rest =>
    have hlt : maxChars < value.length := by
      by_contra hle
      rw [drop_eq_nil_iff.mpr (not_lt.mp hle)] at hrest
      cases hrest
    dsimp only
    rw [decide_eq_true hlt]
    split_ifs <;> rfl

theorem truncate_fst {value : List Char} {maxChars : ℕ} (h : value.length ≤ maxChars) :
    (truncateSearchTextAtTokenBoundary value maxChars).1 = value := by
  unfold truncateSearchTextAtTokenBoundary
  rw [drop_eq_nil_iff.mpr h]
  exact take_of_length_le h

/-- All words of a tool, over its whole texts. -/
def ToolCapability.words (capability : ToolCapability) : List (List Char) :=
  Search.words capability.name ++ (capability.group.map Search.words).getD [] ++
    (capability.discovery.map fun discovery =>
      Search.words discovery.description ++ discovery.keywords.flatMap Search.words).getD []

/-- Some text of the tool, or its set of lexemes, is longer than what is compared. -/
def ToolCapability.MetadataCut (capability : ToolCapability) : Prop :=
  capability.actionLexemesTruncated = true ∨ maxToolNameChars < capability.name.length ∨
    (∃ group ∈ capability.group, maxGroupChars < group.length) ∨
    ∃ discovery ∈ capability.discovery, maxDescriptionChars < discovery.description.length ∨
      maxKeywords < discovery.keywords.length ∨ ∃ keyword ∈ discovery.keywords, maxKeywordChars < keyword.length

theorem discoveryTruncated_iff (discovery : ToolDiscoveryMetadata) :
    RankedCapabilityDocument.discoveryTruncated discovery = true ↔
      maxDescriptionChars < discovery.description.length ∨ maxKeywords < discovery.keywords.length ∨
        ∃ keyword ∈ discovery.keywords, maxKeywordChars < keyword.length := by
  unfold RankedCapabilityDocument.discoveryTruncated
  simp only [truncate_snd, Bool.or_eq_true, decide_eq_true_eq, any_eq_true, or_assoc]
  by_cases hmany : maxKeywords < discovery.keywords.length
  · simp [hmany]
  · rw [take_of_length_le (not_lt.mp hmany)]

theorem metadataTruncated_iff (capability : ToolCapability) :
    (RankedCapabilityDocument.new capability).metadataTruncated = true ↔ capability.MetadataCut := by
  unfold RankedCapabilityDocument.new ToolCapability.MetadataCut
  simp only [truncate_snd, Bool.or_eq_true, decide_eq_true_eq, or_assoc]
  refine or_congr_right (or_congr_right (or_congr ?_ ?_))
  · cases capability.group with
    | none => simp
    | some group => simp [truncate_snd]
  · cases capability.discovery with
    | none => simp
    | some discovery => simpa using discoveryTruncated_iff discovery

theorem mem_foldl_pushNew {α : Type} {f : α → List (List Char)} {l : List α} {text : List Char} :
    ∀ {texts : List (List Char)}, text ∈ l.foldl (fun texts x => pushNew texts (f x)) texts ↔
      text ∈ texts ∨ ∃ x ∈ l, text ∈ f x := by
  induction l with
  | nil => simp
  | cons x l ih =>
    intro texts
    rw [foldl_cons, ih, mem_pushNew, exists_mem_cons_iff, or_assoc]

variable {word lexeme : List Char}

/-- Without a cut, a document holds all words of its tool. -/
theorem mem_terms_of_mem_words {capability : ToolCapability} (hcut : ¬capability.MetadataCut)
    (h : word ∈ capability.words) : word ∈ (RankedCapabilityDocument.new capability).nameTerms ++
      (RankedCapabilityDocument.new capability).groupTerms ++
      (RankedCapabilityDocument.new capability).descriptionTerms ++
      (RankedCapabilityDocument.new capability).keywordTerms := by
  unfold ToolCapability.MetadataCut at hcut
  push Not at hcut
  obtain ⟨-, hname, hgroup, hdiscovery⟩ := hcut
  unfold ToolCapability.words at h
  unfold RankedCapabilityDocument.new
  dsimp only
  rw [truncate_fst hname]
  simp only [mem_append] at h ⊢
  obtain (h | h) | h := h
  · exact .inl (.inl (.inl (mem_tokenizeSearchText h)))
  · cases hsome : capability.group with
    | none => rw [hsome] at h; cases h
    | some group =>
      rw [hsome] at h
      refine .inl (.inl (.inr ?_))
      rw [Option.map_some, Option.getD_some, truncate_fst (hgroup group hsome)]
      exact mem_tokenizeSearchText h
  · cases hsome : capability.discovery with
    | none => rw [hsome] at h; cases h
    | some discovery =>
      obtain ⟨hdescription, hmany, hkeywords⟩ := hdiscovery discovery hsome
      rw [hsome] at h
      obtain h | h := mem_append.mp h
      · refine .inl (.inr ?_)
        rw [Option.map_some, truncate_fst hdescription]
        exact mem_tokenizeSearchText h
      · refine .inr ?_
        obtain ⟨keyword, hkeyword, h⟩ := mem_flatMap.mp h
        rw [Option.map_some, Option.getD_some, take_of_length_le hmany, mem_foldl_pushNew]
        refine .inr ⟨keyword, hkeyword, ?_⟩
        rw [truncate_fst (hkeywords keyword hkeyword)]
        exact mem_tokenizeSearchText h

theorem mem_exclusionTerms {actionLexemes : List (List Char)} {capability : ToolCapability} {text : List Char}
    (hcut : ¬capability.MetadataCut) (h : word ∈ capability.words) (htext : text ∈ negativeVariants actionLexemes word) :
    text ∈ ((RankedCapabilityDocument.new capability).buildExclusionTerms actionLexemes).exclusionTerms :=
  mem_foldl_pushNew.mpr (.inr ⟨word, mem_terms_of_mem_words hcut h, htext⟩)

/-! ### Lexemes -/

/-- The word is an inflection of the lexeme, or the lexeme itself. -/
def InflectionBase (lexeme word : List Char) : Prop :=
  lexeme ∈ searchTokenVariants word ∨ lexeme ∈ inflectionCandidates word

theorem mem_negativeVariants {actionLexemes : List (List Char)}
    (hlexeme : lexeme ∈ actionLexemes) (h : InflectionBase lexeme word) :
    lexeme ∈ negativeVariants actionLexemes word := by
  unfold negativeVariants addNegativeActionVariants
  rw [mem_pushNew, mem_filter, elem_iff]
  exact h.imp id fun hcandidate => ⟨hcandidate, hlexeme⟩

theorem mem_addActionLexemes_of_mem :
    ∀ {actionLexemes added : List (List Char)}, lexeme ∈ actionLexemes → lexeme ∈ (addActionLexemes actionLexemes added).1
  | _, [], h => h
  | actionLexemes, first :: added, h => by
    unfold addActionLexemes
    split_ifs
    · exact h
    · exact mem_addActionLexemes_of_mem (mem_pushNew.mpr (.inl h))

theorem mem_addActionLexemes :
    ∀ {actionLexemes added : List (List Char)}, (addActionLexemes actionLexemes added).2 = false → lexeme ∈ added →
      lexeme ∈ (addActionLexemes actionLexemes added).1
  | actionLexemes, first :: added, h, hmem => by
    unfold addActionLexemes at h ⊢
    split_ifs at h ⊢
    obtain rfl | hmem := mem_cons.mp hmem
    · exact mem_addActionLexemes_of_mem (mem_pushNew.mpr (.inr (mem_singleton_self _)))
    · exact mem_addActionLexemes h hmem

theorem length_pushNew_singleton (texts : List (List Char)) (text : List Char) :
    (pushNew texts [text]).length = if texts.elem text then texts.length else texts.length + 1 := by
  unfold pushNew
  rw [foldl_cons]
  split_ifs <;> simp

theorem length_addActionLexemes_le : ∀ {actionLexemes : List (List Char)} (added : List (List Char)),
    actionLexemes.length ≤ maxActionLexemesTotal →
      (addActionLexemes actionLexemes added).1.length ≤ maxActionLexemesTotal
  | _, [], h => h
  | actionLexemes, first :: added, h => by
    unfold addActionLexemes
    split_ifs with hfull
    · exact h
    · refine length_addActionLexemes_le added ?_
      rw [length_pushNew_singleton]
      split_ifs with hmem
      · exact h
      · have hne : actionLexemes.length ≠ maxActionLexemesTotal := fun heq => hfull <| by
          rw [Bool.and_eq_true, Bool.not_eq_true', Bool.eq_false_iff]
          exact ⟨decide_eq_true heq, hmem⟩
        omega

namespace ToolInventory

/-- The default lexemes and those of the visible tools. -/
def lexemesInUse (visible : List ToolCapability) : List (List Char) :=
  defaultSearchActionLexemes ++ visible.flatMap ToolCapability.actionLexemes

theorem mem_searchLexemes {visible : List ToolCapability} (h : (searchLexemes visible).2 = false) {lexeme : List Char}
    (hmem : lexeme ∈ lexemesInUse visible) : lexeme ∈ (searchLexemes visible).1 := by
  obtain hdefault | hvisible := mem_append.mp hmem
  · exact mem_addActionLexemes_of_mem hdefault
  · obtain ⟨capability, hcapability, hlexeme⟩ := mem_flatMap.mp hvisible
    refine mem_addActionLexemes h (mem_flatMap.mpr ⟨capability, hcapability, ?_⟩)
    exact (mem_insertionSort _).mpr hlexeme

theorem searchLexemes_truncated {visible : List ToolCapability}
    (h : maxActionLexemesTotal < (lexemesInUse visible).dedup.length) : (searchLexemes visible).2 = true := by
  by_contra hfalse
  have hsub : (lexemesInUse visible).dedup ⊆ (searchLexemes visible).1 := fun lexeme hlexeme =>
    mem_searchLexemes (Bool.eq_false_iff.mpr hfalse) (mem_dedup.mp hlexeme)
  have hle := (subperm_of_subset (nodup_dedup _) hsub).length_le
  have hmax : (searchLexemes visible).1.length ≤ maxActionLexemesTotal := length_addActionLexemes_le _ (by decide)
  omega

/-! ### Results -/

section Results

variable {inventory : ToolInventory} {filter : ToolSearchFilter} {operation : ToolOperation}
  {policy : ToolInventoryPolicy}

theorem rank_some {prepared : Prepared} {document : RankedCapabilityDocument} {found : RankedMatch}
    (h : prepared.rank document = some found) : found.document = document ∧ prepared.failClosedQuery = false ∧
      (prepared.browseQuery = true ∨
        ∀ concept ∈ prepared.query.excludedConcepts, document.matchesExcludedConcept concept = false) := by
  unfold Prepared.rank at h
  dsimp only at h
  split_ifs at h with hclosed hbrowse hexcluded hscore
  · cases h
    exact ⟨rfl, Bool.eq_false_iff.mpr hclosed, .inl hbrowse⟩
  · rw [Bool.or_eq_true, not_or, any_eq_true] at hexcluded
    cases h
    refine ⟨rfl, Bool.eq_false_iff.mpr hclosed, .inr fun concept hconcept => ?_⟩
    exact Bool.eq_false_iff.mpr fun hmatch => hexcluded.2 ⟨concept, hconcept, hmatch⟩

theorem exists_rank_of_mem_results {result : ToolSearchResult}
    (h : result ∈ (inventory.searchRanked filter operation policy).response.results) :
    ∃ capability ∈ inventory.visibleCapabilities filter operation policy, result.name = capability.name ∧
      ∃ found, (inventory.prepare filter operation policy).rank
        ((RankedCapabilityDocument.new capability).buildExclusionTerms
          (searchLexemes (inventory.visibleCapabilities filter operation policy)).1) = some found := by
  unfold searchRanked at h
  obtain ⟨pair, hpair, rfl⟩ := mem_map.mp h
  obtain ⟨found, hfound, rfl⟩ := mem_map.mp hpair
  have hmem := (mem_insertionSort _).mp (mem_of_mem_take hfound)
  obtain ⟨document, hdocument, hrank⟩ := mem_filterMap.mp hmem
  obtain ⟨capability, hcapability, rfl⟩ := mem_map.mp (mem_of_mem_filter hdocument)
  refine ⟨capability, hcapability, ?_, found, hrank⟩
  rw [(rank_some hrank).1]
  rfl

theorem results_eq_nil (h : (inventory.prepare filter operation policy).failClosedQuery = true) :
    (inventory.searchRanked filter operation policy).response.results = [] := by
  refine eq_nil_iff_forall_not_mem.mpr fun result hresult => ?_
  obtain ⟨capability, -, -, found, hrank⟩ := exists_rank_of_mem_results hresult
  exact absurd h (Bool.eq_false_iff.mp (rank_some hrank).2.1)

theorem boundedQuery_snd : (boundedQuery filter).2 = decide (maxQueryChars < (filter.query.getD []).length) := by
  unfold boundedQuery
  cases filter.query <;> rfl

variable (inventory operation policy) in
theorem prepare_query (h : (filter.query.getD []).length ≤ maxQueryChars) :
    (inventory.prepare filter operation policy).query =
      normalizeRankedQuery (searchLexemes (inventory.visibleCapabilities filter operation policy)).1
        (filter.query.getD []) := by
  unfold prepare
  dsimp only
  congr 1
  unfold boundedQuery
  cases hquery : filter.query with
  | none => rfl
  | some query =>
    rw [hquery] at h
    exact take_of_length_le h

theorem words_eq_nil_of_browse (h : (inventory.prepare filter operation policy).browseQuery = true) :
    words (filter.query.getD []) = [] := by
  obtain ⟨hwhole, hblank⟩ := Bool.and_eq_true_iff.mp h
  rw [boundedQuery_snd, Bool.not_eq_true', decide_eq_false_iff_not, not_lt] at hwhole
  unfold boundedQuery at hblank
  cases hquery : filter.query with
  | none => exact words_eq_nil rfl
  | some query =>
    rw [hquery] at hblank hwhole
    rw [Option.getD_some] at hwhole
    refine words_eq_nil ?_
    rwa [Option.all_some, truncateSearchText, take_of_length_le hwhole] at hblank

theorem failClosed_of_cut (h : maxQueryChars < (filter.query.getD []).length) :
    (inventory.prepare filter operation policy).failClosedQuery = true := by
  have htruncated : (inventory.prepare filter operation policy).queryInputTruncated = true :=
    boundedQuery_snd.trans (decide_eq_true h)
  rw [Prepared.failClosedQuery, htruncated]
  simp

theorem failClosed_of_dangling (h : Dangling (searchLexemes (inventory.visibleCapabilities filter operation policy)).1
      (words (filter.query.getD []))) : (inventory.prepare filter operation policy).failClosedQuery = true := by
  by_cases hcut : maxQueryChars < (filter.query.getD []).length
  · exact failClosed_of_cut hcut
  · rw [Prepared.failClosedQuery, prepare_query _ _ _ (not_lt.mp hcut), normalizeRankedQuery_dangling h]
    simp

/-- Some text or set of lexemes of a visible tool was cut. -/
def MetadataCut (visible : List ToolCapability) : Prop :=
  (∃ capability ∈ visible, capability.MetadataCut) ∨ maxActionLexemesTotal < (lexemesInUse visible).dedup.length

theorem visibleMetadataTruncated_of_cut (h : MetadataCut (inventory.visibleCapabilities filter operation policy)) :
    (inventory.prepare filter operation policy).visibleMetadataTruncated = true := by
  unfold prepare
  rw [Bool.or_eq_true]
  obtain ⟨capability, hcapability, hcut⟩ | hmany := h
  · refine .inr (any_eq_true.mpr ⟨_, mem_map_of_mem hcapability, ?_⟩)
    exact (metadataTruncated_iff capability).mpr hcut
  · exact .inl (searchLexemes_truncated hmany)

/-- A query that rules a word out either excludes all its variants or returns nothing. -/
theorem failClosed_or_covers {word : List Char}
    (h : RuledOut (searchLexemes (inventory.visibleCapabilities filter operation policy)).1
      (words (filter.query.getD [])) word) : (inventory.prepare filter operation policy).failClosedQuery = true ∨
      (inventory.prepare filter operation policy).visibleMetadataTruncated = false ∧
      (inventory.prepare filter operation policy).query.excludedTermsTruncated = false ∧
      ∀ text ∈ negativeVariants (searchLexemes (inventory.visibleCapabilities filter operation policy)).1 word,
        Covers (inventory.prepare filter operation policy).query.excludedConcepts text := by
  by_cases hcut : maxQueryChars < (filter.query.getD []).length
  · exact .inl (failClosed_of_cut hcut)
  · have hquery := prepare_query inventory operation policy (not_lt.mp hcut)
    obtain htruncated | hcovers := normalizeRankedQuery_excludes h
    · rw [Prepared.failClosedQuery, hquery, htruncated]
      simp
    · rw [← hquery] at hcovers
      obtain ⟨concept, hconcept, -⟩ := hcovers word (mem_negativeVariants_self _ h.mem)
      have hsome := isEmpty_eq_false_iff.mpr (ne_nil_of_mem hconcept)
      cases hclosed : (inventory.prepare filter operation policy).failClosedQuery with
      | true => exact .inl rfl
      | false =>
        simp only [Prepared.failClosedQuery, Bool.or_eq_false_iff, hsome, Bool.not_false, Bool.and_true] at hclosed
        exact .inr ⟨hclosed.2, hclosed.1.1.2, hcovers⟩

/-- A tool of the results has no word in common with a word that the query rules out, not even by a
lexeme that both are inflections of. -/
theorem not_mem_words_of_ruledOut {result : ToolSearchResult} {capability : ToolCapability} {word other : List Char}
    (hresult : result ∈ (inventory.searchRanked filter operation policy).response.results)
    (hcapability : capability ∈ inventory.entries) (hname : capability.name = result.name)
    (h : RuledOut (searchLexemes (inventory.visibleCapabilities filter operation policy)).1
      (words (filter.query.getD [])) word) (hother : other ∈ capability.words) :
    other ≠ word ∧ ∀ lexeme ∈ lexemesInUse (inventory.visibleCapabilities filter operation policy),
      ¬(InflectionBase lexeme word ∧ InflectionBase lexeme other) := by
  obtain ⟨found, hfound, hname', ranked, hrank⟩ :=
    exists_rank_of_mem_results hresult
  -- the names of the inventory are different, so the result is about this tool
  obtain rfl : found = capability :=
    inj_on_of_nodup_map inventory.names_nodup
      ((mem_insertionSort _).mp (mem_of_mem_filter hfound)) hcapability (hname'.symm.trans hname.symm)
  obtain ⟨-, hopen, hranked⟩ := rank_some hrank
  obtain hclosed | ⟨hmetadata, -, hcovers⟩ := failClosed_or_covers h
  · exact absurd hclosed (Bool.eq_false_iff.mp hopen)
  have hcut : ¬MetadataCut (inventory.visibleCapabilities filter operation policy) := fun hcut =>
    absurd (visibleMetadataTruncated_of_cut hcut) (Bool.eq_false_iff.mp hmetadata)
  have hlexemes : (searchLexemes (inventory.visibleCapabilities filter operation policy)).2 = false :=
    (Bool.or_eq_false_iff.mp hmetadata).1
  have hfree : ∀ text ∈ negativeVariants (searchLexemes (inventory.visibleCapabilities filter operation policy)).1 word,
      text ∉ negativeVariants (searchLexemes (inventory.visibleCapabilities filter operation policy)).1 other := by
    intro text htext htext'
    obtain hbrowse | hexcluded := hranked
    · have hword := h.mem
      rw [words_eq_nil_of_browse hbrowse] at hword
      cases hword
    · obtain ⟨concept, hconcept, hvariant⟩ := hcovers text htext
      have hterm := mem_exclusionTerms (fun hown => hcut (.inl ⟨found, hfound, hown⟩)) hother htext'
      have hmatch : RankedCapabilityDocument.matchesExcludedConcept _ concept = true :=
        any_eq_true.mpr ⟨text, hvariant, elem_iff.mpr hterm⟩
      exact absurd hmatch (Bool.eq_false_iff.mp (hexcluded concept hconcept))
  constructor
  · rintro rfl
    exact hfree other (mem_negativeVariants_self _ h.mem) (mem_negativeVariants_self _ h.mem)
  · rintro lexeme hlexeme ⟨hbase, hbase'⟩
    have hused := mem_searchLexemes hlexemes hlexeme
    exact hfree lexeme (mem_negativeVariants hused hbase) (mem_negativeVariants hused hbase')

end Results

/-- **Negative intent excludes tools**, for every inventory, policy and filter.  No result has, anywhere
in its texts, a word that the query rules out, or one that shares a lexeme with it.  And nothing is
returned if the query was cut or ends in a negation of nothing, nor, where it rules a word out, if
excluded words or texts of the visible tools were cut. -/
theorem searchRanked_excludes (inventory : ToolInventory) (filter : ToolSearchFilter) (operation : ToolOperation)
    (policy : ToolInventoryPolicy) :
    let visible := inventory.visibleCapabilities filter operation policy
    let lexemes := (searchLexemes visible).1
    let query := filter.query.getD []
    let results := (inventory.searchRanked filter operation policy).response.results
    (∀ result ∈ results, ∀ capability ∈ inventory.entries, capability.name = result.name →
      ∀ word, RuledOut lexemes (words query) word → ∀ other ∈ capability.words,
        other ≠ word ∧ ∀ lexeme ∈ lexemesInUse visible,
          ¬(InflectionBase lexeme word ∧ InflectionBase lexeme other)) ∧
    (maxQueryChars < query.length ∨ Dangling lexemes (words query) → results = []) ∧
    ∀ word, RuledOut lexemes (words query) word →
      (inventory.prepare filter operation policy).query.excludedTermsTruncated = true ∨ MetadataCut visible →
      results = [] := by
  refine ⟨?_, ?_, ?_⟩
  · intro result hresult capability hcapability hname word hword other hother
    exact not_mem_words_of_ruledOut hresult hcapability hname hword hother
  · rintro (hcut | hdangling)
    · exact results_eq_nil (failClosed_of_cut hcut)
    · exact results_eq_nil (failClosed_of_dangling hdangling)
  · intro word hword hcut
    refine results_eq_nil ?_
    obtain hclosed | ⟨hmetadata, hexcluded, -⟩ := failClosed_or_covers hword
    · exact hclosed
    · obtain htruncated | hmetadata' := hcut
      · exact absurd htruncated (Bool.eq_false_iff.mp hexcluded)
      · exact absurd (visibleMetadataTruncated_of_cut hmetadata')
          (Bool.eq_false_iff.mp hmetadata)

/-- Two tools of a group. -/
def userTools : ToolInventory :=
  ⟨[{ ToolCapability.new "user.list".toList with group := some "users".toList, readOnly := true },
      { ToolCapability.new "user.delete".toList with group := some "users".toList }], by decide⟩

/-- A query that rules deleting out. -/
def withoutDeleting : ToolSearchFilter := ⟨some "user tools without deleting".toList, none, none, none⟩

theorem searchRanked_withoutDeleting :
    (userTools.searchRanked withoutDeleting .list .strict).response.results.map ToolSearchResult.name =
        ["user.list".toList] ∧ ∀ result ∈ (userTools.searchRanked withoutDeleting .list .strict).response.results,
        ∀ capability ∈ userTools.entries, capability.name = result.name →
          ∀ other ∈ capability.words, other ≠ "deleting".toList :=
  ⟨by decide, fun result hresult capability hcapability hname other hother =>
    ((searchRanked_excludes userTools withoutDeleting .list .strict).1 result hresult capability hcapability hname
      "deleting".toList
      ⟨["user".toList, "tools".toList], ["without".toList], [], [], by decide, .marker (by decide),
        by decide, by rintro (h | h) <;> exact absurd h (by decide), by decide,
        by unfold Ignorable; decide⟩
      other hother).1⟩

end ToolInventory

end McpToolkit.Core.Search
