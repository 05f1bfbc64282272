import Mathlib.Data.Prod.Lex
import McpToolkit.Core.ToolInventory
import McpToolkit.Lib.Ranking

/-!
# McpToolkit.Core.ToolVisibility — what a caller learns of tools that its policy hides

`ToolInventory::decision`, `catalog_contract` and the plain `search` of `tool_inventory.rs`, beside
`search_ranked`.

All three answers are computed from the list of permitted tools in the order of their names, so they are
the same for two inventories that permit the same tools (`hidden_tools_invisible`).  A set of action
lexemes is a list here, and two lists may hold the same set: `canonical` brings them in order, and no
answer changes with it.
-/

namespace McpToolkit.Core.Search

open List ToolCapability
open Lib.Text Lib.Ranking

/-! ### Registration -/

namespace ToolInventory

def fromCapabilities (capabilities : List ToolCapability) : Except ToolInventoryError ToolInventory :=
  capabilities.foldlM ToolInventory.register ToolInventory.empty

/-- A failed registration leaves the inventory as it was. -/
def registerNext (inventory : ToolInventory) (capability : ToolCapability) : ToolInventory :=
  (inventory.register capability).toOption.getD inventory

def registerAll (capabilities : List ToolCapability) : ToolInventory :=
  capabilities.foldl registerNext ToolInventory.empty

end ToolInventory

/-! ### Decisions -/

structure ToolInventoryDecision where
  toolName : List Char
  operation : ToolOperation
  profileKey : Option (List Char)
  allowed : Bool
  denialReason : Option ToolInventoryDenialReason
  deriving DecidableEq

def ToolInventoryDecision.permit (toolName : List Char) (operation : ToolOperation)
    (profileKey : Option (List Char)) : ToolInventoryDecision :=
  ⟨toolName, operation, profileKey, true, none⟩

def ToolInventoryDecision.denied (toolName : List Char) (operation : ToolOperation)
    (profileKey : Option (List Char)) (denialReason : ToolInventoryDenialReason) : ToolInventoryDecision :=
  ⟨toolName, operation, profileKey, false, some denialReason⟩

namespace ToolInventory

def decisionInner (inventory : ToolInventory) (toolName : List Char) (operation : ToolOperation)
    (policy : ToolInventoryPolicy) (profileKey : Option (List Char)) : ToolInventoryDecision :=
  let trimmed := trim toolName
  if trimmed.isEmpty then .denied trimmed operation profileKey .blankToolName
  else
    match inventory.entries.find? fun capability => capability.name == trimmed with
    | some capability =>
      match policy.denialReason capability operation with
      | some reason => .denied trimmed operation profileKey reason
      | none => .permit trimmed operation profileKey
    | none =>
      if policy.includeUnregistered then .permit trimmed operation profileKey
      else .denied trimmed operation profileKey .unregisteredTool

def decision (inventory : ToolInventory) (toolName : List Char) (operation : ToolOperation)
    (policy : ToolInventoryPolicy) : ToolInventoryDecision :=
  inventory.decisionInner toolName operation policy none

end ToolInventory

/-! ### Catalog contracts -/

structure ToolCatalogProfile where
  key : List Char
  title : List Char
  description : List Char
  instructions : Option (List Char)
  policy : ToolInventoryPolicy
  requiredTools : List (List Char)
  requiredGroups : List (List Char)
  deriving DecidableEq

def ToolCatalogProfile.withPolicy (profile : ToolCatalogProfile) (policy : ToolInventoryPolicy) : ToolCatalogProfile :=
  { profile with policy := policy }

structure ToolCatalogContract where
  profileKey : List Char
  title : List Char
  description : List Char
  instructions : Option (List Char)
  operation : ToolOperation
  toolNames : List (List Char)
  groups : List (List Char)
  requiredTools : List (List Char)
  missingRequiredTools : List (List Char)
  requiredGroups : List (List Char)
  missingRequiredGroups : List (List Char)
  allowedGroups : Option (List (List Char))
  readOnlyOnly : Bool
  includeUnregistered : Bool
  enabledFeatureFlags : List (List Char)
  deriving DecidableEq

def sortedSet (values : List (List Char)) : List (List Char) :=
  values.insertionSort fun left right => left ≤ right

namespace ToolInventory

/-- The permitted tools in the order of their names. -/
def permitted (inventory : ToolInventory) (operation : ToolOperation) (policy : ToolInventoryPolicy) :
    List ToolCapability :=
  inventory.capabilities.filter fun capability => policy.allowsCapability capability operation

def catalogContract (inventory : ToolInventory) (profile : ToolCatalogProfile) (operation : ToolOperation) :
    ToolCatalogContract :=
  let visible := inventory.permitted operation profile.policy
  let toolNames := sortedSet (visible.map ToolCapability.name)
  -- `Vec::dedup` removes neighbours that are equal
  let groups := (sortedSet (visible.filterMap ToolCapability.group)).destutter (· ≠ ·)
  { profileKey := profile.key
    title := profile.title
    description := profile.description
    instructions := profile.instructions
    operation := operation
    toolNames := toolNames
    groups := groups
    requiredTools := profile.requiredTools
    -- the source looks a name up by binary search, in a list that is sorted
    missingRequiredTools := profile.requiredTools.filter fun tool => !toolNames.elem tool
    requiredGroups := profile.requiredGroups
    missingRequiredGroups := profile.requiredGroups.filter fun group => !groups.elem group
    allowedGroups := profile.policy.allowedGroups.map sortedSet
    readOnlyOnly := profile.policy.readOnlyOnly
    includeUnregistered := profile.policy.includeUnregistered
    enabledFeatureFlags := sortedSet profile.policy.enabledFeatureFlags }

end ToolInventory

/-! ### Plain search -/

def ToolCapability.haystack (capability : ToolCapability) : List Char :=
  toAsciiLowercase capability.name ++
    (capability.group.map fun group => ' ' :: toAsciiLowercase group).getD [] ++
    (capability.discovery.map fun discovery =>
      ' ' :: toAsciiLowercase discovery.description ++ discovery.keywords.flatMap fun keyword => ' ' :: keyword).getD []

def ToolCapability.matchesQuery (capability : ToolCapability) (terms : List (List Char)) : Bool :=
  terms.isEmpty || terms.all fun term => contains term capability.haystack

namespace ToolSearchFilter

def queryTerms (filter : ToolSearchFilter) : List (List Char) :=
  ((splitWhitespace (filter.query.getD [])).map toAsciiLowercase).filter fun term => !term.isEmpty

/-- The group and the kind of tool that the filter asks for. -/
def selects (filter : ToolSearchFilter) (capability : ToolCapability) : Bool :=
  (((filter.group.map trim).filter fun group => !group.isEmpty).all fun group => capability.group == some group) &&
    filter.readOnly.all fun readOnly => capability.readOnly == readOnly

end ToolSearchFilter

def ToolCapability.toSearchResult (capability : ToolCapability) : ToolSearchResult where
  name := capability.name
  group := capability.group
  readOnly := capability.readOnly
  description := capability.discovery.map ToolDiscoveryMetadata.description
  keywords := (capability.discovery.map ToolDiscoveryMetadata.keywords).getD []
  riskPosture := capability.riskPosture

def ToolInventory.search (inventory : ToolInventory) (filter : ToolSearchFilter) (operation : ToolOperation)
    (policy : ToolInventoryPolicy) : List ToolSearchResult :=
  let results := (((inventory.permitted operation policy).filter filter.selects).filter fun capability =>
    capability.matchesQuery filter.queryTerms).map toSearchResult
  (filter.limit.map fun limit => results.take limit).getD results

/-! ### Names that are returned -/

namespace ToolInventory

/-- Registered names are trimmed and not blank. -/
def NamesTrimmed (inventory : ToolInventory) : Prop :=
  ∀ tool ∈ inventory.entries, trim tool.name = tool.name ∧ tool.name ≠ []

theorem normalizeNonEmpty_ok {field : String} {value name : List Char} (h : normalizeNonEmpty field value = .ok name) :
    name = trim value ∧ name ≠ [] := by
  unfold normalizeNonEmpty at h
  split_ifs at h with hblank
  obtain rfl : trim value = name := Except.ok.inj h
  exact ⟨rfl, fun hnil => hblank (List.isEmpty_iff.mpr hnil)⟩

theorem register_ok {inventory inventory' : ToolInventory} {capability : ToolCapability}
    (h : inventory.register capability = .ok inventory') :
    ∃ tool, inventory'.entries = tool :: inventory.entries ∧ tool.name = trim capability.name ∧ tool.name ≠ [] := by
  obtain ⟨name, hname, h⟩ := bind_ok h
  split_ifs at h with hnew
  obtain ⟨group, -, h⟩ := bind_ok h
  obtain ⟨featureFlag, -, h⟩ := bind_ok h
  obtain rfl := Except.ok.inj h
  exact ⟨_, rfl, normalizeNonEmpty_ok hname⟩

theorem NamesTrimmed.registerNext {inventory : ToolInventory} (hinv : inventory.NamesTrimmed)
    (capability : ToolCapability) : (inventory.registerNext capability).NamesTrimmed := by
  unfold ToolInventory.registerNext
  cases h : inventory.register capability with
  | error e => exact hinv
  | ok inventory' =>
    obtain ⟨tool, hentries, hname, hne⟩ := register_ok h
    intro other hother
    rw [show ((Except.ok inventory').toOption.getD inventory : ToolInventory) = inventory' from rfl, hentries] at hother
    obtain rfl | hother := mem_cons.mp hother
    · rw [hname]
      refine ⟨?_, fun hnil => hne (hname.trans hnil)⟩
      exact trimBy_eq_self (head?_trimBy_any _ _) (getLast?_trimBy_any _ _)
    · exact hinv other hother

theorem namesTrimmed_registerAll (capabilities : List ToolCapability) : (registerAll capabilities).NamesTrimmed := by
  have hrun : ∀ (capabilities : List ToolCapability) (inventory : ToolInventory), inventory.NamesTrimmed →
      (capabilities.foldl ToolInventory.registerNext inventory).NamesTrimmed := by
    intro capabilities
    induction capabilities with
    | nil => exact fun _ hinv => hinv
    | cons capability capabilities ih => exact fun _ hinv => ih _ (hinv.registerNext capability)
  exact hrun capabilities .empty fun _ htool => by cases htool

section Names

variable {inventory : ToolInventory} {operation : ToolOperation} {policy : ToolInventoryPolicy}

variable {tool : ToolCapability} {filter : ToolSearchFilter}

theorem mem_permitted : tool ∈ inventory.permitted operation policy ↔
    tool ∈ inventory.entries ∧ policy.allowsCapability tool operation = true := by
  rw [permitted, mem_filter, capabilities, mem_insertionSort]

theorem decision_permits (htrimmed : inventory.NamesTrimmed) (h : tool ∈ inventory.permitted operation policy) :
    (inventory.decision tool.name operation policy).allowed = true := by
  obtain ⟨hmem, hallows⟩ := mem_permitted.mp h
  obtain ⟨htrim, hne⟩ := htrimmed tool hmem
  have hfind : inventory.entries.find? (fun capability => capability.name == tool.name) = some tool := by
    cases hfound : inventory.entries.find? fun capability => capability.name == tool.name with
    | none => exact absurd (beq_self_eq_true tool.name) (find?_eq_none.mp hfound tool hmem)
    | some found =>
      have hname : found.name = tool.name := by simpa using find?_some hfound
      rw [inj_on_of_nodup_map inventory.names_nodup (mem_of_find?_eq_some hfound) hmem hname]
  have hreason : policy.denialReason tool operation = none := Option.isNone_iff_eq_none.mp hallows
  unfold decision decisionInner
  simp only [htrim, hfind, hreason, List.isEmpty_iff, if_neg hne]
  rfl

theorem mem_permitted_of_mem_visible
    (h : tool ∈ inventory.visibleCapabilities filter operation policy) : tool ∈ inventory.permitted operation policy := by
  obtain ⟨hmem, hvisible⟩ := mem_filter.mp h
  exact mem_filter.mpr ⟨hmem, (Bool.and_eq_true_iff.mp (Bool.and_eq_true_iff.mp hvisible).1).1⟩

/-- The names that the three answers return. -/
def returnedNames (inventory : ToolInventory) (profile : ToolCatalogProfile) (filter : ToolSearchFilter)
    (operation : ToolOperation) (policy : ToolInventoryPolicy) : List (List Char) :=
  (inventory.catalogContract (profile.withPolicy policy) operation).toolNames ++
    (inventory.search filter operation policy).map ToolSearchResult.name ++
    (inventory.searchRanked filter operation policy).response.results.map ToolSearchResult.name

theorem mem_search {result : ToolSearchResult} (h : result ∈ inventory.search filter operation policy) :
    ∃ tool ∈ inventory.permitted operation policy, result.name = tool.name := by
  have hresult : result ∈ (((inventory.permitted operation policy).filter filter.selects).filter fun capability =>
      capability.matchesQuery filter.queryTerms).map toSearchResult := by
    unfold search at h
    cases hlimit : filter.limit with
    | none => rwa [hlimit] at h
    | some limit =>
      rw [hlimit] at h
      exact mem_of_mem_take h
  obtain ⟨tool, htool, rfl⟩ := mem_map.mp hresult
  exact ⟨tool, mem_of_mem_filter (mem_of_mem_filter htool), rfl⟩

theorem exists_of_mem_returnedNames {profile : ToolCatalogProfile} {name : List Char}
    (h : name ∈ inventory.returnedNames profile filter operation policy) :
    ∃ tool ∈ inventory.permitted operation policy, name = tool.name := by
  obtain h | h := mem_append.mp h
  · obtain h | h := mem_append.mp h
    · obtain ⟨tool, htool, hname⟩ := mem_map.mp ((mem_insertionSort _).mp h)
      exact ⟨tool, htool, hname.symm⟩
    · obtain ⟨result, hresult, rfl⟩ := mem_map.mp h
      exact mem_search hresult
  · obtain ⟨result, hresult, rfl⟩ := mem_map.mp h
    obtain ⟨tool, htool, hname, -⟩ := exists_rank_of_mem_results hresult
    exact ⟨tool, mem_permitted_of_mem_visible htool, hname⟩

end Names

end ToolInventory

/-! ### Lexemes in order -/

/-- The same set of lexemes gives the same list. -/
def ToolCapability.canonical (capability : ToolCapability) : ToolCapability :=
  { capability with actionLexemes := sortedSet capability.actionLexemes }

def RankedCapabilityDocument.canonical (document : RankedCapabilityDocument) : RankedCapabilityDocument :=
  { document with capability := document.capability.canonical }

def RankedMatch.canonical (found : RankedMatch) : RankedMatch :=
  { found with document := found.document.canonical }

theorem conceptScore_canonical (documentCount : ℕ) (document : RankedCapabilityDocument)
    (concepts : List (RankedQueryConcept × ℕ)) :
    conceptScore documentCount document.canonical concepts = conceptScore documentCount document concepts := by
  induction concepts with
  | nil => rfl
  | cons concept concepts ih =>
    unfold conceptScore
    rw [ih]
    rfl

namespace ToolInventory

namespace Prepared

def canonical (prepared : Prepared) : Prepared :=
  { prepared with documents := prepared.documents.map RankedCapabilityDocument.canonical }

variable (prepared : Prepared)

theorem documentFrequencies_canonical : prepared.canonical.documentFrequencies = prepared.documentFrequencies := by
  refine map_congr_left fun concept _ => ?_
  show (concept, ((prepared.documents.map RankedCapabilityDocument.canonical).filter _).length) = _
  rw [filter_map, length_map]
  rfl

theorem rank_canonical (document : RankedCapabilityDocument) :
    prepared.canonical.rank document.canonical = (prepared.rank document).map RankedMatch.canonical := by
  unfold rank
  rw [documentFrequencies_canonical, conceptScore_canonical,
    show prepared.canonical.documents.length = prepared.documents.length from length_map _]
  rw [apply_ite (Option.map RankedMatch.canonical), apply_ite (Option.map RankedMatch.canonical),
    apply_ite (Option.map RankedMatch.canonical), apply_ite (Option.map RankedMatch.canonical)]
  rfl

theorem ranked_canonical : prepared.canonical.ranked = prepared.ranked.map RankedMatch.canonical := by
  have hmatches : prepared.canonical.documents.filterMap prepared.canonical.rank =
      (prepared.documents.filterMap prepared.rank).map RankedMatch.canonical := by
    show (prepared.documents.map RankedCapabilityDocument.canonical).filterMap prepared.canonical.rank = _
    rw [filterMap_map, map_filterMap]
    exact filterMap_congr fun document _ => rank_canonical prepared document
  unfold ranked
  rw [hmatches]
  -- the order reads neither the lexemes nor their order
  exact (map_insertionSort _ _ RankedMatch.canonical _ fun _ _ _ _ => Iff.rfl).symm

end Prepared

/-- The inventory with the lexemes of its tools in order. -/
def canonical (inventory : ToolInventory) : ToolInventory where
  entries := inventory.entries.map ToolCapability.canonical
  names_nodup := by
    rw [map_map]
    exact inventory.names_nodup

section Canonical

variable (inventory : ToolInventory) (filter : ToolSearchFilter) (operation : ToolOperation)
  (policy : ToolInventoryPolicy)

theorem capabilities_canonical :
    inventory.canonical.capabilities = inventory.capabilities.map ToolCapability.canonical :=
  (map_insertionSort _ _ ToolCapability.canonical _ fun _ _ _ _ => Iff.rfl).symm

theorem permitted_canonical : inventory.canonical.permitted operation policy =
      (inventory.permitted operation policy).map ToolCapability.canonical := by
  unfold permitted
  rw [capabilities_canonical, filter_map]
  rfl

theorem visibleCapabilities_canonical : inventory.canonical.visibleCapabilities filter operation policy =
      (inventory.visibleCapabilities filter operation policy).map ToolCapability.canonical := by
  unfold visibleCapabilities
  rw [capabilities_canonical, filter_map]
  rfl

theorem searchLexemes_canonical (visible : List ToolCapability) :
    searchLexemes (visible.map ToolCapability.canonical) = searchLexemes visible := by
  unfold searchLexemes
  rw [flatMap_map]
  congr 2
  funext tool
  exact List.Pairwise.insertionSort_eq (List.pairwise_insertionSort _ _)

theorem prepare_canonical :
    inventory.canonical.prepare filter operation policy = (inventory.prepare filter operation policy).canonical := by
  unfold prepare Prepared.canonical
  dsimp only
  rw [visibleCapabilities_canonical, searchLexemes_canonical, map_map, filter_map, filter_map,
    map_map, any_map, any_map]
  rfl

theorem catalogContract_canonical (profile : ToolCatalogProfile) :
    inventory.canonical.catalogContract profile operation = inventory.catalogContract profile operation := by
  unfold catalogContract
  dsimp only
  rw [permitted_canonical, map_map, filterMap_map]
  rfl

theorem search_canonical :
    inventory.canonical.search filter operation policy = inventory.search filter operation policy := by
  unfold search
  rw [permitted_canonical, filter_map, filter_map, map_map]
  rfl

theorem searchRanked_canonical :
    inventory.canonical.searchRanked filter operation policy = inventory.searchRanked filter operation policy := by
  have hreturned (n : ℕ) :
      (((inventory.prepare filter operation policy).canonical.ranked.take n).map fun found =>
        found.document.capability.toRankedSearchResult) =
      ((inventory.prepare filter operation policy).ranked.take n).map fun found =>
        found.document.capability.toRankedSearchResult := by
    rw [Prepared.ranked_canonical, ← map_take, map_map]
    rfl
  unfold searchRanked
  dsimp only
  rw [prepare_canonical, hreturned, Prepared.ranked_canonical, length_map]
  rfl

end Canonical

/-! ### Two inventories -/

section TwoRuns

variable {first second : ToolInventory} {operation : ToolOperation} {policy : ToolInventoryPolicy}

/-- The two inventories permit the same tools. -/
def SamePermitted (first second : ToolInventory) (operation : ToolOperation) (policy : ToolInventoryPolicy) : Prop :=
  ∀ tool, tool ∈ (first.permitted operation policy).map ToolCapability.canonical ↔
    tool ∈ (second.permitted operation policy).map ToolCapability.canonical

theorem pairwise_permitted (inventory : ToolInventory) (operation : ToolOperation) (policy : ToolInventoryPolicy) :
    (inventory.permitted operation policy).Pairwise fun tool other => tool.name < other.name :=
  (pairwise_insertionSort (fun _ _ _ _ => Iff.rfl) inventory.names_nodup).sublist filter_sublist

theorem permitted_eq (h : SamePermitted first second operation policy) :
    first.canonical.permitted operation policy = second.canonical.permitted operation policy := by
  refine eq_of_mem_iff (pairwise_permitted _ _ _) (pairwise_permitted _ _ _) fun tool => ?_
  rw [permitted_canonical, permitted_canonical]
  exact h tool

theorem visibleCapabilities_eq_filter (inventory : ToolInventory) (filter : ToolSearchFilter)
    (operation : ToolOperation) (policy : ToolInventoryPolicy) : inventory.visibleCapabilities filter operation policy =
      (inventory.permitted operation policy).filter fun tool =>
        (!(boundedGroup filter).2 && (boundedGroup filter).1.all fun group => tool.group == some group) &&
          filter.readOnly.all fun readOnly => tool.readOnly == readOnly := by
  unfold visibleCapabilities permitted
  rw [filter_filter]
  refine filter_congr fun tool _ => ?_
  rw [Bool.and_assoc, Bool.and_comm]

variable (h : first.permitted operation policy = second.permitted operation policy) (filter : ToolSearchFilter)

include h

theorem catalogContract_congr (profile : ToolCatalogProfile) :
    first.catalogContract (profile.withPolicy policy) operation =
      second.catalogContract (profile.withPolicy policy) operation := by
  unfold catalogContract
  rw [show (profile.withPolicy policy).policy = policy from rfl, h]

theorem search_congr : first.search filter operation policy = second.search filter operation policy := by
  unfold search
  rw [h]

theorem searchRanked_congr :
    first.searchRanked filter operation policy = second.searchRanked filter operation policy := by
  have hprepare : first.prepare filter operation policy = second.prepare filter operation policy := by
    unfold prepare
    rw [visibleCapabilities_eq_filter, visibleCapabilities_eq_filter, h]
  unfold searchRanked
  rw [hprepare]

end TwoRuns

end ToolInventory

/-! ### The best matches -/

/-- How well a tool matches a concept of the query. -/
def ToolCapability.fieldScore (tool : ToolCapability) (concept : RankedQueryConcept) : ℕ :=
  (RankedCapabilityDocument.new tool).queryConceptScore concept

/-- A concept counts more if few tools of the corpus match it. -/
def rarity (corpus : List ToolCapability) (concept : RankedQueryConcept) : ℕ :=
  max ((corpus.length + 1) / (corpus.countP (fun tool => 0 < tool.fieldScore concept) + 1)) 1

def ToolCapability.score (corpus : List ToolCapability) (concepts : List RankedQueryConcept) (tool : ToolCapability) :
    ℕ :=
  (concepts.map fun concept => tool.fieldScore concept * rarity corpus concept).sum

def ToolCapability.matchedTerms (concepts : List RankedQueryConcept) (tool : ToolCapability) : ℕ :=
  concepts.countP fun concept => 0 < tool.fieldScore concept

/-- Descending score, descending number of matched terms, ascending safety rank and ascending name. -/
def rankKey (corpus : List ToolCapability) (concepts : List RankedQueryConcept) (tool : ToolCapability) :
    ℕᵒᵈ ×ₗ ℕᵒᵈ ×ₗ ℕ ×ₗ List Char :=
  toLex (OrderDual.toDual (tool.score corpus concepts),
    toLex (OrderDual.toDual (tool.matchedTerms concepts), toLex (capabilitySafetyRank tool, tool.name)))

/-- No words of the query are excluded, and nothing is cut but the number of results. -/
def RankedToolSearchResponse.Whole (response : RankedToolSearchResponse) : Prop :=
  response.matchSummary.excludedQueryTerms = [] ∧
    ∀ reason ∈ response.matchSummary.truncationReasons, reason = "result_limit" ∨ reason = "result_limit_clamped"

instance (response : RankedToolSearchResponse) : Decidable response.Whole := inferInstanceAs (Decidable (_ ∧ _))

namespace ToolInventory

/-- The permitted tools that the filter asks for. -/
def corpus (inventory : ToolInventory) (filter : ToolSearchFilter) (operation : ToolOperation)
    (policy : ToolInventoryPolicy) : List ToolCapability :=
  (inventory.permitted operation policy).filter filter.selects

def queryConcepts (inventory : ToolInventory) (filter : ToolSearchFilter) (operation : ToolOperation)
    (policy : ToolInventoryPolicy) : List RankedQueryConcept :=
  (inventory.prepare filter operation policy).query.positiveConcepts

/-- The order of the results. -/
def Outranks (inventory : ToolInventory) (filter : ToolSearchFilter) (operation : ToolOperation)
    (policy : ToolInventoryPolicy) (tool other : ToolCapability) : Prop :=
  rankKey (inventory.corpus filter operation policy) (inventory.queryConcepts filter operation policy) tool <
    rankKey (inventory.corpus filter operation policy) (inventory.queryConcepts filter operation policy) other

/-- Without a query every tool of the corpus matches. -/
def matching (inventory : ToolInventory) (filter : ToolSearchFilter) (operation : ToolOperation)
    (policy : ToolInventoryPolicy) : List ToolCapability :=
  (inventory.corpus filter operation policy).filter fun tool =>
    (trim (filter.query.getD [])).isEmpty || 0 < tool.matchedTerms (inventory.queryConcepts filter operation policy)

end ToolInventory

theorem mem_pushUniqueReason {reasons : List String} {condition : Bool} {reason other : String} :
    other ∈ pushUniqueReason reasons condition reason ↔ other ∈ reasons ∨ condition = true ∧ other = reason := by
  unfold pushUniqueReason
  by_cases hmem : reason ∈ reasons
  · have helem : reasons.elem reason = true := elem_iff.mpr hmem
    rw [helem, Bool.not_true, Bool.and_false, if_neg Bool.false_ne_true]
    exact ⟨.inl, fun h => h.elim id fun h => h.2 ▸ hmem⟩
  · have helem : reasons.elem reason = false := Bool.eq_false_iff.mpr fun h => hmem (elem_iff.mp h)
    rw [helem, Bool.not_false]
    cases condition with
    | false => simp
    | true => simp

theorem browseLe_iff {left right : RankedMatch} : browseLe left right = true ↔
    left.safetyRank < right.safetyRank ∨ left.safetyRank = right.safetyRank ∧
      left.document.capability.name ≤ right.document.capability.name := by
  unfold browseLe
  split_ifs with hne
  · rw [decide_eq_true_eq]
    exact ⟨.inl, fun h => h.elim id fun h => absurd h.1 hne⟩
  · rw [decide_eq_true_eq]
    have heq : left.safetyRank = right.safetyRank := not_not.mp hne
    exact ⟨fun h => .inr ⟨heq, h⟩, fun h => h.elim (fun h => absurd heq h.ne) And.right⟩

theorem scoreLe_iff {left right : RankedMatch} : scoreLe left right = true ↔
    right.score < left.score ∨ left.score = right.score ∧
      (right.matchedTerms < left.matchedTerms ∨ left.matchedTerms = right.matchedTerms ∧ browseLe left right = true) := by
  unfold scoreLe
  split_ifs with hscore hterms
  · rw [decide_eq_true_eq]
    exact ⟨.inl, fun h => h.elim id fun h => absurd h.1 hscore⟩
  · rw [decide_eq_true_eq]
    have heq : left.score = right.score := not_not.mp hscore
    exact ⟨fun h => .inr ⟨heq, .inl h⟩, fun h => h.elim (fun h => absurd heq.symm h.ne) fun h =>
      h.2.elim id fun h => absurd h.1 hterms⟩
  · have heq : left.score = right.score := not_not.mp hscore
    have heq' : left.matchedTerms = right.matchedTerms := not_not.mp hterms
    exact ⟨fun h => .inr ⟨heq, .inr ⟨heq', h⟩⟩, fun h => h.elim (fun h => absurd heq.symm h.ne) fun h =>
      h.2.elim (fun h => absurd heq'.symm h.ne) And.right⟩

section Score

variable {corpus : List ToolCapability} {concepts : List RankedQueryConcept} {tool : ToolCapability}

theorem score_pos : 0 < tool.score corpus concepts ↔ 0 < tool.matchedTerms concepts := by
  unfold score matchedTerms
  rw [countP_pos_iff, List.sum_pos_iff_exists_pos_nat]
  simp only [mem_map, exists_exists_and_eq_and, decide_eq_true_eq]
  refine exists_congr fun concept => and_congr_right fun _ => ?_
  have hrarity : 0 < rarity corpus concept := lt_of_lt_of_le Nat.zero_lt_one (le_max_right _ _)
  exact ⟨fun h => Nat.pos_of_mul_pos_right h, fun h => Nat.mul_pos h hrarity⟩

theorem conceptScore_eq (lexemes : List (List Char)) :
    conceptScore corpus.length ((RankedCapabilityDocument.new tool).buildExclusionTerms lexemes)
        (concepts.map fun concept => (concept, corpus.countP fun tool => 0 < tool.fieldScore concept)) =
      (tool.score corpus concepts, tool.matchedTerms concepts) := by
  induction concepts with
  | nil => rfl
  | cons concept concepts ih =>
    have hfield : ((RankedCapabilityDocument.new tool).buildExclusionTerms lexemes).queryConceptScore concept =
        tool.fieldScore concept := rfl
    unfold score matchedTerms at ih ⊢
    rw [map_cons, conceptScore, ih, hfield, map_cons]
    by_cases hzero : tool.fieldScore concept = 0
    · simp [hzero]
    · simp [hzero, Nat.pos_of_ne_zero hzero, rarity]

end Score

namespace ToolInventory

section Best

variable {inventory : ToolInventory} {filter : ToolSearchFilter} {operation : ToolOperation}
  {policy : ToolInventoryPolicy}

/-- A search that cuts nothing reads the whole query, group and texts. -/
theorem flags_of_whole (h : (inventory.searchRanked filter operation policy).Whole) :
    (boundedQuery filter).2 = false ∧ (boundedGroup filter).2 = false ∧
      (inventory.prepare filter operation policy).visibleMetadataTruncated = false ∧
      (inventory.prepare filter operation policy).failClosedQuery = false ∧
      (inventory.prepare filter operation policy).query.excludedConcepts = [] := by
  obtain ⟨hexcluded, hreasons⟩ := h
  have hfalse (condition : Bool) (reason : String) (hne : reason ≠ "result_limit" ∧ reason ≠ "result_limit_clamped")
      (hreason : condition = true →
        reason ∈ (inventory.searchRanked filter operation policy).matchSummary.truncationReasons) :
      condition = false :=
    Bool.eq_false_iff.mpr fun hcondition => (hreasons reason (hreason hcondition)).elim hne.1 hne.2
  have hquery : (inventory.prepare filter operation policy).queryInputTruncated = false :=
    hfalse _ "query_input" (by decide) fun hc => by simp [searchRanked, mem_pushUniqueReason, hc]
  have hgroup : (boundedGroup filter).2 = false :=
    hfalse _ "group_input" (by decide) fun hc => by simp [searchRanked, mem_pushUniqueReason, hc]
  have hterms : (inventory.prepare filter operation policy).query.excludedTermsTruncated = false :=
    hfalse _ "excluded_query_terms" (by decide) fun hc => by simp [searchRanked, mem_pushUniqueReason, hc]
  have hnegation : (inventory.prepare filter operation policy).query.danglingNegation = false :=
    hfalse _ "query_intent_ambiguous" (by decide) fun hc => by simp [searchRanked, mem_pushUniqueReason, hc]
  have hmetadata : (inventory.prepare filter operation policy).visibleMetadataTruncated = false :=
    hfalse _ "result_metadata" (by decide) fun hc => by simp [searchRanked, mem_pushUniqueReason, hc]
  refine ⟨hquery, hgroup, hmetadata, ?_, map_eq_nil_iff.mp hexcluded⟩
  rw [Prepared.failClosedQuery, hquery, hterms, hnegation, hmetadata]
  rfl

theorem visibleCapabilities_eq_corpus (h : (boundedGroup filter).2 = false) :
    inventory.visibleCapabilities filter operation policy = inventory.corpus filter operation policy := by
  have hgroup : (boundedGroup filter).1 = (filter.group.map trim).filter fun group => !group.isEmpty := by
    unfold boundedGroup at h ⊢
    cases hfilter : filter.group with
    | none => rfl
    | some group =>
      rw [hfilter] at h
      have hshort : group.length ≤ maxGroupChars := not_lt.mp (of_decide_eq_false h)
      dsimp only
      rw [truncateSearchText, take_of_length_le hshort, Option.map_some]
  rw [visibleCapabilities_eq_filter, h, hgroup]
  rfl

/-- The document of a tool. -/
def documentOf (lexemes : List (List Char)) (tool : ToolCapability) : RankedCapabilityDocument :=
  (RankedCapabilityDocument.new tool).buildExclusionTerms lexemes

theorem documents_eq (htrimmed : inventory.NamesTrimmed) (hgroup : (boundedGroup filter).2 = false)
    (hmetadata : (inventory.prepare filter operation policy).visibleMetadataTruncated = false) :
    (inventory.prepare filter operation policy).documents = (inventory.corpus filter operation policy).map
        (documentOf (searchLexemes (inventory.visibleCapabilities filter operation policy)).1) := by
  unfold prepare at hmetadata ⊢
  rw [← visibleCapabilities_eq_corpus hgroup]
  refine filter_eq_self.mpr fun document hdocument => ?_
  obtain ⟨tool, htool, rfl⟩ := mem_map.mp hdocument
  have hentry := (mem_permitted.mp (mem_permitted_of_mem_visible htool)).1
  have hcut := any_eq_false.mp (Bool.or_eq_false_iff.mp hmetadata).2 _ hdocument
  -- a name that is too long would have been noticed
  have hname : ¬maxToolNameChars < tool.name.length := fun hlong =>
    hcut ((metadataTruncated_iff tool).mpr (.inr (.inl hlong)))
  show (!(truncateSearchTextAtTokenBoundary tool.name maxToolNameChars).2 &&
    !(truncateSearchTextAtTokenBoundary tool.name maxToolNameChars).1.isEmpty) = true
  rw [truncate_snd, truncate_fst (not_lt.mp hname), decide_eq_false hname,
    isEmpty_eq_false_iff.mpr (htrimmed tool hentry).2]
  rfl

theorem browseQuery_eq (h : (boundedQuery filter).2 = false) :
    (inventory.prepare filter operation policy).browseQuery = (trim (filter.query.getD [])).isEmpty := by
  unfold prepare
  dsimp only
  rw [h]
  unfold boundedQuery at h ⊢
  cases hquery : filter.query with
  | none => rfl
  | some query =>
    rw [hquery] at h
    have hshort : query.length ≤ maxQueryChars := not_lt.mp (of_decide_eq_false h)
    dsimp only
    rw [truncateSearchText, take_of_length_le hshort]
    rfl

theorem queryConcepts_of_browse (h : (inventory.prepare filter operation policy).browseQuery = true) :
    inventory.queryConcepts filter operation policy = [] := by
  have hshort : (filter.query.getD []).length ≤ maxQueryChars := by
    have hwhole := (Bool.and_eq_true_iff.mp h).1
    rwa [boundedQuery_snd, Bool.not_eq_true', decide_eq_false_iff_not, not_lt] at hwhole
  rw [queryConcepts, prepare_query _ _ _ hshort, normalizeRankedQuery, queryWords_eq, words_eq_nil_of_browse h]
  rfl

/-- The match of a tool. -/
def matchOf (lexemes : List (List Char)) (corpus : List ToolCapability) (concepts : List RankedQueryConcept)
    (tool : ToolCapability) : RankedMatch :=
  ⟨tool.score corpus concepts, tool.matchedTerms concepts, capabilitySafetyRank tool, documentOf lexemes tool⟩

theorem rank_documentOf (htrimmed : inventory.NamesTrimmed)
    (h : (inventory.searchRanked filter operation policy).Whole) (tool : ToolCapability) :
    (inventory.prepare filter operation policy).rank
        (documentOf (searchLexemes (inventory.visibleCapabilities filter operation policy)).1 tool) =
      if (trim (filter.query.getD [])).isEmpty ||
          0 < tool.matchedTerms (inventory.queryConcepts filter operation policy) then
        some (matchOf (searchLexemes (inventory.visibleCapabilities filter operation policy)).1
          (inventory.corpus filter operation policy) (inventory.queryConcepts filter operation policy) tool)
      else none := by
  obtain ⟨hquery, hgroup, hmetadata, hopen, hexcluded⟩ := flags_of_whole h
  have hdocuments := documents_eq htrimmed hgroup hmetadata
  have hfrequencies : (inventory.prepare filter operation policy).documentFrequencies =
      (inventory.queryConcepts filter operation policy).map fun concept =>
        (concept, (inventory.corpus filter operation policy).countP fun tool => 0 < tool.fieldScore concept) := by
    refine map_congr_left fun concept _ => ?_
    rw [← countP_eq_length_filter, hdocuments, countP_map]
    rfl
  rw [Prepared.rank, hopen, if_neg Bool.false_ne_true, browseQuery_eq hquery, hexcluded, hfrequencies, hdocuments,
    length_map, documentOf, conceptScore_eq]
  cases hblank : (trim (filter.query.getD [])).isEmpty with
  | true =>
    have hconcepts : inventory.queryConcepts filter operation policy = [] :=
      queryConcepts_of_browse ((browseQuery_eq hquery).trans hblank)
    rw [hconcepts]
    rfl
  | false =>
    rw [if_neg Bool.false_ne_true, Bool.false_or, any_nil, Bool.or_false]
    cases hconcepts : inventory.queryConcepts filter operation policy with
    | nil =>
      rw [queryConcepts] at hconcepts
      rw [hconcepts]
      rfl
    | cons concept concepts =>
      have hsome : (inventory.prepare filter operation policy).query.positiveConcepts.isEmpty = false := by
        rw [queryConcepts] at hconcepts
        rw [hconcepts]
        rfl
      rw [hsome, if_neg Bool.false_ne_true]
      simp only [score_pos, decide_eq_true_eq]
      rfl

theorem filterMap_ite {α β : Type} (p : α → Bool) (f : α → β) (l : List α) :
    (l.filterMap fun a => if p a then some (f a) else none) = (l.filter p).map f := by
  rw [← filterMap_eq_map, filterMap_filter]
  rfl

theorem scoreLe_matchOf (lexemes : List (List Char)) {corpus : List ToolCapability}
    {concepts : List RankedQueryConcept} {tool other : ToolCapability} :
    scoreLe (matchOf lexemes corpus concepts tool) (matchOf lexemes corpus concepts other) = true ↔
      rankKey corpus concepts tool ≤ rankKey corpus concepts other := by
  rw [scoreLe_iff, browseLe_iff, rankKey, rankKey, Prod.Lex.toLex_le_toLex, Prod.Lex.toLex_le_toLex,
    Prod.Lex.toLex_le_toLex]
  rfl

theorem browseLe_matchOf {lexemes : List (List Char)} {corpus : List ToolCapability} {tool other : ToolCapability} :
    browseLe (matchOf lexemes corpus [] tool) (matchOf lexemes corpus [] other) = true ↔
      rankKey corpus [] tool ≤ rankKey corpus [] other := by
  rw [← scoreLe_matchOf lexemes, scoreLe_iff]
  simp [matchOf, score, matchedTerms]

theorem nodup_rankKey (concepts : List RankedQueryConcept) (corpus : List ToolCapability) :
    ((inventory.matching filter operation policy).map (rankKey corpus concepts)).Nodup := by
  have hnames := (pairwise_permitted inventory operation policy).sublist
    (filter_sublist.trans filter_sublist : (inventory.matching filter operation policy).Sublist _)
  refine pairwise_map.mpr (hnames.imp fun hlt heq => hlt.ne ?_)
  exact congrArg (fun key => (ofLex (ofLex (ofLex key).2).2).2) heq

/-- The matching tools in the order in which they are returned. -/
theorem exists_sorted (htrimmed : inventory.NamesTrimmed)
    (h : (inventory.searchRanked filter operation policy).Whole) : ∃ sorted : List ToolCapability,
      sorted.Pairwise (inventory.Outranks filter operation policy) ∧
      sorted.Perm (inventory.matching filter operation policy) ∧ (inventory.prepare filter operation policy).ranked =
        sorted.map (matchOf (searchLexemes (inventory.visibleCapabilities filter operation policy)).1
          (inventory.corpus filter operation policy) (inventory.queryConcepts filter operation policy)) := by
  obtain ⟨hquery, hgroup, hmetadata, -, -⟩ := flags_of_whole h
  set matched := matchOf (searchLexemes (inventory.visibleCapabilities filter operation policy)).1
    (inventory.corpus filter operation policy) (inventory.queryConcepts filter operation policy) with hmatched
  have hmatches : (inventory.prepare filter operation policy).documents.filterMap
      (inventory.prepare filter operation policy).rank = (inventory.matching filter operation policy).map matched := by
    rw [documents_eq htrimmed hgroup hmetadata, filterMap_map, matching, ← filterMap_ite]
    exact filterMap_congr fun tool _ => rank_documentOf htrimmed h tool
  let before (tool other : ToolCapability) : Prop :=
    (if (inventory.prepare filter operation policy).browseQuery then browseLe (matched tool) (matched other)
      else scoreLe (matched tool) (matched other)) = true
  have hbefore (tool other : ToolCapability) : before tool other ↔
      rankKey (inventory.corpus filter operation policy) (inventory.queryConcepts filter operation policy) tool ≤
        rankKey (inventory.corpus filter operation policy) (inventory.queryConcepts filter operation policy) other := by
    cases hbrowse : (inventory.prepare filter operation policy).browseQuery with
    | true =>
      simp only [before, hbrowse]
      rw [queryConcepts_of_browse hbrowse]
      exact browseLe_matchOf
    | false =>
      simp only [before, hbrowse]
      exact scoreLe_matchOf _
  refine ⟨(inventory.matching filter operation policy).insertionSort before,
    pairwise_insertionSort (fun tool _ other _ => hbefore tool other) (nodup_rankKey _ _),
    perm_insertionSort _ _, ?_⟩
  rw [Prepared.ranked, hmatches]
  exact (map_insertionSort before _ matched _ fun _ _ _ _ => Iff.rfl).symm

theorem exists_bestOf (htrimmed : inventory.NamesTrimmed) (h : (inventory.searchRanked filter operation policy).Whole) :
    ∃ best, BestOf (inventory.Outranks filter operation policy) (min (filter.limit.getD defaultLimit) maxLimit)
        (inventory.matching filter operation policy) best ∧
      (inventory.searchRanked filter operation policy).response.results =
        best.map fun tool => tool.toRankedSearchResult.1 := by
  obtain ⟨sorted, hsorted, hperm, hranked⟩ := exists_sorted htrimmed h
  refine ⟨_, bestOf_take hsorted hperm, ?_⟩
  unfold searchRanked
  dsimp only
  rw [hranked, ← map_take, map_map, map_map]
  rfl

end Best

def listUsers : ToolCapability := { ToolCapability.new "user.list".toList with readOnly := true }

def findUsers : ToolCapability := { ToolCapability.new "user.find".toList with readOnly := true }

/-- A tool that a policy for reading hides. -/
def purgeUsers : ToolCapability := (ToolCapability.new "user.purge".toList).withActionLexemes ["purge".toList]

def readersOnly : ToolInventoryPolicy := { ToolInventoryPolicy.strict with readOnlyOnly := true }

def auditProfile : ToolCatalogProfile :=
  ⟨"audit".toList, "Audit".toList, "Reading".toList, none, .strict, ["user.purge".toList], []⟩

def oneUserTool : ToolSearchFilter := ⟨some "list user".toList, none, none, some 1⟩

end ToolInventory

end McpToolkit.Core.Search
