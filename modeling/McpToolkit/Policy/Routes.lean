import Mathlib.Data.List.Sort
import McpToolkit.Lib.Segments
import McpToolkit.Policy.Decision

/-!
# McpToolkit.Policy.Routes — scopes by route

`ScopeRoute` and `RoutePolicy` of `embed.rs`.  A policy keeps its routes sorted by the length of
their normalised prefixes, the longest first, and takes the first one that matches the text of the
normalised path.  In terms of segments, that is the longest prefix (`requiredScopes_eq`): a
normalised prefix is the joined segments behind one slash, and a normalised path the collapsed text.
-/

namespace McpToolkit.Policy

open List
open Lib.Segments
open Lib.Text (getLast?_trimBy_any head?_trimBy_any strip_starts_iff trim
  trimBy utf8Length utf8Length_append utf8Length_pos)

/-- `push_normalized_path_chars`: the text with repeated slashes dropped, behind `normalized`. -/
def pushNormalizedPathChars (path normalized : Text) : Text := normalized ++ collapse '/' false path

def normalizePrefix (pathPrefix : Text) : Text :=
  let trimmed := trim pathPrefix
  let core := trimBy (· == '/') trimmed
  if core.isEmpty then ['/'] else pushNormalizedPathChars core ['/']

def normalizePath (path : Text) : Text :=
  let trimmed := trim path
  let normalized := if trimmed.head? = some '/' then [] else ['/']
  let normalized := pushNormalizedPathChars trimmed normalized
  if normalized.isEmpty then ['/'] else normalized

/-! ### Methods -/

inductive MethodPolicy where
  | read
  | write
  | deny
  deriving DecidableEq

def classifyMethod (method : Text) : MethodPolicy :=
  let normalized := String.ofList ((trim method).map Char.toUpper)
  if normalized = "GET" ∨ normalized = "HEAD" ∨ normalized = "OPTIONS" then .read
  else if normalized = "TRACE" ∨ normalized = "CONNECT" then .deny
  else .write

def isReadMethod (method : Text) : Bool := classifyMethod method = .read

/-! ### Routes -/

structure ScopeRoute where
  pathPrefix : Text
  readScope : Text
  writeScope : Text
  deriving DecidableEq

def ScopeRoute.new (pathPrefix readScope writeScope : Text) : ScopeRoute :=
  ⟨normalizePrefix pathPrefix, readScope, writeScope⟩

/-- The order of `sort_by_key`: longer prefixes first. -/
def ScopeRoute.Before (a b : ScopeRoute) : Prop := utf8Length b.pathPrefix ≤ utf8Length a.pathPrefix

instance : DecidableRel ScopeRoute.Before := fun _ _ => inferInstanceAs (Decidable (_ ≤ _))
instance : Std.Total ScopeRoute.Before := ⟨fun _ _ => Nat.le_total _ _⟩
instance : IsTrans ScopeRoute ScopeRoute.Before := ⟨fun _ _ _ hab hbc => hbc.trans hab⟩

structure RoutePolicy where
  defaultReadScope : Text
  defaultWriteScope : Text
  routes : List ScopeRoute
  normal : ∀ route ∈ routes, ∃ text, route.pathPrefix = normalizePrefix text
  sorted : routes.Pairwise ScopeRoute.Before

namespace RoutePolicy

/-- `RoutePolicy::default`. -/
def default : RoutePolicy where
  defaultReadScope := "mcp:read".toList
  defaultWriteScope := "mcp:write".toList
  routes := []
  normal := by simp
  sorted := .nil

def withDefaultScopes (policy : RoutePolicy) (readScope writeScope : Text) : RoutePolicy :=
  { policy with defaultReadScope := readScope, defaultWriteScope := writeScope }

/-- The sort is stable, as `insertionSort` is. -/
def withRoute (policy : RoutePolicy) (pathPrefix readScope writeScope : Text) : RoutePolicy where
  defaultReadScope := policy.defaultReadScope
  defaultWriteScope := policy.defaultWriteScope
  routes := (policy.routes ++ [ScopeRoute.new pathPrefix readScope writeScope]).insertionSort
    ScopeRoute.Before
  normal route hroute := by
    rw [mem_insertionSort, mem_append, mem_singleton] at hroute
    rcases hroute with hroute | rfl
    · exact policy.normal route hroute
    · exact ⟨pathPrefix, rfl⟩
  sorted := List.pairwise_insertionSort _ _

/-- The condition of `route_for_path`. -/
def covers (route : ScopeRoute) (normalized : Text) : Bool :=
  route.pathPrefix == ['/'] || normalized == route.pathPrefix ||
    (route.pathPrefix.isPrefixOf normalized &&
      (normalized.drop route.pathPrefix.length).head? == some '/')

def routeForPath (policy : RoutePolicy) (path : Text) : Option ScopeRoute :=
  let normalized := normalizePath path
  policy.routes.find? fun route => covers route normalized

def requiredScopes (policy : RoutePolicy) (method path : Text) : List Text :=
  let isRead := isReadMethod method
  [((policy.routeForPath path).map fun route =>
      if isRead then route.readScope else route.writeScope).getD
    (if isRead then policy.defaultReadScope else policy.defaultWriteScope)]

end RoutePolicy

/-! ### Segments -/

/-- The non-empty pieces between slashes of the trimmed text. -/
def pathSegments (text : Text) : List Text := segments '/' (trim text)

theorem isSegment_pathSegments {text : Text} : ∀ s ∈ pathSegments text, IsSegment '/' s :=
  fun _ => isSegment_of_mem

theorem normalizePath_eq (path : Text) : normalizePath path = '/' :: collapse '/' true (trim path) := by
  unfold normalizePath pushNormalizedPathChars
  dsimp only
  by_cases h : (trim path).head? = some '/'
  · obtain ⟨rest, hrest⟩ := head?_eq_some_iff.mp h
    rw [if_pos h, hrest, nil_append, collapse_false_cons_sep, collapse, if_pos rfl, if_pos rfl]
    rfl
  · rw [if_neg h, collapse_false_eq h]
    rfl

theorem normalizePrefix_eq (text : Text) : normalizePrefix text = '/' :: join '/' (pathSegments text) := by
  unfold normalizePrefix pushNormalizedPathChars
  dsimp only
  have hsegs : segments '/' (trimBy (· == '/') (trim text)) = pathSegments text := segments_trimBy _
  split_ifs with hempty
  · rw [isEmpty_iff.mp hempty, segments_nil] at hsegs
    rw [← hsegs, join_nil]
  · -- the core starts and ends with a symbol of a segment
    have hhead : (trimBy (· == '/') (trim text)).head? ≠ some '/' := by
      intro h
      have hany := head?_trimBy_any (· == '/') (trim text)
      rw [h] at hany
      cases hany
    have hlast : (trimBy (· == '/') (trim text)).getLast? ≠ some '/' := by
      intro h
      have hany := getLast?_trimBy_any (· == '/') (trim text)
      rw [h] at hany
      cases hany
    rw [collapse_false_eq hhead, collapse_true_of_getLast? hlast, hsegs, singleton_append]

theorem pathSegments_normalizePrefix (text : Text) : segments '/' (normalizePrefix text) = pathSegments text := by
  rw [normalizePrefix_eq, segments_cons_sep, segments_join isSegment_pathSegments]

theorem join_eq_nil {ss : List Text} (h : ∀ s ∈ ss, IsSegment '/' s) (hj : join '/' ss = []) : ss = [] := by
  have := segments_join h
  rw [hj] at this
  exact this.symm

theorem utf8Length_join_lt {ss ts : List Text} (hts : ∀ s ∈ ts, IsSegment '/' s) (hpre : ss <+: ts)
    (hne : ss ≠ ts) : utf8Length (join '/' ss) < utf8Length (join '/' ts) := by
  obtain ⟨us, rfl⟩ := hpre
  have hus : us ≠ [] := by
    rintro rfl
    exact hne (append_nil ss).symm
  by_cases hss : ss = []
  · subst hss
    exact utf8Length_pos fun h => hus (join_eq_nil hts h)
  · rw [join_append hss hus, utf8Length_append]
    exact Nat.lt_add_of_pos_right (utf8Length_pos (cons_ne_nil _ _))

theorem before_of_find? {routes : List ScopeRoute} {p : ScopeRoute → Bool} {route other : ScopeRoute}
    (hsorted : routes.Pairwise ScopeRoute.Before) (hfind : routes.find? p = some route)
    (hother : other ∈ routes) (hp : p other = true) : route.Before other := by
  obtain ⟨_, front, back, rfl, hfront⟩ := find?_eq_some_iff_append.mp hfind
  rcases mem_append.mp hother with hmem | hmem
  · exact absurd hp (by simpa using hfront other hmem)
  · rcases mem_cons.mp hmem with rfl | hmem
    · exact le_rfl
    · exact rel_of_pairwise_cons (pairwise_append.mp hsorted).2.1 hmem

namespace RoutePolicy

/-- **A route matches exactly if its segments are a prefix of the path's.** -/
theorem covers_iff {policy : RoutePolicy} {route : ScopeRoute} (hroute : route ∈ policy.routes)
    (path : Text) : covers route (normalizePath path) = true ↔ segments '/' route.pathPrefix <+: pathSegments path := by
  obtain ⟨text, htext⟩ := policy.normal route hroute
  rw [htext, pathSegments_normalizePrefix, covers, htext, normalizePrefix_eq, normalizePath_eq]
  by_cases hne : pathSegments text = []
  · simp [hne]
  · have hj : join '/' (pathSegments text) ≠ [] := fun h => hne (join_eq_nil isSegment_pathSegments h)
    rw [pathSegments.eq_1 path, ← collapse_covered_iff isSegment_pathSegments hne,
      Bool.or_eq_true, strip_starts_iff]
    simp [hj]

theorem routeForPath_congr (policy : RoutePolicy) {path path' : Text}
    (h : pathSegments path = pathSegments path') : policy.routeForPath path = policy.routeForPath path' := by
  unfold routeForPath
  rw [← head?_filter, ← head?_filter]
  refine congrArg List.head? (filter_congr fun route hroute => ?_)
  rw [Bool.eq_iff_iff, covers_iff hroute, covers_iff hroute, h]

theorem requiredScopes_congr (policy : RoutePolicy) (method : Text) {path path' : Text}
    (h : pathSegments path = pathSegments path') :
    policy.requiredScopes method path = policy.requiredScopes method path' := by
  rw [requiredScopes, requiredScopes, policy.routeForPath_congr h]

/-! ### The longest prefix -/

/-- The segments of a route, with its scopes. -/
def entry (route : ScopeRoute) : List Text × Text × Text :=
  (segments '/' route.pathPrefix, route.readScope, route.writeScope)

def table (policy : RoutePolicy) : List (List Text × Text × Text) := policy.routes.map entry

/-- The scope of an entry for a read or a write, or the default. -/
def scopeOf (policy : RoutePolicy) (isRead : Bool) (selected : Option (List Text × Text × Text)) : Text :=
  (selected.map fun e => if isRead then e.2.1 else e.2.2).getD
    (if isRead then policy.defaultReadScope else policy.defaultWriteScope)

theorem routeForPath_longest (policy : RoutePolicy) (path : Text) :
    LongestPrefix policy.table (pathSegments path) ((policy.routeForPath path).map entry) := by
  cases hfind : policy.routeForPath path with
  | none =>
    intro e he hpre
    obtain ⟨route, hroute, rfl⟩ := mem_map.mp he
    have hnone := find?_eq_none.mp hfind route hroute
    exact hnone ((covers_iff hroute path).mpr hpre)
  | some route =>
    have hmem := mem_of_find?_eq_some hfind
    have hcovers := (covers_iff hmem path).mp
      (find?_some (p := fun route => covers route (normalizePath path)) hfind)
    refine ⟨mem_map_of_mem hmem, hcovers, fun e he hpre => ?_⟩
    obtain ⟨other, hother, rfl⟩ := mem_map.mp he
    have hbefore := before_of_find? policy.sorted hfind hother ((covers_iff hother path).mpr hpre)
    -- a match with more segments would be the longer text
    by_contra hlong
    have hlt : (segments '/' route.pathPrefix).length < (segments '/' other.pathPrefix).length :=
      not_le.mp hlong
    obtain ⟨text, htext⟩ := policy.normal route hmem
    obtain ⟨text', htext'⟩ := policy.normal other hother
    unfold ScopeRoute.Before at hbefore
    unfold entry at hpre
    rw [htext, pathSegments_normalizePrefix] at hcovers hlt
    rw [htext', pathSegments_normalizePrefix] at hpre hlt
    have hlonger := utf8Length_join_lt isSegment_pathSegments
      (prefix_of_prefix_length_le hcovers hpre hlt.le) (fun heq => hlt.ne (by rw [heq]))
    rw [htext, htext', normalizePrefix_eq, normalizePrefix_eq]
      at hbefore
    exact absurd hlonger (not_lt.mpr (Nat.le_of_add_le_add_left hbefore))

theorem requiredScopes_eq (policy : RoutePolicy) (method path : Text) : policy.requiredScopes method path =
      [policy.scopeOf (isReadMethod method) ((policy.routeForPath path).map entry)] := by
  rw [scopeOf, Option.map_map]
  rfl

end RoutePolicy

/-! ### Registrations -/

/-- The arguments of one call of `with_route`. -/
structure Registration where
  pathPrefix : Text
  readScope : Text
  writeScope : Text
  deriving DecidableEq

namespace Registration

def entry (r : Registration) : List Text × Text × Text :=
  (pathSegments r.pathPrefix, r.readScope, r.writeScope)

end Registration

namespace RoutePolicy

def register (policy : RoutePolicy) (regs : List Registration) : RoutePolicy :=
  regs.foldl (fun policy r => policy.withRoute r.pathPrefix r.readScope r.writeScope) policy

theorem table_withRoute (policy : RoutePolicy) (r : Registration) :
    (policy.withRoute r.pathPrefix r.readScope r.writeScope).table.Perm (policy.table ++ [r.entry]) := by
  have hentry : entry (.new r.pathPrefix r.readScope r.writeScope) = r.entry := by
    rw [entry, ScopeRoute.new, pathSegments_normalizePrefix]
    rfl
  have hperm := (perm_insertionSort ScopeRoute.Before
    (policy.routes ++ [ScopeRoute.new r.pathPrefix r.readScope r.writeScope])).map entry
  rwa [map_append, map_singleton, hentry] at hperm

theorem table_register (policy : RoutePolicy) (regs : List Registration) :
    (policy.register regs).table.Perm (policy.table ++ regs.map Registration.entry) := by
  induction regs generalizing policy with
  | nil => simp [register]
  | cons r regs ih =>
    refine (ih _).trans ?_
    have hstep := (table_withRoute policy r).append_right (regs.map Registration.entry)
    rwa [append_assoc] at hstep

theorem scopeOf_register (policy : RoutePolicy) (regs : List Registration) :
    (policy.register regs).scopeOf = policy.scopeOf := by
  induction regs generalizing policy with
  | nil => rfl
  | cons r regs ih => exact ih _

end RoutePolicy

/-- Slashes are repeated, or added at the ends. -/
inductive Slashed : Text → Text → Prop
  | refl (t : Text) : Slashed t t
  | lead (t : Text) : Slashed t ('/' :: t)
  | trail (t : Text) : Slashed t (t ++ ['/'])
  | double (u v : Text) : Slashed (u ++ '/' :: v) (u ++ '/' :: '/' :: v)
  | trans {t u v : Text} : Slashed t u → Slashed u v → Slashed t v

theorem Slashed.segments_eq {t u : Text} (h : Slashed t u) : segments '/' t = segments '/' u := by
  induction h with
  | refl => rfl
  | lead t => rw [segments_cons_sep]
  | trail t => rw [segments_concat_sep]
  | double u v => rw [segments_append_cons, segments_append_cons, segments_cons_sep]
  | trans _ _ ih ih' => exact ih.trans ih'

/-- The same registration, with slashes repeated or added at the ends of the trimmed prefix. -/
def Registration.Slashed (r r' : Registration) : Prop :=
  Policy.Slashed (trim r.pathPrefix) (trim r'.pathPrefix) ∧ r.readScope = r'.readScope ∧
    r.writeScope = r'.writeScope

theorem entries_of_slashed {regs regs' : List Registration} (h : List.Forall₂ Registration.Slashed regs regs') :
    regs.map Registration.entry = regs'.map Registration.entry := by
  induction h with
  | nil => rfl
  | cons hr _ ih =>
    rw [map_cons, map_cons, ih, Registration.entry, Registration.entry, pathSegments,
      pathSegments, hr.1.segments_eq, hr.2.1, hr.2.2]

theorem entry_injOn {regs : List Registration} (h : (regs.map fun r => normalizePrefix r.pathPrefix).Nodup) :
    ∀ e ∈ regs.map Registration.entry, ∀ e' ∈ regs.map Registration.entry, e.1 = e'.1 → e = e' := by
  intro e he e' he' hkey
  obtain ⟨r, hr, rfl⟩ := mem_map.mp he
  obtain ⟨r', hr', rfl⟩ := mem_map.mp he'
  have hprefix : normalizePrefix r.pathPrefix = normalizePrefix r'.pathPrefix := by
    rw [normalizePrefix_eq, normalizePrefix_eq]
    exact congrArg (fun ss => '/' :: join '/' ss) hkey
  rw [inj_on_of_nodup_map h hr hr' hprefix]

section Registered

variable (readScope writeScope : Text) (regs : List Registration)

/-- The policy after the registrations, with the defaults given. -/
def registered : RoutePolicy := (RoutePolicy.default.withDefaultScopes readScope writeScope).register regs

theorem registered_longest (method path : Text) :
    ∃ selected, LongestPrefix (regs.map Registration.entry) (pathSegments path) selected ∧
      (registered readScope writeScope regs).requiredScopes method path =
        [(RoutePolicy.default.withDefaultScopes readScope writeScope).scopeOf (isReadMethod method) selected] := by
  have htable := RoutePolicy.table_register
    (RoutePolicy.default.withDefaultScopes readScope writeScope) regs
  refine ⟨_, ((registered readScope writeScope regs).routeForPath_longest path).of_perm htable, ?_⟩
  rw [RoutePolicy.requiredScopes_eq, registered, RoutePolicy.scopeOf_register]

variable {readScope writeScope regs}

theorem registered_congr {regs' : List Registration} {path path' : Text} (method : Text)
    (hdistinct : (regs.map fun r => normalizePrefix r.pathPrefix).Nodup)
    (hperm : (regs'.map Registration.entry).Perm (regs.map Registration.entry))
    (hpath : pathSegments path' = pathSegments path) :
    (registered readScope writeScope regs').requiredScopes method path' =
      (registered readScope writeScope regs).requiredScopes method path := by
  obtain ⟨selected, hlongest, hscopes⟩ := registered_longest readScope writeScope regs method path
  obtain ⟨selected', hlongest', hscopes'⟩ := registered_longest readScope writeScope regs' method path'
  rw [hpath] at hlongest'
  rw [hscopes, hscopes', (hlongest'.of_perm hperm).unique (entry_injOn hdistinct) hlongest]

end Registered

/-- **Longest-prefix routing.**  Registered routes with distinct normalised prefixes are looked up by
the longest segment prefix.  The order of the registrations does not matter, nor do slashes that are
repeated, or added at the ends of the trimmed path or of a trimmed prefix. -/
theorem requiredScopes_longestPrefix (readScope writeScope : Text) (regs : List Registration)
    (method path : Text) (hdistinct : (regs.map fun r => normalizePrefix r.pathPrefix).Nodup) :
    (∃! selected, LongestPrefix (regs.map Registration.entry) (pathSegments path) selected ∧
      (registered readScope writeScope regs).requiredScopes method path =
        [(RoutePolicy.default.withDefaultScopes readScope writeScope).scopeOf (isReadMethod method) selected]) ∧
    (∀ regs', regs.Perm regs' → (registered readScope writeScope regs').requiredScopes method path =
      (registered readScope writeScope regs).requiredScopes method path) ∧
    ∀ regs' path', List.Forall₂ Registration.Slashed regs regs' → Slashed (trim path) (trim path') →
      (registered readScope writeScope regs').requiredScopes method path' =
        (registered readScope writeScope regs).requiredScopes method path := by
  obtain ⟨selected, hlongest, hscopes⟩ := registered_longest readScope writeScope regs method path
  refine ⟨⟨selected, ⟨hlongest, hscopes⟩, fun other hother => ?_⟩, fun regs' hperm => ?_,
    fun regs' path' hregs hpath => ?_⟩
  · exact hother.1.unique (entry_injOn hdistinct) hlongest
  · exact registered_congr method hdistinct (hperm.map _).symm rfl
  · refine registered_congr method hdistinct ?_ hpath.segments_eq.symm
    rw [entries_of_slashed hregs]

/-- The routes of the root, of an API and of its administration. -/
def sampleRegistrations : List Registration :=
  [⟨"/".toList, "public:read".toList, "public:write".toList⟩,
    ⟨"//api/".toList, "api:read".toList, "api:write".toList⟩,
    ⟨" /api/v1//admin ".toList, "admin:read".toList, "admin:write".toList⟩]

theorem requiredScopes_longestPrefix_admin : ∃ selected, LongestPrefix (sampleRegistrations.map Registration.entry)
        (pathSegments "/api//v1/admin/users".toList) selected ∧
      (registered [] [] sampleRegistrations).requiredScopes "GET".toList "/api//v1/admin/users".toList =
        [(RoutePolicy.default.withDefaultScopes [] []).scopeOf (isReadMethod "GET".toList) selected] :=
  (requiredScopes_longestPrefix [] [] sampleRegistrations "GET".toList "/api//v1/admin/users".toList
    (by decide)).1.exists

/-- A slash in front of a blank turns the blank into a part of the segment. -/
theorem requiredScopes_slash_before_blank : Slashed " mcp".toList "/ mcp".toList ∧
      (registered "r".toList "w".toList [⟨"mcp".toList, "mcp".toList, "mcp".toList⟩]).requiredScopes
        "GET".toList " mcp".toList = ["mcp".toList] ∧
      (registered "r".toList "w".toList [⟨"mcp".toList, "mcp".toList, "mcp".toList⟩]).requiredScopes
        "GET".toList "/ mcp".toList = ["r".toList] :=
  ⟨.lead _, by decide, by decide⟩

end McpToolkit.Policy
