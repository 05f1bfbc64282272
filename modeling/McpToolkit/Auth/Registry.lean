import McpToolkit.Auth.Path

/-!
# McpToolkit.Auth.Registry — the issuer registry

`IssuerRegistry` of `surface.rs`: how it is built from a configuration, and its lookups.  The
checks of URLs are left out; they only refuse configurations.  So are the fields that go into
metadata documents and challenges.
-/

namespace McpToolkit.Auth

open Lib.Text (trim trimBy)

inductive RootAliasPolicy where
  | automatic
  | enabled
  | disabled
  deriving DecidableEq

inductive UnmatchedRoutePolicy where
  | passThrough
  | deny
  deriving DecidableEq

/-- An authenticator, known by its provenance marker. -/
abbrev AuthenticatorId := ℕ

structure IssuerEntry where
  resourcePath : Path
  issuer : String
  allowedClientIds : List String
  authenticator : AuthenticatorId
  resourceUrlOverride : Option (List Char)
  deriving DecidableEq

structure AuthSurfaceConfig where
  publicBaseUrl : List Char
  entries : List IssuerEntry
  rootAliasPolicy : RootAliasPolicy
  publicPaths : List Path
  publicPrefixes : List Path
  deriving DecidableEq

inductive AuthSurfaceError where
  | emptyRegistry
  | emptyField (field : String)
  | duplicateResourcePath (path : Path)
  | duplicateWellKnownRoute (path : Path)
  deriving DecidableEq

structure IssuerRuntime where
  resourcePath : Path
  resourceUrl : List Char
  issuer : String
  allowedClientIds : List String
  authenticator : AuthenticatorId
  deriving DecidableEq

inductive WellKnownKind where
  | authorizationServer
  | openIdConfiguration
  | protectedResource
  deriving DecidableEq

structure WellKnownRoute where
  kind : WellKnownKind
  entry : IssuerRuntime
  deriving DecidableEq

structure IssuerRegistry where
  entries : List IssuerRuntime
  wellKnown : List (Path × WellKnownRoute)
  publicPaths : List Path
  publicPrefixes : List Path
  unmatchedRoutePolicy : UnmatchedRoutePolicy
  deriving DecidableEq

/-! ### Building -/

def resourceUrlFromBase (baseUrl : List Char) (resourcePath : Path) : List Char :=
  let base := (baseUrl.reverse.dropWhile (· == '/')).reverse
  let path := resourcePath.dropWhile (· == '/')
  if path = [] then base else base ++ '/' :: path

/-- The name of a well-known document; `canonical` is its path for the root resource. -/
def WellKnownKind.canonical : WellKnownKind → Path
  | .authorizationServer => "/.well-known/oauth-authorization-server".toList
  | .openIdConfiguration => "/.well-known/openid-configuration".toList
  | .protectedResource => "/.well-known/oauth-protected-resource".toList

def wellKnownPaths (resourcePath : Path) (kind : WellKnownKind) : List Path :=
  let trimmed := trimBy (· == '/') (trim resourcePath)
  if trimmed = [] then [kind.canonical] else [kind.canonical ++ '/' :: trimmed]

def insertWellKnownRoutes (map : List (Path × WellKnownRoute)) (paths : List Path)
    (kind : WellKnownKind) (entry : IssuerRuntime) (allowRootAlias : Bool) :
    Except AuthSurfaceError (List (Path × WellKnownRoute)) :=
  let paths := if allowRootAlias then paths else paths.filter (· ≠ kind.canonical)
  paths.foldlM (fun map path =>
    if (map.lookup path).isSome then .error (.duplicateWellKnownRoute path)
    else .ok ((path, ⟨kind, entry⟩) :: map)) map

/-- The body of the loop over the configured entries. -/
def addEntry (config : AuthSurfaceConfig) (rootAliasAllowed : Bool)
    (acc : List IssuerRuntime × List (Path × WellKnownRoute)) (entry : IssuerEntry) :
    Except AuthSurfaceError (List IssuerRuntime × List (Path × WellKnownRoute)) := do
  let resourcePath := normalizeResourcePath entry.resourcePath
  if resourcePath = [] then throw (.emptyField "resource_path")
  if trim entry.issuer.toList = [] then throw (.emptyField "issuer")
  if acc.1.any (·.resourcePath == resourcePath) then throw (.duplicateResourcePath resourcePath)
  let runtime : IssuerRuntime :=
    { resourcePath
      resourceUrl := entry.resourceUrlOverride.getD
        (resourceUrlFromBase config.publicBaseUrl resourcePath)
      issuer := entry.issuer
      allowedClientIds := entry.allowedClientIds
      authenticator := entry.authenticator }
  let allowRootAlias := rootAliasAllowed || resourcePath == ['/']
  let insert map kind :=
    insertWellKnownRoutes map (wellKnownPaths resourcePath kind) kind runtime allowRootAlias
  let map ← insert acc.2 .authorizationServer
  let map ← insert map .openIdConfiguration
  let map ← insert map .protectedResource
  return (acc.1 ++ [runtime], map)

/-- `IssuerRegistry::new_with_unmatched_route_policy`. -/
def IssuerRegistry.new (config : AuthSurfaceConfig) (policy : UnmatchedRoutePolicy) :
    Except AuthSurfaceError IssuerRegistry := do
  if config.entries = [] then throw .emptyRegistry
  let rootAliasAllowed := match config.rootAliasPolicy with
    | .enabled => true
    | .disabled => false
    | .automatic => config.entries.length == 1
  let (entries, wellKnown) ← config.entries.foldlM (addEntry config rootAliasAllowed) ([], [])
  return { entries, wellKnown
           publicPaths := config.publicPaths.map normalizeResourcePath
           publicPrefixes := config.publicPrefixes.map normalizeResourcePath
           unmatchedRoutePolicy := policy }

/-! ### Lookups -/

namespace IssuerRegistry

variable (reg : IssuerRegistry)

/-- `str::len`, in bytes. -/
def byteLength (path : Path) : ℕ := (path.map Char.utf8Size).sum

/-- The body of the loop of `match_entry`: the best entry so far, with the length of its path. -/
def better (path : Path) (best : Option IssuerRuntime × ℕ) (entry : IssuerRuntime) :
    Option IssuerRuntime × ℕ :=
  if pathMatchesResource path entry.resourcePath then
    if best.2 ≤ byteLength entry.resourcePath then (some entry, byteLength entry.resourcePath)
    else best
  else best

def matchEntry (path : Path) : Option IssuerRuntime :=
  (reg.entries.foldl (better path) (none, 0)).1

def wellKnownRoute (path : Path) : Option WellKnownRoute := reg.wellKnown.lookup path

def isPublicPath (path : Path) : Bool :=
  reg.publicPaths.contains path || reg.publicPrefixes.any fun pre =>
    pre == ['/'] || path == pre || (pre ++ ['/']).isPrefixOf path

def deniesUnmatchedRoutes : Bool := reg.unmatchedRoutePolicy == .deny

/-- Some resource path covers the path. -/
def protects (path : Path) : Bool := reg.entries.any fun e => pathMatchesResource path e.resourcePath

theorem foldl_better_isSome {path : Path} : ∀ {entries : List IssuerRuntime}
    {best : Option IssuerRuntime × ℕ}, best.1.isSome = true →
    (entries.foldl (better path) best).1.isSome = true
  | [], _, h => h
  | e :: entries, best, h => by
    have hbest : (better path best e).1.isSome = true := by
      unfold better
      split_ifs
      · rfl
      · exact h
      · exact h
    rw [List.foldl_cons]
    exact foldl_better_isSome hbest

theorem isSome_matchEntry (path : Path) : (reg.matchEntry path).isSome = reg.protects path := by
  unfold matchEntry protects
  induction reg.entries with
  | nil => rfl
  | cons e entries ih =>
    rw [List.foldl_cons, List.any_cons]
    cases he : pathMatchesResource path e.resourcePath with
    | true =>
      refine foldl_better_isSome ?_
      rw [better, if_pos he, if_pos (Nat.zero_le _)]
      rfl
    | false =>
      rw [better, if_neg (by simp [he])]
      exact ih

end IssuerRegistry

end McpToolkit.Auth
