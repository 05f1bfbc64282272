import McpToolkit.Policy.Embed

/-!
# McpToolkit.Policy.KernelAdapters — gateway and DAS decisions

`mcp-toolkit-policy-kernel-adapters`.  The path of a gateway request is read on its UTF-8 bytes, as in
`HttpPath`; `contains_encoded_delimiter` and the limits of the claims have the bodies they have in the policy
core, and are taken from there.
-/

namespace McpToolkit.Policy.KernelAdapters

open Lib.Segments
open Lib.Text (ascii trimBy)

/-! ### Gateway -/

structure GatewayDecisionInput (ν : Type) where
  method : Text
  path : Text
  tokenScopes : List Text
  claims : ClaimsMap ν
  cfg : ClaimsCfg

inductive ScopeFamily
  | users
  | groups
  | roles
  | clients
  | clientScopes
  | idp
  | events
  | tokens
  | observability
  | realm
  deriving DecidableEq

def pathSegments (path : List UInt8) : List (List UInt8) := segments slash (trimBy (· == slash) path)

/-- The segments that name a family; the source has the table twice. -/
def resourceFamilies : List (String × ScopeFamily) :=
  [("users", .users), ("groups", .groups), ("roles", .roles), ("roles-by-id", .roles), ("clients", .clients),
    ("client-scopes", .clientScopes), ("identity-provider", .idp), ("events", .events), ("sessions", .tokens),
    ("user-sessions", .tokens), ("offline-sessions", .tokens), ("client-session-stats", .tokens),
    ("attack-detection", .observability), ("serverinfo", .observability), ("metrics", .observability)]

def resourceFamily (segment : List UInt8) : Option ScopeFamily :=
  (resourceFamilies.find? fun entry => ascii entry.1 == segment).map Prod.snd

def adminRealmScope (segments : List (List UInt8)) : Option ScopeFamily :=
  if segments[0]? != some (ascii "admin") || segments[1]? != some (ascii "realms") then none
  else segments[3]?.bind fun segment => if segment == ascii "realm" then some .realm else resourceFamily segment

def scopeFamily (segments : List (List UInt8)) : ScopeFamily :=
  match adminRealmScope segments with
  | some family => family
  | none => (segments[1]?.bind resourceFamily).getD .realm

def isClientSecretPath (segments : List (List UInt8)) : Bool := segments.contains (ascii "client-secret")

def scopeForRw (isRead : Bool) (readScope writeScope : String) : String :=
  if isRead then readScope else writeScope

/-- The one scope that a family asks for. -/
def familyScope (isRead clientSecret : Bool) : ScopeFamily → String
  | .users => scopeForRw isRead "keycloak-admin:users:read" "keycloak-admin:users:write"
  | .groups => scopeForRw isRead "keycloak-admin:groups:read" "keycloak-admin:groups:write"
  | .roles => scopeForRw isRead "keycloak-admin:roles:read" "keycloak-admin:roles:write"
  | .clients =>
    if clientSecret then "keycloak-admin:clients:secrets"
    else scopeForRw isRead "keycloak-admin:clients:read" "keycloak-admin:clients:write"
  | .clientScopes => scopeForRw isRead "keycloak-admin:client-scopes:read" "keycloak-admin:client-scopes:write"
  | .idp => scopeForRw isRead "keycloak-admin:idp:read" "keycloak-admin:idp:write"
  | .events => scopeForRw isRead "keycloak-admin:events:read" "keycloak-admin:events:admin"
  | .realm => scopeForRw isRead "keycloak-admin:realm:read" "keycloak-admin:realm:write"
  | .tokens => if isRead then "keycloak-admin:tokens:read" else "keycloak-admin:realm:admin"
  | .observability => "keycloak-admin:observability:read"

def isReadMethod (method : Text) : Bool :=
  method == "GET".toList || method == "HEAD".toList || method == "OPTIONS".toList

def requiredScopes (method path : Text) : List Text :=
  let segments := pathSegments (utf8 path)
  [(familyScope (isReadMethod method) (isClientSecretPath segments) (scopeFamily segments)).toList]

def kernelGatewayPathDenied (path : List UInt8) (segments : List (List UInt8)) : Bool :=
  path.elem semicolon || path.elem question || path.elem hash || path.elem backslash ||
    containsEncodedDelimiter path || segments.any fun segment => segment == [dot] || segment == [dot, dot]

section Decisions

variable {ν : Type} (limits : Boundary)

def gatewayInputWithinBoundaryLimits (input : GatewayDecisionInput ν) : Bool :=
  limits.stringWithinBoundaryLimit input.method && limits.stringWithinBoundaryLimit input.path &&
    limits.listWithinBoundaryLimits input.tokenScopes && claimsInputWithinBoundaryLimits limits input.cfg input.claims

def gatewayDecision (input : GatewayDecisionInput ν) : Decision :=
  if !gatewayInputWithinBoundaryLimits limits input then .deny .invalidInput (some "boundary_limits")
  else
    let claimsDecision := enforceClaims limits input.cfg input.claims
    if !claimsDecision.allow then claimsDecision
    else
      let segments := pathSegments (utf8 input.path)
      if kernelGatewayPathDenied (utf8 input.path) segments then .deny .invalidPath none
      else if segments.isEmpty then .deny .missingRealm none
      else
        let scopes := requiredScopes input.method input.path
        if scopes.any fun scope => !input.tokenScopes.elem scope then .deny .missingScopes none
        else Decision.allowed.withRequiredScopes scopes

end Decisions

end McpToolkit.Policy.KernelAdapters
