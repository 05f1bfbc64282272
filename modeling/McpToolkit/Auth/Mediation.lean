import McpToolkit.Auth.Registry
import McpToolkit.Auth.RequestPath

/-!
# McpToolkit.Auth.Mediation — which requests reach the inner service

`AuthSurfaceService::call` up to the inner call.  The decision is taken on the normalised path; the
inner service receives the request with the path as it came.  So a request passes unauthenticated
although its path is below a protected resource where normalising it leads out of that resource or
into a public path.  A path that is `Plain` is not changed.
-/

namespace McpToolkit.Auth

open Lib.Segments (join)

/-- Segments behind a slash, none of them empty or made of one or two dots, and neither a backslash
nor an escaped dot, slash or backslash. -/
structure Plain (path : Path) : Prop where
  segments : ∃ segments, path = '/' :: join '/' segments ∧
    ∀ segment ∈ segments, '/' ∉ segment ∧ segment ≠ [] ∧ segment ≠ ['.'] ∧ segment ≠ ['.', '.']
  backslash : '\\' ∉ path
  escape : ∀ e ∈ escapes, ¬ e <:+: path

theorem Plain.normalizeRequestPath_eq {path : Path} (h : Plain path) : normalizeRequestPath path = path := by
  obtain ⟨segments, hpath, hsegments⟩ := h.segments
  exact normalizeRequestPath_eq_self hpath hsegments h.backslash h.escape

/-- A failure of authentication that `call` reports. -/
structure AuthError where
  message : String
  statusCode : ℕ
  code : Option String
  reason : Option String
  deriving DecidableEq

/-- The error for a client that the entry does not list. -/
def clientNotAllowed : AuthError :=
  ⟨"client_id is not allowed for this service", 403, some "AUTH_CLIENT_NOT_ALLOWED",
    some "client_not_allowed"⟩

/-- What `call` does with a request. -/
inductive Verdict (Ctx : Type) where
  /-- Answered with a metadata document. -/
  | metadata (route : WellKnownRoute)
  /-- Forwarded without authentication. -/
  | forwardPublic
  /-- Forwarded for the entry, with the authenticated context. -/
  | forward (entry : IssuerRuntime) (context : Ctx)
  | unauthorized (entry : IssuerRuntime) (error : AuthError)
  | notFound
  deriving DecidableEq

section Call

variable {Ctx : Type} (azp : Ctx → Option String)

/-- The check of `allowed_client_ids`. -/
def clientAllowed (entry : IssuerRuntime) (context : Ctx) : Bool :=
  entry.allowedClientIds.isEmpty ||
    let client := (azp context).getD ""
    !client.isEmpty && entry.allowedClientIds.contains client

/-- `AuthSurfaceService::call` for a request with this path; `authenticate` is the answer of the
authenticator of an entry to the headers of the request. -/
def IssuerRegistry.call (reg : IssuerRegistry)
    (authenticate : IssuerRuntime → Except AuthError Ctx) (rawPath : Path) : Verdict Ctx :=
  let path := normalizeRequestPath rawPath
  match reg.wellKnownRoute path with
  | some route => .metadata route
  | none =>
    if reg.isPublicPath path then .forwardPublic
    else
      match reg.matchEntry path with
      | some entry =>
        match authenticate entry with
        | .ok context =>
          if clientAllowed azp entry context then .forward entry context
          else .unauthorized entry clientNotAllowed
        | .error error => .unauthorized entry error
      | none => if reg.deniesUnmatchedRoutes then .notFound else .forwardPublic

end Call

namespace IssuerRegistry

variable (reg : IssuerRegistry)

/-- A request that passes unauthenticated is not below a protected resource, as the inner service
sees its path, unless that path is public. -/
def Mediates (rawPath : Path) : Prop :=
  ∀ (Ctx : Type) (azp : Ctx → Option String) (authenticate : IssuerRuntime → Except AuthError Ctx),
    reg.call azp authenticate rawPath = .forwardPublic →
      reg.protects rawPath = true → reg.isPublicPath rawPath = true

variable {reg}

theorem call_eq_forwardPublic {Ctx : Type} {azp : Ctx → Option String}
    {authenticate : IssuerRuntime → Except AuthError Ctx} {rawPath : Path} :
    reg.call azp authenticate rawPath = .forwardPublic ↔ reg.wellKnownRoute (normalizeRequestPath rawPath) = none ∧
        (reg.isPublicPath (normalizeRequestPath rawPath) = true ∨
          reg.protects (normalizeRequestPath rawPath) = false ∧ reg.deniesUnmatchedRoutes = false) := by
  rw [← reg.isSome_matchEntry]
  unfold call
  dsimp only
  cases hwk : reg.wellKnownRoute (normalizeRequestPath rawPath) with
  | some route => simp
  | none =>
    cases hpub : reg.isPublicPath (normalizeRequestPath rawPath) with
    | true => simp
    | false =>
      cases hm : reg.matchEntry (normalizeRequestPath rawPath) with
      | none => cases reg.deniesUnmatchedRoutes <;> simp
      | some entry =>
        dsimp only
        cases authenticate entry with
        | error error => simp
        | ok context => cases hc : clientAllowed azp entry context <;> simp [hc]

/-- One protected resource and one public path. -/
def guardedConfig : AuthSurfaceConfig where
  publicBaseUrl := "https://mcp.example.com".toList
  entries := [⟨"/mcp".toList, "https://issuer.example.com", [], 0, none⟩]
  rootAliasPolicy := .automatic
  publicPaths := ["/health".toList]
  publicPrefixes := []

end IssuerRegistry

end McpToolkit.Auth
