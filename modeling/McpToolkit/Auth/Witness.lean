import Mathlib.Data.Option.Basic
import McpToolkit.Auth.Mediation
import McpToolkit.Lib.Framing
import McpToolkit.Lib.System

/-!
# McpToolkit.Auth.Witness — the request-bound authentication witness

What `AuthSurfaceService` hands to the inner service, and `consume_verified_auth_surface_request`.
Requests run concurrently.  The inner code may copy the extensions of a request, put them into any
other request, change anything else about it and run an authenticator itself; the types of a binding
and of a verified context have no constructor it can call, so those it has it got from a surface or
an authenticator.

An `Arc` that is compared by address is the number of the request it was allocated for.  The
compare-and-exchange of `consume` and the store of the guard are one event each; the end of the
inner call and the drop of the guard are two.
-/

namespace McpToolkit.Auth

open List
open Lib

/-- A request target; the decisions read its path, the witness compares all of it.  The scheme, the
host and the query are in `rest`, the first two in lower case: `http::Uri` ignores their case. -/
structure Uri where
  path : Path
  rest : String
  deriving DecidableEq

/-- The values of the `Authorization` header, with the sizes that memory admits. -/
structure Authorization where
  values : List (List UInt8)
  fits : Framing.Fits values

structure AuthSurfaceContext where
  resourcePath : Path
  resourceUrl : List Char
  issuer : String
  deriving DecidableEq

structure VerifiedAuthContext (Ctx : Type) where
  context : Ctx
  authenticatorMarker : AuthenticatorId
  requestMarker : Option ℕ
  deriving DecidableEq

inductive Lifecycle where
  | active
  | consumed
  | closed
  deriving DecidableEq

/-- `AuthSurfaceRequestBinding`; the lifecycle is shared by all its copies. -/
structure AuthSurfaceRequestBinding where
  method : String
  uri : Uri
  authorizationDigest : List UInt8
  requestMarker : ℕ
  lifecycle : ℕ
  surface : Option AuthSurfaceContext
  deriving DecidableEq

structure Extensions (Ctx : Type) where
  context : Option Ctx
  verified : Option (VerifiedAuthContext Ctx)
  surface : Option AuthSurfaceContext
  binding : Option AuthSurfaceRequestBinding

structure Request (Ctx : Type) where
  method : String
  uri : Uri
  authorization : Authorization
  extensions : Extensions Ctx

structure VerifiedAuthSurfaceRequest (Ctx : Type) where
  auth : Option Ctx
  surface : Option AuthSurfaceContext
  deriving DecidableEq

variable {Ctx : Type} (sha256 : List UInt8 → List UInt8) (azp : Ctx → Option String)

def authorizationDigest (authorization : Authorization) : List UInt8 :=
  sha256 (Framing.frame authorization.values)

/-! ### Consuming -/

def AuthSurfaceRequestBinding.matches (binding : AuthSurfaceRequestBinding) (req : Request Ctx) :
    Bool :=
  binding.method == req.method && binding.uri == req.uri &&
    binding.authorizationDigest == Auth.authorizationDigest sha256 req.authorization

/-- `consume_verified_auth_surface_request_parts`: the result, and the lifecycle whose state is
exchanged from active to consumed. -/
def consumeVerifiedAuthSurfaceRequest (lifecycles : List Lifecycle) (req : Request Ctx)
    (authenticator : AuthenticatorId) : Option (VerifiedAuthSurfaceRequest Ctx × ℕ) := do
  let binding ← req.extensions.binding
  guard (binding.matches sha256 req)
  match binding.surface with
  | some surface =>
    let context ← req.extensions.verified
    guard (context.authenticatorMarker = authenticator)
    guard (context.requestMarker = some binding.requestMarker)
    let attached ← req.extensions.surface
    guard (attached = surface)
    guard (lifecycles[binding.lifecycle]? = some .active)
    return (⟨some context.context, some surface⟩, binding.lifecycle)
  | none =>
    guard (req.extensions.verified.isNone ∧ req.extensions.context.isNone ∧
      req.extensions.surface.isNone)
    guard (lifecycles[binding.lifecycle]? = some .active)
    return (⟨none, none⟩, binding.lifecycle)

/-! ### Requests running through the surface -/

/-- A request that was forwarded to the inner service, as the surface saw it. -/
structure Admitted (Ctx : Type) where
  method : String
  uri : Uri
  authorization : Authorization
  surface : Option AuthSurfaceContext
  identity : Option Ctx

inductive Phase where
  /-- The inner call runs. -/
  | running
  /-- The inner call has returned; the guard is still to be dropped. -/
  | returned
  /-- The guard is dropped. -/
  | dropped
  deriving DecidableEq

/-- A successful call of `consume_verified_auth_surface_request`: the request whose witness it
consumed, the phase that request was in, the request it was called with and what it returned. -/
structure Consumption (Ctx : Type) where
  admitted : ℕ
  phase : Option Phase
  presented : Request Ctx
  result : VerifiedAuthSurfaceRequest Ctx

structure SurfaceState (Ctx : Type) where
  admitted : List (Admitted Ctx)
  phases : List Phase
  lifecycles : List Lifecycle
  /-- The verified contexts that inner code can put into a request. -/
  contexts : List (VerifiedAuthContext Ctx)
  log : List (Consumption Ctx)

def SurfaceState.init : SurfaceState Ctx := ⟨[], [], [], [], []⟩

/-- The binding of request number `i`. -/
def Admitted.binding (a : Admitted Ctx) (i : ℕ) : AuthSurfaceRequestBinding :=
  ⟨a.method, a.uri, authorizationDigest sha256 a.authorization, i, i, a.surface⟩

inductive SurfaceEvent (Ctx : Type) where
  /-- A request arrives at a surface; `answer` is what the authenticator says to its headers. -/
  | call (reg : IssuerRegistry) (req : Request Ctx) (answer : Except AuthError Ctx)
  /-- Inner code has an authenticator verify a credential. -/
  | authenticate (context : Ctx) (authenticator : AuthenticatorId)
  | consume (req : Request Ctx) (authenticator : AuthenticatorId)
  | innerReturns (i : ℕ)
  | dropGuard (i : ℕ)

namespace SurfaceState

/-- `AuthSurfaceRequestBinding::begin` and what is put into the extensions. -/
def begin (s : SurfaceState Ctx) (req : Request Ctx) (surface : Option AuthSurfaceContext)
    (verified : Option (VerifiedAuthContext Ctx)) : SurfaceState Ctx :=
  { admitted := s.admitted ++
      [⟨req.method, req.uri, req.authorization, surface, verified.map (·.context)⟩]
    phases := s.phases ++ [.running]
    lifecycles := s.lifecycles ++ [.active]
    contexts := (verified.map fun v => { v with requestMarker := some s.admitted.length }).toList ++
      s.contexts
    log := s.log }

variable [DecidableEq Ctx]

/-- Inner code has what the extensions are made of. -/
def holds (s : SurfaceState Ctx) (ext : Extensions Ctx) : Bool :=
  (ext.binding.all fun b => (s.admitted.zipIdx.any fun a => b == a.1.binding sha256 a.2)) &&
    ext.verified.all fun v => s.contexts.contains v

def step (s : SurfaceState Ctx) : SurfaceEvent Ctx → Option (SurfaceState Ctx)
  | .call reg req answer =>
    match reg.call azp (fun _ => answer) req.uri.path with
    | .forward entry context =>
      some (s.begin req (some ⟨entry.resourcePath, entry.resourceUrl, entry.issuer⟩)
        (some ⟨context, entry.authenticator, none⟩))
    | .forwardPublic => some (s.begin req none none)
    | _ => some s
  | .authenticate context authenticator =>
    some { s with contexts := ⟨context, authenticator, none⟩ :: s.contexts }
  | .consume req authenticator =>
    if s.holds sha256 req.extensions then
      match consumeVerifiedAuthSurfaceRequest sha256 s.lifecycles req authenticator with
      | some (result, i) => some { s with
          lifecycles := s.lifecycles.set i .consumed
          log := ⟨i, s.phases[i]?, req, result⟩ :: s.log }
      | none => some s
    else none
  | .innerReturns i =>
    if s.phases[i]? = some .running then some { s with phases := s.phases.set i .returned }
    else none
  | .dropGuard i =>
    if s.phases[i]? = some .returned then
      some { s with phases := s.phases.set i .dropped, lifecycles := s.lifecycles.set i .closed }
    else none

end SurfaceState

def authSurface [DecidableEq Ctx] : System (SurfaceState Ctx) (SurfaceEvent Ctx) :=
  ⟨SurfaceState.step sha256 azp⟩

/-! ### What a successful call has checked -/

section Consume

variable {sha256} {lifecycles : List Lifecycle} {req : Request Ctx}
  {authenticator : AuthenticatorId} {result : VerifiedAuthSurfaceRequest Ctx} {i : ℕ}

structure Passed (sha256 : List UInt8 → List UInt8) (lifecycles : List Lifecycle)
    (req : Request Ctx) (binding : AuthSurfaceRequestBinding)
    (result : VerifiedAuthSurfaceRequest Ctx) : Prop where
  attached : req.extensions.binding = some binding
  request : binding.matches sha256 req = true
  active : lifecycles[binding.lifecycle]? = some .active
  surface : result.surface = binding.surface
  identity : ∀ surface, binding.surface = some surface → ∃ v, req.extensions.verified = some v ∧
    v.requestMarker = some binding.requestMarker ∧ result.auth = some v.context
  anonymous : binding.surface = none → result.auth = none

theorem passed_of_consume
    (h : consumeVerifiedAuthSurfaceRequest sha256 lifecycles req authenticator = some (result, i)) :
    ∃ binding, i = binding.lifecycle ∧ Passed sha256 lifecycles req binding result := by
  simp only [consumeVerifiedAuthSurfaceRequest, bind, Option.bind_eq_some_iff, Option.guard_eq_some'] at h
  obtain ⟨binding, hbinding, -, hrequest, h⟩ := h
  cases hsurface : binding.surface with
  | some surface =>
    simp only [hsurface, Option.bind_eq_some_iff, Option.guard_eq_some'] at h
    obtain ⟨v, hv, -, -, -, hmarker, attached, -, -, -, -, hactive, hret⟩ := h
    obtain ⟨rfl, rfl⟩ := Prod.mk.inj (Option.some.inj hret)
    exact ⟨binding, rfl, hbinding, hrequest, hactive, hsurface.symm,
      fun _ _ => ⟨v, hv, hmarker, rfl⟩, fun hnone => (by rw [hsurface] at hnone; cases hnone)⟩
  | none =>
    simp only [hsurface, Option.bind_eq_some_iff, Option.guard_eq_some'] at h
    obtain ⟨-, -, -, hactive, hret⟩ := h
    obtain ⟨rfl, rfl⟩ := Prod.mk.inj (Option.some.inj hret)
    exact ⟨binding, rfl, hbinding, hrequest, hactive, hsurface.symm,
      fun _ hsome => (by rw [hsurface] at hsome; cases hsome), fun _ => rfl⟩

theorem AuthSurfaceRequestBinding.of_matches {binding : AuthSurfaceRequestBinding}
    (h : binding.matches sha256 req = true) : req.method = binding.method ∧ req.uri = binding.uri ∧
      Auth.authorizationDigest sha256 req.authorization = binding.authorizationDigest := by
  simp only [AuthSurfaceRequestBinding.matches, Bool.and_eq_true, beq_iff_eq] at h
  exact ⟨h.1.1.symm, h.1.2.symm, h.2.symm⟩

end Consume

/-! ### Runs -/

/-- The consumption is one of the request `a`: it had not lost its guard, the request presented is
`a` in method, URI and digest, and the result is what `a` was admitted with. -/
structure Consumption.Of (c : Consumption Ctx) (a : Admitted Ctx) : Prop where
  guarded : c.phase = some .running ∨ c.phase = some .returned
  method : c.presented.method = a.method
  uri : c.presented.uri = a.uri
  digest : authorizationDigest sha256 c.presented.authorization =
    authorizationDigest sha256 a.authorization
  auth : c.result.auth = a.identity
  surface : c.result.surface = a.surface

structure SurfaceState.Sealed (s : SurfaceState Ctx) : Prop where
  phases_length : s.phases.length = s.admitted.length
  lifecycles_length : s.lifecycles.length = s.admitted.length
  /-- The drop of the guard closes the lifecycle. -/
  closed : ∀ i : ℕ, s.phases[i]? = some .dropped → s.lifecycles[i]? = some .closed
  /-- A public request has no identity. -/
  anonymous : ∀ a ∈ s.admitted, a.surface = none → a.identity = none
  /-- A context that is bound to a request carries its identity. -/
  bound : ∀ v ∈ s.contexts, ∀ i : ℕ, v.requestMarker = some i →
    ∃ a, s.admitted[i]? = some a ∧ a.identity = some v.context
  spent : ∀ c ∈ s.log, s.lifecycles[c.admitted]? ≠ some .active
  once : (s.log.map (·.admitted)).Nodup
  faithful : ∀ c ∈ s.log, ∃ a, s.admitted[c.admitted]? = some a ∧ c.Of sha256 a

namespace SurfaceState

variable {sha256 azp} {s : SurfaceState Ctx}

theorem sealed_init : Sealed sha256 (init : SurfaceState Ctx) where
  phases_length := rfl
  lifecycles_length := rfl
  closed i h := by cases h
  anonymous a h := by cases h
  bound v h := by cases h
  spent c h := by cases h
  once := nodup_nil
  faithful c h := by cases h

section

variable (h : s.Sealed sha256)
include h

theorem Sealed.admitted_lt {c : Consumption Ctx} (hc : c ∈ s.log) : c.admitted < s.lifecycles.length := by
  obtain ⟨a, ha, -⟩ := h.faithful c hc
  rw [h.lifecycles_length]
  exact (List.getElem?_eq_some_iff.mp ha).1

theorem Sealed.begin (req : Request Ctx) {surface : Option AuthSurfaceContext}
    {verified : Option (VerifiedAuthContext Ctx)} (hpublic : surface = none → verified = none) :
    (s.begin req surface verified).Sealed sha256 where
  phases_length := by simp [SurfaceState.begin, h.phases_length]
  lifecycles_length := by simp [SurfaceState.begin, h.lifecycles_length]
  closed i hi := by
    rcases of_getElem?_concat hi with hi | ⟨-, hi⟩
    · exact getElem?_concat_of_some (h.closed i hi)
    · cases hi
  anonymous a ha hsurface := by
    rcases mem_append.mp ha with ha | ha
    · exact h.anonymous a ha hsurface
    · obtain rfl := mem_singleton.mp ha
      rw [hpublic hsurface]
      rfl
  bound v hv i hi := by
    rcases mem_append.mp hv with hv | hv
    · cases verified with
      | none => cases hv
      | some v' =>
        obtain rfl := mem_singleton.mp hv
        obtain rfl := Option.some.inj hi
        exact ⟨_, getElem?_concat_length, rfl⟩
    · obtain ⟨a, ha, hid⟩ := h.bound v hv i hi
      exact ⟨a, getElem?_concat_of_some ha, hid⟩
  spent c hc hactive := by
    have hlt := h.admitted_lt hc
    refine h.spent c hc ?_
    rwa [← getElem?_append_left hlt]
  once := h.once
  faithful c hc := by
    obtain ⟨a, ha, hof⟩ := h.faithful c hc
    exact ⟨a, getElem?_concat_of_some ha, hof⟩

theorem Sealed.authenticate (context : Ctx) (authenticator : AuthenticatorId) :
    Sealed sha256 { s with contexts := ⟨context, authenticator, none⟩ :: s.contexts } :=
  { h with
    bound := fun v hv i hi => by
      rcases mem_cons.mp hv with rfl | hv
      · cases hi
      · exact h.bound v hv i hi }

theorem Sealed.innerReturns (i : ℕ) : Sealed sha256 { s with phases := s.phases.set i .returned } :=
  { h with
    phases_length := by rw [length_set]; exact h.phases_length
    closed := fun j hj => by
      rcases of_getElem?_set hj with hj | ⟨-, hj⟩
      · exact h.closed j hj
      · cases hj }

theorem Sealed.dropGuard {i : ℕ} (hi : s.phases[i]? = some .returned) : Sealed sha256
      { s with phases := s.phases.set i .dropped, lifecycles := s.lifecycles.set i .closed } :=
  { h with
    phases_length := by rw [length_set]; exact h.phases_length
    lifecycles_length := by rw [length_set]; exact h.lifecycles_length
    closed := fun j hj => by
      by_cases hij : i = j
      · subst hij
        have hlt := (List.getElem?_eq_some_iff.mp hi).1
        rw [h.phases_length, ← h.lifecycles_length] at hlt
        exact getElem?_set_self hlt
      · rw [getElem?_set_ne hij] at hj ⊢
        exact h.closed j hj
    spent := fun c hc hactive => by
      rcases of_getElem?_set hactive with hactive | ⟨-, hactive⟩
      · exact h.spent c hc hactive
      · cases hactive }

end

variable [DecidableEq Ctx]

theorem admitted_of_holds {ext : Extensions Ctx} {binding : AuthSurfaceRequestBinding}
    (h : s.holds sha256 ext = true) (hb : ext.binding = some binding) :
    ∃ (i : ℕ) (a : Admitted Ctx), s.admitted[i]? = some a ∧ binding = a.binding sha256 i := by
  rw [holds, Bool.and_eq_true, hb] at h
  obtain ⟨⟨a, i⟩, ha, heq⟩ := any_eq_true.mp h.1
  exact ⟨i, a, mk_mem_zipIdx_iff_getElem?.mp ha, eq_of_beq heq⟩

theorem mem_contexts_of_holds {ext : Extensions Ctx} {v : VerifiedAuthContext Ctx}
    (h : s.holds sha256 ext = true) (hv : ext.verified = some v) : v ∈ s.contexts := by
  rw [holds, Bool.and_eq_true, hv] at h
  exact contains_iff_mem.mp h.2

theorem Sealed.of_passed (h : s.Sealed sha256) {req : Request Ctx} {i : ℕ} {a : Admitted Ctx}
    {result : VerifiedAuthSurfaceRequest Ctx} (hholds : s.holds sha256 req.extensions = true)
    (ha : s.admitted[i]? = some a) (hpassed : Passed sha256 s.lifecycles req (a.binding sha256 i) result) :
    (⟨i, s.phases[i]?, req, result⟩ : Consumption Ctx).Of sha256 a := by
  have hactive : s.lifecycles[i]? = some .active := hpassed.active
  obtain ⟨hmethod, huri, hdigest⟩ := AuthSurfaceRequestBinding.of_matches hpassed.request
  refine ⟨?_, hmethod, huri, hdigest, ?_, hpassed.surface⟩
  · have hlt : i < s.phases.length := by
      rw [h.phases_length]
      exact (List.getElem?_eq_some_iff.mp ha).1
    rw [getElem?_eq_getElem hlt]
    cases hphase : s.phases[i] with
    | running => exact .inl rfl
    | returned => exact .inr rfl
    | dropped =>
      rw [h.closed i (by rw [getElem?_eq_getElem hlt, hphase])] at hactive
      cases hactive
  · cases hsurface : a.surface with
    | none =>
      rw [hpassed.anonymous hsurface, h.anonymous a (mem_of_getElem? ha) hsurface]
    | some surface =>
      obtain ⟨v, hv, hmarker, hauth⟩ := hpassed.identity surface hsurface
      obtain ⟨a', ha', hid⟩ := h.bound v (mem_contexts_of_holds hholds hv) i hmarker
      obtain rfl := Option.some.inj (ha.symm.trans ha')
      rw [hauth, hid]

theorem Sealed.consume (h : s.Sealed sha256) {req : Request Ctx} {authenticator : AuthenticatorId}
    {result : VerifiedAuthSurfaceRequest Ctx} {i : ℕ} (hholds : s.holds sha256 req.extensions = true)
    (hconsume : consumeVerifiedAuthSurfaceRequest sha256 s.lifecycles req authenticator = some (result, i)) :
    Sealed sha256 { s with
      lifecycles := s.lifecycles.set i .consumed
      log := ⟨i, s.phases[i]?, req, result⟩ :: s.log } := by
  obtain ⟨binding, rfl, hpassed⟩ := passed_of_consume hconsume
  obtain ⟨i, a, ha, rfl⟩ := admitted_of_holds hholds hpassed.attached
  have hactive : s.lifecycles[i]? = some .active := hpassed.active
  have hspent : ∀ j : ℕ, s.lifecycles[j]? ≠ some .active ∨ i = j →
      (s.lifecycles.set i .consumed)[j]? ≠ some .active := by
    intro j hj hset
    rcases of_getElem?_set hset with hset' | ⟨-, hset'⟩
    · rcases hj with hj | rfl
      · exact hj hset'
      · rw [getElem?_set_self (List.getElem?_eq_some_iff.mp hactive).1] at hset
        cases hset
    · cases hset'
  exact { h with
    lifecycles_length := by rw [length_set]; exact h.lifecycles_length
    closed := fun j hj => by
      have hclosed := h.closed j hj
      by_cases hij : i = j
      · subst hij
        rw [hactive] at hclosed
        cases hclosed
      · exact (getElem?_set_ne hij).trans hclosed
    spent := fun c hc => by
      rcases mem_cons.mp hc with rfl | hc
      · exact hspent i (.inr rfl)
      · exact hspent c.admitted (.inl (h.spent c hc))
    once := by
      refine nodup_cons.mpr ⟨fun hmem => ?_, h.once⟩
      obtain ⟨c, hc, hci⟩ := mem_map.mp hmem
      exact h.spent c hc (hci ▸ hactive)
    faithful := fun c hc => by
      rcases mem_cons.mp hc with rfl | hc
      · exact ⟨a, ha, h.of_passed hholds ha hpassed⟩
      · exact h.faithful c hc }

/-- Every event keeps the invariant. -/
theorem Sealed.step (h : s.Sealed sha256) {e : SurfaceEvent Ctx} {t : SurfaceState Ctx}
    (hstep : s.step sha256 azp e = some t) : t.Sealed sha256 := by
  cases e with
  | call reg req answer =>
    simp only [SurfaceState.step] at hstep
    cases hcall : reg.call azp (fun _ => answer) req.uri.path with
    | forward entry context =>
      rw [hcall] at hstep
      obtain rfl := Option.some.inj hstep
      exact h.begin req fun hnone => (by cases hnone)
    | forwardPublic =>
      rw [hcall] at hstep
      obtain rfl := Option.some.inj hstep
      exact h.begin req fun _ => rfl
    | metadata | unauthorized | notFound =>
      rw [hcall] at hstep
      obtain rfl := Option.some.inj hstep
      exact h
  | authenticate context authenticator =>
    obtain rfl := Option.some.inj hstep
    exact h.authenticate context authenticator
  | consume req authenticator =>
    simp only [SurfaceState.step] at hstep
    split_ifs at hstep with hholds
    cases hconsume : consumeVerifiedAuthSurfaceRequest sha256 s.lifecycles req authenticator with
    | none =>
      rw [hconsume] at hstep
      obtain rfl := Option.some.inj hstep
      exact h
    | some r =>
      rw [hconsume] at hstep
      obtain rfl := Option.some.inj hstep
      exact h.consume hholds hconsume
  | innerReturns i =>
    simp only [SurfaceState.step] at hstep
    split_ifs at hstep
    obtain rfl := Option.some.inj hstep
    exact h.innerReturns i
  | dropGuard i =>
    simp only [SurfaceState.step] at hstep
    split_ifs at hstep with hi
    obtain rfl := Option.some.inj hstep
    exact h.dropGuard hi

end SurfaceState

section Runs

variable {sha256 azp} [DecidableEq Ctx] {s : SurfaceState Ctx}

theorem sealed_of_reaches (h : (authSurface sha256 azp).Reaches .init s) : s.Sealed sha256 :=
  System.Reaches.induct (I := SurfaceState.Sealed sha256) SurfaceState.sealed_init
    (fun hstep hs => hs.step hstep) h

/-- **The witness of a request is consumed at most once, before its guard is dropped, on a request
with the same method, URI and `Authorization` values, and yields that request's identity.** -/
theorem witness_consumed_once (hsha : Function.Injective sha256) (h : (authSurface sha256 azp).Reaches .init s) :
    (s.log.map (·.admitted)).Nodup ∧ ∀ c ∈ s.log, ∃ a, s.admitted[c.admitted]? = some a ∧ c.Of sha256 a ∧
        c.presented.authorization.values = a.authorization.values := by
  have hsealed := sealed_of_reaches h
  refine ⟨hsealed.once, fun c hc => ?_⟩
  obtain ⟨a, ha, hof⟩ := hsealed.faithful c hc
  exact ⟨a, ha, hof, Framing.frame_injective c.presented.authorization.fits a.authorization.fits (hsha hof.digest)⟩

end Runs

/-! ### One request -/

def sampleEntry : IssuerRuntime :=
  ⟨['/'], "https://mcp.example.com".toList, "https://issuer.example.com", [], 0⟩

/-- The surface that protects every path. -/
def sampleRegistry : IssuerRegistry where
  entries := [sampleEntry]
  wellKnown := [WellKnownKind.protectedResource, .openIdConfiguration, .authorizationServer].map
    fun kind => (kind.canonical, ⟨kind, sampleEntry⟩)
  publicPaths := []
  publicPrefixes := []
  unmatchedRoutePolicy := .deny

example : IssuerRegistry.new ⟨"https://mcp.example.com".toList,
    [⟨['/'], "https://issuer.example.com", [], 0, none⟩], .automatic, [], []⟩ .deny =
    .ok sampleRegistry := rfl

def sampleRequest (extensions : Extensions String) : Request String :=
  ⟨"GET", ⟨"/mcp".toList, "https://mcp.example.com"⟩, ⟨[[66]], by decide, by decide⟩, extensions⟩

/-- What the surface puts into the extensions of the request, as the first of a run. -/
def sampleExtensions : Extensions String :=
  let surface : AuthSurfaceContext :=
    ⟨sampleEntry.resourcePath, sampleEntry.resourceUrl, sampleEntry.issuer⟩
  let forwarded := sampleRequest ⟨none, none, none, none⟩
  { context := some "agent"
    verified := some ⟨"agent", 0, some 0⟩
    surface := some surface
    binding := some ⟨forwarded.method, forwarded.uri,
      authorizationDigest id forwarded.authorization, 0, 0, some surface⟩ }

/-- The request is forwarded as `agent`; after the events `between` its witness is presented
twice. -/
def sampleRun (between : List (SurfaceEvent String)) : List (SurfaceEvent String) :=
  .call sampleRegistry (sampleRequest ⟨none, none, none, none⟩) (.ok "agent") :: between ++
    [.consume (sampleRequest sampleExtensions) 0, .consume (sampleRequest sampleExtensions) 0]

/-- What the log says of the phase and the identity. -/
def SurfaceState.summary (s : SurfaceState String) : List (Option Phase × Option String) :=
  s.log.map fun c => (c.phase, c.result.auth)

theorem reaches_sampleRun (between : List (SurfaceEvent String)) (summary : List (Option Phase × Option String))
    (h : (((authSurface id fun _ => none).run .init (sampleRun between)).any
      fun s => decide (s.summary = summary)) = true) :
    ∃ s, (authSurface id fun _ => none).Reaches .init s ∧ s.summary = summary :=
  System.exists_reaches_of_run _ _ _ h

theorem witness_consumed_once_of_agent : ∃ s : SurfaceState String, (authSurface id fun _ => none).Reaches .init s ∧
      s.summary = [(some .running, some "agent")] ∧ (s.log.map (·.admitted)).Nodup ∧
      ∀ c ∈ s.log, ∃ a, s.admitted[c.admitted]? = some a ∧ c.Of id a ∧
        c.presented.authorization.values = a.authorization.values := by
  obtain ⟨s, hs, hlog⟩ := reaches_sampleRun [] [(some .running, some "agent")]
    (by decide)
  exact ⟨s, hs, hlog, witness_consumed_once Function.injective_id hs⟩

/-- A task that the inner call has left behind can consume the witness when the call has returned,
until the guard is dropped. -/
theorem witness_consumed_after_return : ¬ ∀ s : SurfaceState String, (authSurface id fun _ => none).Reaches .init s →
      ∀ c ∈ s.log, c.phase = some .running := by
  intro h
  obtain ⟨s, hs, hlog⟩ := reaches_sampleRun [.innerReturns 0]
    [(some .returned, some "agent")] (by decide)
  have hmem : (some Phase.returned, some "agent") ∈ s.summary := hlog ▸ mem_singleton_self _
  obtain ⟨c, hc, hphase⟩ := mem_map.mp hmem
  have hrunning := h s hs c hc
  rw [(Prod.mk.inj hphase).1] at hrunning
  cases hrunning

end McpToolkit.Auth
