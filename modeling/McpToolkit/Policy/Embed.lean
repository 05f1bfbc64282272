import McpToolkit.Policy.HttpPath
import McpToolkit.Policy.Routes

/-!
# McpToolkit.Policy.Embed — the embedded policy kernel

`enforce_claims` of `claims.rs` and `EmbeddedPolicyKernel::authorize` of `embed.rs`.

Path validation decodes a path to look for confusion, but the route is chosen by the raw text.  Two
accepted spellings of one resource are therefore authorised alike exactly if their raw segments are
the same (`authorize_sameScopes_iff`); a percent-escaped letter is enough to leave a protected route.
-/

namespace McpToolkit.Policy

open List
open Lib.Percent (Escaped decode decode_eq_nil)
open Lib.Segments
open Lib.Text (mem_of_mem_trimBy mem_splitOnP_trimBy splitWhitespace trim trimBy_eq_self)

/-! ### Claims -/

/-- A JSON value; the numbers are of any type. -/
inductive Claim (ν : Type) where
  | null
  | bool (b : Bool)
  | number (n : ν)
  | string (s : Text)
  | array (items : List (Claim ν))
  | object (members : List (Text × Claim ν))

namespace Claim

variable {ν : Type}

def asStr : Claim ν → Option Text
  | string s => some s
  | _ => none

def isString (c : Claim ν) : Bool := c.asStr.isSome

end Claim

abbrev ClaimsMap (ν : Type) := List (Text × Claim ν)

structure ClaimsCfg where
  expectedIssuer : Option Text
  expectedAudience : Option Text
  allowedAzp : List Text
  deriving DecidableEq

/-- `ClaimsCfgBuilder::default().build()`. -/
def ClaimsCfg.default : ClaimsCfg := ⟨none, none, []⟩

section Claims

variable {ν : Type} (limits : Boundary) (cfg : ClaimsCfg) (claims : ClaimsMap ν)

def ClaimsMap.get (key : String) : Option (Claim ν) := claims.lookup key.toList

def claimsHaveValidTypes : Bool :=
  (["iss", "azp", "client_id"].all fun key => (claims.get key).all Claim.isString) &&
    match claims.get "aud" with
    | none => true
    | some (.string _) => true
    | some (.array values) => values.all Claim.isString
    | _ => false

def extractAudiences : List Text :=
  match claims.get "aud" with
  | some (.string value) => splitWhitespace value
  | some (.array values) => values.filterMap Claim.asStr
  | _ => []

/-- A string claim, trimmed, if it is not blank. -/
def normalizedClaim (value : Option Text) : Option Text := (value.map trim).filter fun v => !v.isEmpty

def normalizedClaimStringWithinLimits (key : String) : Bool :=
  limits.optionalStringWithinBoundaryLimit (normalizedClaim ((claims.get key).bind Claim.asStr))

/-- The loop over an array of audiences; `count` of them were not blank. -/
def audiencesWithinLimits : ℕ → List (Claim ν) → Bool
  | _, [] => true
  | count, value :: values =>
    match value.asStr with
    | none => audiencesWithinLimits count values
    | some aud =>
      if (trim aud).isEmpty then audiencesWithinLimits count values
      else if limits.maxListLength < count + 1 || !limits.stringWithinBoundaryLimit (trim aud) then false
      else audiencesWithinLimits (count + 1) values

def normalizedClaimAudienceWithinLimits : Bool :=
  match claims.get "aud" with
  | some (.string value) =>
    (splitWhitespace value).length ≤ limits.maxListLength &&
      (splitWhitespace value).all limits.stringWithinBoundaryLimit
  | some (.array values) => audiencesWithinLimits limits 0 values
  | _ => true

def claimsCfgWithinBoundaryLimits : Bool :=
  limits.optionalStringWithinBoundaryLimit cfg.expectedIssuer &&
    limits.optionalStringWithinBoundaryLimit cfg.expectedAudience &&
    limits.listWithinBoundaryLimits cfg.allowedAzp

def claimsInputWithinBoundaryLimits : Bool :=
  claimsCfgWithinBoundaryLimits limits cfg &&
    normalizedClaimStringWithinLimits limits claims "iss" &&
    normalizedClaimStringWithinLimits limits claims "azp" &&
    normalizedClaimStringWithinLimits limits claims "client_id" &&
    normalizedClaimAudienceWithinLimits limits claims

/-- `azp`, or else `client_id`. -/
def authorizedParty : Option Text :=
  normalizedClaim (((claims.get "azp").bind Claim.asStr).or ((claims.get "client_id").bind Claim.asStr))

def issuerAccepted : Bool :=
  cfg.expectedIssuer.all fun expected =>
    normalizedClaim ((claims.get "iss").bind Claim.asStr) == some expected

def audienceAccepted : Bool := cfg.expectedAudience.all fun expected => (extractAudiences claims).elem expected

def azpAccepted : Bool := cfg.allowedAzp.isEmpty || (authorizedParty claims).any cfg.allowedAzp.elem

def enforceClaims : Decision :=
  if !claimsInputWithinBoundaryLimits limits cfg claims then .deny .invalidInput (some "boundary_limits")
  else if !claimsHaveValidTypes claims then .deny .invalidInput (some "malformed_claims")
  else if !issuerAccepted cfg claims then .deny .issuerMismatch none
  else if !audienceAccepted cfg claims then .deny .audienceMismatch none
  else if !azpAccepted cfg claims then .deny .azpNotAllowed none
  else .allowed

end Claims

/-! ### The kernel -/

structure EmbeddedPolicyKernel where
  claimsCfg : ClaimsCfg
  routePolicy : RoutePolicy

structure GenericPolicyRequest (ν : Type) where
  method : Text
  path : Text
  tokenScopes : List Text
  claims : ClaimsMap ν

section Kernel

variable {ν : Type} (limits : Boundary)

def requestWithinBoundaryLimits (request : GenericPolicyRequest ν) : Bool :=
  limits.stringWithinBoundaryLimit (trim request.method) &&
    limits.stringWithinBoundaryLimit request.path &&
    limits.listWithinBoundaryLimits request.tokenScopes

def EmbeddedPolicyKernel.authorize (kernel : EmbeddedPolicyKernel) (request : GenericPolicyRequest ν) :
    Decision :=
  if !requestWithinBoundaryLimits limits request then .deny .invalidInput (some "boundary_limits")
  else
    let claimsDecision := enforceClaims limits kernel.claimsCfg request.claims
    if !claimsDecision.allow then claimsDecision
    else
      let pathDecision := validateHttpPath limits request.path
      if !pathDecision.allow then pathDecision
      else if !hasPathSegment (utf8 request.path) then .deny .missingRealm none
      else if classifyMethod request.method = .deny then
        .deny .missingScopes (some "unsupported_method")
      else
        let requiredScopes := kernel.routePolicy.requiredScopes request.method request.path
        if !limits.listWithinBoundaryLimits requiredScopes then
          .deny .invalidInput (some "boundary_limits")
        else if requiredScopes.any fun scope => !request.tokenScopes.elem scope then
          .deny .missingScopes none
        else Decision.allowed.withRequiredScopes requiredScopes

end Kernel

/-! ### Spellings of one resource -/

/-- Equal after one percent-decoding and collapsing of repeated slashes. -/
def SameResource (p q : Text) : Prop :=
  (percentDecodeOnce (utf8 p)).map (collapse slash false) =
    (percentDecodeOnce (utf8 q)).map (collapse slash false)

instance (p q : Text) : Decidable (SameResource p q) := inferInstanceAs (Decidable (_ = _))

theorem hasPathSegment_iff (path : List UInt8) : hasPathSegment path = true ↔ segments slash path ≠ [] := by
  rw [hasPathSegment, any_eq_true, segments, Ne, filter_eq_nil_iff, not_forall]
  constructor
  · rintro ⟨s, hs, hne⟩
    refine ⟨s, fun h => h ((mem_splitOnP_trimBy ?_).mp hs) hne⟩
    rintro rfl
    cases hne
  · rintro ⟨s, hs⟩
    obtain ⟨hmem, hne⟩ := Classical.not_imp.mp hs
    rw [not_not] at hne
    refine ⟨s, (mem_splitOnP_trimBy ?_).mpr hmem, hne⟩
    rintro rfl
    cases hne

theorem segments_decode_eq_nil {path : List UInt8} (h : ∀ c ∈ guarded, ¬Escaped c path) :
    segments slash (decode path) = [] ↔ segments slash path = [] := by
  have hpieces := pieces_decode h
  unfold pieces at hpieces
  rw [segments, segments, hpieces, filter_eq_nil_iff, filter_eq_nil_iff, forall_mem_map]
  refine forall₂_congr fun s _ => ?_
  simp only [Bool.not_eq_true', Bool.not_eq_false, List.isEmpty_iff]
  exact ⟨decode_eq_nil, fun h => by rw [h]; rfl⟩

variable {limits : Boundary} {p q path : Text} {ν : Type} {segs : List Text}

theorem hasPathSegment_of_sameResource
    (hp : (validateHttpPath limits p).allow = true) (hq : (validateHttpPath limits q).allow = true)
    (h : SameResource p q) : hasPathSegment (utf8 p) = hasPathSegment (utf8 q) := by
  have hp := accepted_of_allow hp
  have hq := accepted_of_allow hq
  rw [SameResource, hp.decodes, hq.decodes, Option.map_some, Option.map_some, Option.some.injEq] at h
  have hsegs := congrArg (segments slash) h
  rw [segments_collapse_false, segments_collapse_false] at hsegs
  rw [Bool.eq_iff_iff, hasPathSegment_iff, hasPathSegment_iff, Ne, Ne,
    ← segments_decode_eq_nil hp.rawPlain, ← segments_decode_eq_nil hq.rawPlain, hsegs]

theorem eq_slash_of_utf8 {c : Char} (h : ∀ b ∈ String.utf8EncodeChar c, b = slash) : c = '/' := by
  have hfirst : c.toNat = 47 := by
    unfold String.utf8EncodeChar slash at h
    dsimp only at h
    split_ifs at h <;>
      · have hbyte := congrArg UInt8.toNat (h _ mem_cons_self)
        rw [UInt8.toNat_ofNat'] at hbyte
        simp only [UInt8.reduceToNat] at hbyte
        unfold Char.toNat
        omega
  exact Char.toNat_inj.mp hfirst

theorem pathSegments_eq_nil (h : hasPathSegment (utf8 path) = false) : pathSegments path = [] := by
  have hsegs : segments slash (utf8 path) = [] := by
    by_contra hne
    rw [(hasPathSegment_iff _).mpr hne] at h
    cases h
  rw [segments_eq_nil_iff] at hsegs
  rw [pathSegments, segments_eq_nil_iff]
  intro c hc
  refine eq_slash_of_utf8 fun b hb => hsegs b ?_
  exact mem_flatMap.mpr ⟨c, mem_of_mem_trimBy hc, hb⟩

/-! ### What decides the scopes -/

theorem within_of_allow (h : (validateHttpPath limits path).allow = true) :
    limits.stringWithinBoundaryLimit path = true := by
  by_contra hlimit
  rw [validateHttpPath, if_pos (by simpa using hlimit)] at h
  cases h

theorem authorize_congr (hp : (validateHttpPath limits p).allow = true) (hq : (validateHttpPath limits q).allow = true)
    (hsegment : hasPathSegment (utf8 p) = hasPathSegment (utf8 q)) (kernel : EmbeddedPolicyKernel)
    (request : GenericPolicyRequest ν) (hscopes : kernel.routePolicy.requiredScopes request.method p =
      kernel.routePolicy.requiredScopes request.method q) : kernel.authorize limits { request with path := p } =
      kernel.authorize limits { request with path := q } := by
  unfold EmbeddedPolicyKernel.authorize requestWithinBoundaryLimits
  simp only [within_of_allow hp, within_of_allow hq, hp, hq, hsegment, hscopes, Bool.not_true,
    Bool.false_eq_true, if_false]

/-- A policy with one route, of the segments `segs`; the slashes keep them from being trimmed. -/
def routeOf (segs : List Text) : RoutePolicy :=
  (RoutePolicy.default.withDefaultScopes ['a'] ['a']).withRoute ('/' :: join '/' segs ++ ['/']) [] []

theorem pathSegments_routeOf (h : ∀ s ∈ segs, IsSegment '/' s) :
    pathSegments ('/' :: join '/' segs ++ ['/']) = segs := by
  have htrim : trim ('/' :: join '/' segs ++ ['/']) = '/' :: join '/' segs ++ ['/'] :=
    trimBy_eq_self rfl (by rw [getLast?_concat]; rfl)
  rw [pathSegments, htrim, segments_concat_sep, segments_cons_sep, segments_join h]

theorem routes_routeOf (segs : List Text) :
    (routeOf segs).routes = [ScopeRoute.new ('/' :: join '/' segs ++ ['/']) [] []] := rfl

theorem requiredScopes_routeOf (h : ∀ s ∈ segs, IsSegment '/' s) (method path : Text) :
    (routeOf segs).requiredScopes method path = if segs <+: pathSegments path then [[]] else [['a']] := by
  have hroute : ScopeRoute.new ('/' :: join '/' segs ++ ['/']) [] [] ∈ (routeOf segs).routes := by
    exact mem_singleton_self _
  have hcovers := RoutePolicy.covers_iff hroute path
  rw [ScopeRoute.new, pathSegments_normalizePrefix, pathSegments_routeOf h] at hcovers
  rw [RoutePolicy.requiredScopes, RoutePolicy.routeForPath, routes_routeOf, find?_singleton,
    ScopeRoute.new, if_congr hcovers rfl rfl]
  split_ifs <;> cases isReadMethod method <;> rfl

theorem enforceClaims_default (limits : Boundary) : enforceClaims limits .default ([] : ClaimsMap ν) = .allowed := by
  have hlist : limits.listWithinBoundaryLimits [] = true := by simp [Boundary.listWithinBoundaryLimits]
  have hinput : claimsInputWithinBoundaryLimits limits .default ([] : ClaimsMap ν) = true := by
    rfl
  rfl

theorem listWithin_singleton {t : Text} (h : limits.stringWithinBoundaryLimit t = true) :
    limits.listWithinBoundaryLimits [t] = true := by
  have hlen : decide ([t].length ≤ limits.maxListLength) = true := decide_eq_true limits.list_pos
  rw [Boundary.listWithinBoundaryLimits, hlen, all_cons, h]
  rfl

theorem authorize_routeOf (hsegs : ∀ s ∈ segs, IsSegment '/' s) (hpath : (validateHttpPath limits path).allow = true)
    (hsegment : hasPathSegment (utf8 path) = true) : EmbeddedPolicyKernel.authorize limits ⟨.default, routeOf segs⟩
        (⟨[], path, [[]], []⟩ : GenericPolicyRequest ν) =
      if segs <+: pathSegments path then Decision.allowed.withRequiredScopes [[]] else .deny .missingScopes none := by
  have hempty : limits.stringWithinBoundaryLimit [] = true := decide_eq_true (Nat.zero_le _)
  have hletter : limits.stringWithinBoundaryLimit ['a'] = true := decide_eq_true limits.string_pos
  have hmethod : classifyMethod [] = .write := by decide
  have htrim : trim [] = [] := rfl
  unfold EmbeddedPolicyKernel.authorize requestWithinBoundaryLimits
  simp only [htrim, hempty, enforceClaims_default, hpath, within_of_allow hpath, hsegment,
    requiredScopes_routeOf hsegs, listWithin_singleton hempty, hmethod]
  by_cases hpre : segs <+: pathSegments path
  · simp [hpre, listWithin_singleton hempty, Decision.allowed]
  · simp [hpre, listWithin_singleton hletter, Decision.allowed]

theorem pathSegments_eq_of_covered
    (h : ∀ segs, (∀ s ∈ segs, IsSegment '/' s) → (segs <+: pathSegments p ↔ segs <+: pathSegments q)) :
    pathSegments p = pathSegments q := by
  have hpq := (h _ isSegment_pathSegments).mp (prefix_refl (pathSegments p))
  have hqp := (h _ isSegment_pathSegments).mpr (prefix_refl (pathSegments q))
  exact hpq.eq_of_length (le_antisymm hpq.length_le hqp.length_le)

theorem iff_of_ite_eq {α : Type} {P Q : Prop} [Decidable P] [Decidable Q] {a b : α} (hab : a ≠ b)
    (h : (if P then a else b) = if Q then a else b) : P ↔ Q := by
  by_cases hP : P <;> by_cases hQ : Q <;> simp_all

/-- **When two spellings of a resource get the same scopes.**  Of accepted paths that denote the same
resource, every kernel decides alike, and every policy requires the same scopes, exactly if their raw
segments are equal. -/
theorem authorize_sameScopes_iff {ν : Type} (limits : Boundary) (p q : Text)
    (hp : (validateHttpPath limits p).allow = true) (hq : (validateHttpPath limits q).allow = true)
    (hsame : SameResource p q) : ((∀ (kernel : EmbeddedPolicyKernel) (request : GenericPolicyRequest ν),
        kernel.authorize limits { request with path := p } =
          kernel.authorize limits { request with path := q }) ↔
      pathSegments p = pathSegments q) ∧
    ((∀ (policy : RoutePolicy) (method : Text),
        policy.requiredScopes method p = policy.requiredScopes method q) ↔
      pathSegments p = pathSegments q) := by
  have hsegment := hasPathSegment_of_sameResource hp hq hsame
  refine ⟨⟨fun h => ?_, fun h kernel request => ?_⟩, fun h => ?_, fun h policy method => ?_⟩
  · cases hseg : hasPathSegment (utf8 p) with
    | false => rw [pathSegments_eq_nil hseg, pathSegments_eq_nil (hsegment ▸ hseg)]
    | true =>
      refine pathSegments_eq_of_covered fun segs hsegs => ?_
      have hdecide := h ⟨.default, routeOf segs⟩ ⟨[], [], [[]], []⟩
      rw [authorize_routeOf hsegs hp hseg, authorize_routeOf hsegs hq (hsegment ▸ hseg)] at hdecide
      exact iff_of_ite_eq (by decide) hdecide
  · exact authorize_congr hp hq hsegment kernel request (kernel.routePolicy.requiredScopes_congr _ h)
  · refine pathSegments_eq_of_covered fun segs hsegs => ?_
    have hscopes := h (routeOf segs) []
    rw [requiredScopes_routeOf hsegs, requiredScopes_routeOf hsegs] at hscopes
    exact iff_of_ite_eq (by decide) hscopes
  · exact policy.requiredScopes_congr method h

/-- The protected route of an administration below a common one. -/
def adminKernel : EmbeddedPolicyKernel :=
  ⟨.default, (RoutePolicy.default.withRoute "/mcp".toList "mcp:read".toList "mcp:write".toList).withRoute
    "/mcp/admin".toList "mcp:admin:read".toList "mcp:admin:write".toList⟩

/-- Repeated slashes are no other spelling. -/
theorem authorize_sameScopes_slashes : adminKernel.authorize .fallback
        (⟨"GET".toList, "/mcp//admin".toList, ["mcp:read".toList], []⟩ : GenericPolicyRequest Unit) =
      adminKernel.authorize .fallback
        (⟨"GET".toList, "/mcp/admin".toList, ["mcp:read".toList], []⟩ : GenericPolicyRequest Unit) :=
  (authorize_sameScopes_iff .fallback "/mcp//admin".toList "/mcp/admin".toList (by decide +kernel)
    (by decide +kernel) (by decide +kernel)).1.mpr (by decide +kernel) adminKernel
    ⟨"GET".toList, [], ["mcp:read".toList], []⟩

/-- An escaped letter leaves the protected route: the reader's scope is enough for `/mcp/%61dmin`. -/
theorem authorize_escapedLetter : (validateHttpPath .fallback "/mcp/admin".toList).allow = true ∧
      (validateHttpPath .fallback "/mcp/%61dmin".toList).allow = true ∧
      SameResource "/mcp/admin".toList "/mcp/%61dmin".toList ∧
      adminKernel.routePolicy.requiredScopes "GET".toList "/mcp/admin".toList = ["mcp:admin:read".toList] ∧
      adminKernel.routePolicy.requiredScopes "GET".toList "/mcp/%61dmin".toList = ["mcp:read".toList] ∧
      adminKernel.authorize .fallback
          (⟨"GET".toList, "/mcp/admin".toList, ["mcp:read".toList], []⟩ : GenericPolicyRequest Unit) =
        .deny .missingScopes none ∧ adminKernel.authorize .fallback
          (⟨"GET".toList, "/mcp/%61dmin".toList, ["mcp:read".toList], []⟩ : GenericPolicyRequest Unit) =
        Decision.allowed.withRequiredScopes ["mcp:read".toList] := by
  decide +kernel

end McpToolkit.Policy
