import McpToolkit.Policy.ClaimShapes

/-!
# McpToolkit.Policy.ControlPlane — the projection of a request for the control plane

`auth_control_plane.rs` of the policy runtime: `AuthControlPlaneHttpMapper` projects the claims of a request into
an envelope, and `AuthControlPlanePolicyAuthority` builds claims from it again, for the embedded kernel.  The
envelope keeps the fields that the authority reads.

The audience goes through two conversions.  An array loses what is not a string and the blanks around its
entries, and an array of one entry comes back as a text, which is split into words.  `Kept` says for which
audiences none of this lets in more than the original claims (`audience_kept_iff`).
-/

namespace McpToolkit.Policy.ControlPlane

open List
open Lib.Segments (collapse)
open Lib.Text (splitWhitespace splitWhitespace_of_mem trim trim_of_mem_splitWhitespace)

/-! ### Envelopes -/

inductive AuthControlPlaneTokenMode
  | none
  | bearer
  | senderConstrained
  | opaqueToken
  | system
  deriving DecidableEq

inductive AuthControlPlaneHealthStatusExposure
  | protectedRoutes
  | publicReadOnly
  deriving DecidableEq

structure AuthControlPlanePrincipal where
  id : Option Text
  deriving DecidableEq

structure AuthControlPlaneClient where
  clientId : Option Text
  azp : Option Text
  deriving DecidableEq

structure AuthControlPlaneResource where
  projectId : Option Text
  deriving DecidableEq

structure AuthControlPlaneSession where
  projectId : Option Text
  boundSubject : Option Text
  boundActor : Option Text
  deriving DecidableEq

structure AuthControlPlaneRequest where
  method : Option Text
  path : Option Text
  action : Option Text
  deriving DecidableEq

structure AuthControlPlaneExchange where
  dasMustRevalidate : Option Bool
  auditSubject : Option Text
  auditActorClient : Option Text
  exchangeId : Option Text
  deriving DecidableEq

structure AuthControlPlaneToken where
  mode : Option AuthControlPlaneTokenMode
  exchange : Option AuthControlPlaneExchange
  deriving DecidableEq

structure AuthControlPlaneProof where
  senderConstrained : Option Bool
  dpopValid : Option Bool
  cnfThumbprintMatch : Option Bool
  replayOk : Option Bool
  deriving DecidableEq

structure AuthControlPlaneInput where
  schemaVersion : Option String
  subject : Option AuthControlPlanePrincipal
  actor : Option AuthControlPlanePrincipal
  issuer : Option Text
  audiences : Option (List Text)
  client : Option AuthControlPlaneClient
  scopes : Option (List Text)
  resource : Option AuthControlPlaneResource
  session : Option AuthControlPlaneSession
  request : Option AuthControlPlaneRequest
  token : Option AuthControlPlaneToken
  proof : Option AuthControlPlaneProof
  deriving DecidableEq

def contractVersion : String := "auth-control-plane/v1"

/-! ### Requests -/

structure PolicyHttpAuthContext (ν : Type) where
  actor : Text
  scopes : List Text
  claims : Claim ν
  azp : Option Text
  subject : Option Text

structure PolicyHttpSurfaceContext where
  issuer : Text
  deriving DecidableEq

structure PolicyHttpRequestContext (ν : Type) where
  method : Text
  path : Text
  auth : Option (PolicyHttpAuthContext ν)
  surface : Option PolicyHttpSurfaceContext

/-- A configured mapper; the names of the other claims it reads have no part in a decision. -/
structure AuthControlPlaneHttpMapper where
  tokenMode : AuthControlPlaneTokenMode
  projectIdClaim : Text
  deriving DecidableEq

def AuthControlPlaneHttpMapper.default : AuthControlPlaneHttpMapper := ⟨.bearer, "project_id".toList⟩

structure AuthControlPlanePolicyAuthority where
  kernel : EmbeddedPolicyKernel
  healthStatusExposure : AuthControlPlaneHealthStatusExposure

/-! ### Paths and actions -/

def normalizePath (path : Text) : Text :=
  let trimmed := trim path
  if trimmed.isEmpty then ['/']
  else
    let normalized := (if trimmed.head? = some '/' then [] else ['/']) ++ collapse '/' false trimmed
    if 1 < normalized.length then (normalized.reverse.dropWhile (· == '/')).reverse else normalized

def isHealthOrStatusPath (path : Text) : Bool :=
  ["/health", "/healthz", "/ready", "/readiness", "/live", "/liveness", "/status"].any fun known =>
    known.toList == normalizePath path

def endsWith (ending : String) (text : Text) : Bool := ending.toList.isSuffixOf text

def inferAction (method path : Text) : Text :=
  let normalized := (normalizePath path).map Char.toLower
  if ["/health", "/healthz", "/ready", "/readiness", "/live", "/liveness"].any fun known =>
      known.toList == normalized then "health.read".toList
  else if normalized == "/status".toList then "status.read".toList
  else if endsWith "/token/exchange" normalized || endsWith "/token-exchange" normalized then
    "token.exchange".toList
  else if endsWith "/tools/list" normalized || isReadMethod method && endsWith "/tools" normalized then
    "tool.list".toList
  else if endsWith "/tools/call" normalized then "tool.call".toList
  else if endsWith "/resources/read" normalized then "resource.read".toList
  else if endsWith "/prompts/get" normalized then "prompt.get".toList
  else if isReadMethod method then "http.read".toList
  else "http.write".toList

/-! ### Projection -/

section Projection

variable {ν : Type}

/-- `Value::get` with a key. -/
def getKey (value : Claim ν) (key : Text) : Option (Claim ν) :=
  match value with
  | .object members => members.lookup key
  | _ => none

def claimString (value : Claim ν) (key : Text) : Option Text :=
  normalizedClaim ((getKey value key).bind Claim.asStr)

def claimBool (value : Claim ν) (key : String) : Option Bool :=
  match getKey value key.toList with
  | some (.bool b) => some b
  | _ => none

def nonEmptyVec (values : List Text) : Option (List Text) := if values.isEmpty then none else some values

def splitScopeString (value : Text) : Option (List Text) :=
  nonEmptyVec (((splitWhitespace value).map trim).filter fun scope => !scope.isEmpty)

def claimStringVec (value : Claim ν) (key : String) : Option (List Text) :=
  match getKey value key.toList with
  | some (.string inner) => splitScopeString inner
  | some (.array values) => nonEmptyVec (nonBlankStrings values)
  | _ => none

def claimAudiences (value : Claim ν) : Option (List Text) := claimStringVec value "aud"

def claimExchange (value : Claim ν) : Option AuthControlPlaneExchange :=
  ((getKey value "token_exchange".toList).or (getKey value "exchange".toList)).map fun exchange =>
    ⟨claimBool exchange "das_must_revalidate", claimString exchange "audit_subject".toList,
      claimString exchange "audit_actor_client".toList, claimString exchange "exchange_id".toList⟩

def claimProof (value : Claim ν) : AuthControlPlaneProof :=
  let proof := (getKey value "proof".toList).getD value
  ⟨claimBool proof "sender_constrained", claimBool proof "dpop_valid", claimBool proof "cnf_thumbprint_match",
    claimBool proof "replay_ok"⟩

def AuthControlPlaneHttpMapper.mapRequest (mapper : AuthControlPlaneHttpMapper)
    (context : PolicyHttpRequestContext ν) : AuthControlPlaneInput :=
  let claims := context.auth.map PolicyHttpAuthContext.claims
  let projectId := claims.bind fun value => claimString value mapper.projectIdClaim
  let actorId := context.auth.map PolicyHttpAuthContext.actor
  let subjectId := ((context.auth.bind PolicyHttpAuthContext.subject).or
    (claims.bind fun value => claimString value "sub".toList)).or actorId
  { schemaVersion := some contractVersion
    subject := context.auth.map fun _ => ⟨subjectId⟩
    actor := context.auth.map fun _ => ⟨actorId⟩
    issuer := (context.surface.map PolicyHttpSurfaceContext.issuer).or
      (claims.bind fun value => claimString value "iss".toList)
    audiences := claims.bind claimAudiences
    client := context.auth.map fun auth =>
      ⟨auth.azp.or (claims.bind fun value => claimString value "client_id".toList), auth.azp⟩
    scopes := context.auth.map PolicyHttpAuthContext.scopes
    resource := some ⟨projectId⟩
    session := some ⟨projectId, claims.bind fun value => claimString value "bound_subject".toList,
      claims.bind fun value => claimString value "bound_actor".toList⟩
    request := some ⟨some context.method, some context.path, some (inferAction context.method context.path)⟩
    token := some ⟨context.auth.map fun _ => mapper.tokenMode, claims.bind claimExchange⟩
    proof := claims.map claimProof }

/-! ### Evaluation -/

def principalId (principal : Option AuthControlPlanePrincipal) : Option Text :=
  normalizedClaim (principal.bind AuthControlPlanePrincipal.id)

def requestAction (input : AuthControlPlaneInput) : Option Text :=
  normalizedClaim (input.request.bind AuthControlPlaneRequest.action)

def requestMethodPath (input : AuthControlPlaneInput) : Except Decision (Text × Text) :=
  match input.request with
  | none => .error (.deny .invalidInput (some "request_missing"))
  | some request =>
    match normalizedClaim request.method, normalizedClaim request.path with
    | none, _ => .error (.deny .invalidInput (some "method_missing"))
    | some _, none => .error (.deny .invalidInput (some "path_missing"))
    | some method, some path => .ok (method, path)

def isHealthStatusRead (input : AuthControlPlaneInput) : Bool :=
  match requestMethodPath input with
  | .error _ => false
  | .ok (method, path) => isReadMethod method && isHealthOrStatusPath path

def audienceValue (audiences : List Text) : Claim ν :=
  match audiences with
  | [audience] => .string audience
  | _ => .array (audiences.map .string)

/-- The claims in the order they are inserted; the keys are distinct. -/
def claimsFromControlPlaneInput (input : AuthControlPlaneInput) : ClaimsMap ν :=
  (input.issuer.map fun issuer => ("iss".toList, .string issuer)).toList ++
    (input.audiences.map fun audiences => ("aud".toList, audienceValue audiences)).toList ++
    ((input.client.bind AuthControlPlaneClient.clientId).map fun id => ("client_id".toList, .string id)).toList ++
    ((input.client.bind AuthControlPlaneClient.azp).map fun azp => ("azp".toList, .string azp)).toList ++
    ((input.subject.bind AuthControlPlanePrincipal.id).map fun id => ("sub".toList, .string id)).toList

def toGenericRequest (ν : Type) (input : AuthControlPlaneInput) : Except Decision (GenericPolicyRequest ν) :=
  match requestMethodPath input with
  | .error decision => .error decision
  | .ok (method, path) =>
    match input.scopes with
    | none => .error (.deny .missingScopes (some "scopes_missing"))
    | some scopes => .ok ⟨method, path, scopes, claimsFromControlPlaneInput input⟩

def validateSessionBinding (input : AuthControlPlaneInput) (subjectId actorId : Text) : Option Decision :=
  let resourceProject := normalizedClaim (input.resource.bind AuthControlPlaneResource.projectId)
  match input.session with
  | none => none
  | some session =>
    if resourceProject.any fun project => session.projectId.any fun own => trim own != project then
      some (.deny .capabilityMismatch (some "project_binding_mismatch"))
    else if (normalizedClaim session.boundSubject).any fun bound => bound != subjectId then
      some (.deny .capabilityMismatch (some "session_subject_mismatch"))
    else if (normalizedClaim session.boundActor).any fun bound => bound != actorId then
      some (.deny .capabilityMismatch (some "session_actor_mismatch"))
    else none

def validateTokenExchange (input : AuthControlPlaneInput) : Option Decision :=
  let exchange := input.token.bind AuthControlPlaneToken.exchange
  if requestAction input ≠ some "token.exchange".toList then
    if exchange.isSome then some (.deny .capabilityMismatch (some "exchange_not_allowed")) else none
  else
    match exchange with
    | none => some (.deny .capabilityMissing (some "audit_binding_missing"))
    | some exchange =>
      if (normalizedClaim exchange.auditSubject).isNone || (normalizedClaim exchange.auditActorClient).isNone ||
          (normalizedClaim exchange.exchangeId).isNone || exchange.dasMustRevalidate != some true then
        some (.deny .capabilityMissing (some "audit_binding_missing"))
      else none

def validateSenderConstraint (input : AuthControlPlaneInput) (tokenMode : AuthControlPlaneTokenMode) :
    Option Decision :=
  if tokenMode ≠ .senderConstrained then none
  else
    match input.proof with
    | none => some (.deny .invalidInput (some "sender_constraint"))
    | some proof =>
      if proof.senderConstrained == some true &&
          (proof.dpopValid == some true || proof.cnfThumbprintMatch == some true) &&
          proof.replayOk != some false then none
      else some (.deny .invalidInput (some "sender_constraint"))

/-- The checks before the kernel: the decision, if one of them denies. -/
def validateEnvelope (input : AuthControlPlaneInput) : Option Decision :=
  match input.token.bind AuthControlPlaneToken.mode with
  | none | some .none => some (.deny .missingToken (some "token_missing"))
  | some tokenMode =>
    match principalId input.subject, principalId input.actor with
    | none, _ => some (.deny .missingToken (some "subject_missing"))
    | some _, none => some (.deny .missingToken (some "actor_missing"))
    | some subjectId, some actorId =>
      if tokenMode = .system ∧ requestAction input ≠ some "system.run".toList then
        some (.deny .systemTokenForbidden (some "system_token_forbidden"))
      else
        ((validateSessionBinding input subjectId actorId).or (validateTokenExchange input)).or
          (validateSenderConstraint input tokenMode)

/-- A read of the health or of the status that is open to everyone. -/
def AuthControlPlanePolicyAuthority.exempt (authority : AuthControlPlanePolicyAuthority)
    (input : AuthControlPlaneInput) : Bool :=
  authority.healthStatusExposure == .publicReadOnly && isHealthStatusRead input

def AuthControlPlanePolicyAuthority.evaluatePolicy (ν : Type) (limits : Boundary)
    (authority : AuthControlPlanePolicyAuthority) (input : AuthControlPlaneInput) : Decision :=
  if input.schemaVersion ≠ some contractVersion then .deny .invalidInput (some "contract_version")
  else if authority.exempt input then .allowed
  else
    match validateEnvelope input with
    | some decision => decision
    | none =>
      match toGenericRequest ν input with
      | .error decision => decision
      | .ok request => authority.kernel.authorize limits request

end Projection

/-! ### Audiences that are kept -/

section Audience

variable {ν : Type} {limits : Boundary} {expected : Text}

/-- The claims with nothing but an audience. -/
def audienceClaims (aud : Option (Claim ν)) : ClaimsMap ν := (aud.map fun value => ("aud".toList, value)).toList

def audienceOnly (claims : ClaimsMap ν) : ClaimsMap ν := audienceClaims (claims.get "aud")

/-- `enforce_claims` with the expected audience accepts the audience of the claims. -/
def AcceptsAudience (limits : Boundary) (expected : Text) (claims : ClaimsMap ν) : Prop :=
  (enforceClaims limits ⟨none, some expected, []⟩ (audienceOnly claims)).allow = true

/-- What the control plane reads out of the entries that are not blank: the words of an only entry, or else the
entries. -/
def NamedThrough (limits : Boundary) (expected : Text) : List Text → Prop
  | [entry] => expected ∈ splitWhitespace entry ∧ (splitWhitespace entry).length ≤ limits.maxListLength
  | entries => expected ∈ entries

/-- An array that names the audience for the control plane has strings only, and the audience itself is one. -/
def Kept (limits : Boundary) (expected : Text) : Option (Claim ν) → Prop
  | some (.array values) => NamedThrough limits expected (nonBlankStrings values) →
      values.all Claim.isString = true ∧ expected ∈ values.filterMap Claim.asStr
  | _ => True

/-! ### The original claims -/

theorem get_audienceClaims (aud : Option (Claim ν)) : (audienceClaims aud).get "aud" = aud := by
  cases aud <;> rfl

theorem lookup_toList_of_ne {α : Type} {key key' : Text} (h : key ≠ key') (o : Option α) (f : α → Claim ν) :
    (o.map fun x => (key', f x)).toList.lookup key = none := by
  cases o with
  | none => rfl
  | some x =>
    show List.lookup key [(key', f x)] = none
    rw [lookup_cons, beq_eq_false_iff_ne.mpr h]
    rfl

theorem get_audienceClaims_of_ne (aud : Option (Claim ν)) (key : String) (h : key.toList ≠ "aud".toList) :
    (audienceClaims aud).get key = none :=
  lookup_toList_of_ne h aud id

/-- An audience of the right type. -/
def audienceTyped : Option (Claim ν) → Bool
  | none => true
  | some (.string _) => true
  | some (.array values) => values.all Claim.isString
  | _ => false

variable {input : AuthControlPlaneInput} {claims : ClaimsMap ν} {decision : Decision} {audiences : List Text}

theorem acceptsAudience_iff : AcceptsAudience limits expected claims ↔
      limits.stringWithinBoundaryLimit expected = true ∧ normalizedClaimAudienceWithinLimits limits claims = true ∧
        audienceTyped (claims.get "aud") = true ∧ expected ∈ extractAudiences claims := by
  have hiss := get_audienceClaims_of_ne (claims.get "aud") "iss" (by decide)
  have hazp := get_audienceClaims_of_ne (claims.get "aud") "azp" (by decide)
  have hclient := get_audienceClaims_of_ne (claims.get "aud") "client_id" (by decide)
  have haud := get_audienceClaims (claims.get "aud")
  have hwithin : normalizedClaimAudienceWithinLimits limits (audienceOnly claims) =
      normalizedClaimAudienceWithinLimits limits claims := by
    unfold normalizedClaimAudienceWithinLimits audienceOnly
    rw [haud]
  have hextract : extractAudiences (audienceOnly claims) = extractAudiences claims := by
    unfold extractAudiences audienceOnly
    rw [haud]
  have htyped : claimsHaveValidTypes (audienceOnly claims) = audienceTyped (claims.get "aud") := by
    unfold claimsHaveValidTypes audienceOnly
    simp only [all_cons, hiss, hazp, hclient, haud]
    rfl
  have hnone : normalizedClaim none = none := rfl
  have hlist : limits.listWithinBoundaryLimits [] = true := by simp [Boundary.listWithinBoundaryLimits]
  rw [AcceptsAudience, enforceClaims_allow_iff, htyped]
  unfold audienceOnly at hwithin hextract ⊢
  simp only [claimsInputWithinBoundaryLimits, claimsCfgWithinBoundaryLimits, normalizedClaimStringWithinLimits, hiss,
    hazp, hclient, Option.bind_none, hnone, hlist, hwithin, issuerAccepted, audienceAccepted, azpAccepted, hextract,
    Boundary.optionalStringWithinBoundaryLimit, Option.map_none, Option.map_some, Option.getD_none, Option.getD_some,
    Option.all_none, Option.all_some, elem_eq_mem, decide_eq_true_eq, isEmpty_nil, Bool.true_or, Bool.and_eq_true, true_and, and_true, and_assoc]

/-! ### The claims that are built again -/

theorem get_aud_claimsFromControlPlaneInput (input : AuthControlPlaneInput) :
    (claimsFromControlPlaneInput input : ClaimsMap ν).get "aud" = input.audiences.map audienceValue := by
  unfold claimsFromControlPlaneInput ClaimsMap.get
  simp only [lookup_append]
  rw [lookup_toList_of_ne (show "aud".toList ≠ "iss".toList by decide),
    lookup_toList_of_ne (show "aud".toList ≠ "client_id".toList by decide),
    lookup_toList_of_ne (show "aud".toList ≠ "azp".toList by decide),
    lookup_toList_of_ne (show "aud".toList ≠ "sub".toList by decide)]
  cases input.audiences <;> rfl

/-- The audiences that the kernel reads in the claims built again. -/
def readAgain : List Text → List Text
  | [audience] => splitWhitespace audience
  | audiences => audiences

theorem extractAudiences_of_value (h : claims.get "aud" = some (audienceValue audiences)) :
    extractAudiences claims = readAgain audiences := by
  have hmap : ∀ texts : List Text, (texts.map (Claim.string (ν := ν))).filterMap Claim.asStr = texts := by
    intro texts
    rw [filterMap_map]
    exact filterMap_some
  unfold extractAudiences
  rw [h]
  match audiences with
  | [] => rfl
  | [audience] => rfl
  | a :: b :: rest => exact hmap (a :: b :: rest)

theorem namedThrough_of_value (h : claims.get "aud" = some (audienceValue audiences))
    (hwithin : normalizedClaimAudienceWithinLimits limits claims = true) (hmem : expected ∈ extractAudiences claims) :
    NamedThrough limits expected audiences := by
  rw [extractAudiences_of_value h] at hmem
  unfold normalizedClaimAudienceWithinLimits at hwithin
  rw [h] at hwithin
  match audiences with
  | [] => exact hmem
  | [audience] =>
    obtain ⟨hlength, -⟩ := Bool.and_eq_true_iff.mp hwithin
    exact ⟨hmem, of_decide_eq_true hlength⟩
  | a :: b :: rest => exact hmem

theorem splitScopeString_eq (value : Text) : splitScopeString value = nonEmptyVec (splitWhitespace value) := by
  have hmap : (splitWhitespace value).map trim = splitWhitespace value :=
    (map_congr_left fun word hword => trim_of_mem_splitWhitespace hword).trans (List.map_id _)
  rw [splitScopeString, hmap, splitWhitespace, filter_filter]
  simp only [Bool.and_self]

theorem readAgain_splitWhitespace (value : Text) : readAgain (splitWhitespace value) = splitWhitespace value := by
  match hwords : splitWhitespace value with
  | [] => rfl
  | [word] => exact splitWhitespace_of_mem (by rw [hwords]; exact mem_singleton_self word)
  | _ :: _ :: _ => rfl

/-- **The projection keeps an audience** that is kept: what the kernel accepts of the claims built again, the policy
core accepts of the original ones. -/
theorem acceptsAudience_of_projected {rebuilt : ClaimsMap ν}
    (hrebuilt : rebuilt.get "aud" = (claimAudiences (.object claims)).map audienceValue)
    (hkept : Kept limits expected (claims.get "aud"))
    (hwithin : normalizedClaimAudienceWithinLimits limits claims = true)
    (hlimit : limits.stringWithinBoundaryLimit expected = true)
    (hagain : normalizedClaimAudienceWithinLimits limits rebuilt = true) (hmem : expected ∈ extractAudiences rebuilt) :
    AcceptsAudience limits expected claims := by
  -- without an audience in the envelope there is none in the claims
  have hsome : ∃ audiences, claimAudiences (.object claims) = some audiences := by
    cases hnone : claimAudiences (.object claims) with
    | some audiences => exact ⟨audiences, rfl⟩
    | none =>
      rw [hnone] at hrebuilt
      unfold extractAudiences at hmem
      rw [hrebuilt] at hmem
      cases hmem
  obtain ⟨audiences, haudiences⟩ := hsome
  rw [haudiences] at hrebuilt
  have hnamed := namedThrough_of_value hrebuilt hagain hmem
  rw [extractAudiences_of_value hrebuilt] at hmem
  rw [acceptsAudience_iff]
  refine ⟨hlimit, hwithin, ?_⟩
  unfold extractAudiences
  have hget : getKey (.object claims) "aud".toList = claims.get "aud" := rfl
  unfold claimAudiences claimStringVec at haudiences
  rw [hget] at haudiences
  cases haud : claims.get "aud" with
  | none =>
    rw [haud] at haudiences
    cases haudiences
  | some aud =>
    rw [haud] at haudiences hkept
    cases aud with
    | string value =>
      dsimp only at haudiences
      rw [splitScopeString_eq, nonEmptyVec] at haudiences
      split_ifs at haudiences
      obtain rfl := Option.some.inj haudiences
      rw [readAgain_splitWhitespace] at hmem
      exact ⟨rfl, hmem⟩
    | array values =>
      dsimp only [nonEmptyVec] at haudiences
      split_ifs at haudiences
      obtain rfl := Option.some.inj haudiences
      exact hkept hnamed
    | _ => cases haudiences

/-! ### Evaluation -/

theorem validateSessionBinding_denies {subjectId actorId : Text}
    (h : validateSessionBinding input subjectId actorId = some decision) : decision.allow = false := by
  unfold validateSessionBinding at h
  dsimp only at h
  split at h
  · cases h
  · split_ifs at h <;> cases h <;> rfl

theorem validateTokenExchange_denies (h : validateTokenExchange input = some decision) : decision.allow = false := by
  unfold validateTokenExchange at h
  dsimp only at h
  split_ifs at h
  · cases h
    rfl
  · split at h
    · cases h
      rfl
    · split_ifs at h
      cases h
      rfl

theorem validateSenderConstraint_denies {tokenMode : AuthControlPlaneTokenMode}
    (h : validateSenderConstraint input tokenMode = some decision) : decision.allow = false := by
  unfold validateSenderConstraint at h
  split_ifs at h
  split at h
  · cases h
    rfl
  · split_ifs at h
    cases h
    rfl

theorem validateEnvelope_denies (h : validateEnvelope input = some decision) : decision.allow = false := by
  unfold validateEnvelope at h
  split at h
  · cases h; rfl
  · cases h; rfl
  · split at h
    · cases h; rfl
    · cases h; rfl
    · split_ifs at h
      · cases h; rfl
      · rcases Option.or_eq_some_iff.mp h with h | ⟨-, h⟩
        · rcases Option.or_eq_some_iff.mp h with h | ⟨-, h⟩
          · exact validateSessionBinding_denies h
          · exact validateTokenExchange_denies h
        · exact validateSenderConstraint_denies h

theorem toGenericRequest_claims {request : GenericPolicyRequest ν}
    (h : toGenericRequest ν input = .ok request) : request.claims = claimsFromControlPlaneInput input := by
  unfold toGenericRequest at h
  split at h
  · cases h
  · split at h
    · cases h
    · cases h
      rfl

theorem toGenericRequest_denies (h : toGenericRequest ν input = .error decision) : decision.allow = false := by
  unfold toGenericRequest at h
  split at h
  case h_1 hpath =>
    cases h
    unfold requestMethodPath at hpath
    split at hpath
    · cases hpath; rfl
    · split at hpath <;> cases hpath <;> rfl
  case h_2 =>
    split at h <;> cases h
    rfl

theorem enforceClaims_of_authorize {kernel : EmbeddedPolicyKernel} {request : GenericPolicyRequest ν}
    (h : (kernel.authorize limits request).allow = true) :
    (enforceClaims limits kernel.claimsCfg request.claims).allow = true := by
  by_contra hdenied
  unfold EmbeddedPolicyKernel.authorize at h
  dsimp only at h
  split_ifs at h with hlimits hclaims
  · cases h
  · exact hdenied h
  all_goals
    rw [Bool.not_eq_true', Bool.not_eq_false] at hclaims
    exact hdenied hclaims

theorem enforceClaims_of_allowed {authority : AuthControlPlanePolicyAuthority}
    (h : (authority.evaluatePolicy ν limits input).allow = true) (hexempt : authority.exempt input = false) :
    (enforceClaims limits authority.kernel.claimsCfg (claimsFromControlPlaneInput input : ClaimsMap ν)).allow = true := by
  unfold AuthControlPlanePolicyAuthority.evaluatePolicy at h
  rw [hexempt, if_neg Bool.false_ne_true] at h
  split_ifs at h with hversion
  · cases h
  · split at h
    case h_1 decision henvelope =>
      rw [validateEnvelope_denies henvelope] at h
      cases h
    case h_2 =>
      split at h
      case h_1 decision hrequest =>
        rw [toGenericRequest_denies hrequest] at h
        cases h
      case h_2 request hrequest =>
        rw [← toGenericRequest_claims hrequest]
        exact enforceClaims_of_authorize h

/-! ### A request that only its audience decides -/

/-- A request of some actor with nothing but an audience in its claims. -/
def plainRequest (aud : Option (Claim ν)) : PolicyHttpRequestContext ν :=
  ⟨['a'], ['a'], some ⟨['a'], [[]], .object (audienceClaims aud), none, none⟩, none⟩

/-- An authority that expects an audience and asks for the empty scope. -/
def audienceAuthority (expected : Text) : AuthControlPlanePolicyAuthority :=
  ⟨⟨⟨none, some expected, []⟩, RoutePolicy.default.withDefaultScopes [] []⟩, .protectedRoutes⟩

theorem authorize_plain {cfg : ClaimsCfg} (h : (enforceClaims limits cfg claims).allow = true) :
    (EmbeddedPolicyKernel.authorize limits ⟨cfg, RoutePolicy.default.withDefaultScopes [] []⟩
      ⟨['a'], ['a'], [[]], claims⟩).allow = true := by
  have hempty : limits.stringWithinBoundaryLimit [] = true := decide_eq_true (Nat.zero_le _)
  have hletter : limits.stringWithinBoundaryLimit ['a'] = true := decide_eq_true limits.string_pos
  have htrim : trim ['a'] = ['a'] := by decide
  have hpath : validateHttpPath limits ['a'] = .allowed := by
    rw [validateHttpPath, hletter]
    decide
  have hsegment : hasPathSegment (utf8 ['a']) = true := by decide
  have hmethod : classifyMethod ['a'] ≠ .deny := by decide
  have hscopes : (RoutePolicy.default.withDefaultScopes [] []).requiredScopes ['a'] ['a'] = [[]] := by decide
  unfold EmbeddedPolicyKernel.authorize requestWithinBoundaryLimits
  simp only [htrim, hletter, listWithin_singleton hempty, h, hpath, hsegment, if_neg hmethod, hscopes]
  simp [Decision.allowed, Decision.withRequiredScopes]

/-- The envelope of a plain request. -/
theorem mapRequest_plain (aud : Option (Claim ν)) : AuthControlPlaneHttpMapper.default.mapRequest (plainRequest aud) =
      { schemaVersion := some contractVersion
        subject := some ⟨some ['a']⟩
        actor := some ⟨some ['a']⟩
        issuer := none
        audiences := claimAudiences (.object (audienceClaims aud))
        client := some ⟨none, none⟩
        scopes := some [[]]
        resource := some ⟨none⟩
        session := some ⟨none, none, none⟩
        request := some ⟨some ['a'], some ['a'], some "http.write".toList⟩
        token := some ⟨some .bearer, none⟩
        proof := some (claimProof (.object (audienceClaims aud))) } := by
  have hother : ∀ key : Text, key ≠ "aud".toList → getKey (.object (audienceClaims aud)) key = none :=
    fun key hne => lookup_toList_of_ne hne aud id
  have hstring : ∀ key : Text, key ≠ "aud".toList → claimString (.object (audienceClaims aud)) key = none := by
    intro key hne
    rw [claimString, hother key hne]
    rfl
  have hexchange : claimExchange (.object (audienceClaims aud)) = none := by
    rw [claimExchange, hother _ (by decide), hother _ (by decide)]
    rfl
  have haction : inferAction ['a'] ['a'] = "http.write".toList := by decide
  simp only [AuthControlPlaneHttpMapper.mapRequest, AuthControlPlaneHttpMapper.default, plainRequest, Option.map_some,
    Option.bind_some, hexchange]
  rw [hstring "sub".toList (by decide), hstring "iss".toList (by decide), hstring "project_id".toList (by decide),
    hstring "client_id".toList (by decide), hstring "bound_subject".toList (by decide),
    hstring "bound_actor".toList (by decide)]
  rfl

theorem evaluatePolicy_plain {aud : Option (Claim ν)}
    (h : (enforceClaims limits ⟨none, some expected, []⟩ (claimsFromControlPlaneInput
      (AuthControlPlaneHttpMapper.default.mapRequest (plainRequest aud)) : ClaimsMap ν)).allow = true) :
    ((audienceAuthority expected).evaluatePolicy ν limits
      (AuthControlPlaneHttpMapper.default.mapRequest (plainRequest aud))).allow = true := by
  rw [mapRequest_plain] at h ⊢
  have hclean : normalizedClaim (some ['a']) = some ['a'] := by decide
  have haction : normalizedClaim (some "http.write".toList) = some "http.write".toList := by decide
  exact authorize_plain h

/-- An array that names the audience for the control plane is accepted when it is built again. -/
theorem enforceClaims_of_namedThrough (haud : claims.get "aud" = some (audienceValue audiences))
    (hother : ∀ key ∈ ["iss", "azp", "client_id"], claims.get key = none)
    (hclean : ∀ text ∈ audiences, trim text = text ∧ text ≠ [])
    (hwithin : ∀ text ∈ audiences, limits.stringWithinBoundaryLimit text = true)
    (hlength : audiences.length ≤ limits.maxListLength) (hnamed : NamedThrough limits expected audiences) :
    (enforceClaims limits ⟨none, some expected, []⟩ claims).allow = true := by
  obtain ⟨hiss, hazp, hclient⟩ : claims.get "iss" = none ∧ claims.get "azp" = none ∧
      claims.get "client_id" = none := ⟨hother _ (by simp), hother _ (by simp), hother _ (by simp)⟩
  have hmem : expected ∈ extractAudiences claims ∧ limits.stringWithinBoundaryLimit expected = true := by
    rw [extractAudiences_of_value haud]
    match audiences with
    | [] => cases hnamed
    | [entry] =>
      exact ⟨hnamed.1, within_of_mem_splitWhitespace hnamed.1 (hwithin entry (mem_singleton_self entry))⟩
    | a :: b :: rest => exact ⟨hnamed, hwithin expected hnamed⟩
  have hlimits : normalizedClaimAudienceWithinLimits limits claims = true := by
    unfold normalizedClaimAudienceWithinLimits
    rw [haud]
    match audiences with
    | [] => cases hnamed
    | [entry] =>
      refine Bool.and_eq_true_iff.mpr ⟨decide_eq_true hnamed.2, all_eq_true.mpr ?_⟩
      intro word hword
      exact within_of_mem_splitWhitespace hword (hwithin entry (mem_singleton_self entry))
    | a :: b :: rest =>
      refine audiencesWithinLimits_iff.mpr ?_
      rw [nonBlankStrings_map_string hclean, Nat.zero_add]
      exact ⟨hwithin, fun _ => hlength⟩
  have htyped : claimsHaveValidTypes claims = true := by
    unfold claimsHaveValidTypes
    simp only [all_cons, hiss, hazp, hclient, haud]
    match audiences with
    | [] => rfl
    | [entry] => rfl
    | a :: b :: rest =>
      show (List.map Claim.string (a :: b :: rest)).all Claim.isString = true
      simp [Claim.isString, Claim.asStr]
  have hnone : normalizedClaim none = none := rfl
  have hlist : limits.listWithinBoundaryLimits [] = true := by simp [Boundary.listWithinBoundaryLimits]
  refine enforceClaims_allow_iff.mpr ⟨?_, htyped, rfl, by simpa [audienceAccepted] using hmem.1, rfl⟩
  simp [claimsInputWithinBoundaryLimits, claimsCfgWithinBoundaryLimits, normalizedClaimStringWithinLimits, hiss,
    hazp, hclient, hnone, hlist, hlimits, Boundary.optionalStringWithinBoundaryLimit, hmem.2]

theorem evaluatePolicy_of_namedThrough {values : List (Claim ν)}
    (hwithin : audiencesWithinLimits limits 0 values = true)
    (hnamed : NamedThrough limits expected (nonBlankStrings values)) :
    ((audienceAuthority expected).evaluatePolicy ν limits
      (AuthControlPlaneHttpMapper.default.mapRequest (plainRequest (some (.array values))))).allow = true := by
  have hne : nonBlankStrings values ≠ [] := by
    intro hnil
    rw [hnil] at hnamed
    cases hnamed
  have haud : claimAudiences (.object (audienceClaims (some (.array values)))) = some (nonBlankStrings values) :=
    if_neg (by simpa using hne)
  obtain ⟨hall, hlength⟩ := audiencesWithinLimits_iff.mp hwithin
  refine evaluatePolicy_plain ?_
  rw [mapRequest_plain, haud]
  refine enforceClaims_of_namedThrough (get_aud_claimsFromControlPlaneInput _) ?_ trim_of_mem_nonBlankStrings hall ?_
    hnamed
  · simp only [forall_mem_cons, not_mem_nil, false_imp_iff, implies_true, and_true]
    exact ⟨rfl, rfl, rfl⟩
  · have := hlength hne
    omega

/-- **The projection and the audience.**  For every audience within the limits: whatever the other claims, the mapper,
the authority and the request are, only an audience that the policy core accepts is let through, exactly if the
audience is kept. -/
theorem audience_kept_iff (limits : Boundary) (expected : Text) (aud : Option (Claim ν))
    (hwithin : claimsInputWithinBoundaryLimits limits .default (audienceClaims aud) = true) :
    (∀ (mapper : AuthControlPlaneHttpMapper) (authority : AuthControlPlanePolicyAuthority)
        (context : PolicyHttpRequestContext ν) (auth : PolicyHttpAuthContext ν) (claims : ClaimsMap ν),
      context.auth = some auth → auth.claims = .object claims → claims.get "aud" = aud →
      claimsInputWithinBoundaryLimits limits .default claims = true →
      authority.kernel.claimsCfg.expectedAudience = some expected →
      (authority.evaluatePolicy ν limits (mapper.mapRequest context)).allow = true →
      authority.exempt (mapper.mapRequest context) = false → AcceptsAudience limits expected claims) ↔
    Kept limits expected aud := by
  constructor
  · intro hsafe
    match aud with
    | some (.array values) =>
      intro hnamed
      have haudience : audiencesWithinLimits limits 0 values = true := (Bool.and_eq_true_iff.mp hwithin).2
      have haccepts := hsafe .default (audienceAuthority expected) (plainRequest (some (.array values))) _ _ rfl rfl
        (get_audienceClaims _) hwithin rfl (evaluatePolicy_of_namedThrough haudience hnamed) rfl
      obtain ⟨-, -, htyped, hmem⟩ := acceptsAudience_iff.mp haccepts
      exact ⟨htyped, hmem⟩
    | none | some .null | some (.bool _) | some (.number _) | some (.string _) | some (.object _) => trivial
  · intro hkept mapper authority context auth claims hauth hclaims haud hlimits hexpected hallow hexempt
    have hpassed := enforceClaims_of_allowed hallow hexempt
    obtain ⟨hagain, -, -, haccepted, -⟩ := enforceClaims_allow_iff.mp hpassed
    have hprojected : (mapper.mapRequest context).audiences = claimAudiences (.object claims) := by
      simp only [AuthControlPlaneHttpMapper.mapRequest, hauth, Option.map_some, Option.bind_some, hclaims]
    have hrebuilt := get_aud_claimsFromControlPlaneInput (ν := ν) (mapper.mapRequest context)
    rw [hprojected] at hrebuilt
    simp only [claimsInputWithinBoundaryLimits, claimsCfgWithinBoundaryLimits, hexpected, Bool.and_eq_true] at hagain
    rw [audienceAccepted, hexpected] at haccepted
    refine acceptsAudience_of_projected hrebuilt (haud ▸ hkept) (Bool.and_eq_true_iff.mp hlimits).2 ?_ hagain.2 ?_
    · exact hagain.1.1.1.1.1.2
    · simpa using haccepted

end Audience

/-- A read of `/mcp` by a token with an audience, before an authority that expects `mcp`. -/
def opsAuthority : AuthControlPlanePolicyAuthority :=
  ⟨⟨⟨none, some "mcp".toList, []⟩, .default⟩, .protectedRoutes⟩

def opsRequest (aud : Claim Unit) : PolicyHttpRequestContext Unit :=
  ⟨"GET".toList, "/mcp".toList, some ⟨"alice".toList, ["mcp:read".toList], .object [("aud".toList, aud)], none, none⟩,
    none⟩

theorem audience_kept_plainEntries : AcceptsAudience .fallback "mcp".toList
      ([("aud".toList, .array [.string "mcp".toList, .string "ops".toList])] : ClaimsMap Unit) := by
  refine (audience_kept_iff .fallback "mcp".toList (some (.array [.string "mcp".toList, .string "ops".toList]))
    (by decide)).mpr ?_ .default opsAuthority
      (opsRequest (.array [.string "mcp".toList, .string "ops".toList])) _ _ rfl rfl rfl (by decide) rfl
      (by decide) rfl
  intro _
  exact ⟨by decide, by decide⟩

instance (limits : Boundary) (expected : Text) (claims : ClaimsMap Unit) :
    Decidable (AcceptsAudience limits expected claims) := inferInstanceAs (Decidable (_ = true))

/-- The words of an only entry, and the strings among other values, are let through; the policy core rejects both. -/
theorem audience_widened : (opsAuthority.evaluatePolicy Unit .fallback
        (AuthControlPlaneHttpMapper.default.mapRequest (opsRequest (.array [.string "ops mcp".toList])))).allow = true ∧
    ¬ AcceptsAudience .fallback "mcp".toList ([("aud".toList, .array [.string "ops mcp".toList])] : ClaimsMap Unit) ∧
    (opsAuthority.evaluatePolicy Unit .fallback
        (AuthControlPlaneHttpMapper.default.mapRequest (opsRequest (.array [.null, .string "mcp".toList])))).allow =
      true ∧ ¬ AcceptsAudience .fallback "mcp".toList
        ([("aud".toList, .array [.null, .string "mcp".toList])] : ClaimsMap Unit) ∧
    (∀ aud, opsAuthority.exempt (AuthControlPlaneHttpMapper.default.mapRequest (opsRequest aud)) = false) := by
  refine ⟨by decide, by decide, by decide, by decide, fun _ => rfl⟩

end McpToolkit.Policy.ControlPlane
