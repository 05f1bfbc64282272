import McpToolkit.Policy.ClaimShapes

/-!
# McpToolkit.Auth.Claims — issuer and audience, in two layers

`validate_issuer_audience` of the auth crate's `claims.rs`, next to `enforce_claims` of the policy core.
Both trim the issuer.  An array of audiences is trimmed here, and its blank entries are dropped; the
policy core takes its entries as they are.  So the layers differ where an entry has blanks around it.
-/

namespace McpToolkit.Auth.Claims

open List
open Lib.Text (splitWhitespace trim trim_of_mem_splitWhitespace)
open McpToolkit.Policy hiding extractAudiences

/-- `AuthError::InvalidToken`, the one error of this check. -/
inductive AuthError
  | invalidToken
  deriving DecidableEq

/-- What the check reads of the configuration. -/
structure AuthConfig where
  issuer : Option Text
  audience : Option Text
  deriving DecidableEq

section Defs

variable {ν : Type} (claims : ClaimsMap ν)

def extractAudiences : List Text :=
  match claims.get "aud" with
  | none => []
  | some (.string value) => ((splitWhitespace value).map trim).filter fun aud => !aud.isEmpty
  | some (.array values) => ((values.filterMap Claim.asStr).map trim).filter fun aud => !aud.isEmpty
  | some _ => []

def validateIssuerAudience (config : AuthConfig) : Except AuthError Unit :=
  let audienceFails := config.audience.any fun expected =>
    (extractAudiences claims).isEmpty || !(extractAudiences claims).elem expected
  match config.issuer with
  | some expected =>
    if normalizedClaim ((claims.get "iss").bind Claim.asStr) ≠ some expected then .error .invalidToken
    else if audienceFails then .error .invalidToken else .ok ()
  | none => if audienceFails then .error .invalidToken else .ok ()

/-! ### What the layers are compared on -/

def audHasValidType : Bool :=
  match claims.get "aud" with
  | none => true
  | some (.string _) => true
  | some (.array values) => values.all Claim.isString
  | _ => false

/-- `iss` and `aud` have the types they should have and are within the limits. -/
def issuerAudienceWellFormed (limits : Boundary) : Bool :=
  (claims.get "iss").all Claim.isString && audHasValidType claims &&
    normalizedClaimStringWithinLimits limits claims "iss" && normalizedClaimAudienceWithinLimits limits claims

/-- The same for `azp` and `client_id`, and for the authorized parties of the configuration. -/
def partiesWellFormed (limits : Boundary) (allowedAzp : List Text) : Bool :=
  (["azp", "client_id"].all fun key =>
    (claims.get key).all Claim.isString && normalizedClaimStringWithinLimits limits claims key) &&
    limits.listWithinBoundaryLimits allowedAzp

end Defs

/-- A decision of `enforce_claims` that accepts the issuer and the audience: it allows, or denies the
authorized party, which is checked after them. -/
def AcceptsIssuerAudience (decision : Decision) : Prop :=
  decision = .allowed ∨ decision = .deny .azpNotAllowed none

instance (decision : Decision) : Decidable (AcceptsIssuerAudience decision) :=
  inferInstanceAs (Decidable (_ ∨ _))

section Agree

variable {ν : Type} {limits : Boundary} {claims : ClaimsMap ν} {issuer audience : Option Text}
  {allowedAzp : List Text}

/-- The issuer is the expected one, up to blanks around it. -/
def IssuerMatches (claims : ClaimsMap ν) (issuer : Option Text) : Prop :=
  ∀ expected ∈ issuer, normalizedClaim ((claims.get "iss").bind Claim.asStr) = some expected

/-- `aud` names an audience, up to blanks around it. -/
def Names (claims : ClaimsMap ν) (expected : Text) : Prop :=
  match claims.get "aud" with
  | some (.string value) => expected ∈ splitWhitespace value
  | some (.array values) => expected ≠ [] ∧ ∃ entry ∈ values.filterMap Claim.asStr, trim entry = expected
  | _ => False

/-- If `aud` is an array, blanks make no difference to an audience: where an entry is the audience with
blanks around it, another entry is the audience itself; and where the audience is an entry, within
the limits, it is not blank and has no blanks around it. -/
def SpelledOut (limits : Boundary) (claims : ClaimsMap ν) (expected : Text) : Prop :=
  match claims.get "aud" with
  | some (.array values) =>
    (∀ entry ∈ values.filterMap Claim.asStr, trim entry = expected → expected ≠ [] →
      expected ∈ values.filterMap Claim.asStr) ∧
    (expected ∈ values.filterMap Claim.asStr → limits.stringWithinBoundaryLimit expected = true →
      trim expected = expected ∧ expected ≠ [])
  | _ => True

/-! ### The auth crate -/

theorem mem_extractAudiences_iff {expected : Text} : expected ∈ extractAudiences claims ↔ Names claims expected := by
  unfold extractAudiences Names
  cases claims.get "aud" with
  | none => exact iff_of_false not_mem_nil id
  | some aud =>
    cases aud with
    | string value =>
      have hmap : (splitWhitespace value).map trim = splitWhitespace value :=
        (map_congr_left fun part hpart => trim_of_mem_splitWhitespace hpart).trans (List.map_id _)
      dsimp only
      rw [hmap, splitWhitespace, filter_filter]
      simp only [Bool.and_self]
    | array values =>
      rw [mem_filter, and_comm]
      simp
    | _ => exact iff_of_false not_mem_nil id

theorem validateIssuerAudience_eq_ok_iff : validateIssuerAudience claims ⟨issuer, audience⟩ = .ok () ↔
      IssuerMatches claims issuer ∧ ∀ expected ∈ audience, Names claims expected := by
  have haudience : (audience.any fun expected =>
      (extractAudiences claims).isEmpty || !(extractAudiences claims).elem expected) = false ↔
        ∀ expected ∈ audience, Names claims expected := by
    cases audience with
    | none => simp
    | some expected =>
      rw [Option.any_some, Bool.or_eq_false_iff, Bool.not_eq_false', elem_iff, mem_extractAudiences_iff]
      simp only [Option.mem_def, Option.some.injEq, forall_eq']
      refine and_iff_right_of_imp fun hnamed => ?_
      have hmem := mem_extractAudiences_iff.mpr hnamed
      exact isEmpty_eq_false_iff.mpr (ne_nil_of_mem hmem)
  unfold validateIssuerAudience IssuerMatches
  rw [← haudience]
  cases issuer with
  | none =>
    dsimp only
    split_ifs with hfails
    · exact iff_of_false nofun fun hok => Bool.eq_false_iff.mp hok.2 hfails
    · exact iff_of_true rfl ⟨by simp, Bool.eq_false_iff.mpr hfails⟩
  | some expected =>
    dsimp only
    split_ifs with hissuer hfails
    · exact iff_of_false nofun fun hok => hissuer (hok.1 expected rfl)
    · exact iff_of_false nofun fun hok => Bool.eq_false_iff.mp hok.2 hfails
    · exact iff_of_true rfl ⟨by simpa using hissuer, Bool.eq_false_iff.mpr hfails⟩

/-! ### The policy core -/

/-- Being spelled out is that the policy core accepts the audience exactly if the auth crate does. -/
theorem spelledOut_iff (h : normalizedClaimAudienceWithinLimits limits claims = true) {expected : Text} :
    SpelledOut limits claims expected ↔
      ((limits.stringWithinBoundaryLimit expected = true ∧ expected ∈ Policy.extractAudiences claims) ↔
        Names claims expected) := by
  unfold SpelledOut Policy.extractAudiences Names
  unfold normalizedClaimAudienceWithinLimits at h
  cases haud : claims.get "aud" with
  | none => exact iff_of_true trivial (by simp)
  | some aud =>
    rw [haud] at h
    cases aud with
    | string value =>
      refine iff_of_true trivial (and_iff_right_of_imp fun hmem => ?_)
      rw [Bool.and_eq_true] at h
      exact all_eq_true.mp h.2 expected hmem
    | array values =>
      constructor
      · rintro ⟨hblanks, hplain⟩
        constructor
        · rintro ⟨hlimit, hmem⟩
          obtain ⟨htrim, hne⟩ := hplain hmem hlimit
          exact ⟨hne, expected, hmem, htrim⟩
        · rintro ⟨hne, entry, hentry, rfl⟩
          have hwithin := (audiencesWithinLimits_iff.mp h).1 _ (mem_nonBlankStrings.mpr ⟨hne, entry, hentry, rfl⟩)
          exact ⟨hwithin, hblanks entry hentry rfl hne⟩
      · intro hiff
        constructor
        · intro entry hentry htrim hne
          exact (hiff.mpr ⟨hne, entry, hentry, htrim⟩).2
        · intro hmem hlimit
          obtain ⟨hne, entry, -, rfl⟩ := hiff.mp ⟨hlimit, hmem⟩
          exact ⟨trim_trim entry, hne⟩
    | _ => exact iff_of_true trivial (by simp)

theorem accepts_iff (cfg : ClaimsCfg) : AcceptsIssuerAudience (enforceClaims limits cfg claims) ↔
      claimsInputWithinBoundaryLimits limits cfg claims = true ∧ claimsHaveValidTypes claims = true ∧
        issuerAccepted cfg claims = true ∧ audienceAccepted cfg claims = true := by
  unfold AcceptsIssuerAudience enforceClaims
  cases claimsInputWithinBoundaryLimits limits cfg claims with
  | false => simp [Decision.allowed, Decision.deny]
  | true =>
    cases claimsHaveValidTypes claims with
    | false => simp [Decision.allowed, Decision.deny]
    | true =>
      cases issuerAccepted cfg claims with
      | false => simp [Decision.allowed, Decision.deny, DecisionCode.asStr]
      | true =>
        cases audienceAccepted cfg claims with
        | false => simp [Decision.allowed, Decision.deny, DecisionCode.asStr]
        | true => cases azpAccepted cfg claims <;> simp

theorem issuerAccepted_iff :
    issuerAccepted ⟨issuer, audience, allowedAzp⟩ claims = true ↔ IssuerMatches claims issuer := by
  cases issuer <;> simp [issuerAccepted, IssuerMatches]

theorem audienceAccepted_iff : audienceAccepted ⟨issuer, audience, allowedAzp⟩ claims = true ↔
      ∀ expected ∈ audience, expected ∈ Policy.extractAudiences claims := by
  cases audience <;> simp [audienceAccepted]

theorem IssuerMatches.within (hmatch : IssuerMatches claims issuer)
    (h : normalizedClaimStringWithinLimits limits claims "iss" = true) :
    limits.optionalStringWithinBoundaryLimit issuer = true := by
  cases issuer with
  | none => rfl
  | some expected =>
    rw [normalizedClaimStringWithinLimits, hmatch expected rfl] at h
    exact h

theorem accepts_enforceClaims_iff (h : issuerAudienceWellFormed claims limits = true) :
    AcceptsIssuerAudience (enforceClaims limits ⟨issuer, audience, allowedAzp⟩ claims) ↔
      partiesWellFormed claims limits allowedAzp = true ∧ IssuerMatches claims issuer ∧ ∀ expected ∈ audience,
          limits.stringWithinBoundaryLimit expected = true ∧ expected ∈ Policy.extractAudiences claims := by
  unfold issuerAudienceWellFormed at h
  simp only [Bool.and_eq_true] at h
  obtain ⟨⟨⟨hiss, haud⟩, hissLimit⟩, haudLimit⟩ := h
  have htypes : claimsHaveValidTypes claims =
      ((["iss", "azp", "client_id"].all fun key => (claims.get key).all Claim.isString) &&
        audHasValidType claims) := rfl
  rw [accepts_iff, issuerAccepted_iff, audienceAccepted_iff, htypes]
  unfold claimsInputWithinBoundaryLimits claimsCfgWithinBoundaryLimits partiesWellFormed
  simp only [all_cons, all_nil, Bool.and_eq_true, Bool.and_true, hiss, haud, hissLimit, haudLimit, true_and]
  constructor
  · rintro ⟨⟨⟨⟨⟨-, haudience⟩, hlist⟩, hazp⟩, hclient⟩, ⟨hazpType, hclientType⟩, hmatch, hmem⟩
    refine ⟨⟨⟨⟨hazpType, hazp⟩, hclientType, hclient⟩, hlist⟩, hmatch, fun expected hexpected => ?_⟩
    rw [Option.mem_def.mp hexpected] at haudience
    exact ⟨haudience, hmem expected hexpected⟩
  · rintro ⟨⟨⟨⟨hazpType, hazp⟩, hclientType, hclient⟩, hlist⟩, hmatch, hmem⟩
    refine ⟨⟨⟨⟨⟨hmatch.within hissLimit, ?_⟩, hlist⟩, hazp⟩, hclient⟩, ⟨hazpType, hclientType⟩, hmatch,
      fun expected hexpected => (hmem expected hexpected).2⟩
    cases audience with
    | none => rfl
    | some expected => exact (hmem expected rfl).1

/-- If the issuer is the expected one: with well-formed parties, the audience is spelled out; else it is
not named at all. -/
def LayersAgree (limits : Boundary) (claims : ClaimsMap ν) (issuer audience : Option Text)
    (allowedAzp : List Text) : Prop :=
  IssuerMatches claims issuer →
    if partiesWellFormed claims limits allowedAzp then ∀ expected ∈ audience, SpelledOut limits claims expected
    else ∃ expected ∈ audience, ¬Names claims expected

/-- **The layers agree on issuer and audience exactly if no blanks stand in an array of audiences where
they matter**, and no malformed party makes the policy core reject the claims altogether. -/
theorem issuerAudience_agree_iff (limits : Boundary) (claims : ClaimsMap ν) (issuer audience : Option Text)
    (allowedAzp : List Text) (h : issuerAudienceWellFormed claims limits = true) :
    (AcceptsIssuerAudience (enforceClaims limits ⟨issuer, audience, allowedAzp⟩ claims) ↔
        validateIssuerAudience claims ⟨issuer, audience⟩ = .ok ()) ↔
      LayersAgree limits claims issuer audience allowedAzp := by
  rw [accepts_enforceClaims_iff h, validateIssuerAudience_eq_ok_iff, LayersAgree]
  have haudLimit : normalizedClaimAudienceWithinLimits limits claims = true := by
    unfold issuerAudienceWellFormed at h
    rw [Bool.and_eq_true] at h
    exact h.2
  by_cases hissuer : IssuerMatches claims issuer
  · by_cases hparties : partiesWellFormed claims limits allowedAzp = true
    · cases audience with
      | none => simp
      | some expected =>
        simp only [hissuer, hparties, true_and, forall_const, Option.mem_def, Option.some.injEq, forall_eq']
        exact (spelledOut_iff haudLimit).symm
    · simp [hparties]
  · exact iff_of_true (by simp [hissuer]) fun hmatch => absurd hmatch hissuer

/-- Two audiences without blanks. -/
theorem issuerAudience_agree_plain : AcceptsIssuerAudience (enforceClaims .fallback ⟨none, some ['m'], []⟩
        ([("aud".toList, .array [.string ['m'], .string ['n']])] : ClaimsMap Unit)) ↔
      validateIssuerAudience ([("aud".toList, .array [.string ['m'], .string ['n']])] : ClaimsMap Unit)
        ⟨none, some ['m']⟩ = .ok () :=
  (issuerAudience_agree_iff .fallback _ none (some ['m']) [] (by decide)).mpr fun _ => by
    refine (if_pos (by decide)).mpr ?_
    rintro expected ⟨⟩
    exact ⟨fun _ _ _ _ => by decide, fun _ _ => by decide⟩

end Agree

/-- An array of audiences whose one entry has a blank before it. -/
def blankAudience : ClaimsMap Unit :=
  [("iss".toList, .string ['i']), ("aud".toList, .array [.string [' ', 'm']])]

/-- The auth crate accepts the audience, and the policy core denies it. -/
theorem issuerAudience_disagree : issuerAudienceWellFormed blankAudience .fallback = true ∧
      enforceClaims .fallback ⟨some ['i'], some ['m'], []⟩ blankAudience = .deny .audienceMismatch none ∧
      ¬(AcceptsIssuerAudience (enforceClaims .fallback ⟨some ['i'], some ['m'], []⟩ blankAudience) ↔
        validateIssuerAudience blankAudience ⟨some ['i'], some ['m']⟩ = .ok ()) := by
  decide

end McpToolkit.Auth.Claims
