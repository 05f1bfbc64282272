import McpToolkit.Lib.Text

/-!
# McpToolkit.Policy.Decision — decisions and boundary limits

`decision.rs` and `boundary.rs` of the policy core.  The two limits are positive constants that are
read from the kernel's artifacts when the crate is built, so they are a parameter;
`Boundary.fallback` has the values used without them.  Texts are lists of characters.
-/

namespace McpToolkit.Policy

open Lib.Text (utf8Length)

abbrev Text := List Char

inductive DecisionCode where
  | missingToken
  | missingScopes
  | missingRoles
  | issuerMismatch
  | audienceMismatch
  | azpNotAllowed
  | invalidPath
  | missingRealm
  | systemTokenForbidden
  | allowlistDenied
  | capabilityMissing
  | capabilityMismatch
  | quorumMissing
  | quorumStale
  | emptySql
  | unterminatedToken
  | multipleStatements
  | notReadOnlyPrefix
  | forbiddenKeyword
  | forbiddenFunction
  | explainNotReadOnly
  | classifierUnavailable
  | sparkRuntimeUnavailable
  | invalidInput
  deriving DecidableEq

def DecisionCode.asStr : DecisionCode → String
  | missingToken => "MISSING_TOKEN"
  | missingScopes => "MISSING_SCOPES"
  | missingRoles => "MISSING_ROLES"
  | issuerMismatch => "ISSUER_MISMATCH"
  | audienceMismatch => "AUDIENCE_MISMATCH"
  | azpNotAllowed => "AZP_NOT_ALLOWED"
  | invalidPath => "INVALID_PATH"
  | missingRealm => "MISSING_REALM"
  | systemTokenForbidden => "SYSTEM_TOKEN_FORBIDDEN"
  | allowlistDenied => "ALLOWLIST_DENIED"
  | capabilityMissing => "CAPABILITY_MISSING"
  | capabilityMismatch => "CAPABILITY_MISMATCH"
  | quorumMissing => "QUORUM_MISSING"
  | quorumStale => "QUORUM_STALE"
  | emptySql => "EMPTY_SQL"
  | unterminatedToken => "UNTERMINATED_TOKEN"
  | multipleStatements => "MULTIPLE_STATEMENTS"
  | notReadOnlyPrefix => "NOT_READ_ONLY_PREFIX"
  | forbiddenKeyword => "FORBIDDEN_KEYWORD"
  | forbiddenFunction => "FORBIDDEN_FUNCTION"
  | explainNotReadOnly => "EXPLAIN_NOT_READ_ONLY"
  | classifierUnavailable => "CLASSIFIER_UNAVAILABLE"
  | sparkRuntimeUnavailable => "SPARK_RUNTIME_UNAVAILABLE"
  | invalidInput => "INVALID_INPUT"

structure Decision where
  allow : Bool
  code : Option String
  reason : Option String
  requiredScopes : Option (List Text)
  deriving DecidableEq

namespace Decision

/-- `Decision::allow`. -/
def allowed : Decision := ⟨true, none, none, none⟩

def deny (code : DecisionCode) (reason : Option String) : Decision :=
  ⟨false, some code.asStr, reason, none⟩

def withRequiredScopes (decision : Decision) (scopes : List Text) : Decision :=
  { decision with requiredScopes := some scopes }

end Decision

/-! ### Boundary limits -/

structure Boundary where
  maxStringLength : ℕ
  maxListLength : ℕ
  string_pos : 0 < maxStringLength
  list_pos : 0 < maxListLength
  deriving DecidableEq

def Boundary.fallback : Boundary := ⟨2048, 128, by decide, by decide⟩

namespace Boundary

variable (limits : Boundary)

def stringWithinBoundaryLimit (value : Text) : Bool := utf8Length value ≤ limits.maxStringLength

def optionalStringWithinBoundaryLimit (value : Option Text) : Bool :=
  (value.map limits.stringWithinBoundaryLimit).getD true

def listWithinBoundaryLimits (values : List Text) : Bool :=
  values.length ≤ limits.maxListLength && values.all limits.stringWithinBoundaryLimit

end Boundary

end McpToolkit.Policy
