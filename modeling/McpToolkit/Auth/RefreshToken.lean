import McpToolkit.Lib.System
import McpToolkit.Lib.Text
import McpToolkit.Lib.Word

/-!
# McpToolkit.Auth.RefreshToken — rotation of refresh tokens

`RefreshTokenProvider` of `upstream_oauth.rs`.  A call of `access_token` that finds no fresh token takes
the write lock of the cache and holds it until it returns, so at most one call refreshes at a time;
the replacement can be read and taken meanwhile.  What lies between two points where a call waits is
one step.  Instants are numbers of nanoseconds up to `horizon`; the Unix clock counts seconds.

The OAuth library that reads an answer is a parameter, with the endpoint (`TokenEndpoint`): a body may
issue a replacement and still not be one that the library can read.

A run keeps, next to the provider, which token the endpoint accepts (`live`) and which replacement it
issued that was neither taken nor superseded (`outstanding`).
-/

namespace McpToolkit.Auth

open Lib
open Lib.Text

/-- `SecretString::is_empty`. -/
def secretIsEmpty (value : List Char) : Bool := (trim value).isEmpty

inductive UpstreamOAuthError
  | http
  | tokenExchange (message : String)
  | missingAccessToken
  | missingRequestedScopes (missing : List (List Char))
  deriving DecidableEq

structure OAuthRefreshConfig where
  refreshToken : List Char
  scopes : List (List Char)
  refreshRequestScopes : List (List Char)
  scopes_ne : scopes ≠ []
  refreshToken_ne : secretIsEmpty refreshToken = false

def OAuthRefreshConfig.expectedResponseScopes (config : OAuthRefreshConfig) : List (List Char) :=
  if config.refreshRequestScopes.isEmpty then config.scopes else config.refreshRequestScopes

structure RefreshRequest where
  refreshToken : List Char
  scopes : List (List Char)
  deriving DecidableEq

/-- A successful answer of the token endpoint, as the OAuth library reads it. -/
structure TokenResponse where
  accessToken : List Char
  refreshToken : Option (List Char)
  expiresIn : Option ℕ
  scopes : Option (List (List Char))
  tokenType : List Char
  refreshTokenExpiresIn : Option ℕ
  deriving DecidableEq

structure OAuthTokenSet where
  accessToken : Option (List Char)
  refreshToken : Option (List Char)
  expiresIn : Option ℕ
  scope : Option (List Char)
  tokenType : Option (List Char)
  refreshTokenExpiresIn : Option ℕ
  deriving DecidableEq

structure ReplacementRefreshToken where
  refreshToken : List Char
  scopes : List (List Char)
  tokenType : Option (List Char)
  refreshTokenExpiresAtUnixSeconds : Option ℕ
  deriving DecidableEq

structure CachedAccessToken where
  value : List Char
  refreshAfter : ℕ
  deriving DecidableEq

structure RefreshTokenProvider where
  currentRefreshToken : List Char
  replacementRefreshToken : Option ReplacementRefreshToken
  cachedAccessToken : Option CachedAccessToken
  deriving DecidableEq

def nonEmptySecret (value : Option (List Char)) : Option (List Char) :=
  value.filter fun v => !(trim v).isEmpty

def oauth2TokenResponseIntoTokenSet (response : TokenResponse) : OAuthTokenSet where
  accessToken := nonEmptySecret (some response.accessToken)
  refreshToken := response.refreshToken.bind fun token => nonEmptySecret (some token)
  expiresIn := response.expiresIn
  scope := response.scopes.map (List.intercalate [' '])
  tokenType := some response.tokenType
  refreshTokenExpiresIn := response.refreshTokenExpiresIn

def grantedScopesFromTokenSet (requested : List (List Char)) :
    Option (List Char) → Except UpstreamOAuthError (List (List Char))
  | none => .ok requested
  | some grantedScope =>
    let granted := splitWhitespace grantedScope
    let missing := requested.filter fun scope => !granted.elem scope
    if missing.isEmpty then .ok granted else .error (.missingRequestedScopes missing)

/-- `unixNow` is missing if the clock stands before the epoch. -/
def refreshExpirationTimestamp (unixNow : Option ℕ) (expiresIn : ℕ) : Option ℕ :=
  unixNow.bind fun now => if now + expiresIn < 2 ^ 64 then some (now + expiresIn) else none

/-- What `access_token` takes from a token set: the access token, and the replacement to store. -/
def readTokenSet (config : OAuthRefreshConfig) (unixNow : Option ℕ) (tokenSet : OAuthTokenSet) :
    Except UpstreamOAuthError (List Char × Option ReplacementRefreshToken) :=
  match grantedScopesFromTokenSet config.expectedResponseScopes tokenSet.scope with
  | .error e => .error e
  | .ok grantedScopes =>
    match tokenSet.accessToken.filter fun token => !secretIsEmpty token with
    | none => .error .missingAccessToken
    | some accessToken =>
      .ok (accessToken, (tokenSet.refreshToken.filter fun token => !secretIsEmpty token).map fun replacement =>
        { refreshToken := replacement
          scopes := grantedScopes
          tokenType := tokenSet.tokenType
          refreshTokenExpiresAtUnixSeconds :=
            tokenSet.refreshTokenExpiresIn.bind (refreshExpirationTimestamp unixNow) })

def readResponse (config : OAuthRefreshConfig) (unixNow : Option ℕ) (response : TokenResponse) :
    Except UpstreamOAuthError (List Char × Option ReplacementRefreshToken) :=
  readTokenSet config unixNow (oauth2TokenResponseIntoTokenSet response)

def accessTokenRefreshSkew : ℕ := 60

/-- From when on a cached token is refreshed. -/
def refreshAfter (horizon now : ℕ) (expiresIn : Option ℕ) : ℕ :=
  ((expiresIn.bind fun expires =>
      if accessTokenRefreshSkew ≤ expires then some ((expires - accessTokenRefreshSkew) * 1000000000) else none).bind
    (Word.addDuration horizon now)).getD now

namespace RefreshTokenProvider

def withTimeout (config : OAuthRefreshConfig) : RefreshTokenProvider := ⟨config.refreshToken, none, none⟩

def hasFreshToken (provider : RefreshTokenProvider) (now : ℕ) : Bool :=
  provider.cachedAccessToken.any fun cached => now < cached.refreshAfter

end RefreshTokenProvider

/-! ### Runs -/

/-- Where the call that holds the lock of the cache stands. -/
inductive Refreshing
  | locked
  | sent (request : RefreshRequest)
  | storing (replacement : ReplacementRefreshToken) (accessToken : List Char) (expiresIn : Option ℕ)
  | caching (accessToken : List Char) (expiresIn : Option ℕ)
  deriving DecidableEq

structure RotationRun where
  provider : RefreshTokenProvider
  refreshing : Option Refreshing
  live : List Char
  outstanding : Option (List Char)
  deriving DecidableEq

/-- A call that finds a fresh token before it takes the lock changes nothing, and neither does
`replacement_refresh_token`: they are no events. -/
inductive RotationEvent (Body : Type)
  | lock (now : ℕ)
  | send
  | refuse (error : UpstreamOAuthError)
  | answer (unixNow : Option ℕ) (body : Body)
  | store
  | cache (now : ℕ)
  | take
  deriving DecidableEq

/-- The replacement that a response names: one that is not blank. -/
def TokenResponse.issued (response : TokenResponse) : Option (List Char) :=
  response.refreshToken.filter fun token => !secretIsEmpty token

/-- The token endpoint and the library that reads its answers.  The endpoint issues a replacement with
a body whether or not the library can read the body; if it can, it reads the replacement. -/
structure TokenEndpoint (Body : Type) where
  parse : Body → Except UpstreamOAuthError TokenResponse
  issued : Body → Option (List Char)
  issued_of_parse : ∀ {body response}, parse body = .ok response → issued body = response.issued

variable {Body : Type}

namespace RotationRun

def issue (run : RotationRun) : Option (List Char) → RotationRun
  | none => run
  | some token => { run with live := token, outstanding := some token }

def receive (config : OAuthRefreshConfig) (run : RotationRun) (unixNow : Option ℕ) :
    Except UpstreamOAuthError TokenResponse → RotationRun
  | .error _ => { run with refreshing := none }
  | .ok response =>
    match readResponse config unixNow response with
    | .error _ => { run with refreshing := none }
    | .ok (accessToken, none) => { run with refreshing := some (.caching accessToken response.expiresIn) }
    | .ok (accessToken, some replacement) =>
      { run with refreshing := some (.storing replacement accessToken response.expiresIn) }

def start (config : OAuthRefreshConfig) : RotationRun :=
  ⟨.withTimeout config, none, config.refreshToken, none⟩

/-- The token of the replacement that `replacement_refresh_token` delivers. -/
def delivered (run : RotationRun) : Option (List Char) :=
  run.provider.replacementRefreshToken.map ReplacementRefreshToken.refreshToken

def isStoring (run : RotationRun) : Bool :=
  match run.refreshing with
  | some (.storing _ _ _) => true
  | _ => false

def sentRequest (run : RotationRun) : Option RefreshRequest :=
  match run.refreshing with
  | some (.sent request) => some request
  | _ => none

end RotationRun

/-- The provider with a token endpoint that answers the token it accepts only. -/
def rotation (config : OAuthRefreshConfig) (endpoint : TokenEndpoint Body) (horizon : ℕ) :
    System RotationRun (RotationEvent Body) where
  step run event :=
    match event, run.refreshing with
    | .lock now, none =>
      if run.provider.hasFreshToken now then some run else some { run with refreshing := some .locked }
    | .send, some .locked =>
      some { run with
        refreshing := some (.sent ⟨run.provider.currentRefreshToken, config.refreshRequestScopes⟩) }
    | .refuse _, some (.sent _) => some { run with refreshing := none }
    | .answer unixNow body, some (.sent request) =>
      if request.refreshToken = run.live then
        some ((run.issue (endpoint.issued body)).receive config unixNow (endpoint.parse body))
      else none
    | .store, some (.storing replacement accessToken expiresIn) =>
      some { run with
        provider := { run.provider with
          currentRefreshToken := replacement.refreshToken
          replacementRefreshToken := some replacement }
        refreshing := some (.caching accessToken expiresIn) }
    | .cache now, some (.caching accessToken expiresIn) =>
      some { run with
        provider := { run.provider with
          cachedAccessToken := some ⟨accessToken, refreshAfter horizon now expiresIn⟩ }
        refreshing := none }
    | .take, _ =>
      some { run with
        provider := { run.provider with replacementRefreshToken := none }
        outstanding := if run.outstanding = run.delivered then none else run.outstanding }
    | _, _ => none

/-- A request carries the token that the endpoint accepts, and an outstanding replacement can be
delivered, unless the call that received it is just about to store it. -/
def LiveKept (run : RotationRun) : Prop :=
  (∀ request ∈ run.sentRequest, request.refreshToken = run.live) ∧
    (run.isStoring = false → ∀ token ∈ run.outstanding, run.delivered = some token)

instance (run : RotationRun) : Decidable (LiveKept run) :=
  inferInstanceAs (Decidable (_ ∧ (_ → ∀ token ∈ run.outstanding, _)))

/-! ### What a call takes from an answer -/

/-- A response has an access token that is not blank, and the scopes that it names, if it names any,
cover the ones that are expected. -/
def Usable (config : OAuthRefreshConfig) (response : TokenResponse) : Prop :=
  secretIsEmpty response.accessToken = false ∧
    ∀ scopes ∈ response.scopes, ∀ scope ∈ config.expectedResponseScopes,
      scope ∈ splitWhitespace (List.intercalate [' '] scopes)

theorem grantedScopes_cases (requested : List (List Char)) (grantedScope : Option (List Char)) :
    (∀ granted ∈ grantedScope, ∀ scope ∈ requested, scope ∈ splitWhitespace granted) ∧
        (∃ scopes, grantedScopesFromTokenSet requested grantedScope = .ok scopes) ∨
      (¬∀ granted ∈ grantedScope, ∀ scope ∈ requested, scope ∈ splitWhitespace granted) ∧
        ∃ e, grantedScopesFromTokenSet requested grantedScope = .error e := by
  cases grantedScope with
  | none => exact .inl ⟨by simp, requested, rfl⟩
  | some granted =>
    have hmissing : (requested.filter fun scope => !(splitWhitespace granted).elem scope).isEmpty = true ↔
        ∀ scope ∈ requested, scope ∈ splitWhitespace granted := by
      simp [List.filter_eq_nil_iff]
    unfold grantedScopesFromTokenSet
    dsimp only
    by_cases h : ∀ scope ∈ requested, scope ∈ splitWhitespace granted
    · rw [if_pos (hmissing.mpr h)]
      exact .inl ⟨by simpa using h, _, rfl⟩
    · rw [if_neg fun hempty => h (hmissing.mp hempty)]
      exact .inr ⟨by simpa using h, _, rfl⟩

theorem nonEmptySecret_filter (value : Option (List Char)) :
    (nonEmptySecret value).filter (fun token => !secretIsEmpty token) =
      value.filter fun token => !secretIsEmpty token := by
  simp [nonEmptySecret, secretIsEmpty]

theorem issued_eq (response : TokenResponse) :
    (response.refreshToken.bind fun token => nonEmptySecret (some token)).filter
        (fun token => !secretIsEmpty token) = response.issued := by
  unfold TokenResponse.issued
  cases response.refreshToken with
  | none => rfl
  | some token => exact nonEmptySecret_filter (some token)

/-- **A call takes all of a response or nothing**: if it can use the response, it will store the
replacement; if not, it drops the replacement with the rest. -/
theorem readResponse_cases (config : OAuthRefreshConfig) (unixNow : Option ℕ) (response : TokenResponse) :
    Usable config response ∧
        (∃ accessToken replacement, readResponse config unixNow response = .ok (accessToken, replacement) ∧
          replacement.map ReplacementRefreshToken.refreshToken = response.issued) ∨
      ¬Usable config response ∧ ∃ e, readResponse config unixNow response = .error e := by
  unfold Usable readResponse oauth2TokenResponseIntoTokenSet readTokenSet
  dsimp only
  obtain ⟨hcover, scopes, hscopes⟩ | ⟨hcover, e, he⟩ := grantedScopes_cases config.expectedResponseScopes
    (response.scopes.map (List.intercalate [' ']))
  · rw [hscopes, nonEmptySecret_filter]
    cases hblank : secretIsEmpty response.accessToken with
    | false =>
      have hkept : (some response.accessToken).filter (fun token => !secretIsEmpty token) =
        some response.accessToken := by simp [hblank]
      rw [hkept]
      refine .inl ⟨⟨rfl, by simpa using hcover⟩, response.accessToken, _, rfl, ?_⟩
      rw [Option.map_map, issued_eq]
      exact congrFun Option.map_id response.issued
    | true =>
      have hdropped : (some response.accessToken).filter (fun token => !secretIsEmpty token) = none := by
        simp [hblank]
      rw [hdropped]
      exact .inr ⟨by simp, _, rfl⟩
  · rw [he]
    exact .inr ⟨fun h => hcover (by simpa using h.2), e, rfl⟩

/-! ### Steps -/

section Steps

variable {config : OAuthRefreshConfig} {endpoint : TokenEndpoint Body} {horizon : ℕ} {run run' : RotationRun}
  {event : RotationEvent Body}

/-- The library can read the body, and a call can use what it reads. -/
def TokenEndpoint.Usable (endpoint : TokenEndpoint Body) (config : OAuthRefreshConfig) (body : Body) : Prop :=
  ∃ response, endpoint.parse body = .ok response ∧ Auth.Usable config response

/-- What a step does. -/
inductive Rotates (config : OAuthRefreshConfig) (endpoint : TokenEndpoint Body) (horizon : ℕ) (run : RotationRun) :
    RotationEvent Body → RotationRun → Prop
  | fresh (now : ℕ) : Rotates config endpoint horizon run (.lock now) run
  | locked (now : ℕ) : run.refreshing = none →
      Rotates config endpoint horizon run (.lock now) { run with refreshing := some .locked }
  | sent : run.refreshing = some .locked →
      Rotates config endpoint horizon run .send { run with
        refreshing := some (.sent ⟨run.provider.currentRefreshToken, config.refreshRequestScopes⟩) }
  | refused (error : UpstreamOAuthError) (request : RefreshRequest) : run.refreshing = some (.sent request) →
      Rotates config endpoint horizon run (.refuse error) { run with refreshing := none }
  | dropped (unixNow : Option ℕ) (body : Body) (request : RefreshRequest) :
      run.refreshing = some (.sent request) → ¬endpoint.Usable config body →
      Rotates config endpoint horizon run (.answer unixNow body)
        { run.issue (endpoint.issued body) with refreshing := none }
  | renewed (unixNow : Option ℕ) (body : Body) (request : RefreshRequest) (accessToken : List Char)
      (expiresIn : Option ℕ) : run.refreshing = some (.sent request) → endpoint.Usable config body →
      Rotates config endpoint horizon run (.answer unixNow body) { run with
        refreshing := some (.caching accessToken expiresIn) }
  | replaced (unixNow : Option ℕ) (body : Body) (request : RefreshRequest) (accessToken : List Char)
      (expiresIn : Option ℕ) (replacement : ReplacementRefreshToken) :
      run.refreshing = some (.sent request) → endpoint.Usable config body →
      Rotates config endpoint horizon run (.answer unixNow body) { run with
        refreshing := some (.storing replacement accessToken expiresIn)
        live := replacement.refreshToken
        outstanding := some replacement.refreshToken }
  | stored (replacement : ReplacementRefreshToken) (accessToken : List Char) (expiresIn : Option ℕ) :
      run.refreshing = some (.storing replacement accessToken expiresIn) →
      Rotates config endpoint horizon run .store { run with
        provider := { run.provider with
          currentRefreshToken := replacement.refreshToken
          replacementRefreshToken := some replacement }
        refreshing := some (.caching accessToken expiresIn) }
  | cached (now : ℕ) (accessToken : List Char) (expiresIn : Option ℕ) :
      run.refreshing = some (.caching accessToken expiresIn) →
      Rotates config endpoint horizon run (.cache now) { run with
        provider := { run.provider with
          cachedAccessToken := some ⟨accessToken, refreshAfter horizon now expiresIn⟩ }
        refreshing := none }
  | taken : Rotates config endpoint horizon run .take { run with
      provider := { run.provider with replacementRefreshToken := none }
      outstanding := if run.outstanding = run.delivered then none else run.outstanding }

theorem rotates_of_answer {unixNow : Option ℕ} {body : Body} {request : RefreshRequest}
    (hsent : run.refreshing = some (.sent request)) : Rotates config endpoint horizon run (.answer unixNow body)
      ((run.issue (endpoint.issued body)).receive config unixNow (endpoint.parse body)) := by
  cases hparse : endpoint.parse body with
  | error e =>
    refine .dropped unixNow body request hsent ?_
    rintro ⟨response, hok, -⟩
    cases hparse.symm.trans hok
  | ok response =>
    unfold RotationRun.receive
    dsimp only
    obtain ⟨husable, accessToken, replacement, hread, hissued⟩ | ⟨hunusable, e, hread⟩ :=
      readResponse_cases config unixNow response
    · rw [hread, endpoint.issued_of_parse hparse, ← hissued]
      cases replacement with
      | none => exact .renewed unixNow body request accessToken _ hsent ⟨response, hparse, husable⟩
      | some replacement =>
        exact .replaced unixNow body request accessToken _ replacement hsent ⟨response, hparse, husable⟩
    · rw [hread]
      refine .dropped unixNow body request hsent ?_
      rintro ⟨response', hok, husable⟩
      obtain rfl := Except.ok.inj (hparse.symm.trans hok)
      exact hunusable husable

theorem rotates_of_step (h : (rotation config endpoint horizon).step run event = some run') :
    Rotates config endpoint horizon run event run' := by
  unfold rotation at h
  dsimp only at h
  split at h
  case h_1 now hnone =>
    split_ifs at h
    · cases h; exact .fresh now
    · cases h; exact .locked now hnone
  case h_2 hlocked => cases h; exact .sent hlocked
  case h_3 error request hsent => cases h; exact .refused error request hsent
  case h_4 unixNow body request hsent =>
    split_ifs at h
    cases h
    exact rotates_of_answer hsent
  case h_5 replacement accessToken expiresIn hstoring =>
    cases h
    exact .stored replacement accessToken expiresIn hstoring
  case h_6 now accessToken expiresIn hcaching =>
    cases h
    exact .cached now accessToken expiresIn hcaching
  case h_7 => cases h; exact .taken
  case h_8 => cases h

/-- What every run keeps: a replacement that no call stored is still outstanding. -/
structure Rotating (run : RotationRun) : Prop where
  outstanding_live : ∀ token ∈ run.outstanding, token = run.live
  delivered_current : ∀ token ∈ run.delivered, token = run.provider.currentRefreshToken
  current_or_outstanding : run.isStoring = false →
    run.provider.currentRefreshToken = run.live ∨ run.outstanding = some run.live
  storing_live : ∀ replacement accessToken expiresIn,
    run.refreshing = some (.storing replacement accessToken expiresIn) → replacement.refreshToken = run.live

theorem rotating_start (config : OAuthRefreshConfig) : Rotating (.start config) where
  outstanding_live := by simp [RotationRun.start]
  delivered_current := by simp [RotationRun.delivered, RotationRun.start, RefreshTokenProvider.withTimeout]
  current_or_outstanding _ := .inl rfl
  storing_live _ _ _ h := by simp [RotationRun.start] at h

theorem Rotating.issue (h : Rotating run) (issued : Option (List Char)) (hstoring : run.isStoring = false) :
    Rotating { run.issue issued with refreshing := none } := by
  unfold RotationRun.issue
  cases issued with
  | none => exact ⟨h.outstanding_live, h.delivered_current, fun _ => h.current_or_outstanding hstoring, by simp⟩
  | some token => exact ⟨by simp, h.delivered_current, fun _ => .inr rfl, by simp⟩

theorem isStoring_eq_false {phase : Refreshing} (h : run.refreshing = some phase)
    (hphase : ∀ replacement accessToken expiresIn, phase ≠ .storing replacement accessToken expiresIn) :
    run.isStoring = false := by
  unfold RotationRun.isStoring
  rw [h]
  cases phase with
  | storing replacement accessToken expiresIn => exact absurd rfl (hphase replacement accessToken expiresIn)
  | _ => rfl

theorem rotating_step (hstep : Rotates config endpoint horizon run event run') (h : Rotating run) : Rotating run' := by
  cases hstep with
  | fresh now => exact h
  | locked now hnone =>
    have hstoring : run.isStoring = false := by simp [RotationRun.isStoring, hnone]
    exact ⟨h.outstanding_live, h.delivered_current, fun _ => h.current_or_outstanding hstoring, by simp⟩
  | sent hlocked =>
    have hstoring := isStoring_eq_false hlocked (by simp)
    exact ⟨h.outstanding_live, h.delivered_current, fun _ => h.current_or_outstanding hstoring, by simp⟩
  | refused error request hsent | renewed unixNow body request accessToken expiresIn hsent _ =>
    have hstoring := isStoring_eq_false hsent (by simp)
    exact ⟨h.outstanding_live, h.delivered_current, fun _ => h.current_or_outstanding hstoring, by simp⟩
  | dropped unixNow body request hsent _ => exact h.issue _ (isStoring_eq_false hsent (by simp))
  | replaced unixNow body request accessToken expiresIn replacement hsent _ =>
    exact ⟨by simp, h.delivered_current, fun _ => .inr rfl, by simp +contextual⟩
  | stored replacement accessToken expiresIn hstoring =>
    have hlive := h.storing_live _ _ _ hstoring
    exact ⟨h.outstanding_live, by simp [RotationRun.delivered], fun _ => .inl hlive, by simp⟩
  | cached now accessToken expiresIn hcaching =>
    have hstoring := isStoring_eq_false hcaching (by simp)
    exact ⟨h.outstanding_live, h.delivered_current, fun _ => h.current_or_outstanding hstoring, by simp⟩
  | taken =>
    refine ⟨?_, by simp [RotationRun.delivered], ?_, h.storing_live⟩
    · intro token htoken
      split_ifs at htoken
      · cases htoken
      · exact h.outstanding_live token htoken
    · intro hstoring
      obtain hcurrent | hout := h.current_or_outstanding hstoring
      · exact .inl hcurrent
      · split_ifs with hdelivered
        · exact .inl (h.delivered_current _ (hdelivered ▸ hout)).symm
        · exact .inr hout

theorem Rotating.current_eq_live (h : Rotating run) (hkept : LiveKept run) (hstoring : run.isStoring = false) :
    run.provider.currentRefreshToken = run.live := by
  obtain hcurrent | hout := h.current_or_outstanding hstoring
  · exact hcurrent
  · exact (h.delivered_current _ (hkept.2 hstoring _ hout)).symm

/-- A step loses no replacement: if its answer issues one, the library can read the answer and a call
can use it, or the provider holds that very replacement already. -/
def KeepsReplacement (config : OAuthRefreshConfig) (endpoint : TokenEndpoint Body) (run : RotationRun) :
    RotationEvent Body → Prop
  | .answer _ body => ∀ token ∈ endpoint.issued body, endpoint.Usable config body ∨ run.delivered = some token
  | _ => True

theorem liveKept_issue (hkept : LiveKept run) (issued : Option (List Char)) (hstoring : run.isStoring = false) :
    LiveKept { run.issue issued with refreshing := none } ↔ ∀ token ∈ issued, run.delivered = some token := by
  unfold RotationRun.issue
  cases issued with
  | none => exact iff_of_true ⟨by simp [RotationRun.sentRequest], fun _ => hkept.2 hstoring⟩ (by simp)
  | some token =>
    constructor
    · intro h
      exact h.2 rfl
    · intro h
      exact ⟨by simp [RotationRun.sentRequest], fun _ => h⟩

theorem liveKept_step_iff (hstep : Rotates config endpoint horizon run event run') (h : Rotating run)
    (hkept : LiveKept run) : LiveKept run' ↔ KeepsReplacement config endpoint run event := by
  cases hstep with
  | fresh now => exact iff_of_true hkept trivial
  | locked now hnone =>
    have hstoring : run.isStoring = false := by simp [RotationRun.isStoring, hnone]
    exact iff_of_true ⟨by simp [RotationRun.sentRequest], fun _ => hkept.2 hstoring⟩ trivial
  | sent hlocked =>
    have hstoring := isStoring_eq_false hlocked (by simp)
    refine iff_of_true ⟨?_, fun _ => hkept.2 hstoring⟩ trivial
    intro request hrequest
    obtain rfl := Option.some.inj hrequest
    exact h.current_eq_live hkept hstoring
  | refused error request hsent | cached now accessToken expiresIn hsent =>
    have hstoring := isStoring_eq_false hsent (by simp)
    exact iff_of_true ⟨by simp [RotationRun.sentRequest], fun _ => hkept.2 hstoring⟩ trivial
  | dropped unixNow body request hsent hunusable =>
    rw [liveKept_issue hkept _ (isStoring_eq_false hsent (by simp))]
    exact forall₂_congr fun token _ => (or_iff_right hunusable).symm
  | renewed unixNow body request accessToken expiresIn hsent husable =>
    have hstoring := isStoring_eq_false hsent (by simp)
    exact iff_of_true ⟨by simp [RotationRun.sentRequest], fun _ => hkept.2 hstoring⟩ fun _ _ => .inl husable
  | replaced unixNow body request accessToken expiresIn replacement hsent husable =>
    exact iff_of_true ⟨by simp [RotationRun.sentRequest], by simp [RotationRun.isStoring]⟩
      fun _ _ => .inl husable
  | stored replacement accessToken expiresIn hstoring =>
    refine iff_of_true ⟨by simp [RotationRun.sentRequest], fun _ token htoken => ?_⟩ trivial
    rw [h.outstanding_live token htoken, ← h.storing_live _ _ _ hstoring]
    rfl
  | taken =>
    refine iff_of_true ⟨hkept.1, fun hstoring token htoken => ?_⟩ trivial
    split_ifs at htoken with hdelivered
    · cases htoken
    · exact absurd (htoken.trans (hkept.2 hstoring token htoken).symm) hdelivered

end Steps

/-- **Rotation keeps the live token exactly if no call has to reject an answer that issues a
replacement**, in every run: then every request carries the token that was issued last, and every
replacement can be delivered until it is taken or superseded. -/
theorem liveKept_iff (config : OAuthRefreshConfig) (endpoint : TokenEndpoint Body) (horizon : ℕ)
    (events : List (RotationEvent Body)) :
    (∀ run ∈ (rotation config endpoint horizon).trace (.start config) events, LiveKept run) ↔
      ∀ x ∈ (rotation config endpoint horizon).steps (.start config) events,
        KeepsReplacement config endpoint x.1 x.2 := by
  refine System.forall_trace_iff (J := Rotating) (fun hstep => rotating_step (rotates_of_step hstep))
    (fun hstep => liveKept_step_iff (rotates_of_step hstep)) (rotating_start config) ?_
  exact ⟨by simp [RotationRun.sentRequest, RotationRun.start], by simp [RotationRun.start]⟩

/-- A grant for the scopes `a` and `b`. -/
def grantConfig : OAuthRefreshConfig where
  refreshToken := ['1']
  scopes := [['a'], ['b']]
  refreshRequestScopes := []
  scopes_ne := by simp
  refreshToken_ne := by decide

/-- The library can read every body. -/
def plainEndpoint : TokenEndpoint TokenResponse := ⟨.ok, TokenResponse.issued, fun h => by cases h; rfl⟩

/-- The endpoint answers with the scope `a` alone and replaces the refresh token `1` by `2`.  The call
fails, and the next one sends `1` again. -/
theorem replacement_lost : ∃ run, (rotation grantConfig plainEndpoint 1000).Reaches (.start grantConfig) run ∧
      (run.live = ['2'] ∧ run.outstanding = some ['2'] ∧ run.delivered = none ∧
        run.sentRequest = some ⟨['1'], []⟩) ∧ ¬LiveKept run := by
  exact System.exists_reaches_of_run _ _ [.lock 0, .send,
    .answer (some 0) ⟨['t'], some ['2'], some 3600, some [['a']], "Bearer".toList, none⟩, .lock 1,
    .send] (by decide)

end McpToolkit.Auth
