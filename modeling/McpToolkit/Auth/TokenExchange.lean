import McpToolkit.Lib.Form

/-!
# McpToolkit.Auth.TokenExchange — the form of a token exchange

`Rfc8693TokenExchangeRequest`, its configuration and the body that `send_exchange` builds, of
`outbound_dpop.rs`.  Texts are lists of characters.  Which resources are absolute URIs without
fragment and user information is for the URL library to say (`isResource`).

The body is built byte by byte under a bound on its length.  It is the form of the fields, written
exactly, or the form is longer than the bound (`exchangeBody_exact`).
-/

namespace McpToolkit.Auth

open List
open Lib
open Lib.Text (isControl trim utf8 utf8Length)

def maxCredentialBytes : ℕ := 64 * 1024
def maxFieldBytes : ℕ := 2048
def maxRequestFormBytes : ℕ := 2 * 1024 * 1024
def maxRequestItems : ℕ := 64

def rfc8693GrantType : List Char := "urn:ietf:params:oauth:grant-type:token-exchange".toList
def rfc8693AccessTokenType : List Char := "urn:ietf:params:oauth:token-type:access_token".toList

inductive OutboundDpopError
  | invalidField (field : String)
  deriving DecidableEq

/-! ### Validated requests -/

def isRequiredField (value : List Char) : Bool :=
  !(trim value).isEmpty && utf8Length value ≤ maxFieldBytes && !value.any isControl

def validCredential (value : List Char) : Bool :=
  !value.isEmpty && utf8Length value ≤ maxCredentialBytes && trim value == value && !value.any isControl

def validScopeToken (value : List Char) : Bool :=
  !value.isEmpty && utf8Length value ≤ maxFieldBytes &&
    (utf8 value).all fun byte => byte == 33 || (35 ≤ byte && byte ≤ 91) || (93 ≤ byte && byte ≤ 126)

structure BearerSubjectToken where
  secret : List Char
  valid : validCredential secret = true

def BearerSubjectToken.new (subjectToken : List Char) : Except OutboundDpopError BearerSubjectToken :=
  if h : validCredential subjectToken = true then .ok ⟨subjectToken, h⟩
  else .error (.invalidField "subject_token")

structure Rfc8693TokenExchangeRequest (isResource : List Char → Bool) where
  subjectToken : BearerSubjectToken
  resources : List (List Char)
  audiences : List (List Char)
  scopes : List (List Char)
  resources_valid : resources.length ≤ maxRequestItems ∧
    ∀ resource ∈ resources, isRequiredField resource = true ∧ isResource resource = true
  audiences_valid : audiences.length ≤ maxRequestItems ∧
    ∀ audience ∈ audiences, isRequiredField audience = true
  scopes_valid : scopes.length ≤ maxRequestItems ∧ (∀ scope ∈ scopes, validScopeToken scope = true) ∧
    scopes.Nodup

namespace Rfc8693TokenExchangeRequest

variable {isResource : List Char → Bool}

def new (subjectToken : BearerSubjectToken) : Rfc8693TokenExchangeRequest isResource where
  subjectToken := subjectToken
  resources := []
  audiences := []
  scopes := []
  resources_valid := ⟨Nat.zero_le _, fun _ h => absurd h not_mem_nil⟩
  audiences_valid := ⟨Nat.zero_le _, fun _ h => absurd h not_mem_nil⟩
  scopes_valid := ⟨Nat.zero_le _, fun _ h => absurd h not_mem_nil, nodup_nil⟩

theorem forall_mem_concat {α : Type} {p : α → Prop} {l : List α} {x : α} (h : ∀ y ∈ l, p y) (hx : p x) :
    ∀ y ∈ l ++ [x], p y :=
  forall_mem_append.mpr ⟨h, forall_mem_singleton.mpr hx⟩

def withResource (request : Rfc8693TokenExchangeRequest isResource) (resource : List Char) :
    Except OutboundDpopError (Rfc8693TokenExchangeRequest isResource) :=
  if hroom : request.resources.length < maxRequestItems then
    if h : isRequiredField resource = true ∧ isResource resource = true then
      .ok { request with
        resources := request.resources ++ [resource]
        resources_valid := ⟨by rw [length_append]; exact hroom, forall_mem_concat request.resources_valid.2 h⟩ }
    else .error (.invalidField "resource")
  else .error (.invalidField "resource")

def withAudience (request : Rfc8693TokenExchangeRequest isResource) (audience : List Char) :
    Except OutboundDpopError (Rfc8693TokenExchangeRequest isResource) :=
  if hroom : request.audiences.length < maxRequestItems then
    if h : isRequiredField audience = true then
      .ok { request with
        audiences := request.audiences ++ [audience]
        audiences_valid := ⟨by rw [length_append]; exact hroom, forall_mem_concat request.audiences_valid.2 h⟩ }
    else .error (.invalidField "audience")
  else .error (.invalidField "audience")

/-- The loop of `with_scopes` stops at the first scope that is not valid or was there before. -/
def withScopes (request : Rfc8693TokenExchangeRequest isResource) (scopes : List (List Char)) :
    Except OutboundDpopError (Rfc8693TokenExchangeRequest isResource) :=
  if h : scopes.length ≤ maxRequestItems ∧ (∀ scope ∈ scopes, validScopeToken scope = true) ∧ scopes.Nodup then
    .ok { request with scopes := scopes, scopes_valid := h }
  else .error (.invalidField "scopes")

end Rfc8693TokenExchangeRequest

inductive OAuthClientAuthMethod
  | requestBody
  | basic
  deriving DecidableEq

structure DpopTokenExchangeConfig where
  clientId : List Char
  clientSecret : Option (List Char)
  clientAuthMethod : OAuthClientAuthMethod
  clientId_valid : isRequiredField clientId = true
  clientSecret_valid : ∀ secret ∈ clientSecret, validCredential secret = true

/-! ### The body -/

def appendFormBytes (body bytes : List UInt8) : Except OutboundDpopError (List UInt8) :=
  if maxRequestFormBytes - body.length < bytes.length then .error (.invalidField "request")
  else .ok (body ++ bytes)

def appendFormComponent (body : List UInt8) (value : List Char) : Except OutboundDpopError (List UInt8) :=
  (utf8 value).foldlM
    (fun body byte =>
      if Form.isUnreserved byte then appendFormBytes body [byte]
      else if byte = Form.space then appendFormBytes body [Form.plus]
      else appendFormBytes body [Percent.percent, Form.upperDigit (byte >>> 4), Form.upperDigit (byte &&& 15)])
    body

def appendFormField (body : List UInt8) (name value : List Char) : Except OutboundDpopError (List UInt8) := do
  let body ← if body.isEmpty then pure body else appendFormBytes body [Form.ampersand]
  let body ← appendFormComponent body name
  let body ← appendFormBytes body [Form.equals]
  appendFormComponent body value

section Request

variable {isResource : List Char → Bool}

def Rfc8693TokenExchangeRequest.appendForm (request : Rfc8693TokenExchangeRequest isResource)
    (body : List UInt8) : Except OutboundDpopError (List UInt8) := do
  let body ← appendFormField body "grant_type".toList rfc8693GrantType
  let body ← appendFormField body "subject_token".toList request.subjectToken.secret
  let body ← appendFormField body "subject_token_type".toList rfc8693AccessTokenType
  let body ← appendFormField body "requested_token_type".toList rfc8693AccessTokenType
  let body ← request.resources.foldlM (fun body => appendFormField body "resource".toList) body
  let body ← request.audiences.foldlM (fun body => appendFormField body "audience".toList) body
  if request.scopes.isEmpty then return body
  else appendFormField body "scope".toList (List.intercalate [' '] request.scopes)

/-- The part of `send_exchange` that builds the body. -/
def exchangeBody (request : Rfc8693TokenExchangeRequest isResource) (config : DpopTokenExchangeConfig) :
    Except OutboundDpopError (List UInt8) := do
  let body ← request.appendForm []
  match config.clientAuthMethod with
  | .requestBody =>
    let body ← appendFormField body "client_id".toList config.clientId
    match config.clientSecret with
    | some secret => appendFormField body "client_secret".toList secret
    | none => return body
  | .basic => return body

/-! ### The fields -/

def Rfc8693TokenExchangeRequest.fields (request : Rfc8693TokenExchangeRequest isResource) :
    List (List Char × List Char) :=
  [("grant_type".toList, rfc8693GrantType), ("subject_token".toList, request.subjectToken.secret),
      ("subject_token_type".toList, rfc8693AccessTokenType),
      ("requested_token_type".toList, rfc8693AccessTokenType)] ++
    request.resources.map (Prod.mk "resource".toList) ++ request.audiences.map (Prod.mk "audience".toList) ++
    if request.scopes.isEmpty then [] else [("scope".toList, List.intercalate [' '] request.scopes)]

/-- HTTP Basic authentication adds no field. -/
def DpopTokenExchangeConfig.fields (config : DpopTokenExchangeConfig) : List (List Char × List Char) :=
  match config.clientAuthMethod with
  | .requestBody =>
    ("client_id".toList, config.clientId) :: config.clientSecret.toList.map (Prod.mk "client_secret".toList)
  | .basic => []

end Request

/-! ### Appending under the bound -/

theorem appendFormBytes_nil (body : List UInt8) : appendFormBytes body [] = .ok body := by
  rw [appendFormBytes, length_nil, if_neg (Nat.not_lt_zero _), append_nil]

theorem appendFormBytes_append (body bytes bytes' : List UInt8) :
    (appendFormBytes body bytes >>= fun body => appendFormBytes body bytes') =
      appendFormBytes body (bytes ++ bytes') := by
  unfold appendFormBytes
  by_cases h : maxRequestFormBytes - body.length < bytes.length
  · rw [if_pos h, if_pos (by rw [length_append]; omega)]
    rfl
  · rw [if_neg h]
    show (if maxRequestFormBytes - (body ++ bytes).length < bytes'.length then _ else _) = _
    by_cases h' : maxRequestFormBytes - (body ++ bytes).length < bytes'.length
    · rw [if_pos h', if_pos (by rw [length_append] at h' ⊢; omega)]
    · rw [if_neg h', if_neg (by rw [length_append] at h' ⊢; omega), append_assoc]

theorem appendFormComponent_eq (body : List UInt8) (value : List Char) :
    appendFormComponent body value = appendFormBytes body (Form.writeText value) := by
  unfold appendFormComponent Form.writeText
  induction utf8 value generalizing body with
  | nil => exact (appendFormBytes_nil body).symm
  | cons byte bytes ih =>
    rw [foldlM_cons, flatMap_cons, ← appendFormBytes_append]
    have hbyte : (if Form.isUnreserved byte then appendFormBytes body [byte]
        else if byte = Form.space then appendFormBytes body [Form.plus]
        else appendFormBytes body
          [Percent.percent, Form.upperDigit (byte >>> 4), Form.upperDigit (byte &&& 15)]) =
        appendFormBytes body (Form.writeByte byte) := by
      unfold Form.writeByte
      split_ifs <;> rfl
    rw [hbyte]
    exact bind_congr fun body => ih body

/-- What stands between a body and its next field. -/
def separator (body : List UInt8) : List UInt8 := if body.isEmpty then [] else [Form.ampersand]

theorem appendFormField_eq (body : List UInt8) (field : List Char × List Char) : appendFormField body field.1 field.2 =
      appendFormBytes body (separator body ++ Form.writeField field) := by
  unfold appendFormField separator
  simp only [appendFormComponent_eq, appendFormBytes_append]
  split_ifs <;> rfl

example : appendFormField (Text.ascii "a=b") "scope".toList "x y&ü".toList =
    .ok (Text.ascii "a=b&scope=x+y%26%C3%BC") := by decide

theorem separator_write (fields : List (List Char × List Char)) (field : List Char × List Char) :
    Form.write fields ++ (separator (Form.write fields) ++ Form.writeField field) = Form.write (fields ++ [field]) := by
  by_cases h : fields = []
  · rw [h, nil_append, Form.write_singleton]
    rfl
  · have hne : (Form.write fields).isEmpty = false := by
      rw [isEmpty_eq_false_iff]
      exact Form.write_ne_nil h
    rw [separator, hne, if_neg (by simp), Form.write_append h (cons_ne_nil _ _), Form.write_singleton,
      singleton_append]

theorem foldlM_appendFormField (done : List (List Char × List Char))
    (hdone : (Form.write done).length ≤ maxRequestFormBytes) (fields : List (List Char × List Char)) :
    fields.foldlM (fun body field => appendFormField body field.1 field.2) (Form.write done) =
      if maxRequestFormBytes < (Form.write (done ++ fields)).length then .error (.invalidField "request")
      else .ok (Form.write (done ++ fields)) := by
  induction fields generalizing done with
  | nil =>
    rw [append_nil, if_neg (not_lt.mpr hdone)]
    rfl
  | cons field fields ih =>
    have hgrow : done ++ field :: fields = (done ++ [field]) ++ fields := by rw [append_assoc]; rfl
    have hlength : (Form.write (done ++ [field])).length =
        (Form.write done).length + (separator (Form.write done) ++ Form.writeField field).length := by
      rw [← separator_write, length_append]
    rw [foldlM_cons, appendFormField_eq, appendFormBytes, separator_write, hgrow]
    by_cases hfull : maxRequestFormBytes < (Form.write (done ++ [field])).length
    · have hlonger := Form.length_write_le (done ++ [field]) fields
      rw [if_pos (by omega), if_pos (by omega)]
      rfl
    · rw [if_neg (by omega)]
      exact ih (done ++ [field]) (not_lt.mp hfull)

/-! ### The body of an exchange -/

section Request

variable {isResource : List Char → Bool}

theorem appendForm_eq (request : Rfc8693TokenExchangeRequest isResource) (body : List UInt8) : request.appendForm body =
      request.fields.foldlM (fun body field => appendFormField body field.1 field.2) body := by
  unfold Rfc8693TokenExchangeRequest.appendForm Rfc8693TokenExchangeRequest.fields
  simp only [foldlM_append, foldlM_map]
  split_ifs <;> simp

theorem exchangeBody_eq (request : Rfc8693TokenExchangeRequest isResource) (config : DpopTokenExchangeConfig) :
    exchangeBody request config =
      (request.fields ++ config.fields).foldlM (fun body field => appendFormField body field.1 field.2) [] := by
  unfold exchangeBody DpopTokenExchangeConfig.fields
  rw [foldlM_append, appendForm_eq]
  cases config.clientAuthMethod with
  | basic => rfl
  | requestBody =>
    cases config.clientSecret with
    | none => simp
    | some secret => simp

/-- **The form is exact.**  Either the body is built: then it is within the bound and reads, by the
rules of forms, as the fields of the exchange in their order.  Or the form of these fields is longer
than the bound. -/
theorem exchangeBody_exact (request : Rfc8693TokenExchangeRequest isResource) (config : DpopTokenExchangeConfig) :
    (∃ body, exchangeBody request config = .ok body ∧ body.length ≤ maxRequestFormBytes ∧
        Form.parse body = some (request.fields ++ config.fields)) ∨
      exchangeBody request config = .error (.invalidField "request") ∧
        maxRequestFormBytes < (Form.write (request.fields ++ config.fields)).length := by
  have hbody : exchangeBody request config = _ :=
    (exchangeBody_eq request config).trans
      (foldlM_appendFormField [] (Nat.zero_le _) (request.fields ++ config.fields))
  rw [nil_append] at hbody
  by_cases hlong : maxRequestFormBytes < (Form.write (request.fields ++ config.fields)).length
  · rw [if_pos hlong] at hbody
    exact .inr ⟨hbody, hlong⟩
  · rw [if_neg hlong] at hbody
    exact .inl ⟨_, hbody, not_lt.mp hlong, Form.parse_write _⟩

end Request

end McpToolkit.Auth
