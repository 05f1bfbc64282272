import McpToolkit.Lib.Json

/-!
# McpToolkit.Http.Webhook — prepared webhooks and what their signature covers

Events and callback challenges are serialised once to a JSON object; each attempt signs the
message id, the Unix time and these bytes, joined by dots. Identifiers may hold dots and digits
themselves, yet the content tells the three parts apart: no identifier byte and no digit is a brace,
so the body starts at the first one, and the time stands after the last dot before it.
-/

namespace McpToolkit.Http

open Lib.Decimal (decimal)
open Lib.Json
open Lib.Text

inductive WebhookPreparationError where
  | invalidIdentifier
  | invalidEvent
  | invalidTimestamp
  | bodyTooLarge
  | serializationFailed
  | invalidChallengeLifetime
  deriving DecidableEq

def maxEventBodyBytes : ℕ := 256 * 1024
def maxHeaderIdBytes : ℕ := 256
def encodedChallengeBytes : ℕ := 43

/-- The formats of the libraries used: floating-point numbers, RFC 3339 times, the Unix times that
are dates, and unpadded URL-safe base64. -/
structure WireFormats (φ τ : Type) where
  floats : FloatFormat φ
  rfc3339 : τ → Option (List Char)
  isUnixTimestamp : ℤ → Bool
  urlSafeNoPad : List UInt8 → List Char

def isIdentifierByte (b : UInt8) : Bool :=
  (48 ≤ b && b ≤ 57) || (65 ≤ b && b ≤ 90) || (97 ≤ b && b ≤ 122) || (ascii "-_.:").contains b

def validateIdentifier (value : List Char) : Except WebhookPreparationError Unit :=
  if value.isEmpty || maxHeaderIdBytes < (utf8 value).length || !(utf8 value).all isIdentifierByte then
    .error .invalidIdentifier
  else .ok ()

structure EventEnvelope (φ τ : Type) where
  eventId : List Char
  name : List Char
  timestamp : τ
  data : List (List UInt8 × Value φ)
  cursor : Option (List Char)

structure PreparedWebhook where
  messageId : List Char
  body : List UInt8

section Prepare

variable {φ τ : Type} (env : WireFormats φ τ)

def validateTimestamp (value : ℤ) : Except WebhookPreparationError Unit :=
  if value < 0 || !env.isUnixTimestamp value then .error .invalidTimestamp else .ok ()

def stringValue (s : List Char) : Value φ := .string (utf8 s)

-- The writer refuses the first chunk that does not fit, so it fails when the whole does not fit.
def PreparedWebhook.serialize (messageId : List Char) (members : List (List UInt8 × Value φ)) :
    Except WebhookPreparationError PreparedWebhook :=
  (validateIdentifier messageId).bind fun _ =>
    let body := write env.floats (.object members)
    if maxEventBodyBytes < body.length then .error .bodyTooLarge else .ok ⟨messageId, body⟩

def PreparedWebhook.event (event : EventEnvelope φ τ) : Except WebhookPreparationError PreparedWebhook :=
  (validateIdentifier event.eventId).bind fun _ =>
    if (trim event.name).isEmpty || 256 < (utf8 event.name).length ||
        event.cursor.any (fun cursor => 4096 < (utf8 cursor).length) then .error .invalidEvent
    else match env.rfc3339 event.timestamp with
      | none => .error .invalidTimestamp
      | some timestamp =>
        PreparedWebhook.serialize env event.eventId [(ascii "eventId", stringValue event.eventId),
          (ascii "name", stringValue event.name), (ascii "timestamp", stringValue timestamp),
          (ascii "data", .object event.data), (ascii "cursor", event.cursor.elim .null stringValue)]

structure PendingChallenge where
  request : PreparedWebhook
  expected : List UInt8
  issuedAt : ℤ
  deadline : ℤ

def PendingChallenge.new (messageId : List Char) (nonce : Vector UInt8 32) (issuedAt deadline : ℤ) :
    Except WebhookPreparationError PendingChallenge :=
  (validateTimestamp env issuedAt).bind fun _ => (validateTimestamp env deadline).bind fun _ =>
    let challenge := env.urlSafeNoPad nonce.toList
    if deadline ≤ issuedAt then .error .invalidChallengeLifetime
    else if (utf8 challenge).length ≠ encodedChallengeBytes then .error .serializationFailed
    else (PreparedWebhook.serialize env messageId [(ascii "type", .string (ascii "verification")),
      (ascii "challenge", stringValue challenge)]).bind fun request =>
        .ok ⟨request, utf8 challenge, issuedAt, deadline⟩

/-- The webhooks that can be signed: events and the requests of challenges. -/
inductive PreparedWebhook.Prepared : PreparedWebhook → Prop
  | event {w : PreparedWebhook} (event : EventEnvelope φ τ) (h : PreparedWebhook.event env event = .ok w) :
    Prepared w
  | challenge {c : PendingChallenge} (messageId : List Char) (nonce : Vector UInt8 32)
    (issuedAt deadline : ℤ) (h : PendingChallenge.new env messageId nonce issuedAt deadline = .ok c) :
    Prepared c.request

end Prepare

/-- `to_string` of the signed time. -/
def timestampText (t : ℤ) : List UInt8 :=
  if t < 0 then minus :: decimal digitByte t.natAbs else decimal digitByte t.natAbs

def dot : UInt8 := 46

/-- What Standard Webhooks signs. -/
def PreparedWebhook.signedContent (w : PreparedWebhook) (t : ℤ) : List UInt8 :=
  utf8 w.messageId ++ dot :: (timestampText t ++ dot :: w.body)

/-! ### The parts are found again -/

variable {φ τ : Type} {env : WireFormats φ τ} {w w' : PreparedWebhook} {t t' : ℤ}

theorem ne_openBrace_of_isIdentifierByte : ∀ b : UInt8, isIdentifierByte b = true → b ≠ openBrace :=
  forall_byte (by decide +kernel)

theorem openBrace_notMem_of_identifier {id : List Char} (h : validateIdentifier id = .ok ()) : openBrace ∉ utf8 id := by
  intro hmem
  unfold validateIdentifier at h
  split_ifs at h with hif
  simp only [Bool.or_eq_true, Bool.not_eq_true', not_or, Bool.not_eq_false] at hif
  exact ne_openBrace_of_isIdentifierByte _ (List.all_eq_true.mp hif.2 _ hmem) rfl

theorem nonneg_of_validateTimestamp (h : validateTimestamp env t = .ok ()) : 0 ≤ t := by
  unfold validateTimestamp at h
  split_ifs at h with hif
  simp only [Bool.or_eq_true, decide_eq_true_eq, not_or] at hif
  exact Int.not_lt.mp hif.1

theorem notMem_timestampText {b : UInt8} (hb : isIntegerByte b = false) (ht : 0 ≤ t) : b ∉ timestampText t := by
  rw [timestampText, if_neg (Int.not_lt.mpr ht)]
  exact fun h => Bool.false_ne_true (hb.symm.trans (isIntegerByte_of_mem_decimal h).1)

theorem timestampText_inj (ht : 0 ≤ t) (ht' : 0 ≤ t') (h : timestampText t = timestampText t') : t = t' := by
  rw [timestampText, timestampText, if_neg (Int.not_lt.mpr ht), if_neg (Int.not_lt.mpr ht')] at h
  have habs := decimal_digitByte_inj h
  omega

/-- What a prepared webhook keeps: no brace in the id, and a body that starts with one. -/
def PreparedWebhook.WellFormed (w : PreparedWebhook) : Prop :=
  openBrace ∉ utf8 w.messageId ∧ ∃ rest, w.body = openBrace :: rest

theorem wellFormed_of_serialize {id : List Char} {members : List (List UInt8 × Value φ)}
    (h : PreparedWebhook.serialize env id members = .ok w) : w.WellFormed := by
  obtain ⟨_, hid, h⟩ := bind_ok h
  dsimp only at h
  split_ifs at h
  obtain rfl := Except.ok.inj h
  exact ⟨openBrace_notMem_of_identifier hid, _, rfl⟩

theorem PreparedWebhook.Prepared.wellFormed (h : PreparedWebhook.Prepared env w) : w.WellFormed := by
  cases h with
  | event event h =>
    obtain ⟨_, -, h⟩ := bind_ok h
    split_ifs at h
    split at h
    · cases h
    · exact wellFormed_of_serialize h
  | challenge id nonce issuedAt deadline h =>
    obtain ⟨_, -, h⟩ := bind_ok h
    obtain ⟨_, -, h⟩ := bind_ok h
    dsimp only at h
    split_ifs at h
    obtain ⟨request, hrequest, h⟩ := bind_ok h
    obtain rfl := Except.ok.inj h
    exact wellFormed_of_serialize hrequest

/-- **The signed content determines the message id, the time and the body.** -/
theorem signedContent_unambiguous (hw : PreparedWebhook.Prepared env w)
    (hw' : PreparedWebhook.Prepared env w') (ht : validateTimestamp env t = .ok ())
    (ht' : validateTimestamp env t' = .ok ()) (h : w.signedContent t = w'.signedContent t') :
    w.messageId = w'.messageId ∧ t = t' ∧ w.body = w'.body := by
  obtain ⟨hid, rest, hbody⟩ := hw.wellFormed
  obtain ⟨hid', rest', hbody'⟩ := hw'.wellFormed
  have hpos := nonneg_of_validateTimestamp ht
  have hpos' := nonneg_of_validateTimestamp ht'
  have hbrace := fun t => notMem_timestampText (b := openBrace) (t := t) (by decide)
  have hdot := fun t => notMem_timestampText (b := dot) (t := t) (by decide)
  have hne : openBrace ≠ dot := by decide
  -- the body starts at the first brace
  have hsplit : (utf8 w.messageId ++ dot :: timestampText t ++ [dot]) ++ openBrace :: rest =
      (utf8 w'.messageId ++ dot :: timestampText t' ++ [dot]) ++ openBrace :: rest' := by
    simpa [PreparedWebhook.signedContent, hbody, hbody'] using h
  obtain ⟨hhead, hrest⟩ := append_cons_inj_of_first (by simp [hid, hbrace t hpos, hne])
    (by simp [hid', hbrace t' hpos', hne]) hsplit
  -- and the time after the last dot before it
  obtain ⟨hmessage, htime⟩ :=
    append_cons_inj_of_last (hdot t hpos) (hdot t' hpos') (List.append_cancel_right hhead)
  exact ⟨utf8_injective hmessage, timestampText_inj hpos hpos' htime, by rw [hbody, hbody', hrest]⟩

/-- Formats for events without data, at times that are dates. -/
def plainFormats : WireFormats PEmpty Unit where
  floats := ⟨PEmpty.elim, fun x => x.elim, fun x => x.elim, fun x => x.elim⟩
  rfc3339 _ := some "1970-01-01T00:00:00Z".toList
  isUnixTimestamp _ := true
  urlSafeNoPad _ := []

theorem signedContent_unambiguous_dotted : ∃ w, PreparedWebhook.Prepared plainFormats w ∧
    w.messageId = "evt.1.2".toList ∧ w.messageId = w.messageId ∧ (3 : ℤ) = 3 ∧ w.body = w.body := by
  have hevent : PreparedWebhook.Prepared plainFormats _ :=
    .event ⟨"evt.1.2".toList, "n".toList, (), [], none⟩ rfl
  exact ⟨_, hevent, rfl, signedContent_unambiguous hevent hevent rfl rfl rfl⟩

end McpToolkit.Http
