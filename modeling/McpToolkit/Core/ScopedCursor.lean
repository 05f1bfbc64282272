import McpToolkit.Lib.Json
import McpToolkit.Lib.Table

/-!
# McpToolkit.Core.ScopedCursor — the scoped cursor store

`scoped_cursor.rs`.  A call checks its arguments, takes the lock, drops every entry that has expired
and then looks at one token; so a call is one atomic step here.  `resolve` and `consume` are
`lookup_at` with the flag off and on.

Instants are numbers of ticks, and `checked_add` fails beyond the last one, `horizon`.  The counter
that bounds the serialised payload adds up the lengths of the pieces it is handed.  No call panics
while it holds the lock, so the lock is never poisoned.
-/

namespace McpToolkit.Core

open Lib
open Lib.Json (FloatFormat Value)
open Lib.Text (trim utf8Length)

inductive CursorError where
  | invalidConfiguration
  | invalidScope
  | invalidToken
  | invalidCursor
  | tokenCollision
  | capacityReached
  | payloadTooLarge
  | unavailable
  deriving DecidableEq

/-! ### Scopes -/

def scopeFieldOk (field : List Char) : Bool :=
  !(trim field).isEmpty && decide (utf8Length field ≤ 1024)

/-- The fields of a scope are not blank and not too long. -/
structure CursorScope where
  principal : List Char
  resource : List Char
  generation : List Char
  valid : (scopeFieldOk principal && scopeFieldOk resource && scopeFieldOk generation) = true
  deriving DecidableEq

def CursorScope.new (principal resource generation : List Char) :
    Except CursorError CursorScope :=
  if h : (scopeFieldOk principal && scopeFieldOk resource && scopeFieldOk generation) = true then
    .ok ⟨principal, resource, generation, h⟩
  else .error .invalidScope

/-! ### The store -/

structure CursorLimits where
  ttl : ℕ
  maxEntries : ℕ
  maxPayloadBytes : ℕ
  deriving DecidableEq

structure CursorEntry (φ : Type) where
  scope : CursorScope
  payload : Value φ
  expiresAt : ℕ

structure ScopedCursorStore (φ : Type) where
  limits : CursorLimits
  entries : Finmap fun _ : List UInt8 => CursorEntry φ

section Store

variable {φ : Type}

def ScopedCursorStore.new (horizon : ℕ) (limits : CursorLimits) (now : ℕ) :
    Except CursorError (ScopedCursorStore φ) :=
  if limits.ttl = 0 ∨ limits.maxEntries = 0 ∨ limits.maxPayloadBytes = 0 ∨
      horizon < now + limits.ttl then
    .error .invalidConfiguration
  else .ok ⟨limits, ∅⟩

/-- `LimitedCounter` fed with the pieces of a text. -/
def limitedCounter (limit : ℕ) : ℕ → List (List UInt8) → Option ℕ
  | used, [] => some used
  | used, bytes :: pieces =>
    if used + bytes.length ≤ limit then limitedCounter limit (used + bytes.length) pieces else none

def isTokenByte (c : UInt8) : Bool :=
  (48 ≤ c && c ≤ 57) || (65 ≤ c && c ≤ 90) || (97 ≤ c && c ≤ 122) || c == 45 || c == 95

def CursorEntry.live (now : ℕ) (entry : CursorEntry φ) : Bool := now < entry.expiresAt

/-- The entries after `retain`. -/
def ScopedCursorStore.pruned (store : ScopedCursorStore φ) (now : ℕ) :
    Finmap fun _ : List UInt8 => CursorEntry φ :=
  Table.retain (fun _ entry => entry.live now) store.entries

/-- How many more entries fit. -/
def ScopedCursorStore.freeCapacity (store : ScopedCursorStore φ) (now : ℕ) : ℕ :=
  store.limits.maxEntries - (store.pruned now).keys.card

variable (fmt : FloatFormat φ) (horizon : ℕ)

/-- The checks of `insert_at` before the lock; the result is the expiry. -/
def admission (limits : CursorLimits) (token : List UInt8) (payload : Value φ) (now : ℕ) :
    Except CursorError ℕ :=
  if ¬ (32 ≤ token.length ∧ token.length ≤ 256) ∨ !token.all isTokenByte then
    .error .invalidToken
  else if (limitedCounter limits.maxPayloadBytes 0 [Json.write fmt payload]).isNone then
    .error .payloadTooLarge
  else if horizon < now + limits.ttl then .error .invalidConfiguration
  else .ok (now + limits.ttl)

def ScopedCursorStore.insertAt (store : ScopedCursorStore φ) (token : List UInt8)
    (scope : CursorScope) (payload : Value φ) (now : ℕ) :
    ScopedCursorStore φ × Except CursorError Unit :=
  match admission fmt horizon store.limits token payload now with
  | .error e => (store, .error e)
  | .ok expiresAt =>
    let entries := store.pruned now
    if (entries.lookup token).isSome then ({ store with entries }, .error .tokenCollision)
    else if store.limits.maxEntries ≤ entries.keys.card then
      ({ store with entries }, .error .capacityReached)
    else ({ store with entries := entries.insert token ⟨scope, payload, expiresAt⟩ }, .ok ())

def ScopedCursorStore.lookupAt (store : ScopedCursorStore φ) (token : List UInt8)
    (scope : CursorScope) (consume : Bool) (now : ℕ) :
    ScopedCursorStore φ × Except CursorError (Value φ) :=
  if 256 < token.length then (store, .error .invalidCursor)
  else
    let entries := store.pruned now
    match (entries.lookup token).filter fun entry => entry.scope = scope with
    | none => ({ store with entries }, .error .invalidCursor)
    | some entry =>
      ({ store with entries := if consume then entries.erase token else entries },
        .ok entry.payload)

/-! ### Calls -/

inductive CursorCall (φ : Type) where
  | insert (token : List UInt8) (scope : CursorScope) (payload : Value φ) (now : ℕ)
  | lookup (token : List UInt8) (scope : CursorScope) (consume : Bool) (now : ℕ)

/-- What a call returns: nothing for an insertion, the payload for a lookup. -/
abbrev CursorOutcome (φ : Type) := Except CursorError (Option (Value φ))

def CursorCall.now : CursorCall φ → ℕ
  | .insert _ _ _ now | .lookup _ _ _ now => now

def CursorCall.token : CursorCall φ → List UInt8
  | .insert token _ _ _ | .lookup token _ _ _ => token

def CursorCall.scope : CursorCall φ → CursorScope
  | .insert _ scope _ _ | .lookup _ scope _ _ => scope

def CursorCall.isInsert : CursorCall φ → Bool
  | .insert .. => true
  | .lookup .. => false

def ScopedCursorStore.exec (store : ScopedCursorStore φ) :
    CursorCall φ → ScopedCursorStore φ × CursorOutcome φ
  | .insert token scope payload now =>
    let out := store.insertAt fmt horizon token scope payload now
    (out.1, out.2.map fun _ => none)
  | .lookup token scope consume now =>
    let out := store.lookupAt token scope consume now
    (out.1, out.2.map some)

variable {fmt horizon} {store store' : ScopedCursorStore φ} {call : CursorCall φ}
  {outcome : CursorOutcome φ}

/-! ### What a call can do -/

/-- The ways a call ends: refused before the lock, failed behind it, or successful. -/
inductive CursorEffect (store : ScopedCursorStore φ) :
    CursorCall φ → ScopedCursorStore φ → CursorOutcome φ → Prop
  | refused (call : CursorCall φ) (e : CursorError) : CursorEffect store call store (.error e)
  | failed (call : CursorCall φ) (e : CursorError) :
      CursorEffect store call { store with entries := store.pruned call.now } (.error e)
  | inserted {token : List UInt8} {now : ℕ} (scope : CursorScope) (payload : Value φ)
      (new : (store.pruned now).lookup token = none)
      (room : (store.pruned now).keys.card < store.limits.maxEntries) :
      CursorEffect store (.insert token scope payload now)
        { store with
          entries := (store.pruned now).insert token ⟨scope, payload, now + store.limits.ttl⟩ }
        (.ok none)
  | resolved {token : List UInt8} {now : ℕ} {entry : CursorEntry φ}
      (found : (store.pruned now).lookup token = some entry) :
      CursorEffect store (.lookup token entry.scope false now)
        { store with entries := store.pruned now } (.ok (some entry.payload))
  | consumed {token : List UInt8} {now : ℕ} {entry : CursorEntry φ}
      (found : (store.pruned now).lookup token = some entry) :
      CursorEffect store (.lookup token entry.scope true now)
        { store with entries := (store.pruned now).erase token } (.ok (some entry.payload))

variable {token : List UInt8}

theorem admission_eq_ok {limits : CursorLimits} {payload : Value φ}
    {now expiresAt : ℕ} (h : admission fmt horizon limits token payload now = .ok expiresAt) :
    expiresAt = now + limits.ttl := by
  unfold admission at h
  split_ifs at h
  exact (Except.ok.inj h).symm

theorem exec_effect (fmt : FloatFormat φ) (horizon : ℕ) (store : ScopedCursorStore φ) (call : CursorCall φ) :
    CursorEffect store call (store.exec fmt horizon call).1 (store.exec fmt horizon call).2 := by
  cases call with
  | insert token scope payload now =>
    simp only [ScopedCursorStore.exec, ScopedCursorStore.insertAt]
    cases hadm : admission fmt horizon store.limits token payload now with
    | error e => exact .refused _ e
    | ok expiresAt =>
      obtain rfl := admission_eq_ok hadm
      split_ifs with hcoll hfull
      · exact .failed (.insert token scope payload now) _
      · exact .failed (.insert token scope payload now) _
      · exact .inserted scope payload (Option.not_isSome_iff_eq_none.mp hcoll) (not_le.mp hfull)
  | lookup token scope consume now =>
    simp only [ScopedCursorStore.exec, ScopedCursorStore.lookupAt]
    by_cases hlen : 256 < token.length
    · rw [if_pos hlen]
      exact .refused _ _
    · rw [if_neg hlen]
      cases hfound : ((store.pruned now).lookup token).filter fun entry => entry.scope = scope with
      | none => exact .failed (.lookup token scope consume now) _
      | some entry =>
        obtain ⟨hlookup, hscope⟩ := Option.filter_eq_some_iff.mp hfound
        obtain rfl : entry.scope = scope := of_decide_eq_true hscope
        cases consume with
        | true => exact .consumed hlookup
        | false => exact .resolved hlookup

theorem lookup_pruned_eq_some {now : ℕ} {entry : CursorEntry φ} : (store.pruned now).lookup token = some entry ↔
      store.entries.lookup token = some entry ∧ now < entry.expiresAt := by
  rw [ScopedCursorStore.pruned, Table.lookup_retain_eq_some]
  exact and_congr_right fun _ => decide_eq_true_iff

section

variable (h : CursorEffect store call store' outcome)
include h

theorem CursorEffect.limits_eq : store'.limits = store.limits := by
  cases h <;> rfl

theorem CursorEffect.card_le (hcard : store.entries.keys.card ≤ store.limits.maxEntries) :
    store'.entries.keys.card ≤ store'.limits.maxEntries := by
  have hpruned : ∀ now, (store.pruned now).keys.card ≤ store.limits.maxEntries :=
    fun now => Table.card_retain_le.trans hcard
  cases h with
  | refused e => exact hcard
  | failed e => exact hpruned _
  | inserted scope payload hnew hroom =>
    rw [Index.card_insert hnew]
    exact hroom
  | resolved hfound => exact hpruned _
  | consumed hfound =>
    rw [Finmap.keys_erase]
    exact (Finset.card_erase_le).trans (hpruned _)

/-- **An unexpired entry stays** until it is consumed within its own scope. -/
theorem CursorEffect.lookup_of_live {entry : CursorEntry φ} (hentry : store.entries.lookup token = some entry)
    (hlive : call.now < entry.expiresAt) : store'.entries.lookup token = some entry ∨
      call = .lookup token entry.scope true call.now ∧ outcome = .ok (some entry.payload) := by
  have hpruned : (store.pruned call.now).lookup token = some entry :=
    lookup_pruned_eq_some.mpr ⟨hentry, hlive⟩
  cases h with
  | refused e => exact .inl hentry
  | failed e => exact .inl hpruned
  | @inserted token' now scope payload hnew hroom =>
    have hne : token ≠ token' := by
      rintro rfl
      rw [CursorCall.now, hnew] at hpruned
      cases hpruned
    exact .inl (by rw [Finmap.lookup_insert_of_ne _ hne]; exact hpruned)
  | resolved hfound => exact .inl hpruned
  | @consumed token' now entry' hfound =>
    by_cases htoken : token = token'
    · subst htoken
      obtain rfl : entry' = entry := Option.some.inj (hfound.symm.trans hpruned)
      exact .inr ⟨rfl, rfl⟩
    · exact .inl (by rw [Finmap.lookup_erase_ne htoken]; exact hpruned)

end

end Store

end McpToolkit.Core
