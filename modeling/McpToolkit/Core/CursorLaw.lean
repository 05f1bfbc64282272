import McpToolkit.Core.ScopedCursor
import McpToolkit.Lib.System

/-!
# McpToolkit.Core.CursorLaw — histories of a cursor store

A history records each call with the free capacity it found and what it returned.  `held` reads off
a history what a token stands for: the latest successful insertion, unless it was consumed since.
That is the store without its lazy pruning: the entries of the store are held, and what is held and
has not expired is in the store.  So every outcome is a function of the history before it, of the
call and of the free capacity (`expected`), and the laws are facts about histories.
-/

namespace McpToolkit.Core

open List
open Lib
open Lib.Json (FloatFormat Value)

variable {φ : Type}

structure CursorRecord (φ : Type) where
  call : CursorCall φ
  free : ℕ
  outcome : CursorOutcome φ

/-- A store with its history and the instant of the last call. -/
structure CursorRun (φ : Type) where
  store : ScopedCursorStore φ
  log : List (CursorRecord φ)
  clock : ℕ

def CursorRun.start (limits : CursorLimits) : CursorRun φ := ⟨⟨limits, ∅⟩, [], 0⟩

/-- Calls of a store, with instants that do not decrease. -/
def cursors (fmt : FloatFormat φ) (horizon : ℕ) : System (CursorRun φ) (CursorCall φ) where
  step run call :=
    if run.clock ≤ call.now then
      let out := run.store.exec fmt horizon call
      some ⟨out.1, run.log ++ [⟨call, run.store.freeCapacity call.now, out.2⟩], call.now⟩
    else none

/-! ### What a token stands for -/

namespace CursorRecord

/-- A successful insertion under the token. -/
def Inserts (ttl : ℕ) (token : List UInt8) (entry : CursorEntry φ) (x : CursorRecord φ) : Prop :=
  ∃ now, x.call = .insert token entry.scope entry.payload now ∧ x.outcome = .ok none ∧
    entry.expiresAt = now + ttl

/-- A successful `consume` of the token. -/
def Takes (token : List UInt8) (x : CursorRecord φ) : Prop :=
  ∃ scope now payload, x.call = .lookup token scope true now ∧ x.outcome = .ok (some payload)

/-- What the token stands for behind the call. -/
def update (ttl : ℕ) (token : List UInt8) (before : Option (CursorEntry φ)) (x : CursorRecord φ) :
    Option (CursorEntry φ) :=
  match x.call, x.outcome with
  | .insert token' scope payload now, .ok none =>
    if token' = token then some ⟨scope, payload, now + ttl⟩ else before
  | .lookup token' _ true _, .ok (some _) => if token' = token then none else before
  | _, _ => before

theorem update_error (ttl : ℕ) (token : List UInt8) (before : Option (CursorEntry φ))
    (call : CursorCall φ) (free : ℕ) (e : CursorError) : update ttl token before ⟨call, free, .error e⟩ = before := by
  cases call with
  | insert => rfl
  | lookup _ _ consume => cases consume <;> rfl

end CursorRecord

def held (ttl : ℕ) (token : List UInt8) (log : List (CursorRecord φ)) : Option (CursorEntry φ) :=
  log.foldl (CursorRecord.update ttl token) none

theorem held_concat (ttl : ℕ) (token : List UInt8) (log : List (CursorRecord φ))
    (x : CursorRecord φ) : held ttl token (log ++ [x]) = x.update ttl token (held ttl token log) := by
  rw [held, foldl_concat, held]

theorem CursorRecord.update_cases (ttl : ℕ) (token : List UInt8) (before : Option (CursorEntry φ))
    (x : CursorRecord φ) : (∃ entry, x.Inserts ttl token entry ∧ x.update ttl token before = some entry) ∨
      x.Takes token ∧ x.update ttl token before = none ∨
      (∀ entry, ¬ x.Inserts ttl token entry) ∧ ¬ x.Takes token ∧ x.update ttl token before = before := by
  obtain ⟨call, free, outcome⟩ := x
  cases call with
  | insert token' scope payload now =>
    have htake : ¬ Takes token ⟨.insert token' scope payload now, free, outcome⟩ := by
      rintro ⟨_, _, _, h, -⟩
      cases h
    match outcome with
    | .error e =>
      exact .inr (.inr ⟨(by rintro _ ⟨_, -, h, -⟩; cases h), htake, rfl⟩)
    | .ok (some v) =>
      exact .inr (.inr ⟨(by rintro _ ⟨_, -, h, -⟩; cases h), htake, rfl⟩)
    | .ok none =>
      by_cases ht : token' = token
      · subst ht
        exact .inl ⟨⟨scope, payload, now + ttl⟩, ⟨now, rfl, rfl, rfl⟩, if_pos rfl⟩
      · refine .inr (.inr ⟨?_, htake, if_neg ht⟩)
        rintro entry ⟨_, h, -⟩
        exact ht (CursorCall.insert.inj h).1
  | lookup token' scope consume now =>
    have hins : ∀ entry, ¬ Inserts ttl token entry
        ⟨.lookup token' scope consume now, free, outcome⟩ := by
      rintro entry ⟨_, h, -⟩
      cases h
    match consume, outcome with
    | false, _ => exact .inr (.inr ⟨hins, (by rintro ⟨_, _, _, h, -⟩; cases h), rfl⟩)
    | true, .error e => exact .inr (.inr ⟨hins, (by rintro ⟨_, _, _, -, h⟩; cases h), rfl⟩)
    | true, .ok none => exact .inr (.inr ⟨hins, (by rintro ⟨_, _, _, -, h⟩; cases h), rfl⟩)
    | true, .ok (some v) =>
      by_cases ht : token' = token
      · subst ht
        exact .inr (.inl ⟨⟨scope, now, v, rfl, rfl⟩, if_pos rfl⟩)
      · refine .inr (.inr ⟨hins, ?_, if_neg ht⟩)
        rintro ⟨_, _, _, h, -⟩
        exact ht (CursorCall.lookup.inj h).1

theorem exists_inserts_of_held {ttl : ℕ} {token : List UInt8} {entry : CursorEntry φ}
    {log : List (CursorRecord φ)} (h : held ttl token log = some entry) :
    ∃ before x after, log = before ++ x :: after ∧ x.Inserts ttl token entry ∧
      ∀ y ∈ after, (∀ entry', ¬ y.Inserts ttl token entry') ∧ ¬ y.Takes token := by
  induction log using List.reverseRecOn with
  | nil => cases h
  | append_singleton log z ih =>
    rw [held_concat] at h
    rcases z.update_cases ttl token (held ttl token log) with
      ⟨entry', hins, heq⟩ | ⟨-, heq⟩ | ⟨hins, htake, heq⟩
    · rw [heq] at h
      obtain rfl := Option.some.inj h
      exact ⟨log, z, [], rfl, hins, fun y hy => absurd hy not_mem_nil⟩
    · rw [heq] at h
      cases h
    · rw [heq] at h
      obtain ⟨before, x, after, rfl, hx, hafter⟩ := ih h
      refine ⟨before, x, after ++ [z], by rw [append_assoc, cons_append], hx, ?_⟩
      intro y hy
      rcases mem_append.mp hy with hy | hy
      · exact hafter y hy
      · rw [mem_singleton.mp hy]
        exact ⟨hins, htake⟩

/-! ### Outcomes are foretold -/

section Foretold

variable (fmt : FloatFormat φ) (horizon : ℕ) (limits : CursorLimits)

/-- What a call returns, from what its token stands for and from the free capacity. -/
def expected (before : Option (CursorEntry φ)) (free : ℕ) : CursorCall φ → CursorOutcome φ
  | .insert token _ payload now =>
    match admission fmt horizon limits token payload now with
    | .error e => .error e
    | .ok _ =>
      if (before.filter (·.live now)).isSome then .error .tokenCollision
      else if free = 0 then .error .capacityReached
      else .ok none
  | .lookup token scope _ now =>
    if 256 < token.length then .error .invalidCursor
    else
      match (before.filter (·.live now)).filter fun entry => entry.scope = scope with
      | none => .error .invalidCursor
      | some entry => .ok (some entry.payload)

/-- Every outcome is the one expected from the history before it. -/
def Foretold (log : List (CursorRecord φ)) : Prop :=
  ∀ before x, before ++ [x] <+: log →
    x.outcome = expected fmt horizon limits (held limits.ttl x.call.token before) x.free x.call

variable {fmt horizon limits}

theorem exec_outcome (store : ScopedCursorStore φ) (call : CursorCall φ) :
    (store.exec fmt horizon call).2 = expected fmt horizon store.limits
      (store.entries.lookup call.token) (store.freeCapacity call.now) call := by
  cases call with
  | insert token scope payload now =>
    simp only [ScopedCursorStore.exec, ScopedCursorStore.insertAt, expected,
      ScopedCursorStore.freeCapacity, Nat.sub_eq_zero_iff_le, CursorCall.token, CursorCall.now]
    cases hadm : admission fmt horizon store.limits token payload now with
    | error e => rfl
    | ok expiresAt =>
      rw [ScopedCursorStore.pruned, Table.lookup_retain]
      split_ifs <;> rfl
  | lookup token scope consume now =>
    simp only [ScopedCursorStore.exec, ScopedCursorStore.lookupAt, expected, CursorCall.token]
    rw [ScopedCursorStore.pruned, Table.lookup_retain]
    by_cases hlen : 256 < token.length
    · rw [if_pos hlen, if_pos hlen]
      rfl
    · rw [if_neg hlen, if_neg hlen]
      cases ((store.entries.lookup token).filter (·.live now)).filter
        fun entry => entry.scope = scope <;> rfl

variable {before : Option (CursorEntry φ)} {free : ℕ} {log : List (CursorRecord φ)} {x : CursorRecord φ}

theorem expected_congr {before' : Option (CursorEntry φ)} {call : CursorCall φ}
    (h : before.filter (·.live call.now) = before'.filter (·.live call.now)) :
    expected fmt horizon limits before free call = expected fmt horizon limits before' free call := by
  cases call <;> (simp only [CursorCall.now] at h; simp only [expected, h])

theorem expected_lookup {free' : ℕ} {call : CursorCall φ} (h : call.isInsert = true → free = free') :
    expected fmt horizon limits before free call = expected fmt horizon limits before free' call := by
  cases call with
  | insert => rw [h rfl]
  | lookup => rfl

theorem held_of_expected {token : List UInt8} {scope : CursorScope} {consume : Bool} {now : ℕ} {payload : Value φ}
    (h : expected fmt horizon limits before free (.lookup token scope consume now) = .ok (some payload)) :
    ∃ entry, before = some entry ∧ entry.scope = scope ∧ entry.payload = payload ∧ now < entry.expiresAt := by
  rw [expected] at h
  split_ifs at h
  cases hfound : (before.filter (·.live now)).filter fun entry => entry.scope = scope with
  | none => rw [hfound] at h; cases h
  | some entry =>
    rw [hfound] at h
    obtain ⟨hlive, hscope⟩ := Option.filter_eq_some_iff.mp hfound
    obtain ⟨hbefore, hnow⟩ := Option.filter_eq_some_iff.mp hlive
    exact ⟨entry, hbefore, of_decide_eq_true hscope, Option.some.inj (Except.ok.inj h),
      of_decide_eq_true hnow⟩

theorem Foretold.init (h : Foretold fmt horizon limits (log ++ [x])) : Foretold fmt horizon limits log :=
  fun before y hy => h before y (hy.trans (prefix_append _ _))

theorem Foretold.last (h : Foretold fmt horizon limits (log ++ [x])) : x.outcome =
      expected fmt horizon limits (held limits.ttl x.call.token log) x.free x.call :=
  h log x (prefix_refl _)

theorem Foretold.concat (h : Foretold fmt horizon limits log) (hx : x.outcome =
      expected fmt horizon limits (held limits.ttl x.call.token log) x.free x.call) :
    Foretold fmt horizon limits (log ++ [x]) := by
  intro before y hy
  rcases prefix_concat_iff.mp hy with heq | hy
  · obtain ⟨rfl, hlast⟩ := append_inj' heq rfl
    obtain rfl : y = x := (List.cons.inj hlast).1
    exact hx
  · exact h before y hy

end Foretold

/-! ### The store holds what is held -/

section Inv

variable {fmt : FloatFormat φ} {horizon : ℕ} {limits : CursorLimits}

structure CursorRun.Inv (fmt : FloatFormat φ) (horizon : ℕ) (limits : CursorLimits)
    (run : CursorRun φ) : Prop where
  limits_eq : run.store.limits = limits
  card_le : run.store.entries.keys.card ≤ limits.maxEntries
  stored : ∀ token entry, run.store.entries.lookup token = some entry →
    held limits.ttl token run.log = some entry
  live : ∀ token entry, held limits.ttl token run.log = some entry →
    run.clock < entry.expiresAt → run.store.entries.lookup token = some entry
  foretold : Foretold fmt horizon limits run.log

theorem CursorRun.inv_start : (CursorRun.start limits).Inv fmt horizon limits where
  limits_eq := rfl
  card_le := Nat.zero_le _
  stored token entry h := by cases h
  live token entry h := by cases h
  foretold before x h := by simp [CursorRun.start] at h

variable {run : CursorRun φ}

theorem CursorRun.Inv.filter_live (h : run.Inv fmt horizon limits) {now : ℕ}
    (hnow : run.clock ≤ now) (token : List UInt8) : (run.store.entries.lookup token).filter (·.live now) =
      (held limits.ttl token run.log).filter (·.live now) := by
  ext entry
  rw [Option.filter_eq_some_iff, Option.filter_eq_some_iff]
  refine and_congr_left fun hlive => ⟨h.stored token entry, fun hheld => h.live token entry hheld ?_⟩
  exact lt_of_le_of_lt hnow (of_decide_eq_true hlive)

/-- A call does to the store what it does to the history. -/
theorem CursorEffect.agrees {store store' : ScopedCursorStore φ} {call : CursorCall φ}
    {outcome : CursorOutcome φ} (h : CursorEffect store call store' outcome) (free : ℕ)
    {token : List UInt8} {before : Option (CursorEntry φ)}
    (hstored : ∀ entry, store.entries.lookup token = some entry → before = some entry)
    (hlive : ∀ entry, before = some entry → call.now < entry.expiresAt →
      store.entries.lookup token = some entry) :
    let after := CursorRecord.update store.limits.ttl token before ⟨call, free, outcome⟩
    (∀ entry, store'.entries.lookup token = some entry → after = some entry) ∧
      ∀ entry, after = some entry → call.now < entry.expiresAt →
        store'.entries.lookup token = some entry := by
  have hpruned : (∀ entry, (store.pruned call.now).lookup token = some entry → before = some entry) ∧
      ∀ entry, before = some entry → call.now < entry.expiresAt →
        (store.pruned call.now).lookup token = some entry :=
    ⟨fun entry he => hstored entry (lookup_pruned_eq_some.mp he).1,
      fun entry he hnow => lookup_pruned_eq_some.mpr ⟨hlive entry he hnow, hnow⟩⟩
  cases h with
  | refused e =>
    rw [CursorRecord.update_error]
    exact ⟨hstored, hlive⟩
  | failed e =>
    rw [CursorRecord.update_error]
    exact hpruned
  | @inserted token' now scope payload hnew hroom =>
    by_cases ht : token' = token
    · subst ht
      simp only [CursorRecord.update, Finmap.lookup_insert]
      exact ⟨fun entry he => he, fun entry he _ => he⟩
    · simp only [CursorRecord.update, if_neg ht, Finmap.lookup_insert_of_ne _ (Ne.symm ht)]
      exact hpruned
  | resolved hfound => exact hpruned
  | @consumed token' now entry' hfound =>
    by_cases ht : token' = token
    · subst ht
      simp only [CursorRecord.update, Finmap.lookup_erase]
      exact ⟨fun entry he => (by cases he), fun entry he => (by cases he)⟩
    · simp only [CursorRecord.update, if_neg ht, Finmap.lookup_erase_ne (Ne.symm ht)]
      exact hpruned

theorem CursorRun.Inv.step {run' : CursorRun φ} {call : CursorCall φ}
    (h : run.Inv fmt horizon limits) (hstep : (cursors fmt horizon).step run call = some run') :
    run'.Inv fmt horizon limits := by
  simp only [cursors] at hstep
  split_ifs at hstep with hclock
  obtain rfl := Option.some.inj hstep
  have heffect := exec_effect fmt horizon run.store call
  have hagrees := fun token => heffect.agrees (run.store.freeCapacity call.now)
    (h.stored token) (fun entry he hnow => h.live token entry he (lt_of_le_of_lt hclock hnow))
  rw [h.limits_eq] at hagrees
  refine ⟨heffect.limits_eq.trans h.limits_eq, ?_, ?_, ?_, ?_⟩
  · have hcard := heffect.card_le (by rw [h.limits_eq]; exact h.card_le)
    rwa [heffect.limits_eq, h.limits_eq] at hcard
  · intro token entry he
    rw [held_concat]
    exact (hagrees token).1 entry he
  · intro token entry he hnow
    rw [held_concat] at he
    exact (hagrees token).2 entry he hnow
  · refine h.foretold.concat ?_
    rw [exec_outcome, h.limits_eq]
    exact expected_congr (h.filter_live hclock call.token)

theorem CursorRun.inv_of_reaches (h : (cursors fmt horizon).Reaches (.start limits) run) : run.Inv fmt horizon limits :=
  h.induct inv_start fun hstep hinv => hinv.step hstep

end Inv

/-! ### Laws of histories -/

section Laws

variable {fmt : FloatFormat φ} {horizon : ℕ} {limits : CursorLimits} {log : List (CursorRecord φ)}

theorem Foretold.held_of_lookup (h : Foretold fmt horizon limits log)
    {before : List (CursorRecord φ)} {x : CursorRecord φ} (hx : before ++ [x] <+: log)
    {token : List UInt8} {scope : CursorScope} {consume : Bool} {now : ℕ} {payload : Value φ}
    (hcall : x.call = .lookup token scope consume now) (hout : x.outcome = .ok (some payload)) :
    ∃ entry, held limits.ttl token before = some entry ∧ entry.scope = scope ∧
      entry.payload = payload ∧ now < entry.expiresAt := by
  have hexp := h before x hx
  rw [hcall, hout] at hexp
  exact held_of_expected hexp.symm

/-- Between two successful `consume`s of a token it was inserted. -/
theorem Foretold.inserts_between (h : Foretold fmt horizon limits log)
    {first between : List (CursorRecord φ)} {x y : CursorRecord φ}
    (hlog : first ++ [x] ++ between ++ [y] <+: log) {token : List UInt8} (hx : x.Takes token)
    (hy : y.Takes token) : ∃ z ∈ between, ∃ entry, z.Inserts limits.ttl token entry := by
  obtain ⟨scope, now, payload, hcall, hout⟩ := hy
  obtain ⟨entry, hheld, -⟩ := h.held_of_lookup hlog hcall hout
  -- The insertion that is held at `y` cannot stand before `x`, which would have consumed it.
  have htaken : held limits.ttl token (first ++ [x]) = none := by
    rw [held_concat]
    rcases x.update_cases limits.ttl token (held limits.ttl token first) with
      ⟨entry', ⟨_, hins, -⟩, -⟩ | ⟨-, heq⟩ | ⟨-, hnot, -⟩
    · obtain ⟨_, _, _, hcall', -⟩ := hx
      rw [hcall'] at hins
      cases hins
    · exact heq
    · exact absurd hx hnot
  by_contra hnone
  push Not at hnone
  have hstay : ∀ between : List (CursorRecord φ),
      (∀ z ∈ between, ∀ entry, ¬ z.Inserts limits.ttl token entry) →
        held limits.ttl token (first ++ [x] ++ between) = none := by
    intro between
    induction between using List.reverseRecOn with
    | nil => intro _; rw [append_nil, htaken]
    | append_singleton between z ih =>
      intro hz
      have hbefore := ih fun z' hz' => hz z' (mem_append_left _ hz')
      rw [← append_assoc, held_concat, hbefore]
      rcases z.update_cases limits.ttl token none with ⟨entry', hins, -⟩ | ⟨-, heq⟩ | ⟨-, -, heq⟩
      · exact absurd hins (hz z (by simp) entry')
      · exact heq
      · exact heq
  rw [hstay between hnone] at hheld
  cases hheld

end Laws

/-! ### One scope among others -/

section Scope

variable (scope : CursorScope) (own : List UInt8 → Bool)

/-- A call made within the scope on one of its tokens. -/
def CursorRecord.low (x : CursorRecord φ) : Bool :=
  decide (x.call.scope = scope) && own x.call.token

/-- Only the scope inserts under its tokens. -/
def Owned (log : List (CursorRecord φ)) : Prop :=
  ∀ x ∈ log, x.call.isInsert = true → own x.call.token = true → x.call.scope = scope

instance (log : List (CursorRecord φ)) : Decidable (Owned scope own log) :=
  inferInstanceAs (Decidable (∀ x ∈ log, _))

/-- What a history shows of a call except its outcome: the call, and for an insertion the free
capacity. -/
def CursorRecord.view (x : CursorRecord φ) : CursorCall φ × ℕ :=
  (x.call, if x.call.isInsert then x.free else 0)

variable {scope own} {fmt : FloatFormat φ} {horizon : ℕ} {limits : CursorLimits}
  {log : List (CursorRecord φ)}

theorem Owned.init {x : CursorRecord φ} (h : Owned scope own (log ++ [x])) : Owned scope own log :=
  fun y hy => h y (mem_append_left _ hy)

/-- For the tokens of a scope, the calls within it are the whole history. -/
theorem held_filter_low (hlog : Foretold fmt horizon limits log) (howned : Owned scope own log)
    {token : List UInt8} (htoken : own token = true) :
    held limits.ttl token (log.filter (CursorRecord.low scope own)) = held limits.ttl token log ∧
      ∀ entry, held limits.ttl token log = some entry → entry.scope = scope := by
  induction log using List.reverseRecOn with
  | nil => exact ⟨rfl, fun entry h => (by cases h)⟩
  | append_singleton log x ih =>
    obtain ⟨heq, hscope⟩ := ih hlog.init howned.init
    -- A call that changes what the token stands for is made within the scope.
    have hlow : (∃ entry, x.Inserts limits.ttl token entry) ∨ x.Takes token →
        x.call.scope = scope ∧ x.low scope own = true := by
      rintro (⟨entry, now, hcall, -⟩ | ⟨scope', now, payload, hcall, hout⟩)
      · have hin := howned x (by simp) (by rw [hcall]; rfl) (by rw [hcall]; exact htoken)
        rw [CursorRecord.low, hin, hcall, CursorCall.token, htoken]
        simp
      · obtain ⟨entry, hheld, hentry, -⟩ :=
          hlog.held_of_lookup (prefix_refl _) hcall hout
        have hin : x.call.scope = scope := by
          rw [hcall, CursorCall.scope, ← hentry, hscope entry hheld]
        rw [CursorRecord.low, hin, hcall, CursorCall.token, htoken]
        simp
    rw [filter_append, held_concat]
    rcases x.update_cases limits.ttl token (held limits.ttl token log) with
      ⟨entry, hins, hup⟩ | ⟨htake, hup⟩ | ⟨hins, htake, hup⟩
    · obtain ⟨hin, hx⟩ := hlow (.inl ⟨entry, hins⟩)
      rw [filter_singleton, hx, cond_true, held_concat, heq]
      refine ⟨rfl, fun entry' he => ?_⟩
      rw [hup] at he
      obtain rfl := Option.some.inj he
      obtain ⟨now, hcall, -⟩ := hins
      rw [← hin, hcall, CursorCall.scope]
    · obtain ⟨-, hx⟩ := hlow (.inr htake)
      rw [filter_singleton, hx, cond_true, held_concat, heq]
      exact ⟨rfl, fun entry' he => (by rw [hup] at he; cases he)⟩
    · rw [hup]
      refine ⟨?_, hscope⟩
      cases hx : x.low scope own with
      | true => rw [filter_singleton, hx, cond_true, held_concat, heq, hup]
      | false => rw [filter_singleton, hx, cond_false, append_nil, heq]

theorem Foretold.filter_low (hlog : Foretold fmt horizon limits log) (howned : Owned scope own log) :
    Foretold fmt horizon limits (log.filter (CursorRecord.low scope own)) := by
  induction log using List.reverseRecOn with
  | nil => exact fun before x hx => absurd hx (by simp)
  | append_singleton log x ih =>
    have hrest := ih hlog.init howned.init
    rw [filter_append, filter_singleton]
    cases hx : x.low scope own with
    | false => rwa [cond_false, append_nil]
    | true =>
      refine hrest.concat ?_
      have htoken : own x.call.token = true := (Bool.and_eq_true_iff.mp hx).2
      rw [(held_filter_low hlog.init howned.init htoken).1]
      exact hlog.last

theorem CursorRecord.update_congr {x y : CursorRecord φ} (hcall : x.call = y.call)
    (hout : x.outcome = y.outcome) (ttl : ℕ) (token : List UInt8)
    (before : Option (CursorEntry φ)) : x.update ttl token before = y.update ttl token before := by
  rw [CursorRecord.update, hcall, hout, CursorRecord.update]

theorem Foretold.outcome_eq {log' : List (CursorRecord φ)} (h : Foretold fmt horizon limits log)
    (h' : Foretold fmt horizon limits log') (hview : log.map CursorRecord.view = log'.map CursorRecord.view) :
    log.map CursorRecord.outcome = log'.map CursorRecord.outcome ∧
      ∀ token, held limits.ttl token log = held limits.ttl token log' := by
  induction log using List.reverseRecOn generalizing log' with
  | nil =>
    obtain rfl := map_eq_nil_iff.mp hview.symm
    exact ⟨rfl, fun _ => rfl⟩
  | append_singleton log x ih =>
    rcases eq_nil_or_concat log' with rfl | ⟨log', y, rfl⟩
    · simp at hview
    · rw [concat_eq_append] at h' hview ⊢
      rw [map_append, map_append] at hview
      obtain ⟨hrest, hlast⟩ := append_inj' hview rfl
      obtain ⟨hcall, hfree⟩ := Prod.mk.inj (List.cons.inj hlast).1
      obtain ⟨hout, hheld⟩ := ih h.init h'.init hrest
      have hxy : x.outcome = y.outcome := by
        rw [h.last, h'.last, hheld, hcall]
        refine expected_lookup fun hins => ?_
        rwa [hcall, if_pos hins, if_pos hins] at hfree
      refine ⟨?_, fun token => ?_⟩
      · rw [map_append, map_append, hout, map_singleton, map_singleton, hxy]
      · rw [held_concat, held_concat, hheld, CursorRecord.update_congr hcall hxy]

end Scope

/-! ### The law -/

/-- What holds of every history of one store. -/
structure CursorRun.Lawful (fmt : FloatFormat φ) (horizon : ℕ) (limits : CursorLimits)
    (run : CursorRun φ) : Prop where
  /-- The store never outgrows its bound. -/
  card_le : run.store.entries.keys.card ≤ limits.maxEntries
  /-- Whatever call comes next, an unexpired entry stays unless the call is a successful `consume`
  within its scope. -/
  stays : ∀ (call : CursorCall φ) (token : List UInt8) (entry : CursorEntry φ),
    run.clock ≤ call.now → run.store.entries.lookup token = some entry →
    call.now < entry.expiresAt →
    (run.store.exec fmt horizon call).1.entries.lookup token = some entry ∨
      call = .lookup token entry.scope true call.now ∧
        (run.store.exec fmt horizon call).2 = .ok (some entry.payload)
  /-- Between two successful `consume`s of a token it was inserted anew. -/
  once : ∀ (first between : List (CursorRecord φ)) (x y : CursorRecord φ) (token : List UInt8),
    first ++ [x] ++ between ++ [y] <+: run.log → x.Takes token → y.Takes token →
    ∃ z ∈ between, ∃ entry, z.Inserts limits.ttl token entry
  /-- A successful lookup returns the payload of the latest successful insertion under its token,
  which was made with the same scope and less than `ttl` ago. -/
  latest : ∀ (before : List (CursorRecord φ)) (x : CursorRecord φ) (token : List UInt8)
    (scope : CursorScope) (consume : Bool) (now : ℕ) (payload : Value φ),
    before ++ [x] <+: run.log → x.call = .lookup token scope consume now →
    x.outcome = .ok (some payload) →
    ∃ (older : List (CursorRecord φ)) (z : CursorRecord φ) (newer : List (CursorRecord φ))
      (inserted : ℕ), before = older ++ z :: newer ∧
      z.call = .insert token scope payload inserted ∧ z.outcome = .ok none ∧
      now < inserted + limits.ttl ∧
      ∀ y ∈ newer, ∀ entry, ¬ y.Inserts limits.ttl token entry

theorem CursorRun.Inv.lawful {fmt : FloatFormat φ} {horizon : ℕ} {limits : CursorLimits}
    {run : CursorRun φ} (h : run.Inv fmt horizon limits) : run.Lawful fmt horizon limits where
  card_le := h.card_le
  stays call token entry _ hentry hlive := (exec_effect fmt horizon run.store call).lookup_of_live hentry hlive
  once first between x y token hlog hx hy := h.foretold.inserts_between hlog hx hy
  latest before x token scope consume now payload hlog hcall hout := by
    obtain ⟨entry, hheld, rfl, rfl, hnow⟩ := h.foretold.held_of_lookup hlog hcall hout
    obtain ⟨older, z, newer, rfl, ⟨inserted, hz, hzout, hexp⟩, hnewer⟩ :=
      exists_inserts_of_held hheld
    rw [hexp] at hnow
    exact ⟨older, z, newer, inserted, rfl, hz, hzout, hnow, fun y hy => (hnewer y hy).1⟩

/-- **The trace law of the cursor store.**  Every history is lawful; and for two histories in which
only one scope inserts under its tokens and which show the same calls of that scope on them, with the
same free capacity at its insertions, these calls have the same outcomes. -/
theorem scopedCursor_law (fmt : FloatFormat φ) (horizon : ℕ) (limits : CursorLimits)
    {run run' : CursorRun φ} (h : (cursors fmt horizon).Reaches (.start limits) run)
    (h' : (cursors fmt horizon).Reaches (.start limits) run') : run.Lawful fmt horizon limits ∧
    ∀ (scope : CursorScope) (own : List UInt8 → Bool), Owned scope own run.log → Owned scope own run'.log →
      (run.log.filter (CursorRecord.low scope own)).map CursorRecord.view =
        (run'.log.filter (CursorRecord.low scope own)).map CursorRecord.view →
      (run.log.filter (CursorRecord.low scope own)).map CursorRecord.outcome =
        (run'.log.filter (CursorRecord.low scope own)).map CursorRecord.outcome := by
  have hinv := CursorRun.inv_of_reaches h
  have hinv' := CursorRun.inv_of_reaches h'
  refine ⟨hinv.lawful, fun scope own howned howned' hview => ?_⟩
  exact ((hinv.foretold.filter_low howned).outcome_eq (hinv'.foretold.filter_low howned') hview).1

/-- JSON without floating-point numbers. -/
def integersOnly : FloatFormat Empty where
  write := Empty.elim
  injective := fun x => x.elim
  numeric := fun x => x.elim
  fractional := fun x => x.elim

def sampleScope : CursorScope := ⟨['a'], ['b'], ['c'], by decide⟩

def sampleToken : List UInt8 := List.replicate 32 97

/-- A payload is inserted, read and consumed, and is gone. -/
def sampleCalls : List (CursorCall Empty) :=
  [.insert sampleToken sampleScope .null 0, .lookup sampleToken sampleScope false 1,
    .lookup sampleToken sampleScope true 2, .lookup sampleToken sampleScope true 3]

/-- The calls of the sample, behind an insertion in another scope. -/
def crowdedCalls (b : UInt8) (payload : Value Empty) : List (CursorCall Empty) :=
  .insert (List.replicate 32 b) ⟨['x'], ['b'], ['c'], by decide⟩ payload 0 :: sampleCalls

/-- Whatever was inserted in the other scope, the calls of the sample have the same outcomes. -/
theorem scopedCursor_law_of_sampleCalls : ∃ run run' : CursorRun Empty,
    (run.log.map fun x => x.outcome.toBool) = [true, true, true, true, false] ∧
      (run.log.map fun x => x.call.token) ≠ run'.log.map (fun x => x.call.token) ∧
      run.Lawful integersOnly 1000 ⟨10, 2, 4⟩ ∧
      (run.log.filter (CursorRecord.low sampleScope (· == sampleToken))).map CursorRecord.outcome =
        (run'.log.filter (CursorRecord.low sampleScope (· == sampleToken))).map CursorRecord.outcome := by
  obtain ⟨run, hrun, hout, htokens, howned⟩ :
      ∃ run ∈ (cursors integersOnly 1000).run (.start ⟨10, 2, 4⟩) (crowdedCalls 98 .null),
        (run.log.map fun x => x.outcome.toBool) = [true, true, true, true, false] ∧
          run.log.head?.map (fun x => x.call.token) = some (List.replicate 32 98) ∧
          Owned sampleScope (· == sampleToken) run.log := by decide
  obtain ⟨run', hrun', htokens', howned'⟩ :
      ∃ run ∈ (cursors integersOnly 1000).run (.start ⟨10, 2, 4⟩) (crowdedCalls 99 (.bool true)),
        run.log.head?.map (fun x => x.call.token) = some (List.replicate 32 99) ∧
          Owned sampleScope (· == sampleToken) run.log := by decide
  have hview : ((cursors integersOnly 1000).run (.start ⟨10, 2, 4⟩) (crowdedCalls 98 .null)).map
        (fun run => (run.log.filter (CursorRecord.low sampleScope (· == sampleToken))).map CursorRecord.view) =
      ((cursors integersOnly 1000).run (.start ⟨10, 2, 4⟩) (crowdedCalls 99 (.bool true))).map
        fun run => (run.log.filter (CursorRecord.low sampleScope (· == sampleToken))).map CursorRecord.view := rfl
  rw [hrun, hrun'] at hview
  have hlaw := scopedCursor_law integersOnly 1000 ⟨10, 2, 4⟩ (System.reaches_of_run hrun) (System.reaches_of_run hrun')
  refine ⟨run, run', hout, fun heq => ?_, hlaw.1, hlaw.2 _ _ howned howned' (Option.some.inj hview)⟩
  rw [← head?_map, heq, head?_map, htokens'] at htokens
  exact absurd htokens (by decide)

end McpToolkit.Core
