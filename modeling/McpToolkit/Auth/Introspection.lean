import McpToolkit.Lib.System
import McpToolkit.Lib.Table
import McpToolkit.Lib.Word

/-!
# McpToolkit.Auth.Introspection — the cache of introspection results

`IntrospectionCache` of `introspection.rs`.  Instants of the monotonic clock are numbers of nanoseconds up to `horizon`,
where an addition panics; the wall clock counts nanoseconds from the Unix epoch and may be before it, and an `exp` claim
counts whole seconds.  `HashMap` has no order: the key that `keys().next()` yields is an argument of `set`, and a run may
give any.

A run keeps what was set.  The end that `set` stores for a payload is later than the one its claims give: the current
second is cut off, and a claim that is already past counts as none.  `introspection_fresh` says that what is served is
fresh as long as no call falls between the two and the wall clock does not run ahead of the monotonic one.
-/

namespace McpToolkit.Auth

open Finmap
open Lib
open Lib.Word (addDuration eq_of_addDuration)

def nanos : ℕ := 1000000000

structure IntrospectionCache (P : Type) where
  ttl : ℕ
  capacity : ℕ
  entries : Finmap fun _ : String => P × Option ℕ

/-- `SystemTime::now().duration_since(UNIX_EPOCH)` in whole seconds, zero before the epoch. -/
def epochSeconds (wall : ℤ) : ℤ := if wall < 0 then 0 else wall / nanos

/-- `i64::saturating_sub`. -/
def saturatingSub (a b : ℤ) : ℤ := max (-9223372036854775808) (min 9223372036854775807 (a - b))

/-- The expiry that `set` computes. -/
def expiresAt (horizon ttl now : ℕ) (exp : Option ℤ) (wall : ℤ) : Option ℕ :=
  match exp with
  | none => addDuration horizon now ttl
  | some seconds =>
    let remaining := saturatingSub seconds (epochSeconds wall)
    if remaining ≤ 0 then addDuration horizon now ttl
    else do
      let expiry ← addDuration horizon now (remaining.toNat * nanos)
      let ttlExpiry ← addDuration horizon now ttl
      return if expiry < ttlExpiry then expiry else ttlExpiry

/-- What `set` is given, and what it reads from the clocks. -/
structure CacheSet (P : Type) where
  token : String
  payload : P
  exp : Option ℤ
  wall : ℤ
  now : ℕ
  deriving DecidableEq

namespace IntrospectionCache

variable {P : Type}

def new (ttl capacity : ℕ) : IntrospectionCache P := ⟨ttl, capacity, ∅⟩

def get (cache : IntrospectionCache P) (token : String) (now : ℕ) : Option P :=
  if cache.ttl = 0 then none
  else
    match cache.entries.lookup token with
    | some (payload, expiry) => if expiry.any (fun expiry => expiry < now) then none else some payload
    | none => none

/-- The entries that have not expired. -/
def retained (cache : IntrospectionCache P) (now : ℕ) : Finmap fun _ : String => P × Option ℕ :=
  Table.retain (fun _ entry => entry.2.all fun expiry => now < expiry) cache.entries

/-- The eviction in `set`. -/
def makeRoom (cache : IntrospectionCache P) (now : ℕ) (next : Option String) :
    Finmap fun _ : String => P × Option ℕ :=
  if cache.capacity ≤ (cache.retained now).keys.card then
    match next with
    | some key => (cache.retained now).erase key
    | none => cache.retained now
  else cache.retained now

/-- `set`; there is no cache behind a panic. -/
def set (cache : IntrospectionCache P) (horizon : ℕ) (call : CacheSet P) (next : Option String) :
    Option (IntrospectionCache P) :=
  if cache.ttl = 0 then some cache
  else
    (expiresAt horizon cache.ttl call.now call.exp call.wall).map fun expiry =>
      { cache with entries := (cache.makeRoom call.now next).insert call.token (call.payload, some expiry) }

end IntrospectionCache

/-! ### Runs -/

inductive CacheCall (P : Type)
  | set (call : CacheSet P) (next : Option String)
  | get (token : String) (now : ℕ) (wall : ℤ)
  deriving DecidableEq

/-- The cache, the calls of `set`, the last one first, and the instant of the last call. -/
structure CacheRun (P : Type) where
  cache : IntrospectionCache P
  sets : List (CacheSet P)
  clock : ℕ

section Runs

variable {P : Type}

def CacheRun.start (P : Type) (ttl capacity : ℕ) : CacheRun P := ⟨.new ttl capacity, [], 0⟩

/-- The last call of `set` for a token. -/
def CacheRun.lastSet (run : CacheRun P) (token : String) : Option (CacheSet P) :=
  run.sets.find? fun call => call.token = token

def cacheCalls (P : Type) (horizon : ℕ) : System (CacheRun P) (CacheCall P) where
  step run call :=
    match call with
    | .set call next =>
      if run.clock ≤ call.now then
        (run.cache.set horizon call next).map fun cache => ⟨cache, call :: run.sets, call.now⟩
      else none
    | .get _ now _ => if run.clock ≤ now then some { run with clock := now } else none

/-- A payload that is served was the last one set for the token, less than `ttl` ago, and its `exp` claim is later than
the time it was set at and later than now. -/
def Fresh (run : CacheRun P) : CacheCall P → Prop
  | .set _ _ => True
  | .get token now wall =>
    ∀ payload, run.cache.get token now = some payload → ∃ call, run.lastSet token = some call ∧
      call.payload = payload ∧ now < call.now + run.cache.ttl ∧
      ∀ seconds ∈ call.exp, call.wall < seconds * nanos ∧ wall < seconds * nanos

/-! ### When a payload ends -/

/-- The end by the `ttl` and the `exp` claim, to the nanosecond: at once if the claim is already past. -/
def CacheSet.endsAt (call : CacheSet P) (ttl : ℕ) : ℤ :=
  match call.exp with
  | none => call.now + ttl
  | some seconds => call.now + min (ttl : ℤ) (seconds * nanos - call.wall)

/-- The end that `set` stores: the current second is cut off, and a claim that is past counts as none. -/
def CacheSet.storedEnd (call : CacheSet P) (ttl : ℕ) : ℕ :=
  match call.exp with
  | none => call.now + ttl
  | some seconds =>
    let remaining := saturatingSub seconds (epochSeconds call.wall)
    if remaining ≤ 0 then call.now + ttl else call.now + min ttl (remaining.toNat * nanos)

/-- A `get` of a token that the cache has comes before the end of the payload, or after the end that was stored. -/
def OnTime (run : CacheRun P) : CacheCall P → Prop
  | .set _ _ => True
  | .get token now _ =>
    token ∈ run.cache.entries → ∀ call ∈ run.lastSet token,
      (now : ℤ) < call.endsAt run.cache.ttl ∨ call.storedEnd run.cache.ttl < now

/-- Since the payload was set the wall clock has not advanced more than the monotonic one. -/
def NotAhead (run : CacheRun P) : CacheCall P → Prop
  | .set _ _ => True
  | .get token now wall => ∀ call ∈ run.lastSet token, wall - call.wall ≤ (now : ℤ) - call.now

/-- Since the payload was set both clocks have advanced alike. -/
def InStep (run : CacheRun P) : CacheCall P → Prop
  | .set _ _ => True
  | .get token now wall => ∀ call ∈ run.lastSet token, wall - call.wall = (now : ℤ) - call.now

instance (run : CacheRun P) : DecidablePred (OnTime run)
  | .set _ _ => .isTrue trivial
  | .get token now _ => inferInstanceAs (Decidable (token ∈ run.cache.entries → ∀ call ∈ run.lastSet token,
      (now : ℤ) < call.endsAt run.cache.ttl ∨ call.storedEnd run.cache.ttl < now))

instance (run : CacheRun P) : DecidablePred (NotAhead run)
  | .set _ _ => .isTrue trivial
  | .get token now wall =>
    inferInstanceAs (Decidable (∀ call ∈ run.lastSet token, wall - call.wall ≤ (now : ℤ) - call.now))

/-- The entries are what was set last. -/
structure CacheBacked (run : CacheRun P) : Prop where
  entry : ∀ token entry, run.cache.entries.lookup token = some entry →
    run.cache.ttl ≠ 0 ∧ ∃ call, run.lastSet token = some call ∧
      entry = (call.payload, some (call.storedEnd run.cache.ttl))
  past : ∀ call ∈ run.sets, call.now ≤ run.clock

variable {horizon : ℕ} {run run' : CacheRun P} {call : CacheCall P}

theorem lookup_of_makeRoom {cache : IntrospectionCache P} {now : ℕ} {next : Option String} {token : String}
    {entry : P × Option ℕ} (h : (cache.makeRoom now next).lookup token = some entry) :
    cache.entries.lookup token = some entry := by
  have hretained : ∀ {token}, (cache.retained now).lookup token = some entry →
      cache.entries.lookup token = some entry := Table.lookup_of_retain
  unfold IntrospectionCache.makeRoom at h
  split_ifs at h
  · cases next with
    | none => exact hretained h
    | some key =>
      by_cases hkey : token = key
      · subst hkey
        rw [lookup_erase] at h
        cases h
      · rw [lookup_erase_ne hkey] at h
        exact hretained h
  · exact hretained h

theorem cacheBacked_start (ttl capacity : ℕ) : CacheBacked (CacheRun.start P ttl capacity) where
  entry token entry h := by
    rw [CacheRun.start, IntrospectionCache.new] at h
    cases h
  past call h := absurd h List.not_mem_nil

theorem eq_storedEnd {ttl x : ℕ} {call : CacheSet P}
    (h : expiresAt horizon ttl call.now call.exp call.wall = some x) : x = call.storedEnd ttl := by
  unfold expiresAt at h
  unfold CacheSet.storedEnd
  cases hexp : call.exp with
  | none =>
    rw [hexp] at h
    exact eq_of_addDuration h
  | some seconds =>
    rw [hexp] at h
    dsimp only at h ⊢
    split_ifs at h ⊢ with hpast
    · exact eq_of_addDuration h
    · simp only [Option.bind_eq_bind, Option.bind_eq_some_iff, Option.pure_def, Option.some.injEq] at h
      obtain ⟨expiry, hexpiry, ttlExpiry, httl, rfl⟩ := h
      rw [eq_of_addDuration hexpiry, eq_of_addDuration httl]
      split_ifs <;> omega

theorem CacheBacked.set (h : CacheBacked run) {call : CacheSet P} {next : Option String} {cache : IntrospectionCache P}
    (hclock : run.clock ≤ call.now) (hset : run.cache.set horizon call next = some cache) :
    CacheBacked ⟨cache, call :: run.sets, call.now⟩ := by
  refine ⟨fun token entry hentry => ?_, fun old hold => ?_⟩
  · unfold IntrospectionCache.set at hset
    split_ifs at hset with hzero
    · -- without a lifetime nothing is stored
      obtain rfl := Option.some.inj hset
      exact absurd hzero (h.entry token entry hentry).1
    · obtain ⟨expiry, hexpiry, rfl⟩ := Option.map_eq_some_iff.mp hset
      refine ⟨hzero, ?_⟩
      by_cases htoken : token = call.token
      · subst htoken
        refine ⟨call, List.find?_cons_of_pos (decide_eq_true rfl), ?_⟩
        rw [lookup_insert] at hentry
        rw [← Option.some.inj hentry, eq_storedEnd hexpiry]
      · rw [lookup_insert_of_ne _ htoken] at hentry
        obtain ⟨-, old, hold, heq⟩ := h.entry token entry (lookup_of_makeRoom hentry)
        refine ⟨old, ?_, heq⟩
        rw [CacheRun.lastSet, List.find?_cons_of_neg (by simpa using fun h => htoken h.symm)]
        exact hold
  · rcases List.mem_cons.mp hold with rfl | hold
    · exact le_refl _
    · exact (h.past old hold).trans hclock

theorem cacheBacked_step (hstep : (cacheCalls P horizon).step run call = some run') (h : CacheBacked run) : CacheBacked run' := by
  cases call with
  | set call next =>
    obtain ⟨hclock, heq⟩ := Option.ite_none_right_eq_some.mp hstep
    obtain ⟨cache, hset, rfl⟩ := Option.map_eq_some_iff.mp heq
    exact h.set hclock hset
  | get token now wall =>
    obtain ⟨hclock, ⟨⟩⟩ := Option.ite_none_right_eq_some.mp hstep
    exact ⟨h.entry, fun call hcall => (h.past call hcall).trans hclock⟩

theorem get_eq_some_iff (h : CacheBacked run) {token : String} {now : ℕ} {payload : P} :
    run.cache.get token now = some payload ↔ token ∈ run.cache.entries ∧
      ∃ call, run.lastSet token = some call ∧ call.payload = payload ∧ now ≤ call.storedEnd run.cache.ttl := by
  unfold IntrospectionCache.get
  cases hlook : run.cache.entries.lookup token with
  | none =>
    refine iff_of_false ?_ fun hmem => lookup_eq_none.mp hlook hmem.1
    split_ifs <;> exact nofun
  | some entry =>
    obtain ⟨hzero, call, hlast, rfl⟩ := h.entry token entry hlook
    have hmem : token ∈ run.cache.entries := mem_of_lookup_eq_some hlook
    rw [if_neg hzero, and_iff_right hmem]
    dsimp only [Option.any_some]
    split_ifs with hend
    · refine iff_of_false nofun ?_
      rintro ⟨call', hlast', -, hle⟩
      obtain rfl := Option.some.inj (hlast.symm.trans hlast')
      exact absurd (of_decide_eq_true hend) (Nat.not_lt.mpr hle)
    · constructor
      · intro heq
        exact ⟨call, hlast, Option.some.inj heq, Nat.le_of_not_lt fun hlt => hend (decide_eq_true hlt)⟩
      · rintro ⟨call', hlast', rfl, -⟩
        rw [Option.some.inj (hlast.symm.trans hlast')]

theorem fresh_of_onTime (hstep : (cacheCalls P horizon).step run call = some run') (h : CacheBacked run)
    (hclocks : NotAhead run call) (hontime : OnTime run call) : Fresh run call := by
  cases call with
  | set call next => trivial
  | get token now wall =>
    intro payload hget
    obtain ⟨hmem, call, hlast, hpayload, hend⟩ := (get_eq_some_iff h).mp hget
    have hpast := h.past call (List.mem_of_find?_eq_some hlast)
    have hclock := (Option.ite_none_right_eq_some.mp hstep).1
    have hwall := hclocks call hlast
    have hbefore : (now : ℤ) < call.endsAt run.cache.ttl := by
      rcases hontime hmem call hlast with hbefore | hafter
      · exact hbefore
      · omega
    refine ⟨call, hlast, hpayload, ?_⟩
    unfold CacheSet.endsAt at hbefore
    cases hexp : call.exp with
    | none =>
      rw [hexp] at hbefore
      dsimp only at hbefore
      exact ⟨by omega, fun seconds hseconds => by cases hseconds⟩
    | some seconds =>
      rw [hexp] at hbefore
      dsimp only at hbefore
      refine ⟨by omega, ?_⟩
      rintro seconds' ⟨⟩
      omega

theorem onTime_of_fresh (h : CacheBacked run) (hclocks : InStep run call) (hfresh : Fresh run call) : OnTime run call := by
  cases call with
  | set call next => trivial
  | get token now wall =>
    intro hmem call hlast
    by_cases hend : call.storedEnd run.cache.ttl < now
    · exact .inr hend
    · obtain ⟨call', hlast', -, httl, hexps⟩ := hfresh call.payload
        ((get_eq_some_iff h).mpr ⟨hmem, call, hlast, rfl, Nat.le_of_not_lt hend⟩)
      obtain rfl := Option.some.inj (hlast.symm.trans hlast')
      have hwall := hclocks call hlast
      unfold CacheSet.endsAt
      cases hexp : call.exp with
      | none =>
        dsimp only
        omega
      | some seconds =>
        have hseconds := hexps seconds hexp
        dsimp only
        omega

/-- **What is served is fresh** in every run whose calls come on time and whose wall clock does not run ahead of the
monotonic one; and if the two advance alike, exactly if the calls come on time. -/
theorem introspection_fresh (P : Type) (horizon ttl capacity : ℕ) (calls : List (CacheCall P)) :
    ((∀ x ∈ (cacheCalls P horizon).steps (.start P ttl capacity) calls, NotAhead x.1 x.2 ∧ OnTime x.1 x.2) →
      ∀ x ∈ (cacheCalls P horizon).steps (.start P ttl capacity) calls, Fresh x.1 x.2) ∧
    ((∀ x ∈ (cacheCalls P horizon).steps (.start P ttl capacity) calls, InStep x.1 x.2) →
      ((∀ x ∈ (cacheCalls P horizon).steps (.start P ttl capacity) calls, Fresh x.1 x.2) ↔
        ∀ x ∈ (cacheCalls P horizon).steps (.start P ttl capacity) calls, OnTime x.1 x.2)) := by
  have hbacked : ∀ x ∈ (cacheCalls P horizon).steps (.start P ttl capacity) calls, CacheBacked x.1 := fun x hx =>
    System.forall_trace cacheBacked_step (cacheBacked_start ttl capacity) x.1 (System.mem_trace_of_mem_steps hx)
  have hserved : ∀ x ∈ (cacheCalls P horizon).steps (.start P ttl capacity) calls, NotAhead x.1 x.2 →
      OnTime x.1 x.2 → Fresh x.1 x.2 := by
    intro x hx hclocks hontime
    obtain ⟨run', hstep⟩ := System.exists_step_of_mem_steps hx
    exact fresh_of_onTime hstep (hbacked x hx) hclocks hontime
  refine ⟨fun h x hx => hserved x hx (h x hx).1 (h x hx).2, fun hclocks => ⟨fun h x hx => ?_, fun h x hx => ?_⟩⟩
  · exact onTime_of_fresh (hbacked x hx) (hclocks x hx) (h x hx)
  · refine hserved x hx ?_ (h x hx)
    obtain ⟨run, call⟩ := x
    cases call with
    | set call next => trivial
    | get token now wall => exact fun call hcall => (hclocks _ hx call hcall).le

end Runs

/-- A payload that is set in the first second of the epoch with a claim of three seconds. -/
def timelyCacheCalls : List (CacheCall Unit) :=
  [.set ⟨"t", (), some 3, 500000000, 0⟩ none, .get "t" 2000000000 2500000000]

/-- It is served two seconds later, and fresh. -/
theorem introspection_fresh_timely :
    (∃ x ∈ (cacheCalls Unit 9000000000000000000).steps (.start Unit 60000000000 16) timelyCacheCalls,
      x.2 = .get "t" 2000000000 2500000000 ∧ x.1.cache.get "t" 2000000000 = some ()) ∧
    ∀ x ∈ (cacheCalls Unit 9000000000000000000).steps (.start Unit 60000000000 16) timelyCacheCalls, Fresh x.1 x.2 :=
  ⟨by decide,
    (introspection_fresh Unit 9000000000000000000 60000000000 16 timelyCacheCalls).1 (by decide)⟩

/-- A claim that is past when it is set, as good as none. -/
def expiredCalls : List (CacheCall Unit) :=
  [.set ⟨"t", (), some 5, 10000000000, 0⟩ none, .get "t" 1000000000 11000000000]

theorem expired_served :
    ¬∀ x ∈ (cacheCalls Unit 9000000000000000000).steps (.start Unit 60000000000 16) expiredCalls, Fresh x.1 x.2 := by
  intro h
  have hserved : ∃ x ∈ (cacheCalls Unit 9000000000000000000).steps (.start Unit 60000000000 16) expiredCalls,
      x.2 = .get "t" 1000000000 11000000000 ∧ x.1.cache.get "t" 1000000000 = some () ∧
        x.1.lastSet "t" = some ⟨"t", (), some 5, 10000000000, 0⟩ := by decide
  obtain ⟨⟨run, call⟩, hx, rfl, hget, hlast⟩ := hserved
  obtain ⟨call, hlast', -, -, hexp⟩ := h _ hx () hget
  obtain rfl := Option.some.inj (hlast.symm.trans hlast')
  exact absurd (hexp 5 rfl).1 (by decide)

end McpToolkit.Auth
