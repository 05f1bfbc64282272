import McpToolkit.Lib.System
import McpToolkit.Lib.Table
import McpToolkit.Lib.Word

/-!
# McpToolkit.Auth.Replay — the cache of token identifiers

`JtiCache` of `replay.rs`.  Instants and durations are numbers of nanoseconds, up to `horizon`, where
an addition panics.  `HashMap` has no order: the key that `keys().next()` yields is an argument of
`seen`, and a run may give any key of the map.  The store behind the mutex reads the clock under its lock, so the calls of all threads are one
sequence with instants that do not decrease.

A run keeps the log of what was recorded.  The entries are part of the log (`Backed`), and detection
works as long as everything recent in the log has its entry (`Tracks`).  A step keeps that exactly if
it evicts no entry that is still valid; expired entries stay in the map until the next hundredth call,
so an eviction can come early and meet a valid one.
-/

namespace McpToolkit.Auth

open List Finmap
open Lib
open Lib.Word (addDuration)

structure JtiCache where
  ttl : ℕ
  capacity : ℕ
  entries : Finmap fun _ : String => ℕ
  callsSincePrune : ℕ

namespace JtiCache

def new (ttl capacity : ℕ) : JtiCache := ⟨ttl, capacity, ∅, 0⟩

/-- The head of `seen`: every hundredth call drops the expired entries. -/
def prune (cache : JtiCache) (now : ℕ) : JtiCache :=
  if 100 ≤ cache.callsSincePrune + 1 then
    { cache with entries := Table.retain (fun _ expiry => now < expiry) cache.entries, callsSincePrune := 0 }
  else { cache with callsSincePrune := cache.callsSincePrune + 1 }

/-- The eviction in `seen`. -/
def makeRoom (cache : JtiCache) (next : Option String) : Finmap fun _ : String => ℕ :=
  if cache.capacity ≤ cache.entries.keys.card then
    match next with
    | some key => cache.entries.erase key
    | none => cache.entries
  else cache.entries

/-- The cache with an entry for the identifier. -/
def inserted (cache : JtiCache) (jti : String) (now : ℕ) (next : Option String) : JtiCache :=
  { cache with entries := (cache.makeRoom next).insert jti (now + cache.ttl) }

/-- The end of `seen`; there is no cache behind a panic. -/
def record (cache : JtiCache) (horizon : ℕ) (jti : String) (now : ℕ) (next : Option String) : Option (Bool × JtiCache) :=
  (addDuration horizon now cache.ttl).map fun _ => (false, cache.inserted jti now next)

def seen (cache : JtiCache) (horizon : ℕ) (jti : String) (now : ℕ) (next : Option String) : Option (Bool × JtiCache) :=
  let cache := cache.prune now
  match cache.entries.lookup jti with
  | some expiry =>
    if now < expiry then some (true, cache)
    else { cache with entries := cache.entries.erase jti }.record horizon jti now next
  | none => cache.record horizon jti now next

end JtiCache

/-- A call of `seen`, with the instant it reads and the key that the map yields first. -/
structure SeenCall where
  jti : String
  now : ℕ
  next : Option String
  deriving DecidableEq

/-- A key that an iteration over the map can yield first. -/
def Yields (entries : Finmap fun _ : String => ℕ) : Option String → Prop
  | some key => key ∈ entries
  | none => entries.keys = ∅

instance (entries : Finmap fun _ : String => ℕ) : DecidablePred (Yields entries)
  | some key => inferInstanceAs (Decidable (key ∈ entries))
  | none => inferInstanceAs (Decidable (entries.keys = ∅))

namespace JtiCache

/-- The cache has an entry that has not expired. -/
def valid (cache : JtiCache) (jti : String) (now : ℕ) : Bool :=
  (cache.entries.lookup jti).any fun expiry => now < expiry

/-- The cache when room is made for an identifier: pruned, and without an entry for it. -/
def cleared (cache : JtiCache) (jti : String) (now : ℕ) : JtiCache :=
  { cache.prune now with entries := (cache.prune now).entries.erase jti }

/-- The expiry of the entry that a call evicts.  A call whose identifier has a valid entry evicts
nothing. -/
def evicted (cache : JtiCache) (call : SeenCall) : Option ℕ :=
  if cache.valid call.jti call.now then none
  else
    let cache := cache.cleared call.jti call.now
    if cache.capacity ≤ cache.entries.keys.card then call.next.bind cache.entries.lookup else none

end JtiCache

/-- The cache, what was recorded and when, and the instant of the last call. -/
structure JtiRun where
  cache : JtiCache
  log : List (String × ℕ)
  clock : ℕ

def JtiRun.start (ttl capacity : ℕ) : JtiRun := ⟨.new ttl capacity, [], 0⟩

def jtiCalls (horizon : ℕ) : System JtiRun SeenCall where
  step run call :=
    if run.clock ≤ call.now ∧ Yields (run.cache.cleared call.jti call.now).entries call.next then
      (run.cache.seen horizon call.jti call.now call.next).map fun out =>
        ⟨out.2, if out.1 then run.log else run.log ++ [(call.jti, call.now)], call.now⟩
    else none

/-! ### One call -/

namespace JtiCache

variable {cache : JtiCache} {horizon : ℕ} {jti : String} {now expiry : ℕ}

theorem valid_iff : cache.valid jti now = true ↔ ∃ expiry, cache.entries.lookup jti = some expiry ∧ now < expiry := by
  rw [valid, Option.any_eq_true]
  simp only [decide_eq_true_eq]

@[simp] theorem prune_ttl : (cache.prune now).ttl = cache.ttl := by
  unfold prune; split_ifs <;> rfl

@[simp] theorem prune_capacity : (cache.prune now).capacity = cache.capacity := by
  unfold prune; split_ifs <;> rfl

theorem lookup_of_lookup_prune (h : (cache.prune now).entries.lookup jti = some expiry) :
    cache.entries.lookup jti = some expiry := by
  unfold prune at h
  split_ifs at h
  · exact Table.lookup_of_retain h
  · exact h

theorem lookup_prune_of_lt (h : cache.entries.lookup jti = some expiry) (hlt : now < expiry) :
    (cache.prune now).entries.lookup jti = some expiry := by
  unfold prune
  split_ifs
  · exact Table.lookup_retain_eq_some.mpr ⟨h, decide_eq_true hlt⟩
  · exact h

theorem card_prune_le : (cache.prune now).entries.keys.card ≤ cache.entries.keys.card := by
  unfold prune
  split_ifs
  · exact Table.card_retain_le
  · exact le_rfl

theorem erase_eq_self {entries : Finmap fun _ : String => ℕ} (h : entries.lookup jti = none) :
    entries.erase jti = entries := by
  refine ext_lookup fun key => ?_
  by_cases hkey : key = jti
  · rw [hkey, lookup_erase, h]
  · rw [lookup_erase_ne hkey]

theorem seen_of_valid (h : cache.valid jti now = true) (next : Option String) :
    cache.seen horizon jti now next = some (true, cache.prune now) := by
  obtain ⟨expiry, hlook, hlt⟩ := valid_iff.mp h
  rw [seen]
  simp only [lookup_prune_of_lt hlook hlt]
  rw [if_pos hlt]

theorem seen_of_not_valid (h : ¬cache.valid jti now = true) (next : Option String) :
    cache.seen horizon jti now next = (cache.cleared jti now).record horizon jti now next := by
  unfold seen cleared
  dsimp only
  cases hlook : (cache.prune now).entries.lookup jti with
  | none =>
    rw [erase_eq_self hlook]
  | some expiry =>
    have hnot : ¬now < expiry := fun hlt => h (valid_iff.mpr ⟨expiry, lookup_of_lookup_prune hlook, hlt⟩)
    dsimp only
    rw [if_neg hnot]

/-- **The answer of a call.** -/
theorem seen_eq_true (next : Option String) :
    (cache.seen horizon jti now next).map Prod.fst = some true ↔ cache.valid jti now = true := by
  by_cases h : cache.valid jti now = true
  · rw [seen_of_valid h]
    exact iff_of_true rfl h
  · rw [seen_of_not_valid h, record, Option.map_map]
    refine iff_of_false (fun heq => ?_) h
    obtain ⟨expiry, -, hfalse⟩ := Option.map_eq_some_iff.mp heq
    cases hfalse

theorem lookup_makeRoom (next : Option String) (key : String) : (cache.makeRoom next).lookup key =
      if cache.capacity ≤ cache.entries.keys.card ∧ next = some key then none else cache.entries.lookup key := by
  unfold makeRoom
  by_cases hfull : cache.capacity ≤ cache.entries.keys.card
  · rw [if_pos hfull]
    cases next with
    | none => rw [if_neg (by simp)]
    | some victim =>
      by_cases hkey : key = victim
      · rw [if_pos ⟨hfull, congrArg some hkey.symm⟩, hkey]
        exact lookup_erase _ _
      · rw [if_neg fun h => hkey (Option.some.inj h.2).symm]
        exact lookup_erase_ne hkey
  · rw [if_neg hfull, if_neg fun h => hfull h.1]

theorem card_makeRoom_lt {next : Option String} (hpos : 0 < cache.capacity)
    (hsize : cache.entries.keys.card ≤ cache.capacity) (hnext : Yields cache.entries next) :
    (cache.makeRoom next).keys.card < cache.capacity := by
  unfold makeRoom
  split_ifs with hfull
  · cases next with
    | none =>
      have hempty : cache.entries.keys.card = 0 := Finset.card_eq_zero.mpr hnext
      omega
    | some key =>
      rw [keys_erase, Finset.card_erase_of_mem (mem_keys.mpr hnext)]
      omega
  · omega

theorem lookup_inserted {next : Option String} {key : String} (hkey : key ≠ jti) :
    ((cache.cleared jti now).inserted jti now next).entries.lookup key =
      if (cache.cleared jti now).capacity ≤ (cache.cleared jti now).entries.keys.card ∧ next = some key then
        none
      else (cache.prune now).entries.lookup key := by
  dsimp only [inserted]
  rw [lookup_insert_of_ne _ hkey, lookup_makeRoom, cleared, lookup_erase_ne hkey]

theorem evicted_eq_some {call : SeenCall} : cache.evicted call = some expiry ↔ ¬cache.valid call.jti call.now = true ∧
        (cache.cleared call.jti call.now).capacity ≤ (cache.cleared call.jti call.now).entries.keys.card ∧
          ∃ key, call.next = some key ∧ key ≠ call.jti ∧ (cache.prune call.now).entries.lookup key = some expiry := by
  unfold evicted
  rw [Option.ite_none_left_eq_some, Option.ite_none_right_eq_some, Option.bind_eq_some_iff]
  refine and_congr_right fun _ => and_congr_right fun _ => exists_congr fun key => and_congr_right fun _ => ?_
  rw [cleared]
  by_cases hkey : key = call.jti
  · rw [hkey]
    simp
  · simp [hkey]

theorem card_cleared_le : (cache.cleared jti now).entries.keys.card ≤ cache.entries.keys.card := by
  have herase : (cache.cleared jti now).entries.keys.card ≤ (cache.prune now).entries.keys.card := by
    rw [cleared, keys_erase]
    exact Finset.card_erase_le
  exact herase.trans card_prune_le

end JtiCache

variable {horizon : ℕ} {run : JtiRun} {ttl : ℕ} {run' : JtiRun} {call : SeenCall} {capacity : ℕ}

theorem jtiCalls_step_cases (h : (jtiCalls horizon).step run call = some run') :
    run.clock ≤ call.now ∧ Yields (run.cache.cleared call.jti call.now).entries call.next ∧
      (run.cache.valid call.jti call.now = true ∧ run' = ⟨run.cache.prune call.now, run.log, call.now⟩ ∨
        ¬run.cache.valid call.jti call.now = true ∧
          run' = ⟨(run.cache.cleared call.jti call.now).inserted call.jti call.now call.next,
            run.log ++ [(call.jti, call.now)], call.now⟩) := by
  obtain ⟨⟨hclock, hnext⟩, h⟩ := Option.ite_none_right_eq_some.mp h
  obtain ⟨out, hout, rfl⟩ := Option.map_eq_some_iff.mp h
  refine ⟨hclock, hnext, ?_⟩
  by_cases hv : run.cache.valid call.jti call.now = true
  · rw [JtiCache.seen_of_valid hv] at hout
    cases hout
    exact .inl ⟨hv, rfl⟩
  · rw [JtiCache.seen_of_not_valid hv] at hout
    obtain ⟨expiry, -, rfl⟩ := Option.map_eq_some_iff.mp hout
    exact .inr ⟨hv, rfl⟩

/-! ### The entries and the log -/

/-- What holds in every run: an entry stands for a recording, and there are no more than the capacity
allows. -/
structure Backed (ttl capacity : ℕ) (run : JtiRun) : Prop where
  ttl_eq : run.cache.ttl = ttl
  capacity_eq : run.cache.capacity = capacity
  recorded : ∀ jti expiry, run.cache.entries.lookup jti = some expiry →
    ∃ since, (jti, since) ∈ run.log ∧ expiry = since + ttl
  past : ∀ x ∈ run.log, x.2 ≤ run.clock
  size : run.cache.entries.keys.card ≤ capacity

/-- Everything that was recorded and has not expired has a valid entry. -/
def Tracks (ttl : ℕ) (run : JtiRun) : Prop :=
  ∀ jti since, (jti, since) ∈ run.log → run.clock < since + ttl →
    ∃ expiry, run.cache.entries.lookup jti = some expiry ∧ since + ttl ≤ expiry

theorem Backed.start : Backed ttl capacity (.start ttl capacity) where
  ttl_eq := rfl
  capacity_eq := rfl
  recorded jti expiry h := by
    have hnone : (∅ : Finmap fun _ : String => ℕ).lookup jti = none := lookup_empty jti
    exact absurd (hnone.symm.trans h) (by simp)
  past x hx := absurd hx not_mem_nil
  size := Nat.zero_le _

theorem Backed.step (hpos : 0 < capacity)
    (hstep : (jtiCalls horizon).step run call = some run') (h : Backed ttl capacity run) :
    Backed ttl capacity run' := by
  obtain ⟨hclock, hnext, ⟨-, rfl⟩ | ⟨-, rfl⟩⟩ := jtiCalls_step_cases hstep
  · refine ⟨?_, ?_, fun jti expiry hlook => ?_, fun x hx => (h.past x hx).trans hclock, ?_⟩
    · rw [JtiCache.prune_ttl, h.ttl_eq]
    · rw [JtiCache.prune_capacity, h.capacity_eq]
    · exact h.recorded jti expiry (JtiCache.lookup_of_lookup_prune hlook)
    · exact JtiCache.card_prune_le.trans h.size
  · have hcap : (run.cache.cleared call.jti call.now).capacity = capacity := by
      rw [JtiCache.cleared, JtiCache.prune_capacity, h.capacity_eq]
    have httl : (run.cache.cleared call.jti call.now).ttl = ttl := by
      rw [JtiCache.cleared, JtiCache.prune_ttl, h.ttl_eq]
    refine ⟨httl, hcap, fun jti expiry hlook => ?_, fun x hx => ?_, ?_⟩
    · by_cases hjti : jti = call.jti
      · rw [JtiCache.inserted, hjti, lookup_insert, Option.some.injEq, httl] at hlook
        exact ⟨call.now, mem_append_right _ (by simp [hjti]), hlook.symm⟩
      · rw [JtiCache.lookup_inserted hjti] at hlook
        split_ifs at hlook
        obtain ⟨since, hmem, heq⟩ := h.recorded jti expiry (JtiCache.lookup_of_lookup_prune hlook)
        exact ⟨since, mem_append_left _ hmem, heq⟩
    · rcases mem_append.mp hx with hx | hx
      · exact (h.past x hx).trans hclock
      · rw [mem_singleton.mp hx]
    · have hroom := JtiCache.card_makeRoom_lt (hcap ▸ hpos)
        ((JtiCache.card_cleared_le.trans h.size).trans hcap.ge) hnext
      dsimp only [JtiCache.inserted]
      rw [Index.keys_insert]
      have hinsert := Finset.card_insert_le call.jti
        ((run.cache.cleared call.jti call.now).makeRoom call.next).keys
      omega

/-! ### Detection -/

/-- From here on, a call for an identifier that was recorded less than `ttl` before it is answered
with `true`. -/
def Detects (horizon ttl : ℕ) (run : JtiRun) : Prop :=
  ∀ jti since now next, (jti, since) ∈ run.log → run.clock ≤ now → now < since + ttl →
    (run.cache.seen horizon jti now next).map Prod.fst = some true

theorem detects_iff_tracks : Detects horizon ttl run ↔ Tracks ttl run := by
  constructor
  · intro h jti since hmem hclock
    -- asked at the last instant at which the recording counts
    have hseen := h jti since (since + ttl - 1) none hmem (by omega) (by omega)
    obtain ⟨expiry, hlook, hlt⟩ := JtiCache.valid_iff.mp ((JtiCache.seen_eq_true none).mp hseen)
    exact ⟨expiry, hlook, by omega⟩
  · intro h jti since now next hmem hclock hnow
    obtain ⟨expiry, hlook, hle⟩ := h jti since hmem (by omega)
    exact (JtiCache.seen_eq_true next).mpr (JtiCache.valid_iff.mpr ⟨expiry, hlook, by omega⟩)

/-- A call evicts no entry that has not expired. -/
def EvictsExpired (run : JtiRun) (call : SeenCall) : Prop :=
  ∀ expiry ∈ run.cache.evicted call, expiry ≤ call.now

instance (run : JtiRun) (call : SeenCall) : Decidable (EvictsExpired run call) :=
  inferInstanceAs (Decidable (∀ expiry ∈ run.cache.evicted call, expiry ≤ call.now))

theorem Tracks.lookup_prune (h : Tracks ttl run) {jti : String} {since now : ℕ}
    (hclock : run.clock ≤ now) (hmem : (jti, since) ∈ run.log) (hnow : now < since + ttl) :
    ∃ expiry, (run.cache.prune now).entries.lookup jti = some expiry ∧ since + ttl ≤ expiry := by
  obtain ⟨expiry, hlook, hle⟩ := h jti since hmem (by omega)
  exact ⟨expiry, JtiCache.lookup_prune_of_lt hlook (by omega), hle⟩

theorem Tracks.step_iff
    (hstep : (jtiCalls horizon).step run call = some run') (hb : Backed ttl capacity run) (h : Tracks ttl run) :
    Tracks ttl run' ↔ EvictsExpired run call := by
  obtain ⟨hclock, hnext, ⟨hv, rfl⟩ | ⟨hv, rfl⟩⟩ := jtiCalls_step_cases hstep
  · have hnone : run.cache.evicted call = none := if_pos hv
    refine iff_of_true (fun jti since hmem hnow => h.lookup_prune hclock hmem hnow) ?_
    intro expiry hexpiry
    rw [hnone] at hexpiry
    cases hexpiry
  · constructor
    · intro htracks expiry hexpiry
      obtain ⟨-, hfull, key, hkey, hne, hlook⟩ := JtiCache.evicted_eq_some.mp hexpiry
      obtain ⟨since, hmem, heq⟩ := hb.recorded key expiry (JtiCache.lookup_of_lookup_prune hlook)
      by_contra hlt
      have hrecent : call.now < since + ttl := heq ▸ not_le.mp hlt
      obtain ⟨expiry', hlook', -⟩ := htracks key since (mem_append_left _ hmem) hrecent
      rw [JtiCache.lookup_inserted hne, if_pos ⟨hfull, hkey⟩] at hlook'
      cases hlook'
    · intro hevicts key since hmem hnow
      by_cases hkey : key = call.jti
      · have hsince : since ≤ call.now := by
          rcases mem_append.mp hmem with hmem | hmem
          · exact (hb.past _ hmem).trans hclock
          · exact (Prod.mk.inj (mem_singleton.mp hmem)).2.le
        refine ⟨call.now + ttl, ?_, by omega⟩
        rw [hkey, JtiCache.inserted, lookup_insert, JtiCache.cleared, JtiCache.prune_ttl, hb.ttl_eq]
      · have hold : (key, since) ∈ run.log := by
          rcases mem_append.mp hmem with hmem | hmem
          · exact hmem
          · exact absurd (Prod.mk.inj (mem_singleton.mp hmem)).1 hkey
        obtain ⟨expiry, hlook, hle⟩ := h.lookup_prune hclock hold hnow
        refine ⟨expiry, ?_, hle⟩
        rw [JtiCache.lookup_inserted hkey, if_neg ?_, hlook]
        rintro ⟨hfull, hvictim⟩
        have hexpired := hevicts expiry (JtiCache.evicted_eq_some.mpr ⟨hv, hfull, key, hvictim, hkey, hlook⟩)
        dsimp only at hnow
        omega

/-- **Replay detection and the capacity.**  In every run, the cache never has more entries than its
capacity.  And detection works in every state of the run, exactly if no call of the run evicts an
entry that has not expired. -/
theorem jtiCache_detects_iff (horizon ttl : ℕ) {capacity : ℕ} (hpos : 0 < capacity) (calls : List SeenCall) :
    (∀ run ∈ (jtiCalls horizon).trace (.start ttl capacity) calls, run.cache.entries.keys.card ≤ capacity) ∧
      ((∀ run ∈ (jtiCalls horizon).trace (.start ttl capacity) calls, Detects horizon ttl run) ↔
        ∀ x ∈ (jtiCalls horizon).steps (.start ttl capacity) calls, EvictsExpired x.1 x.2) := by
  have hempty : Tracks ttl (.start ttl capacity) := fun _ _ hmem => absurd hmem not_mem_nil
  constructor
  · intro run hrun
    exact (System.forall_trace (J := Backed ttl capacity) (Backed.step hpos) Backed.start run hrun).size
  · refine System.forall_trace_iff (J := Backed ttl capacity) (Backed.step hpos) ?_ Backed.start
      (detects_iff_tracks.mpr hempty)
    intro run call run' hstep hb hd
    rw [detects_iff_tracks] at hd ⊢
    exact Tracks.step_iff hstep hb hd

/-- The identifiers that were recorded less than `ttl` before an instant. -/
def JtiRun.recent (run : JtiRun) (ttl now : ℕ) : Finset String :=
  ((run.log.filter fun x => now < x.2 + ttl).map Prod.fst).toFinset

theorem JtiRun.recent_anti (run : JtiRun) (ttl : ℕ) {now later : ℕ} (h : now ≤ later) :
    run.recent ttl later ⊆ run.recent ttl now := by
  intro jti hjti
  simp only [recent, mem_toFinset, mem_map, mem_filter, decide_eq_true_eq] at hjti ⊢
  obtain ⟨x, ⟨hx, hlt⟩, rfl⟩ := hjti
  exact ⟨x, ⟨hx, by omega⟩, rfl⟩

/-- `a` has expired when `b` and `c` are recorded, but it still has its entry: the cache is full, and
`b` is evicted. -/
def staleCalls : List SeenCall := [⟨"a", 0, none⟩, ⟨"b", 2, some "a"⟩, ⟨"c", 2, some "b"⟩, ⟨"b", 3, some "a"⟩]

/-- At no time more than two identifiers are recent, the capacity; and the second `b` is not
detected. -/
theorem jtiCache_misses_replay :
    (∀ run ∈ (jtiCalls 9).trace (.start 2 2) staleCalls, ∀ now, run.clock ≤ now → (run.recent 2 now).card ≤ 2) ∧
      ¬∀ run ∈ (jtiCalls 9).trace (.start 2 2) staleCalls, Detects 9 2 run := by
  constructor
  · have hclock : ∀ run ∈ (jtiCalls 9).trace (.start 2 2) staleCalls, (run.recent 2 run.clock).card ≤ 2 := by
      decide
    intro run hrun now hnow
    exact (Finset.card_le_card (run.recent_anti 2 hnow)).trans (hclock run hrun)
  · intro h
    have hmissed : ∃ run ∈ (jtiCalls 9).trace (.start 2 2) staleCalls,
        ("b", 2) ∈ run.log ∧ run.clock ≤ 3 ∧ (run.cache.seen 9 "b" 3 (some "a")).map Prod.fst = some false := by decide
    obtain ⟨run, hrun, hmem, hclock, hseen⟩ := hmissed
    have hdetected := h run hrun "b" 2 3 (some "a") hmem hclock (by decide)
    rw [hseen] at hdetected
    cases hdetected

/-- The same calls, with the expired entry evicted. -/
def timelyCalls : List SeenCall := [⟨"a", 0, none⟩, ⟨"b", 2, some "a"⟩, ⟨"c", 2, some "a"⟩, ⟨"b", 3, some "c"⟩]

theorem jtiCache_detects_repetition : ((jtiCalls 9).steps (.start 2 2) timelyCalls).length = 4 ∧
      ∀ run ∈ (jtiCalls 9).trace (.start 2 2) timelyCalls, Detects 9 2 run :=
  ⟨by decide, (jtiCache_detects_iff 9 2 (by decide) timelyCalls).2.mpr (by decide)⟩

end McpToolkit.Auth
