import Mathlib.Data.List.Chain
import Mathlib.Data.List.Nodup
import Mathlib.Data.Nat.Find
import Mathlib.Order.BooleanAlgebra.Basic
import McpToolkit.Lib.System
import McpToolkit.Lib.Text

/-!
# McpToolkit.Tasks.History — operation summaries

`OperationHistory` of `history.rs`.  The partitions of all principals are one list of entries, each
with its partition: a map has no order, and within a partition the order is that of the list.  Which
of several entries that finished at the same instant is evicted, the map's order says (`choice`).

A call of `record` reads the authority first and inserts under the lock later, so a run numbers the
calls in the order in which they read.  `progress` is what a summary says of how far its task got.
The authority is anything whose snapshots of a task never go back.
-/

namespace McpToolkit.Tasks.History

open List
open Lib
open Lib.Text (utf8Length)

inductive OperationState
  | working
  | inputRequired
  | completed
  | failed
  | cancelled
  deriving DecidableEq

def OperationState.terminal : OperationState → Bool
  | .completed | .failed | .cancelled => true
  | .working | .inputRequired => false

/-- `rmcp::model::TaskStatus`, which may get further members. -/
inductive TaskStatus
  | working
  | inputRequired
  | completed
  | failed
  | cancelled
  | other
  deriving DecidableEq

def TaskStatus.operationState : TaskStatus → Option OperationState
  | .working => some .working
  | .inputRequired => some .inputRequired
  | .completed => some .completed
  | .failed => some .failed
  | .cancelled => some .cancelled
  | .other => none

inductive OperationKind
  | task
  deriving DecidableEq

structure OperationSummary where
  operationId : List Char
  kind : OperationKind
  state : OperationState
  createdAt : List Char
  startedAt : Option (List Char)
  lastUpdatedAt : List Char
  finishedAt : Option (List Char)
  revision : ℕ
  deriving DecidableEq

/-- What the authority answers about a task. -/
structure TaskSnapshot where
  status : TaskStatus
  createdAt : List Char
  lastUpdatedAt : List Char
  revision : ℕ
  deriving DecidableEq

structure HistoryLimits where
  maxEntries : ℕ
  maxTerminalAge : ℕ
  deriving DecidableEq

inductive HistoryError
  | capacityFull
  | stateUnavailable
  | invalidSummary
  deriving DecidableEq

structure Stored where
  partition : List Char
  summary : OperationSummary
  terminalAt : Option ℕ
  deriving DecidableEq

/-- The principal and the task. -/
abbrev OperationKey := List Char × List Char

def Stored.key (item : Stored) : OperationKey := (item.partition, item.summary.operationId)

/-- The first part of `record`: the summary of what the authority answered. -/
def summarize (operationId : List Char) (snapshot : TaskSnapshot) : Except HistoryError OperationSummary :=
  match snapshot.status.operationState with
  | none => .error .stateUnavailable
  | some state =>
    let summary : OperationSummary := {
      operationId := operationId
      kind := .task
      state := state
      createdAt := snapshot.createdAt
      startedAt := none
      lastUpdatedAt := snapshot.lastUpdatedAt
      finishedAt := if state.terminal then some snapshot.lastUpdatedAt else none
      revision := snapshot.revision }
    if summary.operationId.isEmpty || 256 < summary.operationId.length || summary.createdAt.isEmpty ||
        64 < utf8Length summary.createdAt || summary.lastUpdatedAt.isEmpty ||
        64 < utf8Length summary.lastUpdatedAt then
      .error .invalidSummary
    else .ok summary

def isVisible (item : Stored) (now maxTerminalAge : ℕ) : Bool :=
  item.terminalAt.all fun since => now - since < maxTerminalAge

def pruneExpired (entries : List Stored) (now maxTerminalAge : ℕ) : List Stored :=
  entries.filter fun item => isVisible item now maxTerminalAge

/-- The entries that finished first. -/
def oldestTerminal (entries : List Stored) : List Stored :=
  entries.filter fun item =>
    item.terminalAt.any fun since => entries.all fun other => other.terminalAt.all fun later => since ≤ later

def evictOldest (entries : List Stored) (choice : ℕ) : Option (List Stored) :=
  (oldestTerminal entries)[choice % (oldestTerminal entries).length]?.map entries.erase

def push (entries : List Stored) (partition : List Char) (summary : OperationSummary) (now : ℕ) : List Stored :=
  entries ++ [⟨partition, summary, if summary.state.terminal then some now else none⟩]

/-- `insert`, under the lock. -/
def insert (limits : HistoryLimits) (entries : List Stored) (partition : List Char) (summary : OperationSummary)
    (now choice : ℕ) : Except HistoryError Unit × List Stored :=
  let entries := pruneExpired entries now limits.maxTerminalAge
  match entries.find? fun item => item.key = (partition, summary.operationId) with
  | some item =>
    (.ok (), entries.erase item ++
      [⟨partition, summary, if summary.state.terminal then item.terminalAt.or (some now) else none⟩])
  | none =>
    if limits.maxEntries ≤ entries.length then
      match evictOldest entries choice with
      | some entries => (.ok (), push entries partition summary now)
      | none => (.error .capacityFull, entries)
    else (.ok (), push entries partition summary now)

def get (limits : HistoryLimits) (entries : List Stored) (principal operationId : List Char) (now : ℕ) :
    Option OperationSummary :=
  (entries.find? fun item =>
    item.key = (principal, operationId) && isVisible item now limits.maxTerminalAge).map Stored.summary

def list (limits : HistoryLimits) (entries : List Stored) (principal : List Char) (limit now : ℕ) :
    List OperationSummary :=
  (((entries.filter fun item => item.partition = principal).reverse.filter fun item =>
    isVisible item now limits.maxTerminalAge).take limit).map Stored.summary

/-! ### Runs -/

/-- How far the task got: the revision, and whether it has finished. -/
def OperationSummary.progress (summary : OperationSummary) : ℕ × Bool :=
  (summary.revision, summary.state.terminal)

def TaskSnapshot.progress (snapshot : TaskSnapshot) : ℕ × Bool :=
  (snapshot.revision, snapshot.status.operationState.any OperationState.terminal)

inductive CallPhase
  | read
  | stored
  | refused
  deriving DecidableEq

/-- A call of `record` that has read the authority. -/
structure RecordCall where
  partition : List Char
  summary : OperationSummary
  phase : CallPhase
  deriving DecidableEq

def RecordCall.key (call : RecordCall) : OperationKey := (call.partition, call.summary.operationId)

structure HistoryRun where
  entries : List Stored
  authority : OperationKey → Option TaskSnapshot
  calls : List RecordCall
  clock : ℕ

/-- A call that the authority refuses changes nothing, and neither do `get` and `list`. -/
inductive HistoryEvent
  | update (key : OperationKey) (snapshot : TaskSnapshot)
  | read (key : OperationKey)
  | insert (call now choice : ℕ)
  deriving DecidableEq

def HistoryRun.start : HistoryRun := ⟨[], fun _ => none, [], 0⟩

def recording (limits : HistoryLimits) : System HistoryRun HistoryEvent where
  step run event :=
    match event with
    | .update key snapshot =>
      if (run.authority key).all (fun old => old.progress ≤ snapshot.progress) then
        some { run with authority := Function.update run.authority key (some snapshot) }
      else none
    | .read key =>
      match run.authority key with
      | none => none
      | some snapshot =>
        match summarize key.2 snapshot with
        | .error _ => some run
        | .ok summary => some { run with calls := run.calls ++ [⟨key.1, summary, .read⟩] }
    | .insert i now choice =>
      match run.calls[i]? with
      | none => none
      | some call =>
        if call.phase = .read ∧ run.clock ≤ now then
          match insert limits run.entries call.partition call.summary now choice with
          | (.ok (), entries) =>
            some { run with
              entries := entries
              calls := run.calls.set i { call with phase := .stored }
              clock := now }
          | (.error _, entries) =>
            some { run with
              entries := entries
              calls := run.calls.set i { call with phase := .refused }
              clock := now }
        else none

/-- What is stored later for an operation is as far as what was stored before. -/
def Advances (run later : HistoryRun) : Prop :=
  ∀ item ∈ run.entries, ∀ item' ∈ later.entries, item.key = item'.key →
    item.summary.progress ≤ item'.summary.progress

/-- A finished operation keeps its terminal age until it expires. -/
def KeepsAge (limits : HistoryLimits) (run next : HistoryRun) : Prop :=
  ∀ item ∈ run.entries, isVisible item next.clock limits.maxTerminalAge = true →
    ∀ item' ∈ next.entries, item.key = item'.key → ∀ since ∈ item.terminalAt, item'.terminalAt = some since

/-! ### One insertion -/

section Insert

variable {limits : HistoryLimits} {entries : List Stored} {now choice : ℕ}

/-- There is an entry to replace, room for another one, or an entry to evict. -/
def Storable (limits : HistoryLimits) (entries : List Stored) (key : OperationKey) (now : ℕ) : Prop :=
  let kept := pruneExpired entries now limits.maxTerminalAge
  (∃ item ∈ kept, item.key = key) ∨ kept.length < limits.maxEntries ∨ ∃ item ∈ kept, item.terminalAt.isSome

variable {kept : List Stored}

theorem nodup_of_sublist (hkeys : (entries.map Stored.key).Nodup)
    (h : kept.Sublist entries) : (kept.map Stored.key).Nodup :=
  hkeys.sublist (h.map Stored.key)

theorem oldestTerminal_ne_nil (h : ∃ item ∈ entries, item.terminalAt.isSome) : oldestTerminal entries ≠ [] := by
  have hex : ∃ since, ∃ item ∈ entries, item.terminalAt = some since := by
    obtain ⟨item, hitem, hsome⟩ := h
    obtain ⟨since, hsince⟩ := Option.isSome_iff_exists.mp hsome
    exact ⟨since, item, hitem, hsince⟩
  obtain ⟨item, hitem, hsince⟩ := Nat.find_spec hex
  have hmem : item ∈ oldestTerminal entries := by
    refine mem_filter.mpr ⟨hitem, ?_⟩
    rw [hsince, Option.any_some, all_eq_true]
    intro other hother
    cases hlater : other.terminalAt with
    | none => rfl
    | some later => exact decide_eq_true (Nat.find_min' hex ⟨other, hother, hlater⟩)
  exact ne_nil_of_mem hmem

theorem mem_of_evictOldest (h : evictOldest entries choice = some kept) :
    ∃ item ∈ entries, item.terminalAt.isSome ∧ kept = entries.erase item := by
  obtain ⟨item, hitem, rfl⟩ := Option.map_eq_some_iff.mp h
  obtain ⟨hmem, hsince⟩ := mem_filter.mp (mem_of_getElem? hitem)
  obtain ⟨hsome, -⟩ := (Option.any_eq_true_iff_get _ _).mp hsince
  exact ⟨item, hmem, hsome, rfl⟩

theorem evictOldest_eq_none (h : evictOldest entries choice = none) (item : Stored) (hitem : item ∈ entries) :
    item.terminalAt = none := by
  by_contra hsome
  have hpos := length_pos_of_ne_nil
    (oldestTerminal_ne_nil ⟨item, hitem, Option.isSome_iff_ne_none.mpr hsome⟩)
  have hlt := Nat.mod_lt choice hpos
  rw [evictOldest, Option.map_eq_none_iff, getElem?_eq_none_iff] at h
  omega

/-- What an insertion leaves: some of the entries, none of the operation, and the new one. -/
structure Inserted (limits : HistoryLimits) (entries : List Stored) (partition : List Char)
    (summary : OperationSummary) (now : ℕ) (entries' : List Stored) (kept : List Stored)
    (terminalAt : Option ℕ) : Prop where
  eq : entries' = kept ++ [⟨partition, summary, terminalAt⟩]
  sub : kept.Sublist entries
  fresh : ∀ item ∈ kept, item.key ≠ (partition, summary.operationId)
  terminal : terminalAt.isSome = summary.state.terminal
  age : ∀ item ∈ entries, item.key = (partition, summary.operationId) →
    isVisible item now limits.maxTerminalAge = true → summary.state.terminal = true →
    ∀ since ∈ item.terminalAt, terminalAt = some since

section

variable {partition : List Char} {summary : OperationSummary} {shown : List Stored}
  (hshown : pruneExpired entries now limits.maxTerminalAge = shown)
include hshown

theorem inserted_replace {item : Stored} (hkeys : (entries.map Stored.key).Nodup) (hmem : item ∈ shown)
    (hkey : item.key = (partition, summary.operationId)) : Inserted limits entries partition summary now
      (shown.erase item ++
        [⟨partition, summary, if summary.state.terminal then item.terminalAt.or (some now) else none⟩])
      (shown.erase item) (if summary.state.terminal then item.terminalAt.or (some now) else none) := by
  have hpruned : shown.Sublist entries := hshown ▸ filter_sublist
  have hprunedKeys := nodup_of_sublist hkeys hpruned
  refine ⟨rfl, erase_sublist.trans hpruned, ?_, ?_, ?_⟩
  · intro other hother heq
    obtain ⟨hne, hother⟩ := (List.Nodup.mem_erase_iff (hprunedKeys.of_map _)).mp hother
    exact hne (inj_on_of_nodup_map hprunedKeys hother hmem (heq.trans hkey.symm))
  · cases summary.state.terminal <;> simp
  · intro other hother heq hvisible hterminal since hsince
    have hstays : other ∈ shown := hshown ▸ mem_filter.mpr ⟨hother, hvisible⟩
    have hsame := inj_on_of_nodup_map hprunedKeys hstays hmem (heq.trans hkey.symm)
    rw [if_pos hterminal, ← hsame, Option.mem_def.mp hsince]
    rfl

theorem inserted_push (hfresh : ∀ item ∈ shown, item.key ≠ (partition, summary.operationId))
    (hsub : kept.Sublist shown) : Inserted limits entries partition summary now (push kept partition summary now) kept
      (if summary.state.terminal then some now else none) := by
  subst hshown
  refine ⟨rfl, hsub.trans filter_sublist, fun item hitem => hfresh item (hsub.subset hitem), ?_, ?_⟩
  · cases summary.state.terminal <;> rfl
  · intro item hitem heq hvisible
    exact absurd heq (hfresh item (mem_filter.mpr ⟨hitem, hvisible⟩))

end

theorem insert_cases (partition : List Char) (summary : OperationSummary) (now choice : ℕ)
    (hkeys : (entries.map Stored.key).Nodup) : ¬Storable limits entries (partition, summary.operationId) now ∧
        insert limits entries partition summary now choice =
          (.error .capacityFull, pruneExpired entries now limits.maxTerminalAge) ∨
      Storable limits entries (partition, summary.operationId) now ∧ ∃ entries' kept terminalAt,
        insert limits entries partition summary now choice = (.ok (), entries') ∧
          Inserted limits entries partition summary now entries' kept terminalAt := by
  unfold insert Storable
  dsimp only
  generalize hshown : pruneExpired entries now limits.maxTerminalAge = shown
  cases hfind : shown.find? fun item =>
      item.key = (partition, summary.operationId) with
  | some item =>
    have hmem := mem_of_find?_eq_some hfind
    have hkey : item.key = (partition, summary.operationId) := by simpa using find?_some hfind
    exact .inr ⟨.inl ⟨item, hmem, hkey⟩, _, _, _, rfl, inserted_replace hshown hkeys hmem hkey⟩
  | none =>
    have hfresh : ∀ item ∈ shown, item.key ≠ (partition, summary.operationId) := by simpa using hfind
    by_cases hroom : limits.maxEntries ≤ shown.length
    · rw [if_pos hroom]
      cases hevict : evictOldest shown choice with
      | none =>
        have hnone := evictOldest_eq_none hevict
        refine .inl ⟨?_, rfl⟩
        rintro (⟨item, hitem, heq⟩ | hlt | ⟨item, hitem, hsome⟩)
        · exact hfresh item hitem heq
        · omega
        · rw [hnone item hitem] at hsome
          cases hsome
      | some kept =>
        obtain ⟨item, hitem, hsome, rfl⟩ := mem_of_evictOldest hevict
        exact .inr ⟨.inr (.inr ⟨item, hitem, hsome⟩), _, _, _, rfl, inserted_push hshown hfresh erase_sublist⟩
    · rw [if_neg hroom]
      exact .inr ⟨.inr (.inl (not_le.mp hroom)), _, _, _, rfl, inserted_push hshown hfresh (List.Sublist.refl _)⟩

end Insert

/-! ### Steps -/

section Steps

variable {limits : HistoryLimits} {run run' : HistoryRun} {event : HistoryEvent}

/-- What a step does. -/
inductive Records (limits : HistoryLimits) (run : HistoryRun) : HistoryEvent → HistoryRun → Prop
  | updated (key : OperationKey) (snapshot : TaskSnapshot) :
      (∀ old ∈ run.authority key, old.progress ≤ snapshot.progress) →
      Records limits run (.update key snapshot)
        { run with authority := Function.update run.authority key (some snapshot) }
  | failed (key : OperationKey) : Records limits run (.read key) run
  | read (key : OperationKey) (snapshot : TaskSnapshot) (summary : OperationSummary) :
      run.authority key = some snapshot → summary.operationId = key.2 → summary.progress = snapshot.progress →
      Records limits run (.read key) { run with calls := run.calls ++ [⟨key.1, summary, .read⟩] }
  | refused (i now choice : ℕ) (call : RecordCall) :
      run.calls[i]? = some call → call.phase = .read → ¬Storable limits run.entries call.key now →
      Records limits run (.insert i now choice) { run with
        entries := pruneExpired run.entries now limits.maxTerminalAge
        calls := run.calls.set i { call with phase := .refused }
        clock := now }
  | stored (i now choice : ℕ) (call : RecordCall) (entries kept : List Stored) (terminalAt : Option ℕ) :
      run.calls[i]? = some call → call.phase = .read → Storable limits run.entries call.key now →
      Inserted limits run.entries call.partition call.summary now entries kept terminalAt →
      Records limits run (.insert i now choice) { run with
        entries := entries
        calls := run.calls.set i { call with phase := .stored }
        clock := now }

variable {i : ℕ} {call : RecordCall} {summary : OperationSummary} {j : ℕ} {call' : RecordCall}
  {entries kept : List Stored} {now : ℕ} {terminalAt : Option ℕ}

theorem summarize_eq_ok {operationId : List Char} {snapshot : TaskSnapshot}
    (h : summarize operationId snapshot = .ok summary) :
    summary.operationId = operationId ∧ summary.progress = snapshot.progress := by
  unfold summarize at h
  unfold TaskSnapshot.progress
  cases hstate : snapshot.status.operationState with
  | none => rw [hstate] at h; cases h
  | some state =>
    rw [hstate] at h
    dsimp only at h
    split at h
    · cases h
    · obtain rfl := Except.ok.inj h
      exact ⟨rfl, rfl⟩

theorem records_of_step (hkeys : (run.entries.map Stored.key).Nodup)
    (h : (recording limits).step run event = some run') : Records limits run event run' := by
  unfold recording at h
  cases event with
  | update key snapshot =>
    dsimp only at h
    split_ifs at h with hall
    obtain rfl := Option.some.inj h
    refine .updated key snapshot fun old hold => ?_
    rw [Option.mem_def.mp hold] at hall
    exact of_decide_eq_true hall
  | read key =>
    dsimp only at h
    cases hsnapshot : run.authority key with
    | none => rw [hsnapshot] at h; cases h
    | some snapshot =>
      rw [hsnapshot] at h
      dsimp only at h
      cases hsummary : summarize key.2 snapshot with
      | error e =>
        rw [hsummary] at h
        obtain rfl := Option.some.inj h
        exact .failed key
      | ok summary =>
        rw [hsummary] at h
        obtain rfl := Option.some.inj h
        obtain ⟨hid, hprogress⟩ := summarize_eq_ok hsummary
        exact .read key snapshot summary hsnapshot hid hprogress
  | insert i now choice =>
    dsimp only at h
    cases hcall : run.calls[i]? with
    | none => rw [hcall] at h; cases h
    | some call =>
      rw [hcall] at h
      dsimp only at h
      split_ifs at h with hready
      obtain ⟨hfull, hinsert⟩ | ⟨hroom, entries, kept, terminalAt, hinsert, hinserted⟩ :=
        insert_cases call.partition call.summary now choice hkeys
      · rw [hinsert] at h
        obtain rfl := Option.some.inj h
        exact .refused i now choice call hcall hready.1 hfull
      · rw [hinsert] at h
        obtain rfl := Option.some.inj h
        exact .stored i now choice call entries kept terminalAt hcall hready.1 hroom hinserted

/-- What every run keeps: an entry holds what a call stored, and the calls of an operation read it in
the order of their numbers. -/
structure Recorded (run : HistoryRun) : Prop where
  keys : (run.entries.map Stored.key).Nodup
  stored : ∀ item ∈ run.entries, ∃ (i : ℕ) (call : RecordCall), run.calls[i]? = some call ∧
    call.phase = .stored ∧ call.key = item.key ∧ call.summary = item.summary
  terminal : ∀ item ∈ run.entries, item.terminalAt.isSome = item.summary.state.terminal
  ordered : ∀ (i j : ℕ) (call later : RecordCall), i < j → run.calls[i]? = some call → run.calls[j]? = some later →
    call.key = later.key → call.summary.progress ≤ later.summary.progress
  current : ∀ (i : ℕ) (call : RecordCall), run.calls[i]? = some call →
    ∃ snapshot, run.authority call.key = some snapshot ∧ call.summary.progress ≤ snapshot.progress

theorem recorded_start : Recorded .start where
  keys := nodup_nil
  stored _ h := by cases h
  terminal _ h := by cases h
  ordered _ _ _ _ _ h := by simp [HistoryRun.start] at h
  current _ _ h := by simp [HistoryRun.start] at h

theorem of_getElem?_set_phase {calls : List RecordCall} {phase : CallPhase}
    (hcall : calls[i]? = some call) (h : (calls.set i { call with phase := phase })[j]? = some call') :
    ∃ old, calls[j]? = some old ∧ old.key = call'.key ∧ old.summary = call'.summary ∧
      (call'.phase = .stored → old.phase = .stored ∨ i = j ∧ phase = .stored) := by
  obtain hold | ⟨rfl, rfl⟩ := of_getElem?_set h
  · exact ⟨call', hold, rfl, rfl, .inl⟩
  · exact ⟨call, hcall, rfl, rfl, fun hphase => .inr ⟨rfl, hphase⟩⟩

/-- What a call stored stays among the calls. -/
def Persists (run later : HistoryRun) : Prop :=
  ∀ (i : ℕ) (call : RecordCall), run.calls[i]? = some call → call.phase = .stored → later.calls[i]? = some call

theorem getElem?_set_of_stored {calls : List RecordCall} {old : RecordCall}
    (hcall : calls[i]? = some call) (hread : call.phase = .read) (hold : calls[j]? = some old)
    (hstored : old.phase = .stored) : (calls.set i call')[j]? = some old := by
  have hne : i ≠ j := by
    rintro rfl
    rw [hcall] at hold
    obtain rfl := Option.some.inj hold
    rw [hread] at hstored
    cases hstored
  rw [getElem?_set_ne hne, hold]

theorem persists_step (h : Records limits run event run') : Persists run run' := by
  intro j old hold hstored
  cases h with
  | updated key snapshot _ => exact hold
  | failed key => exact hold
  | read key snapshot summary _ _ _ => exact getElem?_concat_of_some hold
  | refused i now choice call hcall hread _ => exact getElem?_set_of_stored hcall hread hold hstored
  | stored i now choice call entries kept terminalAt hcall hread _ _ =>
    exact getElem?_set_of_stored hcall hread hold hstored

theorem stored_or_entry (h : Records limits run event run')
    (hcall' : run'.calls[j]? = some call') (hstored : call'.phase = .stored) :
    (∃ old, run.calls[j]? = some old ∧ old.phase = .stored ∧ old.key = call'.key ∧ old.summary = call'.summary) ∨
      ∃ item ∈ run'.entries, item.key = call'.key ∧ item.summary = call'.summary := by
  cases h with
  | updated key snapshot _ | failed key => exact .inl ⟨call', hcall', hstored, rfl, rfl⟩
  | read key snapshot summary _ _ _ =>
    obtain hold | ⟨-, rfl⟩ := of_getElem?_concat hcall'
    · exact .inl ⟨call', hold, hstored, rfl, rfl⟩
    · cases hstored
  | refused i now choice call hcall hread _ =>
    obtain ⟨old, hold, hkey, hsummary, hphase⟩ := of_getElem?_set_phase hcall hcall'
    obtain hphase | ⟨-, hphase⟩ := hphase hstored
    · exact .inl ⟨old, hold, hphase, hkey, hsummary⟩
    · cases hphase
  | stored i now choice call entries kept terminalAt hcall hread _ hins =>
    obtain ⟨old, hold, hkey, hsummary, hphase⟩ := of_getElem?_set_phase hcall hcall'
    obtain hphase | ⟨rfl, -⟩ := hphase hstored
    · exact .inl ⟨old, hold, hphase, hkey, hsummary⟩
    · rw [hcall] at hold
      obtain rfl := Option.some.inj hold
      refine .inr ⟨⟨call.partition, call.summary, terminalAt⟩, ?_, hkey, hsummary⟩
      rw [hins.eq]
      exact mem_append_right _ (mem_singleton_self _)

theorem Recorded.set_phase (h : Recorded run) (phase : CallPhase) (hcall : run.calls[i]? = some call) :
    (∀ (j k : ℕ) (earlier later : RecordCall), j < k → (run.calls.set i { call with phase := phase })[j]? = some earlier →
      (run.calls.set i { call with phase := phase })[k]? = some later →
      earlier.key = later.key → earlier.summary.progress ≤ later.summary.progress) ∧
    ∀ (j : ℕ) (call' : RecordCall), (run.calls.set i { call with phase := phase })[j]? = some call' →
      ∃ snapshot, run.authority call'.key = some snapshot ∧ call'.summary.progress ≤ snapshot.progress := by
  constructor
  · intro j k earlier later hlt hearlier hlater hkey
    obtain ⟨old, hold, hkey', hsummary, -⟩ := of_getElem?_set_phase hcall hearlier
    obtain ⟨old', hold', hkey'', hsummary', -⟩ := of_getElem?_set_phase hcall hlater
    rw [← hsummary, ← hsummary']
    exact h.ordered j k old old' hlt hold hold' (by rw [hkey', hkey'', hkey])
  · intro j call' hcall'
    obtain ⟨old, hold, hkey, hsummary, -⟩ := of_getElem?_set_phase hcall hcall'
    rw [← hkey, ← hsummary]
    exact h.current j old hold

theorem Recorded.read (h : Recorded run) {key : OperationKey} {snapshot : TaskSnapshot} (new : RecordCall)
    (hsnapshot : run.authority key = some snapshot) (hnew : new.key = key)
    (hprogress : new.summary.progress = snapshot.progress) :
    (∀ (i j : ℕ) (call later : RecordCall), i < j → (run.calls ++ [new])[i]? = some call →
      (run.calls ++ [new])[j]? = some later → call.key = later.key → call.summary.progress ≤ later.summary.progress) ∧
    ∀ (i : ℕ) (call : RecordCall), (run.calls ++ [new])[i]? = some call →
      ∃ snapshot, run.authority call.key = some snapshot ∧ call.summary.progress ≤ snapshot.progress := by
  constructor
  · intro i j call later hlt hcall hlater hkey
    obtain hlater | ⟨hj, rfl⟩ := of_getElem?_concat hlater
    · obtain hcall | ⟨hi, -⟩ := of_getElem?_concat hcall
      · exact h.ordered i j call later hlt hcall hlater hkey
      · obtain ⟨hlt', -⟩ := List.getElem?_eq_some_iff.mp hlater
        omega
    · obtain hcall | ⟨hi, -⟩ := of_getElem?_concat hcall
      · obtain ⟨snapshot', hsnapshot', hle⟩ := h.current i call hcall
        rw [hkey, hnew, hsnapshot] at hsnapshot'
        obtain rfl := Option.some.inj hsnapshot'
        exact hprogress ▸ hle
      · omega
  · intro i call hcall
    obtain hcall | ⟨-, rfl⟩ := of_getElem?_concat hcall
    · exact h.current i call hcall
    · exact ⟨snapshot, by rw [hnew, hsnapshot], hprogress.le⟩

theorem Inserted.forall_mem {entries' : List Stored} {partition : List Char} {P : Stored → Prop}
    (h : Inserted limits entries partition summary now entries' kept terminalAt) (hold : ∀ item ∈ entries, P item)
    (hnew : P ⟨partition, summary, terminalAt⟩) : ∀ item ∈ entries', P item := by
  intro item hitem
  rw [h.eq] at hitem
  obtain hitem | hitem := mem_append.mp hitem
  · exact hold item (h.sub.subset hitem)
  · exact mem_singleton.mp hitem ▸ hnew

theorem Inserted.keys {entries' : List Stored} {partition : List Char}
    (h : Inserted limits entries partition summary now entries' kept terminalAt)
    (hkeys : (entries.map Stored.key).Nodup) : (entries'.map Stored.key).Nodup := by
  rw [h.eq, map_append, nodup_append]
  refine ⟨nodup_of_sublist hkeys h.sub, nodup_singleton _, fun key hkey key' hkey' => ?_⟩
  obtain ⟨item, hitem, rfl⟩ := mem_map.mp hkey
  obtain rfl := mem_singleton.mp hkey'
  exact h.fresh item hitem

theorem recorded_step (hstep : Records limits run event run') (h : Recorded run) : Recorded run' := by
  have hstored : ∀ item ∈ run.entries, ∃ (i : ℕ) (call : RecordCall), run'.calls[i]? = some call ∧
      call.phase = .stored ∧ call.key = item.key ∧ call.summary = item.summary := by
    intro item hitem
    obtain ⟨i, call, hcall, hphase, hsame⟩ := h.stored item hitem
    exact ⟨i, call, persists_step hstep i call hcall hphase, hphase, hsame⟩
  cases hstep with
  | updated key snapshot hmono =>
    refine ⟨h.keys, h.stored, h.terminal, h.ordered, fun i call hcall => ?_⟩
    obtain ⟨old, hold, hle⟩ := h.current i call hcall
    by_cases hkey : call.key = key
    · subst hkey
      exact ⟨snapshot, Function.update_self .., hle.trans (hmono old hold)⟩
    · exact ⟨old, by rw [← hold]; exact Function.update_of_ne hkey .., hle⟩
  | failed key => exact h
  | read key snapshot summary hsnapshot hid hprogress =>
    obtain ⟨hordered, hcurrent⟩ := h.read ⟨key.1, summary, .read⟩ hsnapshot (Prod.ext rfl hid) hprogress
    exact ⟨h.keys, hstored, h.terminal, hordered, hcurrent⟩
  | refused i now choice call hcall hread hfull =>
    obtain ⟨hordered, hcurrent⟩ := h.set_phase .refused hcall
    exact ⟨nodup_of_sublist h.keys filter_sublist, fun item hitem => hstored item (mem_of_mem_filter hitem),
      fun item hitem => h.terminal item (mem_of_mem_filter hitem), hordered, hcurrent⟩
  | stored i now choice call entries kept terminalAt hcall hread hroom hins =>
    obtain ⟨hordered, hcurrent⟩ := h.set_phase .stored hcall
    refine ⟨hins.keys h.keys, hins.forall_mem hstored ?_, hins.forall_mem h.terminal hins.terminal, hordered, hcurrent⟩
    obtain ⟨hlt, -⟩ := List.getElem?_eq_some_iff.mp hcall
    exact ⟨i, _, getElem?_set_self hlt, rfl, rfl, rfl⟩

/-- What is stored for an operation is as far as everything that was ever stored for it. -/
def Abreast (run : HistoryRun) : Prop :=
  ∀ item ∈ run.entries, ∀ (i : ℕ) (call : RecordCall), run.calls[i]? = some call → call.phase = .stored →
    call.key = item.key → call.summary.progress ≤ item.summary.progress

/-- A call inserts in order: if it is going to store its summary, no call that read the operation
later, after it had changed, has stored its own already. -/
def InOrder (limits : HistoryLimits) (run : HistoryRun) : HistoryEvent → Prop
  | .insert i now _ => ∀ call ∈ run.calls[i]?, Storable limits run.entries call.key now →
      ∀ j, i < j → ∀ later ∈ run.calls[j]?, later.key = call.key → later.phase = .stored →
        later.summary.progress = call.summary.progress
  | _ => True

theorem abreast_stored_iff {choice : ℕ} (h : Recorded run) (habreast : Abreast run) (hcall : run.calls[i]? = some call)
    (hread : call.phase = .read) (hroom : Storable limits run.entries call.key now)
    (hins : Inserted limits run.entries call.partition call.summary now entries kept terminalAt) : Abreast { run with
      entries := entries, calls := run.calls.set i { call with phase := .stored }, clock := now } ↔
      InOrder limits run (.insert i now choice) := by
  obtain ⟨rfl, hsub, hfresh, -, -⟩ := hins
  constructor
  · intro hnew own hown _ j hlt later hlater hkey hstored
    rw [hcall] at hown
    obtain rfl := Option.some.inj hown
    have hle := hnew _ (mem_append_right _ (mem_singleton_self _)) j later
      (getElem?_set_of_stored hcall hread hlater hstored) hstored hkey
    exact le_antisymm hle (h.ordered i j call later hlt hcall hlater hkey.symm)
  · intro horder item hitem j later hlater hstored hkey
    obtain ⟨old, hold, hkey', hsummary, hphase⟩ := of_getElem?_set_phase hcall hlater
    rw [← hsummary]
    obtain hitem | hitem := mem_append.mp hitem
    · obtain hphase | ⟨rfl, -⟩ := hphase hstored
      · exact habreast item (hsub.subset hitem) j old hold hphase (hkey'.trans hkey)
      · rw [hcall] at hold
        obtain rfl := Option.some.inj hold
        exact absurd (hkey'.trans hkey).symm (hfresh item hitem)
    · obtain rfl := mem_singleton.mp hitem
      obtain hphase | ⟨rfl, -⟩ := hphase hstored
      · obtain hlt | rfl | hlt := lt_trichotomy j i
        · exact h.ordered j i old call hlt hold hcall (hkey'.trans hkey)
        · rw [hcall] at hold
          exact le_of_eq (congrArg (fun c => c.summary.progress) (Option.some.inj hold).symm)
        · exact (horder call hcall hroom j hlt old hold (hkey'.trans hkey) hphase).le
      · rw [hcall] at hold
        exact le_of_eq (congrArg (fun c => c.summary.progress) (Option.some.inj hold).symm)

theorem abreast_step_iff (hstep : Records limits run event run') (h : Recorded run) (habreast : Abreast run) :
    Abreast run' ↔ InOrder limits run event := by
  cases hstep with
  | updated key snapshot hmono | failed key => exact iff_of_true habreast trivial
  | read key snapshot summary _ _ _ =>
    refine iff_of_true (fun item hitem i call hcall hstored => ?_) trivial
    obtain hcall | ⟨-, rfl⟩ := of_getElem?_concat hcall
    · exact habreast item hitem i call hcall hstored
    · cases hstored
  | refused i now choice call hcall hread hfull =>
    refine iff_of_true (fun item hitem j later hlater hstored hkey => ?_) fun own hown hroom => ?_
    · obtain ⟨old, hold, hkey', hsummary, hphase⟩ := of_getElem?_set_phase hcall hlater
      obtain hphase | ⟨-, hphase⟩ := hphase hstored
      · rw [← hsummary]
        exact habreast item (mem_of_mem_filter hitem) j old hold hphase (hkey'.trans hkey)
      · cases hphase
    · rw [hcall] at hown
      obtain rfl := Option.some.inj hown
      exact absurd hroom hfull
  | stored i now choice call entries kept terminalAt hcall hread hroom hins =>
    exact abreast_stored_iff h habreast hcall hread hroom hins

/-- A summary that is as far as the one it replaces leaves the terminal age as it was. -/
theorem keepsAge_step (hstep : Records limits run event run') (h : Recorded run)
    (habreast : Abreast run') : KeepsAge limits run run' := by
  intro item hitem hvisible item' hitem' hkey since hsince
  have hsame : item' ∈ run.entries → item'.terminalAt = some since := fun hmem => by
    rw [← inj_on_of_nodup_map h.keys hitem hmem hkey]
    exact hsince
  have hfinished : item'.summary.state.terminal = true := by
    obtain ⟨i, call, hcall, hstored, hcallKey, hsummary⟩ := h.stored item hitem
    have hle := habreast item' hitem' i call (persists_step hstep i call hcall hstored) hstored
      (hcallKey.trans hkey)
    rw [hsummary] at hle
    have hterminal : item.summary.state.terminal = true := by
      rw [← h.terminal item hitem, Option.mem_def.mp hsince]
      rfl
    have hbool : item.summary.state.terminal ≤ item'.summary.state.terminal := hle.2
    rw [hterminal] at hbool
    exact top_le_iff.mp hbool
  cases hstep with
  | updated key snapshot hmono | failed key | read key snapshot summary _ _ _ => exact hsame hitem'
  | refused i now choice call hcall hread hfull => exact hsame (mem_of_mem_filter hitem')
  | stored i now choice call entries kept terminalAt hcall hread hroom hins =>
    obtain ⟨rfl, hsub, -, -, hage⟩ := hins
    obtain hmem | hmem := mem_append.mp hitem'
    · exact hsame (hsub.subset hmem)
    · obtain rfl := mem_singleton.mp hmem
      exact hage item hitem hkey hvisible hfinished since hsince

end Steps

/-! ### Whole runs -/

section Runs

variable (limits : HistoryLimits) {run : HistoryRun} {events : List HistoryEvent}

theorem recorded_of_step {run' : HistoryRun} {event : HistoryEvent}
    (hstep : (recording limits).step run event = some run') (h : Recorded run) : Recorded run' :=
  recorded_step (records_of_step h.keys hstep) h

theorem abreast_trace_iff : (∀ run ∈ (recording limits).trace .start events, Abreast run) ↔
      ∀ x ∈ (recording limits).steps .start events, InOrder limits x.1 x.2 := by
  refine System.forall_trace_iff (J := Recorded) (recorded_of_step limits)
    (fun hstep h => abreast_step_iff (records_of_step h.keys hstep) h) recorded_start ?_
  intro item hitem
  cases hitem

theorem recorded_trace : ∀ run ∈ (recording limits).trace .start events, Recorded run :=
  System.forall_trace (recorded_of_step limits) recorded_start

theorem persists_trace : ((recording limits).trace .start events).Pairwise Persists := by
  have htrans : IsTrans HistoryRun Persists :=
    ⟨fun _ _ _ h h' i call hcall hstored => h' i call (h i call hcall hstored) hstored⟩
  refine isChain_iff_pairwise.mp ?_
  refine (System.isChain_trace HistoryRun.start events).imp_of_mem_imp ?_
  rintro run next hrun - ⟨event, hstep⟩
  exact persists_step (records_of_step (recorded_trace limits run hrun).keys hstep)

theorem advances_trace (h : ∀ run ∈ (recording limits).trace .start events, Abreast run) :
    ((recording limits).trace .start events).Pairwise Advances := by
  refine (persists_trace limits).imp_of_mem ?_
  intro run later hrun hlater hpersists item hitem item' hitem' hkey
  obtain ⟨i, call, hcall, hstored, hcallKey, hsummary⟩ := (recorded_trace limits run hrun).stored item hitem
  rw [← hsummary]
  exact h later hlater item' hitem' i call (hpersists i call hcall hstored) hstored (hcallKey.trans hkey)

theorem keepsAge_trace (h : ∀ run ∈ (recording limits).trace .start events, Abreast run) :
    ((recording limits).trace .start events).IsChain (KeepsAge limits) := by
  refine (System.isChain_trace HistoryRun.start events).imp_of_mem_imp ?_
  rintro run next hrun hnext ⟨event, hstep⟩
  have hrecorded := recorded_trace limits run hrun
  exact keepsAge_step (records_of_step hrecorded.keys hstep) hrecorded (h next hnext)

/-- What was stored before a state is below every later one, if the states advance.  By induction over
the rest of the run: a summary that a step stores is an entry of the next state. -/
theorem abreast_of_advances (h : Recorded run)
    (hbelow : ∀ later ∈ (recording limits).trace run events, ∀ item ∈ later.entries, ∀ (i : ℕ) (call : RecordCall),
      run.calls[i]? = some call → call.phase = .stored → call.key = item.key →
        call.summary.progress ≤ item.summary.progress)
    (hadvances : ((recording limits).trace run events).Pairwise Advances) :
    ∀ later ∈ (recording limits).trace run events, Abreast later := by
  have hrun : Abreast run := hbelow run (System.mem_trace_self run events)
  induction events generalizing run with
  | nil => exact fun later hlater => mem_singleton.mp hlater ▸ hrun
  | cons event events ih =>
    unfold System.trace at hbelow hadvances ⊢
    cases hstep : (recording limits).step run event with
    | none => exact fun later hlater => mem_singleton.mp hlater ▸ hrun
    | some next =>
      rw [hstep] at hbelow hadvances
      have hrecords := records_of_step h.keys hstep
      have hnext := recorded_step hrecords h
      obtain ⟨-, hadvances⟩ := pairwise_cons.mp hadvances
      obtain ⟨rest, hrest⟩ := System.trace_eq_cons next events
      have hbelow' : ∀ later ∈ (recording limits).trace next events, ∀ item ∈ later.entries,
          ∀ (i : ℕ) (call : RecordCall), next.calls[i]? = some call → call.phase = .stored → call.key = item.key →
            call.summary.progress ≤ item.summary.progress := by
        intro later hlater item hitem i call hcall hstored hkey
        obtain ⟨old, hold, hphase, hkey', hsummary⟩ | ⟨item', hitem', hkey', hsummary⟩ :=
          stored_or_entry hrecords hcall hstored
        · rw [← hsummary]
          exact hbelow later (mem_cons_of_mem _ hlater) item hitem i old hold hphase (hkey'.trans hkey)
        · rw [← hsummary]
          rw [hrest] at hlater hadvances
          obtain rfl | hlater := mem_cons.mp hlater
          · rw [inj_on_of_nodup_map hnext.keys hitem' hitem (hkey'.trans hkey)]
          · exact (pairwise_cons.mp hadvances).1 later hlater item' hitem' item hitem (hkey'.trans hkey)
      intro later hlater
      obtain rfl | hlater := mem_cons.mp hlater
      · exact hrun
      · exact ih hnext hbelow' hadvances (hbelow' next (System.mem_trace_self next events)) later hlater

/-- **The history is monotone exactly if the calls insert in the order in which they read**, in every
run: then the summary of an operation never goes back, neither to a smaller revision nor from a
finished state to another one, and its terminal age stays until it expires. -/
theorem history_monotone_iff (events : List HistoryEvent) :
    (((recording limits).trace .start events).Pairwise Advances ∧
        ((recording limits).trace .start events).IsChain (KeepsAge limits)) ↔
      ∀ x ∈ (recording limits).steps .start events, InOrder limits x.1 x.2 := by
  rw [← abreast_trace_iff]
  constructor
  · rintro ⟨hadvances, -⟩
    refine abreast_of_advances limits recorded_start ?_ hadvances
    intro later _ item _ i call hcall
    simp [HistoryRun.start] at hcall
  · exact fun h => ⟨advances_trace limits h, keepsAge_trace limits h⟩

end Runs

instance (run later : HistoryRun) : Decidable (Advances run later) :=
  inferInstanceAs (Decidable (∀ item ∈ run.entries, ∀ item' ∈ later.entries, _ → _))

/-- One call reads the task while it is working, another one after it has completed; the second one
inserts first. -/
def racingRecords : List HistoryEvent :=
  [.update (['p'], ['t']) ⟨.working, ['0'], ['0'], 1⟩, .read (['p'], ['t']),
    .update (['p'], ['t']) ⟨.completed, ['0'], ['1'], 2⟩, .read (['p'], ['t']), .insert 1 10 0, .insert 0 11 0]

/-- The history goes back to the working task, and loses its terminal age. -/
theorem history_goes_back : ¬((recording ⟨4, 60⟩).trace .start racingRecords).Pairwise Advances ∧
      ((recording ⟨4, 60⟩).run .start racingRecords).map (fun run =>
        run.entries.map fun item => (item.summary.progress, item.terminalAt)) = some [((1, false), none)] := by
  decide

end McpToolkit.Tasks.History
