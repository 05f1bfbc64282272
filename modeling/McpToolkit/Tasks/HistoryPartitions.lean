import McpToolkit.Lib.Buckets
import McpToolkit.Tasks.History

/-!
# McpToolkit.Tasks.HistoryPartitions — the partitions of the operation history

`OperationHistory` of `history.rs` with the map it really has, a vector of summaries for each principal.  `Insertion` says
what an insertion does to the entries of all partitions, up to their order.  Both the invariant of the store
(`history_invariant`) and the agreement with the flat list of `History` (`insert_flatten`) follow from it.
-/

namespace McpToolkit.Tasks.OperationHistory

open List
open Lib
open McpToolkit.Tasks.History (OperationSummary HistoryLimits HistoryError TaskSnapshot summarize)

structure Stored where
  summary : OperationSummary
  terminalAt : Option ℕ
  deriving DecidableEq

abbrev Partitions := Buckets (List Char) Stored

def isVisible (item : Stored) (now maxTerminalAge : ℕ) : Bool :=
  item.terminalAt.all fun since => now - since < maxTerminalAge

def pruneExpired (partitions : Partitions) (now maxTerminalAge : ℕ) : Partitions :=
  partitions.retain fun item => isVisible item now maxTerminalAge

/-- Where the entry of an operation is in its partition. -/
def existing (partitions : Partitions) (partition operationId : List Char) : Option ℕ :=
  (partitions.get? partition).bind fun items => items.findIdx? fun item => item.summary.operationId = operationId

/-- An entry gets another summary; as long as it stays finished it keeps the time since when it is. -/
def Stored.update (item : Stored) (summary : OperationSummary) (now : ℕ) : Stored where
  summary := summary
  terminalAt := if summary.state.terminal then item.terminalAt.or (some now) else none

def Stored.new (summary : OperationSummary) (now : ℕ) : Stored where
  summary := summary
  terminalAt := if summary.state.terminal then some now else none

/-- The finished entries in the order of the map: since when, and where. -/
def terminalEntries (partitions : Partitions) : List (ℕ × List Char × ℕ) :=
  partitions.buckets.flatMap fun b =>
    b.2.zipIdx.filterMap fun x => x.1.terminalAt.map fun since => (since, b.1, x.2)

/-- One that finished first; which one among several, the order of the map says. -/
def oldest (partitions : Partitions) (choice : ℕ) : Option (List Char × ℕ) :=
  let entries := terminalEntries partitions
  let first := entries.filter fun e => entries.all fun e' => e.1 ≤ e'.1
  first[choice % first.length]?.map Prod.snd

def insert (limits : HistoryLimits) (partitions : Partitions) (partition : List Char) (summary : OperationSummary)
    (now choice : ℕ) : Except HistoryError Unit × Partitions :=
  let partitions := pruneExpired partitions now limits.maxTerminalAge
  match existing partitions partition summary.operationId with
  | some index =>
    (.ok (), partitions.alter partition fun items =>
      items.eraseIdx index ++ (items[index]?.map fun item => item.update summary now).toList)
  | none =>
    if limits.maxEntries ≤ partitions.total then
      match oldest partitions choice with
      | some (oldestPartition, index) =>
        (.ok (), (partitions.removeAt oldestPartition index).push partition (.new summary now))
      | none => (.error .capacityFull, partitions)
    else (.ok (), partitions.push partition (.new summary now))

def get (limits : HistoryLimits) (partitions : Partitions) (principal operationId : List Char) (now : ℕ) :
    Option OperationSummary :=
  ((partitions.get? principal).bind fun items => items.find? fun item =>
    item.summary.operationId = operationId && isVisible item now limits.maxTerminalAge).map Stored.summary

def list (limits : HistoryLimits) (partitions : Partitions) (principal : List Char) (limit now : ℕ) :
    List OperationSummary :=
  ((partitions.get? principal).map fun items =>
    ((items.reverse.filter fun item => isVisible item now limits.maxTerminalAge).take limit).map
      Stored.summary).getD []

/-! ### Calls -/

/-- The time is read under the lock, so it is the time of a call in the order of the calls.  `record` has asked the
authority before; its answer may be anything by now. -/
inductive Call
  | record (principal taskId : List Char) (answer : Option TaskSnapshot) (now choice : ℕ)
  | get (principal operationId : List Char) (now : ℕ)
  | list (principal : List Char) (limit now : ℕ)
  deriving DecidableEq

def Call.now : Call → ℕ
  | .record _ _ _ now _ | .get _ _ now | .list _ _ now => now

inductive Reply
  | unauthorized
  | recorded (result : Except HistoryError OperationSummary)
  | found (summary : Option OperationSummary)
  | listed (summaries : List OperationSummary)

structure Store where
  partitions : Partitions
  clock : ℕ

def Store.new : Store := ⟨.empty, 0⟩

def exec (limits : HistoryLimits) (partitions : Partitions) : Call → Reply × Partitions
  | .record principal taskId answer now choice =>
    match answer with
    | none => (.unauthorized, partitions)
    | some snapshot =>
      match summarize taskId snapshot with
      | .error e => (.recorded (.error e), partitions)
      | .ok summary =>
        match insert limits partitions principal summary now choice with
        | (.ok (), partitions) => (.recorded (.ok summary), partitions)
        | (.error e, partitions) => (.recorded (.error e), partitions)
  | .get principal operationId now => (.found (get limits partitions principal operationId now), partitions)
  | .list principal limit now => (.listed (list limits partitions principal limit now), partitions)

def calls (limits : HistoryLimits) : System Store Call where
  step s call := if s.clock ≤ call.now then some ⟨(exec limits s.partitions call).2, call.now⟩ else none

/-! ### What an insertion does -/

/-- An entry of the store, with its partition. -/
abbrev Entry := List Char × Stored

def key (e : Entry) : List Char × List Char := (e.1, e.2.summary.operationId)

/-- An insertion after pruning, by its effect on the entries that are left. -/
inductive Insertion (limits : HistoryLimits) (kept : List Entry) (partition : List Char) (summary : OperationSummary)
    (now : ℕ) : Except HistoryError Unit → List Entry → Prop
  | full : (∀ e ∈ kept, key e ≠ (partition, summary.operationId)) → limits.maxEntries ≤ kept.length →
      (∀ e ∈ kept, e.2.terminalAt = none) →
      Insertion limits kept partition summary now (.error .capacityFull) kept
  | updated (item : Stored) (rest after : List Entry) : item.summary.operationId = summary.operationId →
      kept.Perm ((partition, item) :: rest) → after.Perm ((partition, item.update summary now) :: rest) →
      Insertion limits kept partition summary now (.ok ()) after
  | displaced (out : Entry) (since : ℕ) (rest after : List Entry) :
      (∀ e ∈ kept, key e ≠ (partition, summary.operationId)) → limits.maxEntries ≤ kept.length →
      out.2.terminalAt = some since → (∀ e ∈ kept, ∀ since' ∈ e.2.terminalAt, since ≤ since') →
      kept.Perm (out :: rest) → after.Perm ((partition, .new summary now) :: rest) →
      Insertion limits kept partition summary now (.ok ()) after
  | added (after : List Entry) : (∀ e ∈ kept, key e ≠ (partition, summary.operationId)) →
      kept.length < limits.maxEntries → after.Perm ((partition, .new summary now) :: kept) →
      Insertion limits kept partition summary now (.ok ()) after

section Insert

variable {partitions : Partitions} {partition operationId : List Char} {index choice : ℕ}

theorem existing_eq_some (h : existing partitions partition operationId = some index) :
    ∃ items item, partitions.get? partition = some items ∧ items[index]? = some item ∧
      item.summary.operationId = operationId := by
  obtain ⟨items, hitems, hindex⟩ := Option.bind_eq_some_iff.mp h
  obtain ⟨hlt, hitem, -⟩ := findIdx?_eq_some_iff_getElem.mp hindex
  exact ⟨items, items[index], hitems, getElem?_eq_getElem hlt, of_decide_eq_true hitem⟩

theorem existing_eq_none (h : existing partitions partition operationId = none) (e : Entry)
    (he : e ∈ partitions.entries) : key e ≠ (partition, operationId) := by
  rintro heq
  obtain ⟨rfl, rfl⟩ := Prod.mk.inj heq
  obtain ⟨items, hitems, hmem⟩ := Buckets.mem_entries.mp he
  rw [existing, Buckets.get?_of_mem hitems, Option.bind_some, findIdx?_eq_none_iff] at h
  exact of_decide_eq_false (h e.2 hmem) rfl

theorem mem_terminalEntries {since : ℕ} : (since, partition, index) ∈ terminalEntries partitions ↔
    ∃ items item, partitions.get? partition = some items ∧ items[index]? = some item ∧
      item.terminalAt = some since := by
  simp only [terminalEntries, mem_flatMap, mem_filterMap, Option.map_eq_some_iff, Prod.mk.injEq]
  constructor
  · rintro ⟨b, hb, ⟨item, i⟩, hitem, since, hsince, rfl, rfl, rfl⟩
    exact ⟨b.2, item, Buckets.get?_of_mem hb, mem_zipIdx_iff_getElem?.mp hitem, hsince⟩
  · rintro ⟨items, item, hitems, hitem, hsince⟩
    exact ⟨(partition, items), Buckets.mem_of_get? hitems, (item, index), mem_zipIdx_iff_getElem?.mpr hitem,
      since, hsince, rfl, rfl, rfl⟩

theorem exists_mem_terminalEntries {e : Entry} {since : ℕ} (he : e ∈ partitions.entries)
    (hsince : e.2.terminalAt = some since) : ∃ index, (since, e.1, index) ∈ terminalEntries partitions := by
  obtain ⟨items, hitems, hmem⟩ := Buckets.mem_entries.mp he
  obtain ⟨index, hindex⟩ := getElem?_of_mem hmem
  exact ⟨index, mem_terminalEntries.mpr ⟨items, e.2, Buckets.get?_of_mem hitems, hindex, hsince⟩⟩

theorem oldest_eq_some (h : oldest partitions choice = some (partition, index)) :
    ∃ items item since, partitions.get? partition = some items ∧ items[index]? = some item ∧
      item.terminalAt = some since ∧ ∀ e ∈ partitions.entries, ∀ since' ∈ e.2.terminalAt, since ≤ since' := by
  obtain ⟨⟨since, place⟩, hfirst, rfl⟩ := Option.map_eq_some_iff.mp h
  obtain ⟨hmem, hmin⟩ := mem_filter.mp (mem_of_getElem? hfirst)
  obtain ⟨items, item, hitems, hitem, hsince⟩ := mem_terminalEntries.mp hmem
  refine ⟨items, item, since, hitems, hitem, hsince, fun e he since' hsince' => ?_⟩
  obtain ⟨index', hmem'⟩ := exists_mem_terminalEntries he hsince'
  exact of_decide_eq_true (all_eq_true.mp hmin _ hmem')

theorem oldest_eq_none (h : oldest partitions choice = none) (e : Entry) (he : e ∈ partitions.entries) :
    e.2.terminalAt = none := by
  by_contra hsome
  obtain ⟨since, hsince⟩ := Option.ne_none_iff_exists'.mp hsome
  obtain ⟨index, hmem⟩ := exists_mem_terminalEntries he hsince
  have hex : ∃ since, ∃ place, (since, place) ∈ terminalEntries partitions := ⟨since, _, hmem⟩
  classical
  obtain ⟨place, hplace⟩ := Nat.find_spec hex
  have hfirst : (Nat.find hex, place) ∈ (terminalEntries partitions).filter fun e =>
      (terminalEntries partitions).all fun e' => e.1 ≤ e'.1 := by
    refine mem_filter.mpr ⟨hplace, all_eq_true.mpr fun e' he' => ?_⟩
    exact decide_eq_true (Nat.find_min' hex ⟨e'.2, he'⟩)
  have hlt := Nat.mod_lt choice (length_pos_of_mem hfirst)
  rw [oldest, Option.map_eq_none_iff, getElem?_eq_none_iff] at h
  omega

/-- The entries that are left by pruning. -/
def visible (partitions : Partitions) (now maxTerminalAge : ℕ) : List Entry :=
  partitions.entries.filter fun e => isVisible e.2 now maxTerminalAge

theorem entries_pruneExpired {now maxTerminalAge : ℕ} :
    (pruneExpired partitions now maxTerminalAge).entries = visible partitions now maxTerminalAge :=
  Buckets.entries_retain _

/-- **What an insertion does.** -/
theorem insertion (limits : HistoryLimits) (partitions : Partitions) (partition : List Char)
    (summary : OperationSummary) (now choice : ℕ) :
    Insertion limits (visible partitions now limits.maxTerminalAge) partition summary now
      (insert limits partitions partition summary now choice).1
      (insert limits partitions partition summary now choice).2.entries := by
  rw [← entries_pruneExpired, insert]
  generalize pruneExpired partitions now limits.maxTerminalAge = kept
  cases hexisting : existing kept partition summary.operationId with
  | some index =>
    obtain ⟨items, item, hitems, hitem, hid⟩ := existing_eq_some hexisting
    obtain ⟨rest, hkept, hafter⟩ := Buckets.entries_replace hitems hitem
      (f := fun items => items.eraseIdx index ++ (items[index]?.map fun item => item.update summary now).toList)
      (by rw [hitem]; rfl)
    exact .updated item rest _ hid hkept hafter
  | none =>
    have hfresh := existing_eq_none hexisting
    rw [Buckets.total_eq_length]
    by_cases hroom : limits.maxEntries ≤ kept.entries.length
    · rw [if_pos hroom]
      cases holdest : oldest kept choice with
      | none => exact .full hfresh hroom (oldest_eq_none holdest)
      | some place =>
        obtain ⟨items, item, since, hitems, hitem, hsince, hmin⟩ := oldest_eq_some holdest
        exact .displaced _ since _ _ hfresh hroom hsince hmin (Buckets.entries_removeAt hitems hitem)
          Buckets.entries_push
    · rw [if_neg hroom]
      exact .added _ hfresh (Nat.lt_of_not_le hroom) Buckets.entries_push

theorem trim_insert {limits : HistoryLimits} {summary : OperationSummary} {now : ℕ} :
    (insert limits partitions partition summary now choice).2.Trim := by
  have htrim : (pruneExpired partitions now limits.maxTerminalAge).Trim := Buckets.trim_retain _
  rw [insert]
  generalize pruneExpired partitions now limits.maxTerminalAge = kept at htrim
  cases hexisting : existing kept partition summary.operationId with
  | some index =>
    obtain ⟨items, item, hitems, hitem, -⟩ := existing_eq_some hexisting
    refine htrim.alter fun items' hitems' => ?_
    obtain rfl := Option.some.inj (hitems.symm.trans hitems')
    rw [hitem]
    exact append_ne_nil_of_right_ne_nil _ (cons_ne_nil _ _)
  | none =>
    split_ifs
    · cases oldest kept choice with
      | none => exact htrim
      | some place => exact htrim.removeAt.push
    · exact htrim.push

end Insert

section Insertions

variable {limits : HistoryLimits} {kept after : List Entry} {partition : List Char} {summary : OperationSummary}
  {now : ℕ} {result : Except HistoryError Unit} {e : Entry}

section

variable (h : Insertion limits kept partition summary now result after)
include h

theorem Insertion.mem_cases (he : e ∈ after) : e ∈ kept ∨
      (∃ item, (partition, item) ∈ kept ∧ item.summary.operationId = summary.operationId ∧
        e = (partition, item.update summary now)) ∨
      (∀ e ∈ kept, key e ≠ (partition, summary.operationId)) ∧ e = (partition, .new summary now) := by
  cases h with
  | full hfresh hroom hnone => exact .inl he
  | updated item rest after hid hkept hafter =>
    rcases mem_cons.mp (hafter.mem_iff.mp he) with rfl | he
    · exact .inr (.inl ⟨item, hkept.mem_iff.mpr mem_cons_self, hid, rfl⟩)
    · exact .inl (hkept.mem_iff.mpr (mem_cons_of_mem _ he))
  | displaced out since rest after hfresh hroom hsince hmin hkept hafter =>
    rcases mem_cons.mp (hafter.mem_iff.mp he) with rfl | he
    · exact .inr (.inr ⟨hfresh, rfl⟩)
    · exact .inl (hkept.mem_iff.mpr (mem_cons_of_mem _ he))
  | added after hfresh hroom hafter =>
    rcases mem_cons.mp (hafter.mem_iff.mp he) with rfl | he
    · exact .inr (.inr ⟨hfresh, rfl⟩)
    · exact .inl he

theorem Insertion.kept_cases (he : e ∈ kept) : e ∈ after ∨
      key e = (partition, summary.operationId) ∧ (partition, e.2.update summary now) ∈ after ∨
      ∃ since, e.2.terminalAt = some since ∧ ∀ e' ∈ kept, ∀ since' ∈ e'.2.terminalAt, since ≤ since' := by
  cases h with
  | full hfresh hroom hnone => exact .inl he
  | updated item rest after hid hkept hafter =>
    rcases mem_cons.mp (hkept.mem_iff.mp he) with rfl | he
    · exact .inr (.inl ⟨congrArg (Prod.mk partition) hid, hafter.mem_iff.mpr mem_cons_self⟩)
    · exact .inl (hafter.mem_iff.mpr (mem_cons_of_mem _ he))
  | displaced out since rest after hfresh hroom hsince hmin hkept hafter =>
    rcases mem_cons.mp (hkept.mem_iff.mp he) with rfl | he
    · exact .inr (.inr ⟨since, hsince, hmin⟩)
    · exact .inl (hafter.mem_iff.mpr (mem_cons_of_mem _ he))
  | added after hfresh hroom hafter => exact .inl (hafter.mem_iff.mpr (mem_cons_of_mem _ he))

theorem Insertion.length_le (hkept : kept.length ≤ limits.maxEntries) : after.length ≤ limits.maxEntries := by
  cases h with
  | full hfresh hroom hnone => exact hkept
  | updated item rest after hid hperm hafter | displaced out since rest after hfresh hroom hsince hmin hperm hafter =>
    rw [hafter.length_eq]
    rwa [hperm.length_eq] at hkept
  | added after hfresh hroom hafter =>
    rw [hafter.length_eq]
    exact hroom

theorem Insertion.keys (hkept : (kept.map key).Nodup) : (after.map key).Nodup := by
  -- a new entry beside some of those kept
  have hnew : ∀ {rest : List Entry}, (∀ e ∈ kept, key e ≠ (partition, summary.operationId)) → rest ⊆ kept →
      (rest.map key).Nodup → (((partition, Stored.new summary now) :: rest).map key).Nodup := by
    intro rest hfresh hsub hrest
    refine nodup_cons.mpr ⟨fun hmem => ?_, hrest⟩
    obtain ⟨e, he, hkey⟩ := mem_map.mp hmem
    exact hfresh e (hsub he) hkey
  cases h with
  | full hfresh hroom hnone => exact hkept
  | updated item rest after hid hperm hafter =>
    rw [(hperm.map key).nodup_iff] at hkept
    rw [(hafter.map key).nodup_iff]
    have hsame : key (partition, item.update summary now) = key (partition, item) :=
      congrArg (Prod.mk partition) hid.symm
    rwa [map_cons, hsame]
  | displaced out since rest after hfresh hroom hsince hmin hperm hafter =>
    rw [(hperm.map key).nodup_iff] at hkept
    rw [(hafter.map key).nodup_iff]
    exact hnew hfresh (fun e he => hperm.mem_iff.mpr (mem_cons_of_mem _ he)) (nodup_cons.mp hkept).2
  | added after hfresh hroom hafter =>
    rw [(hafter.map key).nodup_iff]
    exact hnew hfresh (fun e he => he) hkept

end

theorem Insertion.of_full (h : Insertion limits kept partition summary now (.error .capacityFull) after) :
    limits.maxEntries ≤ kept.length ∧ after = kept := by
  cases h with
  | full hfresh hroom hnone => exact ⟨hroom, rfl⟩

end Insertions

/-! ### The invariant -/

/-- The entry is not finished, or not for as long as `maxTerminalAge`. -/
def Unexpired (item : Stored) (now maxTerminalAge : ℕ) : Prop :=
  ∀ since ∈ item.terminalAt, now - since < maxTerminalAge

theorem isVisible_iff {item : Stored} {now maxTerminalAge : ℕ} :
    isVisible item now maxTerminalAge = true ↔ Unexpired item now maxTerminalAge := by
  rw [isVisible, Unexpired, Option.all_eq_true]
  simp only [decide_eq_true_eq, Option.mem_def]

structure Invariant (limits : HistoryLimits) (s : Store) : Prop where
  bound : s.partitions.total ≤ limits.maxEntries
  keys : (s.partitions.entries.map key).Nodup
  trim : s.partitions.Trim
  terminal : ∀ e ∈ s.partitions.entries, e.2.terminalAt.isSome = e.2.summary.state.terminal
  past : ∀ e ∈ s.partitions.entries, ∀ since ∈ e.2.terminalAt, since ≤ s.clock

section Calls

variable {limits : HistoryLimits} {s s' : Store} {call : Call}

variable {now : ℕ} {summary : OperationSummary} {partitions : Partitions} {principal : List Char}

theorem mem_visible {maxTerminalAge : ℕ} {e : Entry} :
    e ∈ visible partitions now maxTerminalAge ↔ e ∈ partitions.entries ∧ Unexpired e.2 now maxTerminalAge := by
  rw [visible, mem_filter, isVisible_iff]

theorem Stored.update_terminal (item : Stored) (summary : OperationSummary) (now : ℕ) :
    (item.update summary now).terminalAt.isSome = summary.state.terminal := by
  rw [Stored.update]
  cases summary.state.terminal <;> simp

theorem Stored.new_terminal (summary : OperationSummary) (now : ℕ) :
    (Stored.new summary now).terminalAt.isSome = summary.state.terminal := by
  rw [Stored.new]
  cases summary.state.terminal <;> rfl

theorem Stored.mem_update {item : Stored} {since : ℕ} (h : since ∈ (item.update summary now).terminalAt) :
    item.terminalAt = some since ∨ since = now ∧ item.terminalAt = none := by
  rw [Stored.update] at h
  split_ifs at h
  · cases hitem : item.terminalAt with
    | none =>
      rw [hitem] at h
      exact .inr ⟨(Option.some.inj h).symm, rfl⟩
    | some since' =>
      rw [hitem] at h
      exact .inl h
  · cases h

theorem Stored.mem_new {since : ℕ} (h : since ∈ (Stored.new summary now).terminalAt) : since = now := by
  rw [Stored.new] at h
  split_ifs at h
  · exact (Option.some.inj h).symm
  · cases h

/-- What a call does to the partitions. -/
inductive Effect (limits : HistoryLimits) (partitions : Partitions) (call : Call) : Reply → Partitions → Prop
  | idle (reply : Reply) : reply ≠ .recorded (.error .capacityFull) → Effect limits partitions call reply partitions
  | insert (principal taskId : List Char) (answer : Option TaskSnapshot) (summary : OperationSummary)
      (now choice : ℕ) : call = .record principal taskId answer now choice →
      summary.operationId = taskId →
      Effect limits partitions call
        (.recorded ((insert limits partitions principal summary now choice).1.map fun _ => summary))
        (insert limits partitions principal summary now choice).2

theorem summarize_ne_capacityFull {taskId : List Char} {snapshot : TaskSnapshot} :
    summarize taskId snapshot ≠ .error .capacityFull := by
  intro h
  unfold summarize at h
  cases hstate : snapshot.status.operationState with
  | none =>
    rw [hstate] at h
    cases h
  | some state =>
    rw [hstate] at h
    dsimp only at h
    split at h <;> cases h

theorem effect (limits : HistoryLimits) (partitions : Partitions) (call : Call) :
    Effect limits partitions call (exec limits partitions call).1 (exec limits partitions call).2 := by
  cases call with
  | get principal operationId now => exact .idle _ nofun
  | list principal limit now => exact .idle _ nofun
  | record principal taskId answer now choice =>
    cases answer with
    | none => exact .idle _ nofun
    | some snapshot =>
      rw [exec]
      cases hsummary : summarize taskId snapshot with
      | error e =>
        refine .idle _ fun heq => ?_
        rw [Reply.recorded.inj heq |> Except.error.inj] at hsummary
        exact summarize_ne_capacityFull hsummary
      | ok summary =>
        have hid := (History.summarize_eq_ok hsummary).1
        have heffect : Effect limits partitions (.record principal taskId (some snapshot) now choice) _ _ :=
          .insert principal taskId (some snapshot) summary now choice rfl hid
        dsimp only
        cases hinsert : insert limits partitions principal summary now choice with
        | mk result partitions' =>
          rw [hinsert] at heffect
          cases result <;> exact heffect

theorem invariant_new : Invariant limits .new where
  bound := Nat.zero_le _
  keys := nodup_nil
  trim := Buckets.trim_empty
  terminal _ he := absurd he not_mem_nil
  past _ he := absurd he not_mem_nil

theorem Invariant.insert (h : Invariant limits s) {partition : List Char} {choice : ℕ} (hnow : s.clock ≤ now) :
    Invariant limits ⟨(insert limits s.partitions partition summary now choice).2, now⟩ := by
  have hins := insertion limits s.partitions partition summary now choice
  have hsub : visible s.partitions now limits.maxTerminalAge ⊆ s.partitions.entries :=
    fun e he => (mem_visible.mp he).1
  have hkept : (visible s.partitions now limits.maxTerminalAge).length ≤ limits.maxEntries := by
    have hbound := h.bound
    rw [Buckets.total_eq_length] at hbound
    exact (List.length_filter_le _ _).trans hbound
  refine ⟨?_, hins.keys (h.keys.sublist (filter_sublist.map key)), trim_insert, fun e he => ?_,
    fun e he since hsince => ?_⟩
  · rw [Buckets.total_eq_length]
    exact hins.length_le hkept
  · rcases hins.mem_cases he with he | ⟨item, -, -, rfl⟩ | ⟨-, rfl⟩
    · exact h.terminal e (hsub he)
    · exact item.update_terminal summary now
    · exact Stored.new_terminal summary now
  · rcases hins.mem_cases he with he | ⟨item, hitem, -, rfl⟩ | ⟨-, rfl⟩
    · exact (h.past e (hsub he) since hsince).trans hnow
    · rcases Stored.mem_update hsince with hold | ⟨rfl, -⟩
      · exact (h.past _ (hsub hitem) since hold).trans hnow
      · exact le_refl _
    · exact (Stored.mem_new hsince).le

theorem Invariant.tick (h : Invariant limits s) (hnow : s.clock ≤ now) : Invariant limits ⟨s.partitions, now⟩ :=
  { h with past := fun e he since hsince => (h.past e he since hsince).trans hnow }

theorem calls_step_eq_some : (calls limits).step s call = some s' ↔
    s.clock ≤ call.now ∧ s' = ⟨(exec limits s.partitions call).2, call.now⟩ := by
  rw [calls, Option.ite_none_right_eq_some, Option.some.injEq, eq_comm]

theorem invariant_step (hstep : (calls limits).step s call = some s') (h : Invariant limits s) :
    Invariant limits s' := by
  obtain ⟨hnow, rfl⟩ := calls_step_eq_some.mp hstep
  have heffect := effect limits s.partitions call
  cases hpair : exec limits s.partitions call with
  | mk reply partitions' =>
    rw [hpair] at heffect
    cases heffect with
    | idle reply _ => exact h.tick hnow
    | insert principal taskId answer summary now choice hcall hid =>
      subst hcall
      exact h.insert hnow

/-- What one call keeps of the store `s` in the next store `s'`, and what it answers. -/
structure Keeps (limits : HistoryLimits) (s : Store) (call : Call) (s' : Store) : Prop where
  /-- An entry that is not finished stays, until the same operation is recorded again. -/
  unfinished : ∀ e ∈ s.partitions.entries, e.2.summary.state.terminal = false →
    e ∈ s'.partitions.entries ∨
      (∃ answer choice, call = .record e.1 e.2.summary.operationId answer call.now choice) ∧
        ∃ e' ∈ s'.partitions.entries, key e' = key e
  /-- An entry that goes before it expires is finished, and none that stays has finished before it. -/
  displaced : ∀ e ∈ s.partitions.entries, Unexpired e.2 call.now limits.maxTerminalAge →
    (∀ e' ∈ s'.partitions.entries, key e' ≠ key e) →
    e.2.summary.state.terminal = true ∧ ∃ since, e.2.terminalAt = some since ∧
      ∀ e' ∈ s'.partitions.entries, ∀ since' ∈ e'.2.terminalAt, since ≤ since'
  /-- The time kept for a finished entry is when it was first recorded as finished. -/
  since : ∀ e' ∈ s'.partitions.entries, ∀ since ∈ e'.2.terminalAt,
    (∃ e ∈ s.partitions.entries, key e = key e' ∧ e.2.terminalAt = some since) ∨
      since = call.now ∧ ∀ e ∈ s.partitions.entries, key e = key e' →
        Unexpired e.2 call.now limits.maxTerminalAge → e.2.summary.state.terminal = false
  /-- A call that finds the store full removes nothing at all. -/
  full : (exec limits s.partitions call).1 = .recorded (.error .capacityFull) →
    s'.partitions.entries = s.partitions.entries
  found : ∀ principal operationId now summary, call = .get principal operationId now →
    (exec limits s.partitions call).1 = .found (some summary) → ∃ item, (principal, item) ∈ s.partitions.entries ∧
      item.summary = summary ∧ summary.operationId = operationId ∧ Unexpired item now limits.maxTerminalAge
  listed : ∀ principal limit now summaries, call = .list principal limit now →
    (exec limits s.partitions call).1 = .listed summaries → ∀ summary ∈ summaries,
      ∃ item, (principal, item) ∈ s.partitions.entries ∧ item.summary = summary ∧
        Unexpired item now limits.maxTerminalAge

theorem get_eq_some {operationId : List Char} (h : get limits partitions principal operationId now = some summary) :
    ∃ item, (principal, item) ∈ partitions.entries ∧ item.summary = summary ∧ summary.operationId = operationId ∧
      Unexpired item now limits.maxTerminalAge := by
  obtain ⟨item, hfind, rfl⟩ := Option.map_eq_some_iff.mp h
  obtain ⟨items, hitems, hitem⟩ := Option.bind_eq_some_iff.mp hfind
  have hcheck := find?_some hitem
  obtain ⟨hid, hvisible⟩ := Bool.and_eq_true_iff.mp hcheck
  exact ⟨item, Buckets.mem_entries_of_get? hitems (mem_of_find?_eq_some hitem), rfl, of_decide_eq_true hid,
    isVisible_iff.mp hvisible⟩

theorem mem_list {limit : ℕ} (h : summary ∈ list limits partitions principal limit now) :
    ∃ item, (principal, item) ∈ partitions.entries ∧ item.summary = summary ∧
      Unexpired item now limits.maxTerminalAge := by
  rw [list] at h
  cases hitems : partitions.get? principal with
  | none =>
    rw [hitems] at h
    cases h
  | some items =>
    rw [hitems, Option.map_some] at h
    obtain ⟨item, hitem, rfl⟩ := mem_map.mp h
    obtain ⟨hitem, hvisible⟩ := mem_filter.mp (mem_of_mem_take hitem)
    exact ⟨item, Buckets.mem_entries_of_get? hitems (mem_reverse.mp hitem), rfl, isVisible_iff.mp hvisible⟩

theorem keeps_idle (hreply : (exec limits s.partitions call).1 ≠ .recorded (.error .capacityFull)) :
    Keeps limits s call ⟨s.partitions, call.now⟩ where
  unfinished e he _ := .inl he
  displaced e he _ hgone := absurd rfl (hgone e he)
  since e' he' since hsince := .inl ⟨e', he', rfl, hsince⟩
  full hfull := absurd hfull hreply
  found := by
    rintro principal operationId now summary rfl hfound
    exact get_eq_some (Reply.found.inj hfound)
  listed := by
    rintro principal limit now summaries rfl hlisted
    obtain rfl := Reply.listed.inj hlisted
    exact fun summary hsummary => mem_list hsummary

/-- An insertion. -/
theorem keeps_insert (h : Invariant limits s) {taskId : List Char} {answer : Option TaskSnapshot}
    {choice : ℕ} (hid : summary.operationId = taskId) (hnow : s.clock ≤ now)
    (hreply : (exec limits s.partitions (.record principal taskId answer now choice)).1 =
      .recorded ((insert limits s.partitions principal summary now choice).1.map fun _ => summary)) :
    Keeps limits s (.record principal taskId answer now choice)
      ⟨(insert limits s.partitions principal summary now choice).2, now⟩ := by
  have hins := insertion limits s.partitions principal summary now choice
  refine ⟨fun e he hunfinished => ?_, fun e he hunexpired hgone => ?_, fun e' he' since hsince => ?_,
    fun hfull => ?_, nofun, nofun⟩
  · have hnone : e.2.terminalAt = none := by
      rw [← Option.not_isSome_iff_eq_none, h.terminal e he, hunfinished]
      exact Bool.false_ne_true
    have hvisible : e ∈ visible s.partitions now limits.maxTerminalAge := by
      refine mem_visible.mpr ⟨he, fun since hsince => ?_⟩
      rw [hnone] at hsince
      cases hsince
    rcases hins.kept_cases hvisible with he | ⟨hkey, he⟩ | ⟨since, hsince, -⟩
    · exact .inl he
    · obtain ⟨hpartition, hoperation⟩ := Prod.mk.inj hkey
      refine .inr ⟨⟨answer, choice, ?_⟩, _, he, hkey.symm⟩
      rw [hpartition, hoperation, hid]
      rfl
    · rw [hnone] at hsince
      cases hsince
  · rcases hins.kept_cases (mem_visible.mpr ⟨he, hunexpired⟩) with he | ⟨hkey, he⟩ | ⟨since, hsince, hmin⟩
    · exact absurd rfl (hgone e he)
    · exact absurd hkey.symm (hgone _ he)
    · have hpast := (h.past e he since hsince).trans hnow
      refine ⟨?_, since, hsince, fun e' he' since' hsince' => ?_⟩
      · rw [← h.terminal e he, hsince]
        rfl
      · rcases hins.mem_cases he' with he' | ⟨item, hitem, -, rfl⟩ | ⟨-, rfl⟩
        · exact hmin e' he' since' hsince'
        · rcases Stored.mem_update hsince' with hold | ⟨rfl, -⟩
          · exact hmin _ hitem since' hold
          · exact hpast
        · rw [Stored.mem_new hsince']
          exact hpast
  · rcases hins.mem_cases he' with he' | ⟨item, hitem, hsame, rfl⟩ | ⟨hfresh, rfl⟩
    · exact .inl ⟨e', (mem_visible.mp he').1, rfl, hsince⟩
    · have hkey : key (principal, item.update summary now) = key (principal, item) :=
        congrArg (Prod.mk principal) hsame.symm
      have hmem := (mem_visible.mp hitem).1
      rcases Stored.mem_update hsince with hold | ⟨rfl, hnone⟩
      · exact .inl ⟨_, hmem, hkey.symm, hold⟩
      · refine .inr ⟨rfl, fun e he heq _ => ?_⟩
        obtain rfl := inj_on_of_nodup_map h.keys he hmem (heq.trans hkey)
        rw [← h.terminal _ hmem, hnone]
        rfl
    · exact .inr ⟨Stored.mem_new hsince, fun e he heq hunexpired =>
        absurd heq (hfresh e (mem_visible.mpr ⟨he, hunexpired⟩))⟩
  · rw [hreply] at hfull
    have hbound := h.bound
    rw [Buckets.total_eq_length] at hbound
    cases hresult : (insert limits s.partitions principal summary now choice).1 with
    | ok u =>
      rw [hresult] at hfull
      cases hfull
    | error e =>
      rw [hresult] at hfull hins
      obtain rfl : e = .capacityFull := Except.error.inj (Reply.recorded.inj hfull)
      obtain ⟨hroom, hsame⟩ := hins.of_full
      -- nothing can have been pruned
      have hall : visible s.partitions now limits.maxTerminalAge = s.partitions.entries :=
        filter_sublist.eq_of_length_le (hbound.trans hroom)
      exact hsame.trans hall

theorem keeps_step (hstep : (calls limits).step s call = some s') (h : Invariant limits s) :
    Keeps limits s call s' := by
  obtain ⟨hnow, rfl⟩ := calls_step_eq_some.mp hstep
  have heffect := effect limits s.partitions call
  cases hpair : exec limits s.partitions call with
  | mk reply partitions' =>
    have hreply : (exec limits s.partitions call).1 = reply := by rw [hpair]
    rw [hpair] at heffect
    cases heffect with
    | idle reply hne => exact keeps_idle (hreply ▸ hne)
    | insert principal taskId answer summary now choice hcall hid =>
      subst hcall
      exact keeps_insert h hid hnow hreply

theorem Invariant.nodup_operationIds (h : Invariant limits s) (b : List Char × List Stored)
    (hb : b ∈ s.partitions.buckets) : (b.2.map fun item => item.summary.operationId).Nodup := by
  obtain ⟨before, after, hbuckets⟩ := append_of_mem hb
  have hsub : (b.2.map fun item => (b.1, item)).Sublist s.partitions.entries := by
    rw [Buckets.entries, hbuckets, Buckets.flat_append]
    exact (sublist_append_left _ _).trans (sublist_append_right _ _)
  have hnodup := h.keys.sublist (hsub.map key)
  rw [map_map] at hnodup
  refine List.Nodup.of_map (Prod.mk b.1) ?_
  rw [map_map]
  exact hnodup

/-- **The invariant of the history.**  After any calls the store has room for all its entries, each partition has an
operation once and none is empty, and the next call, whatever it is, keeps and answers what it should. -/
theorem history_invariant (limits : HistoryLimits) {events : List Call} {s : Store}
    (hrun : (calls limits).run .new events = some s) : s.partitions.total ≤ limits.maxEntries ∧
    (∀ b ∈ s.partitions.buckets, (b.2.map fun item => item.summary.operationId).Nodup) ∧
    (∀ b ∈ s.partitions.buckets, b.2 ≠ []) ∧
    ∀ call s', (calls limits).step s call = some s' → Keeps limits s call s' := by
  have h : Invariant limits s := (System.reaches_of_run hrun).induct invariant_new invariant_step
  exact ⟨h.bound, h.nodup_operationIds, h.trim, fun call s' hstep => keeps_step hstep h⟩

end Calls

/-- One place for two finished operations, the second of which comes two instants after the first. -/
def displacing : HistoryLimits := ⟨1, 5⟩

def finished : TaskSnapshot := ⟨.completed, ['c'], ['u'], 1⟩

/-- The entry of the first principal makes room for that of the second. -/
theorem history_invariant_displacing :
    ∃ s s' e, (calls displacing).run .new [.record ['a'] ['t'] (some finished) 3 0] = some s ∧
      (calls displacing).step s (.record ['b'] ['t'] (some finished) 5 0) = some s' ∧
      e ∈ s.partitions.entries ∧ (∀ e' ∈ s'.partitions.entries, key e' ≠ key e) ∧
      e.2.summary.state.terminal = true := by
  obtain ⟨s, hrun, hs⟩ := (Option.any_eq_true (fun s : Store => decide (
      (((calls displacing).step s (.record ['b'] ['t'] (some finished) 5 0)).map fun s' =>
        s'.partitions.entries.map key) = some [(['b'], ['t'])] ∧
      s.partitions.entries.map (fun e => (key e, e.2.terminalAt)) = [((['a'], ['t']), some 3)])) _).mp
    (show ((calls displacing).run .new [.record ['a'] ['t'] (some finished) 3 0]).any _ = true by decide)
  obtain ⟨hstep, hentries⟩ := of_decide_eq_true hs
  obtain ⟨s', hs', hkeys⟩ := Option.map_eq_some_iff.mp hstep
  obtain ⟨e, he, hpair⟩ : ∃ e ∈ s.partitions.entries, (key e, e.2.terminalAt) = ((['a'], ['t']), some 3) := by
    rw [← mem_map, hentries]
    exact mem_singleton_self _
  obtain ⟨hkey, hsince⟩ := Prod.mk.inj hpair
  have hgone : ∀ e' ∈ s'.partitions.entries, key e' ≠ key e := by
    intro e' he'
    have hmem := mem_map_of_mem (f := key) he'
    rw [hkeys] at hmem
    rw [mem_singleton.mp hmem, hkey]
    decide
  have hunexpired : Unexpired e.2 5 displacing.maxTerminalAge := by
    rw [Unexpired, hsince]
    decide
  exact ⟨s, s', e, hrun, hs', he, hgone,
    (((history_invariant displacing hrun).2.2.2 _ _ hs').displaced e he hunexpired hgone).1⟩

/-! ### The flat list -/

/-- The entry as the flat list has it. -/
def Entry.flat (e : Entry) : History.Stored := ⟨e.1, e.2.summary, e.2.terminalAt⟩

def flatten (partitions : Partitions) : List History.Stored := partitions.entries.map Entry.flat

section Flat

variable {limits : HistoryLimits} {partitions : Partitions} {entries : List History.Stored}

theorem pruneExpired_perm (now maxTerminalAge : ℕ) (h : entries.Perm (flatten partitions)) :
    (History.pruneExpired entries now maxTerminalAge).Perm
      ((visible partitions now maxTerminalAge).map Entry.flat) := by
  refine (h.filter _).trans ?_
  rw [flatten, filter_map]
  rfl

section Kept

variable {partition : List Char} {summary : OperationSummary} {now choice : ℕ} {kept : List History.Stored}
  (hkept : History.pruneExpired entries now limits.maxTerminalAge = kept)

include hkept

theorem insert_of_mem {item : History.Stored} (hkeys : (kept.map History.Stored.key).Nodup) (hmem : item ∈ kept)
    (hkey : item.key = (partition, summary.operationId)) :
    History.insert limits entries partition summary now choice = (.ok (), kept.erase item ++
      [⟨partition, summary, if summary.state.terminal then item.terminalAt.or (some now) else none⟩]) := by
  cases hfind : kept.find? fun item => item.key = (partition, summary.operationId) with
  | none => exact absurd (decide_eq_true hkey) (find?_eq_none.mp hfind item hmem)
  | some other =>
    have hother : other.key = (partition, summary.operationId) := by simpa using find?_some hfind
    obtain rfl := inj_on_of_nodup_map hkeys (mem_of_find?_eq_some hfind) hmem (hother.trans hkey.symm)
    rw [History.insert, hkept, hfind]

/-- Without an entry to replace there is room, an entry to evict, or neither. -/
theorem insert_of_fresh (hfresh : ∀ item ∈ kept, item.key ≠ (partition, summary.operationId)) :
    History.insert limits entries partition summary now choice =
      if limits.maxEntries ≤ kept.length then
        (History.evictOldest kept choice).elim (.error .capacityFull, kept) fun kept =>
          (.ok (), History.push kept partition summary now)
      else (.ok (), History.push kept partition summary now) := by
  have hnone : (kept.find? fun item => item.key = (partition, summary.operationId)) = none :=
    find?_eq_none.mpr fun item hitem heq => hfresh item hitem (of_decide_eq_true heq)
  rw [History.insert, hkept, hnone]
  cases History.evictOldest kept choice <;> rfl

end Kept

theorem exists_evictOldest {kept : List History.Stored} {out : History.Stored} {since : ℕ} (hmem : out ∈ kept)
    (hsince : out.terminalAt = some since) (hmin : ∀ item ∈ kept, ∀ since' ∈ item.terminalAt, since ≤ since') :
    ∃ choice, History.evictOldest kept choice = some (kept.erase out) := by
  have hfirst : out ∈ History.oldestTerminal kept := by
    refine mem_filter.mpr ⟨hmem, ?_⟩
    rw [hsince, Option.any_some, all_eq_true]
    intro other hother
    rw [Option.all_eq_true]
    exact fun since' hsince' => decide_eq_true (hmin other hother since' hsince')
  obtain ⟨choice, hchoice⟩ := getElem?_of_mem hfirst
  obtain ⟨hlt, -⟩ := List.getElem?_eq_some_iff.mp hchoice
  refine ⟨choice, ?_⟩
  rw [History.evictOldest, Nat.mod_eq_of_lt hlt, hchoice, Option.map_some]

theorem push_perm {kept : List History.Stored} {rest : List Entry} {after : List Entry} {partition : List Char}
    {summary : OperationSummary} {now : ℕ} (hkept : kept.Perm (rest.map Entry.flat))
    (hafter : after.Perm ((partition, Stored.new summary now) :: rest)) :
    (History.push kept partition summary now).Perm (after.map Entry.flat) := by
  have hpush := (perm_append_singleton (Entry.flat (partition, Stored.new summary now)) kept).trans (hkept.cons _)
  exact hpush.trans (hafter.map Entry.flat).symm

/-- **The flat list follows the partitions**: every insertion into the map is one into the list, up to order, for some
choice among the entries that finished first. -/
theorem insert_flatten (hkeys : (partitions.entries.map key).Nodup) (h : entries.Perm (flatten partitions))
    (partition : List Char) (summary : OperationSummary) (now choice : ℕ) :
    ∃ choice', (History.insert limits entries partition summary now choice').1 =
        (insert limits partitions partition summary now choice).1 ∧
      (History.insert limits entries partition summary now choice').2.Perm
        (flatten (insert limits partitions partition summary now choice).2) := by
  have hins := insertion limits partitions partition summary now choice
  have hpruned := pruneExpired_perm now limits.maxTerminalAge h
  generalize hkept : History.pruneExpired entries now limits.maxTerminalAge = kept at hpruned
  have hvisible : (kept.map History.Stored.key).Nodup := by
    rw [(hpruned.map _).nodup_iff, map_map]
    exact hkeys.sublist (filter_sublist.map key)
  have hmem : ∀ e, e ∈ visible partitions now limits.maxTerminalAge → Entry.flat e ∈ kept :=
    fun e he => hpruned.mem_iff.mpr (mem_map_of_mem he)
  have hof : ∀ {p : History.Stored → Prop}, (∀ e ∈ visible partitions now limits.maxTerminalAge, p (Entry.flat e)) →
      ∀ item ∈ kept, p item := by
    intro p hp item hitem
    obtain ⟨e, he, rfl⟩ := mem_map.mp (hpruned.mem_iff.mp hitem)
    exact hp e he
  have hlength : kept.length = (visible partitions now limits.maxTerminalAge).length := by
    rw [hpruned.length_eq, length_map]
  have herase : ∀ {e : Entry} {rest : List Entry}, (visible partitions now limits.maxTerminalAge).Perm (e :: rest) →
      (kept.erase (Entry.flat e)).Perm (rest.map Entry.flat) := by
    intro e rest hrest
    have herase := (hpruned.trans (hrest.map Entry.flat)).erase (Entry.flat e)
    rwa [map_cons, erase_cons_head] at herase
  unfold flatten
  revert hins
  generalize (insert limits partitions partition summary now choice).1 = result
  generalize (insert limits partitions partition summary now choice).2.entries = after
  intro hins
  cases hins with
  | full hfresh hroom hnone =>
    refine ⟨0, ?_⟩
    have hevict : History.evictOldest kept 0 = none := by
      cases hout : History.evictOldest kept 0 with
      | none => rfl
      | some kept' =>
        obtain ⟨item, hitem, hsome, -⟩ := History.mem_of_evictOldest hout
        have hno : item.terminalAt = none := hof (p := fun item => item.terminalAt = none) hnone item hitem
        rw [hno] at hsome
        cases hsome
    rw [insert_of_fresh hkept (hof hfresh), if_pos (hlength ▸ hroom), hevict]
    exact ⟨rfl, hpruned⟩
  | updated item rest after hid hrest hafter =>
    have hitem := hmem _ (hrest.mem_iff.mpr mem_cons_self)
    refine ⟨0, ?_⟩
    rw [insert_of_mem hkept hvisible hitem (congrArg (Prod.mk partition) hid)]
    exact ⟨rfl, (perm_append_singleton _ _).trans (((herase hrest).cons _).trans (hafter.map Entry.flat).symm)⟩
  | displaced out since rest after hfresh hroom hsince hmin hrest hafter =>
    have hout := hmem out (hrest.mem_iff.mpr mem_cons_self)
    obtain ⟨choice', hevict⟩ := exists_evictOldest hout hsince (hof hmin)
    refine ⟨choice', ?_⟩
    rw [insert_of_fresh hkept (hof hfresh), if_pos (hlength ▸ hroom), hevict]
    exact ⟨rfl, push_perm (herase hrest) hafter⟩
  | added after hfresh hroom hafter =>
    refine ⟨0, ?_⟩
    rw [insert_of_fresh hkept (hof hfresh), if_neg (by omega)]
    exact ⟨rfl, push_perm hpruned hafter⟩

/-- The one entry makes room for another. -/
theorem insert_flatten_displacing : ∃ (one : Partitions) (done : OperationSummary) (choice : ℕ), one.total = 1 ∧
    (History.insert displacing (flatten one) ['b'] done 5 choice).2.Perm
      (flatten (insert displacing one ['b'] done 5 0).2) := by
  let done : OperationSummary := ⟨['t'], .task, .completed, ['c'], none, ['u'], none, 1⟩
  let one : Partitions := ⟨[(['a'], [⟨done, some 3⟩])], by decide⟩
  obtain ⟨choice, -, hperm⟩ := insert_flatten (by decide : (one.entries.map key).Nodup) (.refl _) ['b'] done 5 0
  exact ⟨one, done, choice, rfl, hperm⟩

end Flat

end McpToolkit.Tasks.OperationHistory
