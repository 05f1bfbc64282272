import Mathlib.Data.List.DropRight
import McpToolkit.Lib.Ranking
import McpToolkit.Lib.Word

/-!
# McpToolkit.Logs.Query — a bounded selection of operation logs

`select_operation_logs` takes the newest of the records behind a cursor, and of these as many as two budgets allow: the
loop goes from the newest record to the oldest and selects each that the budgets still have room for, so an oversized
record is skipped and older ones are tried.

`kept` is what the loop has selected after the records of a list, in increasing order again; all that is said of the
result follows from how it treats one more, older record (`kept_cons`).
-/

namespace McpToolkit.Logs

open List
open Lib
open Lib.Word (saturatingAdd saturatingAdd_min u64Max)

structure OperationLogRecordRef where
  offset : ℕ
  timestampMs : ℕ
  stream : List UInt8
  payload : List UInt8
  deriving DecidableEq

structure OperationLogQuery where
  afterOffset : Option ℕ
  tail : ℕ
  maxRecords : ℕ
  maxPayloadBytes : ℕ
  retentionGapSinceCursor : Option Bool
  latestSourceOffset : Option ℕ

structure OperationLogQueryResult where
  entries : List OperationLogRecordRef
  earliestRetainedOffset : Option ℕ
  latestSourceOffset : Option ℕ
  retentionGap : Option Bool
  responseTruncated : Bool
  omittedRecords : ℕ
  omittedPayloadBytes : ℕ

inductive OperationLogQueryError where
  | nonIncreasingOffsets
  | inconsistentLatestSourceOffset
  deriving DecidableEq

/-- The variables of the loop. -/
structure Selection where
  selectedReversed : List OperationLogRecordRef
  remainingBytes : ℕ
  omittedRecords : ℕ
  omittedPayloadBytes : ℕ

/-- The check of `records.windows(2)`. -/
def increasing : List OperationLogRecordRef → Bool
  | first :: second :: records => decide (first.offset < second.offset) && increasing (second :: records)
  | _ => true

/-- The records of the tail behind the cursor. -/
def candidatesOf (records : List OperationLogRecordRef) (query : OperationLogQuery) : List OperationLogRecordRef :=
  let candidates := records.filter fun record => query.afterOffset.all fun after => decide (after < record.offset)
  let tailCount := min query.tail candidates.length
  candidates.drop (candidates.length - tailCount)

/-- The body of the loop. -/
def select (recordLimit : ℕ) (s : Selection) (record : OperationLogRecordRef) : Selection :=
  let payloadBytes := record.payload.length
  if s.selectedReversed.length < recordLimit ∧ payloadBytes ≤ s.remainingBytes then
    { s with remainingBytes := s.remainingBytes - payloadBytes, selectedReversed := s.selectedReversed ++ [record] }
  else
    { s with
      omittedRecords := saturatingAdd s.omittedRecords 1
      omittedPayloadBytes := saturatingAdd s.omittedPayloadBytes payloadBytes }

/-- The check of the source's cursor. -/
def checkLatest (records : List OperationLogRecordRef) (query : OperationLogQuery) :
    Except OperationLogQueryError Unit :=
  match query.latestSourceOffset with
  | some latest =>
    if records.any fun record => decide (latest < record.offset) then .error .inconsistentLatestSourceOffset else .ok ()
  | none => if records = [] then .ok () else .error .inconsistentLatestSourceOffset

def selectOperationLogs (records : List OperationLogRecordRef) (query : OperationLogQuery) :
    Except OperationLogQueryError OperationLogQueryResult := do
  if increasing records = false then
    throw .nonIncreasingOffsets
  checkLatest records query
  let candidates := candidatesOf records query
  let recordLimit := min query.maxRecords candidates.length
  let s := candidates.reverse.foldl (select recordLimit) ⟨[], query.maxPayloadBytes, 0, 0⟩
  return {
    entries := s.selectedReversed.reverse
    earliestRetainedOffset := records.head?.map fun record => record.offset
    latestSourceOffset := query.latestSourceOffset
    retentionGap := query.retentionGapSinceCursor
    responseTruncated := decide (0 < s.omittedRecords)
    omittedRecords := s.omittedRecords
    omittedPayloadBytes := s.omittedPayloadBytes }

/-- The payload bytes of a list of records. -/
def payloadBytes (records : List OperationLogRecordRef) : ℕ := (records.map fun record => record.payload.length).sum

theorem payloadBytes_cons (record : OperationLogRecordRef) (records : List OperationLogRecordRef) :
    payloadBytes (record :: records) = record.payload.length + payloadBytes records := by
  rfl

/-! ### The loop -/

section Loop

variable (limit bytes : ℕ)

/-- The variables after the loop over a list, which it goes through from the end. -/
def after (records : List OperationLogRecordRef) : Selection :=
  records.reverse.foldl (select limit) ⟨[], bytes, 0, 0⟩

/-- What the loop selects, the oldest first. -/
def kept (records : List OperationLogRecordRef) : List OperationLogRecordRef :=
  (after limit bytes records).selectedReversed.reverse

/-- There is room for one more record in front of a list. -/
def Fits (record : OperationLogRecordRef) (records : List OperationLogRecordRef) : Prop :=
  (kept limit bytes records).length < limit ∧ record.payload.length ≤ (after limit bytes records).remainingBytes

instance (record : OperationLogRecordRef) (records : List OperationLogRecordRef) :
    Decidable (Fits limit bytes record records) := inferInstanceAs (Decidable (_ ∧ _))

variable {limit bytes} {record : OperationLogRecordRef} {records : List OperationLogRecordRef}

theorem after_cons : after limit bytes (record :: records) = select limit (after limit bytes records) record := by
  rw [after, reverse_cons, foldl_append]
  rfl

theorem after_cons_of_fits (h : Fits limit bytes record records) : after limit bytes (record :: records) =
    { after limit bytes records with
      remainingBytes := (after limit bytes records).remainingBytes - record.payload.length
      selectedReversed := (after limit bytes records).selectedReversed ++ [record] } := by
  have hroom : (after limit bytes records).selectedReversed.length < limit := by
    have hlen := h.1
    rwa [kept, length_reverse] at hlen
  rw [after_cons, select, if_pos ⟨hroom, h.2⟩]

theorem after_cons_of_not_fits (h : ¬ Fits limit bytes record records) : after limit bytes (record :: records) =
    { after limit bytes records with
      omittedRecords := saturatingAdd (after limit bytes records).omittedRecords 1
      omittedPayloadBytes := saturatingAdd (after limit bytes records).omittedPayloadBytes record.payload.length } := by
  rw [after_cons, select, if_neg]
  intro hfits
  refine h ⟨?_, hfits.2⟩
  rw [kept, length_reverse]
  exact hfits.1

/-- **The greedy step**: an older record is selected if it fits behind what was selected of the newer ones. -/
theorem kept_cons : kept limit bytes (record :: records) =
    if Fits limit bytes record records then record :: kept limit bytes records else kept limit bytes records := by
  by_cases h : Fits limit bytes record records
  · rw [if_pos h, kept, after_cons_of_fits h, reverse_append]
    rfl
  · rw [if_neg h, kept, after_cons_of_not_fits h]
    rfl

theorem kept_sublist : (kept limit bytes records).Sublist records := by
  induction records with
  | nil => exact List.Sublist.refl []
  | cons record records ih =>
    rw [kept_cons]
    split_ifs
    · exact ih.cons_cons record
    · exact ih.cons record

theorem length_kept_le : (kept limit bytes records).length ≤ limit := by
  induction records with
  | nil => exact Nat.zero_le limit
  | cons record records ih =>
    rw [kept_cons]
    split_ifs with h
    · exact h.1
    · exact ih

theorem remainingBytes_add : (after limit bytes records).remainingBytes + payloadBytes (kept limit bytes records) = bytes := by
  induction records with
  | nil => rfl
  | cons record records ih =>
    rw [kept_cons]
    by_cases h : Fits limit bytes record records
    · have hle := h.2
      rw [if_pos h, payloadBytes_cons, after_cons_of_fits h]
      show (after limit bytes records).remainingBytes - record.payload.length + _ = bytes
      omega
    · rw [if_neg h, after_cons_of_not_fits h]
      exact ih

theorem fits_iff : Fits limit bytes record records ↔ (kept limit bytes records).length < limit ∧
    record.payload.length + payloadBytes (kept limit bytes records) ≤ bytes := by
  have hbytes := @remainingBytes_add limit bytes records
  constructor
  · rintro ⟨hlen, hle⟩
    exact ⟨hlen, by omega⟩
  · rintro ⟨hlen, hle⟩
    exact ⟨hlen, by omega⟩

theorem omitted_eq : ∃ n b, (kept limit bytes records).length + n = records.length ∧
    payloadBytes (kept limit bytes records) + b = payloadBytes records ∧
    (after limit bytes records).omittedRecords = min n u64Max ∧
    (after limit bytes records).omittedPayloadBytes = min b u64Max := by
  induction records with
  | nil =>
    refine ⟨0, 0, rfl, rfl, ?_, ?_⟩
    · rw [Nat.zero_min, after, reverse_nil, foldl_nil]
    · rw [Nat.zero_min, after, reverse_nil, foldl_nil]
  | cons record records ih =>
    obtain ⟨n, b, hlen, hbytes, hn, hb⟩ := ih
    rw [kept_cons, payloadBytes_cons, length_cons]
    by_cases h : Fits limit bytes record records
    · rw [if_pos h, payloadBytes_cons, length_cons, after_cons_of_fits h]
      exact ⟨n, b, by omega, by omega, hn, hb⟩
    · rw [if_neg h, after_cons_of_not_fits h]
      refine ⟨n + 1, b + record.payload.length, by omega, by omega, ?_, ?_⟩
      · rw [hn, saturatingAdd_min]
      · rw [hb, saturatingAdd_min]

theorem kept_append (older : List OperationLogRecordRef) : ∃ selected, selected.Sublist older ∧
    kept limit bytes (older ++ records) = selected ++ kept limit bytes records := by
  induction older with
  | nil => exact ⟨[], List.Sublist.refl [], rfl⟩
  | cons record older ih =>
    obtain ⟨selected, hsub, heq⟩ := ih
    rw [cons_append, kept_cons, heq]
    split_ifs
    · exact ⟨record :: selected, hsub.cons_cons record, rfl⟩
    · exact ⟨selected, hsub.cons record, rfl⟩

/-- The records stand in increasing order of their offsets. -/
abbrev Sorted (records : List OperationLogRecordRef) : Prop := records.Pairwise fun a b => a.offset < b.offset

theorem filter_mem_kept {older : List OperationLogRecordRef} (hsorted : Sorted (older ++ records)) :
    records.filter (fun r => decide (r ∈ kept limit bytes (older ++ records))) = kept limit bytes records := by
  obtain ⟨selected, hsub, heq⟩ := @kept_append limit bytes records older
  have hpair := pairwise_append.mp hsorted
  refine Ranking.eq_of_mem_iff (hpair.2.1.filter _) (hpair.2.1.sublist kept_sublist) fun r => ?_
  rw [mem_filter, decide_eq_true_eq, heq, mem_append]
  constructor
  · rintro ⟨hr, hin | hin⟩
    · exact absurd (hpair.2.2 r (hsub.subset hin) r hr) (lt_irrefl _)
    · exact hin
  · exact fun hin => ⟨kept_sublist.subset hin, .inr hin⟩

theorem mem_kept_iff {older : List OperationLogRecordRef} (hsorted : Sorted (older ++ record :: records)) :
    record ∈ kept limit bytes (older ++ record :: records) ↔ Fits limit bytes record records := by
  obtain ⟨selected, hsub, heq⟩ := @kept_append limit bytes (record :: records) older
  have hpair := pairwise_append.mp hsorted
  have holder : record ∉ selected := fun hin =>
    lt_irrefl _ (hpair.2.2 record (hsub.subset hin) record mem_cons_self)
  have hnewer : record ∉ kept limit bytes records := fun hin =>
    lt_irrefl _ ((pairwise_cons.mp hpair.2.1).1 record (kept_sublist.subset hin))
  rw [heq, mem_append, or_iff_right holder, kept_cons]
  split_ifs with h
  · exact iff_of_true mem_cons_self h
  · exact iff_of_false hnewer h

end Loop

/-! ### The query -/

theorem sorted_of_increasing : ∀ {records : List OperationLogRecordRef}, increasing records = true → Sorted records := by
  intro records h
  apply List.IsChain.pairwise
  induction records with
  | nil => exact .nil
  | cons first records ih =>
    cases records with
    | nil => exact .singleton first
    | cons second records =>
      rw [increasing, Bool.and_eq_true, decide_eq_true_eq] at h
      exact .cons_cons h.1 (ih h.2)

theorem selectOperationLogs_ok {records : List OperationLogRecordRef} {query : OperationLogQuery}
    {result : OperationLogQueryResult} (h : selectOperationLogs records query = .ok result) :
    increasing records = true ∧ ∃ limit, limit = min query.maxRecords (candidatesOf records query).length ∧
      result.entries = kept limit query.maxPayloadBytes (candidatesOf records query) ∧
      result.omittedRecords = (after limit query.maxPayloadBytes (candidatesOf records query)).omittedRecords ∧
      result.omittedPayloadBytes =
        (after limit query.maxPayloadBytes (candidatesOf records query)).omittedPayloadBytes := by
  unfold selectOperationLogs at h
  cases hinc : increasing records with
  | false =>
    rw [if_pos hinc] at h
    cases h
  | true =>
    rw [hinc, if_neg (by decide)] at h
    cases hlatest : checkLatest records query with
    | error e =>
      rw [hlatest] at h
      cases h
    | ok u =>
      rw [hlatest] at h
      cases h
      exact ⟨rfl, _, rfl, rfl, rfl, rfl⟩

theorem candidatesOf_eq (records : List OperationLogRecordRef) (query : OperationLogQuery) :
    candidatesOf records query =
      (records.filter fun record => ∀ after ∈ query.afterOffset, after < record.offset).rtake query.tail := by
  have hbehind : ∀ record : OperationLogRecordRef, (query.afterOffset.all fun after => decide (after < record.offset)) =
      decide (∀ after ∈ query.afterOffset, after < record.offset) := by
    intro record
    cases query.afterOffset <;> simp
  simp only [candidatesOf, hbehind, rtake]
  congr 1
  omega

/-- **The selection is the greedy one from the newest candidate on**: the candidates are the last `tail` records behind
the cursor. -/
theorem selectOperationLogs_greedy (records : List OperationLogRecordRef) (query : OperationLogQuery)
    (result : OperationLogQueryResult) (hlen : records.length ≤ u64Max)
    (h : selectOperationLogs records query = .ok result) :
    let candidates :=
      (records.filter fun record => ∀ after ∈ query.afterOffset, after < record.offset).rtake query.tail
    result.entries.Sublist candidates ∧ Sorted result.entries ∧
    result.entries.length ≤ query.maxRecords ∧ payloadBytes result.entries ≤ query.maxPayloadBytes ∧
    result.entries.length + result.omittedRecords = candidates.length ∧
    (payloadBytes candidates - payloadBytes result.entries ≤ u64Max →
      payloadBytes result.entries + result.omittedPayloadBytes = payloadBytes candidates) ∧
    ∀ older record newer, candidates = older ++ record :: newer →
      (record ∈ result.entries ↔
        (newer.filter fun r => decide (r ∈ result.entries)).length < query.maxRecords ∧
        record.payload.length + payloadBytes (newer.filter fun r => decide (r ∈ result.entries)) ≤
          query.maxPayloadBytes) := by
  dsimp only
  rw [← candidatesOf_eq]
  obtain ⟨hinc, limit, hlimit, hentries, hrecords, hbytes⟩ := selectOperationLogs_ok h
  have hsub : (candidatesOf records query).Sublist records := (drop_sublist _ _).trans filter_sublist
  have hsorted : Sorted (candidatesOf records query) := (sorted_of_increasing hinc).sublist hsub
  have hcount := hsub.length_le
  obtain ⟨n, b, hn, hb, hn', hb'⟩ := @omitted_eq limit query.maxPayloadBytes (candidatesOf records query)
  have hbudget := @remainingBytes_add limit query.maxPayloadBytes (candidatesOf records query)
  have hlimit' := @length_kept_le limit query.maxPayloadBytes (candidatesOf records query)
  rw [hentries, hrecords, hbytes]
  refine ⟨kept_sublist, hsorted.sublist kept_sublist, by omega, by omega, by omega, fun hfew => by omega, ?_⟩
  intro older record newer heq
  rw [heq] at hsorted hlimit ⊢
  -- among the newer records fewer than all candidates are selected, so the number of candidates is no limit
  have hnewer : (kept limit query.maxPayloadBytes newer).length < (older ++ record :: newer).length := by
    have hle := (@kept_sublist limit query.maxPayloadBytes newer).length_le
    rw [length_append, length_cons]
    omega
  have hfilter : (newer.filter fun r => decide (r ∈ kept limit query.maxPayloadBytes (older ++ record :: newer))) =
      kept limit query.maxPayloadBytes newer := by
    have hrest := @filter_mem_kept limit query.maxPayloadBytes newer (older ++ [record])
    rw [append_assoc] at hrest
    exact hrest hsorted
  rw [hfilter, mem_kept_iff hsorted, fits_iff]
  constructor
  · rintro ⟨hfew, hfit⟩
    exact ⟨by omega, hfit⟩
  · rintro ⟨hfew, hfit⟩
    exact ⟨by omega, hfit⟩

/-- A tail of three records and room for four bytes: the second is too large, the first is selected behind it. -/
theorem selectOperationLogs_greedy_oversized :
    let records : List OperationLogRecordRef :=
      [⟨1, 0, [], []⟩, ⟨2, 0, [], [0]⟩, ⟨3, 0, [], [0, 0]⟩, ⟨4, 0, [], [0, 0, 0, 0]⟩, ⟨5, 0, [], [0]⟩]
    let query : OperationLogQuery := ⟨some 1, 3, 2, 4, none, some 5⟩
    let result : OperationLogQueryResult := ⟨[⟨3, 0, [], [0, 0]⟩, ⟨5, 0, [], [0]⟩], some 1, some 5, none, true, 1, 4⟩
    selectOperationLogs records query = .ok result ∧
      result.entries.length + result.omittedRecords = (records.drop 2).length := by
  intro records query result
  have hok : selectOperationLogs records query = .ok result := rfl
  have hlen : records.length ≤ u64Max := by decide
  obtain ⟨-, -, -, -, hcount, -⟩ := selectOperationLogs_greedy records query result hlen hok
  exact ⟨hok, hcount⟩

end McpToolkit.Logs
