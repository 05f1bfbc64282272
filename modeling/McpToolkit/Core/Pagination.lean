import Mathlib.Data.Finset.Insert
import Mathlib.Data.List.Chain
import McpToolkit.Lib.Decimal

/-!
# McpToolkit.Core.Pagination — paged lists and their collection

`pagination.rs`.  Texts are lists of characters, and `usize` has 64 bits.  A server is a function of
its own state and the cursor, so it can answer as it likes; `collectPaginatedList` also returns the
calls it made.

`paginate_list` hands out the offset of the next page as the cursor.  Collecting its pages gives the
list back, if the limits allow for its items and its pages (`drain_listServer`); with any server, what
is collected is what the server answered (`drained_collect`).
-/

namespace McpToolkit.Core

open List
open Lib.Decimal (decimal decimal_injective digitChar_toNat parseU64 parseU64_decimal)
open Lib.Word (u64Max)

/-! ### Collecting -/

structure FetchedListPage (T : Type) where
  items : List T
  nextCursor : Option (List Char)
  deriving DecidableEq

structure ListDrainLimits where
  maxPages : ℕ
  maxItems : ℕ
  deriving DecidableEq

inductive ListDrainError (E : Type)
  | emptyPageLimit
  | emptyItemLimit
  | fetch (error : E)
  | repeatedCursor (cursor : List Char)
  | pageLimitExceeded (maxPages : ℕ)
  | itemLimitExceeded (maxItems observedItems : ℕ)
  deriving DecidableEq

/-- A call of `fetch_page`: the cursor it was given, and its answer. -/
structure FetchCall (T E : Type) where
  cursor : Option (List Char)
  answer : Except E (FetchedListPage T)

section Collect

variable {σ T E : Type} (limits : ListDrainLimits)
  (fetchPage : σ → Option (List Char) → Except E (FetchedListPage T) × σ)

/-- The loop, with the number of pages that are left. -/
def drain : ℕ → List T → Option (List Char) → Finset (List Char) → σ →
    Except (ListDrainError E) (List T) × List (FetchCall T E)
  | 0, _, _, _, _ => (.error (.pageLimitExceeded limits.maxPages), [])
  | pages + 1, items, cursor, seenCursors, server =>
    let (answer, server) := fetchPage server cursor
    match answer with
    | .error error => (.error (.fetch error), [⟨cursor, .error error⟩])
    | .ok page =>
      let observedItems := min (items.length + page.items.length) u64Max
      if limits.maxItems < observedItems then
        (.error (.itemLimitExceeded limits.maxItems observedItems), [⟨cursor, .ok page⟩])
      else
        match page.nextCursor with
        | none => (.ok (items ++ page.items), [⟨cursor, .ok page⟩])
        | some nextCursor =>
          if nextCursor ∈ seenCursors then
            (.error (.repeatedCursor nextCursor), [⟨cursor, .ok page⟩])
          else
            let (result, calls) :=
              drain pages (items ++ page.items) (some nextCursor) (insert nextCursor seenCursors) server
            (result, ⟨cursor, .ok page⟩ :: calls)

def collectPaginatedList (server : σ) : Except (ListDrainError E) (List T) × List (FetchCall T E) :=
  if limits.maxPages = 0 then (.error .emptyPageLimit, [])
  else if limits.maxItems = 0 then (.error .emptyItemLimit, [])
  else drain limits fetchPage limits.maxPages [] none ∅ server

end Collect

/-! ### Paging -/

structure ListPage (T : Type) where
  items : List T
  nextCursor : Option (List Char)
  start : ℕ
  stop : ℕ
  total : ℕ
  deriving DecidableEq

inductive PaginationError
  | emptyPageSize
  | invalidCursor (cursor : List Char)
  | cursorOutOfRange (offset total : ℕ)
  deriving DecidableEq

structure PaginatedRequestParams where
  cursor : Option (List Char)
  deriving DecidableEq

def cursorHead : List Char := "mcp-toolkit-offset-v1:".toList

def parseCursor (cursor : List Char) : Except PaginationError ℕ :=
  if cursorHead.isPrefixOf cursor then
    match parseU64 (cursor.drop cursorHead.length) with
    | some offset => .ok offset
    | none => .error (.invalidCursor cursor)
  else .error (.invalidCursor cursor)

/-- The offset that a request asks for. -/
def requestStart (request : Option PaginatedRequestParams) : Except PaginationError ℕ :=
  match request.bind PaginatedRequestParams.cursor with
  | some cursor => parseCursor cursor
  | none => .ok 0

section Paginate

variable {T : Type}

def paginateList (items : List T) (request : Option PaginatedRequestParams) (pageSize : ℕ) :
    Except PaginationError (ListPage T) :=
  if pageSize = 0 then .error .emptyPageSize
  else
    (requestStart request).bind fun start =>
      if items.length < start then .error (.cursorOutOfRange start items.length)
      else
        let stop := min (min (start + pageSize) u64Max) items.length
        let nextCursor := if stop < items.length then some (cursorHead ++ decimal Nat.digitChar stop) else none
        .ok ⟨(items.take stop).drop start, nextCursor, start, stop, items.length⟩

/-- A server without state that answers with the pages of a list. -/
def listServer (items : List T) (pageSize : ℕ) (server : Unit) (cursor : Option (List Char)) :
    Except PaginationError (FetchedListPage T) × Unit :=
  ((paginateList items (some ⟨cursor⟩) pageSize).map fun page => ⟨page.items, page.nextCursor⟩, server)

end Paginate

/-- The number of pages of a list; an empty list has one. -/
def pageCount (total pageSize : ℕ) : ℕ := max 1 ((total + pageSize - 1) / pageSize)

/-! ### Any server -/

section Collect

variable {σ T E : Type} {limits : ListDrainLimits}
  {fetchPage : σ → Option (List Char) → Except E (FetchedListPage T) × σ}

/-- The second call passes the cursor that the first one was answered with. -/
def Follows (call call' : FetchCall T E) : Prop :=
  ∃ page nextCursor, call.answer = .ok page ∧ page.nextCursor = some nextCursor ∧ call'.cursor = some nextCursor

/-- The items are those of all the answers, and the last answer had no cursor. -/
def Gathers (calls : List (FetchCall T E)) (items : List T) : Prop :=
  ∃ pages last, calls.map FetchCall.answer = (pages ++ [last]).map Except.ok ∧
    items = (pages ++ [last]).flatMap FetchedListPage.items ∧ last.nextCursor = none

theorem Gathers.cons {call : FetchCall T E} {page : FetchedListPage T} {calls : List (FetchCall T E)}
    {items : List T} (hcall : call.answer = .ok page) (h : Gathers calls items) :
    Gathers (call :: calls) (page.items ++ items) := by
  obtain ⟨pages, last, hanswers, rfl, hlast⟩ := h
  exact ⟨page :: pages, last, by simp [hcall, hanswers], by simp, hlast⟩

variable (fetchPage) in
/-- The calls are those that were made of `fetchPage`, from a state of the server on, and their answers. -/
def Answered : σ → List (FetchCall T E) → Prop
  | _, [] => True
  | server, call :: calls =>
    (fetchPage server call.cursor).1 = call.answer ∧ Answered (fetchPage server call.cursor).2 calls

variable (fetchPage) in
/-- What the loop does with any server. -/
structure Drained (server : σ) (pages : ℕ) (items : List T) (cursor : Option (List Char))
    (out : Except (ListDrainError E) (List T) × List (FetchCall T E)) : Prop where
  answered : Answered fetchPage server out.2
  length_le : out.2.length ≤ pages
  head : ∀ call ∈ out.2.head?, call.cursor = cursor
  follows : out.2.IsChain Follows
  gathers : ∀ result, out.1 = .ok result → ∃ fetched, result = items ++ fetched ∧ Gathers out.2 fetched

theorem Drained.single {server : σ} {pages : ℕ} {items : List T} {cursor : Option (List Char)}
    {answer : Except E (FetchedListPage T)} {result : Except (ListDrainError E) (List T)}
    (hfetch : (fetchPage server cursor).1 = answer) (h : ∀ collected, result = .ok collected →
      ∃ fetched, collected = items ++ fetched ∧ Gathers [⟨cursor, answer⟩] fetched) :
    Drained fetchPage server (pages + 1) items cursor (result, [⟨cursor, answer⟩]) where
  answered := ⟨hfetch, trivial⟩
  length_le := Nat.succ_le_succ (Nat.zero_le _)
  head _ hcall := (Option.some.inj hcall) ▸ rfl
  follows := isChain_singleton _
  gathers := h

theorem drained_drain (pages : ℕ) (items : List T) (cursor : Option (List Char))
    (seenCursors : Finset (List Char)) (server : σ) :
    Drained fetchPage server pages items cursor (drain limits fetchPage pages items cursor seenCursors server) := by
  induction pages generalizing items cursor seenCursors server with
  | zero => exact ⟨trivial, le_rfl, fun _ h => (by cases h), isChain_nil, fun _ h => (by cases h)⟩
  | succ pages ih =>
    unfold drain
    cases hfetch : fetchPage server cursor with
    | mk answer server' =>
      have hanswer := congrArg Prod.fst hfetch
      cases answer with
      | error error => exact Drained.single hanswer fun _ h => by cases h
      | ok page =>
        dsimp only
        split_ifs with hfull
        · exact Drained.single hanswer fun _ h => by cases h
        · cases hnext : page.nextCursor with
          | none =>
            refine Drained.single hanswer fun collected h => ⟨page.items, (Except.ok.inj h).symm, [], page, rfl, ?_, hnext⟩
            simp
          | some nextCursor =>
            dsimp only
            split_ifs with hseen
            · exact Drained.single hanswer fun _ h => by cases h
            · have hrest := ih (items ++ page.items) (some nextCursor) (insert nextCursor seenCursors) server'
              refine ⟨⟨hanswer, ?_⟩, Nat.succ_le_succ hrest.length_le, fun _ h => (Option.some.inj h) ▸ rfl, ?_, fun result h => ?_⟩
              · rw [hfetch]
                exact hrest.answered
              · refine isChain_cons.mpr ⟨fun call hcall => ?_, hrest.follows⟩
                exact ⟨page, nextCursor, rfl, hnext, hrest.head call hcall⟩
              · obtain ⟨fetched, rfl, hgathers⟩ := hrest.gathers result h
                exact ⟨page.items ++ fetched, append_assoc _ _ _, hgathers.cons rfl⟩

theorem drained_collect (server : σ) :
    Drained fetchPage server limits.maxPages [] none (collectPaginatedList limits fetchPage server) := by
  have hnone : ∀ error : ListDrainError E, Drained fetchPage server limits.maxPages [] none (.error error, []) :=
    fun error => ⟨trivial, Nat.zero_le _, fun _ h => (by cases h), isChain_nil, fun _ h => (by cases h)⟩
  unfold collectPaginatedList
  split_ifs
  · exact hnone _
  · exact hnone _
  · exact drained_drain _ _ _ _ _

end Collect

/-! ### The pages of a list -/

theorem parseCursor_decimal {n : ℕ} (h : n ≤ u64Max) : parseCursor (cursorHead ++ decimal Nat.digitChar n) = .ok n := by
  have hhead : cursorHead.isPrefixOf (cursorHead ++ decimal Nat.digitChar n) = true :=
    List.isPrefixOf_iff_prefix.mpr (prefix_append _ _)
  rw [parseCursor, if_pos hhead, drop_left, parseU64_decimal h]

theorem cursor_injective {n n' : ℕ} (h : cursorHead ++ decimal Nat.digitChar n = cursorHead ++ decimal Nat.digitChar n') :
    n = n' :=
  decimal_injective (fun c : Char => c.toNat - 48) digitChar_toNat (append_cancel_left h)

theorem pageCount_le_iff {total pageSize pages : ℕ} (hsize : 1 ≤ pageSize) :
    pageCount total pageSize ≤ pages ↔ 1 ≤ pages ∧ total ≤ pages * pageSize := by
  rw [pageCount, max_le_iff, Nat.div_le_iff_le_mul_add_pred hsize, Nat.mul_comm]
  omega

section Paginate

variable {T : Type}

/-- The cursor of the page with this number. -/
def pageCursor (pageSize : ℕ) : ℕ → Option (List Char)
  | 0 => none
  | k + 1 => some (cursorHead ++ decimal Nat.digitChar ((k + 1) * pageSize))

variable {pageSize k : ℕ} {items : List T}

theorem requestStart_pageCursor (h : k * pageSize ≤ u64Max) :
    requestStart (some ⟨pageCursor pageSize k⟩) = .ok (k * pageSize) := by
  cases k with
  | zero => rw [Nat.zero_mul]; rfl
  | succ k => exact parseCursor_decimal h

theorem listServer_pageCursor (hsize : 1 ≤ pageSize)
    (hlength : items.length ≤ u64Max) (hk : k * pageSize ≤ items.length) :
    listServer items pageSize () (pageCursor pageSize k) = (.ok ⟨(items.take ((k + 1) * pageSize)).drop (k * pageSize),
        if (k + 1) * pageSize < items.length then pageCursor pageSize (k + 1) else none⟩, ()) := by
  have hnext : k * pageSize + pageSize = (k + 1) * pageSize := (Nat.succ_mul k pageSize).symm
  rw [listServer, paginateList, if_neg (by omega), requestStart_pageCursor (hk.trans hlength)]
  show (Except.map _ (if items.length < k * pageSize then _ else _), ()) = _
  rw [if_neg (not_lt.mpr hk), hnext]
  by_cases hmore : (k + 1) * pageSize < items.length
  · have hstop : min (min ((k + 1) * pageSize) u64Max) items.length = (k + 1) * pageSize := by omega
    rw [if_pos hmore, hstop, if_pos hmore]
    rfl
  · have hstop : min (min ((k + 1) * pageSize) u64Max) items.length = items.length := by omega
    rw [if_neg hmore, hstop, if_neg (lt_irrefl _), take_length, take_of_length_le (by omega)]
    rfl

/-- The items are given back if the limits allow for them, and otherwise there is an error. -/
def Collects (allowed : Prop) (items : List T) (result : Except (ListDrainError PaginationError) (List T)) : Prop :=
  (allowed → result = .ok items) ∧ (¬allowed → ∃ error, result = .error error)

theorem Collects.error {allowed : Prop} {error : ListDrainError PaginationError}
    (h : ¬allowed) : Collects allowed items (.error error) :=
  ⟨fun hallowed => absurd hallowed h, fun _ => ⟨error, rfl⟩⟩

theorem take_append_drop_take (items : List T) {m n : ℕ} (h : m ≤ n) :
    items.take m ++ (items.take n).drop m = items.take n := by
  have htake : (items.take n).take m = items.take m := by rw [take_take, min_eq_left h]
  rw [← htake, take_append_drop]

/-- Only cursors of the pages up to `k` were seen. -/
def SeenUpTo (pageSize k : ℕ) (seenCursors : Finset (List Char)) : Prop :=
  ∀ cursor ∈ seenCursors, ∃ j ≤ k, cursor = cursorHead ++ decimal Nat.digitChar (j * pageSize)

theorem SeenUpTo.not_mem_next {seenCursors : Finset (List Char)} (hsize : 1 ≤ pageSize)
    (h : SeenUpTo pageSize k seenCursors) : cursorHead ++ decimal Nat.digitChar ((k + 1) * pageSize) ∉ seenCursors := by
  intro hmem
  obtain ⟨j, hj, heq⟩ := h _ hmem
  have hjk : (k + 1) * pageSize = j * pageSize := cursor_injective heq
  have hsame := Nat.eq_of_mul_eq_mul_right hsize hjk
  omega

theorem SeenUpTo.next {seenCursors : Finset (List Char)} (h : SeenUpTo pageSize k seenCursors) :
    SeenUpTo pageSize (k + 1) (insert (cursorHead ++ decimal Nat.digitChar ((k + 1) * pageSize)) seenCursors) := by
  intro cursor hcursor
  rcases Finset.mem_insert.mp hcursor with rfl | hcursor
  · exact ⟨k + 1, le_rfl, rfl⟩
  · obtain ⟨j, hj, heq⟩ := h cursor hcursor
    exact ⟨j, by omega, heq⟩

/-- **Collecting from page `k` on.**  What was collected are the pages before it, and the cursors that
were seen are theirs. -/
theorem drain_listServer (limits : ListDrainLimits) (hsize : 1 ≤ pageSize)
    (hlength : items.length ≤ u64Max) (pages k : ℕ) (seenCursors : Finset (List Char))
    (hk : k * pageSize ≤ items.length) (hseen : SeenUpTo pageSize k seenCursors) :
    Collects (items.length ≤ limits.maxItems ∧ 1 ≤ pages ∧ items.length ≤ (k + pages) * pageSize) items
      (drain limits (listServer items pageSize) pages (items.take (k * pageSize)) (pageCursor pageSize k)
        seenCursors ()).1 := by
  induction pages generalizing k seenCursors with
  | zero => exact Collects.error (by omega)
  | succ pages ih =>
    have hstep : k * pageSize ≤ (k + 1) * pageSize := Nat.mul_le_mul_right _ (Nat.le_succ k)
    have hrest : (k + 1) * pageSize ≤ (k + (pages + 1)) * pageSize := Nat.mul_le_mul_right _ (by omega)
    unfold drain
    rw [listServer_pageCursor hsize hlength hk]
    dsimp only
    rw [← length_append, take_append_drop_take items hstep, length_take]
    by_cases hfull : limits.maxItems < min (min ((k + 1) * pageSize) items.length) u64Max
    · rw [if_pos hfull]
      exact Collects.error (by omega)
    rw [if_neg hfull]
    by_cases hmore : (k + 1) * pageSize < items.length
    · -- another page
      have hsum : (k + 1) + pages = k + (pages + 1) := by omega
      have hih := ih (k + 1) _ hmore.le hseen.next
      rw [hsum] at hih
      rw [if_pos hmore]
      dsimp only [pageCursor] at hih ⊢
      rw [if_neg (hseen.not_mem_next hsize)]
      refine ⟨fun hallowed => hih.1 ⟨hallowed.1, ?_, hallowed.2.2⟩,
        fun hnot => hih.2 fun hallowed => hnot ⟨hallowed.1, by omega, hallowed.2.2⟩⟩
      -- without a page left, the next page would be the end of the list
      by_contra hnone
      have hend := hallowed.2.2
      rw [show k + (pages + 1) = k + 1 by omega] at hend
      omega
    · -- the last page
      have hlast : items.take ((k + 1) * pageSize) = items := take_of_length_le (by omega)
      rw [if_neg hmore]
      rw [hlast]
      exact ⟨fun _ => rfl, fun hnot => absurd ⟨by omega, by omega, by omega⟩ hnot⟩

end Paginate

/-- **Collecting is complete and exact.**  With `paginate_list` as the server the list is given back, in
order, if it has no more items than allowed and no more pages than allowed; otherwise there is an
error.  With any server the calls are those that were made of it, at most `max_pages`, the first without
a cursor and each other with the cursor of the answer before it; and what is collected are the items of
all the answers, the last of which had no cursor. -/
theorem collectPaginatedList_exact (limits : ListDrainLimits) :
    (∀ (T : Type) (items : List T) (pageSize : ℕ), items.length ≤ u64Max → 1 ≤ pageSize →
      0 < limits.maxPages → 0 < limits.maxItems →
      Collects (items.length ≤ limits.maxItems ∧ pageCount items.length pageSize ≤ limits.maxPages) items
        (collectPaginatedList limits (listServer items pageSize) ()).1) ∧
    ∀ (σ T E : Type) (fetchPage : σ → Option (List Char) → Except E (FetchedListPage T) × σ) (server : σ),
      Answered fetchPage server (collectPaginatedList limits fetchPage server).2 ∧
      (collectPaginatedList limits fetchPage server).2.length ≤ limits.maxPages ∧
      (∀ call ∈ (collectPaginatedList limits fetchPage server).2.head?, call.cursor = none) ∧
      (collectPaginatedList limits fetchPage server).2.IsChain Follows ∧
      ∀ items, (collectPaginatedList limits fetchPage server).1 = .ok items →
        Gathers (collectPaginatedList limits fetchPage server).2 items := by
  constructor
  · intro T items pageSize hlength hsize hpages hitems
    have hdrain := drain_listServer limits hsize hlength limits.maxPages 0 ∅
      (by rw [Nat.zero_mul]; exact Nat.zero_le _) (fun _ h => absurd h (Finset.notMem_empty _))
    rw [Nat.zero_mul, Nat.zero_add] at hdrain
    rw [collectPaginatedList, if_neg (by omega), if_neg (by omega), pageCount_le_iff hsize]
    exact hdrain
  · intro σ T E fetchPage server
    have hdrained : Drained fetchPage server limits.maxPages [] none (collectPaginatedList limits fetchPage server) :=
      drained_collect server
    refine ⟨hdrained.answered, hdrained.length_le, hdrained.head, hdrained.follows, fun items h => ?_⟩
    obtain ⟨fetched, rfl, hgathers⟩ := hdrained.gathers items h
    exact hgathers

/-- Three items in two pages. -/
theorem collectPaginatedList_twoPages :
    (collectPaginatedList ⟨2, 3⟩ (listServer ["a", "b", "c"] 2) ()).1 = .ok ["a", "b", "c"] :=
  (((collectPaginatedList_exact ⟨2, 3⟩).1 String ["a", "b", "c"] 2 (by decide) (by decide) (by decide)
    (by decide)).1 (by decide))

end McpToolkit.Core
