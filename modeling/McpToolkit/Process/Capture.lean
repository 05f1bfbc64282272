import McpToolkit.Lib.System
import McpToolkit.Process.Supervisor

/-!
# McpToolkit.Process.Capture — bounded capture of two output streams

`capture` as a state machine: the top of its loop, where the status of the process is looked at, one poll of the
`select!`, and the last look at the status.  A poll finds the clock at some instant, a change of the status or none, and
a read of one of the streams that is ready or none; the branches have the priorities of the source.  How a stream is cut
into reads, when the deadlines pass and when the process exits is up to the inputs.

A reader has a `position` in its stream, which only the proofs look at: what it retains is determined by it.
-/

namespace McpToolkit.Process.Capture

open List
open Lib

inductive CaptureEnd
  | complete
  | timeout
  | outputLimitExceeded
  | readFailed
  | incompleteCapture
  | supervisorUnavailable
  deriving DecidableEq

inductive CaptureError
  | invalidDeadline
  | spawnFailed
  | missingPipe
  deriving DecidableEq

inductive Output
  | stdout
  | stderr
  deriving DecidableEq

structure CaptureLimits where
  bytes : Output → ℕ
  timeout : ℕ
  eofTimeout : ℕ

/-- What one `read` returns. -/
inductive ReadResult
  | failed
  | ready (count : ℕ)

/-- A call of `read_bounded`: the bytes it has retained, how far it has read, and whether it has returned `Ok`. -/
structure Reader where
  bytes : List UInt8
  position : ℕ
  done : Bool

namespace Reader

def start : Reader := ⟨[], 0, false⟩

/-- A read fills at most the buffer, from what is left of the stream, and is empty only at its end. -/
def Allows (r : Reader) (stream : List UInt8) : ReadResult → Prop
  | .failed => True
  | .ready count => count ≤ 8192 ∧ count ≤ stream.length - r.position ∧ (count = 0 → r.position = stream.length)

instance (r : Reader) (stream : List UInt8) : DecidablePred (r.Allows stream)
  | .failed => inferInstanceAs (Decidable True)
  | .ready _ => inferInstanceAs (Decidable (_ ∧ _))

/-- One turn of the loop in `read_bounded`, with the error that it returns. -/
def readBounded (r : Reader) (stream : List UInt8) (limit : ℕ) : ReadResult → Reader × Option CaptureEnd
  | .failed => (r, some .readFailed)
  | .ready count =>
    if count = 0 then ({ r with done := true }, none)
    else
      let buffer := (stream.drop r.position).take count
      let remaining := limit - r.bytes.length
      let r' : Reader :=
        { r with bytes := r.bytes ++ buffer.take (min count remaining), position := r.position + count }
      if remaining < count then (r', some .outputLimitExceeded) else (r', none)

end Reader

inductive Pc
  | top
  | select
  | left
  | returned
  deriving DecidableEq

/-- The variables of `capture`; `σ` is the type of exit statuses. -/
structure State (σ : Type) where
  readers : Output → Reader
  exitStatus : Option σ
  streamsDone : Bool
  eofDeadline : ℕ
  ending : CaptureEnd
  pc : Pc

inductive Input (σ : Type)
  /-- The status, if the process has exited, and the clock. -/
  | look (status : Option σ) (now : ℕ)
  /-- The clock, what `changed` returns (`false` for `None`), and a read that is ready. -/
  | poll (now : ℕ) (changed : Option Bool) (read : Option (Output × ReadResult))
  | leave (status : Option σ)

section Machine

variable {σ : Type} (streams : Output → List UInt8) (limits : CaptureLimits) (deadline : ℕ)

/-- `Instant::checked_add`. -/
def checkedAdd (now duration : ℕ) : Option ℕ := if now + duration ≤ instantMax then some (now + duration) else none

/-- Up to the loop: the deadline and the state. -/
def start (limits : CaptureLimits) (now : ℕ) (spawned piped : Bool) : Except CaptureError (ℕ × State σ) :=
  if limits.timeout = 0 then .error .invalidDeadline
  else
    match checkedAdd now limits.timeout, checkedAdd now limits.eofTimeout with
    | some deadline, some _ =>
      if !spawned then .error .spawnFailed
      else if !piped then .error .missingPipe
      else .ok (deadline, ⟨fun _ => .start, none, false, deadline, .complete, .top⟩)
    | _, _ => .error .invalidDeadline

def State.allDone (s : State σ) : Bool := (s.readers .stdout).done && (s.readers .stderr).done

/-- The branch of the `select!` that polls the readers: `try_join!` returns the first error, or when both are done. -/
def State.read (s : State σ) (o : Output) (result : ReadResult) : State σ :=
  let (r, error) := (s.readers o).readBounded (streams o) (limits.bytes o) result
  let s := { s with readers := Function.update s.readers o r }
  match error with
  | some ending => { s with streamsDone := true, ending := ending, pc := .left }
  | none => if s.allDone then { s with streamsDone := true, pc := .top } else s

/-- The first look of a turn of the loop. -/
def State.observe (s : State σ) (status : Option σ) (now : ℕ) : State σ :=
  if s.exitStatus.isNone && status.isSome then
    { s with exitStatus := status, eofDeadline := min ((checkedAdd now limits.eofTimeout).getD deadline) deadline }
  else s

def State.step (s : State σ) : Input σ → Option (State σ)
  | .look status now =>
    if s.pc = .top then
      let s := s.observe limits deadline status now
      some { s with pc := if s.exitStatus.isSome && s.streamsDone then .left else .select }
    else none
  | .poll now changed read =>
    if s.pc = .select then
      if deadline ≤ now then some { s with ending := .timeout, pc := .left }
      else if s.exitStatus.isSome && decide (s.eofDeadline ≤ now) then
        some { s with ending := .incompleteCapture, pc := .left }
      else if s.exitStatus.isNone && changed == some false then
        some { s with ending := .supervisorUnavailable, pc := .left }
      else if s.exitStatus.isNone && changed == some true then some { s with pc := .top }
      else if s.streamsDone then some s
      else
        match read with
        | none => some s
        | some (o, result) =>
          if (s.readers o).done = false ∧ (s.readers o).Allows (streams o) result then
            some (s.read streams limits o result)
          else none
    else none
  | .leave status => if s.pc = .left then some { s with exitStatus := status.or s.exitStatus, pc := .returned } else none

def system : System (State σ) (Input σ) := ⟨State.step streams limits deadline⟩

end Machine

/-! ### One reader -/

/-- What a reader retains is what it has read of the stream, up to the limit. -/
structure Reader.Inv (r : Reader) (stream : List UInt8) (limit : ℕ) : Prop where
  position_le : r.position ≤ stream.length
  bytes_eq : r.bytes = (stream.take r.position).take limit
  done_eq : r.done = true → r.position = stream.length

namespace Reader

variable {r : Reader} {stream : List UInt8} {limit : ℕ}

section

variable (h : r.Inv stream limit)
include h

theorem Inv.isPrefix : r.bytes <+: stream := by
  rw [h.bytes_eq]
  exact (List.take_prefix _ _).trans (List.take_prefix _ _)

theorem Inv.length_le : r.bytes.length ≤ limit := by
  rw [h.bytes_eq]
  exact length_take_le _ _

theorem Inv.eq_of_done (hdone : r.done = true) (hle : r.position ≤ limit) :
    r.bytes = stream ∧ stream.length ≤ limit := by
  have hlen := h.done_eq hdone
  have hbytes := h.bytes_eq
  rw [hlen, take_length, take_of_length_le (hlen ▸ hle)] at hbytes
  exact ⟨hbytes, hlen ▸ hle⟩

theorem Inv.eq_take (hlt : limit < r.position) : limit < stream.length ∧ r.bytes = stream.take limit := by
  refine ⟨Nat.lt_of_lt_of_le hlt h.position_le, ?_⟩
  rw [h.bytes_eq, take_take, Nat.min_eq_left (Nat.le_of_lt hlt)]

/-- **One read** keeps the invariant and the position within the limit, or ends with the error that says why not. -/
theorem Inv.readBounded (hle : r.position ≤ limit) {result : ReadResult}
    (hallows : r.Allows stream result) {r' : Reader} {error : Option CaptureEnd}
    (hread : r.readBounded stream limit result = (r', error)) :
    r'.Inv stream limit ∧ (error = none → r'.position ≤ limit) ∧ error ≠ some .complete ∧
      (error = some .outputLimitExceeded → limit < r'.position) := by
  cases result with
  | failed =>
    cases hread
    exact ⟨h, fun _ => hle, by decide, fun he => absurd he (by decide)⟩
  | ready count =>
    obtain ⟨-, hrest, hend⟩ := hallows
    unfold Reader.readBounded at hread
    dsimp only at hread
    by_cases hcount : count = 0
    · rw [if_pos hcount] at hread
      cases hread
      exact ⟨⟨h.position_le, h.bytes_eq, fun _ => hend hcount⟩, fun _ => hle, by decide, fun he => absurd he (by decide)⟩
    · rw [if_neg hcount] at hread
      have hpos := h.position_le
      have hbytes : r.bytes = stream.take r.position := by
        rw [h.bytes_eq]
        exact take_of_length_le (Nat.le_trans (length_take_le _ _) hle)
      have hlen : r.bytes.length = r.position := by
        rw [hbytes, length_take, min_eq_left hpos]
      -- the two pieces are one piece of the stream
      have hjoin : r.bytes ++ ((stream.drop r.position).take count).take (min count (limit - r.bytes.length)) =
          (stream.take (r.position + count)).take limit := by
        rw [take_take, hlen, hbytes, ← take_add, take_take]
        congr 1
        omega
      have hinv : Reader.Inv ⟨(stream.take (r.position + count)).take limit, r.position + count, r.done⟩ stream limit :=
        ⟨by show r.position + count ≤ stream.length; omega, rfl, fun hd => absurd (h.done_eq hd) (by omega)⟩
      rw [hjoin] at hread
      by_cases hover : limit - r.bytes.length < count
      · rw [if_pos hover] at hread
        cases hread
        exact ⟨hinv, fun he => absurd he (by decide), by decide, fun _ => by show limit < r.position + count; omega⟩
      · rw [if_neg hover] at hread
        cases hread
        exact ⟨hinv, fun _ => by show r.position + count ≤ limit; omega, by decide, fun he => absurd he (by decide)⟩

end

end Reader

/-! ### The capture -/

/-- Within the loop nothing has gone wrong; behind it the end says what has. -/
structure State.Inv {σ : Type} (s : State σ) (streams : Output → List UInt8) (caps : Output → ℕ) : Prop where
  readers : ∀ o, (s.readers o).Inv (streams o) (caps o)
  within : s.pc = .top ∨ s.pc = .select → s.ending = .complete ∧ (∀ o, (s.readers o).position ≤ caps o) ∧
    (s.streamsDone = true → ∀ o, (s.readers o).done = true)
  complete : s.pc = .left ∨ s.pc = .returned → s.ending = .complete →
    s.exitStatus.isSome = true ∧ ∀ o, (s.readers o).done = true ∧ (s.readers o).position ≤ caps o
  exceeded : s.pc = .left ∨ s.pc = .returned → s.ending = .outputLimitExceeded → ∃ o, caps o < (s.readers o).position

namespace State

variable {σ : Type} {streams : Output → List UInt8} {limits : CaptureLimits} {deadline : ℕ} {s s' : State σ}

theorem done_of_allDone (h : s.allDone = true) (o : Output) : (s.readers o).done = true := by
  rw [allDone, Bool.and_eq_true] at h
  cases o with
  | stdout => exact h.1
  | stderr => exact h.2

theorem Inv.of_loop (hreaders : ∀ o, (s.readers o).Inv (streams o) (limits.bytes o)) (hpc : s.pc = .top ∨ s.pc = .select)
    (hending : s.ending = .complete) (hposition : ∀ o, (s.readers o).position ≤ limits.bytes o)
    (hdone : s.streamsDone = true → ∀ o, (s.readers o).done = true) : s.Inv streams limits.bytes where
  readers := hreaders
  within := fun _ => ⟨hending, hposition, hdone⟩
  complete := fun hleft => by rcases hpc with hpc | hpc <;> rw [hpc] at hleft <;> rcases hleft with h | h <;> cases h
  exceeded := fun hleft => by rcases hpc with hpc | hpc <;> rw [hpc] at hleft <;> rcases hleft with h | h <;> cases h

theorem Inv.of_left (hreaders : ∀ o, (s.readers o).Inv (streams o) (limits.bytes o)) (hpc : s.pc = .left)
    (hcomplete : s.ending = .complete →
      s.exitStatus.isSome = true ∧ ∀ o, (s.readers o).done = true ∧ (s.readers o).position ≤ limits.bytes o)
    (hexceeded : s.ending = .outputLimitExceeded → ∃ o, limits.bytes o < (s.readers o).position) :
    s.Inv streams limits.bytes where
  readers := hreaders
  within := fun hloop => by rw [hpc] at hloop; rcases hloop with h | h <;> cases h
  complete := fun _ => hcomplete
  exceeded := fun _ => hexceeded

section

variable (h : s.Inv streams limits.bytes)
include h

theorem Inv.leave {ending : CaptureEnd} (hcomplete : ending ≠ .complete) (hexceeded : ending ≠ .outputLimitExceeded) :
    Inv { s with ending := ending, pc := .left } streams limits.bytes :=
  .of_left h.readers rfl (fun he => absurd he hcomplete) fun he => absurd he hexceeded

theorem Inv.observe (hpc : s.pc = .top) (status : Option σ) (now : ℕ) :
    (s.observe limits deadline status now).Inv streams limits.bytes ∧
      (s.observe limits deadline status now).pc = .top := by
  obtain ⟨hending, hposition, hdone⟩ := h.within (.inl hpc)
  unfold State.observe
  split_ifs
  · exact ⟨.of_loop h.readers (.inl hpc) hending hposition hdone, hpc⟩
  · exact ⟨h, hpc⟩

theorem Inv.turn (hpc : s.pc = .top) :
    Inv { s with pc := if s.exitStatus.isSome && s.streamsDone then .left else .select } streams limits.bytes := by
  obtain ⟨hending, hposition, hdone⟩ := h.within (.inl hpc)
  by_cases hout : (s.exitStatus.isSome && s.streamsDone) = true
  · rw [if_pos hout]
    rw [Bool.and_eq_true] at hout
    refine .of_left h.readers rfl (fun _ => ⟨hout.1, fun o => ⟨hdone hout.2 o, hposition o⟩⟩) fun he => ?_
    exact absurd (hending.symm.trans he) (by decide)
  · rw [if_neg hout]
    exact .of_loop h.readers (.inr rfl) hending hposition hdone

theorem Inv.read (hpc : s.pc = .select) (hopen : s.streamsDone = false) {o : Output}
    {result : ReadResult} (hallows : (s.readers o).Allows (streams o) result) :
    (s.read streams limits o result).Inv streams limits.bytes := by
  obtain ⟨hending, hposition, -⟩ := h.within (.inr hpc)
  unfold State.read
  generalize hread : (s.readers o).readBounded (streams o) (limits.bytes o) result = outcome
  obtain ⟨r, error⟩ := outcome
  obtain ⟨hr, hpos, hne, hover⟩ := (h.readers o).readBounded (hposition o) hallows hread
  have hreaders : ∀ o', (Function.update s.readers o r o').Inv (streams o') (limits.bytes o') := by
    intro o'
    by_cases ho : o' = o
    · subst ho
      rwa [Function.update_self]
    · rw [Function.update_of_ne ho]
      exact h.readers o'
  cases error with
  | some ending =>
    refine .of_left hreaders rfl (fun he => absurd (congrArg some he) hne) fun he => ⟨o, ?_⟩
    show limits.bytes o < (Function.update s.readers o r o).position
    rw [Function.update_self]
    exact hover (congrArg some he)
  | none =>
    have hposition' : ∀ o', (Function.update s.readers o r o').position ≤ limits.bytes o' := by
      intro o'
      by_cases ho : o' = o
      · subst ho
        rw [Function.update_self]
        exact hpos rfl
      · rw [Function.update_of_ne ho]
        exact hposition o'
    dsimp only
    split_ifs with hall
    · exact .of_loop hreaders (.inl rfl) hending hposition' fun _ => done_of_allDone hall
    · exact .of_loop hreaders (.inr hpc) hending hposition' fun hdone => absurd (hopen.symm.trans hdone) (by decide)

theorem Inv.step {input : Input σ}
    (hstep : s.step streams limits deadline input = some s') : s'.Inv streams limits.bytes := by
  unfold State.step at hstep
  cases input with
  | look status now =>
    dsimp only at hstep
    by_cases hpc : s.pc = .top
    · rw [if_pos hpc] at hstep
      cases hstep
      obtain ⟨hobs, hpc'⟩ := h.observe hpc status now
      exact hobs.turn hpc'
    · rw [if_neg hpc] at hstep
      cases hstep
  | leave status =>
    dsimp only at hstep
    split_ifs at hstep with hpc
    cases hstep
    refine ⟨h.readers, fun hloop => ?_, fun _ he => ?_, fun _ he => h.exceeded (.inl hpc) he⟩
    · rcases hloop with hloop | hloop <;> cases hloop
    · obtain ⟨hexit, hdone⟩ := h.complete (.inl hpc) he
      refine ⟨?_, hdone⟩
      show (status.or s.exitStatus).isSome = true
      rw [Option.isSome_or, hexit, Bool.or_true]
  | poll now changed read =>
    dsimp only at hstep
    split_ifs at hstep with hpc _ _ _ _ hdone
    · cases hstep; exact h.leave (by decide) (by decide)
    · cases hstep; exact h.leave (by decide) (by decide)
    · cases hstep; exact h.leave (by decide) (by decide)
    · cases hstep
      obtain ⟨hending, hposition, hd⟩ := h.within (.inr hpc)
      exact .of_loop h.readers (.inl rfl) hending hposition hd
    · cases hstep; exact h
    · cases read with
      | none => cases hstep; exact h
      | some ready =>
        dsimp only at hstep
        split_ifs at hstep with hallows
        cases hstep
        exact h.read hpc (Bool.not_eq_true _ ▸ hdone) hallows.2

end

end State

theorem start_inv {σ : Type} {limits : CaptureLimits} {now : ℕ} {spawned piped : Bool} {deadline : ℕ} {s : State σ}
    (h : start limits now spawned piped = .ok (deadline, s)) (streams : Output → List UInt8) :
    s.Inv streams limits.bytes := by
  have hreader : ∀ o, Reader.start.Inv (streams o) (limits.bytes o) := fun o =>
    ⟨Nat.zero_le _, by rw [Reader.start, take_zero, take_nil], fun hdone => by cases hdone⟩
  unfold start at h
  by_cases htimeout : limits.timeout = 0
  · rw [if_pos htimeout] at h
    cases h
  rw [if_neg htimeout] at h
  cases hdeadline : checkedAdd now limits.timeout with
  | none =>
    rw [hdeadline] at h
    cases h
  | some d =>
    cases heof : checkedAdd now limits.eofTimeout with
    | none =>
      rw [hdeadline, heof] at h
      cases h
    | some e =>
      rw [hdeadline, heof] at h
      cases spawned with
      | false => cases h
      | true =>
        cases piped with
        | false => cases h
        | true =>
          cases h
          exact .of_loop hreader (.inl rfl) rfl (fun _ => Nat.zero_le _) fun hdone => by cases hdone

/-- **What is captured is exact**, however the reads, the deadlines and the exit interleave. -/
theorem captured_exact {σ : Type} (streams : Output → List UInt8) (limits : CaptureLimits) {now : ℕ}
    {spawned piped : Bool} {deadline : ℕ} {s₀ s : State σ}
    (hstart : start limits now spawned piped = .ok (deadline, s₀)) (h : (system streams limits deadline).Reaches s₀ s) :
    (∀ o, (s.readers o).bytes <+: streams o ∧ (s.readers o).bytes.length ≤ limits.bytes o) ∧
    (s.pc = .returned → s.ending = .complete → s.exitStatus.isSome = true ∧
      ∀ o, (s.readers o).done = true ∧ (s.readers o).bytes = streams o ∧ (streams o).length ≤ limits.bytes o) ∧
    (s.pc = .returned → s.ending = .outputLimitExceeded →
      ∃ o, limits.bytes o < (streams o).length ∧ (s.readers o).bytes = (streams o).take (limits.bytes o)) := by
  have hinv : s.Inv streams limits.bytes := 
    System.Reaches.induct (I := fun t => t.Inv streams limits.bytes) (start_inv hstart streams)
      (fun hstep hI => hI.step hstep) h
  refine ⟨fun o => ⟨(hinv.readers o).isPrefix, (hinv.readers o).length_le⟩, fun hpc he => ?_, fun hpc he => ?_⟩
  · obtain ⟨hexit, hall⟩ := hinv.complete (.inr hpc) he
    refine ⟨hexit, fun o => ⟨(hall o).1, ?_⟩⟩
    exact (hinv.readers o).eq_of_done (hall o).1 (hall o).2
  · obtain ⟨o, hover⟩ := hinv.exceeded (.inr hpc) he
    exact ⟨o, (hinv.readers o).eq_take hover⟩

theorem captured_exact_twoBytes : ∃ s₀ s : State ℕ, start ⟨fun _ => 2, 5, 1⟩ 0 true true = .ok (5, s₀) ∧
    (system (fun o => if o = .stdout then [104, 105] else []) ⟨fun _ => 2, 5, 1⟩ 5).Reaches s₀ s ∧
    s.pc = .returned ∧ (s.readers .stdout).bytes = [104, 105] := by
  have hstart : start ⟨fun _ => 2, 5, 1⟩ 0 true true =
      .ok (5, (⟨fun _ => .start, none, false, 5, .complete, .top⟩ : State ℕ)) := rfl
  obtain ⟨s, hs, hpc, he⟩ :=
    (system (fun o => if o = .stdout then [104, 105] else []) ⟨fun _ => 2, 5, 1⟩ 5).exists_reaches_of_run
      (⟨fun _ => .start, none, false, 5, .complete, .top⟩ : State ℕ)
      [.look none 0, .poll 0 none (some (.stdout, .ready 2)), .poll 1 none (some (.stderr, .ready 0)),
        .poll 1 none (some (.stdout, .ready 0)), .look (some 0) 2, .leave none]
      (p := fun s => s.pc = .returned ∧ s.ending = .complete) (by decide)
  obtain ⟨-, hcomplete, -⟩ := captured_exact _ _ hstart hs
  exact ⟨_, s, hstart, hs, hpc, ((hcomplete hpc he).2 .stdout).2.1⟩

end McpToolkit.Process.Capture
