import McpToolkit.Lib.System

/-!
# McpToolkit.Lib.Pool — calls that interleave over one shared memory

A `Machine` gives the atomic sections of a concurrent component: `env` is what the world outside
does to the shared memory, `enter` starts a call, `advance` runs the next section of a call.  A
`Pool` is the shared memory with the program counters of all calls so far, in the order they
started.  `Run M G s t` says that `t` is reached from `s` in finitely many events whose sections
all meet the guard `G`; the plain reachability `Reaches` has no guard.

The one rule is `Run.induct`: a predicate of the memory and of the calls, insensitive to the order
of the calls, that every event keeps, holds in every state reached.  The obligation for a section
sees the running call in front and the other calls as an arbitrary list.
-/

namespace McpToolkit.Lib

structure Pool (σ π : Type) where
  shared : σ
  calls : List π

/-- An event of a run: a move of the environment, a new call, or the next section of call `i`. -/
inductive Event (ε κ ι : Type) where
  | env (e : ε)
  | enter (k : κ)
  | advance (i : ℕ) (inp : ι)

structure Machine (σ π ε κ ι : Type) where
  env : σ → ε → Option σ
  enter : κ → π
  advance : σ → π → ι → Option (σ × π)

namespace Machine

variable {σ π ε κ ι : Type} (M : Machine σ π ε κ ι)

def step (s : Pool σ π) : Event ε κ ι → Option (Pool σ π)
  | .env e => (M.env s.shared e).map fun sh => ⟨sh, s.calls⟩
  | .enter k => some ⟨s.shared, s.calls ++ [M.enter k]⟩
  | .advance i inp =>
    match s.calls[i]? with
    | none => none
    | some pc => (M.advance s.shared pc inp).map fun r => ⟨r.1, s.calls.set i r.2⟩

/-- The guard of a section: it may look at the memory, at all calls, at the running call and at
what the section receives. -/
abbrev Guard (σ π ι : Type) := σ → List π → π → ι → Prop

/-- The event `e` meets the guard in the state `s`. -/
def Meets (G : Guard σ π ι) (s : Pool σ π) : Event ε κ ι → Prop
  | .env _ => True
  | .enter _ => True
  | .advance i inp => ∀ pc, s.calls[i]? = some pc → G s.shared s.calls pc inp

instance (G : Guard σ π ι) [∀ sh l pc inp, Decidable (G sh l pc inp)] (s : Pool σ π) (e : Event ε κ ι) :
    Decidable (Meets G s e) :=
  match e with
  | .env _ | .enter _ => isTrue trivial
  | .advance i inp => inferInstanceAs (Decidable (∀ pc ∈ s.calls[i]?, G s.shared s.calls pc inp))

/-- Runs a list of events as long as each section passes the check `g`. -/
def exec (g : σ → List π → π → ι → Bool) : Pool σ π → List (Event ε κ ι) → Option (Pool σ π)
  | s, [] => some s
  | s, e :: es =>
    let ok := match e with
      | .env _ | .enter _ => true
      | .advance i inp => s.calls[i]?.all fun pc => g s.shared s.calls pc inp
    if ok then (M.step s e).bind fun t => exec g t es else none

inductive Run (G : Guard σ π ι) (s : Pool σ π) : Pool σ π → Prop
  | refl : Run G s s
  | snoc {t u : Pool σ π} (e : Event ε κ ι) :
      Run G s t → Meets G t e → M.step t e = some u → Run G s u

/-- Reachability by any events at all. -/
abbrev Reaches (s t : Pool σ π) : Prop := M.Run (fun _ _ _ _ => True) s t

variable {M} {G : Guard σ π ι} {s t u : Pool σ π}

theorem Run.trans (h : M.Run G s t) (h' : M.Run G t u) : M.Run G s u := by
  induction h' with
  | refl => exact h
  | snoc e _ hm hs ih => exact ih.snoc e hm hs

theorem meets_true (s : Pool σ π) (e : Event ε κ ι) : Meets (fun _ _ _ _ => True) s e := by
  cases e with
  | env e => trivial
  | enter k => trivial
  | advance i inp => intro _ _; trivial

theorem Run.reaches (h : M.Run G s t) : M.Reaches s t := by
  induction h with
  | refl => exact .refl
  | snoc e _ _ hs ih => exact ih.snoc e (meets_true _ e) hs

theorem Run.mono {G' : Guard σ π ι} (hG : ∀ {sh l pc inp}, G sh l pc inp → G' sh l pc inp)
    (h : M.Run G s t) : M.Run G' s t := by
  induction h with
  | refl => exact .refl
  | @snoc t u e _ hm hs ih =>
    refine ih.snoc e ?_ hs
    cases e with
    | env e => trivial
    | enter k => trivial
    | advance i inp => exact fun pc hpc => hG (hm pc hpc)

variable {es : List (Event ε κ ι)}

theorem run_of_exec {g : σ → List π → π → ι → Bool} : ∀ {s : Pool σ π}, M.exec g s es = some t →
      M.Run (fun sh l pc inp => g sh l pc inp = true) s t := by
  induction es with
  | nil =>
    intro s h
    obtain rfl : s = t := by simpa [exec] using h
    exact .refl
  | cons e es ih =>
    intro s h
    simp only [exec, Option.ite_none_right_eq_some, Option.bind_eq_some_iff] at h
    obtain ⟨hok, m, hm, h⟩ := h
    refine Run.trans (.snoc e .refl ?_ hm) (ih h)
    cases e with
    | env e => trivial
    | enter k => trivial
    | advance i inp =>
      intro pc hpc
      simpa [hpc] using hok

section

variable (M s es) {p : Pool σ π → Prop} [DecidablePred p]

theorem exists_run_of_exec (g : σ → List π → π → ι → Bool) (h : (M.exec g s es).any (fun t => decide (p t)) = true) :
    ∃ t, M.Run (fun sh l pc inp => g sh l pc inp = true) s t ∧ p t := by
  cases ht : M.exec g s es with
  | none => rw [ht] at h; cases h
  | some t =>
    rw [ht] at h
    exact ⟨t, run_of_exec ht, of_decide_eq_true h⟩

theorem exists_reaches_of_exec (h : (M.exec (fun _ _ _ _ => true) s es).any (fun t => decide (p t)) = true) :
    ∃ t, M.Reaches s t ∧ p t := by
  obtain ⟨t, ht, hp⟩ := exists_run_of_exec M s es _ h
  exact ⟨t, ht.reaches, hp⟩

end

theorem exists_rest {l : List π} {i : ℕ} {pc : π} (h : l[i]? = some pc) :
    ∃ rest, l.Perm (pc :: rest) ∧ ∀ pc', (l.set i pc').Perm (pc' :: rest) := by
  obtain ⟨hi, rfl⟩ := List.getElem?_eq_some_iff.mp h
  exact ⟨l.eraseIdx i, (List.getElem_cons_eraseIdx_perm hi).symm,
    fun pc' => List.set_perm_cons_eraseIdx hi pc'⟩

/-- What an event does, the running call in front. -/
inductive Advances (M : Machine σ π ε κ ι) (s : Pool σ π) : Event ε κ ι → Pool σ π → Prop
  | env (e sh') : M.env s.shared e = some sh' → Advances M s (.env e) ⟨sh', s.calls⟩
  | enter (k) : Advances M s (.enter k) ⟨s.shared, s.calls ++ [M.enter k]⟩
  | advance (i inp pc sh' pc' rest calls) : s.calls[i]? = some pc →
      M.advance s.shared pc inp = some (sh', pc') → s.calls.Perm (pc :: rest) →
      List.Perm calls (pc' :: rest) → Advances M s (.advance i inp) ⟨sh', calls⟩

theorem advances_of_step {e : Event ε κ ι} (h : M.step s e = some t) : Advances M s e t := by
  cases e with
  | env e =>
    simp only [step, Option.map_eq_some_iff] at h
    obtain ⟨sh', hsh, rfl⟩ := h
    exact .env e sh' hsh
  | enter k =>
    obtain rfl := Option.some.inj h
    exact .enter k
  | advance i inp =>
    simp only [step] at h
    cases hpc : s.calls[i]? with
    | none => rw [hpc] at h; cases h
    | some pc =>
      rw [hpc] at h
      simp only [Option.map_eq_some_iff] at h
      obtain ⟨⟨sh', pc'⟩, hadv, rfl⟩ := h
      obtain ⟨rest, hl, hset⟩ := exists_rest hpc
      exact .advance i inp pc sh' pc' rest _ hpc hadv hl (hset pc')

theorem step_advance {i : ℕ} {pc : π} {inp : ι} {r : σ × π} (hpc : s.calls[i]? = some pc)
    (hadv : M.advance s.shared pc inp = some r) : M.step s (.advance i inp) = some ⟨r.1, s.calls.set i r.2⟩ := by
  simp only [step, hpc, hadv, Option.map_some]

/-- **The invariant rule** of a pool: `I` may be proved relative to an invariant `J` already known
to hold along the run. -/
theorem Run.induct {J I : σ → List π → Prop} (hJ : ∀ t, M.Run G s t → J t.shared t.calls)
    (hJperm : ∀ {sh l l'}, List.Perm l l' → J sh l → J sh l')
    (hguard : ∀ {sh l l' pc inp}, List.Perm l l' → G sh l pc inp → G sh l' pc inp)
    (hperm : ∀ {sh l l'}, List.Perm l l' → I sh l → I sh l')
    (henv : ∀ {sh e sh' l}, M.env sh e = some sh' → J sh l → I sh l → I sh' l)
    (henter : ∀ {sh l} (k : κ), J sh l → I sh l → I sh (M.enter k :: l))
    (hadv : ∀ {sh pc inp sh' pc' rest}, M.advance sh pc inp = some (sh', pc') →
      G sh (pc :: rest) pc inp → J sh (pc :: rest) → I sh (pc :: rest) → I sh' (pc' :: rest))
    (hs : I s.shared s.calls) (h : M.Run G s t) : I t.shared t.calls := by
  induction h with
  | refl => exact hs
  | @snoc t u e ht hm hst ih =>
    have hJt := hJ t ht
    cases advances_of_step hst with
    | env e sh' hsh => exact henv hsh hJt ih
    | enter k => exact hperm (List.perm_append_singleton _ _).symm (henter k hJt ih)
    | advance i inp pc sh' pc' rest calls hpc hadv' hl hset =>
      have hG := hguard hl (hm pc hpc)
      exact hperm hset.symm (hadv hadv' hG (hJperm hl hJt) (hperm hl ih))

/-- The machine as a system of events. -/
def system (M : Machine σ π ε κ ι) : System (Pool σ π) (Event ε κ ι) := ⟨M.step⟩

theorem Reaches.step {e : Event ε κ ι} (h : M.Reaches s t) (hstep : M.step t e = some u) : M.Reaches s u :=
  h.snoc e (meets_true t e) hstep

end Machine

end McpToolkit.Lib
