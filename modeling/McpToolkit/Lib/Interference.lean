import Mathlib.Data.List.Basic

/-!
# McpToolkit.Lib.Interference — programs whose calls meet a state that others change

A program makes calls on a state; before each call an environment changes the state at will, and all it must leave
alone is what the program holds (`Respects`).  A `World` has the state, the list of what is held, the number of calls
so far, and as a trace every call with the state it found.

`Does x held G` is what a program is proved to do: started with `held` in hand it never loses any of it, and if it
returns then `G` holds of the value, of what is held then, and of the part of the trace that is its own.  The rules
compose such statements; the environment is met in `does_call` and `does_acquire` only.
-/

namespace McpToolkit.Lib.Interference

open List

structure World (σ κ η : Type) where
  state : σ
  held : List η
  time : ℕ
  trace : List (κ × σ)

/-- What happens before a call; it may depend on the time and on what is held. -/
abbrev Env (σ η : Type) := ℕ → List η → σ → σ

/-- A program that returns a value or an error. -/
def Prog (σ κ η ε α : Type) := World σ κ η → Except ε α × World σ κ η

variable {σ κ η ε α β : Type}

instance : Monad (Prog σ κ η ε) where
  pure a := fun w => (.ok a, w)
  bind x f := fun w =>
    match x w with
    | (.ok a, w') => f a w'
    | (.error e, w') => (.error e, w')

namespace Prog

theorem bind_of_ok {x : Prog σ κ η ε α} {f : α → Prog σ κ η ε β} {w w' : World σ κ η} {a : α}
    (h : x w = (.ok a, w')) : (x >>= f) w = f a w' := by
  simp only [bind, h]

theorem bind_of_error {x : Prog σ κ η ε α} {f : α → Prog σ κ η ε β} {w w' : World σ κ η} {e : ε}
    (h : x w = (.error e, w')) : (x >>= f) w = (.error e, w') := by
  simp only [bind, h]

def fail (e : ε) : Prog σ κ η ε α := fun w => (.error e, w)

/-- The condition holds from here on, and the rest of the program may use that. -/
def ensure (c : Prop) [Decidable c] (e : ε) : Prog σ κ η ε (PLift c) := fun w =>
  if h : c then (.ok ⟨h⟩, w) else (.error e, w)

def ofExcept (r : Except ε α) : Prog σ κ η ε α := fun w => (r, w)

/-- The environment acts, and the call finds the state; the result is the time and that state. -/
def call (env : Env σ η) (k : κ) : Prog σ κ η ε (ℕ × σ) := fun w =>
  let found := env w.time w.held w.state
  (.ok (w.time, found), ⟨found, w.held, w.time + 1, w.trace ++ [(k, found)]⟩)

/-- A call that gives something to hold, or an error. -/
def acquire (env : Env σ η) (k : κ) (pick : ℕ → σ → Except ε η) : Prog σ κ η ε η := fun w =>
  let found := env w.time w.held w.state
  let w' := ⟨found, w.held, w.time + 1, w.trace ++ [(k, found)]⟩
  match pick w.time found with
  | .ok d => (.ok d, { w' with held := d :: w.held })
  | .error e => (.error e, w')

/-- At the end of the scope everything acquired in it is released. -/
def scope (x : Prog σ κ η ε α) : Prog σ κ η ε α := fun w =>
  ((x w).1, { (x w).2 with held := w.held })

/-- On an error everything acquired is released. -/
def releaseOnError (x : Prog σ κ η ε α) : Prog σ κ η ε α := fun w =>
  match x w with
  | (.ok a, w') => (.ok a, w')
  | (.error e, w') => (.error e, { w' with held := w.held })

end Prog

/-! ### What programs do -/

section Logic

variable (holds : σ → η → Prop)

/-- The environment leaves alone what is held. -/
def Respects (env : Env σ η) : Prop :=
  ∀ time held s, (∀ d ∈ held, holds s d) → ∀ d ∈ held, holds (env time held s) d

/-- Exactly `held` is in hand, and it is all there. -/
structure Keeps (held : List η) (w : World σ κ η) : Prop where
  inHand : w.held = held
  there : ∀ d ∈ held, holds w.state d

def Does (x : Prog σ κ η ε α) (held : List η) (G : α → List η → List (κ × σ) → Prop) : Prop :=
  ∀ w, Keeps holds held w →
    match x w with
    | (.ok a, w') => ∃ held' own, Keeps holds held' w' ∧ held <:+ held' ∧ w'.trace = w.trace ++ own ∧ G a held' own
    | (.error _, w') => ∃ held', Keeps holds held' w' ∧ held <:+ held'

variable {holds} {held : List η} {x : Prog σ κ η ε α} {f : α → Prog σ κ η ε β} {w w' : World σ κ η}
  {G : α → List η → List (κ × σ) → Prop} {H : β → List η → List (κ × σ) → Prop}

theorem Keeps.suffix {held' : List η} (h : Keeps holds held' w) (hsub : held <:+ held') :
    Keeps holds held { w with held := held } :=
  ⟨rfl, fun d hd => h.there d (hsub.subset hd)⟩

theorem Does.ok (h : Does holds x held G) (hw : Keeps holds held w) {a : α} (hx : x w = (.ok a, w')) :
    ∃ held' own, Keeps holds held' w' ∧ held <:+ held' ∧ w'.trace = w.trace ++ own ∧ G a held' own := by
  have := h w hw
  rwa [hx] at this

theorem Does.mono {G' : α → List η → List (κ × σ) → Prop} (h : Does holds x held G)
    (hG : ∀ a held' own, G a held' own → G' a held' own) : Does holds x held G' := by
  intro w hw
  have hx := h w hw
  cases hr : x w with
  | mk r w' =>
    rw [hr] at hx
    cases r with
    | ok a =>
      obtain ⟨held', own, hkeeps, hsub, htrace, hG'⟩ := hx
      exact ⟨held', own, hkeeps, hsub, htrace, hG a held' own hG'⟩
    | error e => exact hx

theorem does_pure {a : α} (h : G a held []) : Does holds (pure a : Prog σ κ η ε α) held G :=
  fun _ hw => ⟨held, [], hw, suffix_refl held, (append_nil _).symm, h⟩

theorem does_fail (e : ε) : Does holds (Prog.fail e : Prog σ κ η ε α) held G :=
  fun _ hw => ⟨held, hw, suffix_refl held⟩

theorem does_bind (hx : Does holds x held G) (hf : ∀ a held' own, held <:+ held' → G a held' own →
      Does holds (f a) held' fun b held'' own' => H b held'' (own ++ own')) : Does holds (x >>= f) held H := by
  intro w hw
  have hfirst := hx w hw
  cases hr : x w with
  | mk r w₁ =>
    rw [hr] at hfirst
    cases r with
    | error e =>
      rw [Prog.bind_of_error hr]
      exact hfirst
    | ok a =>
      rw [Prog.bind_of_ok hr]
      obtain ⟨held₁, own₁, hkeeps₁, hsub₁, htrace₁, hG⟩ := hfirst
      have hsecond := hf a held₁ own₁ hsub₁ hG w₁ hkeeps₁
      cases hr' : f a w₁ with
      | mk r' w₂ =>
        rw [hr'] at hsecond
        cases r' with
        | error e =>
          obtain ⟨held₂, hkeeps₂, hsub₂⟩ := hsecond
          exact ⟨held₂, hkeeps₂, hsub₁.trans hsub₂⟩
        | ok b =>
          obtain ⟨held₂, own₂, hkeeps₂, hsub₂, htrace₂, hH⟩ := hsecond
          refine ⟨held₂, own₁ ++ own₂, hkeeps₂, hsub₁.trans hsub₂, ?_, hH⟩
          rw [htrace₂, htrace₁, append_assoc]

theorem does_ensure_bind {c : Prop} [Decidable c] {e : ε} {g : PLift c → Prog σ κ η ε β}
    (hg : ∀ h : c, Does holds (g ⟨h⟩) held H) : Does holds (Prog.ensure c e >>= g) held H := by
  intro w hw
  by_cases hc : c
  · rw [Prog.bind_of_ok (show Prog.ensure c e w = (.ok ⟨hc⟩, w) from dif_pos hc)]
    exact hg hc w hw
  · rw [Prog.bind_of_error (show Prog.ensure c e w = (.error e, w) from dif_neg hc)]
    exact ⟨held, hw, suffix_refl held⟩

theorem does_ofExcept_bind {r : Except ε α} (hf : ∀ a, r = .ok a → Does holds (f a) held H) :
    Does holds (Prog.ofExcept r >>= f) held H := by
  intro w hw
  cases r with
  | ok a => exact hf a rfl w hw
  | error e => exact ⟨held, hw, suffix_refl held⟩

theorem does_call {env : Env σ η} (henv : Respects holds env) (k : κ) :
    Does holds (Prog.call env k : Prog σ κ η ε (ℕ × σ)) held fun r held' own =>
      held' = held ∧ own = [(k, r.2)] ∧ ∀ d ∈ held, holds r.2 d := by
  intro w hw
  have hthere : ∀ d ∈ held, holds (env w.time w.held w.state) d := by
    intro d hd
    exact henv w.time w.held w.state (fun d hd => hw.there d (hw.inHand ▸ hd)) d (hw.inHand ▸ hd)
  exact ⟨held, _, ⟨hw.inHand, hthere⟩, suffix_refl held, rfl, rfl, rfl, hthere⟩

theorem does_acquire {env : Env σ η} (henv : Respects holds env) (k : κ) {pick : ℕ → σ → Except ε η}
    (hpick : ∀ time s d, pick time s = .ok d → holds s d) : Does holds (Prog.acquire env k pick) held fun d held' own =>
      held' = d :: held ∧ ∃ time s, own = [(k, s)] ∧ pick time s = .ok d ∧ ∀ d ∈ held, holds s d := by
  intro w hw
  have hthere : ∀ d ∈ held, holds (env w.time w.held w.state) d := by
    intro d hd
    exact henv w.time w.held w.state (fun d hd => hw.there d (hw.inHand ▸ hd)) d (hw.inHand ▸ hd)
  unfold Prog.acquire
  dsimp only
  cases hd : pick w.time (env w.time w.held w.state) with
  | error e => exact ⟨held, ⟨hw.inHand, hthere⟩, suffix_refl held⟩
  | ok d =>
    refine ⟨d :: held, _, ⟨by rw [hw.inHand], ?_⟩, suffix_cons d held, rfl, rfl, w.time, _, rfl, hd, hthere⟩
    intro d' hd'
    rcases mem_cons.mp hd' with rfl | hd'
    · exact hpick _ _ _ hd
    · exact hthere d' hd'

theorem does_scope (hx : Does holds x held G) :
    Does holds (Prog.scope x) held fun a held' own => held' = held ∧ ∃ inner, held <:+ inner ∧ G a inner own := by
  intro w hw
  have h := hx w hw
  show match ((x w).1, { (x w).2 with held := w.held }) with
    | (.ok a, w') => _
    | (.error _, w') => _
  cases hr : x w with
  | mk r w₁ =>
    rw [hr] at h
    cases r with
    | error e =>
      obtain ⟨inner, hkeeps, hsub⟩ := h
      exact ⟨held, hw.inHand ▸ hkeeps.suffix (hw.inHand ▸ hsub), suffix_refl held⟩
    | ok a =>
      obtain ⟨inner, own, hkeeps, hsub, htrace, hG⟩ := h
      exact ⟨held, own, hw.inHand ▸ hkeeps.suffix (hw.inHand ▸ hsub), suffix_refl held, htrace, rfl, inner, hsub, hG⟩

theorem does_releaseOnError (hx : Does holds x held G) : Does holds (Prog.releaseOnError x) held G := by
  intro w hw
  have h := hx w hw
  unfold Prog.releaseOnError
  cases hr : x w with
  | mk r w₁ =>
    rw [hr] at h
    cases r with
    | error e =>
      obtain ⟨inner, hkeeps, hsub⟩ := h
      exact ⟨held, hw.inHand ▸ hkeeps.suffix (hw.inHand ▸ hsub), suffix_refl held⟩
    | ok a => exact h

end Logic

end McpToolkit.Lib.Interference
