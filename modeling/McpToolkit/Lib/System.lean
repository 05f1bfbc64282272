import Mathlib.Data.List.Perm.Subperm

/-!
# McpToolkit.Lib.System — runs of a deterministic system

A `System` says what each event does to a state, or that the event is not possible there.
`Reaches` is reachability by any events; `run` replays a list of them.
-/

namespace McpToolkit.Lib

open List

structure System (σ ε : Type) where
  step : σ → ε → Option σ

namespace System

variable {σ ε : Type} (M : System σ ε)

inductive Reaches (s : σ) : σ → Prop
  | refl : Reaches s s
  | snoc {t u : σ} (e : ε) : Reaches s t → M.step t e = some u → Reaches s u

def run : σ → List ε → Option σ
  | s, [] => some s
  | s, e :: es => (M.step s e).bind fun t => run t es

/-- The steps that a replay takes, each with the state before it. -/
def steps : σ → List ε → List (σ × ε)
  | _, [] => []
  | s, e :: es =>
    match M.step s e with
    | none => []
    | some t => (s, e) :: steps t es

/-- The states that a replay visits. -/
def trace : σ → List ε → List σ
  | s, [] => [s]
  | s, e :: es =>
    match M.step s e with
    | none => [s]
    | some t => s :: trace t es

variable {M} {s t u : σ}

theorem Reaches.trans (h : M.Reaches s t) (h' : M.Reaches t u) : M.Reaches s u := by
  induction h' with
  | refl => exact h
  | snoc e _ hstep ih => exact ih.snoc e hstep

variable {es : List ε} {G : σ → ε → Prop} {J I : σ → Prop}

theorem reaches_of_run : ∀ {s : σ}, M.run s es = some t → M.Reaches s t := by
  induction es with
  | nil =>
    intro s h
    obtain rfl := Option.some.inj h
    exact .refl
  | cons e es ih =>
    intro s h
    obtain ⟨m, hm, h⟩ := Option.bind_eq_some_iff.mp h
    exact Reaches.trans (.snoc e .refl hm) (ih h)

theorem exists_reaches_of_run (M : System σ ε) (s : σ) (es : List ε) {p : σ → Prop} [DecidablePred p]
    (h : (M.run s es).any (fun t => decide (p t)) = true) : ∃ t, M.Reaches s t ∧ p t := by
  cases ht : M.run s es with
  | none => rw [ht] at h; cases h
  | some t =>
    rw [ht] at h
    exact ⟨t, reaches_of_run ht, of_decide_eq_true h⟩

/-- **The invariant rule.** -/
theorem Reaches.induct (hs : I s)
    (hstep : ∀ {t u : σ} {e : ε}, M.step t e = some u → I t → I u) (h : M.Reaches s t) : I t := by
  induction h with
  | refl => exact hs
  | snoc e _ hst ih => exact hstep hst ih

theorem trace_eq_cons (s : σ) (es : List ε) : ∃ rest, M.trace s es = s :: rest := by
  cases es with
  | nil => exact ⟨[], rfl⟩
  | cons e es => unfold trace; cases M.step s e <;> exact ⟨_, rfl⟩

theorem mem_trace_self (s : σ) (es : List ε) : s ∈ M.trace s es := by
  obtain ⟨rest, hrest⟩ := trace_eq_cons s es
  rw [hrest]
  exact mem_cons_self

/-- **When every state of a run is good.**  The steps that meet `P` keep `J`, and under `J` such a step from a good state
leads to a good state exactly if it meets `G`. -/
theorem forall_trace_iff_of {P : σ → ε → Prop} (hJ : ∀ {s e t}, M.step s e = some t → P s e → J s → J t)
    (hI : ∀ {s e t}, M.step s e = some t → P s e → J s → I s → (I t ↔ G s e)) (hs : J s)
    (hi : I s) (hP : ∀ x ∈ M.steps s es, P x.1 x.2) : (∀ t ∈ M.trace s es, I t) ↔ ∀ x ∈ M.steps s es, G x.1 x.2 := by
  induction es generalizing s with
  | nil => simp [trace, steps, hi]
  | cons e es ih =>
    unfold steps at hP
    unfold trace steps
    cases hstep : M.step s e with
    | none => simp [hi]
    | some t =>
      rw [hstep, forall_mem_cons] at hP
      rw [forall_mem_cons, forall_mem_cons, and_iff_right hi]
      have hiff := hI hstep hP.1 hs hi
      constructor
      · intro h
        have ht := h t (mem_trace_self t es)
        exact ⟨hiff.mp ht, (ih (hJ hstep hP.1 hs) ht hP.2).mp h⟩
      · rintro ⟨hg, h⟩
        exact (ih (hJ hstep hP.1 hs) (hiff.mpr hg) hP.2).mpr h

theorem forall_trace_iff (hJ : ∀ {s e t}, M.step s e = some t → J s → J t)
    (hI : ∀ {s e t}, M.step s e = some t → J s → I s → (I t ↔ G s e)) (hs : J s)
    (hi : I s) : (∀ t ∈ M.trace s es, I t) ↔ ∀ x ∈ M.steps s es, G x.1 x.2 :=
  forall_trace_iff_of (P := fun _ _ => True) (fun hstep _ => hJ hstep) (fun hstep _ => hI hstep) hs hi fun _ _ => trivial

theorem isChain_trace (s : σ) (es : List ε) : (M.trace s es).IsChain fun t u => ∃ e, M.step t e = some u := by
  induction es generalizing s with
  | nil => exact .singleton s
  | cons e es ih =>
    unfold trace
    cases hstep : M.step s e with
    | none => exact .singleton s
    | some t =>
      have htail := ih t
      obtain ⟨rest, hrest⟩ := trace_eq_cons t es
      dsimp only
      rw [hrest] at htail ⊢
      exact .cons_cons ⟨e, hstep⟩ htail

theorem forall_trace (hJ : ∀ {s e t}, M.step s e = some t → J s → J t) (hs : J s) : ∀ t ∈ M.trace s es, J t :=
  (forall_trace_iff (I := J) hJ
    (fun hstep hj _ => iff_true_intro (hJ hstep hj)) hs hs).mpr fun _ _ => trivial

theorem forall_trace_of_steps (hI : ∀ {s e t}, M.step s e = some t → I s → G s e → I t) (hs : I s)
    (hsteps : ∀ x ∈ M.steps s es, G x.1 x.2) : ∀ t ∈ M.trace s es, I t :=
  (forall_trace_iff_of (J := I) (fun hstep hg hi => hI hstep hi hg)
    (fun hstep hg hi _ => iff_true_intro (hI hstep hi hg)) hs hs hsteps).mpr fun _ _ => trivial

theorem steps_append (hrun : M.run s es = some t) (es' : List ε) :
    M.steps s (es ++ es') = M.steps s es ++ M.steps t es' := by
  induction es generalizing s with
  | nil =>
    obtain rfl := Option.some.inj hrun
    rfl
  | cons e es ih =>
    obtain ⟨m, hm, hrun⟩ := Option.bind_eq_some_iff.mp hrun
    simp only [cons_append, steps, hm, ih hrun]

theorem mem_trace_of_mem_steps {x : σ × ε} (h : x ∈ M.steps s es) : x.1 ∈ M.trace s es := by
  induction es generalizing s with
  | nil => simp [steps] at h
  | cons e es ih =>
    unfold steps at h
    unfold trace
    cases hstep : M.step s e with
    | none => simp [hstep] at h
    | some t =>
      rw [hstep] at h
      rcases mem_cons.mp h with rfl | h
      · exact mem_cons_self
      · exact mem_cons_of_mem _ (ih h)

theorem exists_step_of_mem_steps {x : σ × ε} (h : x ∈ M.steps s es) : ∃ t, M.step x.1 x.2 = some t := by
  induction es generalizing s with
  | nil => simp [steps] at h
  | cons e es ih =>
    unfold steps at h
    cases hstep : M.step s e with
    | none => simp [hstep] at h
    | some t =>
      rw [hstep] at h
      rcases mem_cons.mp h with rfl | h
      · exact ⟨t, hstep⟩
      · exact ih h

/-- **The rule for steps.**  If under `J` every step that meets a condition is good and keeps `J`, then in a run whose
steps all meet the condition all are good. -/
theorem forall_steps {P : σ → ε → Prop} (hstep : ∀ {s e t}, M.step s e = some t → J s → G s e → P s e ∧ J t) (hs : J s)
    (hsteps : ∀ x ∈ M.steps s es, G x.1 x.2) : ∀ x ∈ M.steps s es, P x.1 x.2 := by
  induction es generalizing s with
  | nil => exact fun x hx => absurd hx not_mem_nil
  | cons e es ih =>
    unfold steps at hsteps ⊢
    cases hm : M.step s e with
    | none => exact fun x hx => absurd hx not_mem_nil
    | some t =>
      rw [hm, forall_mem_cons] at hsteps
      rw [forall_mem_cons]
      obtain ⟨hgood, ht⟩ := hstep hm hs hsteps.1
      exact ⟨hgood, ih ht hsteps.2⟩

/-- **The rank rule.**  If under `J` no step that meets the condition raises the rank, and each one that counts lowers it,
then after as many of these as the rank was the rank is zero. -/
theorem rank_run (J : σ → Prop) (rank : σ → ℕ) (counts : σ → ε → Bool)
    (hJ : ∀ {s e t}, M.step s e = some t → G s e → J s → J t)
    (hrank : ∀ {s e t}, M.step s e = some t → G s e → J s → rank t ≤ rank s - (counts s e).toNat)
    (hs : J s) (hsteps : ∀ x ∈ M.steps s es, G x.1 x.2) (hrun : M.run s es = some t) :
    J t ∧ rank t ≤ rank s - (M.steps s es).countP fun x => counts x.1 x.2 := by
  induction es generalizing s with
  | nil =>
    obtain rfl := Option.some.inj hrun
    exact ⟨hs, Nat.le_refl _⟩
  | cons e es ih =>
    obtain ⟨m, hm, hrun⟩ := Option.bind_eq_some_iff.mp hrun
    simp only [steps, hm, forall_mem_cons] at hsteps
    have hhead := hrank hm hsteps.1 hs
    obtain ⟨ht, htail⟩ := ih (hJ hm hsteps.1 hs) hsteps.2 hrun
    refine ⟨ht, ?_⟩
    simp only [steps, hm, countP_cons]
    cases hc : counts s e <;> simp only [hc, Bool.toNat_true] at hhead ⊢ <;> simp <;> omega

/-- **The budget rule.**  If every step that meets the condition takes what it puts out (`f`) from a budget (`b`) and
adds nothing to it, then all that a run puts out is taken from the budget it began with. -/
theorem spent_steps {α : Type} {f : σ → ε → Option α} {b : σ → List α}
    (hstep : ∀ {s e t}, M.step s e = some t → J s → G s e →
      ((f s e).toList ++ b t).Subperm (b s) ∧ J t) (hs : J s) (hsteps : ∀ x ∈ M.steps s es, G x.1 x.2) :
    ((M.steps s es).filterMap fun x => f x.1 x.2).Subperm (b s) := by
  induction es generalizing s with
  | nil => exact nil_subperm
  | cons e es ih =>
    unfold steps at hsteps ⊢
    cases hm : M.step s e with
    | none => exact nil_subperm
    | some t =>
      rw [hm, forall_mem_cons] at hsteps
      obtain ⟨hspend, ht⟩ := hstep hm hs hsteps.1
      have hrest := ih ht hsteps.2
      rw [filterMap_cons]
      cases hout : f s e with
      | none =>
        rw [hout] at hspend
        exact hrest.trans hspend
      | some a =>
        rw [hout] at hspend
        exact ((subperm_append_left [a]).mpr hrest).trans hspend

/-- **The invariant rule with outputs**: `I` speaks of all that was put out (`f`) and of the state reached, and is kept by
the steps that meet a condition. -/
theorem run_outputs {α : Type} {I : List α → σ → Prop} {f : σ → ε → Option α}
    (hstep : ∀ {l s e t}, M.step s e = some t → G s e → I l s → I (l ++ (f s e).toList) t) {l : List α}
    (hs : I l s) (hsteps : ∀ x ∈ M.steps s es, G x.1 x.2) (hrun : M.run s es = some t) :
    I (l ++ (M.steps s es).filterMap fun x => f x.1 x.2) t := by
  induction es generalizing s l with
  | nil =>
    obtain rfl := Option.some.inj hrun
    rw [steps, filterMap_nil, append_nil]
    exact hs
  | cons e es ih =>
    obtain ⟨m, hm, hrun⟩ := Option.bind_eq_some_iff.mp hrun
    have heq : M.steps s (e :: es) = (s, e) :: M.steps m es := by rw [steps, hm]
    rw [heq, forall_mem_cons] at hsteps
    have htail := ih (hstep hm hsteps.1 hs) hsteps.2 hrun
    rw [heq, filterMap_cons]
    cases hout : f s e with
    | none =>
      rw [hout, Option.toList_none, append_nil] at htail
      exact htail
    | some a =>
      rw [hout, append_assoc] at htail
      exact htail

theorem run_induct (hJ : ∀ {s e t}, M.step s e = some t → G s e → J s → J t) (hs : J s)
    (hsteps : ∀ x ∈ M.steps s es, G x.1 x.2) (hrun : M.run s es = some t) : J t :=
  run_outputs (I := fun (_ : List Unit) s => J s) (f := fun _ _ => none) (l := []) hJ hs hsteps hrun

end System

/-! ### Chronicles

What happened, in order.  A chronicle is justified if each thing in it was allowed by what had happened
before. -/

section Chronicle

variable {α : Type} {allowed : List α → α → Prop} {chronicle : List α} {x : α}

def Justified (allowed : List α → α → Prop) (chronicle : List α) : Prop :=
  ∀ before x after, chronicle = before ++ x :: after → allowed before x

theorem justified_nil : Justified allowed [] := by
  intro before x after h
  simp at h

theorem justified_concat :
    Justified allowed (chronicle ++ [x]) ↔ Justified allowed chronicle ∧ allowed chronicle x := by
  constructor
  · intro h
    refine ⟨?_, h chronicle x [] rfl⟩
    intro before y after heq
    exact h before y (after ++ [x]) (by simp [heq])
  · rintro ⟨h, hx⟩ before y after heq
    rcases eq_nil_or_concat after with rfl | ⟨init, last, rfl⟩
    · obtain ⟨rfl, hy⟩ := append_inj' heq rfl
      exact (singleton_inj.mp hy) ▸ hx
    · rw [concat_eq_append, ← cons_append, ← append_assoc] at heq
      exact h before y init (append_inj_left' heq rfl)

end Chronicle

/-! ### Numbered objects

A state often keeps a list of objects that are known by their position: an object is appended when
it is allocated, and replaced when it changes. -/

section Numbered

variable {α : Type} {l : List α} {i j : ℕ} {x y : α}

theorem getElem?_concat_of_some (h : l[i]? = some x) : (l ++ [y])[i]? = some x := by
  rw [getElem?_append_left (List.getElem?_eq_some_iff.mp h).1, h]

theorem of_getElem?_concat (h : (l ++ [y])[i]? = some x) : l[i]? = some x ∨ i = l.length ∧ y = x := by
  rw [getElem?_append] at h
  split_ifs at h with hlt
  · exact .inl h
  · obtain ⟨hlt', hx⟩ := List.getElem?_eq_some_iff.mp h
    rw [length_singleton] at hlt'
    exact .inr ⟨by omega, by rw [← hx, getElem_singleton]⟩

theorem of_getElem?_set (h : (l.set i y)[j]? = some x) : l[j]? = some x ∨ i = j ∧ y = x := by
  rw [getElem?_set] at h
  split_ifs at h with hij hlt
  · exact .inr ⟨hij, Option.some.inj h⟩
  · exact .inl h

end Numbered

end McpToolkit.Lib
