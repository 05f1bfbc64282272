import Mathlib.Data.List.Infix

/-!
# McpToolkit.Lib.DotSegments — names on a stack

Relative names are resolved from left to right on a stack: a name is pushed, some symbols are skipped, and some climb,
which drops the name on top.  A name stays exactly if no prefix of what follows it climbs more often than it pushes
(`getElem?_resolve_iff`, which also says how deep it ends up).
-/

namespace McpToolkit.Lib.DotSegments

open List

inductive Kind
  | skip
  | climb
  | name
  deriving DecidableEq

variable {α : Type*} (kind : α → Kind)

def push (stack : List α) (s : α) : List α :=
  match kind s with
  | .skip => stack
  | .climb => stack.tail
  | .name => s :: stack

/-- The stack after all of them, its top first. -/
def resolve (l : List α) : List α := l.foldl (push kind) []

def names (l : List α) : ℕ := l.countP fun s => kind s = .name

def climbs (l : List α) : ℕ := l.countP fun s => kind s = .climb

/-- Nothing climbs out above what stands before these. -/
def Level (l : List α) : Prop := ∀ q, q <+: l → climbs kind q ≤ names kind q

/-- A name that stays, with `i` names above it. -/
def StaysAt (l : List α) (s : α) (i : ℕ) : Prop :=
  ∃ before after, l = before ++ s :: after ∧ kind s = .name ∧ Level kind after ∧
    names kind after = climbs kind after + i

/-- A name that is not dropped. -/
def Stays (l : List α) (s : α) : Prop := ∃ before after, l = before ++ s :: after ∧ kind s = .name ∧ Level kind after

variable {kind}

theorem resolve_concat (l : List α) (s : α) : resolve kind (l ++ [s]) = push kind (resolve kind l) s := by
  rw [resolve, foldl_append]
  rfl

theorem level_nil : Level kind [] := by
  intro q hq
  rw [prefix_nil.mp hq]
  rfl

variable {l : List α} {s : α}

theorem Level.le (h : Level kind l) : climbs kind l ≤ names kind l := h l (prefix_refl l)

theorem names_concat (l : List α) (s : α) :
    names kind (l ++ [s]) = names kind l + (if kind s = .name then 1 else 0) := by
  rw [names, countP_append, countP_singleton]
  simp only [decide_eq_true_eq]
  rfl

theorem climbs_concat (l : List α) (s : α) :
    climbs kind (l ++ [s]) = climbs kind l + (if kind s = .climb then 1 else 0) := by
  rw [climbs, countP_append, countP_singleton]
  simp only [decide_eq_true_eq]
  rfl

theorem level_concat : Level kind (l ++ [s]) ↔ Level kind l ∧ climbs kind (l ++ [s]) ≤ names kind (l ++ [s]) := by
  constructor
  · intro h
    exact ⟨fun q hq => h q (hq.trans (prefix_append l [s])), h.le⟩
  · rintro ⟨hl, hs⟩ q hq
    rcases prefix_concat_iff.mp hq with rfl | hq
    · exact hs
    · exact hl q hq

theorem staysAt_concat {t : α} {i : ℕ} : StaysAt kind (l ++ [t]) s i ↔ (s = t ∧ kind t = .name ∧ i = 0) ∨
      ∃ before after, l = before ++ s :: after ∧ kind s = .name ∧ Level kind after ∧
        names kind after + (if kind t = .name then 1 else 0) =
          climbs kind after + (if kind t = .climb then 1 else 0) + i := by
  constructor
  · rintro ⟨before, after, heq, hname, hlevel, hcount⟩
    rcases eq_nil_or_concat after with rfl | ⟨after, u, rfl⟩
    · obtain ⟨-, hst⟩ := append_inj' heq rfl
      obtain rfl := (List.cons.inj hst).1
      exact .inl ⟨rfl, hname, (Nat.zero_add i ▸ hcount : 0 = i).symm⟩
    · rw [concat_eq_append] at heq hlevel hcount
      rw [← cons_append, ← append_assoc] at heq
      obtain ⟨rfl, htu⟩ := append_inj' heq rfl
      obtain rfl := (List.cons.inj htu).1
      rw [names_concat, climbs_concat] at hcount
      exact .inr ⟨before, after, rfl, hname, (level_concat.mp hlevel).1, hcount⟩
  · rintro (⟨rfl, hname, rfl⟩ | ⟨before, after, rfl, hname, hlevel, hcount⟩)
    · exact ⟨l, [], rfl, hname, level_nil, rfl⟩
    · rw [← names_concat, ← climbs_concat] at hcount
      refine ⟨before, after ++ [t], ?_, hname, level_concat.mpr ⟨hlevel, by omega⟩, hcount⟩
      rw [append_assoc, cons_append]

/-- **What stays, and where.** -/
theorem getElem?_resolve_iff {i : ℕ} : (resolve kind l)[i]? = some s ↔ StaysAt kind l s i := by
  induction l using List.reverseRecOn generalizing i with
  | nil => simp [resolve, StaysAt]
  | append_singleton l t ih =>
    rw [staysAt_concat, resolve_concat, push]
    cases hkind : kind t with
    | skip =>
      simp only [reduceCtorEq, false_and, and_false, false_or]
      exact ih
    | climb =>
      simp only [reduceCtorEq, false_and, and_false, false_or, if_true, Nat.add_assoc,
        Nat.add_comm 1 i, getElem?_tail]
      exact ih
    | name =>
      simp only [reduceCtorEq, true_and, if_false, if_true]
      cases i with
      | zero =>
        constructor
        · intro heq
          exact .inl ⟨(Option.some.inj heq).symm, rfl⟩
        · rintro (⟨rfl, -⟩ | ⟨before, after, -, -, hlevel, hcount⟩)
          · rfl
          · have hle := hlevel.le
            omega
      | succ i =>
        rw [getElem?_cons_succ, ih]
        simp only [Nat.succ_ne_zero, and_false, false_or, ← Nat.add_assoc, Nat.add_right_cancel_iff]
        rfl

theorem mem_resolve_iff : s ∈ resolve kind l ↔ Stays kind l s := by
  constructor
  · intro hs
    obtain ⟨i, hi⟩ := getElem?_of_mem hs
    obtain ⟨before, after, hl, hname, hlevel, -⟩ := getElem?_resolve_iff.mp hi
    exact ⟨before, after, hl, hname, hlevel⟩
  · rintro ⟨before, after, hl, hname, hlevel⟩
    have hle := hlevel.le
    exact mem_of_getElem? (getElem?_resolve_iff.mpr
      ⟨before, after, hl, hname, hlevel, (Nat.add_sub_cancel' hle).symm⟩)

theorem stays_map {β : Type*} {f : β → α} {l : List β} :
    Stays kind (l.map f) s ↔ ∃ t, Stays (fun t => kind (f t)) l t ∧ f t = s := by
  have hlevel : ∀ after : List β, Level kind (after.map f) ↔ Level (fun t => kind (f t)) after := by
    intro after
    constructor
    · intro h q hq
      have hmap := h (q.map f) (hq.map f)
      rwa [names, climbs, countP_map, countP_map] at hmap
    · intro h q hq
      obtain ⟨r, hr, rfl⟩ := prefix_map_iff.mp hq
      rw [names, climbs, countP_map, countP_map]
      exact h r hr
  constructor
  · rintro ⟨before, after, hl, hname, hafter⟩
    obtain ⟨before, rest, rfl, rfl, hrest⟩ := map_eq_append_iff.mp hl
    obtain ⟨t, after, rfl, rfl, rfl⟩ := map_eq_cons_iff.mp hrest
    exact ⟨t, ⟨before, after, rfl, hname, (hlevel after).mp hafter⟩, rfl⟩
  · rintro ⟨t, ⟨before, after, rfl, hname, hafter⟩, rfl⟩
    refine ⟨before.map f, after.map f, ?_, hname, (hlevel after).mpr hafter⟩
    rw [map_append, map_cons]

theorem Stays.mem (h : Stays kind l s) : s ∈ l := by
  obtain ⟨before, after, rfl, -, -⟩ := h
  exact mem_append_right _ mem_cons_self

theorem Stays.name (h : Stays kind l s) : kind s = .name := by
  obtain ⟨-, -, -, hname, -⟩ := h
  exact hname

theorem resolve_of_names (h : ∀ s ∈ l, kind s = .name) : resolve kind l = l.reverse := by
  induction l using List.reverseRecOn with
  | nil => rfl
  | append_singleton l t ih =>
    have ht := h t (mem_append_right _ (mem_singleton_self t))
    rw [resolve_concat, ih fun s hs => h s (mem_append_left _ hs), push, ht, reverse_append,
      reverse_singleton, singleton_append]

end McpToolkit.Lib.DotSegments
