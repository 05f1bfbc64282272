import McpToolkit.Lib.Index

/-!
# McpToolkit.Lib.Table — finite maps that drop entries

`retain` keeps the entries of a finite map that satisfy a test, as `HashMap::retain` does.
-/

namespace McpToolkit.Lib.Table

open List

variable {K V : Type}

theorem nodupKeys_filter {s : Multiset (Sigma fun _ : K => V)} (q : (Sigma fun _ : K => V) → Bool)
    (h : s.NodupKeys) : (s.filter (q · = true)).NodupKeys := by
  induction s using Quotient.inductionOn with
  | h l =>
    exact List.NodupKeys.sublist filter_sublist (Multiset.coe_nodupKeys.mp h)

def retain (p : K → V → Bool) (m : Finmap fun _ : K => V) : Finmap fun _ : K => V :=
  ⟨m.entries.filter fun e => p e.1 e.2 = true, nodupKeys_filter (fun e => p e.1 e.2) m.nodupKeys⟩

variable [DecidableEq K] {p : K → V → Bool} {m : Finmap fun _ : K => V} {k : K} {v : V}

/-! ### Changing the entries that are kept -/

section RetainMut

variable {f : K → V → Option V}

/-- The entry that `f` leaves. -/
def changed (f : K → V → Option V) (e : Sigma fun _ : K => V) : Option (Sigma fun _ : K => V) :=
  (f e.1 e.2).map (Sigma.mk e.1)

omit [DecidableEq K] in
theorem keys_filterMap_sublist (l : List (Sigma fun _ : K => V)) : ((l.filterMap (changed f)).keys).Sublist l.keys := by
  induction l with
  | nil => exact List.Sublist.slnil
  | cons e l ih =>
    cases he : f e.1 e.2 with
    | none =>
      rw [filterMap_cons_none (by rw [changed, he]; rfl)]
      exact ih.cons _
    | some v =>
      rw [filterMap_cons_some (by rw [changed, he]; rfl)]
      exact ih.cons_cons _

omit [DecidableEq K] in
theorem nodupKeys_filterMap {s : Multiset (Sigma fun _ : K => V)} (h : s.NodupKeys) :
    (s.filterMap (changed f)).NodupKeys := by
  induction s using Quotient.inductionOn with
  | h l =>
    exact List.Nodup.sublist (keys_filterMap_sublist l) (Multiset.coe_nodupKeys.mp h)

/-- `HashMap::retain` with a closure that changes the values it keeps. -/
def retainMut (f : K → V → Option V) (m : Finmap fun _ : K => V) : Finmap fun _ : K => V :=
  ⟨m.entries.filterMap (changed f), nodupKeys_filterMap m.nodupKeys⟩

theorem dlookup_filterMap {l : List (Sigma fun _ : K => V)} (h : l.NodupKeys) :
    List.dlookup k (l.filterMap (changed f)) = (List.dlookup k l).bind (f k) := by
  induction l with
  | nil => rfl
  | cons e l ih =>
    obtain ⟨k', v'⟩ := e
    obtain ⟨hnew, hl⟩ := nodupKeys_cons.mp h
    by_cases hk : k = k'
    · subst hk
      have hrest : List.dlookup k l = none := dlookup_eq_none.mpr hnew
      cases hv : f k v' with
      | none =>
        rw [filterMap_cons_none (by rw [changed, hv]; rfl), ih hl, hrest, dlookup_cons_eq, Option.bind_some, hv]
        rfl
      | some v =>
        rw [filterMap_cons_some (by rw [changed, hv]; rfl), dlookup_cons_eq, dlookup_cons_eq, Option.bind_some, hv]
    · have hskip : ∀ (v : V) (l : List (Sigma fun _ : K => V)),
          List.dlookup k (⟨k', v⟩ :: l) = List.dlookup k l := fun _ l => dlookup_cons_ne l _ hk
      rw [hskip, ← ih hl]
      cases hv : f k' v' with
      | none => rw [filterMap_cons_none (by rw [changed, hv]; rfl)]
      | some v => rw [filterMap_cons_some (by rw [changed, hv]; rfl), hskip]

@[simp] theorem lookup_retainMut : (retainMut f m).lookup k = (m.lookup k).bind (f k) := by
  induction m using Finmap.induction_on with
  | H l =>
    have hlist : retainMut f l.toFinmap = AList.toFinmap
        ⟨l.entries.filterMap (changed f), List.Nodup.sublist (keys_filterMap_sublist _) l.nodupKeys⟩ :=
      Finmap.ext (Multiset.filterMap_coe _ _)
    exact dlookup_filterMap l.nodupKeys

end RetainMut

/-! ### Keeping entries as they are -/

theorem dlookup_filter {l : List (Sigma fun _ : K => V)} (h : l.NodupKeys) :
    List.dlookup k (l.filter fun e => p e.1 e.2) = (List.dlookup k l).filter (p k) := by
  have hfilter : l.filter (fun e => p e.1 e.2) = l.filterMap (changed fun k v => if p k v then some v else none) := by
    rw [← filterMap_eq_filter]
    refine filterMap_congr fun e _ => ?_
    cases hp : p e.1 e.2 with
    | true => simp [changed, hp]
    | false => simp [changed, hp]
  rw [hfilter, dlookup_filterMap h]
  cases List.dlookup k l with
  | none => rfl
  | some v => rw [Option.bind_some, Option.filter_some]

@[simp] theorem lookup_retain : (retain p m).lookup k = (m.lookup k).filter (p k) := by
  induction m using Finmap.induction_on with
  | H l =>
    have hlist : retain p l.toFinmap = AList.toFinmap
        ⟨l.entries.filter fun e => p e.1 e.2, l.nodupKeys.sublist filter_sublist⟩ := by
      have hfilter : (l.entries : Multiset (Sigma fun _ : K => V)).filter
          (fun e => p e.1 e.2 = true) = ↑(l.entries.filter fun e => p e.1 e.2) := by
        simp only [Multiset.filter_coe, Bool.decide_eq_true]
      exact Finmap.ext hfilter
    rw [hlist]
    exact dlookup_filter l.nodupKeys

theorem lookup_retain_eq_some : (retain p m).lookup k = some v ↔ m.lookup k = some v ∧ p k v = true := by
  rw [lookup_retain, Option.filter_eq_some_iff]

theorem lookup_of_retain (h : (retain p m).lookup k = some v) : m.lookup k = some v :=
  (lookup_retain_eq_some.mp h).1

theorem card_retain_le : (retain p m).keys.card ≤ m.keys.card := by
  refine Finset.card_le_card fun k hk => ?_
  obtain ⟨v, hv⟩ := Finmap.mem_iff.mp (Finmap.mem_keys.mp hk)
  exact Index.mem_keys_of_lookup (lookup_of_retain hv)

end McpToolkit.Lib.Table
