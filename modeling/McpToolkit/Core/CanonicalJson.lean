import Mathlib.Data.List.Lex
import McpToolkit.Lib.Json
import McpToolkit.Lib.Ordered

/-!
# McpToolkit.Core.CanonicalJson — canonical JSON identity

`canonical_json.rs`: the members of every object are sorted by their keys, and the value is written
compactly.  Two values get the same bytes exactly if they differ in the order of members only.
-/

namespace McpToolkit.Core

open List
open Lib
open Lib.Json

variable {φ : Type}

/-- Rust orders strings by their bytes. -/
def keyRank (k : List UInt8) : List ℕ := k.map UInt8.toNat

theorem keyRank_injective : Function.Injective keyRank :=
  map_injective_iff.mpr fun _ _ => UInt8.toNat_inj.mp

mutual

-- Sorting reads the keys only, so the nested values may be ordered before it.
def orderObjectKeys : Value φ → Value φ
  | .object members => .object (Ordered.collect keyRank (orderMembers members))
  | .array items => .array (orderItems items)
  | .null => .null
  | .bool b => .bool b
  | .number n => .number n
  | .string s => .string s

def orderItems : List (Value φ) → List (Value φ)
  | [] => []
  | v :: items => orderObjectKeys v :: orderItems items

def orderMembers : List (List UInt8 × Value φ) → List (List UInt8 × Value φ)
  | [] => []
  | (k, v) :: members => (k, orderObjectKeys v) :: orderMembers members

end

def canonicalJsonBytes (fmt : FloatFormat φ) (value : Value φ) : List UInt8 :=
  write fmt (orderObjectKeys value)

theorem orderItems_eq (items : List (Value φ)) : orderItems items = items.map orderObjectKeys := by
  induction items with
  | nil => rfl
  | cons v items ih => rw [orderItems, ih, map_cons]

theorem orderMembers_eq (members : List (List UInt8 × Value φ)) :
    orderMembers members = members.map fun e => (e.1, orderObjectKeys e.2) := by
  induction members with
  | nil => rfl
  | cons e members ih => rw [orderMembers, ih, map_cons]

theorem keys_orderMembers (members : List (List UInt8 × Value φ)) :
    (orderMembers members).map Prod.fst = members.map Prod.fst := by
  rw [orderMembers_eq, map_map]
  rfl

/-! ### Ordering reorders -/

mutual

theorem reordered_orderObjectKeys : ∀ v : Value φ, v.Distinct → v.Reordered (orderObjectKeys v)
  | .null, _ | .bool _, _ | .number _, _ | .string _, _ => .refl _
  | .array items, h => Value.reordered_array_append (reordered_orderItems items h) []
  | .object members, h => by
    have hkeys : ((orderMembers members).map Prod.fst).Nodup := by
      rw [keys_orderMembers]; exact h.1
    refine (Value.reordered_object_append (reordered_orderMembers members h.2) []).trans ?_
    exact .perm (Ordered.collect_perm keyRank_injective hkeys).symm

theorem reordered_orderItems : ∀ items : List (Value φ), DistinctItems items →
    List.Forall₂ Value.Reordered items (orderItems items)
  | [], _ => .nil
  | v :: items, h => .cons (reordered_orderObjectKeys v h.1) (reordered_orderItems items h.2)

theorem reordered_orderMembers : ∀ members : List (List UInt8 × Value φ), DistinctMembers members →
    List.Forall₂ MemberReordered members (orderMembers members)
  | [], _ => .nil
  | (_, v) :: members, h =>
    .cons ⟨rfl, reordered_orderObjectKeys v h.1⟩ (reordered_orderMembers members h.2)

end

/-! ### Reordered values are ordered alike -/

theorem orderObjectKeys_array (before after : List (Value φ)) (v : Value φ) :
    orderObjectKeys (.array (before ++ v :: after)) =
      .array (orderItems before ++ orderObjectKeys v :: orderItems after) := by
  simp only [orderObjectKeys, orderItems_eq, map_append, map_cons]

theorem orderObjectKeys_object (k : List UInt8) (before after : List (List UInt8 × Value φ))
    (v : Value φ) : orderObjectKeys (.object (before ++ (k, v) :: after)) = .object (Ordered.collect keyRank
        (orderMembers before ++ (k, orderObjectKeys v) :: orderMembers after)) := by
  simp only [orderObjectKeys, orderMembers_eq, map_append, map_cons]

theorem distinct_array {before after : List (Value φ)} {v : Value φ} :
    (Value.array (before ++ v :: after)).Distinct ↔ v.Distinct ∧ ∀ u ∈ before ++ after, u.Distinct := by
  rw [Value.Distinct, distinctItems_iff, forall_mem_append, forall_mem_cons, forall_mem_append, and_left_comm]

theorem distinct_object {k : List UInt8} {before after : List (List UInt8 × Value φ)}
    {v : Value φ} : (Value.object (before ++ (k, v) :: after)).Distinct ↔
      (before.map Prod.fst ++ k :: after.map Prod.fst).Nodup ∧ v.Distinct ∧ ∀ e ∈ before ++ after, e.2.Distinct := by
  rw [Value.Distinct, distinctMembers_iff, forall_mem_append, forall_mem_cons, forall_mem_append, map_append]
  exact and_congr_right fun _ => and_left_comm

theorem orderObjectKeys_of_reordered {v w : Value φ} (h : v.Reordered w) (hv : v.Distinct) :
    w.Distinct ∧ orderObjectKeys v = orderObjectKeys w := by
  induction h with
  | refl v => exact ⟨hv, rfl⟩
  | trans _ _ ih ih' =>
    obtain ⟨hm, heq⟩ := ih hv
    obtain ⟨hw, heq'⟩ := ih' hm
    exact ⟨hw, heq.trans heq'⟩
  | item before after _ ih =>
    obtain ⟨hv, hrest⟩ := distinct_array.mp hv
    obtain ⟨hw, heq⟩ := ih hv
    exact ⟨distinct_array.mpr ⟨hw, hrest⟩, by
      rw [orderObjectKeys_array, orderObjectKeys_array, heq]⟩
  | member k before after _ ih =>
    obtain ⟨hkeys, hv, hrest⟩ := distinct_object.mp hv
    obtain ⟨hw, heq⟩ := ih hv
    exact ⟨distinct_object.mpr ⟨hkeys, hw, hrest⟩, by
      rw [orderObjectKeys_object, orderObjectKeys_object, heq]⟩
  | @perm members members' hperm =>
    have hkeys : ((orderMembers members).map Prod.fst).Nodup := by
      rw [keys_orderMembers]; exact hv.1
    have hmembers : (orderMembers members).Perm (orderMembers members') := by
      rw [orderMembers_eq, orderMembers_eq]; exact hperm.map _
    refine ⟨⟨(hperm.map Prod.fst).nodup_iff.mp hv.1, ?_⟩, ?_⟩
    · exact distinctMembers_iff.mpr fun e he =>
        distinctMembers_iff.mp hv.2 e (hperm.mem_iff.mpr he)
    · rw [orderObjectKeys, orderObjectKeys, Ordered.collect_congr keyRank_injective hkeys hmembers]

theorem canonicalJsonBytes_eq_iff_of_distinct (fmt : FloatFormat φ) {v w : Value φ}
    (hv : v.Distinct) (hw : w.Distinct) : canonicalJsonBytes fmt v = canonicalJsonBytes fmt w ↔ v.Reordered w := by
  constructor
  · intro h
    have hordered : orderObjectKeys v = orderObjectKeys w := write_injective h
    have hright := (reordered_orderObjectKeys w hw).symm
    rw [← hordered] at hright
    exact (reordered_orderObjectKeys v hv).trans hright
  · intro h
    rw [canonicalJsonBytes, (orderObjectKeys_of_reordered h hv).2, canonicalJsonBytes]

/-- **Canonical JSON identity**: two values have the same canonical bytes exactly if they are equal
up to the order of the members of objects; scalars, the order of items and the keys then agree. -/
theorem canonicalJsonBytes_eq_iff (fmt : FloatFormat φ) (v w : Document φ) :
    (canonicalJsonBytes fmt v.value = canonicalJsonBytes fmt w.value ↔ v.value.Reordered w.value) ∧
    (canonicalJsonBytes fmt v.value = canonicalJsonBytes fmt w.value → v.value.SameShape w.value) := by
  have hiff := canonicalJsonBytes_eq_iff_of_distinct fmt v.distinct w.distinct
  exact ⟨hiff, fun h => (hiff.mp h).sameShape⟩

/-- The floats `0.5` and `1.5`. -/
def twoFloats : FloatFormat Bool where
  write x := [if x then 49 else 48, 46, 53]
  injective x y := by revert x y; decide
  numeric x := List.all_eq_true.mp (by cases x <;> rfl)
  fractional := by decide

/-- An object of two floats. -/
def floatPair (key key' : UInt8) (x y : Bool) (h : key ≠ key') : Document Bool where
  value := .object [([key], .number (.float x)), ([key'], .number (.float y))]
  distinct := ⟨by simpa using h, trivial, trivial, trivial⟩

/-- The members in another order, and the floats exchanged. -/
theorem canonicalJsonBytes_eq_iff_floatPair :
    (floatPair 97 98 true false (by decide)).value.Reordered (floatPair 98 97 false true (by decide)).value ∧
      ¬(floatPair 97 98 true false (by decide)).value.Reordered (floatPair 97 98 false true (by decide)).value :=
  ⟨(canonicalJsonBytes_eq_iff twoFloats _ _).1.mp (by decide),
    fun h => absurd ((canonicalJsonBytes_eq_iff twoFloats _ _).1.mpr h) (by decide)⟩

end McpToolkit.Core
