import Mathlib.Data.Finmap

/-!
# McpToolkit.Lib.Index — the keys of a finite map

The set of the keys, and its size, when an entry is added.
-/

namespace McpToolkit.Lib.Index

open Finmap

variable {K V : Type} [DecidableEq K] {m : Finmap fun _ : K => V} {k : K} {v : V}

theorem keys_insert : (m.insert k v).keys = insert k m.keys := by
  ext x
  rw [mem_keys, mem_insert, Finset.mem_insert, mem_keys]

theorem mem_keys_of_lookup (h : m.lookup k = some v) : k ∈ m.keys :=
  mem_keys.mpr (mem_iff.mpr ⟨v, h⟩)

theorem card_insert (h : m.lookup k = none) : (m.insert k v).keys.card = m.keys.card + 1 := by
  rw [keys_insert, Finset.card_insert_of_notMem]
  exact lookup_eq_none.mp h

end McpToolkit.Lib.Index
