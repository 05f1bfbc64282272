import Mathlib.Algebra.Group.Nat.Defs
import Mathlib.Data.List.Basic

/-!
# McpToolkit.Lib.Framing — lists of byte strings as one byte string

`frame` writes the number of the strings and then each string behind its length, the numbers as
eight bytes with the most significant first.  Two lists whose numbers fit into eight bytes have the
same frame only if they are equal.
-/

namespace McpToolkit.Lib.Framing

open List

/-- The last `k` bytes of a number, the most significant first. -/
def bigEndian : ℕ → ℕ → List UInt8
  | 0, _ => []
  | k + 1, n => bigEndian k (n / 256) ++ [UInt8.ofNat (n % 256)]

/-- `u64::to_be_bytes`. -/
def beBytes (n : ℕ) : List UInt8 := bigEndian 8 n

def frame (values : List (List UInt8)) : List UInt8 :=
  beBytes values.length ++ values.flatMap fun v => beBytes v.length ++ v

/-- The count and every length fit into eight bytes. -/
def Fits (values : List (List UInt8)) : Prop :=
  values.length < 256 ^ 8 ∧ ∀ v ∈ values, v.length < 256 ^ 8

theorem length_bigEndian (k n : ℕ) : (bigEndian k n).length = k := by
  induction k generalizing n with
  | zero => rfl
  | succ k ih => rw [bigEndian, length_append, ih]; rfl

theorem bigEndian_injective {k : ℕ} : ∀ {m n : ℕ}, m < 256 ^ k → n < 256 ^ k →
    bigEndian k m = bigEndian k n → m = n := by
  induction k with
  | zero =>
    intro m n hm hn _
    rw [Nat.pow_zero, Nat.lt_one_iff] at hm hn
    rw [hm, hn]
  | succ k ih =>
    intro m n hm hn h
    obtain ⟨hhigh, hlow⟩ := append_inj h (by rw [length_bigEndian, length_bigEndian])
    have hdiv : m / 256 = n / 256 := by
      refine ih ?_ ?_ hhigh
      · exact Nat.div_lt_of_lt_mul (by rwa [Nat.pow_succ, Nat.mul_comm] at hm)
      · exact Nat.div_lt_of_lt_mul (by rwa [Nat.pow_succ, Nat.mul_comm] at hn)
    have hmod : m % 256 = n % 256 := by
      have hbyte := congrArg UInt8.toNat (List.cons.inj hlow).1
      simpa using hbyte
    omega

theorem beBytes_append {m n : ℕ} {u v : List UInt8} (hm : m < 256 ^ 8) (hn : n < 256 ^ 8)
    (h : beBytes m ++ u = beBytes n ++ v) : m = n ∧ u = v := by
  have hlen : (beBytes m).length = (beBytes n).length := by
    rw [beBytes, beBytes, length_bigEndian, length_bigEndian]
  obtain ⟨hb, hu⟩ := append_inj h hlen
  exact ⟨bigEndian_injective hm hn hb, hu⟩

theorem flatMap_injective : ∀ {values values' : List (List UInt8)},
    (∀ v ∈ values, v.length < 256 ^ 8) → (∀ v ∈ values', v.length < 256 ^ 8) →
    values.length = values'.length → values.flatMap (fun v => beBytes v.length ++ v) =
      values'.flatMap (fun v => beBytes v.length ++ v) → values = values'
  | [], [], _, _, _, _ => rfl
  | [], _ :: _, _, _, hlen, _ => by cases hlen
  | _ :: _, [], _, _, hlen, _ => by cases hlen
  | v :: values, v' :: values', hfit, hfit', hlen, h => by
    rw [flatMap_cons, flatMap_cons, append_assoc] at h
    rw [forall_mem_cons] at hfit hfit'
    obtain ⟨hv, hrest⟩ := beBytes_append hfit.1 hfit'.1 h
    obtain ⟨rfl, htail⟩ := append_inj hrest hv
    rw [flatMap_injective hfit.2 hfit'.2 (Nat.succ.inj hlen) htail]

/-- **A frame determines the list.** -/
theorem frame_injective {values values' : List (List UInt8)} (h : Fits values) (h' : Fits values')
    (heq : frame values = frame values') : values = values' := by
  obtain ⟨hlen, hbody⟩ := beBytes_append h.1 h'.1 heq
  exact flatMap_injective h.2 h'.2 hlen hbody

end McpToolkit.Lib.Framing
