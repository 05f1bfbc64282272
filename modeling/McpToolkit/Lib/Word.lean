import Mathlib.Tactic.NormNum

/-!
# McpToolkit.Lib.Word — machine words

Unsigned words are natural numbers with their bound; a signed word is an integer.  `asI64` is the
cast of an unsigned word of 64 bits, `wrapI64` the result of an operation on signed words that may
overflow.  A duration is a number of nanoseconds.
-/

namespace McpToolkit.Lib.Word

def u32Max : ℕ := 2 ^ 32 - 1
def u64Max : ℕ := 2 ^ 64 - 1
def i64Max : ℕ := 2 ^ 63 - 1

def asI64 (n : ℕ) : ℤ := if n ≤ i64Max then n else n - 2 ^ 64

def wrapI64 (z : ℤ) : ℤ := Int.bmod z (2 ^ 64)

def checkedAdd (a b : ℕ) : Option ℕ := if a + b ≤ u64Max then some (a + b) else none

def checkedMul (a b : ℕ) : Option ℕ := if a * b ≤ u64Max then some (a * b) else none

def saturatingAdd (a b : ℕ) : ℕ := min (a + b) u64Max

theorem saturatingAdd_min (n b : ℕ) : saturatingAdd (min n u64Max) b = min (n + b) u64Max := by
  unfold saturatingAdd
  omega

abbrev Duration := ℕ

/-- `Instant + Duration`, where there is no instant behind the horizon. -/
def addDuration (horizon now : ℕ) (d : Duration) : Option ℕ := if now + d ≤ horizon then some (now + d) else none

def asSecs (d : Duration) : ℕ := d / 1000000000

theorem eq_of_addDuration {horizon now x : ℕ} {d : Duration} (h : addDuration horizon now d = some x) : x = now + d :=
  (Option.some.inj (Option.ite_none_right_eq_some.mp h).2).symm

theorem asI64_of_le {n : ℕ} (h : n ≤ i64Max) : asI64 n = n := if_pos h

theorem asI64_neg {n : ℕ} (h : i64Max < n) (hn : n ≤ u64Max) : asI64 n < 0 := by
  rw [asI64, if_neg (not_le.mpr h)]
  unfold u64Max at hn
  omega

theorem wrapI64_of_mem {z : ℤ} (hlow : -2 ^ 63 ≤ z) (hhigh : z < 2 ^ 63) : wrapI64 z = z := by
  exact Int.bmod_eq_of_le (by norm_num; omega) (by norm_num; omega)

end McpToolkit.Lib.Word
