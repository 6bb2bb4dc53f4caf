import Mathlib.Data.Nat.Log
import Mathlib.Tactic.Positivity
import Mathlib.Tactic.Ring

/-!
# Rounding to significant bits

A number rounded to its `p` leading bits, to the nearest value and to an even last bit in the middle,
as a floating-point format with a `p`-bit significand stores it. Numbers below `2 ^ p` are stored
exactly, and rounding leads no other number below that bound.
-/

set_option autoImplicit false

namespace UnicityBridge.Lib

/-- The bits that do not fit the significand. -/
def excessBits (p n : Nat) : Nat := n.log2 + 1 - p

/-- `n` with `p` significant bits, half to even. -/
def roundBits (p n : Nat) : Nat :=
  let unit := 2 ^ excessBits p n
  let q := n / unit
  if 2 * (n % unit) < unit ∨ (2 * (n % unit) = unit ∧ q % 2 = 0) then q * unit
  else (q + 1) * unit

variable {p n : Nat}

/-- The result is one of the two neighbours. -/
theorem roundBits_cases (p n : Nat) :
    roundBits p n = n / 2 ^ excessBits p n * 2 ^ excessBits p n ∨
      roundBits p n = (n / 2 ^ excessBits p n + 1) * 2 ^ excessBits p n := by
  unfold roundBits
  dsimp only
  split
  · exact .inl rfl
  · exact .inr rfl

/-- A multiple of the unit is kept. -/
theorem roundBits_of_dvd (h : 2 ^ excessBits p n ∣ n) : roundBits p n = n := by
  have hmod : n % 2 ^ excessBits p n = 0 := Nat.mod_eq_zero_of_dvd h
  unfold roundBits
  dsimp only
  rw [hmod, if_pos (.inl (by positivity))]
  exact Nat.div_mul_cancel h

theorem roundBits_of_lt (h : n < 2 ^ p) : roundBits p n = n := by
  have hdvd : 2 ^ excessBits p n ∣ n := by
    by_cases hn : n = 0
    · rw [hn]
      exact dvd_zero _
    · have hlog := (Nat.log2_lt hn).2 h
      have hnone : excessBits p n = 0 := by
        unfold excessBits
        omega
      rw [hnone]
      exact one_dvd n
  exact roundBits_of_dvd hdvd

/-- From `2 ^ p` on, the leading bits make a full significand. -/
theorem significand (hp : 0 < p) (h : 2 ^ p ≤ n) :
    excessBits p n = n.log2 + 1 - p ∧ 0 < excessBits p n ∧
      2 ^ (p - 1) ≤ n / 2 ^ excessBits p n ∧ n / 2 ^ excessBits p n < 2 ^ p := by
  have hn : n ≠ 0 := by
    rintro rfl
    exact absurd h (by simp)
  have hlog : p ≤ n.log2 := by
    by_contra hlt
    exact absurd ((Nat.log2_lt hn).1 (not_le.1 hlt)) (not_lt.2 h)
  refine ⟨rfl, by unfold excessBits; omega, ?_, ?_⟩
  · rw [Nat.le_div_iff_mul_le (by positivity), ← pow_add]
    have hsum : p - 1 + excessBits p n = n.log2 := by
      unfold excessBits
      omega
    rw [hsum]
    exact Nat.log2_self_le hn
  · rw [Nat.div_lt_iff_lt_mul (by positivity), ← pow_add]
    have hsum : p + excessBits p n = n.log2 + 1 := by
      unfold excessBits
      omega
    rw [hsum]
    exact Nat.lt_log2_self

/-- **Rounding keeps the order to `2 ^ p`.** -/
theorem le_roundBits (hp : 0 < p) (h : 2 ^ p ≤ n) : 2 ^ p ≤ roundBits p n := by
  obtain ⟨-, hpos, hlow, -⟩ := significand hp h
  have hfloor : 2 ^ p ≤ n / 2 ^ excessBits p n * 2 ^ excessBits p n := by
    calc 2 ^ p ≤ 2 ^ (p - 1 + excessBits p n) := Nat.pow_le_pow_right (by decide) (by omega)
      _ = 2 ^ (p - 1) * 2 ^ excessBits p n := pow_add ..
      _ ≤ n / 2 ^ excessBits p n * 2 ^ excessBits p n := Nat.mul_le_mul_right _ hlow
  rcases roundBits_cases p n with heq | heq
  · rw [heq]
    exact hfloor
  · rw [heq, Nat.add_mul]
    omega

/-- A significand of at most `2 ^ p` is kept at every exponent. -/
theorem roundBits_mul (hp : 0 < p) {m : Nat} (hm : m ≤ 2 ^ p) (e : Nat) :
    roundBits p (m * 2 ^ e) = m * 2 ^ e := by
  apply roundBits_of_dvd
  by_cases hzero : m = 0
  · simp [hzero]
  have hne : m * 2 ^ e ≠ 0 := by positivity
  rcases hm.lt_or_eq with hlt | rfl
  · have hlog : (m * 2 ^ e).log2 < p + e := by
      rw [Nat.log2_lt hne, pow_add]
      exact Nat.mul_lt_mul_of_pos_right hlt (by positivity)
    refine (pow_dvd_pow 2 ?_).trans (Dvd.intro_left m rfl)
    unfold excessBits
    omega
  · rw [← pow_add]
    apply pow_dvd_pow
    unfold excessBits
    rw [Nat.log2_two_pow]
    omega

/-- **Rounding twice is rounding once.** -/
theorem roundBits_roundBits (hp : 0 < p) (n : Nat) :
    roundBits p (roundBits p n) = roundBits p n := by
  by_cases h : n < 2 ^ p
  · rw [roundBits_of_lt h, roundBits_of_lt h]
  obtain ⟨-, -, -, hlt⟩ := significand hp (not_lt.1 h)
  rcases roundBits_cases p n with heq | heq
  · rw [heq, roundBits_mul hp hlt.le]
  · rw [heq, roundBits_mul hp hlt]

/-- Below the bound rounding is exact in both directions. -/
theorem roundBits_eq_iff_of_lt (hp : 0 < p) {m : Nat} (hm : m < 2 ^ p) :
    roundBits p n = m ↔ n = m := by
  constructor
  · intro heq
    by_cases h : n < 2 ^ p
    · rwa [roundBits_of_lt h] at heq
    · have hle := le_roundBits hp (not_lt.1 h)
      omega
  · rintro rfl
    exact roundBits_of_lt hm

end UnicityBridge.Lib
