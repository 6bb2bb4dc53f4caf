import UnicityBridge.Lib.Hex

/-!
# Numbers as text

Unsigned numbers in positional notation: a reader that fails on another character and on a number of
too many bits, as `from_str_radix` does, and the decimal numbers without a leading zero. The readers
give back the number that `Nat.toDigits` wrote.
-/

set_option autoImplicit false

namespace UnicityBridge.Lib

/-! ## Reading with a bound -/

/-- Digits read on from `n`, while the number stays below the limit. -/
def readDigits (value : Char → Option Nat) (base limit : Nat) : Nat → List Char → Option Nat
  | n, [] => some n
  | n, c :: rest => do
      let digit ← value c
      if base * n + digit < limit then readDigits value base limit (base * n + digit) rest else none

/-- A number below the limit, with an optional sign before it. -/
def fromStrRadix (value : Char → Option Nat) (base limit : Nat) : List Char → Option Nat
  | [] => none
  | ['+'] => none
  | '+' :: rest => readDigits value base limit 0 rest
  | chars => readDigits value base limit 0 chars

section Reading

variable {value : Char → Option Nat} {base limit : Nat}

theorem readDigits_append (n : Nat) (front back : List Char) :
    readDigits value base limit n (front ++ back) =
      (readDigits value base limit n front).bind fun m => readDigits value base limit m back := by
  induction front generalizing n with
  | nil => rfl
  | cons c rest ih =>
      simp only [List.cons_append, readDigits, Option.bind_eq_bind]
      cases value c with
      | none => rfl
      | some digit =>
          simp only [Option.bind_some]
          split
          · exact ih _
          · rfl

theorem readDigits_single {n digit : Nat} {c : Char} (hvalue : value c = some digit)
    (hlimit : base * n + digit < limit) :
    readDigits value base limit n [c] = some (base * n + digit) := by
  simp only [readDigits, hvalue, Option.bind_eq_bind, Option.bind_some, if_pos hlimit]

/-- **The digits of a number are read as that number**, by induction on the number of digits. -/
theorem readDigits_toDigits (hbase : 1 < base)
    (hvalue : ∀ digit < base, value (Nat.digitChar digit) = some digit) {n : Nat} (hn : n < limit) :
    readDigits value base limit 0 (Nat.toDigits base n) = some n := by
  induction n using Nat.base_induction base hbase with
  | single m hm =>
      have hread : base * 0 + m < limit := by omega
      rw [Nat.toDigits_of_lt_base hm, readDigits_single (hvalue m hm) hread, Nat.mul_zero,
        Nat.zero_add]
  | digit k digit hdigit hk ih =>
      have hlt : k < limit := by
        have hle : k ≤ base * k := Nat.le_mul_of_pos_left _ (by omega)
        omega
      rw [← Nat.toDigits_append_toDigits hbase hk hdigit, readDigits_append, ih hlt,
        Nat.toDigits_of_lt_base hdigit]
      exact readDigits_single (hvalue digit hdigit) hn

theorem fromStrRadix_toDigits (hbase : 1 < base)
    (hvalue : ∀ digit < base, value (Nat.digitChar digit) = some digit) (hsign : value '+' = none)
    {n : Nat} (hn : n < limit) :
    fromStrRadix value base limit (Nat.toDigits base n) = some n := by
  have hread := readDigits_toDigits hbase hvalue hn
  generalize hchars : Nat.toDigits base n = chars at hread
  unfold fromStrRadix
  split
  · exact absurd hchars Nat.toDigits_ne_nil
  · simp [readDigits, hsign] at hread
  · simp [readDigits, hsign] at hread
  · exact hread

end Reading

theorem hexValue_digitChar {digit : Nat} (h : digit < 16) :
    hexValue (Nat.digitChar digit) = some digit := by
  have hall : ∀ i : Fin 16, hexValue (Nat.digitChar i) = some i.val := by decide
  exact hall ⟨digit, h⟩

/-- A number below the limit, written in hexadecimal, is read back. -/
theorem fromStrRadix_hex {n limit : Nat} (h : n < limit) :
    fromStrRadix hexValue 16 limit (Nat.toDigits 16 n) = some n :=
  fromStrRadix_toDigits (by decide) (fun _ => hexValue_digitChar) (by decide) h

/-! ## Decimal numbers -/

/-- A decimal number without leading zeros. -/
def isWholeNumber : List Char → Bool
  | [] => false
  | ['0'] => true
  | c :: rest => ('1' ≤ c && c ≤ '9') && rest.all Char.isDigit

/-- Behind the first digit of a positive number stand digits. -/
theorem toDigits_positive {n : Nat} (h : 0 < n) :
    ∃ c rest, Nat.toDigits 10 n = c :: rest ∧ '1' ≤ c ∧ c ≤ '9' ∧ rest.all Char.isDigit = true := by
  induction n using Nat.base_induction 10 (by decide) with
  | single m hm =>
      have hall : ∀ i : Fin 10, 0 < i.val → '1' ≤ Nat.digitChar i ∧ Nat.digitChar i ≤ '9' := by decide
      obtain ⟨hlow, hhigh⟩ := hall ⟨m, hm⟩ h
      exact ⟨Nat.digitChar m, [], Nat.toDigits_of_lt_base hm, hlow, hhigh, rfl⟩
  | digit k digit hdigit hk ih =>
      obtain ⟨c, rest, hchars, hlow, hhigh, hrest⟩ := ih hk
      have hall : ∀ i : Fin 10, (Nat.digitChar i).isDigit = true := by decide
      refine ⟨c, rest ++ [Nat.digitChar digit], ?_, hlow, hhigh, ?_⟩
      · rw [← Nat.toDigits_append_toDigits (by decide) hk hdigit, hchars,
          Nat.toDigits_of_lt_base hdigit]
        rfl
      · rw [List.all_append, hrest, List.all_cons, hall ⟨digit, hdigit⟩]
        rfl

/-- **A number in decimal** has no leading zeros. -/
theorem isWholeNumber_toDigits (n : Nat) : isWholeNumber (Nat.toDigits 10 n) = true := by
  rcases Nat.eq_zero_or_pos n with rfl | hpos
  · decide
  · obtain ⟨c, rest, hchars, hlow, hhigh, hrest⟩ := toDigits_positive hpos
    rw [hchars]
    unfold isWholeNumber
    split
    · next h => cases h
    · rfl
    · next h =>
      obtain ⟨rfl, rfl⟩ := List.cons.inj h
      simp only [hlow, hhigh, hrest, decide_true, Bool.and_self]

end UnicityBridge.Lib
