import Mathlib.Data.Nat.Digits.Lemmas

/-!
# From one base to another

A number is written in a base with its most significant digit first and any number of zeros before it.
`convert` goes through such a text once and multiplies digit by digit in the other base, with a carry;
the zeros in front are kept one for one. So it is its own inverse on every text that writes a positive
number (`convert_convert`).
-/

set_option autoImplicit false

namespace UnicityBridge.Lib.Radix

/-! ## Digits behind zeros -/

/-- The number that the digits write. -/
def numberOf (base : Nat) (digits : List Nat) : Nat := Nat.ofDigits base digits.reverse

/-- How many zeros stand in front. -/
def leadingZeros (digits : List Nat) : Nat := (digits.takeWhile (· == 0)).length

/-- The digits of a number behind some zeros. -/
def digitsFrom (base zeros n : Nat) : List Nat :=
  List.replicate zeros 0 ++ (Nat.digits base n).reverse

theorem numberOf_cons (base digit : Nat) (rest : List Nat) :
    numberOf base (digit :: rest) = numberOf base rest + base ^ rest.length * digit := by
  rw [numberOf, List.reverse_cons, Nat.ofDigits_append, Nat.ofDigits_singleton, List.length_reverse]
  rfl

theorem numberOf_snoc (base digit : Nat) (front : List Nat) :
    numberOf base (front ++ [digit]) = digit + base * numberOf base front := by
  rw [numberOf, List.reverse_append, List.reverse_singleton, List.singleton_append, Nat.ofDigits_cons]
  rfl

theorem numberOf_zeros (base zeros : Nat) (rest : List Nat) :
    numberOf base (List.replicate zeros 0 ++ rest) = numberOf base rest := by
  induction zeros with
  | zero => rfl
  | succ zeros ih =>
      rw [List.replicate_succ, List.cons_append, numberOf_cons, ih, Nat.mul_zero, Nat.add_zero]

theorem numberOf_digitsFrom (base zeros n : Nat) : numberOf base (digitsFrom base zeros n) = n := by
  rw [digitsFrom, numberOf_zeros, numberOf, List.reverse_reverse, Nat.ofDigits_digits]

/-- The first digit of a positive number is none of the zeros. -/
theorem leadingZeros_digitsFrom (base zeros : Nat) {n : Nat} (hn : n ≠ 0) :
    leadingZeros (digitsFrom base zeros n) = zeros := by
  induction zeros with
  | zero =>
      have hne : Nat.digits base n ≠ [] := Nat.digits_ne_nil_iff_ne_zero.2 hn
      have hlast := Nat.getLast_digit_ne_zero base hn
      obtain ⟨front, last, hdigits⟩ := List.eq_nil_or_concat' (Nat.digits base n) |>.resolve_left hne
      have hpositive : last ≠ 0 := by
        simpa only [hdigits, List.getLast_append_singleton] using hlast
      rw [digitsFrom, hdigits, List.reverse_append, List.reverse_singleton]
      show (List.takeWhile (· == 0) (last :: front.reverse)).length = 0
      rw [List.takeWhile_cons_of_neg (by simpa using hpositive), List.length_nil]
  | succ zeros ih =>
      show (List.takeWhile (· == 0) (0 :: digitsFrom base zeros n)).length = zeros + 1
      rw [List.takeWhile_cons_of_pos (by rfl), List.length_cons]
      exact congrArg (· + 1) ih

section Base

variable {base : Nat} (hbase : 1 < base)

include hbase

theorem digitsFrom_lt (zeros n : Nat) : ∀ digit ∈ digitsFrom base zeros n, digit < base := by
  intro digit hdigit
  rcases List.mem_append.1 hdigit with hzero | hdigits
  · rw [List.eq_of_mem_replicate hzero]
    omega
  · exact Nat.digits_lt_base hbase (List.mem_reverse.1 hdigits)

/-- **Digits are determined** by their number and the zeros in front. -/
theorem digitsFrom_numberOf {digits : List Nat} (hdigits : ∀ digit ∈ digits, digit < base)
    (hne : numberOf base digits ≠ 0) :
    digitsFrom base (leadingZeros digits) (numberOf base digits) = digits := by
  induction digits with
  | nil => exact absurd rfl hne
  | cons digit rest ih =>
      rw [List.forall_mem_cons] at hdigits
      by_cases hzero : digit = 0
      · subst hzero
        have hnumber : numberOf base (0 :: rest) = numberOf base rest := numberOf_zeros base 1 rest
        have hleading : leadingZeros (0 :: rest) = leadingZeros rest + 1 := by
          rw [leadingZeros, List.takeWhile_cons_of_pos (by rfl), List.length_cons]
          rfl
        rw [hnumber] at hne ⊢
        rw [hleading]
        exact congrArg (0 :: ·) (ih hdigits.2 hne)
      · have hleading : leadingZeros (digit :: rest) = 0 := by
          rw [leadingZeros, List.takeWhile_cons_of_neg (by simpa using hzero), List.length_nil]
        have hread : Nat.digits base (numberOf base (digit :: rest)) = (digit :: rest).reverse := by
          apply Nat.digits_ofDigits base hbase
          · intro other hother
            rcases List.mem_cons.1 (List.mem_reverse.1 hother) with rfl | hrest
            · exact hdigits.1
            · exact hdigits.2 other hrest
          · intro h
            simpa only [List.reverse_cons, List.getLast_append_singleton] using hzero
        rw [hleading, digitsFrom, hread, List.reverse_reverse]
        rfl

theorem numberOf_lt {digits : List Nat} (hdigits : ∀ digit ∈ digits, digit < base) :
    numberOf base digits < base ^ digits.length := by
  rw [← List.length_reverse]
  exact Nat.ofDigits_lt_base_pow_length hbase fun digit hdigit =>
    hdigits digit (List.mem_reverse.1 hdigit)

/-- The first digit of a number, by how large the number is. -/
theorem digitsFrom_head {k first rest : Nat} (hpositive : 0 < first) (hfirst : first < base)
    (hrest : rest < base ^ k) :
    ∃ tail, digitsFrom base 0 (rest + base ^ k * first) = first :: tail := by
  have hlength : (Nat.digits base rest).length ≤ k := (Nat.digits_length_le_iff hbase rest).2 hrest
  have hk : (digitsFrom base (k - (Nat.digits base rest).length) rest).length = k := by
    rw [digitsFrom, List.length_append, List.length_replicate, List.length_reverse]
    omega
  refine ⟨digitsFrom base (k - (Nat.digits base rest).length) rest, ?_⟩
  generalize htail : digitsFrom base (k - (Nat.digits base rest).length) rest = tail at hk
  have hlt : ∀ digit ∈ first :: tail, digit < base :=
    List.forall_mem_cons.2 ⟨hfirst, htail ▸ digitsFrom_lt hbase _ _⟩
  have hnumber : numberOf base (first :: tail) = rest + base ^ k * first := by
    rw [numberOf_cons, hk, ← htail, numberOf_digitsFrom]
  have hleading : leadingZeros (first :: tail) = 0 := by
    rw [leadingZeros, List.takeWhile_cons_of_neg (by simpa using hpositive.ne'), List.length_nil]
  have hne : numberOf base (first :: tail) ≠ 0 := by
    have := Nat.mul_pos (Nat.pow_pos (n := k) (by omega : 0 < base)) hpositive
    omega
  rw [← hnumber, ← hleading]
  exact digitsFrom_numberOf hbase hlt hne

end Base

/-! ## Conversion -/

/-- Digits with the lowest first, times a factor, plus a carry. -/
def mulAdd (factor base : Nat) : Nat → List Nat → List Nat
  | carry, [] => Nat.digits base carry
  | carry, digit :: rest =>
      (carry + digit * factor) % base :: mulAdd factor base ((carry + digit * factor) / base) rest

/-- The digits of a number with the lowest first; zero has one. -/
def lowFirst (base n : Nat) : List Nat := if n = 0 then [0] else Nat.digits base n

/-- The digits in another base. -/
def convert (base base' : Nat) (digits : List Nat) : List Nat :=
  ((digits.foldl (fun low digit => mulAdd base base' digit low) [0]) ++
    List.replicate (leadingZeros digits) 0).reverse

section Convert

variable {base base' : Nat} (hbase : 1 < base) (hbase' : 1 < base')

include hbase'

theorem mulAdd_digits (hfactor : 0 < base) (n carry : Nat) :
    mulAdd base base' carry (Nat.digits base' n) = Nat.digits base' (carry + base * n) := by
  induction n using Nat.strong_induction_on generalizing carry with
  | _ n ih =>
      rcases Nat.eq_zero_or_pos n with rfl | hn
      · rw [Nat.digits_zero, Nat.mul_zero, Nat.add_zero]
        rfl
      · have hpositive : 0 < carry + base * n := by
          have := Nat.mul_pos hfactor hn
          omega
        have hsplit : carry + base * n =
            carry + n % base' * base + base' * (base * (n / base')) := by
          calc carry + base * n = carry + base * (n % base' + base' * (n / base')) := by
                rw [Nat.mod_add_div]
            _ = _ := by ring
        rw [Nat.digits_def' hbase' hn, mulAdd, ih (n / base') (Nat.div_lt_self hn hbase'),
          Nat.digits_def' hbase' hpositive, hsplit, Nat.add_mul_mod_self_left,
          Nat.add_mul_div_left _ _ (by omega)]

theorem mulAdd_lowFirst (hfactor : 0 < base) (n carry : Nat) :
    mulAdd base base' carry (lowFirst base' n) = lowFirst base' (carry + base * n) := by
  unfold lowFirst
  by_cases hn : n = 0
  · subst hn
    rw [if_pos rfl, Nat.mul_zero, Nat.add_zero, mulAdd, mulAdd, Nat.zero_mul, Nat.add_zero]
    by_cases hcarry : carry = 0
    · subst hcarry
      rw [if_pos rfl, Nat.zero_mod, Nat.zero_div, Nat.digits_zero]
    · rw [if_neg hcarry, ← Nat.digits_def' hbase' (Nat.pos_of_ne_zero hcarry)]
  · have hpositive : carry + base * n ≠ 0 := by
      have := Nat.mul_pos hfactor (Nat.pos_of_ne_zero hn)
      omega
    rw [if_neg hn, if_neg hpositive]
    exact mulAdd_digits hbase' hfactor n carry

/-- The loop has converted what it went through. -/
theorem foldl_mulAdd (hfactor : 0 < base) (digits : List Nat) :
    digits.foldl (fun low digit => mulAdd base base' digit low) [0] =
      lowFirst base' (numberOf base digits) := by
  induction digits using List.reverseRecOn with
  | nil => rfl
  | append_singleton front digit ih =>
      rw [List.foldl_append, ih, List.foldl_cons, List.foldl_nil, mulAdd_lowFirst hbase' hfactor,
        numberOf_snoc]

/-- **What is converted** is the number and the zeros in front. -/
theorem convert_eq (hfactor : 0 < base) {digits : List Nat} (hne : numberOf base digits ≠ 0) :
    convert base base' digits = digitsFrom base' (leadingZeros digits) (numberOf base digits) := by
  rw [convert, foldl_mulAdd hbase' hfactor, lowFirst, if_neg hne, List.reverse_append,
    List.reverse_replicate]
  rfl

theorem numberOf_convert (hfactor : 0 < base) (digits : List Nat) :
    numberOf base' (convert base base' digits) = numberOf base digits := by
  by_cases hne : numberOf base digits = 0
  · rw [convert, foldl_mulAdd hbase' hfactor, lowFirst, if_pos hne, hne, List.reverse_append,
      List.reverse_replicate, numberOf_zeros]
    rfl
  · rw [convert_eq hbase' hfactor hne, numberOf_digitsFrom]

theorem convert_lt (hfactor : 0 < base) (digits : List Nat) :
    ∀ digit ∈ convert base base' digits, digit < base' := by
  by_cases hne : numberOf base digits = 0
  · intro digit hdigit
    rw [convert, foldl_mulAdd hbase' hfactor, lowFirst, if_pos hne, List.mem_reverse,
      List.mem_append] at hdigit
    rcases hdigit with hzero | hzero
    · rw [List.mem_singleton.1 hzero]
      omega
    · rw [List.eq_of_mem_replicate hzero]
      omega
  · rw [convert_eq hbase' hfactor hne]
    exact digitsFrom_lt hbase' _ _

include hbase

/-- **There and back.** -/
theorem convert_convert {digits : List Nat} (hdigits : ∀ digit ∈ digits, digit < base)
    (hne : numberOf base digits ≠ 0) : convert base' base (convert base base' digits) = digits := by
  have hnumber := numberOf_convert hbase' (by omega : 0 < base) digits
  have hne' : numberOf base' (convert base base' digits) ≠ 0 := hnumber ▸ hne
  rw [convert_eq hbase (by omega) hne', hnumber, convert_eq hbase' (by omega) hne,
    leadingZeros_digitsFrom base' _ hne]
  exact digitsFrom_numberOf hbase hdigits hne

end Convert

end UnicityBridge.Lib.Radix
