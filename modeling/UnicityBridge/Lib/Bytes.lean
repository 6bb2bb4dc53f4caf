import Mathlib.Data.Vector.Basic
import Mathlib.Data.List.Induction
import Mathlib.Tactic.Linarith
import Mathlib.Tactic.Ring

/-!
# Byte strings

Byte strings are lists of bytes and a fixed-width array is a list that carries its length. The
module gives the bits of a byte string, counted from the low end of each byte, and the big-endian
numbers of fixed width, with the facts that let a layout be read back: bits and numbers determine
the bytes.
-/

set_option autoImplicit false

namespace UnicityBridge.Lib

/-- A byte string. -/
abbrev Bytes := List UInt8

/-- A byte array of fixed width. -/
abbrev ByteArr (n : Nat) := List.Vector UInt8 n

/-- A 20-byte array. -/
abbrev Bytes20 := ByteArr 20

/-- A 32-byte array. -/
abbrev Bytes32 := ByteArr 32

namespace ByteArr

/-- The array of zero bytes. -/
def zero (n : Nat) : ByteArr n := List.Vector.replicate n 0

theorem toList_inj {n : Nat} {a b : ByteArr n} : a.toList = b.toList ↔ a = b :=
  List.Vector.toList_injective.eq_iff

end ByteArr

/-! ## Bits -/

/-- Bit `index` of a byte string, counted from the low end of each byte. -/
def bitAt (data : Bytes) (index : Nat) : Bool :=
  ((data.getD (index / 8) 0) >>> UInt8.ofNat (index % 8)) &&& 1 == 1

theorem bitAt_eq_testBit (data : Bytes) (index : Nat) :
    bitAt data index = (data.getD (index / 8) 0).toNat.testBit (index % 8) := by
  have hk : (UInt8.ofNat (index % 8)).toNat % 8 = index % 8 := by
    simp only [UInt8.toNat_ofNat']
    omega
  rw [bitAt, Nat.testBit, Bool.eq_iff_iff, beq_iff_eq, ← UInt8.toNat_inj, UInt8.toNat_and,
    UInt8.toNat_shiftRight, hk, Nat.and_comm, bne_iff_ne]
  show 1 &&& _ = 1 ↔ _
  rw [Nat.one_and_eq_mod_two]
  omega

theorem byte_ext {a b : UInt8} (h : ∀ j < 8, a.toNat.testBit j = b.toNat.testBit j) : a = b := by
  apply UInt8.toNat_inj.1
  apply Nat.eq_of_testBit_eq
  intro j
  by_cases hj : j < 8
  · exact h j hj
  · have hpow : 2 ^ 8 ≤ 2 ^ j := Nat.pow_le_pow_right (by decide) (by omega)
    rw [Nat.testBit_lt_two_pow (lt_of_lt_of_le a.toNat_lt hpow),
      Nat.testBit_lt_two_pow (lt_of_lt_of_le b.toNat_lt hpow)]

/-- The bits determine a byte string of known length. -/
theorem bytes_ext_of_bitAt {a b : Bytes} (hlen : a.length = b.length)
    (h : ∀ i < 8 * a.length, bitAt a i = bitAt b i) : a = b := by
  apply List.ext_getElem hlen
  intro i ha hb
  apply byte_ext
  intro j hj
  have hbit := h (8 * i + j) (by omega)
  have hdiv : (8 * i + j) / 8 = i := by omega
  have hmod : (8 * i + j) % 8 = j := by omega
  rw [bitAt_eq_testBit, bitAt_eq_testBit, hdiv, hmod] at hbit
  simpa [List.getElem?_eq_getElem, ha, hb] using hbit

/-! ## Big-endian numbers -/

/-- The number a byte string writes, high byte first. -/
def beNat (data : Bytes) : Nat :=
  data.foldl (fun acc byte => acc * 256 + byte.toNat) 0

/-- The low `width` bytes of a number, high byte first. -/
def beBytes : Nat → Nat → Bytes
  | 0, _ => []
  | width + 1, value => beBytes width (value / 256) ++ [UInt8.ofNat value]

/-- The low `width` bytes of a number as an array. -/
def ByteArr.ofNat (width value : Nat) : ByteArr width :=
  ⟨beBytes width value, by
    induction width generalizing value with
    | zero => rfl
    | succ width ih => simp [beBytes, ih]⟩

/-- The number an array writes. -/
def ByteArr.toNat {n : Nat} (data : ByteArr n) : Nat := beNat data.toList

theorem beBytes_length (width value : Nat) : (beBytes width value).length = width :=
  (ByteArr.ofNat width value).2

theorem foldl_beNat (data : Bytes) (acc : Nat) :
    data.foldl (fun acc byte => acc * 256 + byte.toNat) acc =
      acc * 256 ^ data.length + beNat data := by
  induction data generalizing acc with
  | nil => simp [beNat]
  | cons byte rest ih =>
      rw [beNat, List.foldl_cons, List.foldl_cons, ih, ih (0 * 256 + byte.toNat),
        List.length_cons, pow_succ]
      ring

theorem beNat_append (a b : Bytes) : beNat (a ++ b) = beNat a * 256 ^ b.length + beNat b := by
  rw [beNat, List.foldl_append, foldl_beNat b]
  rfl

theorem beNat_cons (byte : UInt8) (data : Bytes) :
    beNat (byte :: data) = byte.toNat * 256 ^ data.length + beNat data := by
  rw [beNat, List.foldl_cons, foldl_beNat]
  ring

theorem beNat_lt (data : Bytes) : beNat data < 256 ^ data.length := by
  induction data with
  | nil => decide
  | cons byte rest ih =>
      rw [beNat_cons, List.length_cons, pow_succ]
      have hbyte : byte.toNat + 1 ≤ 256 := byte.toNat_lt
      calc byte.toNat * 256 ^ rest.length + beNat rest
          < (byte.toNat + 1) * 256 ^ rest.length := by rw [add_mul, one_mul]; omega
        _ ≤ 256 * 256 ^ rest.length := Nat.mul_le_mul_right _ hbyte
        _ = 256 ^ rest.length * 256 := Nat.mul_comm _ _

theorem beNat_beBytes (width value : Nat) :
    beNat (beBytes width value) = value % 256 ^ width := by
  induction width generalizing value with
  | zero => simp [beBytes, beNat, Nat.mod_one]
  | succ width ih =>
      have hbyte : (UInt8.ofNat value).toNat = value % 256 := UInt8.toNat_ofNat'
      rw [beBytes, beNat_append, ih, beNat_cons, hbyte, pow_succ, Nat.mul_comm (256 ^ width),
        Nat.mod_mul]
      simp [beNat]
      ring

theorem beNat_beBytes_of_lt {width value : Nat} (h : value < 256 ^ width) :
    beNat (beBytes width value) = value := by
  rw [beNat_beBytes, Nat.mod_eq_of_lt h]

/-- A byte string is the big-endian writing of its number. -/
theorem beBytes_beNat (data : Bytes) : beBytes data.length (beNat data) = data := by
  induction data using List.reverseRecOn with
  | nil => rfl
  | append_singleton rest byte ih =>
      have hnat : beNat (rest ++ [byte]) = beNat rest * 256 + byte.toNat := by
        rw [beNat_append, beNat_cons]
        simp [beNat]
      have hlt := byte.toNat_lt
      have hdiv : (beNat rest * 256 + byte.toNat) / 256 = beNat rest := by omega
      have hbyte : UInt8.ofNat (beNat rest * 256 + byte.toNat) = byte := by
        apply UInt8.toNat_inj.1
        rw [UInt8.toNat_ofNat']
        omega
      rw [List.length_append, List.length_singleton, beBytes, hnat, hdiv, ih, hbyte]

/-- Numbers determine byte strings of one length. -/
theorem beNat_inj {a b : Bytes} (hlen : a.length = b.length) (h : beNat a = beNat b) : a = b := by
  rw [← beBytes_beNat a, ← beBytes_beNat b, hlen, h]

theorem ByteArr.toNat_inj {n : Nat} {a b : ByteArr n} : a.toNat = b.toNat ↔ a = b :=
  ⟨fun h => ByteArr.toList_inj.1 (beNat_inj (by simp) h), fun h => h ▸ rfl⟩

theorem ByteArr.toNat_lt {n : Nat} (a : ByteArr n) : a.toNat < 256 ^ n := by
  have h := beNat_lt a.toList
  rwa [a.toList_length] at h

theorem ByteArr.toNat_ofNat {width value : Nat} (h : value < 256 ^ width) :
    (ByteArr.ofNat width value).toNat = value :=
  beNat_beBytes_of_lt h

theorem ByteArr.ofNat_toNat {n : Nat} (a : ByteArr n) : ByteArr.ofNat n a.toNat = a :=
  ByteArr.toNat_inj.1 (ByteArr.toNat_ofNat a.toNat_lt)

theorem beNat_zeros (n : Nat) : beNat (List.replicate n 0) = 0 := by
  induction n with
  | zero => rfl
  | succ n ih => rw [List.replicate_succ, beNat_cons, ih]; simp

/-- Leading zero bytes do not change the number. -/
theorem beNat_zeros_append (n : Nat) (data : Bytes) :
    beNat (List.replicate n 0 ++ data) = beNat data := by
  rw [beNat_append, beNat_zeros, Nat.zero_mul, Nat.zero_add]

/-- A narrow number behind zero bytes is a wide one. -/
theorem zeros_append_beBytes {width value : Nat} (n : Nat) (h : value < 256 ^ width) :
    List.replicate n 0 ++ beBytes width value = beBytes (n + width) value := by
  have hwide : value < 256 ^ (n + width) :=
    lt_of_lt_of_le h (Nat.pow_le_pow_right (by decide) (Nat.le_add_left width n))
  apply beNat_inj
  · rw [List.length_append, List.length_replicate, beBytes_length, beBytes_length]
  · rw [beNat_zeros_append, beNat_beBytes_of_lt h, beNat_beBytes_of_lt hwide]

/-- Byte strings of one length compare as their numbers do. -/
theorem lt_iff_beNat_lt {a b : Bytes} (hlen : a.length = b.length) :
    a < b ↔ beNat a < beNat b := by
  induction a generalizing b with
  | nil =>
      obtain rfl : b = [] := (List.length_eq_zero_iff.1 hlen.symm)
      simp
  | cons x xs ih =>
      cases b with
      | nil => simp at hlen
      | cons y ys =>
          have hlen' : xs.length = ys.length := by simpa using hlen
          have hx := beNat_lt xs
          have hy := beNat_lt ys
          rw [List.cons_lt_cons_iff, ih hlen', beNat_cons, beNat_cons, hlen']
          rw [hlen'] at hx
          constructor
          · rintro (hlt | ⟨rfl, hlt⟩)
            · have hle : x.toNat + 1 ≤ y.toNat := UInt8.lt_iff_toNat_lt.1 hlt
              calc x.toNat * 256 ^ ys.length + beNat xs
                  < (x.toNat + 1) * 256 ^ ys.length := by rw [add_mul, one_mul]; omega
                _ ≤ y.toNat * 256 ^ ys.length := Nat.mul_le_mul_right _ hle
                _ ≤ y.toNat * 256 ^ ys.length + beNat ys := Nat.le_add_right _ _
            · omega
          · intro hlt
            rcases lt_trichotomy x.toNat y.toNat with h | h | h
            · exact Or.inl (UInt8.lt_iff_toNat_lt.2 h)
            · rw [h] at hlt
              exact Or.inr ⟨UInt8.toNat_inj.1 h, by omega⟩
            · exfalso
              have hle : (y.toNat + 1) * 256 ^ ys.length ≤ x.toNat * 256 ^ ys.length :=
                Nat.mul_le_mul_right _ h
              rw [add_mul, one_mul] at hle
              omega

/-- Blocks of one length, written one after the other, can be read back. -/
theorem flatMap_inj_of_length {α : Type} {f : α → Bytes} {size : Nat} (hsize : 0 < size)
    (hlen : ∀ a, (f a).length = size) (hinj : ∀ a b, f a = f b → a = b) :
    ∀ {xs ys : List α}, xs.flatMap f = ys.flatMap f → xs = ys
  | [], [], _ => rfl
  | [], y :: ys, h => by
      have := congrArg List.length h
      rw [List.flatMap_nil, List.flatMap_cons, List.length_append, hlen, List.length_nil] at this
      omega
  | x :: xs, [], h => by
      have := congrArg List.length h
      rw [List.flatMap_nil, List.flatMap_cons, List.length_append, hlen, List.length_nil] at this
      omega
  | x :: xs, y :: ys, h => by
      rw [List.flatMap_cons, List.flatMap_cons] at h
      obtain ⟨hhead, htail⟩ := List.append_inj h ((hlen x).trans (hlen y).symm)
      rw [hinj x y hhead, flatMap_inj_of_length hsize hlen hinj htail]

end UnicityBridge.Lib
