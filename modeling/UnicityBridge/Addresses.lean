import UnicityBridge.LockVerifier
import UnicityBridge.Lib.Radix

/-!
# Addresses as text

`packages/bridge-plugin/src/address.ts`: an address of the source chain is written in base 58 with a
checksum, as Tron's wallets do, or in hexadecimal with or without Tron's leading byte.
`toEvmAddressHex` brings all of them to one form.

`toEvmAddressHex_eq_ok` says which texts those are: the three spellings of an address, and no other.
-/

set_option autoImplicit false

namespace UnicityBridge.BridgePlugin

open UnicityBridge.Lib
open UnicityBridge.Core (Address)

/-! ## Base 58 -/

/-- The Base58 digits in the order of their values; `0`, `O`, `I` and `l` are left out. -/
def BASE58_ALPHABET : String := "123456789ABCDEFGHJKLMNPQRSTUVWXYZabcdefghijkmnopqrstuvwxyz"

/-- `BASE58_MAP` -/
def base58Value (ch : Char) : Option Nat := BASE58_ALPHABET.toList.idxOf? ch

/-- Base58 to bytes. Leading `1`s become leading zero bytes. -/
def base58Decode (input : String) : Result Bytes := do
  let digits ← input.toList.mapM fun ch => okOr (base58Value ch) s!"Invalid base58 character: {ch}"
  .ok ((Radix.convert 58 256 digits).map UInt8.ofNat)

/-- The digit of a value. -/
def base58Char (digit : Nat) : Char := BASE58_ALPHABET.toList.getD digit '1'

/-- How a wallet writes bytes in base 58. -/
def base58Encode (bytes : Bytes) : String :=
  String.ofList ((Radix.convert 256 58 (bytes.map UInt8.toNat)).map base58Char)

theorem base58Value_eq_some {ch : Char} {digit : Nat} :
    base58Value ch = some digit ↔ digit < 58 ∧ base58Char digit = ch := by
  have hlength : BASE58_ALPHABET.toList.length = 58 := by decide
  have hnodup : BASE58_ALPHABET.toList.Nodup := by decide
  rw [base58Value, List.idxOf?_eq_some_iff]
  constructor
  · rintro ⟨hlt, hget, -⟩
    refine ⟨hlength ▸ hlt, ?_⟩
    rw [base58Char, List.getD_eq_getElem?_getD, List.getElem?_eq_getElem hlt]
    exact hget
  · rintro ⟨hlt, hchar⟩
    have hbound : digit < BASE58_ALPHABET.toList.length := by omega
    have hget : BASE58_ALPHABET.toList[digit] = ch := by
      rw [← hchar, base58Char, List.getD_eq_getElem?_getD, List.getElem?_eq_getElem hbound]
      rfl
    refine ⟨hbound, hget, fun j hj hsame => ?_⟩
    rw [← hget] at hsame
    have := (hnodup.getElem_inj_iff).1 hsame
    omega

/-- The texts that decode are those of digits. -/
theorem mapM_base58Value {text : List Char} {digits : List Nat} :
    text.mapM (fun ch => okOr (base58Value ch) s!"Invalid base58 character: {ch}") =
        (Except.ok digits : Result (List Nat)) ↔
      (∀ digit ∈ digits, digit < 58) ∧ digits.map base58Char = text := by
  rw [mapM_eq_ok]
  simp only [okOr_eq_ok, base58Value_eq_some]
  induction text generalizing digits with
  | nil =>
      rw [List.forall₂_nil_left_iff, List.map_eq_nil_iff]
      constructor
      · rintro rfl
        exact ⟨fun _ h => (by cases h), rfl⟩
      · rintro ⟨-, hnil⟩
        exact hnil
  | cons ch rest ih =>
      rw [List.forall₂_cons_left_iff]
      constructor
      · rintro ⟨digit, tail, ⟨hlt, hchar⟩, hrest, rfl⟩
        obtain ⟨hall, hmap⟩ := ih.1 hrest
        exact ⟨List.forall_mem_cons.2 ⟨hlt, hall⟩, congrArg₂ List.cons hchar hmap⟩
      · rintro ⟨hall, hmap⟩
        obtain ⟨digit, tail, rfl, hchar, hrest⟩ := List.map_eq_cons_iff.1 hmap
        rw [List.forall_mem_cons] at hall
        exact ⟨digit, tail, ⟨hall.1, hchar⟩, ih.2 ⟨hall.2, hrest⟩, rfl⟩

theorem toNat_ofNat_bytes {digits : List Nat} (h : ∀ digit ∈ digits, digit < 256) :
    (digits.map UInt8.ofNat).map UInt8.toNat = digits := by
  rw [List.map_map]
  refine (List.map_congr_left fun digit hdigit => ?_).trans (List.map_id _)
  exact UInt8.toNat_ofNat_of_lt' (h digit hdigit)

theorem ofNat_toNat_bytes (bytes : Bytes) : (bytes.map UInt8.toNat).map UInt8.ofNat = bytes := by
  rw [List.map_map]
  exact (List.map_congr_left fun b _ => UInt8.ofNat_toNat).trans (List.map_id _)

/-- **Base 58 both ways**, on what begins with a byte that is not zero. -/
theorem base58Decode_eq_ok {text : String} {first : UInt8} {rest : Bytes} (hfirst : first ≠ 0) :
    base58Decode text = .ok (first :: rest) ↔ text = base58Encode (first :: rest) := by
  have hpositive : Radix.numberOf 256 ((first :: rest).map UInt8.toNat) ≠ 0 := by
    rw [List.map_cons, Radix.numberOf_cons]
    have hlead : 0 < first.toNat := Nat.pos_of_ne_zero fun h => hfirst (UInt8.toNat_inj.1 h)
    have := Nat.mul_pos (Nat.pow_pos (n := (rest.map UInt8.toNat).length) (by decide : 0 < 256)) hlead
    omega
  have hbytes : ∀ digit ∈ (first :: rest).map UInt8.toNat, digit < 256 := by
    intro digit hdigit
    obtain ⟨b, -, rfl⟩ := List.mem_map.1 hdigit
    exact b.toNat_lt
  simp only [base58Decode, bind_eq_ok, mapM_base58Value, Except.ok.injEq]
  constructor
  · rintro ⟨digits, ⟨hdigits, hmap⟩, hconvert⟩
    have hlt := Radix.convert_lt (by decide : 1 < 256) (by decide : 0 < 58) digits
    have hback : (first :: rest).map UInt8.toNat = Radix.convert 58 256 digits := by
      rw [← hconvert, toNat_ofNat_bytes hlt]
    have hne : Radix.numberOf 58 digits ≠ 0 := by
      rwa [hback, Radix.numberOf_convert (by decide) (by decide)] at hpositive
    rw [base58Encode, hback, Radix.convert_convert (by decide) (by decide) hdigits hne, hmap,
      String.ofList_toList]
  · rintro rfl
    refine ⟨Radix.convert 256 58 ((first :: rest).map UInt8.toNat), ⟨?_, ?_⟩, ?_⟩
    · exact Radix.convert_lt (by decide) (by decide) _
    · rw [base58Encode, String.toList_ofList]
    · rw [Radix.convert_convert (by decide) (by decide) hbytes hpositive, ofNat_toNat_bytes]

/-! ## Addresses -/

section Forms

variable (sha256 : Bytes → Bytes32)

/-- The byte that Tron puts before an address. -/
def TRON_ADDRESS_PREFIX : UInt8 := 0x41

/-- The first bytes of the double hash. -/
def checksumOf (payload : Bytes) : Bytes := (sha256 (sha256 payload).toList).toList.take 4

/-- The 20-byte address in hex, from Tron's Base58 or from either hex form of it. -/
def toEvmAddressHex (address : String) : Result String :=
  match address.toList with
  | 'T' :: _ => do
      let decoded ← base58Decode address
      ensure (decoded.length = 25) s!"Invalid Tron base58 address length: {address}"
      let payload := decoded.take 21
      let checksum := decoded.drop 21
      ensure (checksum = checksumOf sha256 payload) s!"Bad checksum for Tron address: {address}"
      ensure (payload.head? = some TRON_ADDRESS_PREFIX) s!"Unexpected Tron address prefix: {address}"
      .ok (hexEncode (payload.drop 1))
  | _ => do
      let bytes ← fromHex address
      if bytes.length = 21 ∧ bytes.head? = some TRON_ADDRESS_PREFIX then .ok (hexEncode (bytes.drop 1))
      else if bytes.length = 20 then .ok (hexEncode bytes)
      else .error s!"Unrecognized address form: {address}"

/-- An address as Tron's wallets show it. -/
def base58Check (address : Address) : String :=
  let payload := TRON_ADDRESS_PREFIX :: address.toList
  base58Encode (payload ++ checksumOf sha256 payload)

/-- The spellings of an address. -/
inductive Spells (address : Address) : String → Prop where
  | base58 : Spells address (base58Check sha256 address)
  | tronHex {text : String} (h : fromHex text = .ok (TRON_ADDRESS_PREFIX :: address.toList)) :
      Spells address text
  | hex {text : String} (h : fromHex text = .ok address.toList) : Spells address text

variable {sha256}

theorem checksumOf_length (payload : Bytes) : (checksumOf sha256 payload).length = 4 := by
  rw [checksumOf, List.length_take, List.Vector.toList_length]
  rfl

/-- 24 bytes behind Tron's byte write a number with the first digit 26, which is the letter T. -/
theorem base58Encode_head {rest : Bytes} (hlength : rest.length = 24) :
    ∃ tail, (base58Encode (TRON_ADDRESS_PREFIX :: rest)).toList = 'T' :: tail := by
  have hbytes : ∀ digit ∈ rest.map UInt8.toNat, digit < 256 := by
    intro digit hdigit
    obtain ⟨b, -, rfl⟩ := List.mem_map.1 hdigit
    exact b.toNat_lt
  have hlow := Radix.numberOf_lt (by decide : 1 < 256) hbytes
  have hnumber := Radix.numberOf_cons 256 TRON_ADDRESS_PREFIX.toNat (rest.map UInt8.toNat)
  rw [List.length_map, hlength] at hlow hnumber
  have hlead : TRON_ADDRESS_PREFIX.toNat = 65 := by decide
  have hleading : Radix.leadingZeros (TRON_ADDRESS_PREFIX.toNat :: rest.map UInt8.toNat) = 0 := by
    rw [hlead]
    rfl
  -- the bounds of such a number, in powers of 58
  have hfits : 58 ^ 33 * 26 ≤ 256 ^ 24 * 65 ∧ 256 ^ 24 * 66 ≤ 58 ^ 33 * 27 := by decide
  obtain ⟨tail, htail⟩ := @Radix.digitsFrom_head 58 (by decide) 33 26
    (Radix.numberOf 256 (rest.map UInt8.toNat) + 256 ^ 24 * 65 - 58 ^ 33 * 26) (by decide) (by decide)
    (by omega)
  refine ⟨tail.map base58Char, ?_⟩
  have hsame : Radix.numberOf 256 (TRON_ADDRESS_PREFIX.toNat :: rest.map UInt8.toNat) =
      Radix.numberOf 256 (rest.map UInt8.toNat) + 256 ^ 24 * 65 - 58 ^ 33 * 26 + 58 ^ 33 * 26 := by
    rw [hnumber, hlead]
    omega
  have hne : Radix.numberOf 256 (TRON_ADDRESS_PREFIX.toNat :: rest.map UInt8.toNat) ≠ 0 := by
    rw [hnumber, hlead]
    omega
  rw [base58Encode, String.toList_ofList, List.map_cons,
    Radix.convert_eq (by decide) (by decide) hne, hleading, hsame, htail]
  rfl

/-- Hexadecimal digits do not begin with that letter. -/
theorem fromHex_head {text : String} {bytes : Bytes} (h : fromHex text = .ok bytes)
    (tail : List Char) : text.toList ≠ 'T' :: tail := by
  intro htext
  have hstrip : strip0x text = text := by
    unfold strip0x
    split
    · next hzero => simp [htext] at hzero
    · next hzero => simp [htext] at hzero
    · rfl
  simp only [fromHex, hstrip, bind_eq_ok, ensure_eq_ok, okOr_eq_ok] at h
  obtain ⟨-, -, hdecode⟩ := h
  have hdigit := (hexDecodeChars_some hdecode).1 'T' (htext ▸ List.mem_cons_self)
  revert hdigit
  decide

/-- An address in Base58 begins with `T`, since the prefix byte leads its 25 bytes. -/
theorem base58Check_head (address : Address) :
    ∃ tail, (base58Check sha256 address).toList = 'T' :: tail := by
  have hlength : (address.toList ++ checksumOf sha256 (TRON_ADDRESS_PREFIX :: address.toList)).length =
      24 := by
    rw [List.length_append, address.toList_length, checksumOf_length]
  exact base58Encode_head hlength

/-- **A text that begins with `T`** is read as Base58 with a checksum, and in no other way. -/
theorem toEvmAddressHex_base58 {text hex : String} {tail : List Char}
    (hhead : text.toList = 'T' :: tail) :
    toEvmAddressHex sha256 text = .ok hex ↔
      ∃ address : Address, text = base58Check sha256 address ∧ hex = hexEncode address.toList := by
  simp only [toEvmAddressHex, hhead, bind_eq_ok, ensure_eq_ok, Except.ok.injEq]
  constructor
  · rintro ⟨decoded, hdecode, -, hlength, -, hchecksum, -, hfirst, rfl⟩
    obtain ⟨first, rest, rfl⟩ := List.exists_cons_of_length_eq_add_one hlength
    obtain rfl : first = TRON_ADDRESS_PREFIX := Option.some.inj hfirst
    have hrest : rest.length = 24 := by simpa using hlength
    have haddress : (rest.take 20).length = 20 := by
      rw [List.length_take, hrest]
      rfl
    refine ⟨⟨rest.take 20, haddress⟩, ?_, rfl⟩
    -- the decoded bytes are the payload and its checksum, which the text encodes
    have htext := (base58Decode_eq_ok (by decide)).1 hdecode
    have hsplit : TRON_ADDRESS_PREFIX :: rest = (TRON_ADDRESS_PREFIX :: rest.take 20) ++
        checksumOf sha256 (TRON_ADDRESS_PREFIX :: rest.take 20) := by
      have hchecksum : rest.drop 20 = checksumOf sha256 (TRON_ADDRESS_PREFIX :: rest.take 20) :=
        hchecksum
      rw [← hchecksum, List.cons_append, List.take_append_drop]
    rw [hsplit] at htext
    exact htext
  · rintro ⟨address, rfl, rfl⟩
    have hlength : (TRON_ADDRESS_PREFIX :: address.toList).length = 21 := by
      rw [List.length_cons, address.toList_length]
    generalize hpayload : TRON_ADDRESS_PREFIX :: address.toList = payload at hlength
    have hdecode : base58Decode (base58Check sha256 address) =
        .ok (payload ++ checksumOf sha256 payload) := by
      rw [← hpayload]
      exact (base58Decode_eq_ok (by decide)).2 rfl
    have htake : (payload ++ checksumOf sha256 payload).take 21 = payload :=
      List.take_left' hlength
    have hdrop : (payload ++ checksumOf sha256 payload).drop 21 = checksumOf sha256 payload :=
      List.drop_left' hlength
    refine ⟨_, hdecode, (), ?_, (), ?_, (), ?_, ?_⟩
    · rw [List.length_append, hlength, checksumOf_length]
    · rw [htake, hdrop]
    · rw [htake, ← hpayload]
      rfl
    · rw [htake, ← hpayload]
      rfl

/-- **Any other text** is read as hexadecimal, with the prefix byte or without. -/
theorem toEvmAddressHex_hex {text hex : String} (hhead : ∀ tail, text.toList ≠ 'T' :: tail) :
    toEvmAddressHex sha256 text = .ok hex ↔
      ∃ address : Address, (fromHex text = .ok (TRON_ADDRESS_PREFIX :: address.toList) ∨
        fromHex text = .ok address.toList) ∧ hex = hexEncode address.toList := by
  unfold toEvmAddressHex
  split
  · next tail heq => exact absurd heq (hhead tail)
  · simp only [bind_eq_ok]
    constructor
    · rintro ⟨bytes, hbytes, h⟩
      split at h
      · next hform =>
        obtain ⟨hlength, hfirst⟩ := hform
        cases h
        obtain ⟨first, rest, rfl⟩ := List.exists_cons_of_length_eq_add_one hlength
        obtain rfl : first = TRON_ADDRESS_PREFIX := Option.some.inj hfirst
        exact ⟨⟨rest, by simpa using hlength⟩, .inl hbytes, rfl⟩
      · split at h
        · next hlength =>
          cases h
          exact ⟨⟨bytes, hlength⟩, .inr hbytes, rfl⟩
        · cases h
    · rintro ⟨address, hform | hform, rfl⟩
      all_goals
        have hlength := address.toList_length
        refine ⟨_, hform, ?_⟩
      · rw [if_pos ⟨by rw [List.length_cons, hlength], rfl⟩]
        rfl
      · rw [if_neg (fun hlong => by omega), if_pos hlength]

/-- **The texts of an address**, and no others, are brought to its hexadecimal form. -/
theorem toEvmAddressHex_eq_ok {text hex : String} :
    toEvmAddressHex sha256 text = .ok hex ↔
      ∃ address : Address, Spells sha256 address text ∧ hex = hexEncode address.toList := by
  by_cases hhead : ∃ tail, text.toList = 'T' :: tail
  · obtain ⟨tail, hhead⟩ := hhead
    rw [toEvmAddressHex_base58 hhead]
    constructor
    · rintro ⟨address, rfl, rfl⟩
      exact ⟨address, .base58, rfl⟩
    · rintro ⟨address, hspells, rfl⟩
      cases hspells with
      | base58 => exact ⟨address, rfl, rfl⟩
      | tronHex h => exact absurd hhead (fromHex_head h tail)
      | hex h => exact absurd hhead (fromHex_head h tail)
  · rw [toEvmAddressHex_hex (not_exists.1 hhead)]
    constructor
    · rintro ⟨address, h | h, rfl⟩
      · exact ⟨address, .tronHex h, rfl⟩
      · exact ⟨address, .hex h, rfl⟩
    · rintro ⟨address, hspells, rfl⟩
      cases hspells with
      | base58 => exact absurd (base58Check_head address) hhead
      | tronHex h => exact ⟨address, .inl h, rfl⟩
      | hex h => exact ⟨address, .inr h, rfl⟩

end Forms

end UnicityBridge.BridgePlugin
