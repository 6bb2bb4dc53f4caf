import UnicityBridge.Lib.Bytes

/-!
# Hexadecimal text

The lower-case encoding of a byte string, the decoder of both cases, and that the decoder inverts the
encoding.
-/

set_option autoImplicit false

namespace UnicityBridge.Lib

/-- The lower-case digits. -/
def hexDigits : List Char := "0123456789abcdef".toList

/-- The digit of a value below 16. -/
def hexDigit (n : Nat) : Char := hexDigits.getD n '0'

/-- Two lower-case digits for each byte. -/
def hexChars (bytes : Bytes) : List Char :=
  bytes.flatMap fun b => [hexDigit (b.toNat / 16), hexDigit (b.toNat % 16)]

/-- Bytes as lower-case hex. -/
def hexEncode (bytes : Bytes) : String := String.ofList (hexChars bytes)

/-- The value of a digit in either case. -/
def hexValue (c : Char) : Option Nat :=
  if '0' ≤ c ∧ c ≤ '9' then some (c.toNat - '0'.toNat)
  else if 'a' ≤ c ∧ c ≤ 'f' then some (c.toNat - 'a'.toNat + 10)
  else if 'A' ≤ c ∧ c ≤ 'F' then some (c.toNat - 'A'.toNat + 10)
  else none

/-- The bytes that pairs of digits write. -/
def hexDecodeChars : List Char → Option Bytes
  | [] => some []
  | [_] => none
  | high :: low :: rest => do
      let h ← hexValue high
      let l ← hexValue low
      let bytes ← hexDecodeChars rest
      some (UInt8.ofNat (16 * h + l) :: bytes)

/-- Hex of either case to bytes. -/
def hexDecode (text : String) : Option Bytes := hexDecodeChars text.toList

theorem hexValue_hexDigit {n : Nat} (h : n < 16) : hexValue (hexDigit n) = some n := by
  have hall : ∀ i : Fin 16, hexValue (hexDigit i) = some i.val := by decide
  exact hall ⟨n, h⟩

theorem hexDigit_mem (n : Nat) : hexDigit n ∈ hexDigits := by
  by_cases h : n < 16
  · have hall : ∀ i : Fin 16, hexDigit i ∈ hexDigits := by decide
    exact hall ⟨n, h⟩
  · have hlen : hexDigits.length ≤ n := not_lt.1 h
    rw [hexDigit, List.getD_eq_getElem?_getD, List.getElem?_eq_none hlen]
    decide

theorem mem_hexChars {bytes : Bytes} {c : Char} (h : c ∈ hexChars bytes) : c ∈ hexDigits := by
  obtain ⟨b, -, hc⟩ := List.mem_flatMap.1 h
  rcases List.mem_cons.1 hc with rfl | hc
  · exact hexDigit_mem _
  · obtain rfl := List.mem_singleton.1 hc
    exact hexDigit_mem _

theorem hexChars_length (bytes : Bytes) : (hexChars bytes).length = 2 * bytes.length := by
  induction bytes with
  | nil => rfl
  | cons b rest ih =>
      rw [hexChars, List.flatMap_cons, List.length_append, ← hexChars, ih, List.length_cons,
        List.length_cons, List.length_cons, List.length_nil]
      omega

/-- **Decoding inverts encoding.** -/
theorem hexDecodeChars_hexChars (bytes : Bytes) : hexDecodeChars (hexChars bytes) = some bytes := by
  induction bytes with
  | nil => rfl
  | cons b rest ih =>
      have hlt := b.toNat_lt
      have hhigh : hexValue (hexDigit (b.toNat / 16)) = some (b.toNat / 16) :=
        hexValue_hexDigit (by omega)
      have hlow : hexValue (hexDigit (b.toNat % 16)) = some (b.toNat % 16) :=
        hexValue_hexDigit (by omega)
      have hbyte : UInt8.ofNat (16 * (b.toNat / 16) + b.toNat % 16) = b := by
        rw [Nat.div_add_mod, UInt8.ofNat_toNat]
      rw [hexChars, List.flatMap_cons, ← hexChars]
      simp only [List.cons_append, List.nil_append, hexDecodeChars, hhigh, hlow, ih,
        Option.bind_eq_bind, Option.bind_some, hbyte]

theorem hexDecode_hexEncode (bytes : Bytes) : hexDecode (hexEncode bytes) = some bytes := by
  rw [hexDecode, hexEncode, String.toList_ofList, hexDecodeChars_hexChars]

theorem hexEncode_inj {bytes bytes' : Bytes} (h : hexEncode bytes = hexEncode bytes') :
    bytes = bytes' := by
  apply Option.some.inj
  rw [← hexDecode_hexEncode bytes, h, hexDecode_hexEncode]

/-! ## Digits of either case -/

/-- The digits that the decoder reads. -/
def hexAlphabet : List Char := "0123456789abcdefABCDEF".toList

/-- A check that ran over a list of characters holds of each of them. -/
theorem of_mem_of_all {p : Char → Prop} [DecidablePred p] {chars : List Char} {c : Char}
    (h : (chars.all fun d => p d) = true) (hc : c ∈ chars) : p c := by
  simpa using List.all_eq_true.1 h c hc

/-- The encoding is lower case. -/
theorem hexChars_toLower (bytes : Bytes) : (hexChars bytes).map Char.toLower = hexChars bytes := by
  conv_rhs => rw [← List.map_id (hexChars bytes)]
  apply List.map_congr_left
  intro c hc
  exact @of_mem_of_all (fun d => Char.toLower d = d) _ _ _ (by decide) (mem_hexChars hc)

theorem mem_of_between {lo hi c : Char} (h : lo ≤ c ∧ c ≤ hi) :
    c ∈ (List.range' lo.toNat (hi.toNat + 1 - lo.toNat)).map Char.ofNat := by
  have hlo : lo.toNat ≤ c.toNat := h.1
  have hhi : c.toNat ≤ hi.toNat := h.2
  refine List.mem_map.2 ⟨c.toNat, ?_, Char.ofNat_toNat c⟩
  rw [List.mem_range'_1]
  omega

theorem mem_hexAlphabet {c : Char} (h : (hexValue c).isSome) : c ∈ hexAlphabet := by
  unfold hexValue at h
  split at h
  · exact of_mem_of_all (by decide : ((List.range' 48 10).map Char.ofNat).all
      (fun d => d ∈ hexAlphabet) = true) (mem_of_between ‹_›)
  split at h
  · exact of_mem_of_all (by decide : ((List.range' 97 6).map Char.ofNat).all
      (fun d => d ∈ hexAlphabet) = true) (mem_of_between ‹_›)
  split at h
  · exact of_mem_of_all (by decide : ((List.range' 65 6).map Char.ofNat).all
      (fun d => d ∈ hexAlphabet) = true) (mem_of_between ‹_›)
  · cases h

theorem hexValue_toLower {c : Char} (h : c ∈ hexAlphabet) : hexValue c.toLower = hexValue c :=
  of_mem_of_all (by decide : (hexAlphabet.all fun d => hexValue d.toLower = hexValue d) = true) h

/-- What decodes is digits only, two for each byte. -/
theorem hexDecodeChars_some {text : List Char} {bytes : Bytes}
    (h : hexDecodeChars text = some bytes) :
    (∀ c ∈ text, c ∈ hexAlphabet) ∧ text.length = 2 * bytes.length := by
  induction text using hexDecodeChars.induct generalizing bytes with
  | case1 =>
      cases h
      exact ⟨fun c hc => absurd hc List.not_mem_nil, rfl⟩
  | case2 c => cases h
  | case3 high low rest ih =>
      simp only [hexDecodeChars, Option.bind_eq_bind, Option.bind_eq_some_iff,
        Option.some.injEq] at h
      obtain ⟨vh, hhigh, vl, hlow, more, hrest, rfl⟩ := h
      obtain ⟨hmem, hlength⟩ := ih hrest
      constructor
      · rw [List.forall_mem_cons, List.forall_mem_cons]
        exact ⟨mem_hexAlphabet (by rw [hhigh]; rfl), mem_hexAlphabet (by rw [hlow]; rfl), hmem⟩
      · rw [List.length_cons, List.length_cons, List.length_cons, hlength]
        ring

/-- The case of the digits does not matter. -/
theorem hexDecodeChars_toLower {text : List Char} (h : ∀ c ∈ text, c ∈ hexAlphabet) :
    hexDecodeChars (text.map Char.toLower) = hexDecodeChars text := by
  induction text using hexDecodeChars.induct with
  | case1 => rfl
  | case2 c => rfl
  | case3 high low rest ih =>
      rw [List.forall_mem_cons, List.forall_mem_cons] at h
      simp only [List.map_cons, hexDecodeChars, hexValue_toLower h.1, hexValue_toLower h.2.1,
        ih h.2.2]

/-- A digit of either case, in lower case. -/
theorem toLower_eq_hexDigit {c : Char} {value : Nat} (h : hexValue c = some value) :
    value < 16 ∧ c.toLower = hexDigit value := by
  have hall : (hexAlphabet.all fun d =>
      (hexValue d).all fun v => decide (v < 16 ∧ d.toLower = hexDigit v)) = true := by decide
  have hc := List.all_eq_true.1 hall c (mem_hexAlphabet (by rw [h]; rfl))
  rw [h] at hc
  exact of_decide_eq_true hc

/-- What decodes is the encoding, but for the case of its digits. -/
theorem map_toLower_of_hexDecodeChars {text : List Char} {bytes : Bytes}
    (h : hexDecodeChars text = some bytes) : text.map Char.toLower = hexChars bytes := by
  induction text using hexDecodeChars.induct generalizing bytes with
  | case1 =>
      cases h
      rfl
  | case2 c => cases h
  | case3 high low rest ih =>
      simp only [hexDecodeChars, Option.bind_eq_bind, Option.bind_eq_some_iff,
        Option.some.injEq] at h
      obtain ⟨vh, hhigh, vl, hlow, more, hrest, rfl⟩ := h
      obtain ⟨hvh, hhigh⟩ := toLower_eq_hexDigit hhigh
      obtain ⟨hvl, hlow⟩ := toLower_eq_hexDigit hlow
      have hbyte : (UInt8.ofNat (16 * vh + vl)).toNat = 16 * vh + vl :=
        UInt8.toNat_ofNat_of_lt' (by show _ < 256; omega)
      have hdiv : (16 * vh + vl) / 16 = vh := by omega
      have hmod : (16 * vh + vl) % 16 = vl := by omega
      have hcons (b : UInt8) : hexChars (b :: more) =
          hexDigit (b.toNat / 16) :: hexDigit (b.toNat % 16) :: hexChars more := rfl
      rw [List.map_cons, List.map_cons, ih hrest, hhigh, hlow, hcons, hbyte, hdiv, hmod]

end UnicityBridge.Lib
