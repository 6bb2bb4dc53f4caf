import UnicityBridge.Lib.Bytes
import UnicityBridge.Lib.Checked

/-!
# UTF-8 text

`String::from_utf8_lossy` and the slice of a text by bytes. The lossy decoder takes one character after
the other from the front; where no character begins, it takes the longest start of one and puts the
replacement character there. A slice by bytes panics unless it ends between two characters.

Bytes that encode a text are decoded to this text (`fromUtf8Lossy_encode`).
-/

set_option autoImplicit false

namespace UnicityBridge.Lib.Utf8

/-- What stands for a malformed sequence. -/
def REPLACEMENT : Char := Char.ofNat 0xfffd

/-! ## Lossy decoding -/

/-- The length of a character's encoding by its first byte; 0 where none begins. -/
def charWidth (lead : UInt8) : Nat :=
  let n := lead.toNat
  if n ≤ 0x7f then 1
  else if 0xc2 ≤ n ∧ n ≤ 0xdf then 2
  else if 0xe0 ≤ n ∧ n ≤ 0xef then 3
  else if 0xf0 ≤ n ∧ n ≤ 0xf4 then 4
  else 0

/-- The second bytes that may follow: no overlong forms, surrogates or values past the last. -/
def secondRange (lead : UInt8) : Nat × Nat :=
  let n := lead.toNat
  if n = 0xe0 then (0xa0, 0xbf)
  else if n = 0xed then (0x80, 0x9f)
  else if n = 0xf0 then (0x90, 0xbf)
  else if n = 0xf4 then (0x80, 0x8f)
  else (0x80, 0xbf)

/-- How many of the next bytes, `n` at most, continue a character. -/
def continuation : Nat → Nat × Nat → Bytes → Nat
  | 0, _, _ => 0
  | _ + 1, _, [] => 0
  | n + 1, range, b :: rest =>
      if range.1 ≤ b.toNat ∧ b.toNat ≤ range.2 then continuation n (0x80, 0xbf) rest + 1 else 0

/-- The number that a character's bytes encode. -/
def codepoint (width : Nat) (lead : UInt8) (tail : Bytes) : Nat :=
  tail.foldl (fun value b => value * 64 + b.toNat % 64)
    (if width = 1 then lead.toNat else lead.toNat % 2 ^ (7 - width))

/-- The character at the front, and how many bytes it takes after the first. -/
def nextChar (lead : UInt8) (rest : Bytes) : Char × Nat :=
  let width := charWidth lead
  let taken := continuation (width - 1) (secondRange lead) rest
  if taken + 1 = width then (Char.ofNat (codepoint width lead (rest.take taken)), taken)
  else (REPLACEMENT, taken)

/-- The characters, so many at most. -/
def lossy : Nat → Bytes → List Char
  | 0, _ => []
  | _ + 1, [] => []
  | fuel + 1, lead :: rest =>
      let next := nextChar lead rest
      next.1 :: lossy fuel (rest.drop next.2)

/-- Every character takes a byte. -/
def fromUtf8Lossy (bytes : Bytes) : String := String.ofList (lossy bytes.length bytes)

/-! ## Encoded texts are decoded -/

/-- The bytes of a text. -/
def encode (text : List Char) : Bytes := text.flatMap String.utf8EncodeChar

theorem continuation_all {n : Nat} {range : Nat × Nat} {tail : Bytes} (rest : Bytes)
    (hlength : tail.length = n)
    (hfirst : ∀ b ∈ tail.head?, range.1 ≤ b.toNat ∧ b.toNat ≤ range.2)
    (hmore : ∀ b ∈ tail.tail, 0x80 ≤ b.toNat ∧ b.toNat ≤ 0xbf) :
    continuation n range (tail ++ rest) = n := by
  induction n generalizing range tail with
  | zero => rfl
  | succ n ih =>
      obtain ⟨b, tail, rfl⟩ := List.exists_cons_of_length_eq_add_one hlength
      have hrest : continuation n (0x80, 0xbf) (tail ++ rest) = n :=
        ih (by simpa using hlength) (fun b hb => hmore b (List.mem_of_mem_head? hb))
          fun b hb => hmore b (List.mem_of_mem_tail hb)
      rw [List.cons_append, continuation, if_pos (hfirst b rfl), hrest]

/-- A complete character is taken whole. -/
theorem nextChar_eq {lead : UInt8} {tail : Bytes} (rest : Bytes)
    (hwidth : charWidth lead = tail.length + 1)
    (hfirst : ∀ b ∈ tail.head?, (secondRange lead).1 ≤ b.toNat ∧ b.toNat ≤ (secondRange lead).2)
    (hmore : ∀ b ∈ tail.tail, 0x80 ≤ b.toNat ∧ b.toNat ≤ 0xbf) :
    nextChar lead (tail ++ rest) =
      (Char.ofNat (codepoint (tail.length + 1) lead tail), tail.length) := by
  have htaken : continuation (tail.length + 1 - 1) (secondRange lead) (tail ++ rest) = tail.length :=
    continuation_all rest rfl hfirst hmore
  simp only [nextChar, hwidth, htaken, if_true, List.take_left]

theorem ofNat_toNat {n : Nat} (h : n < 256) : (UInt8.ofNat n).toNat = n :=
  UInt8.toNat_ofNat_of_lt' h

/-- The character of an encoding is the one encoded. -/
theorem nextChar_encode (c : Char) : ∃ lead tail, String.utf8EncodeChar c = lead :: tail ∧
    ∀ rest, nextChar lead (tail ++ rest) = (c, tail.length) := by
  have hc : c.val.toNat < 0xd800 ∨ 0xdfff < c.val.toNat ∧ c.val.toNat < 0x110000 := c.valid
  have hchar : Char.ofNat c.val.toNat = c := Char.ofNat_toNat c
  unfold String.utf8EncodeChar
  dsimp only
  generalize c.val.toNat = v at hc hchar
  -- one, two, three and four bytes
  split_ifs with h1 h2 h3
  · refine ⟨_, [], rfl, fun rest => ?_⟩
    rw [nextChar_eq rest]
    · simp [codepoint, ofNat_toNat (n := v) (by omega), hchar]
    · simp [charWidth, ofNat_toNat (n := v) (by omega), h1]
    · simp
    · simp
  · refine ⟨_, _, rfl, fun rest => ?_⟩
    have hlead := ofNat_toNat (n := v / 64 % 32 + 192) (by omega)
    have hlast := ofNat_toNat (n := v % 64 + 128) (by omega)
    rw [nextChar_eq rest]
    · rw [show codepoint _ _ _ = v by simp [codepoint]; omega, hchar]
    · simp only [charWidth, hlead, List.length_cons, List.length_nil]
      split_ifs <;> omega
    · simp only [secondRange, hlead, List.head?_cons, Option.mem_some_iff, forall_eq', hlast]
      split_ifs <;> constructor <;> dsimp only <;> omega
    · simp
  · refine ⟨_, _, rfl, fun rest => ?_⟩
    have hlead := ofNat_toNat (n := v / 4096 % 16 + 224) (by omega)
    have hsecond := ofNat_toNat (n := v / 64 % 64 + 128) (by omega)
    have hlast := ofNat_toNat (n := v % 64 + 128) (by omega)
    rw [nextChar_eq rest]
    · rw [show codepoint _ _ _ = v by simp [codepoint]; omega, hchar]
    · simp only [charWidth, hlead, List.length_cons, List.length_nil]
      split_ifs <;> omega
    · simp only [secondRange, hlead, List.head?_cons, Option.mem_some_iff, forall_eq', hsecond]
      split_ifs <;> constructor <;> dsimp only <;> omega
    · simp only [List.tail_cons, List.mem_singleton, forall_eq, hlast]
      omega
  · refine ⟨_, _, rfl, fun rest => ?_⟩
    have hlead := ofNat_toNat (n := v / 262144 % 8 + 240) (by omega)
    have hsecond := ofNat_toNat (n := v / 4096 % 64 + 128) (by omega)
    have hthird := ofNat_toNat (n := v / 64 % 64 + 128) (by omega)
    have hlast := ofNat_toNat (n := v % 64 + 128) (by omega)
    rw [nextChar_eq rest]
    · rw [show codepoint _ _ _ = v by simp [codepoint]; omega, hchar]
    · simp only [charWidth, hlead, List.length_cons, List.length_nil]
      split_ifs <;> omega
    · simp only [secondRange, hlead, List.head?_cons, Option.mem_some_iff, forall_eq', hsecond]
      split_ifs <;> constructor <;> dsimp only <;> omega
    · simp only [List.tail_cons, List.mem_cons, List.not_mem_nil, or_false, forall_eq_or_imp,
        forall_eq, hthird, hlast]
      omega

theorem lossy_encode (text : List Char) (fuel : Nat) (rest : Bytes) :
    lossy (text.length + fuel) (encode text ++ rest) = text ++ lossy fuel rest := by
  induction text with
  | nil => rw [List.length_nil, Nat.zero_add]; rfl
  | cons c text ih =>
      obtain ⟨lead, tail, hc, hnext⟩ := nextChar_encode c
      have hsplit : encode (c :: text) ++ rest = lead :: (tail ++ (encode text ++ rest)) := by
        simp [encode, hc]
      rw [hsplit, List.length_cons, Nat.add_right_comm]
      simp only [lossy, hnext, List.drop_left, ih, List.cons_append]

theorem lossy_nil (fuel : Nat) : lossy fuel [] = [] := by
  cases fuel with
  | zero | succ => rfl

theorem length_le_encode (text : List Char) : text.length ≤ (encode text).length := by
  induction text with
  | nil => exact Nat.le_refl 0
  | cons c text ih =>
      have hc := c.utf8Size_pos
      rw [encode, List.flatMap_cons, List.length_append, String.length_utf8EncodeChar,
        List.length_cons]
      rw [encode] at ih
      omega

/-- **Bytes that encode a text are decoded to it.** -/
theorem fromUtf8Lossy_encode (text : List Char) :
    fromUtf8Lossy (encode text) = String.ofList text := by
  have hsplit := lossy_encode text ((encode text).length - text.length) []
  rw [Nat.add_sub_cancel' (length_le_encode text), List.append_nil, lossy_nil, List.append_nil] at hsplit
  rw [fromUtf8Lossy, hsplit]

/-! ## Slices -/

/-- `len()` of a text -/
def byteLength (text : List Char) : Nat := (text.map Char.utf8Size).sum

theorem byteLength_cons (c : Char) (text : List Char) :
    byteLength (c :: text) = c.utf8Size + byteLength text := List.sum_cons

theorem byteLength_append (front back : List Char) :
    byteLength (front ++ back) = byteLength front + byteLength back := by
  rw [byteLength, List.map_append, List.sum_append]
  rfl

theorem byteLength_replicate (n : Nat) (c : Char) :
    byteLength (List.replicate n c) = n * c.utf8Size := by
  rw [byteLength, List.map_replicate, List.sum_replicate_nat]

/-- `is_char_boundary(n)`: a position between two characters -/
def IsBoundary (n : Nat) (text : List Char) : Prop :=
  ∃ front back, text = front ++ back ∧ byteLength front = n

/-- Positions behind a start of the text are those of the rest. -/
theorem isBoundary_append {front back : List Char} (n : Nat) :
    IsBoundary (byteLength front + n) (front ++ back) ↔ IsBoundary n back := by
  constructor
  · rintro ⟨front', back', htext, hlength⟩
    rcases List.append_eq_append_iff.1 htext with ⟨more, rfl, rfl⟩ | ⟨more, rfl, rfl⟩
    · rw [byteLength_append] at hlength
      exact ⟨more, back', rfl, by omega⟩
    · rw [byteLength_append] at hlength
      exact ⟨[], back, rfl, by show 0 = n; omega⟩
  · rintro ⟨more, back', rfl, rfl⟩
    exact ⟨front ++ more, back', (List.append_assoc _ _ _).symm, byteLength_append _ _⟩

/-- The characters of the first `n` bytes, if there are so many whole ones. -/
def charsTo : Nat → List Char → Option (List Char)
  | 0, _ => some []
  | _ + 1, [] => none
  | n + 1, c :: rest =>
      if c.utf8Size ≤ n + 1 then (charsTo (n + 1 - c.utf8Size) rest).map (c :: ·) else none

theorem charsTo_eq_some {n : Nat} {text front : List Char} :
    -- by induction on the text; a character takes at least one byte
    charsTo n text = some front ↔ ∃ back, text = front ++ back ∧ byteLength front = n := by
  induction text generalizing n front with
  | nil =>
      cases n with
      | zero =>
          rw [charsTo, Option.some.injEq]
          constructor
          · rintro rfl
            exact ⟨[], rfl, rfl⟩
          · rintro ⟨back, htext, -⟩
            exact (List.append_eq_nil_iff.1 htext.symm).1.symm
      | succ n =>
          simp only [charsTo, reduceCtorEq, false_iff]
          rintro ⟨back, htext, hlength⟩
          rw [(List.append_eq_nil_iff.1 htext.symm).1] at hlength
          cases hlength
  | cons c rest ih =>
      have hc := c.utf8Size_pos
      cases n with
      | zero =>
          rw [charsTo, Option.some.injEq]
          constructor
          · rintro rfl
            exact ⟨c :: rest, rfl, rfl⟩
          · rintro ⟨back, htext, hlength⟩
            cases front with
            | nil => rfl
            | cons d front =>
                obtain ⟨rfl, -⟩ := List.cons.inj htext
                rw [byteLength_cons] at hlength
                omega
      | succ n =>
          have hcons (tail back : List Char) :
              c :: rest = c :: tail ++ back ↔ rest = tail ++ back := by
            rw [List.cons_append, List.cons.injEq, and_iff_right rfl]
          rw [charsTo]
          constructor
          · intro h
            split at h
            · next hle =>
              obtain ⟨tail, htail, rfl⟩ := Option.map_eq_some_iff.1 h
              obtain ⟨back, hrest, hlength⟩ := ih.1 htail
              exact ⟨back, (hcons tail back).2 hrest, by rw [byteLength_cons, hlength]; omega⟩
            · cases h
          · rintro ⟨back, htext, hlength⟩
            cases front with
            | nil => cases hlength
            | cons d tail =>
                obtain ⟨rfl, hrest⟩ := List.cons.inj htext
                rw [byteLength_cons] at hlength
                rw [if_pos (by omega), Option.map_eq_some_iff]
                exact ⟨tail, ih.2 ⟨back, hrest, by omega⟩, rfl⟩

theorem charsTo_isSome {n : Nat} {text : List Char} :
    (charsTo n text).isSome ↔ IsBoundary n text := by
  rw [Option.isSome_iff_exists]
  simp only [charsTo_eq_some]
  exact Iff.rfl

instance (n : Nat) (text : List Char) : Decidable (IsBoundary n text) :=
  decidable_of_iff _ charsTo_isSome

/-- `&text[..n]` -/
def sliceTo {ε : Type} (text : String) (n : Nat) : Checked ε String :=
  match charsTo n text.toList with
  | some front => Checked.lift (.ok (String.ofList front))
  | none => Checked.panic

/-- **A slice by bytes returns** exactly where it ends between two characters. -/
theorem sliceTo_returns {ε : Type} (text : String) (n : Nat) :
    (sliceTo text n : Checked ε String).Returns ↔ IsBoundary n text.toList := by
  rw [← charsTo_isSome, sliceTo]
  cases charsTo n text.toList with
  | some front => simp [Checked.Returns]
  | none => simp [Checked.not_returns_panic]

end UnicityBridge.Lib.Utf8
