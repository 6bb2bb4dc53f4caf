import UnicityBridge.Lib.Bytes
import Mathlib.Data.BitVec

/-!
# Contract ABI

The words of the contract ABI and the layout of dynamic arguments: a head of offsets, then the tails,
each with its length in front. `tailAt` is the decoder of one dynamic argument with the bounds checks
that the Solidity compiler generates; the round trips say that it finds what `encodeDynamic` laid out
as long as the whole fits in 64 bits.
-/

set_option autoImplicit false

namespace UnicityBridge.Lib.Abi

/-! ## Words -/

/-- A number of 256 bits as a word. -/
def word256 (value : BitVec 256) : Bytes32 := ByteArr.ofNat 32 value.toNat

/-- The number a word stands for. -/
def uint256 (word : Bytes32) : BitVec 256 := BitVec.ofNat 256 word.toNat

theorem pow_word : (256 : Nat) ^ 32 = 2 ^ 256 := by decide

@[simp] theorem uint256_word256 (value : BitVec 256) : uint256 (word256 value) = value := by
  rw [uint256, word256, ByteArr.toNat_ofNat (pow_word ▸ value.isLt), BitVec.ofNat_toNat,
    BitVec.setWidth_eq]

@[simp] theorem uint256_toNat (word : Bytes32) : (uint256 word).toNat = word.toNat := by
  rw [uint256, BitVec.toNat_ofNat, Nat.mod_eq_of_lt (pow_word ▸ word.toNat_lt)]

@[simp] theorem word256_uint256 (word : Bytes32) : word256 (uint256 word) = word := by
  rw [word256, uint256_toNat, ByteArr.ofNat_toNat]

/-- An address is the low 20 bytes of a word whose other bytes are zero. -/
def wordAddress (address : Bytes20) : Bytes32 :=
  ⟨List.replicate 12 0 ++ address.toList, by simp⟩

/-- The address of a word; `none` unless the first twelve bytes are zero. -/
def readAddress (word : Bytes32) : Option Bytes20 :=
  if word.toList.take 12 = List.replicate 12 0 then some ⟨word.toList.drop 12, by simp⟩ else none

@[simp] theorem readAddress_wordAddress (address : Bytes20) :
    readAddress (wordAddress address) = some address := by
  have hlist : (wordAddress address).toList = List.replicate 12 0 ++ address.toList := rfl
  have htake : (wordAddress address).toList.take 12 = List.replicate 12 0 := by
    rw [hlist, List.take_left' (by simp)]
  rw [readAddress, if_pos htake]
  refine congrArg some (ByteArr.toList_inj.1 ?_)
  show (wordAddress address).toList.drop 12 = _
  rw [hlist, List.drop_left' (by simp)]

/-- A number of at most `bits` bits in a word. -/
def readUint (bits : Nat) (word : Bytes32) : Option Nat :=
  if word.toNat < 2 ^ bits then some word.toNat else none

theorem readUint_ofNat {bits value : Nat} (hbits : bits ≤ 256) (hvalue : value < 2 ^ bits) :
    readUint bits (ByteArr.ofNat 32 value) = some value := by
  have hword : (ByteArr.ofNat 32 value).toNat = value := by
    refine ByteArr.toNat_ofNat (lt_of_lt_of_le hvalue ?_)
    rw [pow_word]
    exact Nat.pow_le_pow_right (by decide) hbits
  rw [readUint, hword, if_pos hvalue]

/-! ## Reading -/

/-- The word at a position. Past the end of the data there are zero bytes. -/
def load (data : Bytes) (position : Nat) : Bytes32 :=
  ⟨(data.drop position ++ List.replicate 32 0).take 32, by simp⟩

theorem load_append (front rest : Bytes) (word : Bytes32) :
    load (front ++ (word.toList ++ rest)) front.length = word := by
  rw [← ByteArr.toList_inj]
  show ((front ++ (word.toList ++ rest)).drop front.length ++ _).take 32 = _
  rw [List.drop_left, List.append_assoc, List.take_left' (by simp)]

theorem flatten_length {α : Type} {stride : Nat} {encode : α → Bytes}
    (hlen : ∀ a, (encode a).length = stride) (elements : List α) :
    (elements.map encode).flatten.length = elements.length * stride := by
  induction elements with
  | nil => simp
  | cons a rest ih =>
      rw [List.map_cons, List.flatten_cons, List.length_append, hlen, ih, List.length_cons,
        Nat.succ_mul, Nat.add_comm]

/-- The `index`-th of some words. -/
theorem load_flatMap {words : List Bytes32} {rest : Bytes} {index : Nat} {word : Bytes32}
    (h : words[index]? = some word) :
    load (words.flatMap (fun w => w.toList) ++ rest) (32 * index) = word := by
  obtain ⟨hlt, rfl⟩ := List.getElem?_eq_some_iff.1 h
  have hfront : ((words.take index).flatMap fun w => w.toList).length = 32 * index := by
    rw [List.flatMap_def, flatten_length (fun w => List.Vector.toList_length w), List.length_take,
      min_eq_left hlt.le, Nat.mul_comm]
  have hsplit : words.flatMap (fun w => w.toList) ++ rest =
      (words.take index).flatMap (fun w => w.toList) ++
        (words[index].toList ++ ((words.drop (index + 1)).flatMap (fun w => w.toList) ++ rest)) := by
    rw [← List.append_assoc (words[index].toList), ← List.flatMap_cons, List.getElem_cons_drop,
      ← List.append_assoc, ← List.flatMap_append, List.take_append_drop]
  rw [hsplit, ← hfront]
  exact load_append _ _ _

/-! ## Dynamic arguments -/

/-- The offset words of tails that start at an offset. -/
def headsFrom : Nat → List Bytes → Bytes
  | _, [] => []
  | offset, tail :: rest =>
      (ByteArr.ofNat 32 offset).toList ++ headsFrom (offset + tail.length) rest

/-- Dynamic arguments: their offsets, then their tails. -/
def encodeDynamic (tails : List Bytes) : Bytes :=
  headsFrom (32 * tails.length) tails ++ tails.flatten

/-- The tail of a byte string, padded to words. -/
def bytesTail (data : Bytes) : Bytes :=
  (ByteArr.ofNat 32 data.length).toList ++
    (data ++ List.replicate ((32 - data.length % 32) % 32) 0)

/-- The tail of an array of encoded elements. -/
def arrayTail (elements : List Bytes) : Bytes :=
  (ByteArr.ofNat 32 elements.length).toList ++ elements.flatten

/-- Where the elements of a dynamic argument start and how many there are. Offsets and lengths have
to fit in 64 bits and the elements have to lie within the data. -/
def tailAt (stride : Nat) (data : Bytes) (head : Nat) : Option (Nat × Nat) := do
  let offset := (load data head).toNat
  if offset < 2 ^ 64 ∧ offset + 31 < data.length then
    let count := (load data offset).toNat
    if count < 2 ^ 64 ∧ offset + 32 + count * stride ≤ data.length then
      some (offset + 32, count)
    else none
  else none

/-- The byte string whose head is at `head`. -/
def decodeBytes (data : Bytes) (head : Nat) : Option Bytes :=
  (tailAt 1 data head).map fun found => (data.drop found.1).take found.2

/-- `count` elements of `stride` bytes each. -/
def decodeElements {α : Type} (stride : Nat) (decode : Bytes → Option α) :
    Nat → Bytes → Option (List α)
  | 0, _ => some []
  | count + 1, data => do
      let element ← decode (data.take stride)
      let rest ← decodeElements stride decode count (data.drop stride)
      some (element :: rest)

/-- The array of elements of `stride` bytes whose head is at `head`. -/
def decodeArray {α : Type} (stride : Nat) (decode : Bytes → Option α) (data : Bytes) (head : Nat) :
    Option (List α) := do
  let found ← tailAt stride data head
  decodeElements stride decode found.2 (data.drop found.1)

theorem headsFrom_length (offset : Nat) (tails : List Bytes) :
    (headsFrom offset tails).length = 32 * tails.length := by
  induction tails generalizing offset with
  | nil => rfl
  | cons tail rest ih =>
      rw [headsFrom, List.length_append, ih, List.Vector.toList_length, List.length_cons]
      omega

theorem headsFrom_append (offset : Nat) (front back : List Bytes) :
    headsFrom offset (front ++ back) =
      headsFrom offset front ++ headsFrom (offset + front.flatten.length) back := by
  induction front generalizing offset with
  | nil => rfl
  | cons tail rest ih =>
      rw [List.cons_append, headsFrom, ih, headsFrom, List.append_assoc, List.flatten_cons,
        List.length_append, Nat.add_assoc]

theorem bytesTail_length_le (data : Bytes) : (bytesTail data).length ≤ data.length + 63 := by
  rw [bytesTail, List.length_append, List.length_append, List.Vector.toList_length,
    List.length_replicate]
  omega

theorem arrayTail_length {α : Type} {stride : Nat} {encode : α → Bytes}
    (h : ∀ a, (encode a).length = stride) (elements : List α) :
    (arrayTail (elements.map encode)).length = 32 + elements.length * stride := by
  rw [arrayTail, List.length_append, List.Vector.toList_length, flatten_length h]

/-- **The decoder finds each tail** behind the words in front of it. -/
theorem tailAt_encodeDynamic {front back : List Bytes} {body : Bytes} {stride count : Nat}
    (hstride : 0 < stride) (hbody : count * stride ≤ body.length)
    (hsize : (encodeDynamic
      (front ++ ((ByteArr.ofNat 32 count).toList ++ body) :: back)).length < 2 ^ 64) :
    ∃ position, tailAt stride (encodeDynamic
        (front ++ ((ByteArr.ofNat 32 count).toList ++ body) :: back)) (32 * front.length) =
          some (position, count) ∧
      (encodeDynamic (front ++ ((ByteArr.ofNat 32 count).toList ++ body) :: back)).drop position =
        body ++ back.flatten := by
  generalize htail : (ByteArr.ofNat 32 count).toList ++ body = tail at hsize ⊢
  generalize htails : front ++ tail :: back = tails at hsize ⊢
  generalize hoffset : 32 * tails.length + front.flatten.length = offset
  -- the data, split at the head word and at the tail it points to
  have hhead : encodeDynamic tails = headsFrom (32 * tails.length) front ++
      ((ByteArr.ofNat 32 offset).toList ++ (headsFrom (offset + tail.length) back ++
        tails.flatten)) := by
    have hsplit := headsFrom_append (32 * tails.length) front (tail :: back)
    rw [htails, hoffset, headsFrom] at hsplit
    rw [encodeDynamic, hsplit, List.append_assoc, List.append_assoc]
  have hdata : encodeDynamic tails =
      (headsFrom (32 * tails.length) tails ++ front.flatten) ++
        ((ByteArr.ofNat 32 count).toList ++ (body ++ back.flatten)) := by
    have hflatten : tails.flatten =
        front.flatten ++ ((ByteArr.ofNat 32 count).toList ++ (body ++ back.flatten)) := by
      rw [← htails, List.flatten_append, List.flatten_cons, ← htail, List.append_assoc]
    rw [encodeDynamic, List.append_assoc, ← hflatten]
  have hlength : (encodeDynamic tails).length =
      offset + (32 + (body.length + back.flatten.length)) := by
    rw [hdata, List.length_append, List.length_append, headsFrom_length, hoffset,
      List.length_append, List.Vector.toList_length, List.length_append]
  have hcount : count ≤ count * stride := Nat.le_mul_of_pos_right count hstride
  -- offsets and counts fit in 64 bits, as the reader demands
  have hword : ∀ value, value < 2 ^ 64 → (ByteArr.ofNat 32 value).toNat = value := by
    intro value hvalue
    refine ByteArr.toNat_ofNat (lt_of_lt_of_le hvalue ?_)
    rw [pow_word]
    exact Nat.pow_le_pow_right (by decide) (by decide)
  have hload : (load (encodeDynamic tails) (32 * front.length)).toNat = offset := by
    rw [hhead, ← headsFrom_length (32 * tails.length) front, load_append]
    exact hword offset (by omega)
  have hloadCount : (load (encodeDynamic tails) offset).toNat = count := by
    have hfront : (headsFrom (32 * tails.length) tails ++ front.flatten).length = offset := by
      rw [List.length_append, headsFrom_length, hoffset]
    rw [hdata, ← hfront, load_append]
    exact hword count (by omega)
  refine ⟨offset + 32, ?_, ?_⟩
  · simp only [tailAt, hload, hloadCount]
    rw [if_pos ⟨by omega, by omega⟩, if_pos ⟨by omega, by omega⟩]
  · have hfront : (headsFrom (32 * tails.length) tails ++ front.flatten ++
        (ByteArr.ofNat 32 count).toList).length = offset + 32 := by
      rw [List.length_append, List.length_append, headsFrom_length, hoffset,
        List.Vector.toList_length]
    rw [hdata, ← List.append_assoc, ← hfront, List.drop_left]

/-- **Byte strings round trip.** -/
theorem decodeBytes_encodeDynamic (front : List Bytes) {back : List Bytes} {data : Bytes}
    (hsize : (encodeDynamic (front ++ bytesTail data :: back)).length < 2 ^ 64) :
    decodeBytes (encodeDynamic (front ++ bytesTail data :: back)) (32 * front.length) =
      some data := by
  have hbody : data.length * 1 ≤
      (data ++ List.replicate ((32 - data.length % 32) % 32) 0).length := by
    rw [Nat.mul_one, List.length_append]
    exact Nat.le_add_right _ _
  obtain ⟨position, hfound, hdrop⟩ := tailAt_encodeDynamic Nat.one_pos hbody hsize
  rw [decodeBytes, bytesTail, hfound, Option.map_some, hdrop, List.append_assoc, List.take_left]

theorem decodeElements_flatten {α β : Type} {stride : Nat} {decode : Bytes → Option α}
    {encode : β → Bytes} {value : β → α} (hlen : ∀ b, (encode b).length = stride)
    (hdecode : ∀ b, decode (encode b) = some (value b)) (elements : List β) (rest : Bytes) :
    decodeElements stride decode elements.length ((elements.map encode).flatten ++ rest) =
      some (elements.map value) := by
  induction elements with
  | nil => rfl
  | cons b elements ih =>
      rw [List.map_cons, List.flatten_cons, List.append_assoc, List.length_cons, decodeElements,
        List.take_left' (hlen b), List.drop_left' (hlen b), hdecode, ih]
      rfl

/-- **Arrays round trip** when their elements do. -/
theorem decodeArray_encodeDynamic {α β : Type} {stride : Nat} {decode : Bytes → Option α}
    {encode : β → Bytes} {value : β → α} (hstride : 0 < stride)
    (hlen : ∀ b, (encode b).length = stride) (hdecode : ∀ b, decode (encode b) = some (value b))
    (front : List Bytes) {back : List Bytes} {elements : List β}
    (hsize : (encodeDynamic (front ++ arrayTail (elements.map encode) :: back)).length < 2 ^ 64) :
    decodeArray stride decode (encodeDynamic (front ++ arrayTail (elements.map encode) :: back))
      (32 * front.length) = some (elements.map value) := by
  have hbody : (elements.map encode).length * stride ≤ (elements.map encode).flatten.length := by
    rw [flatten_length hlen, List.length_map]
  obtain ⟨position, hfound, hdrop⟩ := tailAt_encodeDynamic hstride hbody hsize
  rw [decodeArray, arrayTail, hfound, Option.bind_eq_bind, Option.bind_some, hdrop, List.length_map]
  exact decodeElements_flatten hlen hdecode elements _

end UnicityBridge.Lib.Abi
