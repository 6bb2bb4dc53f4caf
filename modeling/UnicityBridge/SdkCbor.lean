import UnicityBridge.GuestBatch
import UnicityBridge.Lib.Cbor

/-!
# The SDK's CBOR

The `unicity_token` crate encodes canonically (`EncodesCbor`) and its decoder is strict: `finish`
accepts a slice that is one canonical item, and the accessors of such a slice answer with its parts
(`StrictCbor`). Both are assumptions about the crate, stated with the heads of the CBOR library, which
are those that `prover/crates/core/src/cbor.rs` writes (`major_eq_head`).

The last part is an SDK that decodes with the library's reader and so satisfies them.
-/

set_option autoImplicit false

namespace UnicityBridge.TokenSdk

open UnicityBridge.Lib UnicityBridge.Lib.Cbor UnicityBridge.Core

theorem lead_eq (m : Fin 8) (info : Fin 32) :
    UInt8.ofNat m <<< 5 ||| UInt8.ofNat info = UInt8.ofNat (m * 32 + info) := by
  revert m info
  decide

/-- The core's heads are the library's. -/
theorem major_eq_head (m : Fin 8) (value : UInt64) :
    major (UInt8.ofNat m) value = head m value.toNat := by
  have hbyte (n : Nat) : beBytes 1 n = [UInt8.ofNat n] := rfl
  unfold major head form
  dsimp only
  split_ifs with h1 h2 h3 h4
  -- the two case analyses split the arguments at the same places
  all_goals try omega
  · exact congrArg (fun lead => [lead]) (lead_eq m ⟨value.toNat, by omega⟩)
  · rw [hbyte]
    exact congrArg (fun lead => [lead, UInt8.ofNat value.toNat]) (lead_eq m 24)
  · exact congrArg (fun lead => lead :: beBytes 2 value.toNat) (lead_eq m 25)
  · exact congrArg (fun lead => lead :: beBytes 4 value.toNat) (lead_eq m 26)
  · exact congrArg (fun lead => lead :: beBytes 8 value.toNat) (lead_eq m 27)

theorem cborBytes_eq {data : Bytes} (h : data.length < 2 ^ 64) :
    cborBytes data = (Item.bytes data).encode := by
  have hhead := major_eq_head 2 (UInt64.ofNat data.length)
  rw [UInt64.toNat_ofNat_of_lt' h] at hhead
  exact congrArg (· ++ data) hhead

theorem cborText_eq {data : Bytes} (h : data.length < 2 ^ 64) :
    cborText data = (Item.text data).encode := by
  have hhead := major_eq_head 3 (UInt64.ofNat data.length)
  rw [UInt64.toNat_ofNat_of_lt' h] at hhead
  exact congrArg (· ++ data) hhead

theorem arrayHeader_eq {len : Nat} (h : len < 2 ^ 64) :
    arrayHeader (UInt64.ofNat len) = head 4 len := by
  have hhead := major_eq_head 4 (UInt64.ofNat len)
  rwa [UInt64.toNat_ofNat_of_lt' h] at hhead

section Assumptions

variable (sdk : Sdk)

/-- The encoder writes canonical items. Lengths in memory fit 64 bits. -/
structure EncodesCbor : Prop where
  uint : ∀ value, sdk.encodeUint value = (Item.uint value).encode
  bytes : ∀ data : Bytes, data.length < 2 ^ 64 →
    sdk.encodeByteString data = (Item.bytes data).encode
  text : ∀ text, (utf8 text).length < 2 ^ 64 →
    sdk.encodeTextString text = (Item.text (utf8 text)).encode
  array : ∀ items : List Bytes, items.length < 2 ^ 64 →
    sdk.encodeArray items = head 4 items.length ++ items.flatten

/-- Unsigned integers and byte strings, the fields of the bridge's structures. -/
def IsField : Item → Prop
  | .uint _ => True
  | .bytes _ => True
  | _ => False

/-- The decoder is strict: a finished slice is one canonical item and gives its parts, which are
finished slices again. Tagged arrays of fields are finished, whatever the limit on nesting is. -/
structure StrictCbor : Prop where
  finish_field : ∀ item : Item, IsField item → item.Fits → sdk.finish item.encode = some ()
  finish_tagged : ∀ (number : UInt64) (items : List Item), (∀ item ∈ items, IsField item) →
    (Item.array items).Fits → sdk.finish (Item.tag number (.array items)).encode = some ()
  uint : ∀ slice, sdk.finish slice = some () → ∀ value : UInt64,
    sdk.uint slice = some value ↔ slice = (Item.uint value).encode
  bytesValue : ∀ slice, sdk.finish slice = some () → ∀ data : Bytes,
    sdk.bytesValue slice = some data ↔
      data.length < 2 ^ 64 ∧ slice = (Item.bytes data).encode
  array : ∀ slice, sdk.finish slice = some () → ∀ (count : Nat) (items : List Bytes),
    sdk.array slice count = some items ↔
      items.length = count ∧ count < 2 ^ 64 ∧ slice = head 4 count ++ items.flatten ∧
        ∀ item ∈ items, sdk.finish item = some ()
  expectTag : ∀ slice, sdk.finish slice = some () → ∀ (number : UInt64) (inner : Bytes),
    sdk.expectTag slice number = some inner ↔ slice = head 6 number.toNat ++ inner
  finish_inner : ∀ slice, sdk.finish slice = some () → ∀ (number : UInt64) (inner : Bytes),
    sdk.expectTag slice number = some inner → sdk.finish inner = some ()

end Assumptions

/-! ## An SDK with a strict decoder -/

namespace StrictSample

open Guest (Sample.sdk)

/-- Whether the slice is exactly one item. -/
def finish (slice : Bytes) : Option Unit := (decode slice).map fun _ => ()

/-- The value of an unsigned integer item. -/
def uint (slice : Bytes) : Option UInt64 := do
  match ← decode slice with
  | .uint value => some value
  | _ => none

/-- The content of a byte string item. -/
def bytesValue (slice : Bytes) : Option Bytes := do
  match ← decode slice with
  | .bytes data => some data
  | _ => none

/-- The items of an array of `count` items, encoded again. -/
def array (slice : Bytes) (count : Nat) : Option (List Bytes) := do
  match ← decode slice with
  | .array items => if items.length = count then some (items.map Item.encode) else none
  | _ => none

/-- What an item tagged `number` holds. -/
def expectTag (slice : Bytes) (number : UInt64) : Option Bytes := do
  match ← decode slice with
  | .tag number' item => if number' = number then some item.encode else none
  | _ => none

/-- The sample SDK with this decoder. -/
def sdk : Sdk :=
  { Guest.Sample.sdk with finish, uint, bytesValue, array, expectTag }

theorem finish_eq_some {slice : Bytes} :
    sdk.finish slice = some () ↔ ∃ item : Item, slice = item.encode ∧ item.Fits := by
  show (decode slice).map (fun _ => ()) = some () ↔ _
  simp only [Option.map_eq_some_iff, decode_eq_some, and_true]

theorem encodesCbor : EncodesCbor sdk where
  uint value := major_eq_head 0 value
  bytes _ h := cborBytes_eq h
  text _ h := cborText_eq h
  array items h := congrArg (· ++ items.flatten) (arrayHeader_eq h)

/-- Slices that are finished are the encodings of items. -/
theorem exists_items {slices : List Bytes} (h : ∀ slice ∈ slices, sdk.finish slice = some ()) :
    ∃ items : List Item, slices = items.map Item.encode ∧ ∀ item ∈ items, item.Fits := by
  induction slices with
  | nil => exact ⟨[], rfl, by simp⟩
  | cons slice slices ih =>
      rw [List.forall_mem_cons] at h
      obtain ⟨item, rfl, hitem⟩ := finish_eq_some.1 h.1
      obtain ⟨items, rfl, hitems⟩ := ih h.2
      exact ⟨item :: items, rfl, List.forall_mem_cons.2 ⟨hitem, hitems⟩⟩

theorem expectTag_encode {item : Item} (h : item.Fits) {number : UInt64} {inner : Bytes} :
    sdk.expectTag item.encode number = some inner ↔
      ∃ item', item = .tag number item' ∧ item'.encode = inner := by
  have hdecode : decode item.encode = some item := decode_eq_some.2 ⟨rfl, h⟩
  show expectTag item.encode number = some inner ↔ _
  simp only [expectTag, hdecode, Option.bind_eq_bind, Option.bind_some]
  constructor
  · intro h
    split at h
    · split at h
      · cases h
        subst number
        exact ⟨_, rfl, rfl⟩
      · cases h
    · cases h
  · rintro ⟨item', rfl, rfl⟩
    simp

/-- An item that begins with the head of a tag is tagged. -/
theorem exists_tag_of_head {item : Item} (h : item.Fits) {number : UInt64} {inner : Bytes}
    (heq : item.encode = head 6 number.toNat ++ inner) : ∃ item', item = .tag number item' := by
  have hread : readHead item.encode = some (6, number.toNat, inner) := by
    rw [heq]
    exact readHead_head (by decide) number.toNat_lt inner
  obtain ⟨major, n, tail, hhead, hcontent⟩ := @read_encode item.encode.length item h
    (fun items hitems hshort rest => readItems_encodeAll hitems hshort.le rest) []
  rw [List.append_nil, hread, Option.some.injEq, Prod.mk.injEq, Prod.mk.injEq] at hhead
  obtain ⟨rfl, rfl, rfl⟩ := hhead
  simp only [readContent] at hcontent
  split at hcontent
  · rename_i item' rest' hitems
    obtain ⟨rfl, -⟩ : Item.tag (UInt64.ofNat number.toNat) item' = item ∧ rest' = [] := by
      simpa using hcontent
    exact ⟨item', by rw [UInt64.ofNat_toNat]⟩
  · cases hcontent

theorem strictCbor : StrictCbor sdk where
  finish_field item _ h := finish_eq_some.2 ⟨item, rfl, h⟩
  finish_tagged number items _ h := finish_eq_some.2 ⟨_, rfl, .tag number h⟩
  uint slice h value := by
    obtain ⟨item, rfl, hitem⟩ := finish_eq_some.1 h
    have hdecode : decode item.encode = some item := decode_eq_some.2 ⟨rfl, hitem⟩
    show uint item.encode = some value ↔ _
    simp only [uint, hdecode, Option.bind_eq_bind, Option.bind_some]
    -- a decoded item is its own encoding, so equal encodings are equal items
    constructor
    · intro h
      split at h
      · cases h
        rfl
      · cases h
    · intro h
      obtain rfl : item = .uint value := encode_inj hitem (.uint value) h
      rfl
  bytesValue slice h data := by
    obtain ⟨item, rfl, hitem⟩ := finish_eq_some.1 h
    have hdecode : decode item.encode = some item := decode_eq_some.2 ⟨rfl, hitem⟩
    show bytesValue item.encode = some data ↔ _
    simp only [bytesValue, hdecode, Option.bind_eq_bind, Option.bind_some]
    constructor
    · intro h
      split at h
      · cases h
        cases hitem with
        | bytes hlen => exact ⟨hlen, rfl⟩
      · cases h
    · rintro ⟨hlen, h⟩
      obtain rfl : item = .bytes data := encode_inj hitem (.bytes hlen) h
      rfl
  array slice h count slices := by
    obtain ⟨item, rfl, hitem⟩ := finish_eq_some.1 h
    have hdecode : decode item.encode = some item := decode_eq_some.2 ⟨rfl, hitem⟩
    show array item.encode count = some slices ↔ _
    simp only [array, hdecode, Option.bind_eq_bind, Option.bind_some]
    constructor
    · intro h
      split at h
      · split at h
        · cases h
          subst count
          cases hitem with
          | @array items hlen hitems =>
            refine ⟨by simp, hlen, by rw [Item.encode, encodeAll_eq], ?_⟩
            intro slice hslice
            obtain ⟨inner, hinner, rfl⟩ := List.mem_map.1 hslice
            exact finish_eq_some.2 ⟨inner, rfl, hitems inner hinner⟩
        · cases h
      · cases h
    · rintro ⟨rfl, hlen, h, hslices⟩
      obtain ⟨items, rfl, hitems⟩ := exists_items hslices
      rw [List.length_map] at hlen h ⊢
      obtain rfl : item = .array items :=
        encode_inj hitem (.array hlen hitems) (by rw [h, Item.encode, encodeAll_eq])
      simp
  expectTag slice h number inner := by
    obtain ⟨item, rfl, hitem⟩ := finish_eq_some.1 h
    rw [expectTag_encode hitem]
    constructor
    · rintro ⟨item', rfl, rfl⟩
      rfl
    · intro h
      obtain ⟨item', rfl⟩ := exists_tag_of_head hitem h
      rw [Item.encode] at h
      exact ⟨item', rfl, List.append_cancel_left h⟩
  finish_inner slice h number inner hinner := by
    obtain ⟨item, rfl, hitem⟩ := finish_eq_some.1 h
    obtain ⟨item', rfl, rfl⟩ := (expectTag_encode hitem).1 hinner
    cases hitem with
    | tag _ hfits => exact finish_eq_some.2 ⟨item', rfl, hfits⟩

end StrictSample

end UnicityBridge.TokenSdk
