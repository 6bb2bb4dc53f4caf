import UnicityBridge.Lib.Bytes

/-!
# Canonical CBOR

The items of definite length with minimal arguments: unsigned integers, byte and text strings, arrays,
tags and simple values. `encode` writes an item and `readItem` reads one from the front of a byte
string, and accepts nothing but what `encode` writes.

The main results say that each undoes the other (`readItem_encode`, `encode_of_readItem`), so that no
encoding is the beginning of another and a byte string is the encoding of at most one item
(`encode_append_inj`).
-/

set_option autoImplicit false

namespace UnicityBridge.Lib.Cbor

/-! ## Heads -/

/-- The additional information of an argument's head and the number of bytes behind it. -/
def form (n : Nat) : Nat × Nat :=
  if n < 24 then (n, 0)
  else if n < 2 ^ 8 then (24, 1)
  else if n < 2 ^ 16 then (25, 2)
  else if n < 2 ^ 32 then (26, 4)
  else (27, 8)

/-- The head of an item: its major type and its argument. -/
def head (major n : Nat) : Bytes :=
  UInt8.ofNat (major * 32 + (form n).1) :: beBytes (form n).2 n

/-- How many bytes hold the argument. -/
def width (info : Nat) : Option Nat :=
  if info < 24 then some 0
  else if info = 24 then some 1
  else if info = 25 then some 2
  else if info = 26 then some 4
  else if info = 27 then some 8
  else none

/-- The argument of a head, from its additional information and the bytes behind it. -/
def argument (info : Nat) (bytes : Bytes) : Nat :=
  if info < 24 then info else beNat bytes

/-- Major type and argument of the item in front, if the argument is minimal, and what follows. -/
def readHead : Bytes → Option (Nat × Nat × Bytes)
  | [] => none
  | lead :: rest => do
      let info := lead.toNat % 32
      let len ← width info
      if rest.length < len then none
      else
        let n := argument info (rest.take len)
        if form n = (info, len) then some (lead.toNat / 32, n, rest.drop len) else none

theorem width_form (n : Nat) : width (form n).1 = some (form n).2 := by
  unfold form
  split_ifs <;> simp_all [width]

theorem form_lt (n : Nat) : (form n).1 < 32 := by
  unfold form
  split_ifs <;> simp_all
  omega

/-- The bytes behind a head are enough for its argument. -/
theorem lt_form {n : Nat} (hn : n < 2 ^ 64) (h : ¬ (form n).1 < 24) : n < 256 ^ (form n).2 := by
  revert h
  unfold form
  split_ifs <;> simp_all

theorem form_eq_self {n : Nat} (h : (form n).1 < 24) : (form n).1 = n := by
  revert h
  unfold form
  split_ifs <;> simp_all

theorem lead_toNat {major n : Nat} (hmajor : major < 8) :
    (UInt8.ofNat (major * 32 + (form n).1)).toNat = major * 32 + (form n).1 := by
  have := form_lt n
  rw [UInt8.toNat_ofNat']
  omega

theorem head_ne_nil (major n : Nat) : head major n ≠ [] := by simp [head]

/-- **A head is read back.** -/
theorem readHead_head {major n : Nat} (hmajor : major < 8) (hn : n < 2 ^ 64) (rest : Bytes) :
    readHead (head major n ++ rest) = some (major, n, rest) := by
  have hform := form_lt n
  have hmod : (major * 32 + (form n).1) % 32 = (form n).1 := by omega
  have hdiv : (major * 32 + (form n).1) / 32 = major := by omega
  have hlen := beBytes_length (form n).2 n
  have hargument : argument (form n).1 ((beBytes (form n).2 n ++ rest).take (form n).2) = n := by
    unfold argument
    split
    · exact form_eq_self (by assumption)
    · rw [List.take_left' hlen, beNat_beBytes_of_lt (lt_form hn (by assumption))]
  rw [head, List.cons_append, readHead]
  simp only [lead_toNat hmajor, hmod, hdiv, width_form, Option.bind_eq_bind, Option.bind_some,
    hargument, if_true]
  rw [if_neg (by rw [List.length_append]; omega), List.drop_left' hlen]

theorem width_le {info len : Nat} (h : width info = some len) : len ≤ 8 := by
  revert h
  unfold width
  split_ifs <;> simp <;> omega

/-- Reading the argument again gives the bytes it was read from. -/
theorem beBytes_argument {info len : Nat} {bytes : Bytes} (hwidth : width info = some len)
    (hlen : bytes.length = len) : beBytes len (argument info bytes) = bytes := by
  unfold argument
  split
  · rename_i hsmall
    -- a small argument has no bytes behind it
    obtain rfl : 0 = len := by simpa [width, hsmall] using hwidth
    exact (List.length_eq_zero_iff.1 hlen).symm
  · rw [← hlen, beBytes_beNat]

theorem argument_lt {info len : Nat} {bytes : Bytes} (hwidth : width info = some len)
    (hlen : bytes.length = len) : argument info bytes < 2 ^ 64 := by
  unfold argument
  split
  · omega
  · have hle := width_le hwidth
    calc beNat bytes < 256 ^ bytes.length := beNat_lt bytes
      _ ≤ 256 ^ 8 := Nat.pow_le_pow_right (by decide) (hlen ▸ hle)
      _ = 2 ^ 64 := by norm_num

/-- **A head that is read is the head of what is read.** -/
theorem head_of_readHead {data rest : Bytes} {major n : Nat}
    (h : readHead data = some (major, n, rest)) :
    data = head major n ++ rest ∧ major < 8 ∧ n < 2 ^ 64 := by
  cases data with
  | nil => cases h
  | cons lead tail =>
    have hlead := lead.toNat_lt
    simp only [readHead, Option.bind_eq_bind, Option.bind_eq_some_iff] at h
    obtain ⟨len, hwidth, h⟩ := h
    split at h
    · cases h
    rename_i hlen
    have htake : (tail.take len).length = len := by
      rw [List.length_take]
      omega
    split at h
    · rename_i hform
      have hbytes := beBytes_argument hwidth htake
      have hlt := argument_lt hwidth htake
      obtain ⟨rfl, rfl, rfl⟩ : lead.toNat / 32 = major ∧
          argument (lead.toNat % 32) (tail.take len) = n ∧ tail.drop len = rest := by
        simpa only [Option.some.injEq, Prod.mk.injEq] using h
      refine ⟨?_, by omega, hlt⟩
      rw [head, hform, List.cons_append, hbytes, List.take_append_drop]
      congr 1
      apply UInt8.toNat_inj.1
      rw [UInt8.toNat_ofNat']
      omega
    · cases h

/-! ## Items -/

/-- An item; of the simple values those with a short head. -/
inductive Item where
  | uint (value : UInt64)
  | bytes (data : Bytes)
  | text (data : Bytes)
  | array (items : List Item)
  | tag (number : UInt64) (item : Item)
  | simple (value : Fin 24)

mutual

/-- The encoding of an item. -/
def Item.encode : Item → Bytes
  | .uint value => head 0 value.toNat
  | .bytes data => head 2 data.length ++ data
  | .text data => head 3 data.length ++ data
  | .array items => head 4 items.length ++ encodeAll items
  | .tag number item => head 6 number.toNat ++ item.encode
  | .simple value => head 7 value

/-- The encodings of items, one after the other. -/
def encodeAll : List Item → Bytes
  | [] => []
  | item :: items => item.encode ++ encodeAll items

end

/-- The lengths in an item fit their heads. -/
inductive Item.Fits : Item → Prop
  | uint (value : UInt64) : Fits (.uint value)
  | bytes {data : Bytes} (h : data.length < 2 ^ 64) : Fits (.bytes data)
  | text {data : Bytes} (h : data.length < 2 ^ 64) : Fits (.text data)
  | array {items : List Item} (h : items.length < 2 ^ 64) (hitems : ∀ item ∈ items, Fits item) :
      Fits (.array items)
  | tag (number : UInt64) {item : Item} (h : Fits item) : Fits (.tag number item)
  | simple (value : Fin 24) : Fits (.simple value)

theorem encodeAll_eq (items : List Item) : encodeAll items = (items.map Item.encode).flatten := by
  induction items with
  | nil => simp [encodeAll]
  | cons item items ih => simp [encodeAll, ih]

theorem Item.encode_ne_nil (item : Item) : item.encode ≠ [] := by
  cases item <;> simp [Item.encode, head_ne_nil]

/-- What stands behind a head, where `items` reads so many items. -/
def readContent (items : Nat → Bytes → Option (List Item × Bytes)) (major n : Nat) (rest : Bytes) :
    Option (Item × Bytes) :=
  match major with
  | 0 => some (.uint (UInt64.ofNat n), rest)
  | 2 => if rest.length < n then none else some (.bytes (rest.take n), rest.drop n)
  | 3 => if rest.length < n then none else some (.text (rest.take n), rest.drop n)
  | 4 => (items n rest).map fun read => (.array read.1, read.2)
  | 6 =>
      match items 1 rest with
      | some ([item], rest) => some (.tag (UInt64.ofNat n) item, rest)
      | _ => none
  | 7 => if h : n < 24 then some (.simple ⟨n, h⟩, rest) else none
  | _ => none

/-- So many items from the front of a byte string; `fuel` bounds how many there are on all levels. -/
def readItems : Nat → Nat → Bytes → Option (List Item × Bytes)
  | _, 0, data => some ([], data)
  | 0, _ + 1, _ => none
  | fuel + 1, count + 1, data => do
      let (major, n, rest) ← readHead data
      let (item, rest) ← readContent (readItems fuel) major n rest
      let (items, rest) ← readItems fuel count rest
      some (item :: items, rest)

/-- The item in front and what follows. -/
def readItem (data : Bytes) : Option (Item × Bytes) :=
  match readItems data.length 1 data with
  | some ([item], rest) => some (item, rest)
  | _ => none

/-- The item a byte string encodes, with nothing after it. -/
def decode (data : Bytes) : Option Item :=
  match readItem data with
  | some (item, []) => some item
  | _ => none

/-! ## Round trips -/

theorem encodeAll_singleton (item : Item) : encodeAll [item] = item.encode := by
  simp [encodeAll]

/-- One item is read back by what reads back shorter lists of items. -/
theorem read_encode {fuel : Nat} {item : Item} (hfits : item.Fits)
    (hitems : ∀ items : List Item, (∀ i ∈ items, i.Fits) →
      (encodeAll items).length < item.encode.length → ∀ rest,
        readItems fuel items.length (encodeAll items ++ rest) = some (items, rest)) (rest : Bytes) :
    ∃ major n tail, readHead (item.encode ++ rest) = some (major, n, tail) ∧
      readContent (readItems fuel) major n tail = some (item, rest) := by
  cases hfits with
  | uint value =>
      refine ⟨_, _, _, readHead_head (by decide) value.toNat_lt rest, ?_⟩
      simp [readContent]
  | @bytes data h =>
      refine ⟨2, data.length, data ++ rest, ?_, ?_⟩
      · rw [Item.encode, List.append_assoc]
        exact readHead_head (by decide) h _
      · simp [readContent]
  | @text data h =>
      refine ⟨3, data.length, data ++ rest, ?_, ?_⟩
      · rw [Item.encode, List.append_assoc]
        exact readHead_head (by decide) h _
      · simp [readContent]
  | @array items h hfits =>
      refine ⟨4, items.length, encodeAll items ++ rest, ?_, ?_⟩
      · rw [Item.encode, List.append_assoc]
        exact readHead_head (by decide) h _
      -- the items are shorter than the array around them, so the hypothesis reads them
      · have hshort : (encodeAll items).length < (Item.array items).encode.length := by
          simp only [Item.encode, head, List.length_append, List.length_cons]
          omega
        simp only [readContent, hitems items hfits hshort rest, Option.map_some]
  | @tag number item h =>
      refine ⟨6, number.toNat, item.encode ++ rest, ?_, ?_⟩
      · rw [Item.encode, List.append_assoc]
        exact readHead_head (by decide) number.toNat_lt _
      · have hshort : (encodeAll [item]).length < (Item.tag number item).encode.length := by
          simp only [encodeAll_singleton, Item.encode, head, List.length_append, List.length_cons]
          omega
        have hread := hitems [item] (by simpa using h) hshort rest
        rw [encodeAll_singleton] at hread
        simp only [readContent, List.length_singleton] at hread ⊢
        simp [hread]
  | simple value =>
      have hlt := value.isLt
      refine ⟨_, _, _, readHead_head (by decide) (by omega) rest, ?_⟩
      simp [readContent, hlt]

/-- **Items are read back.** -/
theorem readItems_encodeAll {fuel : Nat} {items : List Item} (hfits : ∀ item ∈ items, item.Fits)
    (hfuel : (encodeAll items).length ≤ fuel) (rest : Bytes) :
    readItems fuel items.length (encodeAll items ++ rest) = some (items, rest) := by
  induction fuel generalizing items rest with
  | zero =>
      cases items with
      | nil => simp [readItems, encodeAll]
      | cons item items => simp [encodeAll, item.encode_ne_nil] at hfuel
  | succ fuel ih =>
      cases items with
      | nil => simp [readItems, encodeAll]
      | cons item items =>
          rw [List.forall_mem_cons] at hfits
          have hpos := List.length_pos_iff.2 item.encode_ne_nil
          rw [encodeAll, List.length_append] at hfuel
          obtain ⟨major, n, tail, hhead, hcontent⟩ := @read_encode fuel item hfits.1
            (fun inner hinner hshort rest => ih hinner (by omega) rest) (encodeAll items ++ rest)
          have hrest := ih hfits.2 (by omega) rest
          rw [encodeAll, List.append_assoc, List.length_cons, readItems, hhead]
          simp [hcontent, hrest]

/-- What is read behind a head is the item it is read from. -/
theorem encode_of_readContent {fuel : Nat} {data rest : Bytes} {item : Item} {major n : Nat}
    (hn : n < 2 ^ 64)
    (hitems : ∀ {count : Nat} {data rest : Bytes} {items : List Item},
      readItems fuel count data = some (items, rest) →
        data = encodeAll items ++ rest ∧ items.length = count ∧ ∀ item ∈ items, item.Fits)
    (h : readContent (readItems fuel) major n data = some (item, rest)) :
    head major n ++ data = item.encode ++ rest ∧ item.Fits := by
  unfold readContent at h
  -- one case per major type; the content is what stands behind the head
  split at h
  · obtain ⟨rfl, rfl⟩ : Item.uint (UInt64.ofNat n) = item ∧ data = rest := by simpa using h
    rw [Item.encode, UInt64.toNat_ofNat_of_lt' hn]
    exact ⟨rfl, .uint _⟩
  · split at h
    · cases h
    · obtain ⟨rfl, rfl⟩ : Item.bytes (data.take n) = item ∧ data.drop n = rest := by simpa using h
      have hlen : (data.take n).length = n := by
        rw [List.length_take]
        omega
      rw [Item.encode, hlen, List.append_assoc, List.take_append_drop]
      exact ⟨rfl, .bytes (by omega)⟩
  · split at h
    · cases h
    · obtain ⟨rfl, rfl⟩ : Item.text (data.take n) = item ∧ data.drop n = rest := by simpa using h
      have hlen : (data.take n).length = n := by
        rw [List.length_take]
        omega
      rw [Item.encode, hlen, List.append_assoc, List.take_append_drop]
      exact ⟨rfl, .text (by omega)⟩
  · simp only [Option.map_eq_some_iff, Prod.mk.injEq] at h
    obtain ⟨⟨items, tail⟩, hread, rfl, rfl⟩ := h
    obtain ⟨rfl, rfl, hfits⟩ := hitems hread
    rw [Item.encode, List.append_assoc]
    exact ⟨rfl, .array hn hfits⟩
  · split at h
    · rename_i inner tail hread
      obtain ⟨rfl, rfl⟩ : Item.tag (UInt64.ofNat n) inner = item ∧ tail = rest := by simpa using h
      obtain ⟨rfl, -, hfits⟩ := hitems hread
      rw [encodeAll_singleton, Item.encode, UInt64.toNat_ofNat_of_lt' hn, List.append_assoc]
      exact ⟨rfl, .tag _ (hfits inner List.mem_cons_self)⟩
    · cases h
  · split at h
    · rename_i hsmall
      obtain ⟨rfl, rfl⟩ : Item.simple ⟨n, hsmall⟩ = item ∧ data = rest := by simpa using h
      exact ⟨rfl, .simple _⟩
    · cases h
  · cases h

/-- **Items that are read are what was encoded.** -/
theorem encodeAll_of_readItems {fuel count : Nat} {data rest : Bytes} {items : List Item}
    (h : readItems fuel count data = some (items, rest)) :
    data = encodeAll items ++ rest ∧ items.length = count ∧ ∀ item ∈ items, item.Fits := by
  induction fuel generalizing count data rest items with
  | zero =>
      cases count with
      | zero =>
          obtain ⟨rfl, rfl⟩ : [] = items ∧ data = rest := by simpa [readItems] using h
          simp [encodeAll]
      | succ count => simp [readItems] at h
  | succ fuel ih =>
      cases count with
      | zero =>
          obtain ⟨rfl, rfl⟩ : [] = items ∧ data = rest := by simpa [readItems] using h
          simp [encodeAll]
      | succ count =>
          simp only [readItems, Option.bind_eq_bind, Option.bind_eq_some_iff, Prod.exists,
            Option.some.injEq, Prod.mk.injEq] at h
          obtain ⟨major, n, body, hhead, item, tail, hcontent, more, _, hmore, rfl, rfl⟩ := h
          obtain ⟨rfl, -, hn⟩ := head_of_readHead hhead
          obtain ⟨hitem, hfits⟩ := encode_of_readContent hn ih hcontent
          obtain ⟨rfl, hlen, hall⟩ := ih hmore
          refine ⟨?_, by rw [List.length_cons, hlen], List.forall_mem_cons.2 ⟨hfits, hall⟩⟩
          rw [hitem, encodeAll, List.append_assoc]

theorem readItem_encode {item : Item} (h : item.Fits) (rest : Bytes) :
    readItem (item.encode ++ rest) = some (item, rest) := by
  have hread := @readItems_encodeAll (item.encode ++ rest).length [item] (by simpa using h)
    (by simp [encodeAll]) rest
  rw [encodeAll_singleton] at hread
  rw [readItem, ← List.length_singleton, hread]

theorem encode_of_readItem {data rest : Bytes} {item : Item}
    (h : readItem data = some (item, rest)) : data = item.encode ++ rest ∧ item.Fits := by
  unfold readItem at h
  split at h
  · rename_i inner tail hread
    obtain ⟨rfl, rfl⟩ : inner = item ∧ tail = rest := by simpa using h
    obtain ⟨hdata, -, hfits⟩ := encodeAll_of_readItems hread
    rw [encodeAll_singleton] at hdata
    exact ⟨hdata, hfits inner List.mem_cons_self⟩
  · cases h

/-- **A byte string is decoded to the item whose encoding it is.** -/
theorem decode_eq_some {data : Bytes} {item : Item} :
    decode data = some item ↔ data = item.encode ∧ item.Fits := by
  unfold decode
  constructor
  · intro h
    split at h
    · rename_i inner hread
      obtain rfl : inner = item := by simpa using h
      obtain ⟨hdata, hfits⟩ := encode_of_readItem hread
      exact ⟨by rw [hdata, List.append_nil], hfits⟩
    · cases h
  · rintro ⟨rfl, hfits⟩
    have hread := readItem_encode hfits []
    rw [List.append_nil] at hread
    rw [hread]

/-- **No encoding is the beginning of another.** -/
theorem encode_append_inj {item item' : Item} {rest rest' : Bytes} (h : item.Fits)
    (h' : item'.Fits) (heq : item.encode ++ rest = item'.encode ++ rest') :
    item = item' ∧ rest = rest' := by
  have hread := readItem_encode h rest
  rw [heq, readItem_encode h' rest', Option.some.injEq, Prod.mk.injEq] at hread
  exact ⟨hread.1.symm, hread.2.symm⟩

theorem encode_inj {item item' : Item} (h : item.Fits) (h' : item'.Fits)
    (heq : item.encode = item'.encode) : item = item' :=
  (encode_append_inj h h' (congrArg (· ++ []) heq)).1

end UnicityBridge.Lib.Cbor
