import UnicityBridge.BridgePlugin
import UnicityBridge.SdkCbor
import UnicityBridge.Lib.Reader

/-!
# Reasons in the wallet package

`packages/bridge-plugin/src/bridge-back/cbor.ts` and the reason of a burn in `derivations.ts`: the
encoder over integers of any size, the strict reader, and the eleven fields of a reason, written and
read. A reader is what it has still to read; a length beyond the buffer is refused before `Number`
could round it.

`decodeBridgeBackReason_eq_ok` says what the wallet reads: the encodings of eleven fields of the right
kinds (`RawReason`), whatever the lengths of their byte strings.
-/

set_option autoImplicit false

namespace UnicityBridge.BridgePlugin

open UnicityBridge.Lib UnicityBridge.Lib.Cbor UnicityBridge.TokenSdk

/-! ## Encoder -/

/-- `major << 5 | argument`, minimal for arguments below `2 ^ 64`. -/
def cborHead (major : Nat) (n : Int) : Bytes :=
  let m := UInt8.ofNat (major <<< 5)
  if n < 24 then [m ||| UInt8.ofInt n]
  else if n ≤ 0xff then [m ||| 24, UInt8.ofInt n]
  else if n ≤ 0xffff then (m ||| 25) :: beBytes 2 n.toNat
  else if n ≤ 0xffffffff then (m ||| 26) :: beBytes 4 n.toNat
  else (m ||| 27) :: beBytes 8 n.toNat

/-- An unsigned integer item. -/
def cborUint (n : Int) : Bytes := cborHead 0 n

/-- A byte string item. -/
def cborBytes (b : Bytes) : Bytes := cborHead 2 b.length ++ b

/-- A text item. -/
def cborText (s : String) : Bytes := cborHead 3 (Core.utf8 s).length ++ Core.utf8 s

/-- The head of an array of `len` items. -/
def cborArrayHeader (len : Nat) : Bytes := cborHead 4 len

/-- The head of a tagged item. -/
def cborTag (t : Int) : Bytes := cborHead 6 t

/-- Zero becomes the empty string. -/
def minimalBe (b : Bytes) : Bytes := b.dropWhile fun byte => byte == 0

/-- The loop of `u256be`, with the bytes below still to write: the word and what is left of `n`. -/
def u256beFrom : Nat → Int → Bytes → Bytes × Int
  | 0, n, low => (low, n)
  | k + 1, n, low =>
      if 0 < n then u256beFrom k (n / 256) (UInt8.ofNat (n % 256).toNat :: low)
      else (List.replicate (k + 1) 0 ++ low, n)

/-- The 32-byte word of a bigint. -/
def u256be (n : Int) : Result Bytes := do
  ensure (¬ n < 0) "u256be: negative"
  let (out, rest) := u256beFrom 32 n []
  ensure (¬ 0 < rest) "u256be: overflow"
  .ok out

/-! ## Reader -/

/-- Major type and argument of the next item. -/
def readHead : Reader String (Nat × Nat) := fun buf =>
  match buf with
  | [] => .error "CBOR: unexpected end"
  | ib :: rest => do
      let major := (ib >>> 5).toNat
      let ai := (ib &&& 0x1f).toNat
      if ai < 24 then .ok ((major, ai), rest)
      else
        let len ←
          if ai = 24 then .ok 1
          else if ai = 25 then .ok 2
          else if ai = 26 then .ok 4
          else if ai = 27 then .ok 8
          else .error s!"CBOR: bad additional info {ai}"
        ensure (¬ rest.length < len) "CBOR: truncated argument"
        let arg := beNat (rest.take len)
        let min := if ai = 24 then 24 else if ai = 25 then 0x100 else if ai = 26 then 0x10000
          else 0x100000000
        ensure (¬ arg < min) "CBOR: non-canonical (non-minimal) integer"
        .ok ((major, arg), rest.drop len)

/-- The argument of a head of the expected major type. -/
def expect (major : Nat) (what : String) : Reader String Nat := do
  let (got, arg) ← readHead
  if got = major then pure arg
  else throw s!"CBOR: expected {what} (major {major}), got major {got}"

/-- The number of a tag. -/
def readTag : Reader String Nat := expect 6 "tag"

/-- The length of an array. -/
def readArrayHeader : Reader String Nat := expect 4 "array"

/-- An unsigned integer. -/
def readUint : Reader String Nat := expect 0 "uint"

/-- A byte string. -/
def readBytes : Reader String Bytes := do
  let len ← expect 2 "byte string"
  Reader.take "CBOR: truncated byte string" len

/-- Nothing is left to read. -/
def finished (error : String) : Reader String Unit := fun rest =>
  if rest = [] then .ok ((), rest) else .error error

/-! ## Reasons -/

/-- The part of a reason that the wallet chooses. -/
structure BridgeBackReason where
  version : Int
  recipient : Bytes
  amount : Int
  feeRecipient : Bytes
  feeAmount : Int
  deadline : Int

/-- A decoded reason, with its amounts as numbers. -/
structure DecodedBridgeBackReason where
  reasonTag : Nat
  version : Nat
  sourceChainId : Nat
  vault : Bytes
  asset : Bytes
  tokenType : Bytes
  coinId : Bytes
  recipient : Bytes
  amount : Nat
  feeRecipient : Bytes
  feeAmount : Nat
  deadline : Nat

/-- The reason for a vault, canonical. -/
def encodeBridgeBackReason (c : BridgeConfig) (r : BridgeBackReason) : Result Bytes := do
  let amount ← u256be r.amount
  let feeAmount ← u256be r.feeAmount
  .ok (cborTag c.reasonTag ++ cborArrayHeader 11 ++ cborUint r.version ++
    cborUint c.sourceChainId ++ cborBytes c.vault ++ cborBytes c.asset ++ cborBytes c.tokenType ++
    cborBytes c.coinId ++ cborBytes r.recipient ++ cborBytes (minimalBe amount) ++
    cborBytes r.feeRecipient ++ cborBytes (minimalBe feeAmount) ++ cborUint r.deadline)

/-- The number that bytes stand for. -/
def beToBigInt (b : Bytes) : Nat := beNat b

/-- The fields of a reason, off the front of a buffer. -/
def readReason : Reader String DecodedBridgeBackReason := do
  let reasonTag ← readTag
  let n ← readArrayHeader
  if n ≠ 11 then throw s!"BridgeBackReason: expected 11 fields, got {n}"
  else
    let version ← readUint
    let sourceChainId ← readUint
    let vault ← readBytes
    let asset ← readBytes
    let tokenType ← readBytes
    let coinId ← readBytes
    let recipient ← readBytes
    let amount ← readBytes
    let feeRecipient ← readBytes
    let feeAmount ← readBytes
    let deadline ← readUint
    finished "BridgeBackReason: trailing bytes after reason"
    pure { reasonTag, version, sourceChainId, vault, asset, tokenType, coinId, recipient,
           amount := beToBigInt amount, feeRecipient, feeAmount := beToBigInt feeAmount, deadline }

/-- The decoding of a reason from a whole buffer. -/
def decodeBridgeBackReason (reasonBytes : Bytes) : Result DecodedBridgeBackReason := do
  let (reason, _) ← readReason reasonBytes
  .ok reason

/-! ## What the wallet reads -/

theorem shiftRight_five (ib : UInt8) : (ib >>> 5).toNat = ib.toNat / 32 := by
  rw [UInt8.toNat_shiftRight]
  exact Nat.shiftRight_eq_div_pow ib.toNat 5

theorem and_low_bits (ib : UInt8) : (ib &&& 0x1f).toNat = ib.toNat % 32 := by
  rw [UInt8.toNat_and]
  exact Nat.and_two_pow_sub_one_eq_mod ib.toNat 5

/-- The least argument of a width is the first that does not fit a smaller one. -/
theorem form_of_width (arg : Nat) :
    (arg < 256 ^ 1 → (form arg = (24, 1) ↔ ¬ arg < 24)) ∧
      (arg < 256 ^ 2 → (form arg = (25, 2) ↔ ¬ arg < 0x100)) ∧
      (arg < 256 ^ 4 → (form arg = (26, 4) ↔ ¬ arg < 0x10000)) ∧
      (arg < 256 ^ 8 → (form arg = (27, 8) ↔ ¬ arg < 0x100000000)) := by
  unfold form
  split_ifs <;> simp <;> omega

/-- An argument in `len` bytes is accepted from `least` on, which is where its form is that width. -/
theorem argument_eq_ok {tail rest : Bytes} {ai len least major' major n : Nat}
    (hform : ∀ arg, arg < 256 ^ len → (form arg = (ai, len) ↔ ¬ arg < least)) :
    (do ensure (¬ tail.length < len) "CBOR: truncated argument"
        ensure (¬ beNat (tail.take len) < least) "CBOR: non-canonical (non-minimal) integer"
        .ok ((major', beNat (tail.take len)), tail.drop len) : Result ((Nat × Nat) × Bytes)) =
        .ok ((major, n), rest) ↔
      (if tail.length < len then none
        else if form (beNat (tail.take len)) = (ai, len) then
          some (major', beNat (tail.take len), tail.drop len)
        else none) = some (major, n, rest) := by
  by_cases hlen : tail.length < len
  · simp [hlen, ensure, bind, Except.bind]
  · have hlt := beNat_lt (tail.take len)
    rw [List.length_take, min_eq_left (not_lt.1 hlen)] at hlt
    simp [hlen, hform _ hlt, and_assoc]

/-- **The wallet's heads are the library's.** -/
theorem readHead_eq_ok {input rest : Bytes} {major n : Nat} :
    readHead input = .ok ((major, n), rest) ↔
      input = head major n ++ rest ∧ major < 8 ∧ n < 2 ^ 64 := by
  have hsame : readHead input = .ok ((major, n), rest) ↔
      Cbor.readHead input = some (major, n, rest) := by
    cases input with
    | nil => simp [readHead, Cbor.readHead]
    | cons ib tail =>
      simp only [readHead, Cbor.readHead, shiftRight_five, and_low_bits]
      generalize ib.toNat % 32 = ai
      by_cases hsmall : ai < 24
      · have hform : form ai = (ai, 0) := by simp [form, hsmall]
        simp [hsmall, width, argument, hform, and_assoc]
      simp only [hsmall, if_false, width, argument]
      by_cases h24 : ai = 24
      · subst h24
        exact argument_eq_ok fun arg => (form_of_width arg).1
      by_cases h25 : ai = 25
      · subst h25
        exact argument_eq_ok fun arg => (form_of_width arg).2.1
      by_cases h26 : ai = 26
      · subst h26
        exact argument_eq_ok fun arg => (form_of_width arg).2.2.1
      by_cases h27 : ai = 27
      · subst h27
        exact argument_eq_ok fun arg => (form_of_width arg).2.2.2
      · simp [h24, h25, h26, h27, bind, Except.bind]
  rw [hsame]
  constructor
  · exact head_of_readHead
  · rintro ⟨rfl, hmajor, hn⟩
    exact readHead_head hmajor hn rest

theorem expect_eq_ok {major n : Nat} {what : String} {input rest : Bytes} (hmajor : major < 8) :
    expect major what input = .ok (n, rest) ↔ input = head major n ++ rest ∧ n < 2 ^ 64 := by
  simp only [expect, Reader.run_bind, Prod.exists]
  constructor
  · rintro ⟨got, arg, middle, hhead, h⟩
    split at h
    · rename_i hgot
      obtain ⟨rfl, rfl⟩ := Reader.run_pure.1 h
      obtain ⟨hinput, -, hn⟩ := readHead_eq_ok.1 hhead
      exact ⟨hgot ▸ hinput, hn⟩
    · cases h
  · rintro ⟨rfl, hn⟩
    refine ⟨major, n, rest, readHead_eq_ok.2 ⟨rfl, hmajor, hn⟩, ?_⟩
    rw [if_pos rfl]
    rfl

theorem readUint_eq_ok {n : Nat} {input rest : Bytes} :
    readUint input = .ok (n, rest) ↔
      ∃ value : UInt64, n = value.toNat ∧ input = (Item.uint value).encode ++ rest := by
  rw [readUint, expect_eq_ok (by decide)]
  constructor
  · rintro ⟨rfl, hn⟩
    have hvalue := UInt64.toNat_ofNat_of_lt' hn
    exact ⟨UInt64.ofNat n, hvalue.symm, by rw [Item.encode, hvalue]⟩
  · rintro ⟨value, rfl, rfl⟩
    exact ⟨rfl, value.toNat_lt⟩

theorem readBytes_eq_ok {data input rest : Bytes} :
    readBytes input = .ok (data, rest) ↔
      data.length < 2 ^ 64 ∧ input = (Item.bytes data).encode ++ rest := by
  simp only [readBytes, Reader.run_bind, expect_eq_ok (by decide : 2 < 8)]
  constructor
  · rintro ⟨len, middle, ⟨rfl, hlen⟩, htake⟩
    obtain rfl := Reader.take_length htake
    obtain rfl := Reader.take_eq_ok htake
    exact ⟨hlen, by rw [Item.encode, List.append_assoc]⟩
  · rintro ⟨hlen, rfl⟩
    refine ⟨data.length, data ++ rest, ⟨by rw [Item.encode, List.append_assoc], hlen⟩, ?_⟩
    exact Reader.reads_take _ data rest

/-- The fields of a reason as they are written. -/
structure RawReason where
  tag : UInt64
  version : UInt64
  sourceChainId : UInt64
  vault : Bytes
  asset : Bytes
  tokenType : Bytes
  coinId : Bytes
  recipient : Bytes
  amount : Bytes
  feeRecipient : Bytes
  feeAmount : Bytes
  deadline : UInt64

namespace RawReason

/-- The eleven fields as CBOR items. -/
def items (raw : RawReason) : List Item :=
  [.uint raw.version, .uint raw.sourceChainId, .bytes raw.vault, .bytes raw.asset,
    .bytes raw.tokenType, .bytes raw.coinId, .bytes raw.recipient, .bytes raw.amount,
    .bytes raw.feeRecipient, .bytes raw.feeAmount, .uint raw.deadline]

/-- The reason with these fields. -/
def encode (raw : RawReason) : Bytes := (Item.tag raw.tag (.array raw.items)).encode

/-- The lengths fit their heads. -/
def Fits (raw : RawReason) : Prop :=
  ∀ data ∈ [raw.vault, raw.asset, raw.tokenType, raw.coinId, raw.recipient, raw.amount,
    raw.feeRecipient, raw.feeAmount], data.length < 2 ^ 64

/-- The fields as the wallet reads them. -/
def decoded (raw : RawReason) : DecodedBridgeBackReason where
  reasonTag := raw.tag.toNat
  version := raw.version.toNat
  sourceChainId := raw.sourceChainId.toNat
  vault := raw.vault
  asset := raw.asset
  tokenType := raw.tokenType
  coinId := raw.coinId
  recipient := raw.recipient
  amount := beNat raw.amount
  feeRecipient := raw.feeRecipient
  feeAmount := beNat raw.feeAmount
  deadline := raw.deadline.toNat

theorem encode_eq (raw : RawReason) : raw.encode =
    head 6 raw.tag.toNat ++ (head 4 11 ++ ((Item.uint raw.version).encode ++
      ((Item.uint raw.sourceChainId).encode ++ ((Item.bytes raw.vault).encode ++
        ((Item.bytes raw.asset).encode ++ ((Item.bytes raw.tokenType).encode ++
          ((Item.bytes raw.coinId).encode ++ ((Item.bytes raw.recipient).encode ++
            ((Item.bytes raw.amount).encode ++ ((Item.bytes raw.feeRecipient).encode ++
              ((Item.bytes raw.feeAmount).encode ++ (Item.uint raw.deadline).encode))))))))))) := by
  show (Item.tag raw.tag (.array raw.items)).encode = _
  simp only [items, Item.encode, encodeAll, List.length_cons, List.length_nil, List.append_nil]

theorem fits_items {raw : RawReason} (h : raw.Fits) : (Item.array raw.items).Fits := by
  refine .array (by simp [items]) ?_
  simp only [Fits, List.forall_mem_cons, List.not_mem_nil, false_implies, implies_true,
    and_true] at h
  simp only [items, List.forall_mem_cons, List.not_mem_nil, false_implies, implies_true, and_true]
  obtain ⟨hvault, hasset, htype, hcoin, hto, hamount, hfeeTo, hfee⟩ := h
  exact ⟨.uint _, .uint _, .bytes hvault, .bytes hasset, .bytes htype, .bytes hcoin, .bytes hto,
    .bytes hamount, .bytes hfeeTo, .bytes hfee, .uint _⟩

end RawReason

theorem finished_eq_ok {error : String} {input rest : Bytes} {u : Unit} :
    finished error input = .ok (u, rest) ↔ input = [] ∧ rest = [] := by
  unfold finished
  split
  · rename_i h
    simp [h, eq_comm]
  · rename_i h
    simp [h]

/-- **The wallet reads every encoding of eleven fields**, and nothing else. -/
theorem decodeBridgeBackReason_eq_ok {data : Bytes} {reason : DecodedBridgeBackReason} :
    decodeBridgeBackReason data = .ok reason ↔
      ∃ raw : RawReason, raw.Fits ∧ data = raw.encode ∧ reason = raw.decoded := by
  simp only [decodeBridgeBackReason, bind_eq_ok, Prod.exists, Except.ok.injEq]
  constructor
  · rintro ⟨_, rest, hread, rfl⟩
    simp only [readReason, readTag, readArrayHeader, Reader.run_bind,
      expect_eq_ok (by decide : 6 < 8), expect_eq_ok (by decide : 4 < 8)] at hread
    obtain ⟨tag, data1, ⟨rfl, htag⟩, n, data2, ⟨rfl, -⟩, hread⟩ := hread
    split at hread
    · cases hread
    rename_i hn
    simp only [Reader.run_bind, readUint_eq_ok, readBytes_eq_ok, finished_eq_ok,
      Reader.run_pure] at hread
    obtain ⟨_, _, ⟨version, rfl, rfl⟩, _, _, ⟨chain, rfl, rfl⟩, vault, _, ⟨hvault, rfl⟩, asset, _,
      ⟨hasset, rfl⟩, tokenType, _, ⟨htype, rfl⟩, coinId, _, ⟨hcoin, rfl⟩, recipient, _, ⟨hto, rfl⟩,
      amount, _, ⟨hamount, rfl⟩, feeRecipient, _, ⟨hfeeTo, rfl⟩, feeAmount, _, ⟨hfee, rfl⟩, _, _,
      ⟨deadline, rfl, rfl⟩, _, _, ⟨rfl, rfl⟩, rfl, rfl⟩ := hread
    obtain rfl : n = 11 := by omega
    refine ⟨⟨UInt64.ofNat tag, version, chain, vault, asset, tokenType, coinId, recipient, amount,
      feeRecipient, feeAmount, deadline⟩, ?_, ?_, ?_⟩
    · simp only [RawReason.Fits, List.forall_mem_cons, List.not_mem_nil, false_implies,
        implies_true, and_true]
      exact ⟨hvault, hasset, htype, hcoin, hto, hamount, hfeeTo, hfee⟩
    · rw [RawReason.encode_eq, UInt64.toNat_ofNat_of_lt' htag, List.append_nil]
    · rw [RawReason.decoded, UInt64.toNat_ofNat_of_lt' htag]
      rfl
  · rintro ⟨raw, hfits, rfl, rfl⟩
    simp only [RawReason.Fits, List.forall_mem_cons, List.not_mem_nil, false_implies, implies_true,
      and_true] at hfits
    obtain ⟨hvault, hasset, htype, hcoin, hto, hamount, hfeeTo, hfee⟩ := hfits
    refine ⟨raw.decoded, [], ?_, rfl⟩
    simp only [readReason, readTag, readArrayHeader, Reader.run_bind,
      expect_eq_ok (by decide : 6 < 8), expect_eq_ok (by decide : 4 < 8)]
    refine ⟨raw.tag.toNat, _, ⟨raw.encode_eq, raw.tag.toNat_lt⟩, 11, _, ⟨rfl, by decide⟩, ?_⟩
    rw [if_neg (by decide)]
    simp only [Reader.run_bind, readUint_eq_ok, readBytes_eq_ok, finished_eq_ok, Reader.run_pure]
    exact ⟨_, _, ⟨raw.version, rfl, rfl⟩, _, _, ⟨raw.sourceChainId, rfl, rfl⟩, _, _, ⟨hvault, rfl⟩,
      _, _, ⟨hasset, rfl⟩, _, _, ⟨htype, rfl⟩, _, _, ⟨hcoin, rfl⟩, _, _, ⟨hto, rfl⟩, _, _,
      ⟨hamount, rfl⟩, _, _, ⟨hfeeTo, rfl⟩, _, _, ⟨hfee, rfl⟩, _, _,
      ⟨raw.deadline, rfl, (List.append_nil _).symm⟩, (), _, ⟨rfl, rfl⟩, rfl, rfl⟩

/-! ## What the wallet writes -/

theorem cborHead_eq (m : Fin 8) {n : Nat} (hn : n < 2 ^ 64) : cborHead m n = head m n := by
  have hcore := major_eq_head m (UInt64.ofNat n)
  rw [UInt64.toNat_ofNat_of_lt' hn] at hcore
  rw [← hcore]
  have hlead : ∀ m : Fin 8, UInt8.ofNat (m.val <<< 5) = UInt8.ofNat m <<< 5 := by decide
  have hbyte : UInt8.ofInt n = UInt8.ofNat n := UInt8.ofNat_mod_size
  unfold cborHead Core.major
  rw [UInt64.toNat_ofNat_of_lt' hn, hlead, hbyte, Int.toNat_natCast]
  dsimp only
  split_ifs <;> first | rfl | omega

theorem cborBytes_eq {data : Bytes} (h : data.length < 2 ^ 64) :
    cborBytes data = (Item.bytes data).encode :=
  congrArg (· ++ data) (cborHead_eq 2 h)

theorem cborUint_eq (value : UInt64) : cborUint value.toNat = (Item.uint value).encode :=
  cborHead_eq 0 value.toNat_lt

theorem u256beFrom_eq (k n : Nat) (low : Bytes) :
    u256beFrom k n low = (beBytes k n ++ low, ((n / 256 ^ k : Nat) : Int)) := by
  induction k generalizing n low with
  | zero => simp [u256beFrom, beBytes]
  | succ k ih =>
      rw [u256beFrom]
      split
      · have hdiv : (n : Int) / 256 = ((n / 256 : Nat) : Int) := rfl
        have hmod : ((n : Int) % 256).toNat = n % 256 := by omega
        have hbyte : UInt8.ofNat (n % 256) = UInt8.ofNat n := UInt8.ofNat_mod_size
        rw [hdiv, hmod, hbyte, ih, beBytes, Nat.div_div_eq_div_mul, ← pow_succ',
          List.append_assoc]
        rfl
      · obtain rfl : n = 0 := by omega
        simp [beBytes_zero]

/-- **`u256be` writes the numbers of 256 bits**, and throws on others. -/
theorem u256be_eq_ok {n : Int} {word : Bytes} :
    u256be n = .ok word ↔ 0 ≤ n ∧ n < 2 ^ 256 ∧ word = beBytes 32 n.toNat := by
  simp only [u256be, bind_eq_ok, ensure_eq_ok, not_lt, Except.ok.injEq, exists_const]
  constructor
  · rintro ⟨hpos, hrest, rfl⟩
    obtain ⟨m, rfl⟩ := Int.eq_ofNat_of_zero_le hpos
    rw [u256beFrom_eq] at hrest ⊢
    refine ⟨hpos, ?_, by simp⟩
    have hzero : m / 256 ^ 32 = 0 := by
      dsimp only at hrest
      omega
    rcases Nat.div_eq_zero_iff.1 hzero with h | h
    · norm_num at h
    · have hpow : (256 : Nat) ^ 32 = 2 ^ 256 := by norm_num
      rw [hpow] at h
      exact_mod_cast h
  · rintro ⟨hpos, hlt, hword⟩
    obtain ⟨m, rfl⟩ := Int.eq_ofNat_of_zero_le hpos
    have hm : m / 256 ^ 32 = 0 := by
      have hpow : (256 : Nat) ^ 32 = 2 ^ 256 := by norm_num
      rw [hpow]
      exact Nat.div_eq_of_lt (by exact_mod_cast hlt)
    rw [Int.toNat_natCast] at hword
    rw [u256beFrom_eq, hm, List.append_nil]
    exact ⟨hpos, le_refl 0, hword.symm⟩

theorem minimalBe_zeros_append (k : Nat) {data : Bytes} (h : data.head? ≠ some 0) :
    minimalBe (List.replicate k 0 ++ data) = data := by
  induction k with
  | zero =>
      cases data with
      | nil => rfl
      | cons byte rest =>
          have hbyte : (byte == 0) = false := by simpa using h
          simp [minimalBe, hbyte]
  | succ k ih =>
      rw [List.replicate_succ, List.cons_append, minimalBe, List.dropWhile_cons]
      simpa [minimalBe] using ih

theorem minimalBe_head (data : Bytes) : (minimalBe data).head? ≠ some 0 := by
  have h := List.head?_dropWhile_not (fun byte : UInt8 => byte == 0) data
  intro hzero
  rw [minimalBe] at hzero
  rw [hzero] at h
  simp at h

/-- A number without leading zeros, as a word of 32 bytes and back. -/
theorem beBytes_beNat_minimal {data : Bytes} (hlen : data.length ≤ 32) :
    beBytes 32 (beNat data) = List.replicate (32 - data.length) 0 ++ data := by
  have hword : (List.replicate (32 - data.length) 0 ++ data : Bytes).length = 32 := by
    rw [List.length_append, List.length_replicate]
    omega
  have hnat := beBytes_beNat (List.replicate (32 - data.length) 0 ++ data)
  rwa [hword, beNat_zeros_append] at hnat

/-- A reason's config, with the domains it does not hold. -/
def RawReason.config (raw : RawReason) (lockDomain nullifierDomain : Bytes) : BridgeConfig where
  sourceChainId := raw.sourceChainId.toNat
  vault := raw.vault
  asset := raw.asset
  tokenType := raw.tokenType
  coinId := raw.coinId
  reasonTag := raw.tag.toNat
  lockDomain := lockDomain
  nullifierDomain := nullifierDomain

/-- A reason's terms. -/
def RawReason.terms (raw : RawReason) : BridgeBackReason where
  version := raw.version.toNat
  recipient := raw.recipient
  amount := beNat raw.amount
  feeRecipient := raw.feeRecipient
  feeAmount := beNat raw.feeAmount
  deadline := raw.deadline.toNat

/-- A big-endian number of at most 32 bytes without leading zeros. -/
def Minimal (data : Bytes) : Prop := data.length ≤ 32 ∧ data.head? ≠ some 0

theorem Minimal.u256be {data : Bytes} (h : Minimal data) :
    ∃ word, BridgePlugin.u256be (beNat data) = .ok word ∧ minimalBe word = data := by
  have hlt : beNat data < 2 ^ 256 := by
    calc beNat data < 256 ^ data.length := beNat_lt data
      _ ≤ 256 ^ 32 := Nat.pow_le_pow_right (by decide) h.1
      _ = 2 ^ 256 := by norm_num
  refine ⟨beBytes 32 (beNat data), u256be_eq_ok.2 ⟨by omega, by exact_mod_cast hlt, by simp⟩, ?_⟩
  rw [beBytes_beNat_minimal h.1, minimalBe_zeros_append _ h.2]

/-- **Fields with minimal amounts are written as they were read.** -/
theorem encodeBridgeBackReason_raw {raw : RawReason} (hfits : raw.Fits)
    (hamount : Minimal raw.amount) (hfee : Minimal raw.feeAmount)
    (lockDomain nullifierDomain : Bytes) :
    encodeBridgeBackReason (raw.config lockDomain nullifierDomain) raw.terms = .ok raw.encode := by
  obtain ⟨amount, hword, hmin⟩ := hamount.u256be
  obtain ⟨fee, hfeeWord, hfeeMin⟩ := hfee.u256be
  simp only [RawReason.Fits, List.forall_mem_cons, List.not_mem_nil, false_implies, implies_true,
    and_true] at hfits
  obtain ⟨hvault, hasset, htype, hcoin, hto, ham, hfeeTo, hf⟩ := hfits
  have htag : cborTag raw.tag.toNat = head 6 raw.tag.toNat := cborHead_eq 6 raw.tag.toNat_lt
  have harray : cborArrayHeader 11 = head 4 11 := cborHead_eq 4 (by decide)
  simp only [encodeBridgeBackReason, RawReason.terms, RawReason.config, hword, hfeeWord,
    bind_eq_ok, Except.ok.injEq, exists_eq_left', hmin, hfeeMin, raw.encode_eq, htag, harray,
    cborUint_eq, cborBytes_eq hvault, cborBytes_eq hasset, cborBytes_eq htype, cborBytes_eq hcoin,
    cborBytes_eq hto, cborBytes_eq ham, cborBytes_eq hfeeTo, cborBytes_eq hf, List.append_assoc]

end UnicityBridge.BridgePlugin
