import UnicityBridge.Bridge
import UnicityBridge.BridgePlugin
import UnicityBridge.Lib.Hex
import UnicityBridge.Lib.Rounding

/-!
# Lock justifications in the wallet package

`packages/bridge-plugin/src/BridgeLockJustification.ts` and `value.ts`: the lock proof and the value
payload of a bridged mint, as the wallet decodes them. The TypeScript SDK is a parameter,
`CborDeserializer`, assumed to decode what the Rust SDK decodes (`DecodesAlike`).

`lockFields` is what the bytes of a lock justification carry before either decoder's own checks. The
wallet's decoder rounds the chain id and refuses a zero amount (`fromCBOR_eq_ok`); the circuit's wants
addresses and transaction ids of the right width (`fromCborBytes_eq_ok`).
-/

set_option autoImplicit false

namespace UnicityBridge.Bridge

/-- The tag of a lock justification that the prover is given. -/
def TRON_USDT_LOCK_JUSTIFICATION_TAG : UInt64 := 1330002

end UnicityBridge.Bridge

namespace UnicityBridge.BridgePlugin

open UnicityBridge.Lib UnicityBridge.TokenSdk

/-! ## Numbers -/

/-- A non-negative integral `number`: a value that a double stores. -/
@[ext] structure JsNumber where
  value : Nat
  exact : roundBits 53 value = value
  deriving DecidableEq

/-- `Number()` of a `bigint`. -/
def Number (n : Nat) : JsNumber := ⟨roundBits 53 n, roundBits_roundBits (by decide) n⟩

theorem Number_eq_iff {n : Nat} {x : JsNumber} : Number n = x ↔ roundBits 53 n = x.value :=
  JsNumber.ext_iff

/-- A number below `2 ^ 53` comes from one `bigint` only. -/
theorem Number_eq_of_lt {n : Nat} {x : JsNumber} (hx : x.value < 2 ^ 53) :
    Number n = x ↔ n = x.value := by
  rw [Number_eq_iff, roundBits_eq_iff_of_lt (by decide) hx]

theorem Number_value (x : JsNumber) : Number x.value = x := Number_eq_iff.2 x.exact

/-! ## The SDK -/

/-- The decoders of the TypeScript SDK that the wallet package calls. Items are slices. -/
structure CborDeserializer where
  decodeTag : Bytes → Result (Nat × Bytes)
  decodeArray : Bytes → Nat → Result (List Bytes)
  decodeUnsignedInteger : Bytes → Result Nat
  decodeByteString : Bytes → Result Bytes
  isNull : Bytes → Bool
  paymentFromCBOR : Bytes → Result PaymentAssetCollection
  splitFromCBOR : Bytes → Result SplitMintJustification

/-- The two SDKs accept the same bytes and decode them alike. -/
structure DecodesAlike (sdk : Sdk) (ts : CborDeserializer) : Prop where
  tag : ∀ bytes number inner, ts.decodeTag bytes = .ok (number, inner) ↔
    sdk.finish bytes = some () ∧ ∃ tag : UInt64, tag.toNat = number ∧
      sdk.expectTag bytes tag = some inner
  array : ∀ bytes count items, ts.decodeArray bytes count = .ok items ↔
    sdk.array bytes count = some items
  uint : ∀ bytes value, ts.decodeUnsignedInteger bytes = .ok value ↔
    ∃ n : UInt64, n.toNat = value ∧ sdk.uint bytes = some n
  bytes : ∀ bytes data, ts.decodeByteString bytes = .ok data ↔ sdk.bytesValue bytes = some data
  null : ∀ bytes, ts.isNull bytes = sdk.isNull bytes
  payment : ∀ bytes assets, ts.paymentFromCBOR bytes = .ok assets ↔
    sdk.paymentFromCbor bytes = some assets
  split : ∀ bytes justification, ts.splitFromCBOR bytes = .ok justification ↔
    sdk.splitFromCbor bytes = some justification

/-! ## Manifests -/

/-- A manifest's trust anchors and identifiers. Addresses are lower-case hex. -/
structure ResolvedBridgeConfig where
  chainId : JsNumber
  lockContractHex : String
  assetContractHex : String
  confirmations : Nat
  tokenType : Bytes
  coinId : Bytes

/-- The manifest is the one of the bridge with this config. The loader checks the config hash. -/
structure ResolvedBridgeConfig.Describes (cfg : ResolvedBridgeConfig) (config : Bridge.BridgeConfig) :
    Prop where
  chainId : cfg.chainId.value = config.sourceChainId.toNat
  lockContract : cfg.lockContractHex = hexEncode config.vault.toList
  assetContract : cfg.assetContractHex = hexEncode config.asset.toList
  tokenType : cfg.tokenType = config.tokenType.toList
  coinId : cfg.coinId = config.coinId.toList

/-- `String.prototype.toLowerCase`, on ASCII. -/
def toLowerCase (text : String) : String := String.ofList (text.toList.map Char.toLower)

theorem toLowerCase_hexEncode (bytes : Bytes) : toLowerCase (hexEncode bytes) = hexEncode bytes := by
  rw [toLowerCase, hexEncode, String.toList_ofList, hexChars_toLower]

section Decoders

variable (ts : CborDeserializer)

/-! ## Lock justifications -/

/-- CBOR tag of a lock justification. -/
def BRIDGE_LOCK_JUSTIFICATION_TAG : Nat := 1330002

/-- The only version of a lock justification. -/
def VERSION : Nat := 1

/-- Largest amount of a lock, the width of the vault's event and of the wire. -/
def MAX_LOCK_AMOUNT : Int := 2 ^ 64 - 1

/-- The bounds of a locked amount. -/
def assertLockAmount (amount : Int) : Result Unit := do
  ensure (¬ amount ≤ 0) s!"bridge lock amount must be positive, got {amount}"
  ensure (¬ MAX_LOCK_AMOUNT < amount)
    s!"bridge lock amount {amount} exceeds uint64, the width the mint justification carries"

theorem assertLockAmount_eq_ok {amount : Int} :
    assertLockAmount amount = .ok () ↔ 0 < amount ∧ amount ≤ MAX_LOCK_AMOUNT := by
  simp only [assertLockAmount, bind_eq_ok, ensure_eq_ok, exists_const, not_le, not_lt]

/-- The fields of a lock justification, before the amount is checked. -/
structure BridgeLockJustificationData where
  chainId : JsNumber
  lockContract : Bytes
  assetContract : Bytes
  txid : Bytes
  logIndex : JsNumber
  amount : Int
  nonce : Int
  deriving DecidableEq

/-- The constructor throws on an amount that a lock cannot carry. -/
structure BridgeLockJustification where
  data : BridgeLockJustificationData
  checked : assertLockAmount data.amount = .ok ()
  deriving DecidableEq

namespace BridgeLockJustification

/-- The checked constructor. -/
def create (data : BridgeLockJustificationData) : Result BridgeLockJustification :=
  match h : assertLockAmount data.amount with
  | .ok () => .ok ⟨data, h⟩
  | .error message => .error message

theorem create_eq_ok {data : BridgeLockJustificationData} {lock : BridgeLockJustification} :
    create data = .ok lock ↔ lock.data = data := by
  unfold create
  split
  · next h =>
    constructor
    · intro heq
      cases heq
      rfl
    · rintro rfl
      rfl
  · next h =>
    constructor
    · intro heq
      cases heq
    · rintro rfl
      rw [lock.checked] at h
      cases h

/-- The decoding of a justification, which the constructor checks once more. -/
def fromCBOR (bytes : Bytes) : Result BridgeLockJustification := do
  let (tag, data) ← ts.decodeTag bytes
  ensure (tag = BRIDGE_LOCK_JUSTIFICATION_TAG)
    s!"Invalid CBOR tag for BridgeLockJustification: {tag}"
  match ← ts.decodeArray data 8 with
  | [version, chainId, lockContract, assetContract, txid, logIndex, amount, nonce] => do
      let version ← ts.decodeUnsignedInteger version
      ensure (version = VERSION) s!"Unsupported BridgeLockJustification version: {version}"
      let chainId ← ts.decodeUnsignedInteger chainId
      let lockContract ← ts.decodeByteString lockContract
      let assetContract ← ts.decodeByteString assetContract
      let txid ← ts.decodeByteString txid
      let logIndex ← ts.decodeUnsignedInteger logIndex
      let amount ← ts.decodeUnsignedInteger amount
      let nonce ← ts.decodeUnsignedInteger nonce
      create {
        chainId := Number chainId
        lockContract, assetContract, txid
        logIndex := Number logIndex
        amount, nonce }
  -- `decodeArray` checks the number of items
  | _ => .error "invalid array length"

end BridgeLockJustification

/-! ## Value payloads -/

/-- The amount that a token's value payload declares for a coin. The `catch` makes every error of the
decoders `null`. -/
def decodeBridgePaymentData (data : Option Bytes) (coinId : Bytes) : Option Nat := do
  let data ← data
  let (tag, inner) ← (ts.decodeTag data).toOption
  if tag ≠ Bridge.WALLET_VALUE_TAG.toNat then none
  else
    match ← (ts.decodeArray inner 3).toOption with
    | [version, assets, memo] => do
        if (← (ts.decodeUnsignedInteger version).toOption) ≠ Bridge.WALLET_VALUE_VERSION.toNat then
          none
        else
          if ¬ ts.isNull memo then
            let _ ← (ts.decodeByteString memo).toOption
          let collection ← (ts.paymentFromCBOR assets).toOption
          (collection.get coinId).map Asset.value
    | _ => none

end Decoders

/-! ## What both decoders read -/

/-- The fields that a lock justification carries. -/
structure LockFields where
  sourceChainId : UInt64
  vault : Bytes
  asset : Bytes
  txid : Bytes
  logIndex : UInt64
  amount : UInt64
  nonce : UInt64

/-- The bytes are a lock justification under the tag with these fields. -/
structure Carries (sdk : Sdk) (tag : UInt64) (bytes : Bytes) (f : LockFields) : Prop where
  finish : sdk.finish bytes = some ()
  items : ∃ inner version chain vault asset txid logIndex amount nonce,
    sdk.expectTag bytes tag = some inner ∧
    sdk.array inner 8 = some [version, chain, vault, asset, txid, logIndex, amount, nonce] ∧
    sdk.uint version = some Bridge.BRIDGE_LOCK_JUSTIFICATION_VERSION ∧
    sdk.uint chain = some f.sourceChainId ∧ sdk.bytesValue vault = some f.vault ∧
    sdk.bytesValue asset = some f.asset ∧ sdk.bytesValue txid = some f.txid ∧
    sdk.uint logIndex = some f.logIndex ∧ sdk.uint amount = some f.amount ∧
    sdk.uint nonce = some f.nonce

/-- The circuit's justification as it is carried. -/
def LockFields.ofCore (j : Bridge.BridgeLockJustification) : LockFields :=
  ⟨j.sourceChainId, j.vault.toList, j.asset.toList, j.txid.toList, j.logIndex, j.amount, j.nonce⟩

/-- The wallet's view of what is carried. -/
def LockFields.data (f : LockFields) : BridgeLockJustificationData where
  chainId := Number f.sourceChainId.toNat
  lockContract := f.vault
  assetContract := f.asset
  txid := f.txid
  logIndex := Number f.logIndex.toNat
  amount := f.amount.toNat
  nonce := f.nonce.toNat

/-- A positive 64-bit amount passes the check of the wallet's constructor. -/
theorem LockFields.checked_iff {f : LockFields} :
    assertLockAmount f.data.amount = .ok () ↔ f.amount ≠ 0 := by
  have hlt := f.amount.toNat_lt
  have hzero : f.amount ≠ 0 ↔ f.amount.toNat ≠ 0 := not_congr UInt64.toNat_inj.symm
  rw [assertLockAmount_eq_ok, hzero]
  show (0 : Int) < f.amount.toNat ∧ (f.amount.toNat : Int) ≤ 2 ^ 64 - 1 ↔ _
  omega

/-- Fields of the right widths are those of a justification of the circuit. -/
theorem LockFields.exists_core {f : LockFields} (hvault : f.vault.length = 20)
    (hasset : f.asset.length = 20) (htxid : f.txid.length = 32) :
    ∃ j, f = LockFields.ofCore j :=
  ⟨⟨f.sourceChainId, ⟨f.vault, hvault⟩, ⟨f.asset, hasset⟩, ⟨f.txid, htxid⟩, f.logIndex, f.amount,
    f.nonce⟩, rfl⟩

section Agreement

variable {sdk : Sdk} {ts : CborDeserializer} {tag : UInt64} {bytes : Bytes}

theorem Carries.unique {f g : LockFields} (hf : Carries sdk tag bytes f)
    (hg : Carries sdk tag bytes g) : f = g := by
  obtain ⟨inner, _, _, _, _, _, _, _, _, htag, harray, -, h1, h2, h3, h4, h5, h6, h7⟩ := hf.items
  obtain ⟨inner', _, _, _, _, _, _, _, _, htag', harray', -, g1, g2, g3, g4, g5, g6, g7⟩ := hg.items
  obtain rfl : inner = inner' := Option.some.inj (htag.symm.trans htag')
  rw [harray] at harray'
  simp only [Option.some.injEq, List.cons.injEq, and_true] at harray'
  obtain ⟨rfl, rfl, rfl, rfl, rfl, rfl, rfl, rfl⟩ := harray'
  cases f
  cases g
  simp_all

/-- **What the circuit decodes.** -/
theorem fromCborBytes_eq_ok {j : Bridge.BridgeLockJustification} :
    Bridge.BridgeLockJustification.fromCborBytes sdk bytes tag = .ok j ↔
      Carries sdk tag bytes (.ofCore j) := by
  have hbytes {n : Nat} {error : Verify.BridgeExtError} {item : Bytes} {value : ByteArr n} :
      Bridge.bytesN sdk n error item = .ok value ↔ sdk.bytesValue item = some value.toList := by
    simp only [Bridge.bytesN, bind_eq_ok, okOr_eq_ok, toByteArr_eq_some]
    constructor
    · rintro ⟨data, hdata, rfl⟩
      exact hdata
    · intro h
      exact ⟨_, h, rfl⟩
  unfold Bridge.BridgeLockJustification.fromCborBytes
  simp only [bind_eq_ok, okOr_eq_ok]
  constructor
  · rintro ⟨_, hfinish, inner, htag, items, harray, h⟩
    split at h
    · next version chain vault asset txid logIndex amount nonce =>
      simp only [Bridge.uintItem, bind_eq_ok, okOr_eq_ok, ensure_eq_ok, hbytes,
        Except.ok.injEq] at h
      obtain ⟨_, hversion, _, rfl, _, h1, _, h2, _, h3, _, h4, _, h5, _, h6, _, h7, rfl⟩ := h
      exact ⟨hfinish, inner, version, chain, vault, asset, txid, logIndex, amount, nonce, htag,
        harray, hversion, h1, h2, h3, h4, h5, h6, h7⟩
    · cases h
  · rintro ⟨hfinish, inner, version, chain, vault, asset, txid, logIndex, amount, nonce, htag, harray,
      hversion, h1, h2, h3, h4, h5, h6, h7⟩
    refine ⟨(), hfinish, inner, htag, _, harray, ?_⟩
    simp only [Bridge.uintItem, bind_eq_ok, okOr_eq_ok, ensure_eq_ok, hbytes, Except.ok.injEq]
    exact ⟨_, hversion, (), rfl, _, h1, _, h2, _, h3, _, h4, _, h5, _, h6, _, h7, rfl⟩

/-- **What the wallet decodes.** -/
theorem fromCBOR_eq_ok (halike : DecodesAlike sdk ts) {lock : BridgeLockJustification} :
    BridgeLockJustification.fromCBOR ts bytes = .ok lock ↔
      ∃ f, Carries sdk Bridge.TRON_USDT_LOCK_JUSTIFICATION_TAG bytes f ∧ lock.data = f.data := by
  unfold BridgeLockJustification.fromCBOR
  simp only [bind_eq_ok, ensure_eq_ok, Prod.exists]
  constructor
  · rintro ⟨number, inner, htag, _, rfl, items, harray, h⟩
    obtain ⟨hfinish, tag, htag, hinner⟩ := (halike.tag _ _ _).1 htag
    obtain rfl : tag = Bridge.TRON_USDT_LOCK_JUSTIFICATION_TAG := UInt64.toNat_inj.1 htag
    split at h
    · next version chain vault asset txid logIndex amount nonce =>
      simp only [bind_eq_ok, ensure_eq_ok, halike.uint, halike.bytes] at h
      obtain ⟨_, ⟨v, rfl, hversion⟩, _, hone, _, ⟨n1, rfl, h1⟩, data2, h2, data3, h3, data4, h4, _,
        ⟨n5, rfl, h5⟩, _, ⟨n6, rfl, h6⟩, _, ⟨n7, rfl, h7⟩, hcreate⟩ := h
      obtain rfl : v = Bridge.BRIDGE_LOCK_JUSTIFICATION_VERSION := UInt64.toNat_inj.1 hone
      exact ⟨⟨n1, data2, data3, data4, n5, n6, n7⟩,
        ⟨hfinish, inner, version, chain, vault, asset, txid, logIndex, amount, nonce, hinner,
          (halike.array _ _ _).1 harray, hversion, h1, h2, h3, h4, h5, h6, h7⟩,
        (BridgeLockJustification.create_eq_ok.1 hcreate)⟩
    · cases h
  · rintro ⟨f, hf, hdata⟩
    obtain ⟨inner, version, chain, vault, asset, txid, logIndex, amount, nonce, htag, harray,
      hversion, h1, h2, h3, h4, h5, h6, h7⟩ := hf.items
    refine ⟨_, inner, (halike.tag _ _ _).2 ⟨hf.finish, _, rfl, htag⟩, (), rfl, _,
      (halike.array _ _ _).2 harray, ?_⟩
    simp only [bind_eq_ok, ensure_eq_ok, halike.uint, halike.bytes]
    exact ⟨_, ⟨_, rfl, hversion⟩, (), rfl, _, ⟨_, rfl, h1⟩, _, h2, _, h3, _, h4, _, ⟨_, rfl, h5⟩, _,
      ⟨_, rfl, h6⟩, _, ⟨_, rfl, h7⟩, BridgeLockJustification.create_eq_ok.2 hdata⟩

/-- What a value payload is to the circuit. -/
theorem decodeBridgedPaymentData_eq_some {assets : PaymentAssetCollection} :
    Bridge.decodeBridgedPaymentData sdk bytes = some assets ↔
      sdk.finish bytes = some () ∧ ∃ inner version collection memo,
        sdk.expectTag bytes Bridge.WALLET_VALUE_TAG = some inner ∧
        sdk.array inner 3 = some [version, collection, memo] ∧
        sdk.uint version = some Bridge.WALLET_VALUE_VERSION ∧
        sdk.paymentFromCbor collection = some assets ∧
        (sdk.isNull memo = true ∨ ∃ data, sdk.bytesValue memo = some data) := by
  unfold Bridge.decodeBridgedPaymentData
  simp only [Option.bind_eq_bind, Option.bind_eq_some_iff, ite_not]
  constructor
  · rintro ⟨_, hfinish, inner, htag, items, harray, h⟩
    split at h
    · next version collection memo =>
      simp only [Option.bind_eq_some_iff] at h
      obtain ⟨v, hversion, h⟩ := h
      split at h
      · next hone =>
        subst hone
        obtain ⟨found, hfound, h⟩ := Option.bind_eq_some_iff.1 h
        refine ⟨hfinish, inner, version, collection, memo, htag, harray, hversion, ?_⟩
        split at h
        · next hnull =>
          cases h
          exact ⟨hfound, .inl hnull⟩
        · obtain ⟨data, hdata, rfl⟩ := Option.map_eq_some_iff.1 h
          exact ⟨hfound, .inr ⟨data, hdata⟩⟩
      · cases h
    · cases h
  · rintro ⟨hfinish, inner, version, collection, memo, htag, harray, hversion, hfound, hmemo⟩
    refine ⟨(), hfinish, inner, htag, _, harray, ?_⟩
    simp only [hversion, hfound, Option.bind_some, if_true]
    rcases hmemo with hnull | ⟨data, hdata⟩
    · rw [if_pos hnull]
    · rw [hdata, Option.map_some, ite_self]

/-- **The amount that the wallet reads is the circuit's.** -/
theorem decodeBridgePaymentData_eq_some (halike : DecodesAlike sdk ts) {data : Option Bytes}
    {coinId : Bytes} {amount : Nat} :
    decodeBridgePaymentData ts data coinId = some amount ↔
      ∃ bytes assets asset, data = some bytes ∧
        Bridge.decodeBridgedPaymentData sdk bytes = some assets ∧
        assets.get coinId = some asset ∧ asset.value = amount := by
  have hok {α : Type} {x : Result α} {a : α} : x.toOption = some a ↔ x = .ok a := by
    cases x <;> simp [Except.toOption]
  unfold decodeBridgePaymentData
  simp only [decodeBridgedPaymentData_eq_some, Option.bind_eq_bind, Option.bind_eq_some_iff,
    Prod.exists, hok]
  constructor
  -- left to right: each item read from TypeScript is one that the SDK reads alike
  · rintro ⟨bytes, rfl, number, inner, htag, h⟩
    obtain ⟨hfinish, tag, rfl, hinner⟩ := (halike.tag _ _ _).1 htag
    split at h
    · cases h
    next htag =>
    obtain rfl : tag = Bridge.WALLET_VALUE_TAG := UInt64.toNat_inj.1 (not_not.1 htag)
    obtain ⟨items, harray, h⟩ := Option.bind_eq_some_iff.1 h
    rw [hok, halike.array] at harray
    split at h
    · next version collection memo =>
      obtain ⟨v, hversion, h⟩ := Option.bind_eq_some_iff.1 h
      rw [hok, halike.uint] at hversion
      obtain ⟨v, rfl, hversion⟩ := hversion
      split at h
      · cases h
      next hone =>
      obtain rfl : v = Bridge.WALLET_VALUE_VERSION := UInt64.toNat_inj.1 (not_not.1 hone)
      have hfound (h : ((ts.paymentFromCBOR collection).toOption.bind fun assets =>
            (assets.get coinId).map Asset.value) = some amount) :
          ∃ assets asset, sdk.paymentFromCbor collection = some assets ∧
            assets.get coinId = some asset ∧ asset.value = amount := by
        simpa only [Option.bind_eq_some_iff, Option.map_eq_some_iff, hok, halike.payment,
          exists_and_left] using h
      -- a memo that is not null is decoded first
      split at h
      · obtain ⟨_, hmemo, h⟩ := Option.bind_eq_some_iff.1 h
        rw [hok, halike.bytes] at hmemo
        obtain ⟨assets, asset, hassets, hget⟩ := hfound h
        exact ⟨bytes, assets, asset, rfl, ⟨hfinish, inner, version, collection, memo, hinner, harray,
          hversion, hassets, .inr ⟨_, hmemo⟩⟩, hget⟩
      · next hnull =>
        rw [not_not, halike.null] at hnull
        obtain ⟨assets, asset, hassets, hget⟩ := hfound h
        exact ⟨bytes, assets, asset, rfl, ⟨hfinish, inner, version, collection, memo, hinner, harray,
          hversion, hassets, .inl hnull⟩, hget⟩
    · cases h
  -- right to left: replay the same reads in TypeScript
  · rintro ⟨bytes, assets, asset, rfl, ⟨hfinish, inner, version, collection, memo, htag, harray,
      hversion, hassets, hmemo⟩, hget, rfl⟩
    refine ⟨bytes, rfl, _, inner, (halike.tag _ _ _).2 ⟨hfinish, _, rfl, htag⟩, ?_⟩
    rw [if_neg (not_not.2 rfl)]
    have htaken : ((ts.paymentFromCBOR collection).toOption.bind fun assets =>
        (assets.get coinId).map Asset.value) = some asset.value := by
      rw [hok.2 ((halike.payment _ _).2 hassets), Option.bind_some, hget, Option.map_some]
    rw [hok.2 ((halike.array _ _ _).2 harray), Option.bind_some]
    dsimp only
    rw [hok.2 ((halike.uint _ _).2 ⟨_, rfl, hversion⟩), Option.bind_some, if_neg (not_not.2 rfl),
      htaken, halike.null]
    rcases hmemo with hnull | ⟨data, hdata⟩
    · rw [if_neg (not_not.2 hnull)]
    · rw [hok.2 ((halike.bytes _ _).2 hdata), Option.bind_some, ite_self]

end Agreement

end UnicityBridge.BridgePlugin
