import UnicityBridge.GuestSound
import UnicityBridge.PluginReason
import Mathlib.Data.List.TakeWhile

/-!
# One reason grammar in two languages

`decode_bridge_back_reason` of the guest accepts exactly what `reason_cbor` writes
(`decodeReason_eq_ok`). The wallet's `decodeBridgeBackReason` calls itself the same strict decode, but
it checks neither the widths of the byte strings nor that the amounts are minimal. The two agree on a
byte string exactly when it is not a reason with such a field (`reason_grammar`).
-/

set_option autoImplicit false

namespace UnicityBridge.ReasonGrammar

open UnicityBridge.Lib UnicityBridge.Lib.Cbor UnicityBridge.TokenSdk
open UnicityBridge.BridgePlugin (RawReason Minimal)

/-! ## The guest's decoder -/

/-- A decoded reason as it is written. -/
def rawOf (tag : UInt64) (reason : Guest.DecodedBridgeBackReason) : RawReason where
  tag := tag
  version := reason.version
  sourceChainId := reason.sourceChainId
  vault := reason.vault.toList
  asset := reason.asset.toList
  tokenType := reason.tokenType.toList
  coinId := reason.coinId.toList
  recipient := reason.recipient.toList
  amount := Core.minimalBe reason.amount
  feeRecipient := reason.feeRecipient.toList
  feeAmount := Core.minimalBe reason.feeAmount
  deadline := reason.deadline

/-- The config fields of a decoded reason, with the domains it does not hold. -/
def configOf (tag : UInt64) (reason : Guest.DecodedBridgeBackReason)
    (lockDomain nullifierDomain : Bytes32) : Core.BridgeConfig where
  sourceChainId := reason.sourceChainId
  vault := reason.vault
  asset := reason.asset
  tokenType := reason.tokenType
  coinId := reason.coinId
  reasonTag := tag
  lockDomain := lockDomain
  nullifierDomain := nullifierDomain

/-- The terms of a decoded reason. -/
def termsOf (reason : Guest.DecodedBridgeBackReason) : Core.BridgeBackReason where
  version := reason.version
  recipient := reason.recipient
  amount := reason.amount
  feeRecipient := reason.feeRecipient
  feeAmount := reason.feeAmount
  deadline := reason.deadline

theorem minimalBe_length (word : Bytes32) : (Core.minimalBe word).length ≤ 32 := by
  have h := List.length_dropWhile_le (fun byte : UInt8 => byte == 0) word.toList
  rwa [word.toList_length] at h

theorem minimal_minimalBe (word : Bytes32) : Minimal (Core.minimalBe word) :=
  ⟨minimalBe_length word, BridgePlugin.minimalBe_head word.toList⟩

/-- A word is its minimal bytes behind zeros. -/
theorem zeros_minimalBe (word : Bytes32) :
    List.replicate (32 - (Core.minimalBe word).length) 0 ++ Core.minimalBe word = word.toList := by
  have hnat : beNat (Core.minimalBe word) = beNat word.toList := by
    have hsplit := @List.takeWhile_append_dropWhile _ (fun byte : UInt8 => byte == 0) word.toList
    have hzeros : ∀ byte ∈ word.toList.takeWhile (fun byte => byte == 0), byte = 0 := by
      intro byte hbyte
      simpa using List.mem_takeWhile_imp hbyte
    rw [← hsplit, List.eq_replicate_of_mem hzeros, beNat_zeros_append]
    rfl
  have hword := BridgePlugin.beBytes_beNat_minimal (minimalBe_length word)
  have hself := beBytes_beNat word.toList
  rw [word.toList_length] at hself
  rw [← hword, hnat, hself]

theorem fits_rawOf (tag : UInt64) (reason : Guest.DecodedBridgeBackReason) :
    (rawOf tag reason).Fits := by
  have hamount := minimalBe_length reason.amount
  have hfee := minimalBe_length reason.feeAmount
  simp only [RawReason.Fits, rawOf, List.forall_mem_cons, List.not_mem_nil, false_implies,
    implies_true, and_true, List.Vector.toList_length]
  omega

/-- **`reason_cbor` writes a reason as the CBOR item.** -/
theorem reasonCbor_eq (tag : UInt64) (reason : Guest.DecodedBridgeBackReason)
    (lockDomain nullifierDomain : Bytes32) :
    Core.reasonCbor (configOf tag reason lockDomain nullifierDomain) (termsOf reason) =
      (rawOf tag reason).encode := by
  have hfits := fits_rawOf tag reason
  simp only [RawReason.Fits, rawOf, List.forall_mem_cons, List.not_mem_nil, false_implies,
    implies_true, and_true] at hfits
  obtain ⟨hvault, hasset, htype, hcoin, hto, hamount, hfeeTo, hfee⟩ := hfits
  have htag : Core.cborTag tag = head 6 tag.toNat := major_eq_head 6 tag
  have harray : Core.arrayHeader 11 = head 4 11 := major_eq_head 4 11
  have huint (value : UInt64) : Core.cborUint value = (Item.uint value).encode :=
    major_eq_head 0 value
  rw [RawReason.encode_eq]
  simp only [Core.reasonCbor, configOf, termsOf, rawOf, htag, harray, huint, cborBytes_eq hvault,
    cborBytes_eq hasset, cborBytes_eq htype, cborBytes_eq hcoin, cborBytes_eq hto,
    cborBytes_eq hamount, cborBytes_eq hfeeTo, cborBytes_eq hfee,
    List.append_assoc]

section Guest

variable {sdk : Sdk} (hstrict : StrictCbor sdk)

include hstrict

theorem uint_eq_ok {item : Bytes} (h : sdk.finish item = some ()) {value : UInt64} :
    Guest.uint sdk item = .ok value ↔ item = (Item.uint value).encode := by
  rw [Guest.uint, okOr_eq_ok, hstrict.uint item h]

theorem bytesN_eq_ok {n : Nat} (hn : n < 2 ^ 64) {item : Bytes} (h : sdk.finish item = some ())
    {value : ByteArr n} :
    Guest.bytesN sdk n item = .ok value ↔ item = (Item.bytes value.toList).encode := by
  simp only [Guest.bytesN, bind_eq_ok, okOr_eq_ok, hstrict.bytesValue item h,
    toByteArr_eq_some]
  constructor
  · rintro ⟨data, ⟨-, hitem⟩, rfl⟩
    exact hitem
  · intro hitem
    exact ⟨value.toList, ⟨by rwa [value.toList_length], hitem⟩, rfl⟩

/-- Only minimal amounts are accepted. -/
theorem u256Bstr_eq_ok {item : Bytes} (h : sdk.finish item = some ()) {word : Core.U256} :
    Guest.u256Bstr sdk item = .ok word ↔ item = (Item.bytes (Core.minimalBe word)).encode := by
  simp only [Guest.u256Bstr, bind_eq_ok, okOr_eq_ok, ensure_eq_ok, hstrict.bytesValue item h,
    toByteArr_eq_some, exists_const]
  constructor
  · rintro ⟨data, ⟨-, rfl⟩, ⟨-, hhead⟩, hword⟩
    have hmin : Core.minimalBe word = data := by
      show BridgePlugin.minimalBe word.toList = data
      rw [hword, BridgePlugin.minimalBe_zeros_append _ hhead]
    rw [hmin]
  · rintro rfl
    have hlen := minimalBe_length word
    exact ⟨Core.minimalBe word, ⟨by omega, rfl⟩, minimal_minimalBe word,
      (zeros_minimalBe word).symm⟩

/-- **The guest accepts exactly what `reason_cbor` writes.** -/
theorem decodeReason_eq_ok {tag : UInt64} {data : Bytes}
    {reason : Guest.DecodedBridgeBackReason} :
    Guest.decodeBridgeBackReason sdk tag data = .ok reason ↔ data = (rawOf tag reason).encode := by
  simp only [Guest.decodeBridgeBackReason, bind_eq_ok, okOr_eq_ok]
  constructor
  -- eleven items behind the tag, each the encoding of its field
  · rintro ⟨_, hfinish, inner, htag, items, harray, h⟩
    have hinner := hstrict.finish_inner data hfinish tag inner htag
    obtain ⟨-, -, rfl, hitems⟩ := (hstrict.array inner hinner 11 items).1 harray
    obtain rfl := (hstrict.expectTag data hfinish tag _).1 htag
    split at h
    · simp only [List.forall_mem_cons, List.not_mem_nil, false_implies, implies_true,
        and_true] at hitems
      obtain ⟨h0, h1, h2, h3, h4, h5, h6, h7, h8, h9, h10⟩ := hitems
      simp only [bind_eq_ok, uint_eq_ok hstrict h0, uint_eq_ok hstrict h1,
        bytesN_eq_ok hstrict (by decide : 20 < 2 ^ 64) h2,
        bytesN_eq_ok hstrict (by decide : 20 < 2 ^ 64) h3,
        bytesN_eq_ok hstrict (by decide : 32 < 2 ^ 64) h4,
        bytesN_eq_ok hstrict (by decide : 32 < 2 ^ 64) h5,
        bytesN_eq_ok hstrict (by decide : 20 < 2 ^ 64) h6, u256Bstr_eq_ok hstrict h7,
        bytesN_eq_ok hstrict (by decide : 20 < 2 ^ 64) h8, u256Bstr_eq_ok hstrict h9,
        uint_eq_ok hstrict h10, Except.ok.injEq] at h
      obtain ⟨version, rfl, chain, rfl, vault, rfl, asset, rfl, tokenType, rfl, coinId, rfl,
        recipient, rfl, amount, rfl, feeRecipient, rfl, feeAmount, rfl, deadline, rfl, rfl⟩ := h
      rw [RawReason.encode_eq]
      simp [rawOf]
    · cases h
  -- the encoding of the reason is one strict item, so every read finds its field
  · rintro rfl
    have hfits := BridgePlugin.RawReason.fits_items (fits_rawOf tag reason)
    have hfields : ∀ item ∈ (rawOf tag reason).items, TokenSdk.IsField item := by
      simp [RawReason.items, TokenSdk.IsField]
    have hfinish : sdk.finish (rawOf tag reason).encode = some () :=
      hstrict.finish_tagged tag _ hfields hfits
    have htag : sdk.expectTag (rawOf tag reason).encode tag =
        some (Item.array (rawOf tag reason).items).encode :=
      (hstrict.expectTag _ hfinish tag _).2 rfl
    have hinner := hstrict.finish_inner _ hfinish tag _ htag
    have hitems : ∀ item ∈ (rawOf tag reason).items.map Item.encode,
        sdk.finish item = some () := by
      intro slice hslice
      obtain ⟨item, hitem, rfl⟩ := List.mem_map.1 hslice
      cases hfits with
      | array _ hall => exact hstrict.finish_field item (hfields item hitem) (hall item hitem)
    refine ⟨(), hfinish, _, htag, (rawOf tag reason).items.map Item.encode, ?_, ?_⟩
    · refine (hstrict.array _ hinner 11 _).2 ⟨rfl, by decide, ?_, hitems⟩
      rw [Item.encode, encodeAll_eq]
      rfl
    · simp only [RawReason.items, List.map_cons, List.map_nil, List.forall_mem_cons,
        List.not_mem_nil, false_implies, implies_true, and_true] at hitems ⊢
      obtain ⟨h0, h1, h2, h3, h4, h5, h6, h7, h8, h9, h10⟩ := hitems
      simp only [bind_eq_ok, uint_eq_ok hstrict h0, uint_eq_ok hstrict h1,
        bytesN_eq_ok hstrict (by decide : 20 < 2 ^ 64) h2,
        bytesN_eq_ok hstrict (by decide : 20 < 2 ^ 64) h3,
        bytesN_eq_ok hstrict (by decide : 32 < 2 ^ 64) h4,
        bytesN_eq_ok hstrict (by decide : 32 < 2 ^ 64) h5,
        bytesN_eq_ok hstrict (by decide : 20 < 2 ^ 64) h6, u256Bstr_eq_ok hstrict h7,
        bytesN_eq_ok hstrict (by decide : 20 < 2 ^ 64) h8, u256Bstr_eq_ok hstrict h9,
        uint_eq_ok hstrict h10]
      exact ⟨_, rfl, _, rfl, _, rfl, _, rfl, _, rfl, _, rfl, _, rfl, _, rfl, _, rfl, _, rfl, _, rfl,
        rfl⟩

end Guest

/-! ## Agreement -/

/-- The widths and minimal amounts that the guest checks. -/
structure Canonical (raw : RawReason) : Prop where
  vault : raw.vault.length = 20
  asset : raw.asset.length = 20
  tokenType : raw.tokenType.length = 32
  coinId : raw.coinId.length = 32
  recipient : raw.recipient.length = 20
  amount : Minimal raw.amount
  feeRecipient : raw.feeRecipient.length = 20
  feeAmount : Minimal raw.feeAmount

/-- The byte string is not a reason with a byte string of the wrong width or an amount that is not
minimal. -/
def WellFormed (data : Bytes) : Prop :=
  ∀ raw : RawReason, raw.Fits → data = raw.encode → Canonical raw

/-- Both decoders found the same eleven fields. -/
structure SameFields (wallet : BridgePlugin.DecodedBridgeBackReason)
    (guest : Guest.DecodedBridgeBackReason) : Prop where
  version : wallet.version = guest.version.toNat
  sourceChainId : wallet.sourceChainId = guest.sourceChainId.toNat
  vault : wallet.vault = guest.vault.toList
  asset : wallet.asset = guest.asset.toList
  tokenType : wallet.tokenType = guest.tokenType.toList
  coinId : wallet.coinId = guest.coinId.toList
  recipient : wallet.recipient = guest.recipient.toList
  amount : wallet.amount = guest.amount.toNat
  feeRecipient : wallet.feeRecipient = guest.feeRecipient.toList
  feeAmount : wallet.feeAmount = guest.feeAmount.toNat
  deadline : wallet.deadline = guest.deadline.toNat

/-- The config fields of what the wallet decoded. -/
def walletConfig (reason : BridgePlugin.DecodedBridgeBackReason)
    (lockDomain nullifierDomain : Bytes) : BridgePlugin.BridgeConfig where
  sourceChainId := reason.sourceChainId
  vault := reason.vault
  asset := reason.asset
  tokenType := reason.tokenType
  coinId := reason.coinId
  reasonTag := reason.reasonTag
  lockDomain := lockDomain
  nullifierDomain := nullifierDomain

/-- The terms of what the wallet decoded. -/
def walletTerms (reason : BridgePlugin.DecodedBridgeBackReason) :
    BridgePlugin.BridgeBackReason where
  version := reason.version
  recipient := reason.recipient
  amount := reason.amount
  feeRecipient := reason.feeRecipient
  feeAmount := reason.feeAmount
  deadline := reason.deadline

/-- On these bytes the decoders agree, and what they accept is written back as it was. -/
structure Agree (sdk : Sdk) (data : Bytes) : Prop where
  accepted : ∀ tag : UInt64,
    (∃ reason, BridgePlugin.decodeBridgeBackReason data = .ok reason ∧
      reason.reasonTag = tag.toNat) ↔
        ∃ reason, Guest.decodeBridgeBackReason sdk tag data = .ok reason
  fields : ∀ (tag : UInt64) wallet guest,
    BridgePlugin.decodeBridgeBackReason data = .ok wallet → wallet.reasonTag = tag.toNat →
      Guest.decodeBridgeBackReason sdk tag data = .ok guest → SameFields wallet guest
  guest_encode : ∀ (tag : UInt64) reason lockDomain nullifierDomain,
    Guest.decodeBridgeBackReason sdk tag data = .ok reason →
      Core.reasonCbor (configOf tag reason lockDomain nullifierDomain) (termsOf reason) = data
  wallet_encode : ∀ reason lockDomain nullifierDomain,
    BridgePlugin.decodeBridgeBackReason data = .ok reason →
      BridgePlugin.encodeBridgeBackReason (walletConfig reason lockDomain nullifierDomain)
        (walletTerms reason) = .ok data

theorem canonical_rawOf (tag : UInt64) (reason : Guest.DecodedBridgeBackReason) :
    Canonical (rawOf tag reason) where
  vault := reason.vault.toList_length
  asset := reason.asset.toList_length
  tokenType := reason.tokenType.toList_length
  coinId := reason.coinId.toList_length
  recipient := reason.recipient.toList_length
  amount := minimal_minimalBe reason.amount
  feeRecipient := reason.feeRecipient.toList_length
  feeAmount := minimal_minimalBe reason.feeAmount

/-- A reason has one writing. -/
theorem encode_inj {raw raw' : RawReason} (h : raw.Fits) (h' : raw'.Fits)
    (heq : raw.encode = raw'.encode) : raw = raw' := by
  have hitem := Cbor.encode_inj (.tag raw.tag (BridgePlugin.RawReason.fits_items h))
    (.tag raw'.tag (BridgePlugin.RawReason.fits_items h')) heq
  cases raw
  cases raw'
  simpa [RawReason.items] using hitem

/-- The word of a minimal number. -/
def wordOf (data : Bytes) : Bytes32 := ByteArr.ofNat 32 (beNat data)

theorem minimalBe_wordOf {data : Bytes} (h : Minimal data) :
    Core.minimalBe (wordOf data) = data := by
  show BridgePlugin.minimalBe (beBytes 32 (beNat data)) = data
  rw [BridgePlugin.beBytes_beNat_minimal h.1, BridgePlugin.minimalBe_zeros_append _ h.2]

/-- Fields of the right widths are those of a reason. -/
theorem Canonical.exists_reason {raw : RawReason} (h : Canonical raw) :
    ∃ reason, rawOf raw.tag reason = raw := by
  refine ⟨{ version := raw.version, sourceChainId := raw.sourceChainId,
            vault := ⟨raw.vault, h.vault⟩, asset := ⟨raw.asset, h.asset⟩,
            tokenType := ⟨raw.tokenType, h.tokenType⟩, coinId := ⟨raw.coinId, h.coinId⟩,
            recipient := ⟨raw.recipient, h.recipient⟩, amount := wordOf raw.amount,
            feeRecipient := ⟨raw.feeRecipient, h.feeRecipient⟩, feeAmount := wordOf raw.feeAmount,
            deadline := raw.deadline }, ?_⟩
  simp only [rawOf, minimalBe_wordOf h.amount, minimalBe_wordOf h.feeAmount]
  rfl

theorem beNat_minimalBe (word : Bytes32) : beNat (Core.minimalBe word) = word.toNat := by
  rw [ByteArr.toNat, ← zeros_minimalBe word, beNat_zeros_append]

theorem sameFields (tag : UInt64) (reason : Guest.DecodedBridgeBackReason) :
    SameFields (rawOf tag reason).decoded reason := by
  constructor <;> first | rfl | exact beNat_minimalBe _

section

variable {sdk : Sdk} (hstrict : StrictCbor sdk)

include hstrict

/-- On a reason with a field that is not canonical the wallet alone accepts. -/
theorem not_agree {raw : RawReason} (hfits : raw.Fits) (h : ¬ Canonical raw) :
    ¬ Agree sdk raw.encode := by
  intro hagree
  obtain ⟨reason, hreason⟩ := (hagree.accepted raw.tag).1
    ⟨raw.decoded, BridgePlugin.decodeBridgeBackReason_eq_ok.2 ⟨raw, hfits, rfl, rfl⟩, rfl⟩
  have hraw := encode_inj hfits (fits_rawOf raw.tag reason)
    ((decodeReason_eq_ok hstrict).1 hreason)
  exact h (hraw ▸ canonical_rawOf raw.tag reason)

/-- **One grammar on well-formed bytes.** -/
theorem agree_of_wellFormed {data : Bytes} (h : WellFormed data) : Agree sdk data := by
  -- what the wallet decodes is the writing of a reason of the guest's
  have hwallet : ∀ {wallet}, BridgePlugin.decodeBridgeBackReason data = .ok wallet →
      ∃ (tag : UInt64) (reason : Guest.DecodedBridgeBackReason),
        data = (rawOf tag reason).encode ∧ wallet = (rawOf tag reason).decoded := by
    intro wallet hwallet
    obtain ⟨raw, hfits, hdata, rfl⟩ := BridgePlugin.decodeBridgeBackReason_eq_ok.1 hwallet
    obtain ⟨reason, hraw⟩ := (h raw hfits hdata).exists_reason
    exact ⟨raw.tag, reason, hraw.symm ▸ hdata, by rw [hraw]⟩
  constructor
  · intro tag
    constructor
    · rintro ⟨wallet, hdecode, htag⟩
      obtain ⟨tag', reason, hdata, rfl⟩ := hwallet hdecode
      obtain rfl : tag' = tag := UInt64.toNat_inj.1 htag
      exact ⟨reason, (decodeReason_eq_ok hstrict).2 hdata⟩
    · rintro ⟨reason, hreason⟩
      have hdata := (decodeReason_eq_ok hstrict).1 hreason
      exact ⟨(rawOf tag reason).decoded, BridgePlugin.decodeBridgeBackReason_eq_ok.2
        ⟨_, fits_rawOf tag reason, hdata, rfl⟩, rfl⟩
  · intro tag wallet guest hdecode _ hguest
    obtain ⟨tag', reason, hdata, rfl⟩ := hwallet hdecode
    have hraw := encode_inj (fits_rawOf tag' reason) (fits_rawOf tag guest)
      (hdata.symm.trans ((decodeReason_eq_ok hstrict).1 hguest))
    rw [hraw]
    exact sameFields tag guest
  · intro tag reason lockDomain nullifierDomain hreason
    rw [reasonCbor_eq, (decodeReason_eq_ok hstrict).1 hreason]
  · intro wallet lockDomain nullifierDomain hdecode
    obtain ⟨tag, reason, rfl, rfl⟩ := hwallet hdecode
    exact BridgePlugin.encodeBridgeBackReason_raw (fits_rawOf tag reason)
      (minimal_minimalBe reason.amount) (minimal_minimalBe reason.feeAmount) _ _

/-- **One reason grammar in both languages**, on exactly the byte strings that are not a reason with a
byte string of the wrong width or an amount that is not minimal. -/
theorem reason_grammar (data : Bytes) : Agree sdk data ↔ WellFormed data := by
  constructor
  · rintro hagree raw hfits rfl
    by_contra hcanonical
    exact not_agree hstrict hfits hcanonical hagree
  · exact agree_of_wellFormed hstrict

end

/-- A reason without a recipient. -/
def withoutRecipient : RawReason where
  tag := 39048
  version := 1
  sourceChainId := 1
  vault := List.replicate 20 0x11
  asset := List.replicate 20 0x22
  tokenType := List.replicate 32 0x33
  coinId := List.replicate 32 0x44
  recipient := []
  amount := [5]
  feeRecipient := List.replicate 20 0x92
  feeAmount := [1]
  deadline := 100

/-- **A reason that only the wallet accepts.** -/
theorem reason_grammar_counterexample : ¬ Agree StrictSample.sdk withoutRecipient.encode :=
  not_agree StrictSample.strictCbor
    (by simp [RawReason.Fits, withoutRecipient])
    fun h => absurd h.recipient (by decide)

/-- The reason of the sample token. -/
theorem reason_grammar_sample :
    Agree StrictSample.sdk (Guest.Sample.reasonBytes 5) ↔ WellFormed (Guest.Sample.reasonBytes 5) :=
  reason_grammar StrictSample.strictCbor (Guest.Sample.reasonBytes 5)

end UnicityBridge.ReasonGrammar
