import UnicityBridge.Precheck
import UnicityBridge.ReasonGrammar

/-!
# The burn that the wallet builds

`packages/bridge-plugin/src/bridge-back/burn.ts`: the reason of a burn with the checks before it, its
predicate, and the preview of the return. Beside it stands the derivation of a leaf from a wallet's
envelope in `prover/crates/host/src/s1.rs`.

The main result is `wallet_burn_provable`: what the wallet builds decodes to its own fields, and a burn
with it passes the guest's checks for the leaf that the service derives, which is the one previewed.
-/

set_option autoImplicit false

namespace UnicityBridge.BridgePlugin

open UnicityBridge.Lib UnicityBridge.TokenSdk

/-- Domain of the identifier of a burn. -/
def DOMAIN_BURN_TRANSITION : String := "unicity-burn-transition:v1"

/-- Domain of the nullifier of a return. -/
def DOMAIN_NULLIFIER : String := "unicity-bridge-return-nullifier:v1"

/-- Largest unsigned 64-bit integer. -/
def MAX_U64 : Int := 2 ^ 64 - 1

/-! ## Derivations -/

section Derivations

variable (sha256 : Bytes → Bytes32)

/-- Hash of the items as one CBOR array. -/
def hArray (items : List Bytes) : Bytes32 :=
  sha256 (cborArrayHeader items.length ++ items.flatten)

/-- Identifier of the burn, from the state it spends and its transaction. -/
def burnTransitionId (stateId txHash : Bytes) : Bytes32 :=
  hArray sha256 [cborText DOMAIN_BURN_TRANSITION, cborBytes stateId, cborBytes txHash]

/-- Nullifier of the return, bound to the vault through its configuration hash. -/
def nullifier (configHash burnTransitionId : Bytes) : Bytes32 :=
  hArray sha256 [cborText DOMAIN_NULLIFIER, cborBytes configHash, cborBytes burnTransitionId]

/-- The read-only return preview that the wallet shows. -/
structure ReturnPreview where
  burnTransitionId : Bytes32
  nullifier : Bytes32
  returnLeaf : ReturnLeaf

/-- What the wallet shows of the return before it burns the token. -/
def previewReturn (configHash : Bytes) (r : BridgeBackReason) (burnStateId burnTxHash : Bytes) :
    ReturnPreview :=
  let btId := burnTransitionId sha256 burnStateId burnTxHash
  let nullifier := nullifier sha256 configHash btId.toList
  { burnTransitionId := btId
    nullifier := nullifier
    returnLeaf := {
      nullifier := nullifier.toList
      recipient := r.recipient
      amount := r.amount
      feeRecipient := r.feeRecipient
      feeAmount := r.feeAmount
      deadline := r.deadline } }

end Derivations

/-! ## Burns -/

/-- The reason's bytes and the predicate that binds them. -/
structure BridgeBackBurnReason where
  reasonBytes : Bytes
  reasonHash : Bytes32
  burnPredicate : EncodedPredicate

/-- The checks a reason passes before the wallet burns against it. -/
def assertProvable (r : BridgeBackReason) : Result Unit := do
  ensure (r.version = 1) "BridgeBackReason: version must be 1"
  ensure (r.recipient.length = 20 ∧ r.feeRecipient.length = 20)
    "BridgeBackReason: recipient and feeRecipient must be 20 bytes"
  ensure (¬ (r.feeAmount < 0 ∨ r.amount < r.feeAmount))
    "BridgeBackReason: feeAmount must be between 0 and amount"
  ensure (¬ (r.deadline < 0 ∨ MAX_U64 < r.deadline)) "BridgeBackReason: deadline must fit 64 bits"

/-- The wallet's SDK hashes and builds predicates as the guest's does. -/
def buildBridgeBackBurnReason (sdk : Sdk) (c : BridgeConfig) (r : BridgeBackReason) :
    Result BridgeBackBurnReason := do
  assertProvable r
  let reasonBytes ← encodeBridgeBackReason c r
  let reasonHash := sdk.sha256 reasonBytes
  .ok { reasonBytes, reasonHash, burnPredicate := sdk.burnPredicate reasonHash.toList }

/-- The widths of a deployment's config. -/
structure WellFormedConfig (c : BridgeConfig) : Prop where
  sourceChainId : 0 ≤ c.sourceChainId ∧ c.sourceChainId ≤ MAX_U64
  vault : c.vault.length = 20
  asset : c.asset.length = 20
  tokenType : c.tokenType.length = 32
  coinId : c.coinId.length = 32
  reasonTag : 0 ≤ c.reasonTag ∧ c.reasonTag ≤ MAX_U64
  lockDomain : c.lockDomain.length = 32
  nullifierDomain : c.nullifierDomain.length = 32

/-- A well-formed config as the prover holds it. -/
def WellFormedConfig.toCore {c : BridgeConfig} (h : WellFormedConfig c) : Core.BridgeConfig where
  sourceChainId := UInt64.ofNat c.sourceChainId.toNat
  vault := ⟨c.vault, h.vault⟩
  asset := ⟨c.asset, h.asset⟩
  tokenType := ⟨c.tokenType, h.tokenType⟩
  coinId := ⟨c.coinId, h.coinId⟩
  reasonTag := UInt64.ofNat c.reasonTag.toNat
  lockDomain := ⟨c.lockDomain, h.lockDomain⟩
  nullifierDomain := ⟨c.nullifierDomain, h.nullifierDomain⟩

end UnicityBridge.BridgePlugin

namespace UnicityBridge.BurnReason

open UnicityBridge.Lib UnicityBridge.Lib.Cbor UnicityBridge.TokenSdk
open UnicityBridge.BridgePlugin (RawReason Minimal BridgeBackReason BridgeBackBurnReason
  WellFormedConfig MAX_U64 buildBridgeBackBurnReason previewReturn)
open UnicityBridge.ReasonGrammar (wordOf rawOf)
open UnicityBridge.Settlement (HostError)

/-- The leaf that `build_certified_guest_input_from_envelope` derives. -/
def envelopeLeaf (sdk : Sdk) (config : Core.BridgeConfig) (token : Token) (reasonBytes : Bytes) :
    Settlement.Result Core.ReturnLeaf := do
  let burn ← okOr token.transactions.getLast? (HostError.check "token has no terminal burn")
  let stateId := (Transaction.transfer burn.transaction).stateId sdk
  let txHash ← okOr (toByteArr 32 (sdk.transactionHash (.transfer burn.transaction)).data)
    (HostError.check "terminal burn tx hash is not 32 bytes")
  let cfgHash := Core.configHash sdk.keccak256 config
  let burnId := Core.burnTransitionId sdk.sha256 stateId txHash
  let null := Core.nullifier sdk.sha256 cfgHash burnId
  let reason ← (Guest.decodeBridgeBackReason sdk config.reasonTag reasonBytes).mapError
    fun err => HostError.check s!"reasonBytes decode failed: {Precheck.debugError err}"
  .ok {
    nullifier := null
    recipient := reason.recipient
    amount := reason.amount
    feeRecipient := reason.feeRecipient
    feeAmount := reason.feeAmount
    deadline := reason.deadline }

/-- The decoded fields are those of the config and of the terms. -/
structure FieldsOf (c : BridgePlugin.BridgeConfig) (r : BridgeBackReason)
    (reason : Guest.DecodedBridgeBackReason) : Prop where
  version : (reason.version.toNat : Int) = r.version
  sourceChainId : (reason.sourceChainId.toNat : Int) = c.sourceChainId
  vault : reason.vault.toList = c.vault
  asset : reason.asset.toList = c.asset
  tokenType : reason.tokenType.toList = c.tokenType
  coinId : reason.coinId.toList = c.coinId
  recipient : reason.recipient.toList = r.recipient
  amount : (reason.amount.toNat : Int) = r.amount
  feeRecipient : reason.feeRecipient.toList = r.feeRecipient
  feeAmount : (reason.feeAmount.toNat : Int) = r.feeAmount
  deadline : (reason.deadline.toNat : Int) = r.deadline

/-- The wallet's leaf and the service's are the same. -/
structure SameLeaf (wallet : BridgePlugin.ReturnLeaf) (leaf : Core.ReturnLeaf) : Prop where
  nullifier : wallet.nullifier = leaf.nullifier.toList
  recipient : wallet.recipient = leaf.recipient.toList
  amount : wallet.amount = leaf.amount.toNat
  feeRecipient : wallet.feeRecipient = leaf.feeRecipient.toList
  feeAmount : wallet.feeAmount = leaf.feeAmount.toNat
  deadline : wallet.deadline = leaf.deadline.toNat

/-- The token is worth so much of the bridged coin. -/
def Worth (sdk : Sdk) (config : Core.BridgeConfig) (token : Token) (amount : Int) : Prop :=
  ∃ data payment asset, token.genesis.transaction.data = some data ∧
    Bridge.decodeBridgedPaymentData sdk data = some payment ∧
      payment.get config.coinId.toList = some asset ∧ (asset.value : Int) = amount

/-- The SDK writes the amounts of 256 bits in 32 bytes. -/
def AmountsFit (sdk : Sdk) : Prop :=
  ∀ value < 2 ^ 256, (sdk.encodeAmount value).length ≤ 32

theorem word_toNat {n : Int} (hpos : 0 ≤ n) (hlt : n < 2 ^ 256) :
    ((ByteArr.ofNat 32 n.toNat).toNat : Int) = n := by
  have hpow : (256 : Nat) ^ 32 = 2 ^ 256 := by norm_num
  have hn : n.toNat < 256 ^ 32 := by
    rw [hpow]
    have := Int.toNat_of_nonneg hpos
    zify
    omega
  rw [ByteArr.toNat_ofNat hn, Int.toNat_of_nonneg hpos]

theorem uint64_toNat {n : Int} (h : 0 ≤ n ∧ n ≤ MAX_U64) :
    ((UInt64.ofNat n.toNat).toNat : Int) = n := by
  have hlt : n.toNat < 2 ^ 64 := by
    have := h.2
    unfold MAX_U64 at this
    omega
  rw [UInt64.toNat_ofNat_of_lt' hlt]
  exact Int.toNat_of_nonneg h.1

/-- The fields of a reason with these widths are written as the wallet writes them. -/
theorem FieldsOf.encode {c : BridgePlugin.BridgeConfig} {r : BridgeBackReason}
    {reason : Guest.DecodedBridgeBackReason} (h : FieldsOf c r reason) {tag : UInt64}
    (htag : (tag.toNat : Int) = c.reasonTag) :
    BridgePlugin.encodeBridgeBackReason c r = .ok (rawOf tag reason).encode := by
  have hconfig : (rawOf tag reason).config c.lockDomain c.nullifierDomain = c := by
    simp only [RawReason.config, rawOf, h.sourceChainId, h.vault, h.asset, h.tokenType, h.coinId,
      htag]
  have hterms : (rawOf tag reason).terms = r := by
    simp only [RawReason.terms, rawOf, ReasonGrammar.beNat_minimalBe, h.version, h.recipient,
      h.amount, h.feeRecipient, h.feeAmount, h.deadline]
  have hencode := BridgePlugin.encodeBridgeBackReason_raw (ReasonGrammar.fits_rawOf tag reason)
    (ReasonGrammar.minimal_minimalBe reason.amount)
    (ReasonGrammar.minimal_minimalBe reason.feeAmount) c.lockDomain c.nullifierDomain
  rwa [hconfig, hterms] at hencode

/-- **What the wallet builds is the writing of its fields.** -/
theorem exists_reason {sdk : Sdk} {c : BridgePlugin.BridgeConfig} {r : BridgeBackReason}
    {built : BridgeBackBurnReason} (hc : WellFormedConfig c)
    (h : buildBridgeBackBurnReason sdk c r = .ok built) :
    ∃ reason, FieldsOf c r reason ∧ reason.version = 1 ∧
      built.reasonBytes = (rawOf hc.toCore.reasonTag reason).encode ∧
      built.burnPredicate = sdk.burnPredicate (sdk.sha256 built.reasonBytes).toList ∧
      reason.feeAmount.toNat ≤ reason.amount.toNat := by
  simp only [buildBridgeBackBurnReason, BridgePlugin.assertProvable, bind_eq_ok, ensure_eq_ok,
    Except.ok.injEq, exists_const, not_or, not_lt] at h
  -- what the wallet has checked before it encodes
  obtain ⟨⟨hversion, ⟨hto, hfeeTo⟩, ⟨hfeePos, hfeeLe⟩, hdeadline⟩, bytes, hbytes, rfl⟩ := h
  -- both amounts fit in a word, or `u256be` would have thrown
  obtain ⟨hamount, hfee⟩ : r.amount < 2 ^ 256 ∧ r.feeAmount < 2 ^ 256 := by
    have hwords := hbytes
    simp only [BridgePlugin.encodeBridgeBackReason, bind_eq_ok, Except.ok.injEq] at hwords
    obtain ⟨amount, hamount, fee, hfee, -⟩ := hwords
    exact ⟨(BridgePlugin.u256be_eq_ok.1 hamount).2.1, (BridgePlugin.u256be_eq_ok.1 hfee).2.1⟩
  have hfields : FieldsOf c r {
      version := 1
      sourceChainId := hc.toCore.sourceChainId
      vault := hc.toCore.vault
      asset := hc.toCore.asset
      tokenType := hc.toCore.tokenType
      coinId := hc.toCore.coinId
      recipient := ⟨r.recipient, hto⟩
      amount := ByteArr.ofNat 32 r.amount.toNat
      feeRecipient := ⟨r.feeRecipient, hfeeTo⟩
      feeAmount := ByteArr.ofNat 32 r.feeAmount.toNat
      deadline := UInt64.ofNat r.deadline.toNat } :=
    { version := hversion.symm
      sourceChainId := uint64_toNat hc.sourceChainId
      vault := rfl
      asset := rfl
      tokenType := rfl
      coinId := rfl
      recipient := rfl
      amount := word_toNat (hfeePos.trans hfeeLe) hamount
      feeRecipient := rfl
      feeAmount := word_toNat hfeePos hfee
      deadline := uint64_toNat hdeadline }
  refine ⟨_, hfields, rfl, ?_, rfl, ?_⟩
  · exact Except.ok.inj (hbytes.symm.trans (hfields.encode (uint64_toNat hc.reasonTag)))
  · have hle : ((ByteArr.ofNat 32 r.feeAmount.toNat).toNat : Int) ≤
        (ByteArr.ofNat 32 r.amount.toNat).toNat := by
      rw [word_toNat hfeePos hfee, word_toNat (hfeePos.trans hfeeLe) hamount]
      exact hfeeLe
    exact_mod_cast hle

/-! ## The preview -/

theorem hArray_eq (sha256 : Bytes → Bytes32) {items : List Bytes} (h : items.length < 2 ^ 64) :
    BridgePlugin.hArray sha256 items = Core.hArray sha256 items := by
  have hheader : BridgePlugin.cborArrayHeader items.length =
      Core.arrayHeader (UInt64.ofNat items.length) :=
    (BridgePlugin.cborHead_eq 4 h).trans (arrayHeader_eq h).symm
  rw [BridgePlugin.hArray, Core.hArray, hheader]

theorem cborText_eq {text : String} (h : (Core.utf8 text).length < 2 ^ 64) :
    BridgePlugin.cborText text = Core.cborText (Core.utf8 text) :=
  (congrArg (· ++ Core.utf8 text) (BridgePlugin.cborHead_eq 3 h)).trans
    (TokenSdk.cborText_eq h).symm

theorem cborBytes_word (word : Bytes32) :
    BridgePlugin.cborBytes word.toList = Core.cborBytes word.toList := by
  have h : word.toList.length < 2 ^ 64 := by
    rw [word.toList_length]
    decide
  rw [BridgePlugin.cborBytes_eq h, TokenSdk.cborBytes_eq h]

/-- **The wallet derives the prover's nullifier.** -/
theorem previewReturn_nullifier (sha256 : Bytes → Bytes32) (configHash stateId txHash : Bytes32)
    (r : BridgeBackReason) :
    (previewReturn sha256 configHash.toList r stateId.toList txHash.toList).nullifier =
      Core.nullifier sha256 configHash (Core.burnTransitionId sha256 stateId txHash) := by
  have htransition : BridgePlugin.burnTransitionId sha256 stateId.toList txHash.toList =
      Core.burnTransitionId sha256 stateId txHash := by
    rw [BridgePlugin.burnTransitionId, hArray_eq _ (by simp), cborBytes_word, cborBytes_word,
      cborText_eq (by decide)]
    rfl
  show BridgePlugin.nullifier sha256 configHash.toList
    (BridgePlugin.burnTransitionId sha256 stateId.toList txHash.toList).toList = _
  rw [htransition, BridgePlugin.nullifier, hArray_eq _ (by simp), cborBytes_word, cborBytes_word,
    cborText_eq (by decide)]
  rfl

/-! ## The checks of the burn -/

theorem u256FromAmountBytes_eq {sdk : Sdk} (hamounts : Guest.EncodesAmounts sdk)
    (hfit : AmountsFit sdk) (word : Core.U256) :
    Guest.u256FromAmountBytes (sdk.encodeAmount word.toNat) = some word := by
  have hpow : (256 : Nat) ^ 32 = 2 ^ 256 := by norm_num
  have hlen := hfit word.toNat (hpow ▸ word.toNat_lt)
  rw [Guest.u256FromAmountBytes, if_neg (by omega), toByteArr_eq_some]
  have hnat := hamounts word.toNat
  have hbytes := BridgePlugin.beBytes_beNat_minimal hlen
  have hself := beBytes_beNat word.toList
  rw [hnat] at hbytes
  rw [word.toList_length] at hself
  rw [← hbytes]
  exact hself.symm

theorem not_greaterThan {left right : Core.U256} (h : left.toNat ≤ right.toNat) :
    ¬ Guest.greaterThan left right := by
  rw [Guest.greaterThan, lt_iff_beNat_lt (by simp), not_lt]
  exact h

/-- **The burn that the wallet builds is provable.** Its bytes decode to the fields of the config and
of the terms. A burn that carries them under the returned predicate, on a token worth the amount,
passes the guest's checks for the leaf that the service derives, which is the leaf of the preview. -/
theorem wallet_burn_provable {sdk : Sdk} (hstrict : StrictCbor sdk)
    (hamounts : Guest.EncodesAmounts sdk) (hfit : AmountsFit sdk) {c : BridgePlugin.BridgeConfig}
    {r : BridgeBackReason} {built : BridgeBackBurnReason} (hc : WellFormedConfig c)
    (hbuilt : buildBridgeBackBurnReason sdk c r = .ok built) :
    (∃ reason, Guest.decodeBridgeBackReason sdk hc.toCore.reasonTag built.reasonBytes = .ok reason ∧
      FieldsOf c r reason) ∧
    ∀ token transfer (txHash : Bytes32), token.transactions.getLast? = some transfer →
      transfer.transaction.data = some built.reasonBytes →
      transfer.transaction.recipient = built.burnPredicate →
      (sdk.transactionHash (.transfer transfer.transaction)).data = txHash.toList →
      Worth sdk hc.toCore token r.amount →
      ∃ leaf, envelopeLeaf sdk hc.toCore token built.reasonBytes = .ok leaf ∧
        Guest.validateTerminalBurn sdk hc.toCore (Core.configHash sdk.keccak256 hc.toCore) leaf
          token = .ok () ∧
        Guest.validateCurrentValue sdk hc.toCore leaf token = .ok () ∧
        SameLeaf (previewReturn sdk.sha256 (Core.configHash sdk.keccak256 hc.toCore).toList r
          ((Transaction.transfer transfer.transaction).stateId sdk).toList
            txHash.toList).returnLeaf leaf ∧
        (previewReturn sdk.sha256 (Core.configHash sdk.keccak256 hc.toCore).toList r
          ((Transaction.transfer transfer.transaction).stateId sdk).toList
            txHash.toList).nullifier = leaf.nullifier := by
  -- the reason whose bytes were built; every check of the circuit reads its fields
  obtain ⟨reason, hfields, hversion, hbytes, hpredicate, hfee⟩ := exists_reason hc hbuilt
  have hdecode := (ReasonGrammar.decodeReason_eq_ok hstrict).2 hbytes
  refine ⟨⟨reason, hdecode, hfields⟩, ?_⟩
  intro token transfer txHash hlast hdata hrecipient hhash hworth
  -- the circuit's nullifier is the one of the leaf below, by definition
  have htx : toByteArr 32 (sdk.transactionHash (.transfer transfer.transaction)).data =
      some txHash := toByteArr_eq_some.2 hhash.symm
  have hnullifier : Guest.burnNullifier sdk (Core.configHash sdk.keccak256 hc.toCore)
      transfer.transaction = .ok (Core.nullifier sdk.sha256
        (Core.configHash sdk.keccak256 hc.toCore) (Core.burnTransitionId sdk.sha256
          ((Transaction.transfer transfer.transaction).stateId sdk) txHash)) := by
    simp only [Guest.burnNullifier, bind_eq_ok, okOr_eq_ok]
    exact ⟨txHash, htx, rfl⟩
  refine ⟨{
    nullifier := Core.nullifier sdk.sha256 (Core.configHash sdk.keccak256 hc.toCore)
      (Core.burnTransitionId sdk.sha256
        ((Transaction.transfer transfer.transaction).stateId sdk) txHash)
    recipient := reason.recipient
    amount := reason.amount
    feeRecipient := reason.feeRecipient
    feeAmount := reason.feeAmount
    deadline := reason.deadline }, ?_, ?_, ?_, ?_, ?_⟩
  · simp only [envelopeLeaf, bind_eq_ok, okOr_eq_ok, mapError_eq_ok]
    exact ⟨transfer, hlast, txHash, htx, reason, hdecode, rfl⟩
  -- the terminal burn: data and recipient are the built ones, and the fields are the config's
  · simp only [Guest.validateTerminalBurn, bind_eq_ok, okOr_eq_ok, ensure_eq_ok]
    refine ⟨transfer, hlast, built.reasonBytes, hdata, (), hrecipient.trans hpredicate, reason,
      hdecode, (), ?_, _, hnullifier, rfl⟩
    refine ⟨hversion, ?_, ?_, ?_, ?_, ?_, rfl, rfl, rfl, rfl, rfl, not_greaterThan hfee⟩
    · apply UInt64.toNat_inj.1
      have hchain := hfields.sourceChainId.trans (uint64_toNat hc.sourceChainId).symm
      exact_mod_cast hchain
    · exact ByteArr.toList_inj.1 hfields.vault
    · exact ByteArr.toList_inj.1 hfields.asset
    · exact ByteArr.toList_inj.1 hfields.tokenType
    · exact ByteArr.toList_inj.1 hfields.coinId
  -- the value: the asset's worth is the amount the wallet asked for
  · obtain ⟨data, payment, asset, hgenesis, hpayment, hasset, hvalue⟩ := hworth
    have hamount : asset.value = reason.amount.toNat := by
      have := hvalue.trans hfields.amount.symm
      exact_mod_cast this
    simp only [Guest.validateCurrentValue, bind_eq_ok, okOr_eq_ok, ensure_eq_ok]
    exact ⟨data, hgenesis, payment, hpayment, asset, hasset, reason.amount,
      hamount ▸ u256FromAmountBytes_eq hamounts hfit reason.amount, rfl⟩
  -- the preview shows the same leaf, field by field
  · have hnull := previewReturn_nullifier sdk.sha256 (Core.configHash sdk.keccak256 hc.toCore)
      ((Transaction.transfer transfer.transaction).stateId sdk) txHash r
    exact {
      nullifier := congrArg List.Vector.toList hnull
      recipient := hfields.recipient.symm
      amount := hfields.amount.symm
      feeRecipient := hfields.feeRecipient.symm
      feeAmount := hfields.feeAmount.symm
      deadline := hfields.deadline.symm }
  · exact previewReturn_nullifier sdk.sha256 _ _ txHash r

/-! ## The sample token's burn -/

namespace Sample

open Guest.Sample (token burn reasonBytes)

/-- The configuration of the guest's sample. -/
def config : BridgePlugin.BridgeConfig where
  sourceChainId := 1
  vault := List.replicate 20 0x11
  asset := List.replicate 20 0x22
  tokenType := List.replicate 32 0x33
  coinId := List.replicate 32 0x44
  reasonTag := 39048
  lockDomain := List.replicate 32 0x55
  nullifierDomain := List.replicate 32 0x66

/-- The terms of a return of five units. -/
def terms : BridgeBackReason where
  version := 1
  recipient := List.replicate 20 0x91
  amount := 5
  feeRecipient := List.replicate 20 0x92
  feeAmount := 1
  deadline := 100

theorem wellFormed : WellFormedConfig config := by
  constructor <;> decide

theorem built : buildBridgeBackBurnReason StrictSample.sdk config terms =
    .ok ⟨reasonBytes 5, StrictSample.sdk.sha256 (reasonBytes 5),
      StrictSample.sdk.burnPredicate (StrictSample.sdk.sha256 (reasonBytes 5)).toList⟩ := by
  have hbytes : BridgePlugin.encodeBridgeBackReason config terms = .ok (reasonBytes 5) := by
    decide +kernel
  have hprovable : BridgePlugin.assertProvable terms = .ok () := by decide
  rw [buildBridgeBackBurnReason, hbytes, hprovable]
  rfl

theorem payment : Bridge.decodeBridgedPaymentData StrictSample.sdk (Guest.Sample.paymentBytes 5) =
    some ⟨[⟨Guest.Sample.config.coinId.toList, 5⟩]⟩ := by
  decide +kernel

theorem worth : Worth StrictSample.sdk wellFormed.toCore (token .whole) 5 :=
  ⟨_, _, ⟨Guest.Sample.config.coinId.toList, 5⟩, rfl, payment, by decide, rfl⟩

theorem amountsFit : AmountsFit StrictSample.sdk := by
  intro value hvalue
  have hsize := Nat.size_le.2 hvalue
  show (beBytes ((value.size + 7) / 8) value).length ≤ 32
  rw [beBytes_length]
  omega

end Sample

open Guest.Sample (token burn reasonBytes)

/-- The sample token's burn. -/
theorem wallet_burn_provable_sample :
    ∃ leaf, Guest.validateTerminalBurn StrictSample.sdk Sample.wellFormed.toCore
        (Core.configHash StrictSample.sdk.keccak256 Sample.wellFormed.toCore) leaf
          (token .whole) = .ok () ∧
      Guest.validateCurrentValue StrictSample.sdk Sample.wellFormed.toCore leaf
        (token .whole) = .ok () := by
  have hlast : (token .whole).transactions.getLast? =
      some ⟨burn .whole, Guest.Sample.inclusionProof Guest.Sample.owner
        (Guest.Sample.spentState (.transfer (burn .whole)))⟩ := rfl
  have hrecipient : (burn .whole).recipient =
      StrictSample.sdk.burnPredicate (StrictSample.sdk.sha256 (reasonBytes 5)).toList :=
    Guest.Sample.burn_recipient (by decide)
  have hhash : (StrictSample.sdk.transactionHash (.transfer (burn .whole))).data =
      (Guest.Sample.word Guest.Sample.Coin.whole.number).toList :=
    congrArg DataHash.data (Guest.Sample.hash_burn .whole)
  obtain ⟨leaf, -, hterminal, hvalue, -⟩ :=
    (wallet_burn_provable StrictSample.strictCbor Guest.Sample.encodeAmount_beNat Sample.amountsFit
      Sample.wellFormed Sample.built).2 (token .whole) _ _ hlast rfl hrecipient hhash Sample.worth
  exact ⟨leaf, hterminal, hvalue⟩

end UnicityBridge.BurnReason
