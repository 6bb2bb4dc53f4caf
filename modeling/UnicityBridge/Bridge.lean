import UnicityBridge.Core
import UnicityBridge.Verify

/-!
# Lock obligations of a token

`prover/crates/sdk-ext/src/bridge.rs`: the value payload and the lock justification of a bridged
mint, the lock obligation of a direct mint, and the recursion through split justifications that
leads from a split output to the lock behind it.

`obligationsForVerifiedToken_eq_ok` opens one level of the recursion; later modules use it instead
of the definition.
-/

set_option autoImplicit false

namespace UnicityBridge.Bridge

open UnicityBridge.Lib UnicityBridge.TokenSdk UnicityBridge.Verify

/-- The only version of a lock justification. -/
def BRIDGE_LOCK_JUSTIFICATION_VERSION : UInt64 := 1

/-- CBOR tag of the payment data a wallet token carries. -/
def WALLET_VALUE_TAG : UInt64 := 39050

/-- The only version of that payment data. -/
def WALLET_VALUE_VERSION : UInt64 := 1

/-- The configuration as the SDK extension reads it: the fields a lock is checked against. -/
structure BridgeConfig where
  sourceChainId : UInt64
  vault : Bytes20
  asset : Bytes20
  tokenType : Bytes32
  coinId : Bytes32
  deriving DecidableEq

/-- The decoded justification of a bridged mint: the lock it was minted for. -/
structure BridgeLockJustification where
  sourceChainId : UInt64
  vault : Bytes20
  asset : Bytes20
  txid : Bytes32
  logIndex : UInt64
  amount : UInt64
  nonce : UInt64
  deriving DecidableEq

/-- What a bridged token obliges the vault to: the lock's nonce and digest. -/
structure BridgeLockObligation where
  nonce : UInt64
  digest : Bytes32
  deriving DecidableEq

variable (sdk : Sdk)

/-- The wallet's value payload `tag(39050) [version, assets, memo]`. -/
def decodeBridgedPaymentData (bytes : Bytes) : Option PaymentAssetCollection := do
  sdk.finish bytes
  let inner ← sdk.expectTag bytes WALLET_VALUE_TAG
  match ← sdk.array inner 3 with
  | [version, assets, memo] => do
      if (← sdk.uint version) ≠ WALLET_VALUE_VERSION then none
      else
        let collection ← sdk.paymentFromCbor assets
        -- the memo is a byte string or null
        if sdk.isNull memo then some collection
        else (sdk.bytesValue memo).map fun _ => collection
  | _ => none

/-- A byte string of known length; `lengthError` names the wrong length. -/
def bytesN (n : Nat) (lengthError : BridgeExtError) (item : Bytes) : Result (ByteArr n) := do
  let bytes ← okOr (sdk.bytesValue item) .bridgeLockJustificationMalformed
  okOr (toByteArr n bytes) lengthError

/-- An unsigned integer item of a justification. -/
def uintItem (item : Bytes) : Result UInt64 :=
  okOr (sdk.uint item) .bridgeLockJustificationMalformed

namespace BridgeLockJustification

/-- The strict decoding of a lock justification under the configured tag. -/
def fromCborBytes (bytes : Bytes) (expectedTag : UInt64) : Result BridgeLockJustification := do
  okOr (sdk.finish bytes) .bridgeLockJustificationMalformed
  let inner ← okOr (sdk.expectTag bytes expectedTag) .bridgeLockJustificationMalformed
  let items ← okOr (sdk.array inner 8) .bridgeLockJustificationMalformed
  match items with
  | [version, chain, vault, asset, txid, logIndex, amount, nonce] => do
      let version ← uintItem sdk version
      ensure (version = BRIDGE_LOCK_JUSTIFICATION_VERSION) .bridgeLockJustificationMalformed
      let sourceChainId ← uintItem sdk chain
      let vault ← bytesN sdk 20 .bridgeLockAddressLength vault
      let asset ← bytesN sdk 20 .bridgeLockAddressLength asset
      let txid ← bytesN sdk 32 .bridgeLockBytes32Length txid
      let logIndex ← uintItem sdk logIndex
      let amount ← uintItem sdk amount
      let nonce ← uintItem sdk nonce
      .ok { sourceChainId, vault, asset, txid, logIndex, amount, nonce }
  | _ => .error .bridgeLockJustificationMalformed

end BridgeLockJustification

/-- The 32-byte word of an SDK amount, if it fits. -/
def u256FromBiguint (value : Nat) : Option Bytes32 :=
  let encoded := sdk.encodeAmount value
  if encoded.length > 32 then none
  else toByteArr 32 (List.replicate (32 - encoded.length) 0 ++ encoded)

/-- The bytes hashed for a lock. -/
def lockInput (config : BridgeConfig) (nonce : UInt64)
    (amount tokenId recipientCommitment : Bytes32) : Bytes :=
  Core.encode [.str Core.DOMAIN_LOCK, .u64 config.sourceChainId, .addr config.vault,
    .u256 (Core.u256FromU64 nonce), .addr config.asset, .b32 config.tokenType, .b32 config.coinId,
    .u256 amount, .b32 tokenId, .b32 recipientCommitment]

/-- The digest the vault stored for the lock. -/
def lockDigest (config : BridgeConfig) (nonce : UInt64)
    (amount tokenId recipientCommitment : Bytes32) : Bytes32 :=
  sdk.keccak256 (lockInput config nonce amount tokenId recipientCommitment)

/-- The lock obligation of a direct bridge mint. -/
def bridgeLockObligation (genesis : CertifiedMintTransaction) (justificationTag : UInt64)
    (config : BridgeConfig) : Result BridgeLockObligation := do
  let mint := genesis.transaction
  ensure (mint.tokenType = config.tokenType.toList) .bridgeLockTokenTypeMismatch
  let bytes ← okOr mint.justification .bridgeLockJustificationMalformed
  let justification ← BridgeLockJustification.fromCborBytes sdk bytes justificationTag
  ensure (justification.sourceChainId = config.sourceChainId ∧
    justification.vault = config.vault ∧ justification.asset = config.asset)
    .bridgeLockConfigMismatch
  let data ← okOr mint.data .bridgeLockPaymentDataMissing
  let assets ← okOr (decodeBridgedPaymentData sdk data) .bridgeLockPaymentDataMalformed
  let asset ← okOr (assets.get config.coinId.toList) .bridgeLockCoinMissing
  ensure (asset.value = justification.amount.toNat) .bridgeLockAmountMismatch
  let recipientCommitment := sdk.sha256 mint.recipient.toCbor
  let amount ← okOr (u256FromBiguint sdk asset.value) .bridgeLockAmountMismatch
  let digest := lockDigest sdk config justification.nonce amount (mint.tokenId sdk)
    recipientCommitment
  .ok { nonce := justification.nonce, digest }

/-- One output asset of a split and its allocation proof, against the source's assets. -/
def verifyAllocations (mint : MintTransaction) (commitment : Bytes)
    (sourceAssets : PaymentAssetCollection) (manifest : SplitManifest)
    (pair : Asset × AllocationProof) : Result Unit := do
  let index ← okOr (sourceAssets.assets.findIdx? fun source => source.id == pair.1.id)
    .splitSourceAssetMissing
  match manifest.roots[index]?, sourceAssets.assets[index]? with
  | some root, some source => do
      let rootSum ← okOr (sdk.verifyAllocation pair.2 (mint.tokenId sdk) commitment pair.1.value root)
        .splitAllocationProofInvalid
      ensure (rootSum = source.value) .splitSourceAmountMismatch
  -- the manifest has as many roots as the source has assets, so the index is in range
  | _, _ => .error .splitMalformed

/-- The checks of a split output against its burned source. `burnedObligations` is the outcome of
collecting the obligations of the source. -/
def verifySplitMint (output : Token) (justification : SplitMintJustification)
    (burnedObligations : Result (List BridgeLockObligation)) :
    Result (List BridgeLockObligation) := do
  let mint := output.genesis.transaction
  let outputPaymentBytes ← okOr mint.data .bridgeLockPaymentDataMissing
  let outputAssets ← okOr (decodeBridgedPaymentData sdk outputPaymentBytes)
    .bridgeLockPaymentDataMalformed
  let burned := justification.token
  let source := burned.genesis.transaction
  ensure (mint.networkId = source.networkId) .splitNetworkMismatch
  let obligations ← burnedObligations
  let burnTransfer ← okOr burned.transactions.getLast? .splitBurnTransferMissing
  let manifestBytes ← okOr burnTransfer.transaction.data .splitManifestMissing
  let manifest ← okOr (sdk.manifestFromCbor manifestBytes) .splitManifestMalformed
  ensure (burnTransfer.transaction.recipient = sdk.burnPredicate (sdk.reasonHash manifest))
    .splitBurnPredicateMismatch
  ensure (mint.tokenType = source.tokenType) .splitTokenTypeMismatch
  let sourcePaymentBytes ← okOr source.data .splitSourcePaymentDataMissing
  let sourceAssets ← okOr (decodeBridgedPaymentData sdk sourcePaymentBytes)
    .splitSourcePaymentDataMissing
  ensure (sourceAssets.assets.length = manifest.roots.length) .splitManifestLengthMismatch
  ensure (justification.proofs.length = outputAssets.assets.length) .splitProofCountMismatch
  let commitment := sdk.splitOutputCommitment (burned.id sdk) mint.networkId mint.recipient
    mint.salt (mint.tokenId sdk) mint.tokenType outputPaymentBytes
  (outputAssets.assets.zip justification.proofs).forM
    (verifyAllocations sdk mint commitment sourceAssets manifest)
  .ok obligations

/-- How far the split justifications of a token can nest. -/
def justificationSize (token : Token) : Nat :=
  match token.genesis.transaction.justification with
  | none => 0
  | some bytes => bytes.length + 1

theorem justificationSize_lt {token : Token} {bytes : Bytes} {split : SplitMintJustification}
    (hbytes : token.genesis.transaction.justification = some bytes)
    (hsplit : sdk.splitFromCbor bytes = some split) :
    justificationSize split.token < justificationSize token := by
  have hnested := sdk.split_nested bytes split hsplit
  unfold justificationSize
  rw [hbytes]
  cases hinner : split.token.genesis.transaction.justification with
  | none => exact Nat.succ_pos _
  | some inner => exact Nat.succ_lt_succ (hnested inner hinner)

/-- A genesis that is not a direct bridge mint is retried as a split output; if it is none, the
error of the direct path stands. The source of a split is always verified in certified mode. -/
def bridgeLockObligationsForVerifiedToken (token : Token) (trustBase : RootTrustBase)
    (tag : UInt64) (config : BridgeConfig) : Result (List BridgeLockObligation) :=
  match bridgeLockObligation sdk token.genesis tag config with
  | .ok obligation => .ok [obligation]
  | .error directErr =>
      match hbytes : token.genesis.transaction.justification with
      | none => .error directErr
      | some bytes =>
          match hsplit : sdk.splitFromCbor bytes with
          | none => .error directErr
          | some split =>
              have := justificationSize_lt sdk hbytes hsplit
              verifySplitMint sdk token split do
                verifyTokenCertified sdk split.token trustBase
                bridgeLockObligationsForVerifiedToken split.token trustBase tag config
  termination_by justificationSize token

/-- The obligations of a token whose certificates all lead to one anchored root. -/
def bridgeLockObligationsForTokenAgainstRoot (token : Token) (trustBase : RootTrustBase)
    (anchorRoot : Bytes32) (tag : UInt64) (config : BridgeConfig) :
    Result (List BridgeLockObligation) := do
  verifyTokenAgainstRoot sdk token trustBase anchorRoot
  bridgeLockObligationsForVerifiedToken sdk token trustBase tag config

/-- The obligations of a token each of whose certificates is verified by itself. -/
def bridgeLockObligationsForTokenCertified (token : Token) (trustBase : RootTrustBase)
    (tag : UInt64) (config : BridgeConfig) : Result (List BridgeLockObligation) := do
  verifyTokenCertified sdk token trustBase
  bridgeLockObligationsForVerifiedToken sdk token trustBase tag config

/-- The obligations of a token come from a direct mint or from the source of its split. -/
theorem obligationsForVerifiedToken_eq_ok {token : Token} {trustBase : RootTrustBase}
    {tag : UInt64} {config : BridgeConfig} {obligations : List BridgeLockObligation} :
    bridgeLockObligationsForVerifiedToken sdk token trustBase tag config = .ok obligations ↔
      (∃ obligation, bridgeLockObligation sdk token.genesis tag config = .ok obligation ∧
        obligations = [obligation]) ∨
      ∃ directErr bytes split,
        bridgeLockObligation sdk token.genesis tag config = .error directErr ∧
        token.genesis.transaction.justification = some bytes ∧
        sdk.splitFromCbor bytes = some split ∧
        verifySplitMint sdk token split
          (bridgeLockObligationsForTokenCertified sdk split.token trustBase tag config) =
            .ok obligations := by
  rw [bridgeLockObligationsForVerifiedToken]
  split
  · next obligation hdirect => simp [hdirect, eq_comm]
  · next directErr hdirect =>
    simp only [hdirect]
    split
    · next hnone => simp [hnone]
    · next bytes hbytes =>
      split
      · next hnone => simp [hbytes, hnone]
      · next split hsplit =>
        simp [hbytes, hsplit, bridgeLockObligationsForTokenCertified]

/-- What the checks of a split output establish, the recursion into its source aside. -/
structure SplitChecks (output : Token) (split : SplitMintJustification)
    (outputAssets sourceAssets : PaymentAssetCollection) (manifest : SplitManifest)
    (burnTransfer : CertifiedTransferTransaction) : Prop where
  network_eq : output.genesis.transaction.networkId = split.token.genesis.transaction.networkId
  tokenType_eq : output.genesis.transaction.tokenType = split.token.genesis.transaction.tokenType
  burn_eq : split.token.transactions.getLast? = some burnTransfer
  manifest_eq : burnTransfer.transaction.data.bind sdk.manifestFromCbor = some manifest
  predicate_eq : burnTransfer.transaction.recipient = sdk.burnPredicate (sdk.reasonHash manifest)
  output_eq : output.genesis.transaction.data.bind (decodeBridgedPaymentData sdk) = some outputAssets
  source_eq : split.token.genesis.transaction.data.bind (decodeBridgedPaymentData sdk) =
    some sourceAssets
  proofs_length : split.proofs.length = outputAssets.assets.length
  allocations : ∀ outputBytes, output.genesis.transaction.data = some outputBytes →
    ∀ pair ∈ outputAssets.assets.zip split.proofs,
      verifyAllocations sdk output.genesis.transaction
        (sdk.splitOutputCommitment (split.token.id sdk) output.genesis.transaction.networkId
          output.genesis.transaction.recipient output.genesis.transaction.salt
          (output.genesis.transaction.tokenId sdk) output.genesis.transaction.tokenType outputBytes)
        sourceAssets manifest pair = .ok ()

/-- The bytes hashed for a lock determine its amount and token id. -/
theorem lockInput_inj {config : BridgeConfig} {nonce nonce' : UInt64}
    {amount tokenId recipient amount' tokenId' recipient' : Bytes32}
    (h : lockInput config nonce amount tokenId recipient =
      lockInput config nonce' amount' tokenId' recipient') :
    amount = amount' ∧ tokenId = tokenId' ∧ recipient = recipient' := by
  have hstatic : ∀ n a t r, ∀ value ∈ ([.u64 config.sourceChainId, .addr config.vault,
      .u256 (Core.u256FromU64 n), .addr config.asset, .b32 config.tokenType, .b32 config.coinId,
      .u256 a, .b32 t, .b32 r] : List Core.Val), value.isDynamic = false := by
    intro n a t r
    simp [Core.Val.isDynamic]
  have hwords := Core.encode_str_cons_inj (hstatic nonce amount tokenId recipient)
    (hstatic nonce' amount' tokenId' recipient') (by simp only [List.length_cons]) h
  simp only [List.map_cons, List.map_nil, Core.Val.word, List.cons.injEq, true_and,
    and_true] at hwords
  exact hwords.2

/-- The asset of the bridged coin that a mint creates. -/
def coinAsset (config : BridgeConfig) (mint : MintTransaction) : Option Asset :=
  (mint.data.bind (decodeBridgedPaymentData sdk)).bind fun assets =>
    assets.get config.coinId.toList

/-- The obligation of a direct mint hashes the mint's token id and coin value. -/
theorem bridgeLockObligation_ok {genesis : CertifiedMintTransaction} {tag : UInt64}
    {config : BridgeConfig} {obligation : BridgeLockObligation}
    (h : bridgeLockObligation sdk genesis tag config = .ok obligation) :
    ∃ asset amount, coinAsset sdk config genesis.transaction = some asset ∧
      u256FromBiguint sdk asset.value = some amount ∧ asset.value < 2 ^ 64 ∧
      obligation.digest = sdk.keccak256 (lockInput config obligation.nonce amount
        (genesis.transaction.tokenId sdk) (sdk.sha256 genesis.transaction.recipient.toCbor)) := by
  simp only [bridgeLockObligation, bind_eq_ok, okOr_eq_ok, ensure_eq_ok, Except.ok.injEq] at h
  obtain ⟨-, -, bytes, hbytes, justification, -, -, -, data, hdata, assets, hassets, asset, hasset,
    -, hvalue, amount, hamount, rfl⟩ := h
  refine ⟨asset, amount, ?_, hamount, ?_, rfl⟩
  · rw [coinAsset, hdata, Option.bind_some, hassets, Option.bind_some, hasset]
  · rw [hvalue]
    exact justification.amount.toNat_lt

/-- A split that is accepted passes on the obligations of its source. -/
theorem verifySplitMint_ok {output : Token} {split : SplitMintJustification}
    {burned : Result (List BridgeLockObligation)} {obligations : List BridgeLockObligation}
    (h : verifySplitMint sdk output split burned = .ok obligations) :
    burned = .ok obligations ∧ ∃ outputAssets sourceAssets manifest burnTransfer,
      SplitChecks sdk output split outputAssets sourceAssets manifest burnTransfer := by
  simp only [verifySplitMint, bind_eq_ok, okOr_eq_ok, ensure_eq_ok, forM_eq_ok] at h
  obtain ⟨outputBytes, hdata, outputAssets, houtput, -, hnetwork, os, hburned, burnTransfer, hburn,
    manifestBytes, hmanifestData, manifest, hmanifest, -, hpredicate, -, htype, sourceBytes, hsource,
    sourceAssets, hassets, -, -, -, hproofs, _, hpairs, hos⟩ := h
  cases hos
  refine ⟨hburned, outputAssets, sourceAssets, manifest, burnTransfer, ?_⟩
  refine ⟨hnetwork, htype, hburn, by rw [hmanifestData]; exact hmanifest, hpredicate,
    by rw [hdata]; exact houtput, by rw [hsource]; exact hassets, hproofs, ?_⟩
  intro bytes hbytes
  obtain rfl : outputBytes = bytes := Option.some.inj (hdata.symm.trans hbytes)
  exact hpairs

end UnicityBridge.Bridge
