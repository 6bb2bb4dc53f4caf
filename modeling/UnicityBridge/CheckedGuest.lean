import UnicityBridge.CheckedCore
import UnicityBridge.Guest

/-!
# The guest relation with its panics

The functions of `prover/crates/sdk-ext/src/bridge.rs` and `prover/crates/guest/src/lib.rs` that index,
slice, subtract or reserve. The verification of tokens and certificates has nothing to panic on and is
the plain model's.

`execute_panics` says when the relation panics: an accumulator witness that its walk comes to has steps
that go on below depth 0. Otherwise it returns what the plain relation does. The SDK's decoder answers a
request for an array of so many items with so many (`ExactArrays`).
-/

set_option autoImplicit false

namespace UnicityBridge.CheckedGuest

open UnicityBridge.Lib UnicityBridge.Lib.Checked UnicityBridge.TokenSdk UnicityBridge.Verify
open UnicityBridge.Core (BridgeCoreError PublicValues ReturnLeaf SourceLockRef U256)
open UnicityBridge.CheckedCore (zeroWord Overruns)
open UnicityBridge.Guest (BridgeBurnWitness BurnVerification BurnsState DecodedBridgeBackReason
  GuestInput)

/-- An array of a requested length has this length. -/
def ExactArrays (sdk : Sdk) : Prop :=
  ∀ slice count items, sdk.array slice count = some items → items.length = count

variable (sdk : Sdk)

/-! ## Payments and justifications -/

/-- The decoding of a bridged token's payment data. -/
def decodeBridgedPaymentData (bytes : Bytes) : Checked Unit PaymentAssetCollection := do
  okOr (sdk.finish bytes) ()
  let inner ← okOr (sdk.expectTag bytes Bridge.WALLET_VALUE_TAG) ()
  let items ← okOr (sdk.array inner 3) ()
  let item ← index items 0
  let version ← okOr (sdk.uint item) ()
  ensure (version = Bridge.WALLET_VALUE_VERSION) ()
  let item ← index items 1
  let collection ← okOr (sdk.paymentFromCbor item) ()
  let memo ← index items 2
  if sdk.isNull memo then pure collection
  else do
    let _ ← okOr (sdk.bytesValue memo) ()
    pure collection

theorem decodeBridgedPaymentData_eq (hsdk : ExactArrays sdk) (bytes : Bytes) :
    decodeBridgedPaymentData sdk bytes = lift (okOr (Bridge.decodeBridgedPaymentData sdk bytes) ()) := by
  rw [decodeBridgedPaymentData, Bridge.decodeBridgedPaymentData, okOr_bind]
  refine bind_eq rfl fun _ _ => ?_
  rw [okOr_bind]
  refine bind_eq rfl fun inner _ => ?_
  rw [okOr_bind]
  refine bind_eq rfl fun items hitems => ?_
  obtain ⟨version, assets, memo, rfl⟩ := List.length_eq_three.1 (hsdk _ _ _ (okOr_eq_ok.1 hitems))
  cases hversion : sdk.uint version with
  | none => simp [index, hversion, okOr, liftM_eq]
  | some number =>
      by_cases hnumber : number = Bridge.WALLET_VALUE_VERSION
      · cases hassets : sdk.paymentFromCbor assets with
        | none => simp [index, hversion, hnumber, hassets, okOr, ensure, liftM_eq]
        | some collection =>
            by_cases hnull : sdk.isNull memo = true
            · simp [index, hversion, hnumber, hassets, hnull, okOr, ensure, liftM_eq, pure_eq]
            · cases hmemo : sdk.bytesValue memo with
              | none | some => simp [index, hversion, hnumber, hassets, hnull, hmemo, okOr, ensure,
                  liftM_eq, pure_eq]
      · simp [index, hversion, hnumber, okOr, ensure, liftM_eq]

/-! ## Amounts as words -/

/-- `out[32 - bytes.len()..].copy_from_slice(bytes)` into a zeroed word. The conversions of amounts
share this. -/
def padWord {ε : Type} (bytes : Bytes) : Checked ε U256 := do
  let start ← sub 32 bytes.length
  let out ← copyFrom zeroWord start bytes
  asArray 32 out

theorem padWord_eq {ε : Type} {bytes : Bytes} (h : bytes.length ≤ 32) (error : ε) :
    (padWord bytes : Checked ε U256) =
      lift (okOr (toByteArr 32 (List.replicate (32 - bytes.length) 0 ++ bytes)) error) := by
  have hlength : (List.replicate (32 - bytes.length) 0 ++ bytes).length = 32 := by
    rw [List.length_append, List.length_replicate]
    omega
  rw [padWord, sub_eq h, ok_bind, copyFrom_eq, ok_bind, zeroWord, List.take_replicate,
    Nat.min_eq_left (Nat.sub_le _ _), asArray, dif_pos hlength, toByteArr, dif_pos hlength]
  · rfl
  · rw [zeroWord, List.length_replicate]
    omega

/-- `u256_from_biguint` -/
def u256FromBiguint (value : Nat) : Checked Unit Bytes32 := do
  let encoded := sdk.encodeAmount value
  ensure (¬ encoded.length > 32) ()
  padWord encoded

theorem u256FromBiguint_eq (value : Nat) :
    u256FromBiguint sdk value = lift (okOr (Bridge.u256FromBiguint sdk value) ()) := by
  simp only [u256FromBiguint, Bridge.u256FromBiguint]
  by_cases hlong : (sdk.encodeAmount value).length > 32
  · rw [ensure, if_neg (not_not.2 hlong), if_pos hlong]
    rfl
  · rw [ensure, if_pos hlong, if_neg hlong]
    exact padWord_eq (Nat.not_lt.1 hlong) ()

/-! ## Obligations -/

section Bridge

open UnicityBridge.Bridge (BridgeConfig BridgeLockJustification BridgeLockObligation uintItem bytesN)

/-- `BridgeLockJustification::from_cbor_bytes` -/
def fromCborBytes (bytes : Bytes) (expectedTag : UInt64) :
    Checked BridgeExtError BridgeLockJustification := do
  okOr (sdk.finish bytes) BridgeExtError.bridgeLockJustificationMalformed
  let inner ← okOr (sdk.expectTag bytes expectedTag) BridgeExtError.bridgeLockJustificationMalformed
  let items ← okOr (sdk.array inner 8) BridgeExtError.bridgeLockJustificationMalformed
  let version ← uintItem sdk (← index items 0)
  ensure (version = Bridge.BRIDGE_LOCK_JUSTIFICATION_VERSION)
    BridgeExtError.bridgeLockJustificationMalformed
  let sourceChainId ← uintItem sdk (← index items 1)
  let vault ← bytesN sdk 20 .bridgeLockAddressLength (← index items 2)
  let asset ← bytesN sdk 20 .bridgeLockAddressLength (← index items 3)
  let txid ← bytesN sdk 32 .bridgeLockBytes32Length (← index items 4)
  let logIndex ← uintItem sdk (← index items 5)
  let amount ← uintItem sdk (← index items 6)
  let nonce ← uintItem sdk (← index items 7)
  pure { sourceChainId, vault, asset, txid, logIndex, amount, nonce }

theorem exists_eight {α : Type} {items : List α} (h : items.length = 8) :
    ∃ a b c d e f g i, items = [a, b, c, d, e, f, g, i] := by
  match items, h with
  | [a, b, c, d, e, f, g, i], _ => exact ⟨a, b, c, d, e, f, g, i, rfl⟩

theorem fromCborBytes_eq (hsdk : ExactArrays sdk) (bytes : Bytes) (expectedTag : UInt64) :
    fromCborBytes sdk bytes expectedTag =
      lift (BridgeLockJustification.fromCborBytes sdk bytes expectedTag) := by
  refine bind_eq rfl fun _ _ => bind_eq rfl fun inner _ => bind_eq rfl fun items hitems => ?_
  obtain ⟨a, b, c, d, e, f, g, i, rfl⟩ := exists_eight (hsdk _ _ _ (okOr_eq_ok.1 hitems))
  refine index_bind (i := 0) rfl <| bind_eq rfl fun _ _ => bind_eq rfl fun _ _ => ?_
  refine index_bind (i := 1) rfl <| bind_eq rfl fun _ _ => ?_
  refine index_bind (i := 2) rfl <| bind_eq rfl fun _ _ => ?_
  refine index_bind (i := 3) rfl <| bind_eq rfl fun _ _ => ?_
  refine index_bind (i := 4) rfl <| bind_eq rfl fun _ _ => ?_
  refine index_bind (i := 5) rfl <| bind_eq rfl fun _ _ => ?_
  refine index_bind (i := 6) rfl <| bind_eq rfl fun _ _ => ?_
  exact index_bind (i := 7) rfl <| bind_eq rfl fun _ _ => rfl

/-- The lock digest over checked words. -/
def lockDigest {ε : Type} (config : BridgeConfig) (nonce : UInt64)
    (amount tokenId recipientCommitment : Bytes32) : Checked ε Bytes32 := do
  let nonceWord ← CheckedCore.u256FromU64 nonce
  let input ← CheckedCore.encode [.str Core.DOMAIN_LOCK, .u64 config.sourceChainId, .addr config.vault,
    .u256 nonceWord, .addr config.asset, .b32 config.tokenType, .b32 config.coinId,
    .u256 amount, .b32 tokenId, .b32 recipientCommitment]
  pure (sdk.keccak256 input)

theorem lockDigest_eq {ε : Type} (config : BridgeConfig) (nonce : UInt64)
    (amount tokenId recipientCommitment : Bytes32) :
    (lockDigest sdk config nonce amount tokenId recipientCommitment : Checked ε Bytes32) =
      lift (.ok (Bridge.lockDigest sdk config nonce amount tokenId recipientCommitment)) := by
  rw [lockDigest, CheckedCore.u256FromU64_eq, ok_bind,
    CheckedCore.encode_str (by decide) (by simp) (by simp [Core.Val.isDynamic])]
  rfl

/-- The obligation of a directly minted token, with its fields checked against the lock. -/
def bridgeLockObligation (genesis : CertifiedMintTransaction) (justificationTag : UInt64)
    (config : BridgeConfig) : Checked BridgeExtError BridgeLockObligation := do
  let mint := genesis.transaction
  ensure (mint.tokenType = config.tokenType.toList) BridgeExtError.bridgeLockTokenTypeMismatch
  let bytes ← okOr mint.justification BridgeExtError.bridgeLockJustificationMalformed
  let justification ← fromCborBytes sdk bytes justificationTag
  ensure (justification.sourceChainId = config.sourceChainId ∧
    justification.vault = config.vault ∧ justification.asset = config.asset)
    BridgeExtError.bridgeLockConfigMismatch
  let data ← okOr mint.data BridgeExtError.bridgeLockPaymentDataMissing
  let assets ← mapError (fun _ => BridgeExtError.bridgeLockPaymentDataMalformed)
    (decodeBridgedPaymentData sdk data)
  let asset ← okOr (assets.get config.coinId.toList) BridgeExtError.bridgeLockCoinMissing
  ensure (asset.value = justification.amount.toNat) BridgeExtError.bridgeLockAmountMismatch
  let recipientCommitment := sdk.sha256 mint.recipient.toCbor
  let amount ← mapError (fun _ => BridgeExtError.bridgeLockAmountMismatch)
    (u256FromBiguint sdk asset.value)
  let digest ← lockDigest sdk config justification.nonce amount (mint.tokenId sdk)
    recipientCommitment
  pure { nonce := justification.nonce, digest }

/-- An option as a result with the error `()`, then with another. -/
theorem mapError_okOr {ε α : Type} {c : Checked Unit α} {value : Option α} {error : ε}
    (h : c = lift (okOr value ())) : mapError (fun _ => error) c = lift (okOr value error) := by
  rw [mapError_eq h]
  cases value with
  | none | some => rfl

theorem bridgeLockObligation_eq (hsdk : ExactArrays sdk) (genesis : CertifiedMintTransaction)
    (justificationTag : UInt64) (config : BridgeConfig) :
    bridgeLockObligation sdk genesis justificationTag config =
      lift (Bridge.bridgeLockObligation sdk genesis justificationTag config) := by
  refine bind_eq rfl fun _ _ => bind_eq rfl fun bytes _ =>
    bind_eq (fromCborBytes_eq sdk hsdk bytes justificationTag) fun justification _ =>
      bind_eq rfl fun _ _ => bind_eq rfl fun data _ =>
        bind_eq (mapError_okOr (decodeBridgedPaymentData_eq sdk hsdk data)) fun assets _ =>
          bind_eq rfl fun asset _ => bind_eq rfl fun _ _ =>
            bind_eq (mapError_okOr (u256FromBiguint_eq sdk asset.value)) fun amount _ => ?_
  rw [lockDigest_eq]
  rfl

/-- One output asset of a split. -/
def verifyAllocations (mint : MintTransaction) (commitment : Bytes)
    (sourceAssets : PaymentAssetCollection) (manifest : SplitManifest)
    (pair : Asset × AllocationProof) : Checked BridgeExtError Unit := do
  let i ← okOr (sourceAssets.assets.findIdx? fun source => source.id == pair.1.id)
    BridgeExtError.splitSourceAssetMissing
  let root ← index manifest.roots i
  let rootSum ← okOr (sdk.verifyAllocation pair.2 (mint.tokenId sdk) commitment pair.1.value root)
    BridgeExtError.splitAllocationProofInvalid
  let source ← index sourceAssets.assets i
  ensure (rootSum = source.value) BridgeExtError.splitSourceAmountMismatch

/-- The manifest has as many roots as the source has assets. -/
theorem verifyAllocations_eq (mint : MintTransaction) (commitment : Bytes)
    {sourceAssets : PaymentAssetCollection} {manifest : SplitManifest}
    (hlength : sourceAssets.assets.length = manifest.roots.length) (pair : Asset × AllocationProof) :
    verifyAllocations sdk mint commitment sourceAssets manifest pair =
      lift (Bridge.verifyAllocations sdk mint commitment sourceAssets manifest pair) := by
  refine bind_eq rfl fun i hi => ?_
  have hlt : i < sourceAssets.assets.length := by
    obtain ⟨h, -⟩ := List.findIdx?_eq_some_iff_getElem.1 (okOr_eq_ok.1 hi)
    exact h
  have hroots : i < manifest.roots.length := hlength ▸ hlt
  have hroot : manifest.roots[i]? = some manifest.roots[i] := List.getElem?_eq_getElem hroots
  have hsource : sourceAssets.assets[i]? = some sourceAssets.assets[i] := List.getElem?_eq_getElem hlt
  rw [index_eq hroot, ok_bind, index_eq hsource]
  simp only [hroot, hsource]
  exact bind_eq rfl fun rootSum _ => rfl

/-- The checks of a split output against its burned source. -/
def verifySplitMint (output : Token) (justification : SplitMintJustification)
    (burnedObligations : Checked BridgeExtError (List BridgeLockObligation)) :
    Checked BridgeExtError (List BridgeLockObligation) := do
  let mint := output.genesis.transaction
  let outputPaymentBytes ← okOr mint.data BridgeExtError.bridgeLockPaymentDataMissing
  let outputAssets ← mapError (fun _ => BridgeExtError.bridgeLockPaymentDataMalformed)
    (decodeBridgedPaymentData sdk outputPaymentBytes)
  let burned := justification.token
  let source := burned.genesis.transaction
  ensure (mint.networkId = source.networkId) BridgeExtError.splitNetworkMismatch
  let obligations ← burnedObligations
  let burnTransfer ← okOr burned.transactions.getLast? BridgeExtError.splitBurnTransferMissing
  let manifestBytes ← okOr burnTransfer.transaction.data BridgeExtError.splitManifestMissing
  let manifest ← okOr (sdk.manifestFromCbor manifestBytes) BridgeExtError.splitManifestMalformed
  ensure (burnTransfer.transaction.recipient = sdk.burnPredicate (sdk.reasonHash manifest))
    BridgeExtError.splitBurnPredicateMismatch
  ensure (mint.tokenType = source.tokenType) BridgeExtError.splitTokenTypeMismatch
  let sourcePaymentBytes ← okOr source.data BridgeExtError.splitSourcePaymentDataMissing
  let sourceAssets ← mapError (fun _ => BridgeExtError.splitSourcePaymentDataMissing)
    (decodeBridgedPaymentData sdk sourcePaymentBytes)
  ensure (sourceAssets.assets.length = manifest.roots.length)
    BridgeExtError.splitManifestLengthMismatch
  ensure (justification.proofs.length = outputAssets.assets.length)
    BridgeExtError.splitProofCountMismatch
  let commitment := sdk.splitOutputCommitment (burned.id sdk) mint.networkId mint.recipient
    mint.salt (mint.tokenId sdk) mint.tokenType outputPaymentBytes
  (outputAssets.assets.zip justification.proofs).forM
    (verifyAllocations sdk mint commitment sourceAssets manifest)
  pure obligations

theorem verifySplitMint_eq (hsdk : ExactArrays sdk) (output : Token)
    (justification : SplitMintJustification)
    {checked : Checked BridgeExtError (List BridgeLockObligation)}
    {burned : Verify.Result (List BridgeLockObligation)} (hburned : checked = lift burned) :
    verifySplitMint sdk output justification checked =
      lift (Bridge.verifySplitMint sdk output justification burned) := by
  refine bind_eq rfl fun outputPaymentBytes _ =>
    bind_eq (mapError_okOr (decodeBridgedPaymentData_eq sdk hsdk outputPaymentBytes))
      fun outputAssets _ => bind_eq rfl fun _ _ => bind_eq hburned fun obligations _ =>
        bind_eq rfl fun burnTransfer _ => bind_eq rfl fun manifestBytes _ =>
          bind_eq rfl fun manifest _ => bind_eq rfl fun _ _ => bind_eq rfl fun _ _ =>
            bind_eq rfl fun sourcePaymentBytes _ => ?_
  refine bind_eq (mapError_okOr (decodeBridgedPaymentData_eq sdk hsdk sourcePaymentBytes))
    fun sourceAssets _ => bind_eq rfl fun _ hlength => bind_eq rfl fun _ _ =>
      bind_eq (forM_eq fun pair _ => ?_) fun _ _ => rfl
  exact verifyAllocations_eq sdk _ _ (ensure_eq_ok.1 hlength) pair

/-- The obligations of a verified token: its own lock, or those behind its split. -/
def bridgeLockObligationsForVerifiedToken (token : Token) (trustBase : RootTrustBase) (tag : UInt64)
    (config : BridgeConfig) : Checked BridgeExtError (List BridgeLockObligation) :=
  match (bridgeLockObligation sdk token.genesis tag config :
      Option (Except BridgeExtError BridgeLockObligation)) with
  | none => panic
  | some (.ok obligation) => pure [obligation]
  | some (.error directErr) =>
      match hbytes : token.genesis.transaction.justification with
      | none => lift (.error directErr)
      | some bytes =>
          match hsplit : sdk.splitFromCbor bytes with
          | none => lift (.error directErr)
          | some split =>
              have := Bridge.justificationSize_lt sdk hbytes hsplit
              verifySplitMint sdk token split do
                Verify.verifyTokenCertified sdk split.token trustBase
                bridgeLockObligationsForVerifiedToken split.token trustBase tag config
  termination_by Bridge.justificationSize token

theorem obligationsForVerifiedToken_eq (hsdk : ExactArrays sdk) (token : Token)
    (trustBase : RootTrustBase) (tag : UInt64) (config : BridgeConfig) :
    bridgeLockObligationsForVerifiedToken sdk token trustBase tag config =
      lift (Bridge.bridgeLockObligationsForVerifiedToken sdk token trustBase tag config) := by
  -- by induction on the splits behind the token, as the definition recurses
  fun_induction Bridge.bridgeLockObligationsForVerifiedToken sdk token trustBase tag config with
  | case1 token obligation hdirect =>
      rw [bridgeLockObligationsForVerifiedToken, bridgeLockObligation_eq sdk hsdk, hdirect]
      rfl
  | case2 token directErr hdirect hbytes =>
      rw [bridgeLockObligationsForVerifiedToken, bridgeLockObligation_eq sdk hsdk, hdirect]
      simp only [lift]
      split
      · rfl
      · next bytes hsome =>
        rw [hbytes] at hsome
        cases hsome
  | case3 token directErr hdirect bytes hbytes hsplit =>
      rw [bridgeLockObligationsForVerifiedToken, bridgeLockObligation_eq sdk hsdk, hdirect]
      simp only [lift]
      split
      · rfl
      · next bytes' hsome =>
        obtain rfl : bytes = bytes' := Option.some.inj (hbytes.symm.trans hsome)
        split
        · rfl
        · next split hsome' =>
          rw [hsplit] at hsome'
          cases hsome'
  -- a split: its source token is verified by the same function
  | case4 token directErr hdirect bytes hbytes split hsplit hsize ih =>
      rw [bridgeLockObligationsForVerifiedToken, bridgeLockObligation_eq sdk hsdk, hdirect]
      simp only [lift]
      split
      · next hnone =>
        rw [hbytes] at hnone
        cases hnone
      · next bytes' hsome =>
        obtain rfl : bytes = bytes' := Option.some.inj (hbytes.symm.trans hsome)
        split
        · next hnone =>
          rw [hsplit] at hnone
          cases hnone
        · next split' hsome' =>
          obtain rfl : split = split' := Option.some.inj (hsplit.symm.trans hsome')
          exact verifySplitMint_eq sdk hsdk token split (bind_eq rfl fun _ _ => ih)

/-- The obligations under one anchored root. -/
def bridgeLockObligationsForTokenAgainstRoot (token : Token) (trustBase : RootTrustBase)
    (anchorRoot : Bytes32) (tag : UInt64) (config : BridgeConfig) :
    Checked BridgeExtError (List BridgeLockObligation) := do
  verifyTokenAgainstRoot sdk token trustBase anchorRoot
  bridgeLockObligationsForVerifiedToken sdk token trustBase tag config

/-- The obligations under the token's own certificates. -/
def bridgeLockObligationsForTokenCertified (token : Token) (trustBase : RootTrustBase)
    (tag : UInt64) (config : BridgeConfig) : Checked BridgeExtError (List BridgeLockObligation) := do
  verifyTokenCertified sdk token trustBase
  bridgeLockObligationsForVerifiedToken sdk token trustBase tag config

/-- **The obligations of a token are collected** without a panic, whichever way it is verified. -/
theorem obligationsForToken_eq (hsdk : ExactArrays sdk) (token : Token) (trustBase : RootTrustBase)
    (tag : UInt64) (config : BridgeConfig) :
    (∀ anchorRoot,
      bridgeLockObligationsForTokenAgainstRoot sdk token trustBase anchorRoot tag config =
        lift (Bridge.bridgeLockObligationsForTokenAgainstRoot sdk token trustBase anchorRoot tag
          config)) ∧
    bridgeLockObligationsForTokenCertified sdk token trustBase tag config =
      lift (Bridge.bridgeLockObligationsForTokenCertified sdk token trustBase tag config) :=
  ⟨fun _ => bind_eq rfl fun _ _ => obligationsForVerifiedToken_eq sdk hsdk token trustBase tag config,
    bind_eq rfl fun _ _ => obligationsForVerifiedToken_eq sdk hsdk token trustBase tag config⟩

end Bridge

/-! ## Reasons -/

/-- A minimal amount of the reason, padded to a word. -/
def u256Bstr (item : Bytes) : Checked BridgeCoreError U256 := do
  let bytes ← okOr (sdk.bytesValue item) BridgeCoreError.burnReasonMalformed
  ensure (bytes.length ≤ 32 ∧ bytes.head? ≠ some 0) BridgeCoreError.burnReasonMalformed
  padWord bytes

theorem u256Bstr_eq (item : Bytes) : u256Bstr sdk item = lift (Guest.u256Bstr sdk item) :=
  bind_eq rfl fun _ _ => bind_eq rfl fun _ h => padWord_eq (ensure_eq_ok.1 h).1 _

/-- The strict decoding of a burn reason. -/
def decodeBridgeBackReason (expectedTag : UInt64) (bytes : Bytes) :
    Checked BridgeCoreError DecodedBridgeBackReason := do
  okOr (sdk.finish bytes) BridgeCoreError.burnReasonMalformed
  let inner ← okOr (sdk.expectTag bytes expectedTag) BridgeCoreError.burnReasonMalformed
  let items ← okOr (sdk.array inner 11) BridgeCoreError.burnReasonMalformed
  let version ← Guest.uint sdk (← index items 0)
  let sourceChainId ← Guest.uint sdk (← index items 1)
  let vault ← Guest.bytesN sdk 20 (← index items 2)
  let asset ← Guest.bytesN sdk 20 (← index items 3)
  let tokenType ← Guest.bytesN sdk 32 (← index items 4)
  let coinId ← Guest.bytesN sdk 32 (← index items 5)
  let recipient ← Guest.bytesN sdk 20 (← index items 6)
  let amount ← u256Bstr sdk (← index items 7)
  let feeRecipient ← Guest.bytesN sdk 20 (← index items 8)
  let feeAmount ← u256Bstr sdk (← index items 9)
  let deadline ← Guest.uint sdk (← index items 10)
  pure { version, sourceChainId, vault, asset, tokenType, coinId, recipient, amount,
         feeRecipient, feeAmount, deadline }

theorem exists_eleven {α : Type} {items : List α} (h : items.length = 11) :
    ∃ a b c d e f g i j k l, items = [a, b, c, d, e, f, g, i, j, k, l] := by
  match items, h with
  | [a, b, c, d, e, f, g, i, j, k, l], _ => exact ⟨a, b, c, d, e, f, g, i, j, k, l, rfl⟩

theorem decodeBridgeBackReason_eq (hsdk : ExactArrays sdk) (expectedTag : UInt64) (bytes : Bytes) :
    decodeBridgeBackReason sdk expectedTag bytes =
      lift (Guest.decodeBridgeBackReason sdk expectedTag bytes) := by
  refine bind_eq rfl fun _ _ => bind_eq rfl fun _ _ => bind_eq rfl fun items hitems => ?_
  obtain ⟨a, b, c, d, e, f, g, i, j, k, l, rfl⟩ := exists_eleven (hsdk _ _ _ (okOr_eq_ok.1 hitems))
  refine index_bind (i := 0) rfl <| bind_eq rfl fun _ _ => ?_
  refine index_bind (i := 1) rfl <| bind_eq rfl fun _ _ => ?_
  refine index_bind (i := 2) rfl <| bind_eq rfl fun _ _ => ?_
  refine index_bind (i := 3) rfl <| bind_eq rfl fun _ _ => ?_
  refine index_bind (i := 4) rfl <| bind_eq rfl fun _ _ => ?_
  refine index_bind (i := 5) rfl <| bind_eq rfl fun _ _ => ?_
  refine index_bind (i := 6) rfl <| bind_eq rfl fun _ _ => ?_
  refine index_bind (i := 7) rfl <| bind_eq (u256Bstr_eq sdk _) fun _ _ => ?_
  refine index_bind (i := 8) rfl <| bind_eq rfl fun _ _ => ?_
  refine index_bind (i := 9) rfl <| bind_eq (u256Bstr_eq sdk _) fun _ _ => ?_
  exact index_bind (i := 10) rfl <| bind_eq rfl fun _ _ => rfl

/-! ## Burns -/

/-- An amount of the payment data, padded to a word. -/
def u256FromAmountBytes (bytes : Bytes) : Checked Unit U256 := do
  ensure (¬ bytes.length > 32) ()
  padWord bytes

theorem u256FromAmountBytes_eq (bytes : Bytes) :
    u256FromAmountBytes bytes = lift (okOr (Guest.u256FromAmountBytes bytes) ()) := by
  rw [u256FromAmountBytes, Guest.u256FromAmountBytes]
  by_cases hlong : bytes.length > 32
  · rw [ensure, if_neg (not_not.2 hlong), if_pos hlong]
    rfl
  · rw [ensure, if_pos hlong, if_neg hlong]
    exact padWord_eq (Nat.not_lt.1 hlong) ()

/-- The check that the burned token carries what the leaf returns. -/
def validateCurrentValue (config : Core.BridgeConfig) (leaf : ReturnLeaf) (token : Token) :
    Checked BridgeCoreError Unit := do
  let data ← okOr token.genesis.transaction.data BridgeCoreError.wrongBurnAmount
  let payment ← mapError (fun _ => BridgeCoreError.wrongBurnAmount) (decodeBridgedPaymentData sdk data)
  let asset ← okOr (payment.get config.coinId.toList) BridgeCoreError.wrongBurnAmount
  let amount ← mapError (fun _ => BridgeCoreError.wrongBurnAmount)
    (u256FromAmountBytes (sdk.encodeAmount asset.value))
  ensure (amount = leaf.amount) BridgeCoreError.wrongBurnAmount

theorem validateCurrentValue_eq (hsdk : ExactArrays sdk) (config : Core.BridgeConfig)
    (leaf : ReturnLeaf) (token : Token) :
    validateCurrentValue sdk config leaf token =
      lift (Guest.validateCurrentValue sdk config leaf token) :=
  bind_eq rfl fun data _ =>
    bind_eq (mapError_okOr (decodeBridgedPaymentData_eq sdk hsdk data)) fun _ _ =>
      bind_eq rfl fun _ _ => bind_eq (mapError_okOr (u256FromAmountBytes_eq _)) fun _ _ => rfl

/-- The check of the last transfer of the token: it burns against the leaf's reason. -/
def validateTerminalBurn (config : Core.BridgeConfig) (cfgHash : Bytes32) (leaf : ReturnLeaf)
    (token : Token) : Checked BridgeCoreError Unit := do
  let burn ← okOr token.transactions.getLast? BridgeCoreError.burnTransferMissing
  let reasonBytes ← okOr burn.transaction.data BridgeCoreError.burnReasonMissing
  let expectedBurn := sdk.burnPredicate (sdk.sha256 reasonBytes).toList
  ensure (burn.transaction.recipient = expectedBurn) BridgeCoreError.wrongBurnPredicate
  let reason ← decodeBridgeBackReason sdk config.reasonTag reasonBytes
  ensure (reason.version = 1 ∧ reason.sourceChainId = config.sourceChainId ∧
    reason.vault = config.vault ∧ reason.asset = config.asset ∧
    reason.tokenType = config.tokenType ∧ reason.coinId = config.coinId ∧
    reason.recipient = leaf.recipient ∧ reason.amount = leaf.amount ∧
    reason.feeRecipient = leaf.feeRecipient ∧ reason.feeAmount = leaf.feeAmount ∧
    reason.deadline = leaf.deadline ∧ ¬ Guest.greaterThan reason.feeAmount reason.amount)
    BridgeCoreError.burnReasonMismatch
  let expectedNullifier ← Guest.burnNullifier sdk cfgHash burn.transaction
  ensure (leaf.nullifier = expectedNullifier) BridgeCoreError.wrongNullifier

theorem validateTerminalBurn_eq (hsdk : ExactArrays sdk) (config : Core.BridgeConfig)
    (cfgHash : Bytes32) (leaf : ReturnLeaf) (token : Token) :
    validateTerminalBurn sdk config cfgHash leaf token =
      lift (Guest.validateTerminalBurn sdk config cfgHash leaf token) :=
  bind_eq rfl fun _ _ => bind_eq rfl fun reasonBytes _ => bind_eq rfl fun _ _ =>
    bind_eq (decodeBridgeBackReason_eq sdk hsdk config.reasonTag reasonBytes) fun _ _ =>
      bind_eq rfl fun _ _ => bind_eq rfl fun _ _ => rfl

/-- The obligations of one burn by its own mode of verification, and the cache afterwards. -/
def burnObligations (config : Core.BridgeConfig) (burn : BridgeBurnWitness)
    (anchorRoots : List (UnicityCertificate × Bytes32)) :
    Checked BridgeCoreError
      (List Bridge.BridgeLockObligation × List (UnicityCertificate × Bytes32)) :=
  match burn.verification with
  | .anchored anchor => do
      let (root, anchorRoots) ← Guest.anchorRoot sdk burn.trustBase anchor anchorRoots
      let obligations ← mapError (fun _ => BridgeCoreError.tokenVerificationFailed)
        (bridgeLockObligationsForTokenAgainstRoot sdk burn.token burn.trustBase root
          burn.lockJustificationTag (Guest.sdkBridgeConfig config))
      pure (obligations, anchorRoots)
  | .certified => do
      let obligations ← mapError (fun _ => BridgeCoreError.tokenVerificationFailed)
        (bridgeLockObligationsForTokenCertified sdk burn.token burn.trustBase
          burn.lockJustificationTag (Guest.sdkBridgeConfig config))
      pure (obligations, anchorRoots)

theorem burnObligations_eq (hsdk : ExactArrays sdk) (config : Core.BridgeConfig)
    (burn : BridgeBurnWitness) (anchorRoots : List (UnicityCertificate × Bytes32)) :
    burnObligations sdk config burn anchorRoots =
      lift (Guest.burnObligations sdk config burn anchorRoots) := by
  rw [burnObligations, Guest.burnObligations]
  cases burn.verification with
  | anchored anchor =>
      exact bind_eq rfl fun pair _ =>
        bind_eq (mapError_eq ((obligationsForToken_eq sdk hsdk _ _ _ _).1 pair.1) _) fun _ _ => rfl
  | certified =>
      exact bind_eq (mapError_eq (obligationsForToken_eq sdk hsdk _ _ _ _).2 _) fun _ _ => rfl

/-- One turn of the loop of `validate_bridge_burns`. -/
def validateBurn (config : Core.BridgeConfig) (cfgHash trustBaseHash : Bytes32) (state : BurnsState)
    (pair : BridgeBurnWitness × ReturnLeaf) : Checked BridgeCoreError BurnsState := do
  let (burn, leaf) := pair
  ensure (canonicalHash sdk burn.trustBase = trustBaseHash) BridgeCoreError.wrongTrustBaseHash
  let (obligations, anchorRoots) ← burnObligations sdk config burn state.anchorRoots
  validateTerminalBurn sdk config cfgHash leaf burn.token
  validateCurrentValue sdk config leaf burn.token
  pure { anchorRoots, obligations := state.obligations ++
    obligations.map fun obligation => ⟨obligation.nonce, obligation.digest⟩ }

theorem validateBurn_eq (hsdk : ExactArrays sdk) (config : Core.BridgeConfig)
    (trustBaseHash : Bytes32) (state : BurnsState) (pair : BridgeBurnWitness × ReturnLeaf) :
    validateBurn sdk config (Core.configHash sdk.keccak256 config) trustBaseHash state pair =
      lift (Guest.validateBurn sdk config trustBaseHash state pair) :=
  bind_eq rfl fun _ _ => bind_eq (burnObligations_eq sdk hsdk config pair.1 state.anchorRoots)
    fun _ _ => bind_eq (validateTerminalBurn_eq sdk hsdk config _ pair.2 pair.1.token) fun _ _ =>
      bind_eq (validateCurrentValue_eq sdk hsdk config pair.2 pair.1.token) fun _ _ => rfl

/-! ## Reservations of the guest -/

/-- `isize::MAX` of the 32-bit guest: no vector has more bytes. -/
def ISIZE_MAX : Nat := 2 ^ 31 - 1

/-- The bytes of a `SourceLockRef`: a 64-bit nonce and a digest. -/
def LOCK_REF_SIZE : Nat := 40

/-- The bytes of a `ReturnLeaf`: four words or digests less the 24 of two addresses, and a deadline. -/
def RETURN_LEAF_SIZE : Nat := 144

/-- The checks of all burns, with the obligations gathered and compared. -/
def validateBridgeBurns (config : Core.BridgeConfig) (trustBaseHash : Bytes32)
    (leaves : List ReturnLeaf) (sortedLockRefs : List SourceLockRef)
    (burns : List BridgeBurnWitness) : Checked BridgeCoreError Unit := do
  ensure (burns ≠ [] ∧ burns.length = leaves.length) BridgeCoreError.wrongBatchSize
  let cfgHash ← CheckedCore.configHash sdk.keccak256 config
  reserve ISIZE_MAX burns.length LOCK_REF_SIZE
  let state ← (burns.zip leaves).foldlM (validateBurn sdk config cfgHash trustBaseHash) ⟨[], []⟩
  ensure (Guest.sortByNonce state.obligations = sortedLockRefs) BridgeCoreError.wrongLockObligation

/-- There are as many burns as leaves, and the leaves were reserved before. -/
theorem validateBridgeBurns_eq (hsdk : ExactArrays sdk) (config : Core.BridgeConfig)
    (trustBaseHash : Bytes32) {leaves : List ReturnLeaf}
    (hfits : leaves.length * RETURN_LEAF_SIZE ≤ ISIZE_MAX) (sortedLockRefs : List SourceLockRef)
    (burns : List BridgeBurnWitness) :
    validateBridgeBurns sdk config trustBaseHash leaves sortedLockRefs burns =
      lift (Guest.validateBridgeBurns sdk config trustBaseHash leaves sortedLockRefs burns) := by
  refine bind_eq rfl fun _ hcount => ?_
  have hreserve : burns.length * LOCK_REF_SIZE ≤ ISIZE_MAX := by
    rw [(ensure_eq_ok.1 hcount).2]
    unfold RETURN_LEAF_SIZE at hfits
    unfold LOCK_REF_SIZE
    omega
  rw [CheckedCore.configHash_eq, ok_bind, reserve_eq hreserve, ok_bind]
  exact bind_eq (foldlM_eq (fun state pair _ =>
    validateBurn_eq sdk hsdk config trustBaseHash state pair) _) fun _ _ => rfl

/-! ## The relation -/

/-- One leaf of `validate_accumulator_transition`. -/
def insertLeaf (running : Bytes32) (pair : ReturnLeaf × Accumulator.NonMembershipWitness) :
    Checked BridgeCoreError Bytes32 :=
  mapError (fun _ => BridgeCoreError.wrongAccumulatorWitness)
    (CheckedCore.insert sdk.sha256 running pair.1.nullifier pair.2)

theorem insertLeaf_panics (running : Bytes32) (pair : ReturnLeaf × Accumulator.NonMembershipWitness) :
    PanicsIff (Overruns pair.2) (insertLeaf sdk running pair) (Guest.insertLeaf sdk running pair) := by
  have hinsert := (CheckedCore.insert_panics sdk.sha256 running pair.1.nullifier pair.2).mapError
    fun _ => BridgeCoreError.wrongAccumulatorWitness
  have hresult : (okOr (Accumulator.insert sdk.sha256 running pair.1.nullifier pair.2) ()).mapError
      (fun _ => BridgeCoreError.wrongAccumulatorWitness) = Guest.insertLeaf sdk running pair := by
    unfold Guest.insertLeaf
    cases Accumulator.insert sdk.sha256 running pair.1.nullifier pair.2 with
    | none | some => rfl
  rwa [hresult] at hinsert

/-- The insertion of every nullifier, from the old root to the new one. -/
def validateAccumulatorTransition (spentRootOld spentRootNew : Bytes32) (leaves : List ReturnLeaf)
    (witnesses : List Accumulator.NonMembershipWitness) : Checked BridgeCoreError Unit := do
  ensure (leaves.length = witnesses.length) BridgeCoreError.wrongBatchSize
  let running ← (leaves.zip witnesses).foldlM (insertLeaf sdk) spentRootOld
  ensure (running = spentRootNew) BridgeCoreError.wrongSpentRootNew

/-- The transition check comes to a witness whose steps go on below depth 0: there are as many
witnesses as leaves, and those before it are accepted. -/
def ReachesOverrun (spentRootOld : Bytes32) (leaves : List ReturnLeaf)
    (witnesses : List Accumulator.NonMembershipWitness) : Prop :=
  leaves.length = witnesses.length ∧ ∃ front pair back running,
    leaves.zip witnesses = front ++ pair :: back ∧
      front.foldlM (Guest.insertLeaf sdk) spentRootOld = .ok running ∧ Overruns pair.2

theorem validateAccumulatorTransition_panics (spentRootOld spentRootNew : Bytes32)
    (leaves : List ReturnLeaf) (witnesses : List Accumulator.NonMembershipWitness) :
    PanicsIff (ReachesOverrun sdk spentRootOld leaves witnesses)
      (validateAccumulatorTransition sdk spentRootOld spentRootNew leaves witnesses)
      (Guest.validateAccumulatorTransition sdk spentRootOld spentRootNew leaves witnesses) := by
  refine (PanicsIff.after rfl fun _ hcount => (PanicsIff.foldlM (fun running pair =>
    insertLeaf_panics sdk running pair) (leaves.zip witnesses) spentRootOld).before
      fun _ _ _ => rfl).congr ?_
  exact ⟨fun ⟨_, hcount, hreach⟩ => ⟨ensure_eq_ok.1 hcount, hreach⟩,
    fun ⟨hcount, hreach⟩ => ⟨(), ensure_eq_ok.2 hcount, hreach⟩⟩

/-- `execute` over the checked functions. -/
def execute (input : GuestInput) : Checked BridgeCoreError PublicValues := do
  CheckedCore.validatePublicValues sdk.keccak256 input.config input.publicValues input.returnLeaves
    input.sortedLockRefs
  validateAccumulatorTransition sdk input.publicValues.spentRootOld
    input.publicValues.spentRootNew input.returnLeaves input.witness.accumulatorWitnesses
  validateBridgeBurns sdk input.config input.publicValues.trustBaseHash input.returnLeaves
    input.sortedLockRefs input.witness.bridgeBurns
  pure input.publicValues

/-- The public values pass their checks and the transition check reaches a witness that overruns. -/
def Overrunning (input : GuestInput) : Prop :=
  Core.validatePublicValues sdk.keccak256 input.config input.publicValues input.returnLeaves
      input.sortedLockRefs = .ok () ∧
    ReachesOverrun sdk input.publicValues.spentRootOld input.returnLeaves
      input.witness.accumulatorWitnesses

/-- **The relation panics** exactly on an accumulator witness whose steps go on below depth 0. -/
theorem execute_panics (hsdk : ExactArrays sdk) (input : GuestInput)
    (hfits : input.returnLeaves.length * RETURN_LEAF_SIZE ≤ ISIZE_MAX) :
    PanicsIff (Overrunning sdk input) (execute sdk input) (Guest.execute sdk input) := by
  refine (PanicsIff.after (CheckedCore.validatePublicValues_eq _ _ _ _ _) fun _ _ =>
    (validateAccumulatorTransition_panics sdk _ _ _ _).before fun _ _ _ =>
      bind_eq (validateBridgeBurns_eq sdk hsdk _ _ hfits _ _) fun _ _ => rfl).congr ?_
  exact ⟨fun ⟨_, hvalues, hreach⟩ => ⟨hvalues, hreach⟩, fun ⟨hvalues, hreach⟩ => ⟨(), hvalues, hreach⟩⟩

end UnicityBridge.CheckedGuest
