import UnicityBridge.Lib.Result
import UnicityBridge.TokenSdk

/-!
# Token verification

`prover/crates/sdk-ext/src/verify.rs` and `trust.rs`: a token is verified transaction by transaction,
each by inclusion in a tree whose root the root chain certified. In anchored mode one certificate
covers the whole token, in certified mode every transaction carries its own.

The last part says what acceptance means in both modes: the genesis is locked to the minter key of
its token id, and every transaction is included under a certified root and unlocked by a signature
(`VerifiedToken`).
-/

set_option autoImplicit false

namespace UnicityBridge.Verify

open UnicityBridge.Lib UnicityBridge.TokenSdk

/-- The errors of `sdk-ext`. -/
inductive BridgeExtError where
  | invalidTrustBase
  | networkMismatch
  | invalidMintLockScript
  | certificationDataMismatch
  | requestExpired
  | transactionHashMismatch
  | pathInvalid
  | shardMismatch
  | sealNetworkMismatch
  | sealRootMismatch
  | quorumNotMet
  | notAuthenticated
  | genesis
  | transfer
  | bridgeLockJustificationMalformed
  | bridgeLockAddressLength
  | bridgeLockBytes32Length
  | bridgeLockConfigMismatch
  | bridgeLockTokenTypeMismatch
  | bridgeLockPaymentDataMissing
  | bridgeLockPaymentDataMalformed
  | bridgeLockCoinMissing
  | bridgeLockAmountMismatch
  | splitMalformed
  | splitNetworkMismatch
  | splitBurnTransferMissing
  | splitManifestMissing
  | splitManifestMalformed
  | splitBurnPredicateMismatch
  | splitTokenTypeMismatch
  | splitSourcePaymentDataMissing
  | splitManifestLengthMismatch
  | splitProofCountMismatch
  | splitSourceAssetMissing
  | splitAllocationProofInvalid
  | splitSourceAmountMismatch
  deriving DecidableEq

/-- A result of the verification. -/
abbrev Result := Except BridgeExtError

variable (sdk : Sdk)

/-- The canonical CBOR document of a trust base. -/
def canonicalBytes (trustBase : RootTrustBase) : Bytes :=
  sdk.encodeArray [sdk.encodeUint trustBase.version,
    sdk.encodeUint trustBase.networkId.id.toUInt64, sdk.encodeUint trustBase.epoch,
    sdk.encodeUint trustBase.epochStartRound,
    sdk.encodeArray (trustBase.rootNodes.map fun node =>
      sdk.encodeArray [sdk.encodeTextString node.nodeId,
        sdk.encodeByteString node.signingKey.bytes, sdk.encodeUint node.stake]),
    sdk.encodeUint trustBase.quorumThreshold]

/-- SHA-256 of the canonical document, which `PublicValues.trustBaseHash` commits to. -/
def canonicalHash (trustBase : RootTrustBase) : Bytes32 :=
  sdk.sha256 (canonicalBytes sdk trustBase)

/-- The owner's signature unlocks the state that is spent. -/
def verifyPredicate (lockScript : EncodedPredicate) (sourceStateHash transactionHash : DataHash)
    (unlockScript : Bytes) : Result Unit := do
  let key ← okOr (sdk.signatureKey lockScript) .notAuthenticated
  ensure (sdk.verifySignatureUnlock key sourceStateHash transactionHash unlockScript = true)
    .notAuthenticated

/-- A request without an expiry never expires. -/
local instance decidableExpired (time : UInt64) (expiresAt : Option UInt64) :
    Decidable (∀ t ∈ expiresAt, time < t) := Option.decidableForallMem expiresAt

/-- The transaction was included under this root, before it expired. -/
def verifyInclusionAgainstRoot (expectedRoot : Bytes32) (proof : InclusionProof)
    (transaction : Transaction) : Result Unit := do
  let data := proof.certificationData
  ensure (data.lockScript = transaction.lockScript sdk ∧
    data.sourceStateHash = transaction.sourceStateHash sdk ∧
    data.expiresAt = transaction.expiresAt) .certificationDataMismatch
  let txHash := sdk.transactionHash transaction
  ensure (data.transactionHash = txHash) .transactionHashMismatch
  ensure (∀ expiresAt ∈ data.expiresAt, proof.referenceTime < expiresAt) .requestExpired
  let stateId := transaction.stateId sdk
  let leafValue := sdk.leafValue txHash proof.referenceTime
  ensure (sdk.verifyInclusion proof.inclusionCertificate stateId leafValue
    (DataHash.sha256 expectedRoot) = true) .pathInvalid
  let shard := proof.unicityCertificate.shard
  ensure (shard.bits.length = 0 ∨ sdk.isPrefixOf shard stateId = true) .shardMismatch
  verifyPredicate sdk (transaction.lockScript sdk) (transaction.sourceStateHash sdk)
    data.transactionHash data.unlockScript

/-- The node ids and keys counted towards the quorum, after one more signature entry. -/
def countSignature (trustBase : RootTrustBase) (sealHash : DataHash)
    (counted : List String × List PublicKey) (entry : String × Bytes) :
    List String × List PublicKey :=
  if entry.1 ∈ counted.1 then counted
  else
    match sdk.signingKey trustBase entry.1 with
    | none => counted
    | some key =>
        if key ∈ counted.2 then counted
        else
          match sdk.decodeSignature entry.2 with
          | none => counted
          | some signature =>
              if sdk.verifySignature signature sealHash.data key then
                (entry.1 :: counted.1, key :: counted.2)
              else counted

/-- A quorum of the trust base sealed the certificate; the root that it certifies. -/
def verifyUnicityCertificate (trustBase : RootTrustBase) (certificate : UnicityCertificate) :
    Result Bytes32 := do
  let unicitySeal := certificate.unicitySeal
  ensure (unicitySeal.networkId = trustBase.networkId) .sealNetworkMismatch
  let computed ← okOr (sdk.computedSealHash certificate) .sealRootMismatch
  ensure (computed.data = unicitySeal.hash) .sealRootMismatch
  let sealHash := sdk.sealHash unicitySeal
  let counted := unicitySeal.signatures.foldl (countSignature sdk trustBase sealHash) ([], [])
  ensure (trustBase.quorumThreshold.toNat ≤ counted.1.length) .quorumNotMet
  okOr (toByteArr 32 certificate.inputRecordHash) .pathInvalid

/-- The certificate of an anchor, under a trust base that is valid in itself. -/
def verifyAnchorCertificate (trustBase : RootTrustBase) (certificate : UnicityCertificate) :
    Result Bytes32 := do
  ensure (sdk.trustBaseValid trustBase = true) .invalidTrustBase
  verifyUnicityCertificate sdk trustBase certificate

/-- The mint is locked to the minter key of its token id. -/
def checkMintLockScript (token : Token) : Result Unit := do
  let key ← okOr (sdk.minterKey (token.genesis.transaction.tokenId sdk)) .invalidMintLockScript
  let expectedLock := sdk.signaturePredicate key
  ensure (token.genesis.inclusionProof.certificationData.lockScript = expectedLock)
    .invalidMintLockScript

/-- The mint of a token under one root. -/
def verifyGenesisAgainstRoot (token : Token) (trustBase : RootTrustBase) (anchorRoot : Bytes32) :
    Result Unit := do
  let mint := token.genesis.transaction
  ensure (mint.networkId = trustBase.networkId) .networkMismatch
  checkMintLockScript sdk token
  (verifyInclusionAgainstRoot sdk anchorRoot token.genesis.inclusionProof (.mint mint)).mapError
    fun _ => .genesis

/-- The whole history of a token under one root. -/
def verifyTokenAgainstRoot (token : Token) (trustBase : RootTrustBase) (anchorRoot : Bytes32) :
    Result Unit := do
  ensure (sdk.trustBaseValid trustBase = true) .invalidTrustBase
  verifyGenesisAgainstRoot sdk token trustBase anchorRoot
  token.transactions.forM fun transfer =>
    (verifyInclusionAgainstRoot sdk anchorRoot transfer.inclusionProof
      (.transfer transfer.transaction)).mapError fun _ => .transfer

/-- The transaction under the root of its own certificate. -/
def verifyInclusionWithOwnCertificate (trustBase : RootTrustBase) (proof : InclusionProof)
    (transaction : Transaction) : Result Unit := do
  let root ← verifyUnicityCertificate sdk trustBase proof.unicityCertificate
  verifyInclusionAgainstRoot sdk root proof transaction

/-- The mint of a token under its own certificate. -/
def verifyGenesisWithOwnCertificate (token : Token) (trustBase : RootTrustBase) : Result Unit := do
  let mint := token.genesis.transaction
  ensure (mint.networkId = trustBase.networkId) .networkMismatch
  checkMintLockScript sdk token
  (verifyInclusionWithOwnCertificate sdk trustBase token.genesis.inclusionProof
    (.mint mint)).mapError fun _ => .genesis

/-- The whole history of a token, each transaction under its own certificate. -/
def verifyTokenCertified (token : Token) (trustBase : RootTrustBase) : Result Unit := do
  ensure (sdk.trustBaseValid trustBase = true) .invalidTrustBase
  verifyGenesisWithOwnCertificate sdk token trustBase
  token.transactions.forM fun transfer =>
    (verifyInclusionWithOwnCertificate sdk trustBase transfer.inclusionProof
      (.transfer transfer.transaction)).mapError fun _ => .transfer

/-! ## What verification establishes -/

/-- The aggregator included the transaction under a root that a trust base with an admitted hash
certifies, and a signature unlocked it. -/
def Certified (admitted : Bytes32 → Prop) (transaction : Transaction) : Prop :=
  ∃ trustBase certificate root proof, admitted (canonicalHash sdk trustBase) ∧
    verifyAnchorCertificate sdk trustBase certificate = .ok root ∧
    verifyInclusionAgainstRoot sdk root proof transaction = .ok ()

/-- The genesis is locked to the minter key of its token id, and it and every transfer are
certified. -/
structure VerifiedToken (admitted : Bytes32 → Prop) (token : Token) : Prop where
  minter : ∃ key, sdk.minterKey (token.genesis.transaction.tokenId sdk) = some key ∧
    sdk.mintLockScript token.genesis.transaction = sdk.signaturePredicate key
  genesis : Certified sdk admitted (.mint token.genesis.transaction)
  transfers : ∀ transfer ∈ token.transactions, Certified sdk admitted (.transfer transfer.transaction)

variable {sdk} {admitted : Bytes32 → Prop}

theorem verifyInclusionAgainstRoot_ok {root : Bytes32} {proof : InclusionProof}
    {transaction : Transaction}
    (h : verifyInclusionAgainstRoot sdk root proof transaction = .ok ()) :
    proof.certificationData.lockScript = transaction.lockScript sdk ∧
      ∃ key, sdk.signatureKey (transaction.lockScript sdk) = some key := by
  simp only [verifyInclusionAgainstRoot, verifyPredicate, bind_eq_ok, okOr_eq_ok, ensure_eq_ok] at h
  obtain ⟨-, ⟨hlock, -, -⟩, -, -, -, -, -, -, -, -, key, hkey, -⟩ := h
  exact ⟨hlock, key, hkey⟩

/-- Only a signature predicate is ever unlocked. -/
theorem Certified.signatureKey {transaction : Transaction}
    (h : Certified sdk admitted transaction) :
    ∃ key, sdk.signatureKey (transaction.lockScript sdk) = some key := by
  obtain ⟨_, _, _, _, -, -, hinclusion⟩ := h
  exact (verifyInclusionAgainstRoot_ok hinclusion).2

theorem checkMintLockScript_ok {token : Token} {root : Bytes32}
    (h : checkMintLockScript sdk token = .ok ())
    (hinclusion : verifyInclusionAgainstRoot sdk root token.genesis.inclusionProof
      (.mint token.genesis.transaction) = .ok ()) :
    ∃ key, sdk.minterKey (token.genesis.transaction.tokenId sdk) = some key ∧
      sdk.mintLockScript token.genesis.transaction = sdk.signaturePredicate key := by
  simp only [checkMintLockScript, bind_eq_ok, okOr_eq_ok, ensure_eq_ok] at h
  obtain ⟨key, hkey, hlock⟩ := h
  exact ⟨key, hkey, (verifyInclusionAgainstRoot_ok hinclusion).1.symm.trans hlock⟩

/-- **Certified mode**: each transaction is certified by its own certificate. -/
theorem verifiedToken_of_certified {token : Token} {trustBase : RootTrustBase}
    (hadmitted : admitted (canonicalHash sdk trustBase))
    (h : verifyTokenCertified sdk token trustBase = .ok ()) : VerifiedToken sdk admitted token := by
  simp only [verifyTokenCertified, verifyGenesisWithOwnCertificate,
    verifyInclusionWithOwnCertificate, bind_eq_ok, ensure_eq_ok, mapError_eq_ok, forM_eq_ok] at h
  obtain ⟨-, hvalid, _, ⟨-, -, _, hmint, root, hroot, hgenesis⟩, htransfers⟩ := h
  have hanchor : ∀ {certificate r}, verifyUnicityCertificate sdk trustBase certificate = .ok r →
      verifyAnchorCertificate sdk trustBase certificate = .ok r := by
    intro certificate r hr
    simp only [verifyAnchorCertificate, bind_eq_ok, ensure_eq_ok]
    exact ⟨(), hvalid, hr⟩
  refine ⟨checkMintLockScript_ok hmint hgenesis,
    ⟨trustBase, _, root, _, hadmitted, hanchor hroot, hgenesis⟩, fun transfer htransfer => ?_⟩
  obtain ⟨r, hr, hincluded⟩ := htransfers transfer htransfer
  exact ⟨trustBase, _, r, _, hadmitted, hanchor hr, hincluded⟩

/-- **Anchored mode**: one certificate certifies all transactions. -/
theorem verifiedToken_of_root {token : Token} {trustBase anchorBase : RootTrustBase}
    {anchor : UnicityCertificate} {root : Bytes32}
    (hadmitted : admitted (canonicalHash sdk anchorBase))
    (hanchor : verifyAnchorCertificate sdk anchorBase anchor = .ok root)
    (h : verifyTokenAgainstRoot sdk token trustBase root = .ok ()) :
    VerifiedToken sdk admitted token := by
  simp only [verifyTokenAgainstRoot, verifyGenesisAgainstRoot, bind_eq_ok, ensure_eq_ok,
    mapError_eq_ok, forM_eq_ok] at h
  obtain ⟨-, -, _, ⟨-, -, _, hmint, hgenesis⟩, htransfers⟩ := h
  exact ⟨checkMintLockScript_ok hmint hgenesis,
    ⟨anchorBase, anchor, root, _, hadmitted, hanchor, hgenesis⟩, fun transfer htransfer =>
      ⟨anchorBase, anchor, root, _, hadmitted, hanchor, htransfers transfer htransfer⟩⟩

end UnicityBridge.Verify
