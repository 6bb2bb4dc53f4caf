import UnicityBridge.Accumulator
import UnicityBridge.Bridge

/-!
# The guest relation

`prover/crates/guest/src/lib.rs`: `execute` checks the public values against the leaves and lock
references, chains the accumulator witnesses of the leaves, and verifies one burned token for each
leaf. Anchor certificates are verified once for each distinct certificate and kept in a cache.
-/

set_option autoImplicit false

namespace UnicityBridge.Guest

open UnicityBridge.Lib UnicityBridge.Core UnicityBridge.TokenSdk UnicityBridge.Verify
open UnicityBridge.Accumulator (NonMembershipWitness)

/-- How the certificates of a burned token are verified. -/
inductive BurnVerification where
  | anchored (anchor : UnicityCertificate)
  | certified
  deriving DecidableEq

/-- The burned token with what its verification needs. -/
structure BridgeBurnWitness where
  token : Token
  trustBase : RootTrustBase
  verification : BurnVerification
  lockJustificationTag : UInt64
  deriving DecidableEq

/-- What the prover knows beside the public batch. -/
structure RelationWitness where
  accumulatorWitnesses : List NonMembershipWitness
  bridgeBurns : List BridgeBurnWitness
  deriving DecidableEq

/-- The input of the relation. The wire counts leaves in 32 bits and the guest's `usize` has 32
bits, so a vector of leaves is shorter than `2 ^ 32`. -/
structure GuestInput where
  config : Core.BridgeConfig
  publicValues : PublicValues
  returnLeaves : List ReturnLeaf
  sortedLockRefs : List SourceLockRef
  witness : RelationWitness
  leaves_lt : returnLeaves.length < 2 ^ 32

/-- The decoded reason a token was burned for. -/
structure DecodedBridgeBackReason where
  version : UInt64
  sourceChainId : UInt64
  vault : Bytes20
  asset : Bytes20
  tokenType : Bytes32
  coinId : Bytes32
  recipient : Bytes20
  amount : U256
  feeRecipient : Bytes20
  feeAmount : U256
  deadline : UInt64
  deriving DecidableEq

variable (sdk : Sdk)

/-- An unsigned integer item of a reason. -/
def uint (item : Bytes) : Core.Result UInt64 := okOr (sdk.uint item) .burnReasonMalformed

/-- A byte string item of exactly `n` bytes. -/
def bytesN (n : Nat) (item : Bytes) : Core.Result (ByteArr n) := do
  let bytes ← okOr (sdk.bytesValue item) .burnReasonMalformed
  okOr (toByteArr n bytes) .burnReasonMalformed

/-- A big-endian number without leading zero bytes, as a word. -/
def u256Bstr (item : Bytes) : Core.Result U256 := do
  let bytes ← okOr (sdk.bytesValue item) .burnReasonMalformed
  ensure (bytes.length ≤ 32 ∧ bytes.head? ≠ some 0) .burnReasonMalformed
  okOr (toByteArr 32 (List.replicate (32 - bytes.length) 0 ++ bytes)) .burnReasonMalformed

/-- The eleven fields of a burn's reason, tagged with `expectedTag`. -/
def decodeBridgeBackReason (expectedTag : UInt64) (bytes : Bytes) :
    Core.Result DecodedBridgeBackReason := do
  okOr (sdk.finish bytes) .burnReasonMalformed
  let inner ← okOr (sdk.expectTag bytes expectedTag) .burnReasonMalformed
  let items ← okOr (sdk.array inner 11) .burnReasonMalformed
  match items with
  | [version, chain, vault, asset, tokenType, coinId, recipient, amount, feeRecipient, feeAmount,
      deadline] => do
      let version ← uint sdk version
      let sourceChainId ← uint sdk chain
      let vault ← bytesN sdk 20 vault
      let asset ← bytesN sdk 20 asset
      let tokenType ← bytesN sdk 32 tokenType
      let coinId ← bytesN sdk 32 coinId
      let recipient ← bytesN sdk 20 recipient
      let amount ← u256Bstr sdk amount
      let feeRecipient ← bytesN sdk 20 feeRecipient
      let feeAmount ← u256Bstr sdk feeAmount
      let deadline ← uint sdk deadline
      .ok { version, sourceChainId, vault, asset, tokenType, coinId, recipient, amount,
            feeRecipient, feeAmount, deadline }
  | _ => .error .burnReasonMalformed

/-- Words compare as the byte strings do. -/
def greaterThan (left right : U256) : Prop := right.toList < left.toList

instance (left right : U256) : Decidable (greaterThan left right) :=
  inferInstanceAs (Decidable (right.toList < left.toList))

/-- The amount of a payment asset as a word; `none` above 32 bytes. -/
def u256FromAmountBytes (bytes : Bytes) : Option U256 :=
  if bytes.length > 32 then none
  else toByteArr 32 (List.replicate (32 - bytes.length) 0 ++ bytes)

/-- The part of the configuration the SDK extension reads. -/
def sdkBridgeConfig (config : Core.BridgeConfig) : Bridge.BridgeConfig where
  sourceChainId := config.sourceChainId
  vault := config.vault
  asset := config.asset
  tokenType := config.tokenType
  coinId := config.coinId

/-- The check that the burned token carries what the leaf returns. -/
def validateCurrentValue (config : Core.BridgeConfig) (leaf : ReturnLeaf) (token : Token) :
    Core.Result Unit := do
  let data ← okOr token.genesis.transaction.data .wrongBurnAmount
  let payment ← okOr (Bridge.decodeBridgedPaymentData sdk data) .wrongBurnAmount
  let asset ← okOr (payment.get config.coinId.toList) .wrongBurnAmount
  let amount ← okOr (u256FromAmountBytes (sdk.encodeAmount asset.value)) .wrongBurnAmount
  ensure (amount = leaf.amount) .wrongBurnAmount

/-- The nullifier of the transfer that burned a token. -/
def burnNullifier (cfgHash : Bytes32) (burn : TransferTransaction) : Core.Result Bytes32 := do
  let stateId := (Transaction.transfer burn).stateId sdk
  let txHash ← okOr (toByteArr 32 (sdk.transactionHash (.transfer burn)).data) .wrongNullifier
  .ok (nullifier sdk.sha256 cfgHash (burnTransitionId sdk.sha256 stateId txHash))

/-- The check that the token's last transfer burns it against the leaf's reason. -/
def validateTerminalBurn (config : Core.BridgeConfig) (cfgHash : Bytes32) (leaf : ReturnLeaf)
    (token : Token) : Core.Result Unit := do
  let burn ← okOr token.transactions.getLast? .burnTransferMissing
  let reasonBytes ← okOr burn.transaction.data .burnReasonMissing
  let expectedBurn := sdk.burnPredicate (sdk.sha256 reasonBytes).toList
  ensure (burn.transaction.recipient = expectedBurn) .wrongBurnPredicate
  let reason ← decodeBridgeBackReason sdk config.reasonTag reasonBytes
  ensure (reason.version = 1 ∧ reason.sourceChainId = config.sourceChainId ∧
    reason.vault = config.vault ∧ reason.asset = config.asset ∧
    reason.tokenType = config.tokenType ∧ reason.coinId = config.coinId ∧
    reason.recipient = leaf.recipient ∧ reason.amount = leaf.amount ∧
    reason.feeRecipient = leaf.feeRecipient ∧ reason.feeAmount = leaf.feeAmount ∧
    reason.deadline = leaf.deadline ∧ ¬ greaterThan reason.feeAmount reason.amount)
    .burnReasonMismatch
  let expectedNullifier ← burnNullifier sdk cfgHash burn.transaction
  ensure (leaf.nullifier = expectedNullifier) .wrongNullifier

/-- The anchors verified so far with their roots, and the obligations collected so far. -/
structure BurnsState where
  anchorRoots : List (UnicityCertificate × Bytes32)
  obligations : List SourceLockRef

/-- The root of an anchor and the cache afterwards: one quorum check for each distinct anchor. -/
def anchorRoot (trustBase : RootTrustBase) (anchor : UnicityCertificate)
    (anchorRoots : List (UnicityCertificate × Bytes32)) :
    Core.Result (Bytes32 × List (UnicityCertificate × Bytes32)) :=
  match anchorRoots.find? fun entry => entry.1 == anchor with
  | some entry => .ok (entry.2, anchorRoots)
  | none => do
      let root ← (verifyAnchorCertificate sdk trustBase anchor).mapError
        fun _ => .tokenVerificationFailed
      .ok (root, anchorRoots ++ [(anchor, root)])

/-- The obligations of one burn by its own mode of verification, and the cache afterwards. -/
def burnObligations (config : Core.BridgeConfig) (burn : BridgeBurnWitness)
    (anchorRoots : List (UnicityCertificate × Bytes32)) :
    Core.Result (List Bridge.BridgeLockObligation × List (UnicityCertificate × Bytes32)) :=
  match burn.verification with
  | .anchored anchor => do
      let (root, anchorRoots) ← anchorRoot sdk burn.trustBase anchor anchorRoots
      let obligations ← (Bridge.bridgeLockObligationsForTokenAgainstRoot sdk burn.token
        burn.trustBase root burn.lockJustificationTag (sdkBridgeConfig config)).mapError
          fun _ => .tokenVerificationFailed
      .ok (obligations, anchorRoots)
  | .certified => do
      let obligations ← (Bridge.bridgeLockObligationsForTokenCertified sdk burn.token
        burn.trustBase burn.lockJustificationTag (sdkBridgeConfig config)).mapError
          fun _ => .tokenVerificationFailed
      .ok (obligations, anchorRoots)

/-- One turn of the loop of `validate_bridge_burns`. -/
def validateBurn (config : Core.BridgeConfig) (trustBaseHash : Bytes32) (state : BurnsState)
    (pair : BridgeBurnWitness × ReturnLeaf) : Core.Result BurnsState := do
  let (burn, leaf) := pair
  ensure (canonicalHash sdk burn.trustBase = trustBaseHash) .wrongTrustBaseHash
  let (obligations, anchorRoots) ← burnObligations sdk config burn state.anchorRoots
  validateTerminalBurn sdk config (configHash sdk.keccak256 config) leaf burn.token
  validateCurrentValue sdk config leaf burn.token
  .ok { anchorRoots, obligations := state.obligations ++
    obligations.map fun obligation => ⟨obligation.nonce, obligation.digest⟩ }

/-- Stable sort by nonce. -/
def sortByNonce (refs : List SourceLockRef) : List SourceLockRef :=
  refs.mergeSort fun a b => a.nonce ≤ b.nonce

/-- The checks of all burns, and that the references are those the burns oblige to. -/
def validateBridgeBurns (config : Core.BridgeConfig) (trustBaseHash : Bytes32)
    (leaves : List ReturnLeaf) (sortedLockRefs : List SourceLockRef)
    (burns : List BridgeBurnWitness) : Core.Result Unit := do
  ensure (burns ≠ [] ∧ burns.length = leaves.length) .wrongBatchSize
  let state ← (burns.zip leaves).foldlM (validateBurn sdk config trustBaseHash) ⟨[], []⟩
  ensure (sortByNonce state.obligations = sortedLockRefs) .wrongLockObligation

/-- One leaf of `validate_accumulator_transition`. -/
def insertLeaf (running : Bytes32) (pair : ReturnLeaf × NonMembershipWitness) :
    Core.Result Bytes32 :=
  okOr (Accumulator.insert sdk.sha256 running pair.1.nullifier pair.2) .wrongAccumulatorWitness

/-- Insertion of every nullifier, from the old root to the new one. -/
def validateAccumulatorTransition (spentRootOld spentRootNew : Bytes32) (leaves : List ReturnLeaf)
    (witnesses : List NonMembershipWitness) : Core.Result Unit := do
  ensure (leaves.length = witnesses.length) .wrongBatchSize
  let running ← (leaves.zip witnesses).foldlM (insertLeaf sdk) spentRootOld
  ensure (running = spentRootNew) .wrongSpentRootNew

/-- The relation the guest proves. -/
def execute (input : GuestInput) : Core.Result PublicValues := do
  validatePublicValues sdk.keccak256 input.config input.publicValues input.returnLeaves
    input.sortedLockRefs
  validateAccumulatorTransition sdk input.publicValues.spentRootOld
    input.publicValues.spentRootNew input.returnLeaves input.witness.accumulatorWitnesses
  validateBridgeBurns sdk input.config input.publicValues.trustBaseHash input.returnLeaves
    input.sortedLockRefs input.witness.bridgeBurns
  .ok input.publicValues

/-- What the guest program commits: the encoded public values, then their digest. -/
def committedOutput (publicValues : PublicValues) : Bytes :=
  publicValuesAbi publicValues ++ (publicValuesDigest sdk.keccak256 publicValues).toList

end UnicityBridge.Guest
