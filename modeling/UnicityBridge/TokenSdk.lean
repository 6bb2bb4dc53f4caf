import UnicityBridge.Lib.Bytes

/-!
# The token SDK

The types of the `unicity_token` crate with the fields that the bridge reads, and the crate's
functions as one parameter `Sdk`: hashing, CBOR decoding, predicates, signatures, inclusion and
allocation proofs. The crate is not part of the repository. Its types follow the constructors and
accessors the bridge calls.

A decoder is the slice it reads, so the items of an array are slices again. A split justification
holds its source token encoded, which makes every chain of splits finite; `Sdk` carries that as a
field.
-/

set_option autoImplicit false

namespace UnicityBridge.TokenSdk

open UnicityBridge.Lib

/-- The network of a token. -/
structure NetworkId where
  id : UInt16
  deriving DecidableEq

/-- A compressed public key. -/
structure PublicKey where
  bytes : Bytes
  deriving DecidableEq

/-- The algorithm of a hash imprint; only SHA-256 is told apart. -/
inductive HashAlgorithm where
  | sha256
  | other (id : UInt16)
  deriving DecidableEq

/-- A hash with its algorithm. -/
structure DataHash where
  algorithm : HashAlgorithm
  data : Bytes
  deriving DecidableEq

/-- The SHA-256 data hash of 32 bytes. -/
def DataHash.sha256 (digest : Bytes32) : DataHash := ⟨.sha256, digest.toList⟩

/-- A predicate by its CBOR encoding, which `to_cbor` returns. -/
structure EncodedPredicate where
  toCbor : Bytes
  deriving DecidableEq

/-! ## The root chain -/

/-- A validator of a trust base. -/
structure RootTrustBaseNodeInfo where
  nodeId : String
  signingKey : PublicKey
  stake : UInt64
  deriving DecidableEq

/-- The validators of an epoch and the stake that decides. -/
structure RootTrustBase where
  version : UInt64
  networkId : NetworkId
  epoch : UInt64
  epochStartRound : UInt64
  rootNodes : List RootTrustBaseNodeInfo
  quorumThreshold : UInt64
  deriving DecidableEq

/-- The path of a shard. -/
structure ShardId where
  bits : List Bool
  deriving DecidableEq

/-- The fields no check reads are kept as their encoding, `other`. -/
structure UnicitySeal where
  networkId : NetworkId
  hash : Bytes
  signatures : List (String × Bytes)
  other : Bytes
  deriving DecidableEq

/-- A certificate of the root chain over a shard's round. -/
structure UnicityCertificate where
  inputRecordHash : Bytes
  shard : ShardId
  unicitySeal : UnicitySeal
  other : Bytes
  deriving DecidableEq

/-- What the aggregator certified: the transition of a state. -/
structure CertificationData where
  lockScript : EncodedPredicate
  sourceStateHash : DataHash
  transactionHash : DataHash
  unlockScript : Bytes
  expiresAt : Option UInt64
  deriving DecidableEq

/-- The path of a leaf up to a root, which only the SDK reads. -/
structure InclusionCertificate where
  raw : Bytes
  deriving DecidableEq

/-- That a transition was included, with the certificate of the root. -/
structure InclusionProof where
  certificationData : CertificationData
  referenceTime : UInt64
  inclusionCertificate : InclusionCertificate
  unicityCertificate : UnicityCertificate
  deriving DecidableEq

/-! ## Tokens -/

/-- The mint of a token. -/
structure MintTransaction where
  networkId : NetworkId
  recipient : EncodedPredicate
  tokenType : Bytes
  salt : Bytes32
  data : Option Bytes
  justification : Option Bytes
  expiresAt : Option UInt64
  deriving DecidableEq

/-- A transfer of a token; a burn is one too. -/
structure TransferTransaction where
  sourceStateHash : DataHash
  lockScript : EncodedPredicate
  recipient : EncodedPredicate
  stateMask : Bytes
  data : Option Bytes
  expiresAt : Option UInt64
  deriving DecidableEq

/-- What implements the `Transaction` trait. -/
inductive Transaction where
  | mint (transaction : MintTransaction)
  | transfer (transaction : TransferTransaction)
  deriving DecidableEq

/-- A mint with its proof of inclusion. -/
structure CertifiedMintTransaction where
  transaction : MintTransaction
  inclusionProof : InclusionProof
  deriving DecidableEq

/-- A transfer with its proof of inclusion. -/
structure CertifiedTransferTransaction where
  transaction : TransferTransaction
  inclusionProof : InclusionProof
  deriving DecidableEq

/-- A token with its whole history. -/
structure Token where
  genesis : CertifiedMintTransaction
  transactions : List CertifiedTransferTransaction
  deriving DecidableEq

/-! ## Payments -/

/-- An amount of one asset. -/
structure Asset where
  id : Bytes
  value : Nat
  deriving DecidableEq

/-- The assets a token carries. -/
structure PaymentAssetCollection where
  assets : List Asset
  deriving DecidableEq

/-- The asset of an id. -/
def PaymentAssetCollection.get (collection : PaymentAssetCollection) (id : Bytes) : Option Asset :=
  collection.assets.find? fun asset => asset.id == id

/-- That an output of a split got its share, which only the SDK reads. -/
structure AllocationProof where
  raw : Bytes
  deriving DecidableEq

/-- The roots of a split's sum trees. -/
structure SplitManifest where
  roots : List Bytes
  deriving DecidableEq

/-- The burned token a split output comes from, with the proofs of its share. -/
structure SplitMintJustification where
  token : Token
  proofs : List AllocationProof
  deriving DecidableEq

/-- The functions of the SDK that the bridge calls. -/
structure Sdk where
  sha256 : Bytes → Bytes32
  keccak256 : Bytes → Bytes32
  -- the CBOR decoder, on the slice it reads
  finish : Bytes → Option Unit
  expectTag : Bytes → UInt64 → Option Bytes
  array : Bytes → Nat → Option (List Bytes)
  uint : Bytes → Option UInt64
  bytesValue : Bytes → Option Bytes
  isNull : Bytes → Bool
  -- the CBOR encoder of the trust base
  encodeUint : UInt64 → Bytes
  encodeByteString : Bytes → Bytes
  encodeTextString : String → Bytes
  encodeArray : List Bytes → Bytes
  -- the root chain
  trustBaseValid : RootTrustBase → Bool
  signingKey : RootTrustBase → String → Option PublicKey
  computedSealHash : UnicityCertificate → Option DataHash
  sealHash : UnicitySeal → DataHash
  verifySignature : Bytes → Bytes → PublicKey → Bool
  decodeSignature : Bytes → Option Bytes
  -- the aggregator
  deriveStateId : EncodedPredicate → DataHash → Bytes32
  leafValue : DataHash → UInt64 → Bytes
  verifyInclusion : InclusionCertificate → Bytes32 → Bytes → DataHash → Bool
  isPrefixOf : ShardId → Bytes32 → Bool
  -- predicates
  signaturePredicate : PublicKey → EncodedPredicate
  burnPredicate : Bytes → EncodedPredicate
  signatureKey : EncodedPredicate → Option PublicKey
  minterKey : Bytes32 → Option PublicKey
  verifySignatureUnlock : PublicKey → DataHash → DataHash → Bytes → Bool
  -- transactions
  deriveTokenId : NetworkId → Bytes32 → Bytes32
  mintLockScript : MintTransaction → EncodedPredicate
  mintSourceStateHash : MintTransaction → DataHash
  transactionHash : Transaction → DataHash
  stateHash : Transaction → DataHash
  -- payments and splits
  paymentFromCbor : Bytes → Option PaymentAssetCollection
  encodeAmount : Nat → Bytes
  splitFromCbor : Bytes → Option SplitMintJustification
  manifestFromCbor : Bytes → Option SplitManifest
  reasonHash : SplitManifest → Bytes
  splitOutputCommitment : Bytes32 → NetworkId → EncodedPredicate → Bytes32 → Bytes32 → Bytes →
    Bytes → Bytes
  verifyAllocation : AllocationProof → Bytes32 → Bytes → Nat → Bytes → Option Nat
  -- a justification is longer than the one of the source token it holds
  split_nested : ∀ bytes split, splitFromCbor bytes = some split →
    ∀ inner, split.token.genesis.transaction.justification = some inner →
      inner.length < bytes.length

variable (sdk : Sdk)

/-- The id of the minted token, from network and salt. -/
def MintTransaction.tokenId (mint : MintTransaction) : Bytes32 :=
  sdk.deriveTokenId mint.networkId mint.salt

/-- The id of the token. -/
def Token.id (token : Token) : Bytes32 := token.genesis.transaction.tokenId sdk

namespace Transaction

/-- The predicate that the transaction unlocks. -/
def lockScript : Transaction → EncodedPredicate
  | .mint transaction => sdk.mintLockScript transaction
  | .transfer transaction => transaction.lockScript

/-- The hash of the state that the transaction spends. -/
def sourceStateHash : Transaction → DataHash
  | .mint transaction => sdk.mintSourceStateHash transaction
  | .transfer transaction => transaction.sourceStateHash

/-- Whoever owns the token afterwards. -/
def recipient : Transaction → EncodedPredicate
  | .mint transaction => transaction.recipient
  | .transfer transaction => transaction.recipient

/-- When the transaction expires. -/
def expiresAt : Transaction → Option UInt64
  | .mint transaction => transaction.expiresAt
  | .transfer transaction => transaction.expiresAt

/-- The state a transaction spends. -/
def stateId (transaction : Transaction) : Bytes32 :=
  sdk.deriveStateId (transaction.lockScript sdk) (transaction.sourceStateHash sdk)

end Transaction

/-- An array of a known number of bytes, if the slice has that many. -/
def toByteArr (n : Nat) (slice : Bytes) : Option (ByteArr n) :=
  if h : slice.length = n then some ⟨slice, h⟩ else none

theorem toByteArr_eq_some {n : Nat} {slice : Bytes} {array : ByteArr n} :
    toByteArr n slice = some array ↔ array.toList = slice := by
  unfold toByteArr
  split
  · constructor
    · intro h
      cases h
      rfl
    · rintro rfl
      rfl
  · next h =>
    constructor
    · intro hn
      cases hn
    · rintro rfl
      exact absurd array.toList_length h

end UnicityBridge.TokenSdk
