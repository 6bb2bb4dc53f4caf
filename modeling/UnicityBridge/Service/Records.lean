import UnicityBridge.Lib.Dict
import UnicityBridge.Preimages
import UnicityBridge.Settlement
import UnicityBridge.Wire

/-!
# The records of the service

`prover/crates/service`: the return records of `store.rs` and how a status is entered, the burns,
batches and bundles of `domain`, and the retry policy.

Times are in milliseconds. Texts that a machine reads are as the source formats them.
-/

set_option autoImplicit false

namespace UnicityBridge.Service

open UnicityBridge.Lib
open UnicityBridge.Core (PublicValues ReturnLeaf SourceLockRef)
open UnicityBridge.Guest (GuestInput)
open UnicityBridge.TokenSdk (toByteArr)

/-! ## Texts -/

/-- `0x` and the digits of these bytes. -/
def hexText (bytes : Bytes) : String := String.ofList ('0' :: 'x' :: hexChars bytes)

/-- The digits of 32 bytes. -/
def hex32 (value : Bytes32) : String := hexText value.toList

/-- A number in hexadecimal without leading zeros. -/
def hexNat (n : Nat) : String := String.ofList ('0' :: 'x' :: Nat.toDigits 16 n)

/-- The bytes that digits spell, with or without `0x`. -/
def hexBytes (input : String) : Option Bytes :=
  hexDecodeChars (Settlement.dropHexPrefix input.toList)

/-- The 32 bytes that digits spell. -/
def parseHex32 (input : String) : Option Bytes32 := do
  let bytes ← hexBytes input
  toByteArr 32 bytes

/-- A text in lower case. -/
def toLowercase (text : String) : String := String.ofList (text.toList.map Char.toLower)

/-- Two texts are equal up to the case of ASCII letters. -/
def eqIgnoreAsciiCase (a b : String) : Bool := a.toList.map Char.toLower == b.toList.map Char.toLower

theorem hexBytes_hexText (bytes : Bytes) : hexBytes (hexText bytes) = some bytes := by
  rw [hexBytes, hexText, String.toList_ofList]
  exact hexDecodeChars_hexChars bytes

theorem parseHex32_hex32 (value : Bytes32) : parseHex32 (hex32 value) = some value := by
  obtain ⟨bytes, hlength⟩ := value
  show (hexBytes (hexText bytes) >>= toByteArr 32) = some ⟨bytes, hlength⟩
  rw [hexBytes_hexText]
  exact dif_pos hlength

theorem hex32_inj {a b : Bytes32} (h : hex32 a = hex32 b) : a = b :=
  Option.some.inj ((parseHex32_hex32 a).symm.trans (h ▸ parseHex32_hex32 b))

/-- The text of bytes is in lower case already. -/
theorem toLowercase_hexText (bytes : Bytes) : toLowercase (hexText bytes) = hexText bytes := by
  rw [toLowercase, hexText, String.toList_ofList, List.map_cons, List.map_cons, hexChars_toLower]
  rfl

theorem toLowercase_hex32 (value : Bytes32) : toLowercase (hex32 value) = hex32 value :=
  toLowercase_hexText _

/-! ## Retries -/

/-- `base` is in milliseconds. -/
structure RetryPolicy where
  base : Nat
  maxAttempts : Nat
  maxRebases : Nat
  deriving DecidableEq

/-- The delay doubles with every attempt, twenty times at most. -/
def RetryPolicy.notBefore (retry : RetryPolicy) (attempts atMs : Nat) : Nat :=
  atMs + retry.base * 2 ^ min (attempts - 1) 20

/-- After so many attempts there is no further one. -/
def RetryPolicy.parked (retry : RetryPolicy) (attempts : Nat) : Bool := retry.maxAttempts ≤ attempts

/-! ## Return records -/

/-- Where a return stands. -/
inductive ReturnStatus where
  | queued
  | proving
  | proven
  | submitted
  | settled
  | failed
  deriving DecidableEq

/-- The kinds of failure. -/
inductive ErrorKind where
  | precheckRejected
  | provingFailed
  | submissionFailed
  | chainRejected
  | serviceUnavailable
  deriving DecidableEq

/-- Why a return failed, and whether it is tried again. -/
structure ReturnFailure where
  kind : ErrorKind
  message : String
  recoverable : Bool
  deriving DecidableEq

/-- A failure after which the return is tried again. -/
def ReturnFailure.asRecoverable (kind : ErrorKind) (message : String) : ReturnFailure :=
  ⟨kind, message, true⟩

/-- A failure that ends the return. -/
def ReturnFailure.asTerminal (kind : ErrorKind) (message : String) : ReturnFailure :=
  ⟨kind, message, false⟩

/-- An entry of a return's audit trail. -/
structure ReturnEvent where
  atMs : Nat
  status : ReturnStatus
  code : String
  message : String
  deriving DecidableEq

/-- What the wallet is told of a return. -/
structure ReturnRecord where
  returnId : String
  nullifier : String
  status : ReturnStatus
  terminal : Bool
  success : Option Bool
  progress : Nat
  message : String
  nextPollMs : Nat
  batchId : Option String
  settleTxid : Option String
  failure : Option ReturnFailure
  events : List ReturnEvent
  attempts : Nat
  notBeforeMs : Option Nat
  createdAtMs : Nat
  updatedAtMs : Nat
  deriving DecidableEq

/-- The code of an entry. -/
def eventCode : ReturnStatus → String
  | .queued => "queued"
  | .proving => "proving_started"
  | .proven => "proof_ready"
  | .submitted => "tx_submitted"
  | .settled => "settled"
  | .failed => "failed"

namespace ReturnRecord

/-- A prechecked burn, as intake records it. -/
def queued (returnId : String) (nullifier : Bytes32) (now : Nat) : ReturnRecord where
  returnId := returnId
  nullifier := hex32 nullifier
  status := .queued
  terminal := false
  success := none
  progress := 20
  message := "Burn prechecked and queued for the next proving batch"
  nextPollMs := 5000
  batchId := none
  settleTxid := none
  failure := none
  events := [⟨now, .queued, "prechecked", "Burn passed S1 precheck"⟩,
    ⟨now, .queued, "queued", "Return is waiting for batch formation"⟩]
  attempts := 0
  notBeforeMs := none
  createdAtMs := now
  updatedAtMs := now

/-- The return failed and will be tried again. -/
def failedRecoverably (record : ReturnRecord) : Bool :=
  record.status = .failed && record.failure.any ReturnFailure.recoverable

/-- What a status says to the wallet. -/
def applyStatusDefaults (record : ReturnRecord) : ReturnRecord :=
  match record.status with
  | .queued =>
    { record with
      terminal := false
      success := none
      progress := 20
      message := "Return is waiting for batch formation"
      nextPollMs := 5000 }
  | .proving =>
    { record with
      terminal := false
      success := none
      progress := 45
      message := "Batch is being proven"
      nextPollMs := 15000 }
  | .proven =>
    { record with
      terminal := false
      success := none
      progress := 70
      message := "Proof is ready and waiting for chain submission"
      nextPollMs := 10000 }
  | .submitted =>
    { record with
      terminal := false
      success := none
      progress := 85
      message := "fulfillBatch transaction submitted; waiting for chain finality"
      nextPollMs := 10000 }
  | .settled =>
    { record with
      terminal := true
      success := some true
      progress := 100
      message := "Return settled on the source chain"
      nextPollMs := 0 }
  | .failed =>
    let retrying := record.failedRecoverably
    { record with
      terminal := !retrying
      success := if retrying then none else some false
      progress := 100
      message :=
        match record.failure with
        | some failure => failure.message
        | none => "Return failed"
      nextPollMs := if retrying then 15000 else 0 }

/-- The record in a new status, with the entry of its audit trail. -/
def transition (record : ReturnRecord) (status : ReturnStatus) (atMs : Nat) : ReturnRecord :=
  let record := applyStatusDefaults { record with status }
  { record with
    updatedAtMs := atMs
    events := record.events ++ [⟨atMs, record.status, eventCode record.status, record.message⟩] }

/-- A transition with its own message, which its event carries too. -/
def transitionWith (record : ReturnRecord) (status : ReturnStatus) (atMs : Nat) (message : String) :
    ReturnRecord :=
  let record := record.transition status atMs
  { record with
    message
    events := record.events.dropLast ++
      (record.events.getLast?.map fun event => { event with message }).toList }

section Fields

variable (record : ReturnRecord) (status : ReturnStatus) (atMs : Nat) (message : String)

@[simp] theorem transition_status : (record.transition status atMs).status = status := by
  cases status <;> rfl

@[simp] theorem transition_nullifier :
    (record.transition status atMs).nullifier = record.nullifier := by
  cases status <;> rfl

@[simp] theorem transition_batchId : (record.transition status atMs).batchId = record.batchId := by
  cases status <;> rfl

@[simp] theorem transition_settleTxid :
    (record.transition status atMs).settleTxid = record.settleTxid := by
  cases status <;> rfl

@[simp] theorem transition_failure : (record.transition status atMs).failure = record.failure := by
  cases status <;> rfl

@[simp] theorem transition_attempts :
    (record.transition status atMs).attempts = record.attempts := by
  cases status <;> rfl

@[simp] theorem transition_notBeforeMs :
    (record.transition status atMs).notBeforeMs = record.notBeforeMs := by
  cases status <;> rfl

@[simp] theorem transitionWith_status :
    (record.transitionWith status atMs message).status = status := by
  cases status <;> rfl

@[simp] theorem transitionWith_nullifier :
    (record.transitionWith status atMs message).nullifier = record.nullifier := by
  cases status <;> rfl

@[simp] theorem transitionWith_batchId :
    (record.transitionWith status atMs message).batchId = record.batchId := by
  cases status <;> rfl

@[simp] theorem transitionWith_settleTxid :
    (record.transitionWith status atMs message).settleTxid = record.settleTxid := by
  cases status <;> rfl

@[simp] theorem transitionWith_attempts :
    (record.transitionWith status atMs message).attempts = record.attempts := by
  cases status <;> rfl

@[simp] theorem transitionWith_notBeforeMs :
    (record.transitionWith status atMs message).notBeforeMs = record.notBeforeMs := by
  cases status <;> rfl

end Fields

end ReturnRecord

/-! ## Burns -/

/-- A return leaf as text. -/
structure LeafHex where
  nullifier : String
  recipient : String
  amount : String
  feeRecipient : String
  feeAmount : String
  deadline : String
  deriving DecidableEq

/-- The texts of a leaf. -/
def LeafHex.from (l : ReturnLeaf) : LeafHex where
  nullifier := hex32 l.nullifier
  recipient := hexText l.recipient.toList
  amount := hex32 l.amount
  feeRecipient := hexText l.feeRecipient.toList
  feeAmount := hex32 l.feeAmount
  deadline := hexNat l.deadline.toNat

/-- A lock reference as text. -/
structure LockRefHex where
  nonce : String
  digest : String
  deriving DecidableEq

/-- The texts of a lock reference. -/
def LockRefHex.from (r : SourceLockRef) : LockRefHex := ⟨hexNat r.nonce.toNat, hex32 r.digest⟩

/-- A submitted burn: its own wire input, and what batch formation reads of it. -/
structure Burn where
  id : String
  trustBaseHash : String
  lockNonces : List UInt64
  leaf : LeafHex
  wireInput : Bytes
  deriving DecidableEq

namespace Burn

/-- The nullifier that the burn pays out. -/
def nullifier (burn : Burn) : String := burn.leaf.nullifier

/-- What the burn counts towards the bytes of a batch. -/
def size (burn : Burn) : Nat := burn.wireInput.length

/-- The burns can stand under one trust base. -/
def sharesTrustBase (burn other : Burn) : Bool := burn.trustBaseHash == other.trustBaseHash

/-- The burn draws on no lock that is taken. -/
def noncesDisjoint (burn : Burn) (taken : List UInt64) : Bool :=
  burn.lockNonces.all fun nonce => nonce ∉ taken

/-- The burn of an input with this first leaf. -/
def fromInput (id : String) (input : GuestInput) (leaf : ReturnLeaf) (wireInput : Bytes) : Burn where
  id := id
  trustBaseHash := hex32 input.publicValues.trustBaseHash
  lockNonces := input.sortedLockRefs.map SourceLockRef.nonce
  leaf := LeafHex.from leaf
  wireInput := wireInput

end Burn

/-- What the settlement simulation is asked about a leaf. -/
structure LeafToSettle where
  leaf : LeafHex
  lockRefs : List LockRefHex
  deriving DecidableEq

/-- `None` when the stored input no longer decodes. -/
def Burn.leafToSettle (sdk : TokenSdk.Sdk) (codec : Wire.Codec) (burn : Burn) :
    Option LeafToSettle :=
  match Wire.decodeGuestInput sdk codec burn.wireInput with
  | .ok input => some ⟨burn.leaf, input.sortedLockRefs.map LockRefHex.from⟩
  | .error _ => none

/-- A submitted burn with its record and its place in the queue. -/
structure Return where
  seq : Nat
  burn : Burn
  record : ReturnRecord
  deriving DecidableEq

namespace Return

/-- The return waits for a batch. -/
def isPending (r : Return) : Bool := r.record.status = .queued || r.record.failedRecoverably

/-- The return's retry delay is over. -/
def isDue (r : Return) (nowMs : Nat) : Bool := r.record.notBeforeMs.all fun t => t ≤ nowMs

/-- The batch is working on the return. -/
def inBatch (r : Return) (batchId : String) : Bool :=
  r.record.batchId = some batchId && (r.record.status = .proving || r.record.status = .proven)

/-- Released by the vault's log, waiting for a second source to confirm it. -/
def awaitsConfirmation (r : Return) : Bool := r.record.status = .submitted

/-- The return is settled, or failed for good. -/
def isDone (r : Return) : Bool :=
  r.record.status = .settled || (r.record.status = .failed && !r.record.failedRecoverably)

end Return

/-! ## Batches -/

/-- A proven batch's published bundle. -/
structure BatchBundle where
  batchId : String
  mode : String
  vkey : Option String
  publicValues : String
  proofBytes : String
  settleTxid : Option String
  leaves : List LeafHex
  lockRefs : List LockRefHex
  deriving DecidableEq

/-- What the prover hands back. -/
structure ProofBundle where
  mode : String
  publicValues : Bytes
  proofBytes : Bytes
  vkeyHash : Option String
  deriving DecidableEq

/-- A dry run leaves no proof bytes. -/
def BatchBundle.hasProof (bundle : BatchBundle) : Bool := bundle.proofBytes != "0x"

/-- The bundle of a fresh proof, not submitted yet. -/
def BatchBundle.proven (batchId : String) (proof : ProofBundle) (leaves : List ReturnLeaf)
    (lockRefs : List SourceLockRef) : BatchBundle where
  batchId := batchId
  mode := proof.mode
  vkey := proof.vkeyHash
  publicValues := hexText proof.publicValues
  proofBytes := hexText proof.proofBytes
  settleTxid := none
  leaves := leaves.map LeafHex.from
  lockRefs := lockRefs.map LockRefHex.from

/-- Where a batch stands. -/
inductive BatchStatus where
  | proving
  | proven
  | settled
  | failed
  | interrupted
  deriving DecidableEq

/-- A batch of returns, with its proof once there is one. -/
structure Batch where
  id : String
  members : List String
  status : BatchStatus
  rebases : Nat
  bundle : Option BatchBundle
  spentRootOld : Option String
  formedAtMs : Nat
  provenAtMs : Option Nat
  deriving DecidableEq

namespace Batch

/-- The bytes that a batch id hashes. -/
def idInput (seq : Nat) (members : List String) : Bytes :=
  "bridge-return-service:batch-id:v1".toUTF8.data.toList ++ beBytes 8 seq ++
    members.flatMap fun id => id.toUTF8.data.toList

/-- A new batch of these members. -/
def formed (sha256 : Bytes → Bytes32) (seq : Nat) (members : List String) (atMs : Nat) : Batch where
  id := hex32 (sha256 (idInput seq members))
  members := members
  status := .proving
  rebases := 0
  bundle := none
  spentRootOld := none
  formedAtMs := atMs
  provenAtMs := none

/-- Another rebase is left. -/
def canRebase (batch : Batch) (max : Nat) : Bool := batch.rebases < max

/-- The proof starts from this root. -/
def chainsOnto (batch : Batch) (root : Bytes32) : Bool := batch.spentRootOld == some (hex32 root)

/-- The nullifiers that the proof releases, in its order. -/
def nullifiers (batch : Batch) : List Bytes32 :=
  match batch.bundle with
  | some bundle => bundle.leaves.filterMap fun l => parseHex32 l.nullifier
  | none => []

/-- The settled batch of a bundle, by its public values. -/
def settledBatch (batch : Batch) : Option Settlement.SettledBatch := do
  let bundle ← batch.bundle
  let bytes ← hexBytes bundle.publicValues
  let publicValues ← Core.publicValuesFromAbi bytes
  some ⟨batch.nullifiers, publicValues.spentRootOld, publicValues.spentRootNew, bundle.settleTxid⟩

theorem settledBatch_eq {batch : Batch} {bundle : BatchBundle} {values : Core.PublicValues}
    (hbundle : batch.bundle = some bundle)
    (hvalues : bundle.publicValues = hexText (Core.publicValuesAbi values)) :
    batch.settledBatch =
      some ⟨batch.nullifiers, values.spentRootOld, values.spentRootNew, bundle.settleTxid⟩ := by
  have habi := Core.publicValuesFromAbi_abi values []
  rw [List.append_nil] at habi
  simp [settledBatch, hbundle, hvalues, hexBytes_hexText, habi]

/-- The batch has a proof that was not settled. -/
def isUnsettledProof (batch : Batch) : Bool :=
  batch.status = .proven && batch.bundle.any fun bundle => bundle.settleTxid.isNone

end Batch

end UnicityBridge.Service
