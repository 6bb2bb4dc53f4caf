import UnicityBridge.Service.Assembler

/-!
# The ledger

`domain/ledger.rs` and `domain/event.rs`: the state of the service is a fold of events. `apply` does
what one event does; the queries are what the store and the orchestrator read.

The source's hash maps are finite maps here that list their entries in the order they came in.
-/

set_option autoImplicit false

namespace UnicityBridge.Service

open UnicityBridge.Lib

/-- How long a release that the vault's log shows waits before a second source is asked again. -/
def RELEASE_RECHECK_MS : Nat := 5 * 60000

/-- What the store holds: the returns, which of them holds a nullifier, and the batches. The
counters number them. -/
structure Ledger where
  returns : Dict String Return
  byNullifier : Dict String String
  batches : Dict String Batch
  accepted : Nat
  formed : Nat
  deriving DecidableEq

/-- The events of the journal. A snapshot replaces all that came before it. -/
inductive Event where
  | snapshot (ledger : Ledger)
  | accepted (burn : Burn) (record : ReturnRecord)
  | requeued (id : String) (atMs : Nat)
  | batchFormed (members : List String) (atMs : Nat)
  | batchProven (id : String) (bundle : BatchBundle) (spentRootOld : String) (atMs : Nat)
  | batchSettled (id : String) (txid : Option String) (atMs : Nat)
  | batchFailed (id : String) (kind : ErrorKind) (message : String) (atMs : Nat)
  | batchRebased (id : String) (atMs : Nat)
  | batchInterrupted (id : String) (atMs : Nat) (orderly : Bool)
  | returnExcluded (id : String) (reason : Exclusion) (atMs : Nat)
  deriving DecidableEq

/-! ## What happens to a record -/

namespace ReturnRecord

variable (record : ReturnRecord) (atMs : Nat)

/-- The service stopped in good order while the return was proven; no attempt is charged. -/
def requeueAfterStop : ReturnRecord :=
  { record with notBeforeMs := none, failure := none }.transitionWith .queued atMs
    "Proof stopped with the service; the return is proven again when it starts"

/-- A crash cut the proof off: one attempt, and the return is parked after the last. -/
def scheduleAfterInterruption (retry : RetryPolicy) : ReturnRecord :=
  let attempts := record.attempts + 1
  if retry.parked attempts then
    { record with
      attempts := attempts
      notBeforeMs := none
      failure := some (.asTerminal .provingFailed
        s!"proof interrupted by a service restart; parked after {attempts} attempts, needs operator attention")
    }.transition .failed atMs
  else
    { record with
      attempts := attempts
      notBeforeMs := some (retry.notBefore attempts atMs)
      failure := none
    }.transitionWith .queued atMs
      s!"Proof interrupted by a service restart; retry {attempts + 1} of {retry.maxAttempts} scheduled"

/-- The batch failed: one attempt, and the return is parked after the last. -/
def scheduleRetry (kind : ErrorKind) (message : String) (retry : RetryPolicy) : ReturnRecord :=
  let attempts := record.attempts + 1
  if retry.parked attempts then
    { record with
      attempts := attempts
      notBeforeMs := none
      failure := some (.asTerminal kind
        s!"{message}; parked after {attempts} attempts, needs operator attention")
    }.transition .failed atMs
  else
    { record with
      attempts := attempts
      notBeforeMs := some (retry.notBefore attempts atMs)
      failure := some (.asRecoverable kind
        s!"{message} (attempt {attempts} of {retry.maxAttempts}, retry scheduled)")
    }.transition .failed atMs

/-- A member of a batch that was just formed. -/
def enter (batchId : String) : ReturnRecord :=
  { record with batchId := some batchId, failure := none }.transition .proving atMs

/-- The return was paid, by `txid` where it is known. -/
def settle (txid : Option String) : ReturnRecord :=
  match txid with
  | some _ => { record with settleTxid := txid }.transition .settled atMs
  | none => { record with settleTxid := txid }.transitionWith .settled atMs
      "Return settled on the source chain (txid not recorded)"

/-- The return is proven again on the vault's new root. -/
def rebase : ReturnRecord :=
  record.transitionWith .proving atMs "Vault root moved; re-proving the batch on the new root"

/-- The proof was cut off. A return that was not being proven is left. -/
def interrupt (orderly : Bool) (retry : RetryPolicy) : ReturnRecord :=
  if record.status ≠ .proving then record
  else if orderly then record.requeueAfterStop atMs
  else record.scheduleAfterInterruption atMs retry

/-- The message of a release that waits for a second source. -/
def waitMessage (txid : Option String) (why : String) : String :=
  let released := match txid with
    | some txid => s!"released in {txid}"
    | none => "released"
  s!"The vault log shows this return {released}; it settles once a second source confirms that ({why})"

/-- The return was left out of its batch, for this reason. -/
def exclude (reason : Exclusion) (retry : RetryPolicy) : ReturnRecord :=
  match reason with
  | .alreadySettled txid none =>
      { record with settleTxid := txid, notBeforeMs := none, failure := none }.transitionWith
        .settled atMs
        (match txid with
          | some txid => s!"Nullifier already released on chain in {txid}"
          | none => "Nullifier already released on chain")
  | .alreadySettled txid (some why) =>
      let waiting := { record with notBeforeMs := some (atMs + RELEASE_RECHECK_MS) }
      -- a check that finds the same as the last adds nothing to the audit trail
      if record.status = .submitted ∧ record.message = waitMessage txid why then waiting
      else { waiting with settleTxid := none, failure := none }.transitionWith .submitted atMs
        (waitMessage txid why)
  | .rejected message =>
      record.scheduleRetry atMs .submissionFailed
        s!"rejected by the settlement simulation: {message}" retry
  | .invalid message =>
      { record with failure := some (.asTerminal .chainRejected message) }.transition .failed atMs

/-- A wallet's re-post, or a release that the log no longer shows. Other records are left. -/
def requeue (retry : RetryPolicy) : ReturnRecord :=
  if record.status = .submitted then
    { record with notBeforeMs := none, failure := none }.transitionWith .queued atMs
      "The vault log no longer shows this return released; it is proven again"
  else if record.failedRecoverably then
    { record with failure := none }.transitionWith .queued atMs
      (match record.notBeforeMs with
        | some t =>
            if atMs < t then
              s!"Return re-queued; retry {record.attempts + 1} of {retry.maxAttempts} scheduled at {t}"
            else "Return re-queued for the next proving batch"
        | none => "Return re-queued for the next proving batch")
  else record

end ReturnRecord

/-- A return with its record changed. -/
def Return.update (r : Return) (f : ReturnRecord → ReturnRecord) : Return :=
  { r with record := f r.record }

namespace Ledger

/-- The ledger before the first event. -/
def empty : Ledger := ⟨.empty, .empty, .empty, 0, 0⟩

/-! ## Events -/

section Apply

variable (ledger : Ledger)

/-- The return is one of the batch's members and still in it. -/
def isMember (batchId : String) (r : Return) : Bool :=
  ((ledger.batches.get batchId).any fun batch => r.burn.id ∈ batch.members) && r.inBatch batchId

/-- Change the records of the members that are still in a batch. -/
def updateMembers (batchId : String) (f : ReturnRecord → ReturnRecord) : Ledger :=
  { ledger with
    returns := ledger.returns.mapValues fun _ r => if ledger.isMember batchId r then r.update f else r }

/-- Change a batch and the members still in it. An unknown batch is left alone. -/
def onBatch (id : String) (change : Batch → Batch) (f : ReturnRecord → ReturnRecord) : Ledger :=
  if ledger.batches.contains id then
    { ledger with batches := ledger.batches.modify id change }.updateMembers id f
  else ledger

/-- A new return. A nullifier that some return holds already is not taken twice. -/
def accept (burn : Burn) (record : ReturnRecord) : Ledger :=
  let nullifier := toLowercase record.nullifier
  if ledger.byNullifier.contains nullifier then ledger
  else
    { ledger with
      accepted := ledger.accepted + 1
      byNullifier := ledger.byNullifier.insert nullifier burn.id
      returns := ledger.returns.insert burn.id ⟨ledger.accepted + 1, burn, record⟩ }

/-- The return goes back to the queue. -/
def requeue (id : String) (atMs : Nat) (retry : RetryPolicy) : Ledger :=
  { ledger with returns := ledger.returns.modify id fun r => r.update fun record =>
      record.requeue atMs retry }

/-- The batch that `form` makes. -/
def nextBatch (sha256 : Bytes → Bytes32) (members : List String) (atMs : Nat) : Batch :=
  Batch.formed sha256 (ledger.formed + 1) members atMs

/-- Members that are not pending are left as they are. -/
def form (sha256 : Bytes → Bytes32) (members : List String) (atMs : Nat) : Ledger :=
  let batch := ledger.nextBatch sha256 members atMs
  { ledger with
    formed := ledger.formed + 1
    returns := ledger.returns.mapValues fun id r =>
      if id ∈ members ∧ r.isPending = true then r.update fun record =>
        record.enter atMs batch.id
      else r
    batches := ledger.batches.insert batch.id batch }

/-- The batch has its proof, and its members wait for the settlement. -/
def prove (id : String) (bundle : BatchBundle) (spentRootOld : String) (atMs : Nat) : Ledger :=
  ledger.onBatch id
    (fun batch => { batch with
      status := .proven, bundle := some bundle, spentRootOld := some spentRootOld,
      provenAtMs := some atMs })
    fun record => record.transition .proven atMs

/-- The batch is settled with the members still in it. -/
def settle (id : String) (txid : Option String) (atMs : Nat) : Ledger :=
  ledger.onBatch id
    (fun batch => { batch with
      status := .settled
      bundle := batch.bundle.map fun bundle => { bundle with settleTxid := txid } })
    fun record => record.settle atMs txid

/-- The batch fails, and an attempt is charged to the members still in it. -/
def fail (id : String) (kind : ErrorKind) (message : String) (atMs : Nat) (retry : RetryPolicy) :
    Ledger :=
  ledger.onBatch id (fun batch => { batch with status := .failed })
    fun record => record.scheduleRetry atMs kind message retry

/-- The batch drops its proof and is proven on another root. -/
def rebase (id : String) (atMs : Nat) : Ledger :=
  ledger.onBatch id
    (fun batch => { batch with
      rebases := batch.rebases + 1, bundle := none, spentRootOld := none, provenAtMs := none,
      status := .proving })
    fun record => record.rebase atMs

/-- The batch was cut off while it was proven. -/
def interrupt (id : String) (atMs : Nat) (orderly : Bool) (retry : RetryPolicy) : Ledger :=
  ledger.onBatch id (fun batch => { batch with status := .interrupted })
    fun record => record.interrupt atMs orderly retry

/-- One member is left out; its batch stays as it is. -/
def exclude (id : String) (reason : Exclusion) (atMs : Nat) (retry : RetryPolicy) : Ledger :=
  { ledger with returns := ledger.returns.modify id fun r => r.update fun record =>
      record.exclude atMs reason retry }

/-- What an event does to the ledger. -/
def apply (sha256 : Bytes → Bytes32) (retry : RetryPolicy) : Event → Ledger
  | .snapshot snapshot => snapshot
  | .accepted burn record => ledger.accept burn record
  | .requeued id atMs => ledger.requeue id atMs retry
  | .batchFormed members atMs => ledger.form sha256 members atMs
  | .batchProven id bundle spentRootOld atMs => ledger.prove id bundle spentRootOld atMs
  | .batchSettled id txid atMs => ledger.settle id txid atMs
  | .batchFailed id kind message atMs => ledger.fail id kind message atMs retry
  | .batchRebased id atMs => ledger.rebase id atMs
  | .batchInterrupted id atMs orderly => ledger.interrupt id atMs orderly retry
  | .returnExcluded id reason atMs => ledger.exclude id reason atMs retry

end Apply

/-! ## Queries -/

section Queries

variable (ledger : Ledger)

/-- The return that holds a nullifier. -/
def returnOf (nullifier : String) : Option Return :=
  (ledger.byNullifier.get (toLowercase nullifier)).bind ledger.returns.get

/-- Oldest first. -/
def bySeq (returns : List Return) : List Return := returns.mergeSort fun a b => a.seq ≤ b.seq

/-- The returns that wait for a batch, oldest first. -/
def pending : List Return := bySeq (ledger.returns.values.filter Return.isPending)

/-- The number of returns neither settled nor finally failed. -/
def unfinished : Nat := (ledger.returns.values.filter fun r => !r.isDone).length

/-- Released returns that nothing has confirmed, due for another check: id and nullifier. -/
def releasesDue (nowMs : Nat) : List (String × String) :=
  (bySeq (ledger.returns.values.filter fun r => r.awaitsConfirmation && r.isDue nowMs)).map
    fun r => (r.burn.id, r.record.nullifier)

/-- When the next unconfirmed release is due for another check. -/
def nextReleaseCheck : Option Nat :=
  ((ledger.returns.values.filter Return.awaitsConfirmation).map
    fun r => r.record.notBeforeMs.getD 0).min?

/-- The burns of these returns; unknown identifiers are skipped. -/
def burns (ids : List String) : List Burn :=
  ids.filterMap fun id => (ledger.returns.get id).map Return.burn

/-- The batch that is being proven. -/
def activeBatch : Option Batch := ledger.batches.values.find? fun batch => batch.status = .proving

/-- The transitions of the settled batches, as the service proved them. -/
def settledBatches : List Settlement.SettledBatch :=
  (ledger.batches.values.filter fun batch => batch.status = .settled).filterMap Batch.settledBatch

/-- In the order of formation. -/
def byFormation (batches : List Batch) : List Batch :=
  batches.mergeSort fun a b => a.formedAtMs ≤ b.formedAtMs

/-- The proven batches without a settlement, in the order of formation. -/
def unsettledProofs : List Batch :=
  byFormation (ledger.batches.values.filter Batch.isUnsettledProof)

/-- The batch holds a proof of these nullifiers, in this order. -/
def provesNullifiers (wanted : List String) (batch : Batch) : Bool :=
  batch.bundle.any fun bundle => bundle.hasProof &&
    bundle.leaves.map (fun l => toLowercase l.nullifier) == wanted

/-- Times compare as options: none comes before any. -/
def provenBefore (a b : Batch) : Bool :=
  match a.provenAtMs, b.provenAtMs with
  | none, _ => true
  | some _, none => false
  | some t, some t' => t ≤ t'

/-- The unsettled batches with a proof of these nullifiers on this root. -/
def proofCandidates (nullifiers : List String) (spentRootOld : String) : List Batch :=
  let wanted := nullifiers.map toLowercase
  ledger.batches.values.filter fun batch =>
    batch.status ≠ .settled && batch.spentRootOld == some spentRootOld &&
      provesNullifiers wanted batch

/-- The bundle of the latest proof for these nullifiers on this root. Among proofs of one time, which the
source leaves to the order of a hash map, it is the last in the order of formation. -/
def proofFor (nullifiers : List String) (spentRootOld : String) : Option BatchBundle :=
  ((ledger.proofCandidates nullifiers spentRootOld).mergeSort provenBefore).getLast?.bind Batch.bundle

/-- The events that end every batch still being proven. -/
def interruptions (atMs : Nat) (orderly : Bool) : List Event :=
  (byFormation (ledger.batches.values.filter fun batch => batch.status = .proving)).map
    fun batch => .batchInterrupted batch.id atMs orderly

/-- A batch still proving at a start was cut off by a crash. -/
def recover (atMs : Nat) : List Event := ledger.interruptions atMs false

/-- What an orderly stop records once it has abandoned the proof in flight. -/
def stop (atMs : Nat) : List Event := ledger.interruptions atMs true

end Queries

end Ledger

end UnicityBridge.Service
