import UnicityBridge.Service.Ports

/-!
# The orchestrator

`orchestrator.rs`, with the operations of `store.rs` that it uses, the start of the service and the
order of its stop (`shutdown.rs`). Each `async fn` is a program; the loops of `run` and `run_batch` are
the points that programs end at. Log lines are left out.

The log of the service replays to the ledger that a crash left, so a crash keeps the ledger here.
-/

set_option autoImplicit false

namespace UnicityBridge.Service

open UnicityBridge.Lib
open UnicityBridge.Settlement (RebuiltAccumulator)

/-! ## The store -/

/-- What `take_next` returns. -/
inductive Taken where
  | batch (batch : Batch)
  | waitUntil (atMs : Nat)
  | idle
  deriving DecidableEq

namespace ReturnStore

/-- The event that accepting a burn commits, unless the store has it already or is full. -/
def acceptWithin (ledger : Ledger) (burn : Burn) (record : ReturnRecord) (nowMs maxUnfinished : Nat) :
    Option Event :=
  match ledger.returnOf record.nullifier with
  | some known =>
      if known.record.failedRecoverably then some (.requeued known.burn.id nowMs) else none
  | none => if maxUnfinished ≤ ledger.unfinished then none else some (.accepted burn record)

/-- Commit an event to the journal and the ledger. -/
def apply (event : Event) : Program Unit := Prog.commit event

/-- Read the ledger. -/
def read {α : Type} (f : Ledger → α) : Program α := Prog.read f

/-- Form the next batch if the policy asks for one. The batch returned is the active one. -/
def takeNext (policy : BatchPolicy) (nowMs : Nat) (collect : Bool) : Program Taken :=
  Prog.act
    (fun ledger =>
      match policy.next ledger.pending nowMs collect with
      | .batch members => some (.batchFormed members nowMs)
      | _ => none)
    fun before after =>
      match policy.next before.pending nowMs collect with
      | .batch _ =>
          match after.activeBatch with
          | some batch => pure (.batch batch)
          | none => panicked
      | .waitUntil atMs => pure (.waitUntil atMs)
      | .idle => pure .idle

/-- Commit these events in order. -/
def applyAll : List Event → Program Unit
  | [] => pure ()
  | event :: rest => do
      apply event
      applyAll rest

/-- What `open` adds to the replayed ledger. Compaction keeps it as it is. -/
def recover (nowMs : Nat) : Program Unit := do
  let events ← read fun ledger => ledger.recover nowMs
  applyAll events

/-- What an orderly stop records. -/
def stopProving (nowMs : Nat) : Program Unit := do
  let events ← read fun ledger => ledger.stop nowMs
  applyAll events

end ReturnStore

/-! ## The orchestrator -/

/-- In seconds. -/
def SYNC_RETRY_DELAYS : List Nat := [15, 30, 60]

/-- In seconds. -/
def SETTLEMENT_CHECKS : List Nat := [30, 60, 120, 240, 480]

/-- A return whose nullifier the vault's log shows spent, by `txid` when the log names it. -/
structure Released where
  id : String
  nullifier : String
  txid : Option String
  deriving DecidableEq

/-- How a stage leaves the batch: finished, or to be proven again on a new root. -/
inductive Stage where
  | done
  | rebase
  deriving DecidableEq

/-- The log shows every nullifier of the proven batch spent. -/
def allReleased (sha256 : Bytes → Bytes32) (batch : Batch) (acc : RebuiltAccumulator) : Bool :=
  batch.nullifiers ≠ [] &&
    batch.nullifiers.all fun n => (acc.tree.nonMembershipWitness sha256 n).isNone

/-- The verdict on a release, from the second source's answer. -/
def Released.verdict (answer : Except ChainSyncError Confirmations) (r : Released) :
    String × Exclusion :=
  let unconfirmed :=
    match r.txid, answer with
    | none, _ => some "the vault log names no transaction for it"
    | some txid, .ok answer =>
        match answer.verdict ⟨r.nullifier, txid⟩ with
        | .ok () => none
        | .error why => some why
    | some _, .error error => some error.text
  (r.id, .alreadySettled r.txid unconfirmed)

/-- What the second source is asked: the releases that name a transaction. -/
def askedOf (released : List Released) : List Release :=
  released.filterMap fun r => r.txid.map fun txid => ⟨r.nullifier, txid⟩

/-- Replace each exclusion by the verdict on its return, which is used once. -/
def takeVerdicts : List (String × Exclusion) → Dict String Exclusion → List (String × Exclusion)
  | [], _ => []
  | (id, exclusion) :: rest, verdicts =>
      (id, (verdicts.get id).getD exclusion) :: takeVerdicts rest (verdicts.erase id)

/-- The members that assembly found released, with their nullifiers. -/
def releasedOf (excluded : List (String × Exclusion)) (nullifiers : Dict String String) :
    List Released :=
  excluded.filterMap fun (id, exclusion) =>
    match exclusion with
    | .alreadySettled txid _ => (nullifiers.get id).map fun nullifier => ⟨id, nullifier, txid⟩
    | _ => none

/-- The transactions that the verdicts confirm. -/
def confirmedTxids (verdicts : List (String × Exclusion)) : List String :=
  verdicts.filterMap fun (_, verdict) =>
    match verdict with
    | .alreadySettled (some txid) none => some txid
    | _ => none

/-- Every verdict confirms its release, in one transaction. -/
def oneTransaction (verdicts : List (String × Exclusion)) : Option String :=
  let confirmed := confirmedTxids verdicts
  confirmed.head?.filter fun first =>
    confirmed.length = verdicts.length && confirmed.all fun txid => eqIgnoreAsciiCase txid first

/-- The members of a released batch that are still in it. -/
def Ledger.releasedMembers (ledger : Ledger) (batch : Batch) (acc : RebuiltAccumulator) :
    List Released :=
  batch.nullifiers.filterMap fun n => do
    let member ← ledger.returnOf (hex32 n)
    if member.inBatch batch.id then some ⟨member.burn.id, hex32 n, acc.txids n⟩ else none

namespace Orchestrator

open ReturnStore (apply read)

variable (sdk : TokenSdk.Sdk) (codec : Wire.Codec) (retry : RetryPolicy)

/-- The batch ends failed. -/
def fail (batch : Batch) (kind : ErrorKind) (message : String) : Program Stage := do
  let nowMs ← Clock.nowMs
  apply (.batchFailed batch.id kind message nowMs)
  pure .done

/-- Record these exclusions in order. -/
def exclude : List (String × Exclusion) → Program Unit
  | [] => pure ()
  | (id, reason) :: rest => do
      let nowMs ← Clock.nowMs
      apply (.returnExcluded id reason nowMs)
      exclude rest

/-- The batch as the ledger now has it. -/
def reload (batchId : String) : Program (Option Batch) :=
  read fun ledger => ledger.batches.get batchId

/-- Another round on the vault's new root, while rebases are left. -/
def rebaseOrFail (batch : Batch) (why : String) : Program Stage :=
  if batch.canRebase retry.maxRebases then do
    let nowMs ← Clock.nowMs
    apply (.batchRebased batch.id nowMs)
    pure .rebase
  else fail batch .chainRejected s!"{why}; rebased {batch.rebases} times already"

/-- The batch fails for want of the vault's accumulator. -/
def unsynced (batch : Batch) (error : ChainSyncError) : Program (Option RebuiltAccumulator) := do
  let kind := if error.isUnavailable then ErrorKind.serviceUnavailable else .chainRejected
  let _ ← fail batch kind s!"accumulator not synced to chain: {error.text}"
  pure none

/-- The loop of `synced`, with the delays that are left. -/
def syncedAfter (batch : Batch) : List Nat → Program (Option RebuiltAccumulator)
  | [] => do
      let known ← read Ledger.settledBatches
      match ← ChainLog.syncedAccumulator known with
      | .ok acc => pure (some acc)
      | .error error => unsynced batch error
  | delay :: rest => do
      let known ← read Ledger.settledBatches
      match ← ChainLog.syncedAccumulator known with
      | .ok acc => pure (some acc)
      | .error error =>
          if error.isUnavailable then do
            Clock.sleep delay
            syncedAfter batch rest
          else unsynced batch error

/-- The vault's accumulator, asked for four times at most. -/
def synced (batch : Batch) : Program (Option RebuiltAccumulator) :=
  syncedAfter batch SYNC_RETRY_DELAYS

/-- The verdicts of the second source on these releases; one without a transaction is not asked
about. -/
def confirm (released : List Released) : Program (List (String × Exclusion)) := do
  let asked := askedOf released
  let answer ← if asked = [] then pure (.ok ⟨[], []⟩) else ChainLog.confirmReleases asked
  pure (released.map (Released.verdict answer))

/-- Settle-or-wait verdicts for the members that assembly found released. -/
def confirmed (excluded : List (String × Exclusion)) (nullifiers : Dict String String) :
    Program (List (String × Exclusion)) := do
  let verdicts ← confirm (releasedOf excluded nullifiers)
  pure (takeVerdicts excluded (Dict.ofList verdicts))

/-- The log shows the whole batch spent: it settles if one transaction is confirmed for all members,
and else fails behind their verdicts. -/
def released (batch : Batch) (acc : RebuiltAccumulator) : Program Stage := do
  let members ← read fun ledger => ledger.releasedMembers batch acc
  let verdicts ← confirm members
  match oneTransaction verdicts with
  | some txid => do
      let nowMs ← Clock.nowMs
      apply (.batchSettled batch.id (some txid) nowMs)
      pure .done
  | none => do
      exclude verdicts
      fail batch .chainRejected
        s!"every member was released on chain without a receipt of the service's own; {(confirmedTxids verdicts).length} of {verdicts.length} confirmed by a second source"

/-- The loop of `await_settlement`, with the checks that are left. -/
def awaitSettlementAfter (batch : Batch) (txid : String) : List Nat → Program Stage
  | [] =>
      fail batch .submissionFailed
        s!"settlement {txid} was broadcast but the chain log does not show it after {SETTLEMENT_CHECKS.sum}s"
  | delay :: rest => do
      Clock.sleep delay
      let known ← read Ledger.settledBatches
      match ← ChainLog.syncedAccumulator known with
      | .error _ => awaitSettlementAfter batch txid rest
      | .ok acc =>
          if allReleased sdk.sha256 batch acc then released batch acc
          else if batch.chainsOnto acc.spentRoot then awaitSettlementAfter batch txid rest
          else rebaseOrFail retry batch "vault root moved while the settlement was unconfirmed"

/-- Wait until the log shows the broadcast settlement. -/
def awaitSettlement (batch : Batch) (txid : String) : Program Stage :=
  awaitSettlementAfter sdk retry batch txid SETTLEMENT_CHECKS

/-- Submit the proof while the vault is still on the root that it starts from. -/
def settleStage (batch : Batch) : Program Stage := do
  match ← synced batch with
  | none => pure .done
  | some acc =>
      if allReleased sdk.sha256 batch acc then released batch acc
      else if batch.chainsOnto acc.spentRoot then
        match batch.bundle with
        | none => pure .done
        | some bundle => do
            match ← Settler.submit bundle with
            | .skipped => pure .done
            | .submitted txid => do
                let nowMs ← Clock.nowMs
                apply (.batchSettled batch.id (some txid) nowMs)
                pure .done
            | .unconfirmed txid => awaitSettlement sdk retry batch txid
            | .staleRoot => rebaseOrFail retry batch "vault: stale root"
            | .failed message => fail batch .submissionFailed message
      else rebaseOrFail retry batch "vault root moved after proving"

/-- Prove an assembled batch, or take an earlier proof of it. -/
def proven (batch : Batch) (assembled : Assembled) : Program Stage := do
  let spentRootOld := hex32 assembled.publicValues.spentRootOld
  let nullifiers := assembled.leaves.map fun l => hex32 l.nullifier
  let reusable ← read fun ledger => ledger.proofFor nullifiers spentRootOld
  match reusable with
  | some reused => finish { reused with batchId := batch.id, settleTxid := none } spentRootOld
  | none => do
      match ← ProofBackend.prove batch.id assembled.wire with
      | .ok proof =>
          finish (.proven batch.id proof assembled.leaves assembled.lockRefs) spentRootOld
      | .error error => fail batch .provingFailed error
where
  finish (bundle : BatchBundle) (spentRootOld : String) : Program Stage := do
    let nowMs ← Clock.nowMs
    apply (.batchProven batch.id bundle spentRootOld nowMs)
    match ← reload batch.id with
    | some current => settleStage sdk retry current
    | none => pure .done

/-- Assemble the batch on the vault's root, record who is left out, and prove the rest. -/
def proveStage (batch : Batch) : Program Stage := do
  match ← synced batch with
  | none => pure .done
  | some acc => do
      let burns ← read fun ledger => ledger.burns batch.members
      let nullifiers := Dict.ofList (burns.map fun b => (b.id, b.nullifier))
      let leaves := burns.filterMap (Burn.leafToSettle sdk codec)
      match ← Settler.simulate leaves with
      | .error error =>
          fail batch .chainRejected s!"settlement simulation failed: {error}"
      | .ok rejected => do
          let joined ← joinAssembly burns acc rejected
          match joined, assemble sdk codec burns acc rejected with
          | .ok (), some (.ok assembled) => do
              let excluded ← confirmed assembled.excluded nullifiers
              exclude excluded
              proven sdk retry batch assembled
          | .ok (), some (.error (.allExcluded excluded)) => do
              let excluded ← confirmed excluded nullifiers
              exclude excluded
              fail batch .chainRejected "every member was excluded before proving"
          | .ok (), some (.error error) => fail batch .chainRejected error.text
          | .ok (), none => fail batch .provingFailed "assembly task failed: task panicked"
          | .error error, _ => fail batch .provingFailed s!"assembly task failed: {error}"

/-- The returns due for another check: released still, or put back in the queue. -/
def recheckEach (acc : RebuiltAccumulator) : List (String × String) → Program (List Released)
  | [] => pure []
  | (id, nullifier) :: rest =>
      match (parseHex32 nullifier).filter fun n =>
          (acc.tree.nonMembershipWitness sdk.sha256 n).isNone with
      | some n => do
          let released ← recheckEach acc rest
          pure (⟨id, nullifier, acc.txids n⟩ :: released)
      | none => do
          let nowMs ← Clock.nowMs
          apply (.requeued id nowMs)
          recheckEach acc rest

/-- Look again at the releases that wait for a confirmation. -/
def recheckReleases : Program Unit := do
  let nowMs ← Clock.nowMs
  let due ← read fun ledger => ledger.releasesDue nowMs
  if due = [] then pure ()
  else do
    let known ← read Ledger.settledBatches
    match ← ChainLog.syncedAccumulator known with
    | .error error =>
        exclude (due.map fun (id, _) =>
          (id, .alreadySettled none (some s!"the chain log could not be checked again: {error.text}")))
    | .ok acc => do
        let released ← recheckEach sdk acc due
        let verdicts ← confirm released
        exclude verdicts

/-! ## The loops -/

/-- What follows a batch: the rest of the unsettled proofs, or the main loop. -/
inductive Loop where
  | starting (batches : List Batch)
  | collecting (collect : Bool)

/-- Where the programs of the service begin and end. -/
inductive Point where
  | opening
  | loop (turn : Loop)
  | run (batch : Batch) (after : Loop)
  | rebased (batchId : String) (after : Loop)
  | stopping
  | stopped

/-- The test of the loop of `run_batch`. -/
def Point.after (batchId : String) (after : Loop) : Stage → Point
  | .done => .loop after
  | .rebase => .rebased batchId after

/-- One round of a batch: a batch with a bundle only has to be settled. -/
def runBatch (batch : Batch) (after : Loop) : Program Point := do
  let stage ←
    if batch.bundle.isSome then settleStage sdk retry batch else proveStage sdk codec retry batch
  pure (.after batch.id after stage)

/-- One turn of the main loop. -/
def collect (policy : BatchPolicy) (collecting : Bool) : Program Point := do
  if ← Drain.isDraining then pure .stopped
  else do
    recheckReleases sdk
    if ← Drain.isDraining then pure .stopped
    else do
      let recheck ← read Ledger.nextReleaseCheck
      let nowMs ← Clock.nowMs
      match ← ReturnStore.takeNext policy nowMs collecting with
      | .batch batch => pure (.run batch (.collecting false))
      | .waitUntil atMs => do
          Clock.wait (some (recheck.elim atMs fun t => min t atMs))
          pure (.loop (.collecting true))
      | .idle => do
          Clock.wait recheck
          pure (.loop (.collecting true))

/-- The program at each point of the service. -/
def code (policy : BatchPolicy) : Point → Program Point
  | .opening => do
      let nowMs ← Clock.nowMs
      ReturnStore.recover nowMs
      let batches ← read Ledger.unsettledProofs
      pure (.loop (.starting batches))
  | .loop (.starting []) => pure (.loop (.collecting true))
  | .loop (.starting (batch :: rest)) => do
      if ← Drain.isDraining then pure (.loop (.collecting true))
      else pure (.run batch (.starting rest))
  | .loop (.collecting collecting) => collect sdk policy collecting
  | .run batch after => runBatch sdk codec retry batch after
  | .rebased batchId after => do
      match ← reload batchId with
      | none => pure (.loop after)
      | some current => do
          let stage ← proveStage sdk codec retry current
          pure (.after batchId after stage)
  | .stopping => do
      let nowMs ← Clock.nowMs
      ReturnStore.stopProving nowMs
      pure .stopped
  | .stopped => panicked

end Orchestrator

/-! ## The service -/

variable (sdk : TokenSdk.Sdk) (codec : Wire.Codec) (retry : RetryPolicy) (policy : BatchPolicy)

/-- What a request handler commits: a burn that intake takes. -/
def Intake (ledger : Ledger) (e : Event) : Prop :=
  ∃ wireInput nowMs burn record maxUnfinished,
    createReturn sdk codec wireInput nowMs = some (burn, record) ∧
      ReturnStore.acceptWithin ledger burn record nowMs maxUnfinished = some e ∧
      e.Admissible sdk codec ledger

/-- The service: the orchestrator, with the request handlers beside it. -/
def service : System Ledger Event Query Query.Answer Orchestrator.Point where
  initial := Ledger.empty
  apply := fun ledger e => ledger.apply sdk.sha256 retry e
  admits := fun ledger e => e.Admissible sdk codec ledger
  other := Intake sdk codec
  awaits := Query.awaits
  code := Orchestrator.code sdk codec retry policy
  opening := .opening
  stopping := .stopping

end UnicityBridge.Service
