import UnicityBridge.Lib.Concurrent
import UnicityBridge.Service.Intake

/-!
# What the service asks of the outside

`ports.rs`, with the data of `sequencer.rs` and `submitter.rs`: the chain log, the second source that
confirms releases, the settler and the prover. Each is a question here that may be answered in any way
its type allows. So are the clock, the timers and the drain.

An error whose kind nothing reads is its message.
-/

set_option autoImplicit false

namespace UnicityBridge.Service

open UnicityBridge.Lib
open UnicityBridge.Settlement (RebuiltAccumulator SettledBatch)

/-! ## The chain log -/

/-- Why the vault's log could not be used. -/
inductive ChainSyncError where
  | spawn (message : String)
  | commandFailed (status stderr : String)
  | decode (message : String)
  | rebuild (message : String)
  | noConfirmationSource
  deriving DecidableEq

namespace ChainSyncError

/-- The message of the error. -/
def text : ChainSyncError → String
  | spawn message => s!"spawn events command failed: {message}"
  | commandFailed status stderr => s!"events command exited {status}: {stderr}"
  | decode message => s!"events log decode failed: {message}"
  | rebuild message => message
  | noConfirmationSource => "no confirmation source is configured (BRIDGE_RETURN_CONFIRM_CMD)"

/-- The log could not be read at all. -/
def isUnavailable : ChainSyncError → Bool
  | spawn _ | commandFailed _ _ => true
  | _ => false

end ChainSyncError

/-! ## Confirmations -/

/-- A release the vault's log shows: a spent nullifier and the transaction it names. -/
structure Release where
  nullifier : String
  txid : String
  deriving DecidableEq

/-- The release is this one, up to the case of its texts. -/
def Release.is (release : Release) (nullifier txid : String) : Bool :=
  eqIgnoreAsciiCase release.nullifier nullifier && eqIgnoreAsciiCase release.txid txid

/-- A release that the second source did not confirm, with its reason. -/
structure Unconfirmed where
  nullifier : String
  txid : String
  reason : String
  deriving DecidableEq

/-- What the confirmation command found. -/
structure Confirmations where
  confirmed : List Release
  unconfirmed : List Unconfirmed
  deriving DecidableEq

/-- `Ok` only for a release that was confirmed as asked; else the reason. -/
def Confirmations.verdict (answer : Confirmations) (release : Release) : Except String Unit :=
  if answer.confirmed.any fun c => c.is release.nullifier release.txid then .ok ()
  else
    let reason := ((answer.unconfirmed.find? fun u =>
      eqIgnoreAsciiCase u.nullifier release.nullifier && eqIgnoreAsciiCase u.txid release.txid).map
        Unconfirmed.reason).filter fun reason => reason != ""
    .error (reason.getD "the confirmation source did not confirm it")

theorem Confirmations.verdict_ok {answer : Confirmations} {release : Release} :
    answer.verdict release = .ok () ↔
      ∃ c ∈ answer.confirmed, c.is release.nullifier release.txid = true := by
  rw [← List.any_eq_true, verdict]
  constructor
  · intro h
    by_contra hnone
    rw [if_neg hnone] at h
    cases h
  · intro hany
    rw [if_pos hany]

/-! ## The settler -/

/-- How a submission ended. -/
inductive SubmitOutcome where
  | skipped
  | submitted (txid : String)
  | unconfirmed (txid : String)
  | staleRoot
  | failed (message : String)
  deriving DecidableEq

/-! ## Questions -/

/-- What the service asks of the world. -/
inductive Query where
  | now
  | draining
  | syncedAccumulator (known : List SettledBatch)
  | simulate (leaves : List LeafToSettle)
  /-- the task that assembles these burns; it may be lost -/
  | assembling (burns : List Burn) (acc : RebuiltAccumulator) (rejected : List Rejected)
  | prove (batchId : String) (wire : Bytes)
  | submit (bundle : BatchBundle)
  | confirmReleases (releases : List Release)
  /-- a delay, in seconds -/
  | sleep (delay : Nat)
  /-- until the store changes, the time comes or a drain starts -/
  | wait (untilMs : Option Nat)
  /-- the end of the process -/
  | exit

namespace Query

/-- The kinds of the answers. -/
def Answer : Query → Type
  | now => Nat
  | draining => Bool
  | syncedAccumulator _ => Except ChainSyncError RebuiltAccumulator
  | simulate _ => Except String (List Rejected)
  | assembling _ _ _ => Except String Unit
  | prove _ _ => Except String ProofBundle
  | submit _ => SubmitOutcome
  | confirmReleases _ => Except ChainSyncError Confirmations
  | sleep _ => Unit
  | wait _ => Unit
  | exit => Empty

/-- The orchestrator waits here, and may be aborted. -/
def awaits : Query → Bool
  | now | draining | exit => false
  | _ => true

end Query

/-- A program of the service. -/
abbrev Program (α : Type) := Prog Ledger Event Query Query.Answer α

namespace Clock

/-- The time. -/
def nowMs : Program Nat := Prog.query Query.now

/-- Wait for so many seconds. -/
def sleep (delay : Nat) : Program Unit := Prog.query (Query.sleep delay)

/-- Until the store changes, the time comes or a drain starts. -/
def wait (untilMs : Option Nat) : Program Unit := Prog.query (Query.wait untilMs)

end Clock

/-- Whether the service was asked to stop. -/
def Drain.isDraining : Program Bool := Prog.query Query.draining

namespace ChainLog

/-- The accumulator rebuilt from the vault's log, with the batches that the service settled itself.
-/
def syncedAccumulator (known : List SettledBatch) :
    Program (Except ChainSyncError RebuiltAccumulator) :=
  Prog.query (Query.syncedAccumulator known)

/-- Ask the second source about these releases. -/
def confirmReleases (releases : List Release) : Program (Except ChainSyncError Confirmations) :=
  Prog.query (Query.confirmReleases releases)

end ChainLog

namespace Settler

/-- The releases among these that would revert. -/
def simulate (leaves : List LeafToSettle) : Program (Except String (List Rejected)) :=
  Prog.query (Query.simulate leaves)

/-- Submit the settlement. -/
def submit (bundle : BatchBundle) : Program SubmitOutcome := Prog.query (Query.submit bundle)

end Settler

/-- Prove the wire input. -/
def ProofBackend.prove (batchId : String) (wire : Bytes) : Program (Except String ProofBundle) :=
  Prog.query (Query.prove batchId wire)

/-- Wait for the task that assembles these burns. -/
def joinAssembly (burns : List Burn) (acc : RebuiltAccumulator) (rejected : List Rejected) :
    Program (Except String Unit) :=
  Prog.query (Query.assembling burns acc rejected)

/-- A panic ends the orchestrator, and the service with it. -/
def panicked {α : Type} : Program α := Prog.ask Query.exit fun answer => nomatch answer

/-- A moment of the service. The outside is the vault, which fulfils batches. -/
abbrev Moment := Label Event Query Query.Answer SettledBatch

/-- The service with its history. -/
abbrev History := World Ledger Event Query Query.Answer SettledBatch

end UnicityBridge.Service
