import UnicityBridge.GuestSound
import UnicityBridge.Settlement
import UnicityBridge.Wire

/-!
# The host's precheck

`prover/crates/host/src/s1.rs` over the entry points of `prover/crates/guest/src/lib.rs`: a wire input
is decoded, run through the guest relation, written again and run once more from its bytes.

Writing an input aborts when a count does not fit the wire, so a precheck is an option of a result:
`none` is the abort.
-/

set_option autoImplicit false

namespace UnicityBridge.Precheck

open UnicityBridge.Lib UnicityBridge.TokenSdk
open UnicityBridge.Core (BridgeCoreError PublicValues U256)
open UnicityBridge.Guest (GuestInput)
open UnicityBridge.Settlement (HostError)

/-- The derived debug text of the core's error. -/
def debugError : BridgeCoreError → String
  | .duplicateLockRefNonce => "DuplicateLockRefNonce"
  | .lockRefsNotSorted => "LockRefsNotSorted"
  | .wrongDomainTag => "WrongDomainTag"
  | .wrongConfigHash => "WrongConfigHash"
  | .wrongTrustBaseHash => "WrongTrustBaseHash"
  | .wrongReturnRoot => "WrongReturnRoot"
  | .wrongLockRefRoot => "WrongLockRefRoot"
  | .wrongBatchSize => "WrongBatchSize"
  | .wrongTotalAmount => "WrongTotalAmount"
  | .wrongAccumulatorWitness => "WrongAccumulatorWitness"
  | .wrongSpentRootNew => "WrongSpentRootNew"
  | .tokenVerificationFailed => "TokenVerificationFailed"
  | .wrongLockObligation => "WrongLockObligation"
  | .burnTransferMissing => "BurnTransferMissing"
  | .burnReasonMissing => "BurnReasonMissing"
  | .burnReasonMalformed => "BurnReasonMalformed"
  | .burnReasonMismatch => "BurnReasonMismatch"
  | .wrongBurnPredicate => "WrongBurnPredicate"
  | .wrongNullifier => "WrongNullifier"
  | .wrongBurnAmount => "WrongBurnAmount"
  | .wireDecodeFailed => "WireDecodeFailed"

/-- What the guest publishes. -/
structure GuestOutput where
  publicValues : PublicValues
  publicValuesAbi : Bytes
  publicValuesDigest : Bytes32
  deriving DecidableEq

/-- What a passed precheck hands on. -/
structure PrecheckReport where
  publicValues : PublicValues
  publicValuesAbi : Bytes
  publicValuesDigest : Bytes32
  wireInput : Bytes
  batchSize : UInt32
  totalAmount : U256
  deriving DecidableEq

variable (sdk : Sdk) (codec : Wire.Codec)

/-- The output for these public values. -/
def publicOutput (publicValues : PublicValues) : GuestOutput where
  publicValues := publicValues
  publicValuesAbi := Core.publicValuesAbi publicValues
  publicValuesDigest := Core.publicValuesDigest sdk.keccak256 publicValues

/-- The relation with the output the guest publishes. -/
def executePublicOutput (input : GuestInput) : Core.Result GuestOutput := do
  let publicValues ← Guest.execute sdk input
  .ok (publicOutput sdk publicValues)

/-- The guest: its bytes are decoded, and the relation runs on them. -/
def executeWire (wire : Bytes) : Core.Result GuestOutput := do
  let input ← Wire.decodeGuestInput sdk codec wire
  executePublicOutput sdk input

/-- The third check of a precheck: the bytes decode and run to the same output. -/
def roundTrip (output : GuestOutput) (wireInput : Bytes) : Settlement.Result PrecheckReport := do
  let wireOutput ← (executeWire sdk codec wireInput).mapError
    fun e => HostError.check s!"precheck wire rejected: {debugError e}"
  ensure (wireOutput = output)
    (.check "precheck: wire round-trip diverged from in-memory relation")
  .ok {
    publicValues := output.publicValues
    publicValuesAbi := output.publicValuesAbi
    publicValuesDigest := output.publicValuesDigest
    wireInput := wireInput
    batchSize := output.publicValues.batchSize
    totalAmount := output.publicValues.totalAmount }

/-- `WitnessPackage::precheck`. The bytes are written only after the first two checks. -/
def precheck (input : GuestInput) : Option (Settlement.Result PrecheckReport) :=
  match executePublicOutput sdk input with
  | .error e => some (.error (.check s!"precheck relation rejected: {debugError e}"))
  | .ok output =>
      if output.publicValues = input.publicValues then
        (Wire.encodeGuestInput codec input).map (roundTrip sdk codec output)
      else some (.error (.check "precheck: committed public values differ from computed"))

/-- The precheck of wire bytes. -/
def precheckWire (wireInput : Bytes) : Option (Settlement.Result PrecheckReport) :=
  match Wire.decodeGuestInput sdk codec wireInput with
  | .error e => some (.error (.check s!"wire decode: {debugError e}"))
  | .ok input => precheck sdk codec input

section Results

variable {sdk codec}

theorem executePublicOutput_eq_ok {input : GuestInput} {output : GuestOutput} :
    executePublicOutput sdk input = .ok output ↔
      Guest.execute sdk input = .ok input.publicValues ∧
        output = publicOutput sdk input.publicValues := by
  simp only [executePublicOutput, bind_eq_ok, Except.ok.injEq]
  constructor
  · rintro ⟨publicValues, h, rfl⟩
    obtain ⟨-, -, -, rfl⟩ := (Guest.execute_eq_ok sdk).1 h
    exact ⟨h, rfl⟩
  · rintro ⟨h, rfl⟩
    exact ⟨_, h, rfl⟩

theorem executeWire_eq_ok {wire : Bytes} {input : GuestInput} {output : GuestOutput}
    (hdecode : Wire.decodeGuestInput sdk codec wire = .ok input) :
    executeWire sdk codec wire = .ok output ↔
      Guest.execute sdk input = .ok input.publicValues ∧
        output = publicOutput sdk input.publicValues := by
  rw [executeWire, hdecode, ← executePublicOutput_eq_ok]
  rfl

/-- **What the guest accepts passes the precheck**, when it can be written and read back. -/
theorem precheck_ok {input : GuestInput} {wire : Bytes}
    (hexecute : Guest.execute sdk input = .ok input.publicValues)
    (hencode : Wire.encodeGuestInput codec input = some wire)
    (hdecode : Wire.decodeGuestInput sdk codec wire = .ok input) :
    ∃ report, precheck sdk codec input = some (.ok report) := by
  have hrun : executePublicOutput sdk input = .ok (publicOutput sdk input.publicValues) :=
    executePublicOutput_eq_ok.2 ⟨hexecute, rfl⟩
  have hwire : executeWire sdk codec wire = .ok (publicOutput sdk input.publicValues) :=
    (executeWire_eq_ok hdecode).2 ⟨hexecute, rfl⟩
  have hsame : (publicOutput sdk input.publicValues).publicValues = input.publicValues := rfl
  obtain ⟨report, hreport⟩ :
      ∃ report, roundTrip sdk codec (publicOutput sdk input.publicValues) wire = .ok report := by
    simp only [roundTrip, hwire, bind_eq_ok, mapError_eq_ok, ensure_eq_ok]
    exact ⟨_, _, rfl, (), rfl, rfl⟩
  refine ⟨report, ?_⟩
  simp only [precheck, hrun]
  rw [if_pos hsame, hencode, Option.map_some, hreport]

/-- What passes the precheck is accepted by the guest. -/
theorem execute_of_precheck {input : GuestInput} {report : PrecheckReport}
    (h : precheck sdk codec input = some (.ok report)) :
    Guest.execute sdk input = .ok input.publicValues ∧
      report.publicValues = input.publicValues := by
  unfold precheck at h
  cases hrun : executePublicOutput sdk input with
  | error e =>
      rw [hrun] at h
      cases h
  | ok output =>
      obtain ⟨hexecute, rfl⟩ := executePublicOutput_eq_ok.1 hrun
      simp only [hrun] at h
      split at h
      · obtain ⟨wire, -, hwire⟩ := Option.map_eq_some_iff.1 h
        simp only [roundTrip, bind_eq_ok, Except.ok.injEq] at hwire
        obtain ⟨_, -, -, -, rfl⟩ := hwire
        exact ⟨hexecute, rfl⟩
      · cases h

end Results

end UnicityBridge.Precheck
