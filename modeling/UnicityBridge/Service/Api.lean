import UnicityBridge.Lib.Handlers
import UnicityBridge.Service.Fees
import UnicityBridge.Service.Orchestrator
import UnicityBridge.WitnessBuild

/-!
# The service's API

`api.rs`: the handlers of the requests, as programs over the store. A handler reads and commits in
steps of its own, so anything may happen between two of them. `none` is a request that is never
answered.
-/

set_option autoImplicit false

namespace UnicityBridge.Service

open UnicityBridge.Lib
open UnicityBridge.Core (ReturnLeaf)
open UnicityBridge.Guest (GuestInput)
open UnicityBridge.WitnessBuild (EnvelopeIntake)

/-! ## Requests and answers -/

/-- What the handlers know besides the store. -/
structure AppState where
  /-- none in the fixture mode of tests -/
  intake : Option EnvelopeIntake
  configHash : Option Bytes32
  fee : FeePolicy
  maxPending : Nat
  /-- a chain watcher is configured -/
  isLive : Bool
  /-- the service submits settlements itself -/
  submits : Bool

/-- The body of `POST /returns`. -/
structure CreateReturnRequest where
  tokenCbor : Option String
  reasonBytes : Option String
  configHash : Option String
  wireInput : Option String
  deriving DecidableEq

/-- The requests the API answers. -/
inductive Request where
  | accumulator
  | createReturn (req : CreateReturnRequest)
  | getReturnByNullifier (nullifier : String)
  | getReturn (id : String)
  | getBatch (id : String)
  | fees
  deriving DecidableEq

/-- The body of `GET /accumulator`. -/
structure AccumulatorResponse where
  synced : Bool
  spentRoot : String
  spentCount : Nat
  deriving DecidableEq

/-- The body of an accepted `POST /returns`. -/
structure CreateReturnResponse where
  returnId : String
  nullifier : String
  status : ReturnStatus
  terminal : Bool
  success : Option Bool
  progress : Nat
  message : String
  nextPollMs : Nat
  duplicate : Bool
  deriving DecidableEq

/-- A record with its place among the pending returns. -/
structure RecordView where
  record : ReturnRecord
  queuePosition : Option Nat
  deriving DecidableEq

/-- The bodies of the answers. -/
inductive Response where
  | accumulator (body : AccumulatorResponse)
  | created (body : CreateReturnResponse)
  | found (record : Option RecordView)
  | record (record : RecordView)
  | bundle (bundle : BatchBundle)
  | fees (quote : FeeQuote)
  deriving DecidableEq

/-- Why a request is refused. -/
inductive ApiError where
  | badRequest (code message : String)
  | feeRefused (code message : String)
  | precheckRejected (message : String)
  | chainUnsynced (message : String)
  | intakeUnconfigured
  | queueFull (maxPending : Nat)
  | notFound (id : String)
  | notPublished (id : String) (openAt : Option UInt64)
  deriving DecidableEq

/-- The error of a response. -/
structure ErrorBody where
  status : Nat
  code : String
  message : String
  recoverable : Bool
  deriving DecidableEq

namespace ApiError

/-- The message of the error. -/
def text : ApiError → String
  | badRequest _ message => message
  | feeRefused _ message => message
  | precheckRejected message => message
  | chainUnsynced message => s!"accumulator not synced to chain: {message}"
  | intakeUnconfigured =>
      "envelope intake is not configured (set BRIDGE_DEPLOYMENT_CONFIG + TRUST_BASE_PATH)"
  | queueFull maxPending =>
      s!"the service already holds {maxPending} unfinished returns; resubmit once some settle"
  | notFound id => s!"not found: {id}"
  | notPublished id openAt =>
      let opens := match openAt with
        | some secs => s!" (unix time {secs})"
        | none => ""
      s!"batch {id} is published once it settles or every burn in it is past its deadline{opens}"

/-- The HTTP status of the error. -/
def status : ApiError → Nat
  | badRequest _ _ | feeRefused _ _ | precheckRejected _ => 400
  | chainUnsynced _ | intakeUnconfigured | queueFull _ => 503
  | notFound _ | notPublished _ _ => 404

/-- The code a client tells the errors apart by. -/
def code : ApiError → String
  | badRequest code _ => code
  | feeRefused code _ => code
  | precheckRejected _ => "precheck_rejected"
  | chainUnsynced _ => "chain_unsynced"
  | intakeUnconfigured => "intake_unconfigured"
  | queueFull _ => "queue_full"
  | notFound _ => "not_found"
  | notPublished _ _ => "not_published"

/-- Whether the same request may succeed later. -/
def recoverable : ApiError → Bool
  | feeRefused _ _ | chainUnsynced _ | intakeUnconfigured | queueFull _ | notPublished _ _ => true
  | badRequest _ _ | precheckRejected _ | notFound _ => false

/-- The error as it is answered. -/
def body (err : ApiError) : ErrorBody := ⟨err.status, err.code, err.text, err.recoverable⟩

end ApiError

/-! ## The wire input of a post -/

/-- The text of an error that the precheck or the intake raises. -/
def hostText : Settlement.HostError → String
  | .hex => "hex"
  | .check text => text

section Posts

-- `hexError` is what the hex reader says of a text that it refuses
variable (sdk : TokenSdk.Sdk) (codec : Wire.Codec) (hexError : String → String) (state : AppState)

/-- A hex field of a request. -/
def decodeHex (input : String) : Except ApiError Bytes :=
  okOr (hexBytes input) (.badRequest "invalid_hex" s!"invalid hex: {hexError input}")

/-- The envelope's own configuration, if it names one, must be the service's. -/
def checkDeclared (intake : EnvelopeIntake) : Option String → Except ApiError Unit
  | none => .ok ()
  | some declared => do
      let bytes ← decodeHex hexError declared
      ensure (bytes = (intake.configHash sdk).toList) (.badRequest "config_hash_mismatch"
        s!"configHash mismatch: got {hexText bytes}, service uses {hex32 (intake.configHash sdk)}")

/-- The wire input of a post: built from the wallet's envelope, or posted as it is to a service that
runs without a deployment. -/
def buildWireInput (req : CreateReturnRequest) : Except ApiError (Option Bytes) :=
  match req.tokenCbor, req.reasonBytes with
  | some tokenCbor, some reasonBytes => do
      let intake ← okOr state.intake .intakeUnconfigured
      checkDeclared sdk hexError intake req.configHash
      let token ← decodeHex hexError tokenCbor
      let reason ← decodeHex hexError reasonBytes
      (intake.buildWireInput sdk codec token reason).mapError
        fun err => .precheckRejected (hostText err)
  | none, none => do
      let wire ← okOr req.wireInput (.badRequest "missing_payload"
        "provide {tokenCbor, reasonBytes} (wallet envelope) or wireInput")
      ensure (state.intake.isNone = true) (.badRequest "raw_witness_refused"
        "this service admits burns through the wallet envelope {tokenCbor, reasonBytes}; a pre-assembled wireInput is taken only by a service run without a deployment config")
      let bytes ← decodeHex hexError wire
      .ok (some bytes)
  | _, _ => .error (.badRequest "incomplete_envelope"
      "tokenCbor and reasonBytes must be provided together")

/-- A post that has passed the checks that do not ask the store. -/
structure Submission where
  wireInput : Bytes
  report : Precheck.PrecheckReport
  input : GuestInput
  leaf : ReturnLeaf

namespace Submission

/-- The identifier of the return. -/
def id (s : Submission) : String := returnId sdk.sha256 s.report.publicValuesDigest s.leaf.nullifier

/-- The burn that is stored for it. -/
def burn (s : Submission) : Burn := Burn.fromInput (s.id sdk) s.input s.leaf s.wireInput

/-- The record of the new return. -/
def record (s : Submission) (nowMs : Nat) : ReturnRecord :=
  ReturnRecord.queued (s.id sdk) s.leaf.nullifier nowMs

end Submission

/-- A burn for another vault is refused. -/
def checkConfig (configHash : Bytes32) : Except ApiError Unit :=
  match state.configHash with
  | none => .ok ()
  | some expected =>
      ensure (configHash = expected) (.badRequest "config_hash_mismatch"
        s!"configHash mismatch: got {hex32 configHash}, expected {hex32 expected}")

/-- The checks on a prechecked input: it has one leaf, and the service's configuration. -/
def admitted (wireInput : Bytes) (report : Precheck.PrecheckReport) : Except ApiError Submission := do
  let input ← (Wire.decodeGuestInput sdk codec wireInput).mapError
    fun err => .badRequest "invalid_wire_input" s!"wire decode failed: {Precheck.debugError err}"
  match input.returnLeaves with
  | [leaf] => do
      checkConfig state report.publicValues.configHash
      .ok ⟨wireInput, report, input, leaf⟩
  | _ => .error (.badRequest "unsupported_batch_shape"
      "service intake currently expects one return leaf per submitted wire input")

/-- The part of `create_return` that does not ask the store. -/
def submission (req : CreateReturnRequest) : Option (Except ApiError Submission) :=
  match buildWireInput sdk codec hexError state req with
  | .error err => some (.error err)
  | .ok none => none
  | .ok (some wireInput) =>
      match Precheck.precheckWire sdk codec wireInput with
      | none => none
      | some (.error err) => some (.error (.precheckRejected (hostText err)))
      | some (.ok report) => some (admitted sdk codec state wireInput report)

end Posts

/-! ## The store -/

/-- The time in seconds. -/
def Clock.nowSecs : Program UInt64 := do
  let nowMs ← Clock.nowMs
  pure (UInt64.ofNat (nowMs / 1000))

/-- A return's record, with its place in the queue. -/
def Ledger.record (ledger : Ledger) (id : String) : Option RecordView :=
  (ledger.returns.get id).map fun r =>
    ⟨r.record, (ledger.pending.findIdx? fun pending => pending.burn.id = id).map (· + 1)⟩

/-- The record of the return that holds a nullifier. -/
def Ledger.recordOf (ledger : Ledger) (nullifier : String) : Option RecordView :=
  (ledger.returnOf nullifier).bind fun r => ledger.record r.burn.id

namespace ReturnStore

/-- The record of an identifier. -/
def get (id : String) : Program (Option RecordView) := read fun ledger => ledger.record id

/-- The record of a nullifier. -/
def getByNullifier (nullifier : String) : Program (Option RecordView) :=
  read fun ledger => ledger.recordOf nullifier

/-- What accepting a burn returns, from the ledgers before and after it. -/
def taken (burn : Burn) (record : ReturnRecord) (maxUnfinished : Nat) (before after : Ledger) :
    Program (Option (RecordView × Bool)) :=
  match before.returnOf record.nullifier with
  | some known =>
      match after.record known.burn.id with
      | some view => pure (some (view, known.record.failedRecoverably))
      | none => panicked
  | none =>
      if maxUnfinished ≤ before.unfinished then pure none
      else
        match after.record burn.id with
        | some view => pure (some (view, true))
        | none => panicked

/-- Accept a burn, and say whether this committed anything; `none` when the store is full. -/
def accept (burn : Burn) (record : ReturnRecord) (nowMs maxUnfinished : Nat) :
    Program (Option (RecordView × Bool)) :=
  Prog.act (fun ledger => acceptWithin ledger burn record nowMs maxUnfinished)
    (taken burn record maxUnfinished)

end ReturnStore

/-! ## Publication -/

/-- The latest deadline among the leaves; `none` when one does not parse. -/
def BatchBundle.selfSettleFromSecs (bundle : BatchBundle) : Option UInt64 :=
  bundle.leaves.foldlM (fun latest leaf =>
    (fromStrRadix hexValue 16 (2 ^ 64) (Settlement.dropHexPrefix leaf.deadline.toList)).map
      fun deadline => max latest (UInt64.ofNat deadline)) 0

/-- A bundle waits for its service's own settlement until its last deadline is over. -/
def AppState.keepsBack (state : AppState) (settled : Bool) (openAt : Option UInt64) (nowSecs : UInt64) :
    Bool :=
  state.submits && !settled && openAt.all fun deadline => nowSecs ≤ deadline

/-! ## Handlers -/

namespace Api

/-- What a handler ends with. -/
abbrev Answer := Option (Except ApiError Response)

section Handlers

variable (sdk : TokenSdk.Sdk) (codec : Wire.Codec) (hexError : String → String) (state : AppState)

/-- `GET /accumulator`. Without a chain watcher the answer says that it is not synced. -/
def accumulator : Program Answer := do
  let settled ← ReturnStore.read Ledger.settledBatches
  let answer ← ChainLog.syncedAccumulator settled
  match answer with
  | .error err => pure (some (.error (.chainUnsynced err.text)))
  | .ok acc => pure (some (.ok (.accumulator
      { synced := state.isLive, spentRoot := hex32 acc.spentRoot, spentCount := acc.spentCount })))

/-- The fee policy asks nothing of a burn that the store holds already. -/
def feeError (held : Bool) (leaf : ReturnLeaf) (nowSecs : UInt64) : Option ApiError :=
  if held then none
  else
    match state.fee.refusal leaf nowSecs with
    | some (.unpaid why) => some (.feeRefused "fee_not_paid" why)
    | some (.late why) => some (.feeRefused "fee_deadline_passed" why)
    | none => none

/-- The answer to a submission, once it was stored or refused for the queue's length. -/
def created : Option (RecordView × Bool) → Except ApiError Response
  | none => .error (.queueFull state.maxPending)
  | some (view, inserted) => .ok (.created {
      returnId := view.record.returnId
      nullifier := view.record.nullifier
      status := view.record.status
      terminal := view.record.terminal
      success := view.record.success
      progress := view.record.progress
      message := view.record.message
      nextPollMs := view.record.nextPollMs
      duplicate := !inserted })

/-- The part of `create_return` that asks the store. -/
def submit (s : Submission) : Program Answer := do
  let nowSecs ← Clock.nowSecs
  let held ← ReturnStore.getByNullifier (hex32 s.leaf.nullifier)
  match feeError state held.isSome s.leaf nowSecs with
  | some err => pure (some (.error err))
  | none => do
      let createdAtMs ← Clock.nowMs
      let nowMs ← Clock.nowMs
      let taken ← ReturnStore.accept (s.burn sdk) (s.record sdk createdAtMs) nowMs state.maxPending
      pure (some (created state taken))

/-- `POST /returns` -/
def createReturn (req : CreateReturnRequest) : Program Answer :=
  match submission sdk codec hexError state req with
  | none => pure none
  | some (.error err) => pure (some (.error err))
  | some (.ok s) => submit sdk state s

/-- `GET /returns` by nullifier; no record is an answer too. -/
def getReturnByNullifier (nullifier : String) : Program Answer := do
  let found ← ReturnStore.getByNullifier nullifier
  pure (some (.ok (.found found)))

/-- `GET /returns/{id}` -/
def getReturn (id : String) : Program Answer := do
  let found ← ReturnStore.get id
  pure (some ((okOr found (.notFound id)).map Response.record))

/-- The bundle of a batch and whether the batch has settled. -/
def bundleOf (ledger : Ledger) (id : String) : Option (BatchBundle × Bool) := do
  let batch ← ledger.batches.get id
  let bundle ← batch.bundle
  some (bundle, decide (batch.status = .settled))

/-- `GET /batches/{id}`, withheld while somebody else could settle the batch and take its fees. -/
def getBatch (id : String) : Program Answer := do
  let found ← ReturnStore.read fun ledger => bundleOf ledger id
  match found with
  | none => pure (some (.error (.notFound id)))
  | some (bundle, settled) => do
      let nowSecs ← Clock.nowSecs
      if state.keepsBack settled bundle.selfSettleFromSecs nowSecs then
        pure (some (.error (.notPublished id bundle.selfSettleFromSecs)))
      else pure (some (.ok (.bundle bundle)))

/-- `GET /fees` -/
def fees : Program Answer := do
  let nowSecs ← Clock.nowSecs
  pure (some (.ok (.fees (state.fee.quote nowSecs))))

/-- The handler of a request. -/
def handler : Request → Program Answer
  | .accumulator => accumulator state
  | .createReturn req => createReturn sdk codec hexError state req
  | .getReturnByNullifier nullifier => getReturnByNullifier nullifier
  | .getReturn id => getReturn id
  | .getBatch id => getBatch state id
  | .fees => fees state

end Handlers

end Api

/-! ## The service at work -/

section Serving

variable (sdk : TokenSdk.Sdk) (codec : Wire.Codec) (retry : RetryPolicy) (policy : BatchPolicy)
  (hexError : String → String) (deployed : AppState → Prop)

/-- The service with the requests that it has in hand. -/
abbrev Hosting :=
  Serving Ledger Event Query Query.Answer Settlement.SettledBatch Orchestrator.Point
    (AppState × Request) (Except ApiError Response)

/-- One step of the service and its handlers, under settings that it may be deployed with. Settings
may change while the ledger stays. -/
def Hosts : Hosting → Hosting → Prop :=
  (service sdk codec retry policy).Serves (fun request => deployed request.1)
    fun request => Api.handler sdk codec hexError request.1 request.2

/-- What the service gets into. -/
def Hosted : Hosting → Prop :=
  (service sdk codec retry policy).Served (fun request => deployed request.1)
    fun request => Api.handler sdk codec hexError request.1 request.2

end Serving

end UnicityBridge.Service
