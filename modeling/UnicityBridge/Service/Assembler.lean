import UnicityBridge.Precheck
import UnicityBridge.Service.Policy

/-!
# Assembling a batch

`domain/assembler.rs`: each member's stored input is decoded and admitted, or excluded with a reason;
the admitted ones are merged into one input on top of the rebuilt accumulator, which is written and
prechecked.

An assembly that cannot be written aborts, as its precheck does: `none`.
-/

set_option autoImplicit false

namespace UnicityBridge.Service

open UnicityBridge.Lib
open UnicityBridge.Core (PublicValues ReturnLeaf SourceLockRef)
open UnicityBridge.Guest (GuestInput BridgeBurnWitness)
open UnicityBridge.Settlement (HostError RebuiltAccumulator)

/-- What the simulation refused. -/
inductive RejectionKind where
  | recipient
  | unconfirmed
  | lock
  deriving DecidableEq

/-- A release that the simulation found to revert. -/
structure Rejected where
  nullifier : String
  reason : String
  kind : RejectionKind
  deriving DecidableEq

/-- Why a burn is left out of a batch. -/
inductive Exclusion where
  | alreadySettled (txid unconfirmed : Option String)
  | rejected (message : String)
  | invalid (message : String)
  deriving DecidableEq

/-- A release nothing has confirmed yet: what assembly finds in the vault's log. -/
def Exclusion.released (txid : Option String) : Exclusion :=
  .alreadySettled txid (some "not yet checked against a second source")

/-- An assembled batch: its wire bytes and what they hold. -/
structure Assembled where
  wire : Bytes
  publicValues : PublicValues
  leaves : List ReturnLeaf
  lockRefs : List SourceLockRef
  kept : List String
  excluded : List (String × Exclusion)
  deriving DecidableEq

/-- Why no batch comes out. -/
inductive AssembleError where
  | allExcluded (excluded : List (String × Exclusion))
  | accumulator (text : String)
  | precheck (text : String)
  deriving DecidableEq

/-- The error's message. -/
def AssembleError.text : AssembleError → String
  | .allExcluded _ => "every member was excluded"
  | .accumulator text => s!"accumulator transition failed: {text}"
  | .precheck text => s!"assembled batch failed precheck: {text}"

/-- The host error's message. What is wrong with a hex text is left out. -/
def hostErrorText : HostError → String
  | .hex => "hex"
  | .check text => text

/-- The batch as far as it is assembled: the nonces taken and the burns kept and left out. -/
structure Merge where
  template : Option (Core.BridgeConfig × PublicValues)
  taken : List UInt64
  leaves : List ReturnLeaf
  lockRefs : List SourceLockRef
  burns : List BridgeBurnWitness
  kept : List String
  excluded : List (String × Exclusion)

namespace Merge

/-- Before the first burn. -/
def empty : Merge := ⟨none, [], [], [], [], [], []⟩

/-- The burn joins the batch. -/
def take (merge : Merge) (burn : Burn) (input : GuestInput) : Merge where
  template := merge.template.or (some (input.config, input.publicValues))
  taken := merge.taken ++ input.sortedLockRefs.map SourceLockRef.nonce
  leaves := merge.leaves ++ input.returnLeaves
  lockRefs := merge.lockRefs ++ input.sortedLockRefs
  burns := merge.burns ++ input.witness.bridgeBurns
  kept := merge.kept ++ [burn.id]
  excluded := merge.excluded

/-- The burn is left out. -/
def exclude (merge : Merge) (burn : Burn) (reason : Exclusion) : Merge :=
  { merge with excluded := merge.excluded ++ [(burn.id, reason)] }

end Merge

/-- The simulation's verdict on a burn, as the exclusion it leads to. -/
def rejection (rejected : List Rejected) (burn : Burn) : Option Exclusion :=
  (rejected.find? fun r => eqIgnoreAsciiCase r.nullifier burn.nullifier).map fun r =>
    match r.kind with
    | .recipient => .rejected r.reason
    | .unconfirmed => .rejected s!"lock not confirmed yet: {r.reason}"
    | .lock => .invalid s!"lock refs are not the vault's: {r.reason}"

section Assemble

variable (sdk : TokenSdk.Sdk) (codec : Wire.Codec)

/-- The first leaf that the accumulator holds already, as the exclusion it leads to. -/
def alreadySpent (acc : RebuiltAccumulator) (leaves : List ReturnLeaf) : Option Exclusion :=
  (leaves.find? fun l => (acc.tree.nonMembershipWitness sdk.sha256 l.nullifier).isNone).map
    fun spent => .released (acc.txids spent.nullifier)

/-- The input differs from the batch it would join. -/
def clash (input : GuestInput) : Option (Core.BridgeConfig × PublicValues) → Option Exclusion
  | none => none
  | some (config, template) =>
      if input.config ≠ config then some (.invalid "bridge config differs from the batch")
      else if input.publicValues.trustBaseHash ≠ template.trustBaseHash then
        some (.invalid "trust base differs from the batch")
      else none

/-- The checks of a burn against the vault's log, the simulation and the burns before it. -/
def admitBurn (burn : Burn) (acc : RebuiltAccumulator) (rejected : List Rejected) (merge : Merge) :
    Except Exclusion GuestInput :=
  match Wire.decodeGuestInput sdk codec burn.wireInput with
  | .error e =>
      .error (.invalid s!"stored wire input does not decode: {Precheck.debugError e}")
  | .ok input =>
      match clash input merge.template with
      | some reason => .error reason
      | none =>
          match rejection rejected burn with
          | some reason => .error reason
          | none =>
              match alreadySpent sdk acc input.returnLeaves with
              | some reason => .error reason
              | none =>
                  if input.sortedLockRefs.any fun r => r.nonce ∈ merge.taken then
                    .error (.invalid "lock nonce already used by another burn in the batch")
                  else .ok input

/-- One turn of the loop of `assemble`. -/
def mergeStep (acc : RebuiltAccumulator) (rejected : List Rejected) (merge : Merge) (burn : Burn) :
    Merge :=
  match admitBurn sdk codec burn acc rejected merge with
  | .ok input => merge.take burn input
  | .error reason => merge.exclude burn reason

/-- The public values of a merged batch on top of an accumulator transition. -/
def mergedValues (template : PublicValues) (next : Settlement.NextBatch) (leaves : List ReturnLeaf)
    (lockRefRoot : Bytes32) : PublicValues where
  domainTag := template.domainTag
  configHash := template.configHash
  trustBaseHash := template.trustBaseHash
  spentRootOld := next.spentRootOld
  spentRootNew := next.spentRootNew
  returnRoot := Core.returnRoot sdk.keccak256 leaves
  lockRefRoot := lockRefRoot
  batchSize := UInt32.ofNat leaves.length
  totalAmount := Core.sumAmounts leaves

/-- Write a merged input and precheck its bytes. -/
def finish (merge : Merge) (input : GuestInput) : Option (Except AssembleError Assembled) :=
  match Wire.encodeGuestInput codec input with
  | none => none
  | some wire =>
      (Precheck.precheckWire sdk codec wire).map fun
        | .error e => .error (.precheck (hostErrorText e))
        | .ok _ => .ok {
            wire := wire
            publicValues := input.publicValues
            leaves := input.returnLeaves
            lockRefs := input.sortedLockRefs
            kept := merge.kept
            excluded := merge.excluded }

/-- The admitted burns as one input. A batch of `2 ^ 32` leaves cannot be written. -/
def assembleMerged (acc : RebuiltAccumulator) (merge : Merge) (config : Core.BridgeConfig)
    (template : PublicValues) : Option (Except AssembleError Assembled) :=
  let lockRefs := Guest.sortByNonce merge.lockRefs
  let nullifiers := merge.leaves.map ReturnLeaf.nullifier
  match Settlement.nextBatch sdk.sha256 acc nullifiers with
  | .error e => some (.error (.accumulator (hostErrorText e)))
  | .ok next =>
      match Core.lockRefRoot sdk.keccak256 lockRefs with
      | .error e => some (.error (.precheck (Precheck.debugError e)))
      | .ok root =>
          if h : merge.leaves.length < 2 ^ 32 then
            finish sdk codec merge {
              config := config
              publicValues := mergedValues sdk template next merge.leaves root
              returnLeaves := merge.leaves
              sortedLockRefs := lockRefs
              witness := { accumulatorWitnesses := next.witnesses, bridgeBurns := merge.burns }
              leaves_lt := h }
          else none

/-- The batch of those members that can be proved together. -/
def assemble (members : List Burn) (acc : RebuiltAccumulator) (rejected : List Rejected) :
    Option (Except AssembleError Assembled) :=
  let merge := members.foldl (mergeStep sdk codec acc rejected) Merge.empty
  match merge.template with
  | none => some (.error (.allExcluded merge.excluded))
  | some (config, template) => assembleMerged sdk codec acc merge config template

end Assemble

end UnicityBridge.Service
