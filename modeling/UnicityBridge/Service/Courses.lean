import UnicityBridge.Service.Runs

/-!
# Courses of a batch

What the orchestrator can do with a batch when the outside answers in a certain way: form it, prove it
on a rebuilt accumulator, submit it, give it up to a root that moved, or find it released. Each course
is given by the history that it leads to, and by the returns of the batch there (`Ledger.Keeps`).
-/

set_option autoImplicit false

namespace UnicityBridge.Service

open UnicityBridge.Lib
open UnicityBridge.Settlement (RebuiltAccumulator)

variable (sdk : TokenSdk.Sdk) (codec : Wire.Codec) (retry : RetryPolicy) (policy : BatchPolicy)

/-! ## Histories -/

/-- The time is read and an event committed. -/
def stamped (w : History) (atMs : Nat) (e : Event) : History :=
  (w.heard .now atMs).own (service sdk codec retry policy) e

/-- Returns are excluded, one after the other. -/
def excluding (w : History) (atMs : Nat) : List (String × Exclusion) → History
  | [] => w
  | (id, reason) :: rest =>
      excluding (stamped sdk codec retry policy w atMs (.returnExcluded id reason atMs)) atMs rest

/-- The chain log rebuilds to this accumulator. -/
def rebuilt (w : History) (acc : RebuiltAccumulator) : History :=
  w.heard (.syncedAccumulator w.state.settledBatches) (.ok acc)

/-- The members of a batch are assembled on an accumulator, after a simulation. -/
def assembling (w : History) (members : List String) (acc : RebuiltAccumulator)
    (rejected : List Rejected) : History :=
  ((rebuilt w acc).heard
      (.simulate ((w.state.burns members).filterMap (Burn.leafToSettle sdk codec)))
      (.ok rejected)).heard
    (.assembling (w.state.burns members) acc rejected) (.ok ())

/-- An assembled batch is proven. -/
def proving (w : History) (id : String) (assembled : Assembled) (proof : ProofBundle) (atMs : Nat) :
    History :=
  stamped sdk codec retry policy (w.heard (.prove id assembled.wire) (.ok proof)) atMs
    (.batchProven id (.proven id proof assembled.leaves assembled.lockRefs)
      (hex32 assembled.publicValues.spentRootOld) atMs)

/-- A batch goes back to be proven on another root. -/
def rebasing (w : History) (id : String) (acc : RebuiltAccumulator) (atMs : Nat) : History :=
  stamped sdk codec retry policy (rebuilt w acc) atMs (.batchRebased id atMs)

/-- A bundle is submitted. -/
def submitting (w : History) (id : String) (bundle : BatchBundle) (acc : RebuiltAccumulator)
    (txid : String) (atMs : Nat) : History :=
  stamped sdk codec retry policy ((rebuilt w acc).heard (.submit bundle) (SubmitOutcome.submitted txid))
    atMs (.batchSettled id (some txid) atMs)

/-- The members of a batch are found released. -/
def releasing (w : History) (id : String) (acc : RebuiltAccumulator) (asked : List Release)
    (answer : Confirmations) (txid : String) (atMs : Nat) : History :=
  stamped sdk codec retry policy ((rebuilt w acc).heard (.confirmReleases asked) (.ok answer)) atMs
    (.batchSettled id (some txid) atMs)

section State

variable (w : History) (id : String) (acc : RebuiltAccumulator) (txid : String) (atMs : Nat)

/-- What others post is applied to the ledger. -/
theorem other_state (e : Event) :
    (w.other (service sdk codec retry policy) e : History).state = w.state.apply sdk.sha256 retry e :=
  rfl

@[simp] theorem rebasing_state : (rebasing sdk codec retry policy w id acc atMs).state =
    w.state.apply sdk.sha256 retry (.batchRebased id atMs) := rfl

@[simp] theorem submitting_state (bundle : BatchBundle) :
    (submitting sdk codec retry policy w id bundle acc txid atMs).state =
      w.state.apply sdk.sha256 retry (.batchSettled id (some txid) atMs) := rfl

@[simp] theorem releasing_state (asked : List Release) (answer : Confirmations) :
    (releasing sdk codec retry policy w id acc asked answer txid atMs).state =
      w.state.apply sdk.sha256 retry (.batchSettled id (some txid) atMs) := rfl

/-- The settlement is the last moment of a submission. -/
theorem submitting_settles (bundle : BatchBundle) :
    (w.state, Label.own (.batchSettled id (some txid) atMs)) ∈
      (submitting sdk codec retry policy w id bundle acc txid atMs).past := List.mem_cons_self

end State

/-! ## What was asked -/

/-- The ledgers that starts found. -/
def startsOf (past : Past) : List Ledger :=
  past.filterMap fun moment => match moment.2 with
    | .started => some moment.1
    | _ => none

/-- The ledgers that burns were assembled from. -/
def assembliesOf (past : Past) : List Ledger :=
  past.filterMap fun moment => match moment.2 with
    | .heard (.assembling _ _ _) _ => some moment.1
    | _ => none

/-- The accumulators that burns were assembled on. -/
def accumulatorsOf (past : Past) : List RebuiltAccumulator :=
  past.filterMap fun moment => match moment.2 with
    | .heard (.assembling _ acc _) _ => some acc
    | _ => none

/-- The inputs that were proven, with what came of it. -/
def proofsOf (past : Past) : List (Bytes × Except String ProofBundle) :=
  past.filterMap fun moment => match moment.2 with
    | .heard (.prove _ wire) answer => some (wire, answer)
    | _ => none

/-- The bundles that were submitted. -/
def submissionsOf (past : Past) : List BatchBundle :=
  past.filterMap fun moment => match moment.2 with
    | .heard (.submit bundle) _ => some bundle
    | _ => none

/-- What the second source answered. -/
def answersOf (past : Past) : List Confirmations :=
  past.filterMap fun moment => match moment.2 with
    | .heard (.confirmReleases _) (.ok answer) => some answer
    | _ => none

/-! ## A ledger with one batch -/

/-- The return after a change of the records in this batch. -/
def Return.inside (b : String) (f : ReturnRecord → ReturnRecord) (r : Return) : Return :=
  if r.inBatch b then { r with record := f r.record } else r

/-- The return after one exclusion. -/
def Return.excluded (retry : RetryPolicy) (atMs : Nat) (r : Return) (entry : String × Exclusion) :
    Return :=
  if r.burn.id = entry.1 then { r with record := r.record.exclude atMs entry.2 retry } else r

theorem Return.inside_of_in {b : String} {f : ReturnRecord → ReturnRecord} {r : Return}
    (h : r.inBatch b = true) : r.inside b f = { r with record := f r.record } := if_pos h

theorem Return.inside_of_out {b : String} {f : ReturnRecord → ReturnRecord} {r : Return}
    (h : r.inBatch b = false) : r.inside b f = r :=
  if_neg (Bool.not_eq_true _ ▸ h)

/-- An excluded return is in no batch. -/
theorem Return.not_inBatch_exclude (r : Return) (b : String) (reason : Exclusion) (atMs : Nat) :
    ({ r with record := r.record.exclude atMs reason retry } : Return).inBatch b = false := by
  rw [← Bool.not_eq_true, Return.inBatch_iff]
  rintro ⟨-, hactive⟩
  exact r.record.exclude_not_active atMs reason hactive

/-- The batch with a proof of an assembly. -/
def Batch.provenWith (batch : Batch) (assembled : Assembled) (proof : ProofBundle) (atMs : Nat) :
    Batch :=
  { batch with
    status := .proven
    bundle := some (.proven batch.id proof assembled.leaves assembled.lockRefs)
    spentRootOld := some (hex32 assembled.publicValues.spentRootOld)
    provenAtMs := some atMs }

/-- The batch after a rebase. -/
def Batch.rebased (batch : Batch) : Batch :=
  { batch with
    rebases := batch.rebases + 1, bundle := none, spentRootOld := none, provenAtMs := none,
    status := .proving }

/-- The batch after a settlement. -/
def Batch.settledWith (batch : Batch) (txid : Option String) : Batch :=
  { batch with
    status := .settled
    bundle := batch.bundle.map fun bundle => { bundle with settleTxid := txid } }

/-- The ledger has these returns and one batch, which is theirs. -/
structure Ledger.Keeps (ledger : Ledger) (current : Batch) (returns : List Return) : Prop where
  indexed : ledger.Indexed sdk codec
  get : ∀ r ∈ returns, ledger.returns.get r.burn.id = some r
  complete : ∀ id r, ledger.returns.get id = some r → r ∈ returns
  batch : ledger.batches.get current.id = some current
  only : ∀ b other, ledger.batches.get b = some other → b = current.id
  members : current.members = returns.map fun r => r.burn.id

namespace Ledger.Keeps

variable {sdk codec retry policy} {ledger : Ledger} {current : Batch} {returns : List Return}

theorem burns (h : ledger.Keeps sdk codec current returns) :
    ledger.burns current.members = returns.map Return.burn := by
  rw [Ledger.burns, h.members, List.filterMap_map, ← List.filterMap_eq_map]
  refine List.filterMap_congr fun r hr => ?_
  simp [h.get r hr]

/-- The members are the returns that are in the batch. -/
theorem isMember (h : ledger.Keeps sdk codec current returns) {r : Return} (hr : r ∈ returns) :
    ledger.isMember current.id r = r.inBatch current.id := by
  have hid : r.burn.id ∈ current.members := by
    rw [h.members]
    exact List.mem_map_of_mem hr
  rw [Ledger.isMember, h.batch]
  simp [hid]

/-- An event that neither accepts a burn nor forms a batch. -/
theorem apply (h : ledger.Keeps sdk codec current returns) {e : Event}
    (he : e.Admissible sdk codec ledger) (haccepted : ∀ burn record, e ≠ .accepted burn record)
    (hformed : ∀ members atMs, e ≠ .batchFormed members atMs) {f : Return → Return}
    (hrecord : ∀ r ∈ returns,
      { r with record := e.recordAfter sdk.sha256 retry ledger r.burn.id r } = f r) :
    (ledger.apply sdk.sha256 retry e).Keeps sdk codec (e.batchAfter current.id current)
      (returns.map f) := by
  have hburn : ∀ r ∈ returns, (f r).burn = r.burn := fun r hr => by
    rw [← hrecord r hr]
  constructor
  · exact h.indexed.apply he
  · intro r' hr'
    obtain ⟨r, hr, rfl⟩ := List.mem_map.1 hr'
    rw [hburn r hr, Ledger.get_apply e he.ne_snapshot haccepted, h.get r hr, Option.map_some,
      hrecord r hr]
  · intro id r' hr'
    rw [Ledger.get_apply e he.ne_snapshot haccepted, Option.map_eq_some_iff] at hr'
    obtain ⟨r, hr, rfl⟩ := hr'
    obtain rfl := h.indexed.id_eq id r hr
    have hmem := h.complete _ r hr
    rw [hrecord r hmem]
    exact List.mem_map_of_mem hmem
  · rw [Event.batchAfter_id, Ledger.batches_apply e he.ne_snapshot hformed, h.batch]
    rfl
  · intro b other hother
    rw [Ledger.batches_apply e he.ne_snapshot hformed, Option.map_eq_some_iff] at hother
    obtain ⟨before, hbefore, -⟩ := hother
    rw [Event.batchAfter_id]
    exact h.only b before hbefore
  · rw [Event.batchAfter_members, h.members, List.map_map]
    exact List.map_congr_left fun r hr => by rw [Function.comp_apply, hburn r hr]

/-- An event of the batch changes the records in it. -/
theorem inside (h : ledger.Keeps sdk codec current returns) {e : Event}
    (he : e.Admissible sdk codec ledger) (haccepted : ∀ burn record, e ≠ .accepted burn record)
    (hformed : ∀ members atMs, e ≠ .batchFormed members atMs) {f : ReturnRecord → ReturnRecord}
    (hrecord : ∀ r, e.recordAfter sdk.sha256 retry ledger r.burn.id r =
      if ledger.isMember current.id r then f r.record else r.record) :
    (ledger.apply sdk.sha256 retry e).Keeps sdk codec (e.batchAfter current.id current)
      (returns.map (Return.inside current.id f)) := by
  refine h.apply he haccepted hformed fun r hr => ?_
  rw [hrecord, h.isMember hr, Return.inside]
  split <;> rfl

theorem proven (h : ledger.Keeps sdk codec current returns) (assembled : Assembled)
    (proof : ProofBundle) (atMs : Nat) :
    (ledger.apply sdk.sha256 retry (.batchProven current.id
        (.proven current.id proof assembled.leaves assembled.lockRefs)
        (hex32 assembled.publicValues.spentRootOld) atMs)).Keeps sdk codec
      (current.provenWith assembled proof atMs)
      (returns.map (Return.inside current.id fun record => record.transition .proven atMs)) := by
  have hafter := @inside _ _ retry _ _ _ h (.batchProven current.id
    (.proven current.id proof assembled.leaves assembled.lockRefs)
    (hex32 assembled.publicValues.spentRootOld) atMs) trivial (fun _ _ he => by cases he)
    (fun _ _ he => by cases he) (fun record => record.transition .proven atMs) fun _ => rfl
  rw [Event.batchAfter, if_pos rfl] at hafter
  exact hafter

theorem rebased (h : ledger.Keeps sdk codec current returns) (atMs : Nat) :
    (ledger.apply sdk.sha256 retry (.batchRebased current.id atMs)).Keeps sdk codec current.rebased
      (returns.map (Return.inside current.id fun record => record.rebase atMs)) := by
  have hafter := @inside _ _ retry _ _ _ h (.batchRebased current.id atMs) trivial
    (fun _ _ he => by cases he) (fun _ _ he => by cases he) (fun record => record.rebase atMs)
    fun _ => rfl
  rw [Event.batchAfter, if_pos rfl] at hafter
  exact hafter

theorem settled (h : ledger.Keeps sdk codec current returns) (txid : Option String) (atMs : Nat) :
    (ledger.apply sdk.sha256 retry (.batchSettled current.id txid atMs)).Keeps sdk codec
      (current.settledWith txid)
      (returns.map (Return.inside current.id fun record => record.settle atMs txid)) := by
  have hafter := @inside _ _ retry _ _ _ h (.batchSettled current.id txid atMs) trivial
    (fun _ _ he => by cases he) (fun _ _ he => by cases he) (fun record => record.settle atMs txid)
    fun _ => rfl
  rw [Event.batchAfter, if_pos rfl] at hafter
  exact hafter

/-- Exclusions change the returns that they name, one after the other. -/
theorem excluding {w : History} (h : w.state.Keeps sdk codec current returns) (atMs : Nat)
    (excluded : List (String × Exclusion)) :
    (excluding sdk codec retry policy w atMs excluded).state.Keeps sdk codec current
      (returns.map fun r => excluded.foldl (Return.excluded retry atMs) r) := by
  induction excluded generalizing w returns with
  | nil =>
      rw [List.map_congr_left fun r _ => List.foldl_nil, List.map_id']
      exact h
  | cons entry rest ih =>
      have hone : (stamped sdk codec retry policy w atMs
          (.returnExcluded entry.1 entry.2 atMs)).state.Keeps sdk codec current
            (returns.map fun r => r.excluded retry atMs entry) := by
        refine @apply _ _ retry _ _ _ h (.returnExcluded entry.1 entry.2 atMs) trivial
          (fun _ _ he => by cases he) (fun _ _ he => by cases he) _ fun r _ => ?_
        rw [Event.recordAfter, Return.excluded]
        split <;> rfl
      have hrest := ih hone
      rw [List.map_map] at hrest
      exact hrest

/-- A batch that has just formed from all pending returns. -/
theorem formed (hindexed : ledger.Indexed sdk codec) (hnone : ledger.batches = Dict.empty)
    (hreturns : ∀ r ∈ returns, ledger.returns.get r.burn.id = some r ∧ r.isPending = true)
    (hcomplete : ∀ id r, ledger.returns.get id = some r → r ∈ returns) {members : List String}
    (hmembers : members = returns.map fun r => r.burn.id) (atMs : Nat) :
    (ledger.apply sdk.sha256 retry (.batchFormed members atMs)).Keeps sdk codec
      (ledger.nextBatch sdk.sha256 members atMs)
      (returns.map fun r =>
        { r with record := r.record.enter atMs (ledger.nextBatch sdk.sha256 members atMs).id }) := by
  have hadmits : (Event.batchFormed members atMs).Admissible sdk codec ledger := by
    show ledger.batches.get _ = none
    rw [hnone]
    exact Dict.get_empty _
  have hrecord : ∀ r ∈ returns, (Event.batchFormed members atMs).recordAfter sdk.sha256 retry ledger
      r.burn.id r = r.record.enter atMs (ledger.nextBatch sdk.sha256 members atMs).id := by
    intro r hr
    have hmember : r.burn.id ∈ members ∧ r.isPending = true :=
      ⟨hmembers ▸ List.mem_map_of_mem hr, (hreturns r hr).2⟩
    simp only [Event.recordAfter, if_pos hmember]
  constructor
  · exact hindexed.apply hadmits
  · intro r' hr'
    obtain ⟨r, hr, rfl⟩ := List.mem_map.1 hr'
    rw [Ledger.get_apply _ hadmits.ne_snapshot fun _ _ he => by cases he]
    simp only [(hreturns r hr).1, Option.map_some, hrecord r hr]
  · intro id r' hr'
    rw [Ledger.get_apply _ hadmits.ne_snapshot (fun _ _ he => by cases he),
      Option.map_eq_some_iff] at hr'
    obtain ⟨r, hr, rfl⟩ := hr'
    obtain rfl := hindexed.id_eq id r hr
    have hmem := hcomplete _ r hr
    refine List.mem_map.2 ⟨r, hmem, ?_⟩
    rw [hrecord r hmem]
  · rw [Ledger.apply, Ledger.batches_form, if_pos rfl]
  · intro b other hother
    rw [Ledger.apply, Ledger.batches_form] at hother
    split at hother
    · next hb => exact hb
    · rw [hnone, Dict.get_empty] at hother
      cases hother
  · rw [Ledger.nextBatch_members, hmembers, List.map_map]
    rfl

/-- The batch is the only one. -/
theorem values (h : ledger.Keeps sdk codec current returns) : ledger.batches.values = [current] := by
  have hkeys : ∀ key ∈ ledger.batches.keys, key = current.id := by
    intro key hkey
    obtain ⟨entry, hentry, rfl⟩ := List.mem_map.1 hkey
    exact h.only entry.1 entry.2 (Dict.get_eq_some.2 hentry)
  have hall : ∀ other ∈ ledger.batches.values, other = current := by
    intro other hother
    obtain ⟨key, hkey⟩ := Dict.mem_values.1 hother
    rw [h.only key other hkey, h.batch] at hkey
    exact (Option.some.inj hkey).symm
  have hlength : ledger.batches.values.length = 1 := by
    have hnodup : ledger.batches.keys.Nodup := ledger.batches.unique
    rw [List.eq_replicate_of_mem hkeys, List.nodup_replicate, Dict.keys, List.length_map] at hnodup
    have hmem : current ∈ ledger.batches.values := Dict.mem_values.2 ⟨_, h.batch⟩
    have hpos := List.length_pos_of_mem hmem
    rw [Dict.values, List.length_map] at hpos ⊢
    omega
  rw [List.eq_replicate_of_mem hall, hlength]
  rfl

/-- Without a proof in the batch there is none to use again. -/
theorem proofFor_eq_none (h : ledger.Keeps sdk codec current returns) (hbundle : current.bundle = none)
    (nullifiers : List String) (root : String) : ledger.proofFor nullifiers root = none := by
  by_contra hsome
  obtain ⟨bundle, hproof⟩ := Option.ne_none_iff_exists'.1 hsome
  obtain ⟨b, other, hother, hproven, -⟩ := Ledger.proofFor_eq_some hproof
  obtain rfl := h.only b other hother
  obtain rfl := Option.some.inj (h.batch.symm.trans hother)
  rw [hbundle] at hproven
  cases hproven

/-- The proof in the batch is the one to use again. -/
theorem proofCandidates (h : ledger.Keeps sdk codec current returns)
    (hstatus : current.status ≠ .settled) {bundle : BatchBundle}
    (hbundle : current.bundle = some bundle) (hproof : bundle.hasProof = true)
    {nullifiers : List String} {root : String} (hroot : current.spentRootOld = some root)
    (hleaves : bundle.leaves.map (fun l => toLowercase l.nullifier) = nullifiers.map toLowercase) :
    ledger.proofCandidates nullifiers root = [current] := by
  have hwanted : Ledger.provesNullifiers (nullifiers.map toLowercase) current = true := by
    simp [Ledger.provesNullifiers, hbundle, hproof, hleaves]
  rw [Ledger.proofCandidates, h.values]
  simp [hstatus, hroot, hwanted]

/-- A ledger with the batch settled has it among its settled batches. -/
theorem settledBatch (h : ledger.Keeps sdk codec current returns)
    (hstatus : current.status = .settled) {x : Settlement.SettledBatch}
    (hx : current.settledBatch = some x) : x ∈ ledger.settledBatches := by
  refine List.mem_filterMap.2 ⟨current, ?_, hx⟩
  rw [List.mem_filter, Dict.mem_values, decide_eq_true_iff]
  exact ⟨⟨_, h.batch⟩, hstatus⟩

end Ledger.Keeps

section ProvenWith

variable {sdk} {batch : Batch} {assembled : Assembled} {proof : ProofBundle} {atMs : Nat}

/-- The batch pays the nullifiers of its leaves. -/
theorem Batch.nullifiers_provenWith : (batch.provenWith assembled proof atMs).nullifiers =
    assembled.leaves.map Core.ReturnLeaf.nullifier := by
  show ((assembled.leaves.map LeafHex.from).filterMap fun l => parseHex32 l.nullifier) = _
  rw [List.filterMap_map, ← List.filterMap_eq_map]
  exact List.filterMap_congr fun leaf _ => parseHex32_hex32 leaf.nullifier

/-- A log that does not show one of its leaves released. -/
theorem Batch.allReleased_provenWith {leaf : Core.ReturnLeaf} (hleaf : leaf ∈ assembled.leaves)
    {acc : RebuiltAccumulator} (hnew : leaf.nullifier ∉ acc.tree.keys) :
    allReleased sdk.sha256 (batch.provenWith assembled proof atMs) acc = false := by
  rw [allReleased, Batch.nullifiers_provenWith, Bool.and_eq_false_iff]
  right
  rw [List.all_eq_false]
  refine ⟨_, List.mem_map_of_mem hleaf, ?_⟩
  simp [Accumulator.nonMembershipWitness_eq_none, hnew]

theorem Batch.chainsOnto_provenWith {root : Bytes32} :
    (batch.provenWith assembled proof atMs).chainsOnto root = true ↔
      assembled.publicValues.spentRootOld = root := by
  show (some (hex32 assembled.publicValues.spentRootOld) == some (hex32 root)) = true ↔ _
  rw [beq_iff_eq, Option.some.injEq]
  exact ⟨hex32_inj, congrArg hex32⟩

end ProvenWith

/-! ## Courses -/

/-- The points of `run_batch`: its start, and the test of its loop after a rebase. -/
def InRun : Orchestrator.Point → Prop
  | .run _ _ | .rebased _ _ => True
  | _ => False

namespace Orchestrator

variable {sdk codec retry policy}

theorem synced_can (batch : Batch) (acc : RebuiltAccumulator) (w : History) :
    (synced batch).CanEnd (service sdk codec retry policy)
      (fun w' known => w' = rebuilt w acc ∧ known = some acc) w := by
  apply Prog.canEnd_read
  apply Prog.canEnd_query (.ok acc)
  exact ⟨rfl, rfl⟩

theorem exclude_can (excluded : List (String × Exclusion)) (atMs : Nat) (w : History) :
    (exclude excluded).CanEnd (service sdk codec retry policy)
      (fun w' _ => w' = excluding sdk codec retry policy w atMs excluded) w := by
  induction excluded generalizing w with
  | nil => exact Prog.canEnd_pure rfl
  | cons entry rest ih =>
      apply Prog.canEnd_query atMs
      apply Prog.canEnd_commit trivial
      exact ih _

/-- Releases that name no transaction are not asked about. -/
theorem confirmed_can {excluded : List (String × Exclusion)} {nullifiers : Dict String String}
    (hunnamed : askedOf (releasedOf excluded nullifiers) = []) (w : History) :
    (confirmed excluded nullifiers).CanEnd (service sdk codec retry policy)
      (fun w' verdicts => w' = w ∧ verdicts = takeVerdicts excluded
        (Dict.ofList ((releasedOf excluded nullifiers).map (Released.verdict (.ok ⟨[], []⟩))))) w := by
  unfold confirmed confirm
  rw [if_pos hunnamed]
  exact ⟨rfl, rfl⟩

/-- The store forms the batch that the policy decides on. -/
theorem takeNext_forms {w : History} {nowMs : Nat} {collect : Bool} {members : List String}
    {formed : Batch} (hnext : policy.next w.state.pending nowMs collect = .batch members)
    (hadmits : (Event.batchFormed members nowMs).Admissible sdk codec w.state)
    (hactive : (w.state.apply sdk.sha256 retry (.batchFormed members nowMs)).activeBatch = some formed) :
    (ReturnStore.takeNext policy nowMs collect).CanEnd (service sdk codec retry policy)
      (fun w' taken => w' = w.own (service sdk codec retry policy) (.batchFormed members nowMs) ∧
        taken = .batch formed) w := by
  unfold ReturnStore.takeNext Prog.CanEnd
  simp only [hnext]
  refine ⟨hadmits, ?_⟩
  have hactive' : ((service sdk codec retry policy).apply w.state
      (.batchFormed members nowMs)).activeBatch = some formed := hactive
  simp only [hactive']
  exact ⟨rfl, rfl⟩

/-- A start that finds no proof in flight. -/
theorem opening_can {w : History} {atMs : Nat} (hrecover : w.state.recover atMs = []) :
    (code sdk codec retry policy .opening).CanEnd (service sdk codec retry policy)
      (fun w' point => w' = w.heard .now atMs ∧ point = .loop (.starting w.state.unsettledProofs)) w := by
  apply Prog.canEnd_query atMs
  show Prog.CanEnd _ _ (ReturnStore.applyAll (w.state.recover atMs) >>= fun _ =>
    ReturnStore.read Ledger.unsettledProofs >>= fun batches =>
      pure (Point.loop (.starting batches))) (w.heard .now atMs)
  rw [hrecover]
  exact ⟨rfl, rfl⟩

/-- The main loop has looked for a drain, for releases and for the time. -/
def looking (w : History) (atMs : Nat) : History :=
  (((w.heard .draining false).heard .now atMs).heard .draining false).heard .now atMs

/-- The main loop forms a batch and goes on to run it. -/
theorem collect_forms {w : History} {atMs : Nat} {collecting : Bool} {members : List String}
    (hdue : w.state.releasesDue atMs = []) (hnone : ∀ b, ¬ w.state.Proving b)
    (hnext : policy.next w.state.pending atMs collecting = .batch members)
    (hadmits : (Event.batchFormed members atMs).Admissible sdk codec w.state) :
    (collect sdk policy collecting).CanEnd (service sdk codec retry policy)
      (fun w' point => w' = (looking w atMs).own (service sdk codec retry policy)
          (.batchFormed members atMs) ∧
        point = .run (w.state.nextBatch sdk.sha256 members atMs) (.collecting false)) w := by
  apply Prog.canEnd_query false
  have hquiet : (recheckReleases sdk).CanEnd (service sdk codec retry policy)
      (fun w' _ => w' = (w.heard .draining false).heard .now atMs) (w.heard .draining false) := by
    apply Prog.canEnd_query atMs
    apply Prog.canEnd_read
    have hdue' : ((w.heard .draining false).heard .now atMs).state.releasesDue atMs = [] := hdue
    rw [if_pos hdue']
    rfl
  refine hquiet.bind ?_
  rintro w' _ rfl
  apply Prog.canEnd_query false
  apply Prog.canEnd_read
  apply Prog.canEnd_query atMs
  have hactive := @Ledger.activeBatch_formed sdk codec retry _ hnone _ _ hadmits
  refine (takeNext_forms (w := looking w atMs) hnext hadmits hactive).bind ?_
  rintro w'' taken ⟨rfl, rfl⟩
  exact ⟨rfl, rfl⟩

section Settle

variable {w : History} {batch : Batch} {acc : RebuiltAccumulator}
  {post : History → Stage → Prop}

/-- The root has moved. -/
theorem settleStage_moves (hopen : allReleased sdk.sha256 batch acc = false)
    (hmoved : batch.chainsOnto acc.spentRoot = false) (hroom : batch.canRebase retry.maxRebases = true)
    (atMs : Nat) (h : post (rebasing sdk codec retry policy w batch.id acc atMs) .rebase) :
    (settleStage sdk retry batch).CanEnd (service sdk codec retry policy) post w := by
  refine (synced_can batch acc w).bind ?_
  rintro w' known ⟨rfl, rfl⟩
  simp only [hopen, hmoved, Bool.false_eq_true, if_false, rebaseOrFail, hroom, if_true]
  apply Prog.canEnd_query atMs
  exact Prog.canEnd_commit trivial h

/-- The settler submits the bundle. -/
theorem settleStage_submits {bundle : BatchBundle} (hopen : allReleased sdk.sha256 batch acc = false)
    (hroot : batch.chainsOnto acc.spentRoot = true) (hbundle : batch.bundle = some bundle)
    (txid : String) (atMs : Nat)
    (h : post (submitting sdk codec retry policy w batch.id bundle acc txid atMs) .done) :
    (settleStage sdk retry batch).CanEnd (service sdk codec retry policy) post w := by
  refine (synced_can batch acc w).bind ?_
  rintro w' known ⟨rfl, rfl⟩
  simp only [hopen, hroot, Bool.false_eq_true, if_false, if_true, hbundle]
  apply Prog.canEnd_query (SubmitOutcome.submitted txid)
  apply Prog.canEnd_query atMs
  exact Prog.canEnd_commit trivial h

/-- Submission is switched off. -/
theorem settleStage_skips {bundle : BatchBundle} (hopen : allReleased sdk.sha256 batch acc = false)
    (hroot : batch.chainsOnto acc.spentRoot = true) (hbundle : batch.bundle = some bundle)
    (h : post ((rebuilt w acc).heard (.submit bundle) SubmitOutcome.skipped) .done) :
    (settleStage sdk retry batch).CanEnd (service sdk codec retry policy) post w := by
  refine (synced_can batch acc w).bind ?_
  rintro w' known ⟨rfl, rfl⟩
  simp only [hopen, hroot, Bool.false_eq_true, if_false, if_true, hbundle]
  apply Prog.canEnd_query SubmitOutcome.skipped
  exact Prog.canEnd_pure h

/-- All members were released, in one transaction. -/
theorem settleStage_releases {released : List Released} {answer : Confirmations} {txid : String}
    (hall : allReleased sdk.sha256 batch acc = true)
    (hreleased : w.state.releasedMembers batch acc = released) (hasked : askedOf released ≠ [])
    (hone : oneTransaction (released.map (Released.verdict (.ok answer))) = some txid) (atMs : Nat)
    (h : post (releasing sdk codec retry policy w batch.id acc (askedOf released) answer txid atMs)
      .done) :
    (settleStage sdk retry batch).CanEnd (service sdk codec retry policy) post w := by
  refine (synced_can batch acc w).bind ?_
  rintro w' known ⟨rfl, rfl⟩
  simp only [hall, if_true]
  apply Prog.canEnd_read
  have hstate : (rebuilt w acc).state.releasedMembers batch acc = released := hreleased
  simp only [hstate, confirm, if_neg hasked]
  apply Prog.canEnd_query (.ok answer)
  beta_reduce
  rw [hone]
  apply Prog.canEnd_query atMs
  exact Prog.canEnd_commit trivial h

end Settle

/-- A batch is proven on an accumulator, without another proof of it at hand. -/
theorem proveStage_proves {w : History} {batch current : Batch} {acc : RebuiltAccumulator}
    {rejected : List Rejected} {assembled : Assembled} {verdicts : List (String × Exclusion)}
    {proof : ProofBundle} {post : History → Stage → Prop} {atMs : Nat}
    (hassemble : assemble sdk codec (w.state.burns batch.members) acc rejected = some (.ok assembled))
    (hverdicts : ∀ nullifiers, nullifiers = Dict.ofList
        ((w.state.burns batch.members).map fun b => (b.id, b.nullifier)) →
      askedOf (releasedOf assembled.excluded nullifiers) = [] ∧
      takeVerdicts assembled.excluded (Dict.ofList
        ((releasedOf assembled.excluded nullifiers).map (Released.verdict (.ok ⟨[], []⟩)))) = verdicts)
    (hfresh : (excluding sdk codec retry policy
        (assembling sdk codec w batch.members acc rejected) atMs verdicts).state.proofFor
      (assembled.leaves.map fun l => hex32 l.nullifier) (hex32 assembled.publicValues.spentRootOld) = none)
    (hcurrent : (proving sdk codec retry policy (excluding sdk codec retry policy
        (assembling sdk codec w batch.members acc rejected) atMs verdicts) batch.id assembled proof
          atMs).state.batches.get batch.id = some current)
    (h : (settleStage sdk retry current).CanEnd (service sdk codec retry policy) post
      (proving sdk codec retry policy (excluding sdk codec retry policy
        (assembling sdk codec w batch.members acc rejected) atMs verdicts) batch.id assembled proof
          atMs)) :
    (proveStage sdk codec retry batch).CanEnd (service sdk codec retry policy) post w := by
  -- the answers on the way: the accumulator, the simulation, the assembly
  obtain ⟨hunnamed, hsame⟩ := hverdicts _ rfl
  refine (synced_can batch acc w).bind ?_
  rintro w' known ⟨rfl, rfl⟩
  apply Prog.canEnd_read
  apply Prog.canEnd_query (.ok rejected)
  apply Prog.canEnd_query (.ok ())
  show Prog.CanEnd _ _ _ (assembling sdk codec w batch.members acc rejected)
  generalize assembling sdk codec w batch.members acc rejected = w₁ at *
  have hburns : (rebuilt w acc).state.burns batch.members = w.state.burns batch.members := rfl
  simp only [hburns, hassemble]
  refine (confirmed_can hunnamed w₁).bind ?_
  rintro _ verdicts' ⟨rfl, rfl⟩
  refine (exclude_can _ atMs _).bind ?_
  rintro w₂ _ rfl
  rw [hsame]
  -- no earlier proof fits, so the prover is asked
  apply Prog.canEnd_read
  simp only [hfresh]
  apply Prog.canEnd_query (.ok proof)
  apply Prog.canEnd_query atMs
  apply Prog.canEnd_commit trivial
  show Prog.CanEnd _ _ _ (proving sdk codec retry policy _ batch.id assembled proof atMs)
  generalize proving sdk codec retry policy _ batch.id assembled proof atMs = w₃ at *
  apply Prog.canEnd_read
  simp only [hcurrent]
  exact h

/-- The run of a batch without a proof. -/
theorem run_goes {w : History} {batch : Batch} {after : Loop} {post : History → Stage → Prop}
    (hbundle : batch.bundle = none)
    (h : (proveStage sdk codec retry batch).CanEnd (service sdk codec retry policy) post w) :
    ∃ w' stage, post w' stage ∧ Relation.ReflTransGen ((service sdk codec retry policy).Turn InRun)
      ⟨w, .running (.done (.run batch after))⟩ ⟨w', .running (.done (.after batch.id after stage))⟩ := by
  have hcode : ((service sdk codec retry policy).code (.run batch after)).CanEnd
      (service sdk codec retry policy)
      (fun w' point => ∃ stage, post w' stage ∧ point = .after batch.id after stage) w := by
    show (runBatch sdk codec retry batch after).CanEnd _ _ w
    unfold runBatch
    rw [if_neg (by simp [hbundle])]
    exact h.bind fun w' stage hpost => ⟨stage, hpost, rfl⟩
  have hinside : InRun (.run batch after) := trivial
  obtain ⟨w', point, ⟨stage, hpost, rfl⟩, hturns⟩ := System.goes_inside hinside hcode
  exact ⟨w', stage, hpost, hturns⟩

/-- The next round of a batch that was rebased. -/
theorem rebased_goes {w : History} {current : Batch} {after : Loop} {post : History → Stage → Prop}
    (hcurrent : w.state.batches.get current.id = some current)
    (h : (proveStage sdk codec retry current).CanEnd (service sdk codec retry policy) post w) :
    ∃ w' stage, post w' stage ∧ Relation.ReflTransGen ((service sdk codec retry policy).Turn InRun)
      ⟨w, .running (.done (.rebased current.id after))⟩
      ⟨w', .running (.done (.after current.id after stage))⟩ := by
  have hcode : ((service sdk codec retry policy).code (.rebased current.id after)).CanEnd
      (service sdk codec retry policy)
      (fun w' point => ∃ stage, post w' stage ∧ point = .after current.id after stage) w := by
    apply Prog.canEnd_read
    simp only [hcurrent]
    exact h.bind fun w' stage hpost => ⟨stage, hpost, rfl⟩
  have hinside : InRun (.rebased current.id after) := trivial
  obtain ⟨w', point, ⟨stage, hpost, rfl⟩, hturns⟩ := System.goes_inside hinside hcode
  exact ⟨w', stage, hpost, hturns⟩

end Orchestrator

/-! ## Rounds -/

/-- A batch is assembled, the exclusions are ruled on, and the rest is proven. -/
def rounding (w : History) (current : Batch) (acc : RebuiltAccumulator) (rejected : List Rejected)
    (verdicts : List (String × Exclusion)) (assembled : Assembled) (proof : ProofBundle) (atMs : Nat) :
    History :=
  proving sdk codec retry policy (excluding sdk codec retry policy
    (assembling sdk codec w current.members acc rejected) atMs verdicts) current.id assembled proof atMs

/-- The return after a round with these verdicts. -/
def Return.rounded (b : String) (verdicts : List (String × Exclusion)) (atMs : Nat) (r : Return) :
    Return :=
  (verdicts.foldl (Return.excluded retry atMs) r).inside b fun record =>
    record.transition .proven atMs

section Rounded

variable {retry} {b : String} {r : Return} {atMs : Nat} {verdicts : List (String × Exclusion)}

theorem Return.excluded_others (hother : ∀ entry ∈ verdicts, r.burn.id ≠ entry.1) :
    verdicts.foldl (Return.excluded retry atMs) r = r := by
  induction verdicts with
  | nil => rfl
  | cons entry rest ih =>
      rw [List.foldl_cons, Return.excluded, if_neg (hother entry List.mem_cons_self)]
      exact ih fun e he => hother e (List.mem_cons_of_mem _ he)

/-- A return in the batch that is not excluded is proven. -/
theorem Return.rounded_of_in (hin : r.inBatch b = true)
    (hother : ∀ entry ∈ verdicts, r.burn.id ≠ entry.1) :
    r.rounded retry b verdicts atMs = { r with record := r.record.transition .proven atMs } := by
  rw [Return.rounded, Return.excluded_others hother, Return.inside_of_in hin]

/-- A return that has left the batch stays as it is. -/
theorem Return.rounded_of_out (hout : r.inBatch b = false)
    (hother : ∀ entry ∈ verdicts, r.burn.id ≠ entry.1) : r.rounded retry b verdicts atMs = r := by
  rw [Return.rounded, Return.excluded_others hother, Return.inside_of_out hout]

/-- A verdict takes its return out of the batch. -/
theorem Return.rounded_excluded {id : String} (hid : r.burn.id = id) (reason : Exclusion) :
    r.rounded retry b [(id, reason)] atMs =
      { r with record := r.record.exclude atMs reason retry } := by
  rw [Return.rounded, List.foldl_cons, List.foldl_nil, Return.excluded, if_pos hid]
  exact Return.inside_of_out (r.not_inBatch_exclude retry b reason atMs)

end Rounded

namespace Ledger.Keeps

variable {sdk codec retry policy} {w : History} {current : Batch} {returns : List Return}
  {acc : RebuiltAccumulator} {rejected : List Rejected} {verdicts : List (String × Exclusion)}
  {assembled : Assembled} {proof : ProofBundle} {atMs : Nat}

theorem assembling (h : w.state.Keeps sdk codec current returns) (members : List String) :
    (assembling sdk codec w members acc rejected).state.Keeps sdk codec current returns := h

theorem rounding (h : w.state.Keeps sdk codec current returns) :
    (rounding sdk codec retry policy w current acc rejected verdicts assembled proof
        atMs).state.Keeps sdk codec (current.provenWith assembled proof atMs)
      (returns.map (Return.rounded retry current.id verdicts atMs)) := by
  have hexcluded := @excluding _ _ retry policy _ _ _
    (@assembling _ _ _ _ _ acc rejected h current.members) atMs verdicts
  have hproven := @proven _ _ retry _ _ _ hexcluded assembled proof atMs
  rw [List.map_map] at hproven
  exact hproven

/-- **A round of the batch**: it is assembled, ruled on and proven, and goes on to settle. -/
theorem round (h : w.state.Keeps sdk codec current returns) (hbundle : current.bundle = none)
    (hassemble : assemble sdk codec (returns.map Return.burn) acc rejected = some (.ok assembled))
    (hverdicts : ∀ nullifiers, nullifiers = Dict.ofList
        (returns.map fun r => (r.burn.id, r.burn.nullifier)) →
      askedOf (releasedOf assembled.excluded nullifiers) = [] ∧
      takeVerdicts assembled.excluded (Dict.ofList
        ((releasedOf assembled.excluded nullifiers).map (Released.verdict (.ok ⟨[], []⟩)))) = verdicts)
    {post : History → Stage → Prop}
    (hsettle : (Orchestrator.settleStage sdk retry (current.provenWith assembled proof atMs)).CanEnd
      (service sdk codec retry policy) post
      (Service.rounding sdk codec retry policy w current acc rejected verdicts assembled proof atMs)) :
    (Orchestrator.proveStage sdk codec retry current).CanEnd (service sdk codec retry policy) post
      w := by
  have hburns := h.burns
  rw [← hburns] at hassemble
  have hexcluded := @excluding _ _ retry policy _ _ _
    (@assembling _ _ _ _ _ acc rejected h current.members) atMs verdicts
  have hnullifiers : (w.state.burns current.members).map (fun b => (b.id, b.nullifier)) =
      returns.map fun r => (r.burn.id, r.burn.nullifier) := by
    rw [hburns, List.map_map]
    rfl
  rw [← hnullifiers] at hverdicts
  exact Orchestrator.proveStage_proves hassemble hverdicts (hexcluded.proofFor_eq_none hbundle _ _)
    h.rounding.batch hsettle

end Ledger.Keeps

end UnicityBridge.Service
