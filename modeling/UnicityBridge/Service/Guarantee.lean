import UnicityBridge.Service.Flight
import UnicityBridge.Service.Orchestrator

/-!
# What the orchestrator commits

Beside the orchestrator the request handlers change the ledger: they accept burns and put failed
returns back in the queue (`Ledger.Aside`). `RunOf` says which events a run of one batch commits, and
`Allowed` which events the orchestrator commits at all, each with what the history has to show for it:
the answers it rests on, and where a return stood when its burn was assembled.

A history of allowed events keeps the index and the flights of the ledger in order.
-/

set_option autoImplicit false

namespace UnicityBridge.Service

open UnicityBridge.Lib
open UnicityBridge.Settlement (RebuiltAccumulator)

/-! ## Beside the orchestrator -/

namespace Return

/-- The return is proving or proven. -/
def Active (r : Return) : Prop := r.record.status = .proving ∨ r.record.status = .proven

theorem active_of_inBatch {r : Return} {b : String} (h : r.inBatch b = true) : r.Active :=
  (inBatch_iff.1 h).2

theorem not_failedRecoverably_of_active {r : Return} (h : r.Active) :
    r.record.failedRecoverably = false := by
  rcases h with h | h <;> simp [ReturnRecord.failedRecoverably, h]

end Return

/-- The batches stay, and so do the returns, except those under `ids`, which leave their batch, and
failed ones that are put back in the queue. New returns are in no batch. -/
structure Ledger.Aside (ids : List String) (ledger later : Ledger) : Prop where
  batches : later.batches = ledger.batches
  kept : ∀ id r, ledger.returns.get id = some r → ∃ r', later.returns.get id = some r' ∧
    r'.burn = r.burn ∧ (r' = r ∨
      ¬ r'.Active ∧ (id ∈ ids ∨ r.record.failedRecoverably = true ∧ r'.isDone = false))
  came : ∀ id r', later.returns.get id = some r' →
    ledger.returns.get id = some r' ∨ ¬ r'.Active

namespace Ledger.Aside

variable {ids : List String} {ledger middle later : Ledger}

theorem refl (ids : List String) (ledger : Ledger) : Aside ids ledger ledger where
  batches := rfl
  kept := fun _ r hr => ⟨r, hr, rfl, .inl rfl⟩
  came := fun _ _ hr' => .inl hr'

theorem trans (h : Aside ids ledger middle) (h' : Aside ids middle later) :
    Aside ids ledger later where
  batches := h'.batches.trans h.batches
  kept := by
    intro id r hr
    obtain ⟨r', hr', hburn, hcase⟩ := h.kept id r hr
    obtain ⟨r'', hr'', hburn', hcase'⟩ := h'.kept id r' hr'
    refine ⟨r'', hr'', hburn'.trans hburn, ?_⟩
    rcases hcase with rfl | ⟨hactive, hcase⟩
    · exact hcase'
    · right
      rcases hcase' with rfl | ⟨hactive', hid | ⟨-, hdone⟩⟩
      · exact ⟨hactive, hcase⟩
      · exact ⟨hactive', .inl hid⟩
      · exact ⟨hactive', hcase.imp_right fun hfailed => ⟨hfailed.1, hdone⟩⟩
  came := by
    intro id r'' hr''
    rcases h'.came id r'' hr'' with hr' | hactive
    · exact h.came id r'' hr'
    · exact .inr hactive

theorem mono {ids' : List String} (h : Aside ids ledger later) (hids : ids ⊆ ids') :
    Aside ids' ledger later where
  batches := h.batches
  kept := fun id r hr => by
    obtain ⟨r', hr', hburn, hcase⟩ := h.kept id r hr
    exact ⟨r', hr', hburn, hcase.imp_right fun hleft =>
      ⟨hleft.1, hleft.2.imp_left fun hid => hids hid⟩⟩
  came := h.came

/-- A return keeps its burn. -/
theorem burn (h : Aside ids ledger later) {id : String} {r : Return}
    (hr : ledger.returns.get id = some r) :
    ∃ r', later.returns.get id = some r' ∧ r'.burn = r.burn := by
  obtain ⟨r', hr', hburn, -⟩ := h.kept id r hr
  exact ⟨r', hr', hburn⟩

/-- A return stays unless it left or failed. -/
theorem get (h : Aside ids ledger later) {id : String} {r : Return}
    (hr : ledger.returns.get id = some r) (hid : id ∉ ids)
    (hfailed : r.record.failedRecoverably = false) : later.returns.get id = some r := by
  obtain ⟨r', hr', -, rfl | ⟨-, hleft | ⟨hrecoverable, -⟩⟩⟩ := h.kept id r hr
  · exact hr'
  · exact absurd hleft hid
  · rw [hfailed] at hrecoverable
    cases hrecoverable

/-- A return that is done now was done. -/
theorem done_before (h : Aside ids ledger later) {id : String} {r r' : Return}
    (hr : ledger.returns.get id = some r) (hr' : later.returns.get id = some r') (hid : id ∉ ids)
    (hdone : r'.isDone = true) : r.isDone = true := by
  obtain ⟨r'', hr'', -, rfl | ⟨-, hleft | ⟨-, hopen⟩⟩⟩ := h.kept id r hr
  · exact Option.some.inj (hr'.symm.trans hr'') ▸ hdone
  · exact absurd hleft hid
  · rw [Option.some.inj (hr''.symm.trans hr')] at hopen
    rw [hopen] at hdone
    cases hdone

/-- A return in a batch was in it before. -/
theorem inBatch_before (h : Aside ids ledger later) {id b : String} {r' : Return}
    (hr' : later.returns.get id = some r') (hin : r'.inBatch b = true) :
    ledger.returns.get id = some r' :=
  (h.came id r' hr').resolve_right fun hactive => hactive (Return.active_of_inBatch hin)

theorem proving_iff (h : Aside ids ledger later) {b : String} :
    later.Proving b ↔ ledger.Proving b := by
  rw [Proving, Proving, h.batches]

theorem proven_iff (h : Aside ids ledger later) {b : String} : later.Proven b ↔ ledger.Proven b := by
  rw [Proven, Proven, h.batches]

end Ledger.Aside

/-! ## What a history shows -/

/-- The moments of a history, each with the ledger that it found. -/
abbrev Past := List (Ledger × Moment)

/-- The settler reported this transaction for a bundle with the nullifier, or the second source
confirmed that the transaction released it. -/
def Evidence (past : Past) (nullifier txid : String) : Prop :=
  (∃ ledger bundle, (ledger, Label.heard (Query.submit bundle) (SubmitOutcome.submitted txid)) ∈ past ∧
      bundle.Pays nullifier) ∨
    ∃ ledger asked answer, (ledger, Label.heard (Query.confirmReleases asked) (.ok answer)) ∈ past ∧
      ∃ c ∈ answer.confirmed, c.is nullifier txid = true

/-- A burn was assembled while its return stood so. -/
def AssembledAs (past : Past) (id : String) (r : Return) : Prop :=
  ∃ ledger burns acc rejected answer,
    (ledger, Label.heard (Query.assembling burns acc rejected) answer) ∈ past ∧
      (∃ burn ∈ burns, burn.id = id) ∧ ledger.returns.get id = some r

/-- The service started with a proof for the return that was not in the proof's batch any more. -/
def StartedWithout (past : Past) (id : String) : Prop :=
  ∃ ledger, (ledger, Label.started) ∈ past ∧ ∃ batch ∈ ledger.unsettledProofs, ∃ bundle r,
    batch.bundle = some bundle ∧ ledger.returns.get id = some r ∧ bundle.Pays r.burn.nullifier ∧
      r.inBatch batch.id = false

/-- A burn was assembled, or taken for proven, when its return was not in the batch any more. -/
def Drifted (past : Past) (id : String) : Prop :=
  (∃ r, AssembledAs past id r ∧ r.record.status ≠ .proving) ∨ StartedWithout past id

/-- Each leaf of the bundle is a return's that is in the batch, or was taken without being in it. -/
def Held (past : Past) (b : String) (bundle : BatchBundle) (ledger : Ledger) : Prop :=
  ∀ leaf ∈ bundle.leaves, ∃ id r, ledger.returns.get id = some r ∧
    r.burn.nullifier = leaf.nullifier ∧ (r.inBatch b = true ∨ Drifted past id)

/-- The burns of returns were assembled to this. -/
def WasAssembled (sdk : TokenSdk.Sdk) (codec : Wire.Codec) (past : Past) (assembled : Assembled) :
    Prop :=
  ∃ ledger burns acc rejected,
    (ledger, Label.heard (Query.assembling burns acc rejected) (.ok ())) ∈ past ∧
      (∀ burn ∈ burns, ∃ id r, ledger.returns.get id = some r ∧ r.burn = burn) ∧
      assemble sdk codec burns acc rejected = some (.ok assembled)

section Mono

variable {past past' : Past} (hpast : past ⊆ past')
include hpast

theorem Evidence.mono {nullifier txid : String} (h : Evidence past nullifier txid) :
    Evidence past' nullifier txid := by
  rcases h with ⟨ledger, bundle, hmem, hpays⟩ | ⟨ledger, asked, answer, hmem, hconfirmed⟩
  · exact .inl ⟨ledger, bundle, hpast hmem, hpays⟩
  · exact .inr ⟨ledger, asked, answer, hpast hmem, hconfirmed⟩

theorem AssembledAs.mono {id : String} {r : Return} (h : AssembledAs past id r) :
    AssembledAs past' id r := by
  obtain ⟨ledger, burns, acc, rejected, answer, hmem, hrest⟩ := h
  exact ⟨ledger, burns, acc, rejected, answer, hpast hmem, hrest⟩

theorem WasAssembled.mono {sdk : TokenSdk.Sdk} {codec : Wire.Codec} {assembled : Assembled}
    (h : WasAssembled sdk codec past assembled) : WasAssembled sdk codec past' assembled := by
  obtain ⟨ledger, burns, acc, rejected, hmem, hrest⟩ := h
  exact ⟨ledger, burns, acc, rejected, hpast hmem, hrest⟩

theorem Drifted.mono {id : String} (h : Drifted past id) : Drifted past' id := by
  rcases h with ⟨r, hassembled, hstatus⟩ | ⟨ledger, hmem, hrest⟩
  · exact .inl ⟨r, hassembled.mono hpast, hstatus⟩
  · exact .inr ⟨ledger, hpast hmem, hrest⟩

end Mono

/-! ## The events of a run -/

/-- The return may be excluded by the run of a batch: it is in the batch, or it was assembled out of
it. A release counts as confirmed only on evidence. -/
def MayExclude (b : String) (w : History) (id : String) (reason : Exclusion) : Prop :=
  ∃ r, w.state.returns.get id = some r ∧
    (∀ txid, reason = .alreadySettled txid none →
      ∃ t, txid = some t ∧ Evidence w.past r.burn.nullifier t) ∧
    (r.inBatch b = true ∨ ∃ r₀, AssembledAs w.past id r₀ ∧ r₀.record.status ≠ .proving ∧
      (r.isDone = true → r₀.isDone = true))

/-- Where a proof comes from: the batch was assembled, on the root that is recorded, and proven; or an
earlier proof serves. -/
structure Proves (sdk : TokenSdk.Sdk) (codec : Wire.Codec) (b : String) (w : History)
    (bundle : BatchBundle) (spentRootOld : String) (assembled : Assembled) : Prop where
  made : WasAssembled sdk codec w.past assembled
  root : spentRootOld = hex32 assembled.publicValues.spentRootOld
  proof : (∃ reused,
      w.state.proofFor (assembled.leaves.map fun l => hex32 l.nullifier) spentRootOld = some reused ∧
        bundle = { reused with batchId := b, settleTxid := none }) ∨
    ∃ ledger proof, (ledger, Label.heard (Query.prove b assembled.wire) (.ok proof)) ∈ w.past ∧
      bundle = .proven b proof assembled.leaves assembled.lockRefs

/-- The second source confirmed, in one transaction, the releases of all returns in the batch, of which
there are some. -/
def ReleasedIn (w : History) (b txid : String) : Prop :=
  ∃ ledger asked answer,
    (ledger, Label.heard (Query.confirmReleases asked) (.ok answer)) ∈ w.past ∧
      Ledger.Aside [] ledger w.state ∧
      (∃ id r, w.state.returns.get id = some r ∧ r.inBatch b = true) ∧
      ∀ id r, w.state.returns.get id = some r → r.inBatch b = true →
        ∃ t, eqIgnoreAsciiCase t txid = true ∧ answer.verdict ⟨r.burn.nullifier, t⟩ = .ok ()

/-- What the run of a batch commits. -/
inductive RunOf (sdk : TokenSdk.Sdk) (codec : Wire.Codec) (retry : RetryPolicy) (b : String)
    (w : History) : Event → Prop where
  | prove {bundle : BatchBundle} {spentRootOld : String} {atMs : Nat} {assembled : Assembled}
      (permitted : (Event.batchProven b bundle spentRootOld atMs).Permitted w.state)
      (proves : Proves sdk codec b w bundle spentRootOld assembled)
      (held : Held w.past b bundle w.state) :
      RunOf sdk codec retry b w (.batchProven b bundle spentRootOld atMs)
  | settle {batch : Batch} {bundle : BatchBundle} {txid : String} {atMs : Nat}
      (current : w.state.batches.get b = some batch) (proven : batch.status = .proven)
      (proof : batch.bundle = some bundle)
      (shown : (∃ ledger, (ledger, Label.heard (Query.submit bundle) (SubmitOutcome.submitted txid)) ∈
          w.past) ∨ ReleasedIn w b txid)
      (held : Held w.past b bundle w.state) :
      RunOf sdk codec retry b w (.batchSettled b (some txid) atMs)
  | fail {kind : ErrorKind} {message : String} {atMs : Nat}
      (flying : w.state.Proving b ∨ w.state.Proven b) :
      RunOf sdk codec retry b w (.batchFailed b kind message atMs)
  | rebase {batch : Batch} {atMs : Nat} (current : w.state.batches.get b = some batch)
      (proven : batch.status = .proven) (within : batch.rebases < retry.maxRebases)
      (none_proving : ∀ b', ¬ w.state.Proving b') :
      RunOf sdk codec retry b w (.batchRebased b atMs)
  | exclude {id : String} {reason : Exclusion} {atMs : Nat} (may : MayExclude b w id reason) :
      RunOf sdk codec retry b w (.returnExcluded id reason atMs)

/-- A release that is checked again: the return waits for its confirmation. -/
def MayRecheck (w : History) (id : String) (reason : Exclusion) : Prop :=
  ∃ r, w.state.returns.get id = some r ∧ r.record.status = .submitted ∧
    ∃ txid unconfirmed, reason = .alreadySettled txid unconfirmed ∧
      (unconfirmed = none → ∃ t, txid = some t ∧ Evidence w.past r.burn.nullifier t)

/-- What the orchestrator commits. -/
inductive Allowed (sdk : TokenSdk.Sdk) (codec : Wire.Codec) (retry : RetryPolicy) (w : History) :
    Event → Prop where
  | form {members : List String} {atMs : Nat}
      (permitted : (Event.batchFormed members atMs).Permitted w.state) :
      Allowed sdk codec retry w (.batchFormed members atMs)
  | interrupt {b : String} {atMs : Nat} {orderly : Bool} (proving : w.state.Proving b) :
      Allowed sdk codec retry w (.batchInterrupted b atMs orderly)
  | requeue {id : String} {atMs : Nat} : Allowed sdk codec retry w (.requeued id atMs)
  | recheck {id : String} {reason : Exclusion} {atMs : Nat} (may : MayRecheck w id reason) :
      Allowed sdk codec retry w (.returnExcluded id reason atMs)
  | run {b : String} {e : Event} (h : RunOf sdk codec retry b w e) : Allowed sdk codec retry w e

section Histories

variable {sdk : TokenSdk.Sdk} {codec : Wire.Codec} {retry : RetryPolicy} {policy : BatchPolicy}

theorem RunOf.permitted {b : String} {w : History} {e : Event} (h : RunOf sdk codec retry b w e) :
    e.Permitted w.state := by
  cases h with
  | prove permitted => exact permitted
  | settle current proven => exact ⟨_, current, proven⟩
  | fail flying => exact flying
  | rebase current proven _ none_proving => exact ⟨⟨_, current, proven⟩, none_proving⟩
  | exclude => trivial

/-- **What the orchestrator commits keeps the flights in order.** -/
theorem Allowed.permitted {w : History} {e : Event} (h : Allowed sdk codec retry w e) :
    e.Permitted w.state := by
  cases h with
  | form permitted => exact permitted
  | interrupt proving => exact proving
  | requeue | recheck => trivial
  | run hrun => exact hrun.permitted

/-- A request handler accepts a burn or puts a return that failed recoverably back in the queue. -/
theorem Intake.cases {ledger : Ledger} {e : Event} (h : Intake sdk codec ledger e) :
    (∃ burn record, e = .accepted burn record) ∨
      ∃ r nowMs, e = .requeued r.burn.id nowMs ∧ (∃ id, ledger.returns.get id = some r) ∧
        r.record.failedRecoverably = true := by
  obtain ⟨_, nowMs, burn, record, maxUnfinished, -, haccept, -⟩ := h
  unfold ReturnStore.acceptWithin at haccept
  split at haccept
  · next known hknown =>
    split at haccept
    · next hfailed =>
      obtain rfl := Option.some.inj haccept
      obtain ⟨id, -, hget⟩ := Option.bind_eq_some_iff.1 hknown
      exact .inr ⟨known, nowMs, rfl, ⟨id, hget⟩, hfailed⟩
    · cases haccept
  · split at haccept
    · cases haccept
    · exact .inl ⟨burn, record, (Option.some.inj haccept).symm⟩

/-- What the request handlers commit keeps the flights in order. -/
theorem Intake.permitted {ledger : Ledger} {e : Event} (h : Intake sdk codec ledger e) :
    e.Permitted ledger := by
  rcases h.cases with ⟨_, _, rfl⟩ | ⟨_, _, rfl, -⟩ <;> trivial

theorem Intake.not_settles {ledger : Ledger} {b : String} {txid : Option String} {atMs : Nat} :
    ¬ Intake sdk codec ledger (.batchSettled b txid atMs) := by
  intro h
  rcases h.cases with ⟨_, _, heq⟩ | ⟨_, _, heq, -⟩ <;> cases heq

theorem Intake.not_excludes {ledger : Ledger} {id : String} {reason : Exclusion} {atMs : Nat} :
    ¬ Intake sdk codec ledger (.returnExcluded id reason atMs) := by
  intro h
  rcases h.cases with ⟨_, _, heq⟩ | ⟨_, _, heq, -⟩ <;> cases heq

theorem Intake.admissible {ledger : Ledger} {e : Event} (h : Intake sdk codec ledger e) :
    e.Admissible sdk codec ledger := by
  obtain ⟨_, _, _, _, _, -, -, hadmissible⟩ := h
  exact hadmissible

/-- A history of the service in which the orchestrator committed what is allowed. -/
abbrev Sound (sdk : TokenSdk.Sdk) (codec : Wire.Codec) (retry : RetryPolicy) (policy : BatchPolicy)
    (w : History) : Prop :=
  (service sdk codec retry policy).Guarded (Allowed sdk codec retry) w

/-- **In a sound history the index and the flights are in order.** -/
theorem Sound.ledger {w : History} (h : Sound sdk codec retry policy w) :
    w.state.Indexed sdk codec ∧ w.state.InFlight := by
  induction h with
  | initial => exact ⟨Ledger.indexed_empty sdk codec, Ledger.inFlight_empty⟩
  | own _ hallowed hadmits ih =>
      exact ⟨ih.1.apply hadmits, ih.2.apply ih.1 hadmits hallowed.permitted⟩
  | other _ hintake ih =>
      exact ⟨ih.1.apply hintake.admissible, ih.2.apply ih.1 hintake.admissible hintake.permitted⟩
  | heard _ _ _ ih => exact ih
  | outside _ _ ih => exact ih
  | started _ ih => exact ih

end Histories

end UnicityBridge.Service
