import UnicityBridge.Service.Ledger

/-!
# What an event changes

Each event changes a record in one way (`Event.recordAfter`) and a batch in one way
(`Event.batchAfter`); a new return comes from an accepted burn only, a new batch from a formation only.
Everything about runs of the service is derived from that.

`Ledger.Indexed` is what the maps of a ledger have in common: each entry is kept under its own id, and
each nullifier leads to its return.
-/

set_option autoImplicit false

namespace UnicityBridge.Service

open UnicityBridge.Lib
open UnicityBridge.Core (ReturnLeaf)
open UnicityBridge.Guest (GuestInput)

/-! ## Records -/

namespace ReturnRecord

variable (record : ReturnRecord) (atMs : Nat) (retry : RetryPolicy)

section Nullifier

@[simp] theorem requeueAfterStop_nullifier :
    (record.requeueAfterStop atMs).nullifier = record.nullifier := by
  simp [requeueAfterStop]

@[simp] theorem scheduleAfterInterruption_nullifier :
    (record.scheduleAfterInterruption atMs retry).nullifier = record.nullifier := by
  simp only [scheduleAfterInterruption]
  split <;> simp

@[simp] theorem scheduleRetry_nullifier (kind : ErrorKind) (message : String) :
    (record.scheduleRetry atMs kind message retry).nullifier = record.nullifier := by
  simp only [scheduleRetry]
  split <;> simp

@[simp] theorem enter_nullifier (batchId : String) :
    (record.enter atMs batchId).nullifier = record.nullifier := by
  simp [enter]

@[simp] theorem settle_nullifier (txid : Option String) :
    (record.settle atMs txid).nullifier = record.nullifier := by
  cases txid <;> simp [settle]

@[simp] theorem rebase_nullifier : (record.rebase atMs).nullifier = record.nullifier := by
  simp [rebase]

@[simp] theorem interrupt_nullifier (orderly : Bool) :
    (record.interrupt atMs orderly retry).nullifier = record.nullifier := by
  unfold interrupt
  split
  · rfl
  · split <;> simp

@[simp] theorem exclude_nullifier (reason : Exclusion) :
    (record.exclude atMs reason retry).nullifier = record.nullifier := by
  unfold exclude
  split
  · simp
  · simp only
    split <;> simp
  · simp
  · simp

@[simp] theorem requeue_nullifier : (record.requeue atMs retry).nullifier = record.nullifier := by
  unfold requeue
  split
  · simp
  · split <;> simp

end Nullifier

section Status

@[simp] theorem enter_status (batchId : String) : (record.enter atMs batchId).status = .proving := by
  simp [enter]

@[simp] theorem enter_batchId (batchId : String) :
    (record.enter atMs batchId).batchId = some batchId := by
  simp [enter]

@[simp] theorem settle_status (txid : Option String) : (record.settle atMs txid).status = .settled := by
  cases txid <;> simp [settle]

@[simp] theorem settle_settleTxid (txid : Option String) :
    (record.settle atMs txid).settleTxid = txid := by
  cases txid <;> simp [settle]

@[simp] theorem rebase_status : (record.rebase atMs).status = .proving := by
  simp [rebase]

@[simp] theorem scheduleRetry_status (kind : ErrorKind) (message : String) :
    (record.scheduleRetry atMs kind message retry).status = .failed := by
  simp only [scheduleRetry]
  split <;> simp

theorem scheduleAfterInterruption_status :
    (record.scheduleAfterInterruption atMs retry).status = .queued ∨
      (record.scheduleAfterInterruption atMs retry).status = .failed := by
  simp only [scheduleAfterInterruption]
  split <;> simp

theorem interrupt_status (orderly : Bool) (h : record.status = .proving) :
    (record.interrupt atMs orderly retry).status = .queued ∨
      (record.interrupt atMs orderly retry).status = .failed := by
  rw [interrupt, if_neg (not_not.2 h)]
  split
  · simp [requeueAfterStop]
  · exact record.scheduleAfterInterruption_status atMs retry

/-- An exclusion leaves a return settled, waiting for confirmation, or failed. -/
theorem exclude_status (reason : Exclusion) :
    (record.exclude atMs reason retry).status = .settled ∨
      (record.exclude atMs reason retry).status = .submitted ∨
      (record.exclude atMs reason retry).status = .failed := by
  unfold exclude
  split
  · simp
  · simp only
    split
    · next h => exact .inr (.inl h.1)
    · simp
  · simp
  · simp

/-- A requeued record was waiting or had failed recoverably, or is left as it was. -/
theorem requeue_cases :
    ((record.status = .submitted ∨ record.failedRecoverably = true) ∧
        (record.requeue atMs retry).status = .queued) ∨
      record.requeue atMs retry = record := by
  unfold requeue
  split
  · next h => exact .inl ⟨.inl h, by simp⟩
  · split
    · next h => exact .inl ⟨.inr h, by simp⟩
    · exact .inr rfl

end Status

end ReturnRecord

@[simp] theorem Return.update_burn (r : Return) (f : ReturnRecord → ReturnRecord) :
    (r.update f).burn = r.burn := rfl

@[simp] theorem Return.update_record (r : Return) (f : ReturnRecord → ReturnRecord) :
    (r.update f).record = f r.record := rfl

/-! ## Events -/

namespace Event

/-- What an event makes of the record of the return `r` that a ledger keeps under `id`. -/
def recordAfter (sha256 : Bytes → Bytes32) (retry : RetryPolicy) (ledger : Ledger) (id : String)
    (r : Return) : Event → ReturnRecord
  | .snapshot _ => r.record
  | .accepted _ _ => r.record
  | .requeued i atMs => if id = i then r.record.requeue atMs retry else r.record
  | .batchFormed members atMs =>
      if id ∈ members ∧ r.isPending = true then
        r.record.enter atMs (ledger.nextBatch sha256 members atMs).id
      else r.record
  | .batchProven b _ _ atMs =>
      if ledger.isMember b r then r.record.transition .proven atMs else r.record
  | .batchSettled b txid atMs =>
      if ledger.isMember b r then r.record.settle atMs txid else r.record
  | .batchFailed b kind message atMs =>
      if ledger.isMember b r then r.record.scheduleRetry atMs kind message retry else r.record
  | .batchRebased b atMs => if ledger.isMember b r then r.record.rebase atMs else r.record
  | .batchInterrupted b atMs orderly =>
      if ledger.isMember b r then r.record.interrupt atMs orderly retry else r.record
  | .returnExcluded i reason atMs =>
      if id = i then r.record.exclude atMs reason retry else r.record

/-- What an event makes of a batch. -/
def batchAfter (id : String) (batch : Batch) : Event → Batch
  | .batchProven b bundle spentRootOld atMs =>
      if id = b then
        { batch with
          status := .proven, bundle := some bundle, spentRootOld := some spentRootOld,
          provenAtMs := some atMs }
      else batch
  | .batchSettled b txid _ =>
      if id = b then
        { batch with
          status := .settled
          bundle := batch.bundle.map fun bundle => { bundle with settleTxid := txid } }
      else batch
  | .batchFailed b _ _ _ => if id = b then { batch with status := .failed } else batch
  | .batchRebased b _ =>
      if id = b then
        { batch with
          rebases := batch.rebases + 1, bundle := none, spentRootOld := none, provenAtMs := none,
          status := .proving }
      else batch
  | .batchInterrupted b _ _ => if id = b then { batch with status := .interrupted } else batch
  | _ => batch

@[simp] theorem recordAfter_nullifier (sha256 : Bytes → Bytes32) (retry : RetryPolicy)
    (ledger : Ledger) (id : String) (r : Return) (e : Event) :
    (e.recordAfter sha256 retry ledger id r).nullifier = r.record.nullifier := by
  cases e with
  | snapshot | accepted => rfl
  | _ =>
      simp only [recordAfter]
      split <;> simp

@[simp] theorem batchAfter_id (id : String) (batch : Batch) (e : Event) :
    (e.batchAfter id batch).id = batch.id := by
  cases e with
  | batchProven | batchSettled | batchFailed | batchRebased | batchInterrupted =>
      simp only [batchAfter]
      split <;> rfl
  | _ => rfl

@[simp] theorem batchAfter_members (id : String) (batch : Batch) (e : Event) :
    (e.batchAfter id batch).members = batch.members := by
  cases e with
  | batchProven | batchSettled | batchFailed | batchRebased | batchInterrupted =>
      simp only [batchAfter]
      split <;> rfl
  | _ => rfl

end Event

/-! ## Maps after an event -/

namespace Ledger

variable {sha256 : Bytes → Bytes32} {retry : RetryPolicy} {ledger : Ledger}

theorem isMember_modify (id b : String) (change : Batch → Batch)
    (hchange : ∀ batch, (change batch).members = batch.members) (r : Return) :
    isMember { ledger with batches := ledger.batches.modify id change } b r = ledger.isMember b r := by
  by_cases hb : b = id
  · subst hb
    cases hget : ledger.batches.get b <;> simp [isMember, hget, hchange]
  · simp only [isMember, Dict.get_modify_of_ne _ _ hb]

/-- The returns after an event on a batch. -/
theorem get_onBatch (id : String) {change : Batch → Batch} (f : ReturnRecord → ReturnRecord)
    (hchange : ∀ batch, (change batch).members = batch.members) (key : String) :
    (ledger.onBatch id change f).returns.get key =
      (ledger.returns.get key).map fun r => if ledger.isMember id r then r.update f else r := by
  unfold onBatch
  split
  · simp only [updateMembers, Dict.get_mapValues, isMember_modify id id change hchange]
  · next hcontains =>
    have hnone : ledger.batches.get id = none := by
      simpa [Dict.contains] using hcontains
    have hmember : ∀ r, ledger.isMember id r = false := fun r => by simp [isMember, hnone]
    simp [hmember]

theorem batches_onBatch (id : String) (change : Batch → Batch) (f : ReturnRecord → ReturnRecord)
    (key : String) :
    (ledger.onBatch id change f).batches.get key =
      (ledger.batches.get key).map fun batch => if key = id then change batch else batch := by
  by_cases hkey : key = id
  · subst hkey
    unfold onBatch
    split
    · simp [updateMembers]
    · next hcontains =>
      have hnone : ledger.batches.get key = none := by
        simpa [Dict.contains] using hcontains
      simp [hnone]
  · unfold onBatch
    split
    · simp [updateMembers, Dict.get_modify_of_ne _ _ hkey]
    · simp

theorem get_modify (m : Dict String Return) (id key : String) (f : Return → Return) :
    (m.modify id f).get key = (m.get key).map fun r => if key = id then f r else r := by
  rw [Dict.modify, Dict.get_mapValues]

@[simp] theorem nextBatch_members (members : List String) (atMs : Nat) :
    (ledger.nextBatch sha256 members atMs).members = members := rfl

/-- **A return after an event** other than an acceptance: the same burn, with the record the event
makes of it. -/
theorem get_apply (e : Event) (hsnapshot : ∀ l, e ≠ .snapshot l)
    (haccepted : ∀ burn record, e ≠ .accepted burn record) (id : String) :
    (ledger.apply sha256 retry e).returns.get id =
      (ledger.returns.get id).map fun r =>
        { r with record := e.recordAfter sha256 retry ledger id r } := by
  cases e with
  | snapshot l => exact absurd rfl (hsnapshot l)
  | accepted burn record => exact absurd rfl (haccepted burn record)
  | requeued i atMs =>
      simp only [apply, requeue, get_modify]
      congr 1
      funext r
      simp only [Event.recordAfter]
      split <;> rfl
  | batchFormed members atMs =>
      simp only [apply, form, Dict.get_mapValues]
      congr 1
      funext r
      simp only [Event.recordAfter]
      split <;> rfl
  | batchProven | batchSettled | batchFailed | batchRebased | batchInterrupted =>
      simp only [apply, prove, settle, fail, rebase, interrupt]
      rw [get_onBatch]
      · congr 1
        funext r
        simp only [Event.recordAfter]
        split <;> rfl
      · intro _
        rfl
  | returnExcluded i reason atMs =>
      simp only [apply, exclude, get_modify]
      congr 1
      funext r
      simp only [Event.recordAfter]
      split <;> rfl

/-- The returns after a burn was accepted. -/
theorem get_accept (burn : Burn) (record : ReturnRecord) (id : String) :
    (ledger.accept burn record).returns.get id =
      if ledger.byNullifier.contains (toLowercase record.nullifier) = false ∧ id = burn.id then
        some ⟨ledger.accepted + 1, burn, record⟩
      else ledger.returns.get id := by
  simp only [accept]
  by_cases hcontains : ledger.byNullifier.contains (toLowercase record.nullifier) = true
  · rw [if_pos hcontains, if_neg (by simp [hcontains])]
  · rw [if_neg hcontains]
    by_cases hid : id = burn.id
    · rw [if_pos ⟨by simpa using hcontains, hid⟩, hid, Dict.get_insert_self]
    · rw [if_neg (fun h => hid h.2), Dict.get_insert_of_ne _ _ hid]

/-- **Where a return of the ledger after an event comes from.** -/
theorem returns_cases {e : Event} (hsnapshot : ∀ l, e ≠ .snapshot l) {id : String} {r' : Return}
    (h : (ledger.apply sha256 retry e).returns.get id = some r') :
    (∃ r, ledger.returns.get id = some r ∧
        r' = { r with record := e.recordAfter sha256 retry ledger id r }) ∨
      ∃ burn record, e = .accepted burn record ∧ id = burn.id ∧
        ledger.byNullifier.contains (toLowercase record.nullifier) = false ∧
        r' = ⟨ledger.accepted + 1, burn, record⟩ := by
  by_cases haccepted : ∃ burn record, e = .accepted burn record
  · obtain ⟨burn, record, rfl⟩ := haccepted
    rw [apply, get_accept] at h
    split at h
    · next hnew => exact .inr ⟨burn, record, rfl, hnew.2, hnew.1, (Option.some.inj h).symm⟩
    · exact .inl ⟨r', h, rfl⟩
  · rw [get_apply e hsnapshot fun burn record he => haccepted ⟨burn, record, he⟩] at h
    obtain ⟨r, hr, rfl⟩ := Option.map_eq_some_iff.1 h
    exact .inl ⟨r, hr, rfl⟩

/-- The batches after an event other than a formation. -/
theorem batches_apply (e : Event) (hsnapshot : ∀ l, e ≠ .snapshot l)
    (hformed : ∀ members atMs, e ≠ .batchFormed members atMs) (id : String) :
    (ledger.apply sha256 retry e).batches.get id =
      (ledger.batches.get id).map fun batch => e.batchAfter id batch := by
  cases e with
  | snapshot l => exact absurd rfl (hsnapshot l)
  | batchFormed members atMs => exact absurd rfl (hformed members atMs)
  | accepted burn record =>
      simp only [apply, accept, Event.batchAfter, Option.map_id']
      split <;> rfl
  | requeued | returnExcluded =>
      simp only [apply, requeue, exclude, Event.batchAfter, Option.map_id']
  | batchProven | batchSettled | batchFailed | batchRebased | batchInterrupted =>
      simp only [apply, prove, settle, fail, rebase, interrupt, batches_onBatch, Event.batchAfter]

/-- The batches after a formation. -/
theorem batches_form (members : List String) (atMs : Nat) (id : String) :
    (ledger.form sha256 members atMs).batches.get id =
      if id = (ledger.nextBatch sha256 members atMs).id then
        some (ledger.nextBatch sha256 members atMs)
      else ledger.batches.get id := by
  simp only [form]
  split
  · next hid => rw [hid, Dict.get_insert_self]
  · next hid => exact Dict.get_insert_of_ne _ _ hid

/-- **Where a batch of the ledger after an event comes from.** -/
theorem batches_cases {e : Event} (hsnapshot : ∀ l, e ≠ .snapshot l) {id : String} {batch' : Batch}
    (h : (ledger.apply sha256 retry e).batches.get id = some batch') :
    (∃ batch, ledger.batches.get id = some batch ∧ batch' = e.batchAfter id batch) ∨
      ∃ members atMs, e = .batchFormed members atMs ∧
        batch' = ledger.nextBatch sha256 members atMs ∧ id = batch'.id := by
  by_cases hformed : ∃ members atMs, e = .batchFormed members atMs
  · obtain ⟨members, atMs, rfl⟩ := hformed
    rw [apply, batches_form] at h
    split at h
    · next hid =>
      obtain rfl := Option.some.inj h
      exact .inr ⟨members, atMs, rfl, rfl, hid⟩
    · exact .inl ⟨batch', h, rfl⟩
  · rw [batches_apply e hsnapshot fun members atMs he => hformed ⟨members, atMs, he⟩] at h
    obtain ⟨batch, hbatch, rfl⟩ := Option.map_eq_some_iff.1 h
    exact .inl ⟨batch, hbatch, rfl⟩

theorem byNullifier_apply (e : Event) (hsnapshot : ∀ l, e ≠ .snapshot l)
    (haccepted : ∀ burn record, e ≠ .accepted burn record) :
    (ledger.apply sha256 retry e).byNullifier = ledger.byNullifier := by
  cases e with
  | snapshot l => exact absurd rfl (hsnapshot l)
  | accepted burn record => exact absurd rfl (haccepted burn record)
  | requeued | batchFormed | returnExcluded => rfl
  | batchProven | batchSettled | batchFailed | batchRebased | batchInterrupted =>
      simp only [apply, prove, settle, fail, rebase, interrupt, onBatch]
      split <;> rfl

end Ledger

end UnicityBridge.Service
