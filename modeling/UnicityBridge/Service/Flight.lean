import UnicityBridge.Service.Assembly
import UnicityBridge.Service.Recovery

/-!
# Batches in flight

A return that is proving or proven is in the batch that its record names. `Ledger.InFlight` says what
holds of such returns and of their batches, and `Event.Permitted` which events keep it: a batch forms
when none is proving, and ends from where it is.
-/

set_option autoImplicit false

namespace UnicityBridge.Service

open UnicityBridge.Lib

variable {sdk : TokenSdk.Sdk} {codec : Wire.Codec} {sha256 : Bytes → Bytes32} {retry : RetryPolicy}

/-! ## What a record keeps -/

namespace ReturnRecord

variable (record : ReturnRecord) (atMs : Nat)

section BatchId

@[simp] theorem requeueAfterStop_batchId :
    (record.requeueAfterStop atMs).batchId = record.batchId := by
  simp [requeueAfterStop]

@[simp] theorem scheduleAfterInterruption_batchId :
    (record.scheduleAfterInterruption atMs retry).batchId = record.batchId := by
  simp only [scheduleAfterInterruption]
  split <;> simp

@[simp] theorem scheduleRetry_batchId (kind : ErrorKind) (message : String) :
    (record.scheduleRetry atMs kind message retry).batchId = record.batchId := by
  simp only [scheduleRetry]
  split <;> simp

@[simp] theorem settle_batchId (txid : Option String) :
    (record.settle atMs txid).batchId = record.batchId := by
  cases txid <;> simp [settle]

@[simp] theorem rebase_batchId : (record.rebase atMs).batchId = record.batchId := by
  simp [rebase]

@[simp] theorem interrupt_batchId (orderly : Bool) :
    (record.interrupt atMs orderly retry).batchId = record.batchId := by
  unfold interrupt
  split
  · rfl
  · split <;> simp

@[simp] theorem exclude_batchId (reason : Exclusion) :
    (record.exclude atMs reason retry).batchId = record.batchId := by
  unfold exclude
  split
  · simp
  · simp only
    split <;> simp
  · simp
  · simp

@[simp] theorem requeue_batchId : (record.requeue atMs retry).batchId = record.batchId := by
  unfold requeue
  split
  · simp
  · split <;> simp

end BatchId

end ReturnRecord

theorem Return.inBatch_iff {r : Return} {b : String} :
    r.inBatch b = true ↔
      r.record.batchId = some b ∧ (r.record.status = .proving ∨ r.record.status = .proven) := by
  simp [Return.inBatch]

/-- A return is in one batch at most. -/
theorem Return.inBatch_unique {r : Return} {b b' : String} (h : r.inBatch b = true)
    (h' : r.inBatch b' = true) : b = b' := by
  rw [inBatch_iff] at h h'
  exact Option.some.inj (h.1.symm.trans h'.1)

theorem Return.not_done_of_inBatch {r : Return} {b : String} (h : r.inBatch b = true) :
    r.isDone = false := by
  rcases (inBatch_iff.1 h).2 with hstatus | hstatus <;> simp [isDone, hstatus]

namespace Ledger

theorem isMember_iff {ledger : Ledger} {b : String} {r : Return} :
    ledger.isMember b r = true ↔
      (∃ batch, ledger.batches.get b = some batch ∧ r.burn.id ∈ batch.members) ∧
        r.inBatch b = true := by
  simp [isMember, Option.any_eq_true]

end Ledger

namespace Event

variable {ledger : Ledger} {id : String} {r : Return} {e : Event}

/-- The events that form no batch. -/
def Forms (e : Event) : Prop := ∃ members atMs, e = .batchFormed members atMs

@[simp] theorem recordAfter_batchId (hforms : ¬ e.Forms) :
    (e.recordAfter sha256 retry ledger id r).batchId = r.record.batchId := by
  cases e with
  | snapshot | accepted => rfl
  | batchFormed members atMs => exact absurd ⟨members, atMs, rfl⟩ hforms
  | _ =>
      simp only [recordAfter]
      split <;> simp

/-- A record in flight after an event was in flight before, unless the event formed a batch. -/
theorem inFlight_before (hforms : ¬ e.Forms)
    (h : (e.recordAfter sha256 retry ledger id r).status = .proving ∨
      (e.recordAfter sha256 retry ledger id r).status = .proven) :
    r.record.status = .proving ∨ r.record.status = .proven := by
  cases e with
  | snapshot | accepted => exact h
  | batchFormed members atMs => exact absurd ⟨members, atMs, rfl⟩ hforms
  | requeued i atMs =>
      simp only [recordAfter] at h
      split at h
      · rcases r.record.requeue_cases atMs retry with ⟨-, hqueued⟩ | hsame
        · simp [hqueued] at h
        · rwa [hsame] at h
      · exact h
  | returnExcluded i reason atMs =>
      simp only [recordAfter] at h
      split at h
      · rcases r.record.exclude_status atMs retry reason with hs | hs | hs <;> simp [hs] at h
      · exact h
  | batchProven b' | batchSettled b' | batchFailed b' | batchRebased b' | batchInterrupted b' =>
      simp only [recordAfter] at h
      split at h
      · next hmember => exact (Return.inBatch_iff.1 (Ledger.isMember_iff.1 hmember).2).2
      · exact h

/-- **A return in a batch after an event was in it before**, unless the event formed the batch. -/
theorem inBatch_before (hforms : ¬ e.Forms) {b : String}
    (h : Return.inBatch { r with record := e.recordAfter sha256 retry ledger id r } b = true) :
    r.inBatch b = true := by
  obtain ⟨hbatch, hstatus⟩ := Return.inBatch_iff.1 h
  have hkept : r.record.batchId = some b := (recordAfter_batchId hforms).symm.trans hbatch
  exact Return.inBatch_iff.2 ⟨hkept, inFlight_before hforms hstatus⟩

end Event

/-! ## The invariant -/

/-- The bundle has a leaf with this nullifier. -/
def BatchBundle.Pays (bundle : BatchBundle) (nullifier : String) : Prop :=
  ∃ leaf ∈ bundle.leaves, leaf.nullifier = nullifier

/-- The nullifiers of the bundle are written as the service writes them, each once. -/
structure BatchBundle.Written (bundle : BatchBundle) : Prop where
  hex : ∀ leaf ∈ bundle.leaves, ∃ n : Bytes32, leaf.nullifier = hex32 n
  nodup : (bundle.leaves.map LeafHex.nullifier).Nodup

namespace Ledger

/-- Each leaf of the bundle is a return's. -/
def Owns (ledger : Ledger) (bundle : BatchBundle) : Prop :=
  ∀ leaf ∈ bundle.leaves, ∃ id r, ledger.returns.get id = some r ∧ r.burn.nullifier = leaf.nullifier

/-- The batch is proven. -/
def Proven (ledger : Ledger) (b : String) : Prop :=
  ∃ batch, ledger.batches.get b = some batch ∧ batch.status = .proven

/-- What holds of the batches in flight and of the returns in them. -/
structure InFlight (ledger : Ledger) : Prop where
  single : ∀ b b', ledger.Proving b → ledger.Proving b' → b = b'
  named : ∀ id r, ledger.returns.get id = some r →
    r.record.status = .proving ∨ r.record.status = .proven → ∃ b, r.inBatch b = true
  member : ∀ id r b, ledger.returns.get id = some r → r.inBatch b = true →
    ∃ batch, ledger.batches.get b = some batch ∧ id ∈ batch.members ∧
      (r.record.status = .proving ∧ batch.status = .proving ∨
        r.record.status = .proven ∧ batch.status = .proven)
  proof : ∀ b batch, ledger.batches.get b = some batch → batch.status = .proven →
    ∃ bundle, batch.bundle = some bundle ∧ bundle.settleTxid = none ∧
      ∀ id r, ledger.returns.get id = some r → r.inBatch b = true →
        bundle.Pays r.burn.nullifier
  written : ∀ b batch bundle, ledger.batches.get b = some batch → batch.bundle = some bundle →
    bundle.Written ∧ ledger.Owns bundle
  known : ∀ b batch, ledger.batches.get b = some batch → ∀ id ∈ batch.members,
    ∃ r, ledger.returns.get id = some r
  distinct : ∀ b batch, ledger.batches.get b = some batch → batch.members.Nodup
  formed : ∀ id r b, ledger.returns.get id = some r → r.record.batchId = some b →
    ∃ batch, ledger.batches.get b = some batch

theorem inFlight_empty : InFlight Ledger.empty where
  single := fun _ _ h => by
    obtain ⟨batch, hget, -⟩ := h
    cases hget
  named := fun _ _ h => by cases h
  member := fun _ _ _ h => by cases h
  proof := fun _ _ h => by cases h
  written := fun _ _ _ h => by cases h
  known := fun _ _ h => by cases h
  distinct := fun _ _ h => by cases h
  formed := fun _ _ _ h => by cases h

end Ledger

/-- An event that keeps the flights in order: a batch forms from pending returns when none is proving,
and each batch goes on from where it is. -/
def Event.Permitted (ledger : Ledger) : Event → Prop
  | .snapshot _ => False
  | .batchFormed members _ =>
      (∀ b, ¬ ledger.Proving b) ∧ members.Nodup ∧
        ∀ id ∈ members, ∃ r, ledger.returns.get id = some r ∧ r.isPending = true
  | .batchProven b bundle _ _ =>
      ledger.Proving b ∧ bundle.settleTxid = none ∧ (bundle.Written ∧ ledger.Owns bundle) ∧
        ∀ id r, ledger.returns.get id = some r → r.inBatch b = true →
          bundle.Pays r.burn.nullifier
  | .batchSettled b _ _ => ledger.Proven b
  | .batchFailed b _ _ _ => ledger.Proving b ∨ ledger.Proven b
  | .batchRebased b _ => ledger.Proven b ∧ ∀ b', ¬ ledger.Proving b'
  | .batchInterrupted b _ _ => ledger.Proving b
  | _ => True

namespace Ledger

variable {ledger : Ledger}

/-- In flight, the returns in a batch are its members. -/
theorem InFlight.isMember_iff (h : ledger.InFlight) (hindexed : ledger.Indexed sdk codec)
    {id b : String} {r : Return} (hr : ledger.returns.get id = some r) :
    ledger.isMember b r = true ↔ r.inBatch b = true := by
  rw [Ledger.isMember_iff]
  constructor
  · exact fun hmember => hmember.2
  · intro hin
    obtain ⟨batch, hbatch, hid, -⟩ := h.member id r b hr hin
    exact ⟨⟨batch, hbatch, hindexed.id_eq id r hr ▸ hid⟩, hin⟩

/-- A return in a batch that is proving is proving itself. -/
theorem InFlight.proving_of_inBatch (h : ledger.InFlight) {id b : String} {r : Return}
    (hr : ledger.returns.get id = some r) (hin : r.inBatch b = true) (hb : ledger.Proving b) :
    r.record.status = .proving := by
  obtain ⟨batch, hbatch, -, hstatus⟩ := h.member id r b hr hin
  obtain ⟨batch', hbatch', hproving⟩ := hb
  obtain rfl : batch = batch' := Option.some.inj (hbatch.symm.trans hbatch')
  rcases hstatus with ⟨hs, -⟩ | ⟨-, hs⟩
  · exact hs
  · rw [hproving] at hs
    cases hs

/-- A new batch has a new id, which no return names. -/
theorem InFlight.fresh (h : ledger.InFlight) {b : String} (hb : ledger.batches.get b = none)
    {id : String} {r : Return} (hr : ledger.returns.get id = some r) : r.record.batchId ≠ some b := by
  intro hname
  obtain ⟨batch, hbatch⟩ := h.formed id r b hr hname
  rw [hb] at hbatch
  cases hbatch

/-- What intake accepts is queued, in no batch. -/
theorem accepted_record {burn : Burn} {record : ReturnRecord}
    (he : (Event.accepted burn record).Admissible sdk codec ledger) :
    record.status = .queued ∧ record.batchId = none ∧ record.settleTxid = none ∧
      record.attempts = 0 := by
  obtain ⟨⟨wireInput, nowMs, hcreate⟩, -⟩ := he
  obtain ⟨-, leaf, -, rfl⟩ := prechecked_of_createReturn hcreate
  exact ⟨rfl, rfl, rfl, rfl⟩

/-! ## The step -/

variable {e : Event}

/-- Where a batch that is proving after an event comes from. -/
theorem proving_cases (he : e.Admissible sdk codec ledger) {b : String}
    (h : (ledger.apply sdk.sha256 retry e).Proving b) :
    ledger.Proving b ∨ (∃ atMs, e = .batchRebased b atMs) ∨
      ∃ members atMs, e = .batchFormed members atMs ∧
        b = (ledger.nextBatch sdk.sha256 members atMs).id := by
  obtain ⟨batch', hbatch', hproving⟩ := h
  rcases batches_cases he.ne_snapshot hbatch' with ⟨batch, hbatch, rfl⟩ | ⟨members, atMs, rfl, rfl, hid⟩
  · cases e with
    | batchRebased b' atMs =>
        by_cases hb : b = b'
        · subst hb
          exact .inr (.inl ⟨atMs, rfl⟩)
        · simp only [Event.batchAfter, if_neg hb] at hproving
          exact .inl ⟨batch, hbatch, hproving⟩
    | batchProven b' | batchSettled b' | batchFailed b' | batchInterrupted b' =>
        by_cases hb : b = b'
        · simp [Event.batchAfter, if_pos hb] at hproving
        · simp only [Event.batchAfter, if_neg hb] at hproving
          exact .inl ⟨batch, hbatch, hproving⟩
    | _ => exact .inl ⟨batch, hbatch, hproving⟩
  · exact .inr (.inr ⟨members, atMs, rfl, hid⟩)

/-- A batch keeps its id and its members. -/
theorem batch_persists (he : e.Admissible sdk codec ledger) {b : String} {batch : Batch}
    (hbatch : ledger.batches.get b = some batch) :
    ∃ batch', (ledger.apply sdk.sha256 retry e).batches.get b = some batch' ∧
      batch'.members = batch.members := by
  by_cases hforms : e.Forms
  · obtain ⟨members, atMs, rfl⟩ := hforms
    refine ⟨batch, ?_, rfl⟩
    rw [Ledger.apply, batches_form, if_neg]
    · exact hbatch
    · rintro rfl
      have hfresh : ledger.batches.get (ledger.nextBatch sdk.sha256 members atMs).id = none := he
      rw [hfresh] at hbatch
      cases hbatch
  · rw [batches_apply e he.ne_snapshot fun members atMs heq => hforms ⟨members, atMs, heq⟩, hbatch]
    exact ⟨_, rfl, e.batchAfter_members b batch⟩

/-- A return that stays in its batch stays a member of it, in step with the batch. -/
theorem InFlight.member_apply (h : ledger.InFlight) (hindexed : ledger.Indexed sdk codec)
    (he : e.Admissible sdk codec ledger) (hpermitted : e.Permitted ledger) (hforms : ¬ e.Forms)
    {id b : String} {r : Return} (hr : ledger.returns.get id = some r)
    (hin : Return.inBatch { r with record := e.recordAfter sdk.sha256 retry ledger id r } b = true) :
    ∃ batch, (ledger.apply sdk.sha256 retry e).batches.get b = some batch ∧ id ∈ batch.members ∧
      ((e.recordAfter sdk.sha256 retry ledger id r).status = .proving ∧ batch.status = .proving ∨
        (e.recordAfter sdk.sha256 retry ledger id r).status = .proven ∧ batch.status = .proven) := by
  -- the return was in the same batch before, as was the batch's status
  have hbefore := e.inBatch_before hforms hin
  obtain ⟨batch, hbatch, hid, hstatus⟩ := h.member id r b hr hbefore
  have hstays := (Return.inBatch_iff.1 hin).2
  have hafter : (ledger.apply sdk.sha256 retry e).batches.get b = some (e.batchAfter b batch) := by
    rw [batches_apply e he.ne_snapshot fun members atMs heq => hforms ⟨members, atMs, heq⟩, hbatch]
    rfl
  refine ⟨e.batchAfter b batch, hafter, (e.batchAfter_members b batch).symm ▸ hid, ?_⟩
  have hmember : ledger.isMember b r = true := (h.isMember_iff hindexed hr).2 hbefore
  -- an event on another batch does not reach this return
  have hother : ∀ b', b ≠ b' → ledger.isMember b' r ≠ true := by
    intro b' hne hmember'
    exact hne (Return.inBatch_unique hbefore (Ledger.isMember_iff.1 hmember').2)
  cases e with
  | snapshot => exact False.elim he
  | batchFormed members atMs => exact absurd ⟨members, atMs, rfl⟩ hforms
  | accepted => exact hstatus
  | requeued i atMs =>
      simp only [Event.recordAfter, Event.batchAfter] at hstays ⊢
      split
      · rw [if_pos ‹_›] at hstays
        rcases r.record.requeue_cases atMs retry with ⟨-, hqueued⟩ | hsame
        · simp [hqueued] at hstays
        · rwa [hsame]
      · exact hstatus
  | returnExcluded i reason atMs =>
      simp only [Event.recordAfter, Event.batchAfter] at hstays ⊢
      split
      · rw [if_pos ‹_›] at hstays
        rcases r.record.exclude_status atMs retry reason with hs | hs | hs <;> simp [hs] at hstays
      · exact hstatus
  -- an event on its batch moves both together, or takes the return out
  | batchProven b' | batchSettled b' | batchFailed b' | batchRebased b' =>
      by_cases hb : b = b'
      · subst hb
        simp [Event.recordAfter, hmember, Event.batchAfter] at hstays ⊢
      · simpa only [Event.recordAfter, Event.batchAfter, if_neg hb, if_neg (hother b' hb)] using hstatus
  | batchInterrupted b' atMs orderly =>
      by_cases hb : b = b'
      · subst hb
        have hproving := h.proving_of_inBatch hr hbefore hpermitted
        rcases r.record.interrupt_status atMs retry orderly hproving with hs | hs <;>
          simp [Event.recordAfter, hmember, hs] at hstays
      · simpa only [Event.recordAfter, Event.batchAfter, if_neg hb, if_neg (hother b' hb)] using hstatus

/-- A proven batch has a proof that pays the returns in it. -/
theorem InFlight.proof_apply (h : ledger.InFlight) (he : e.Admissible sdk codec ledger)
    (hpermitted : e.Permitted ledger) (hforms : ¬ e.Forms) {b : String} {batch : Batch}
    (hbatch : ledger.batches.get b = some batch) (hproven : (e.batchAfter b batch).status = .proven) :
    ∃ bundle, (e.batchAfter b batch).bundle = some bundle ∧ bundle.settleTxid = none ∧
      ∀ id r', (ledger.apply sdk.sha256 retry e).returns.get id = some r' → r'.inBatch b = true →
        bundle.Pays r'.burn.nullifier := by
  -- a return in the batch afterwards was in it before
  have hreturns : ∀ bundle : BatchBundle, (∀ id r, ledger.returns.get id = some r →
      r.inBatch b = true → bundle.Pays r.burn.nullifier) →
      ∀ id r', (ledger.apply sdk.sha256 retry e).returns.get id = some r' → r'.inBatch b = true →
        bundle.Pays r'.burn.nullifier := by
    intro bundle hpays id r' hr' hin
    rcases returns_cases he.ne_snapshot hr' with ⟨r, hr, rfl⟩ | ⟨burn, record, rfl, -, -, rfl⟩
    · exact hpays id r hr (e.inBatch_before hforms hin)
    · have hstatus := (Return.inBatch_iff.1 hin).2
      simp [(accepted_record he).1] at hstatus
  have hsame : e.batchAfter b batch = batch → ∃ bundle, (e.batchAfter b batch).bundle = some bundle ∧
      bundle.settleTxid = none ∧ ∀ id r',
        (ledger.apply sdk.sha256 retry e).returns.get id = some r' → r'.inBatch b = true →
        bundle.Pays r'.burn.nullifier := by
    intro hunchanged
    rw [hunchanged] at hproven ⊢
    obtain ⟨bundle, hbundle, htxid, hpays⟩ := h.proof b batch hbatch hproven
    exact ⟨bundle, hbundle, htxid, hreturns bundle hpays⟩
  cases e with
  | batchProven b' bundle root atMs =>
      by_cases hb : b = b'
      · subst hb
        obtain ⟨-, htxid, -, hpays⟩ := hpermitted
        exact ⟨bundle, by simp [Event.batchAfter], htxid, hreturns bundle hpays⟩
      · exact hsame (if_neg hb)
  | batchSettled b' | batchFailed b' | batchRebased b' | batchInterrupted b' =>
      by_cases hb : b = b'
      · simp [Event.batchAfter, hb] at hproven
      · exact hsame (if_neg hb)
  | batchFormed members atMs => exact absurd ⟨members, atMs, rfl⟩ hforms
  | _ => exact hsame rfl

/-- A return keeps its burn, so what a bundle pays stays owned. -/
theorem Owns.apply {bundle : BatchBundle} (h : ledger.Owns bundle)
    (he : e.Admissible sdk codec ledger) :
    (ledger.apply sdk.sha256 retry e).Owns bundle := by
  intro leaf hleaf
  obtain ⟨id, r, hr, hnullifier⟩ := h leaf hleaf
  obtain ⟨r', hr', hburn⟩ := @burn_apply _ _ retry _ _ he _ _ hr
  exact ⟨id, r', hr', hburn ▸ hnullifier⟩

theorem InFlight.written_apply (h : ledger.InFlight) (hpermitted : e.Permitted ledger) {b : String}
    {batch : Batch} (hbatch : ledger.batches.get b = some batch) {bundle : BatchBundle}
    (hbundle : (e.batchAfter b batch).bundle = some bundle) :
    bundle.Written ∧ ledger.Owns bundle := by
  cases e with
  | batchProven b' new root atMs =>
      by_cases hb : b = b'
      · simp only [Event.batchAfter, if_pos hb, Option.some.injEq] at hbundle
        exact hbundle ▸ hpermitted.2.2.1
      · simp only [Event.batchAfter, if_neg hb] at hbundle
        exact h.written b batch bundle hbatch hbundle
  | batchSettled b' txid atMs =>
      by_cases hb : b = b'
      · simp only [Event.batchAfter, if_pos hb, Option.map_eq_some_iff] at hbundle
        obtain ⟨old, hold, rfl⟩ := hbundle
        obtain ⟨hwritten, howns⟩ := h.written b batch old hbatch hold
        exact ⟨⟨hwritten.hex, hwritten.nodup⟩, howns⟩
      · simp only [Event.batchAfter, if_neg hb] at hbundle
        exact h.written b batch bundle hbatch hbundle
  | batchRebased b' =>
      by_cases hb : b = b'
      · simp only [Event.batchAfter, if_pos hb, reduceCtorEq] at hbundle
      · simp only [Event.batchAfter, if_neg hb] at hbundle
        exact h.written b batch bundle hbatch hbundle
  | batchFailed b' | batchInterrupted b' =>
      by_cases hb : b = b'
      · simp only [Event.batchAfter, if_pos hb] at hbundle
        exact h.written b batch bundle hbatch hbundle
      · simp only [Event.batchAfter, if_neg hb] at hbundle
        exact h.written b batch bundle hbatch hbundle
  | _ => exact h.written b batch bundle hbatch hbundle

/-- A return after a formation is the same, or a member that is proving in the new batch. -/
theorem returns_formed {members : List String} {atMs : Nat}
    {id : String} {r' : Return}
    (hr' : (ledger.apply sdk.sha256 retry (.batchFormed members atMs)).returns.get id = some r') :
    ∃ r, ledger.returns.get id = some r ∧
      ((id ∈ members ∧ r.isPending = true ∧
        r' = { r with
          record := r.record.enter atMs (ledger.nextBatch sdk.sha256 members atMs).id }) ∨
        (¬ (id ∈ members ∧ r.isPending = true) ∧ r' = r)) := by
  rw [get_apply _ (fun _ h => by cases h) (fun _ _ h => by cases h)] at hr'
  obtain ⟨r, hr, rfl⟩ := Option.map_eq_some_iff.1 hr'
  refine ⟨r, hr, ?_⟩
  simp only [Event.recordAfter]
  split
  · next hmember => exact .inl ⟨hmember.1, hmember.2, rfl⟩
  · next hmember => exact .inr ⟨hmember, rfl⟩

/-- A return of a batch that forms is in it, and the others are in the batches they were in. -/
theorem InFlight.formed_cases (h : ledger.InFlight) {members : List String} {atMs : Nat}
    (he : (Event.batchFormed members atMs).Admissible sdk codec ledger)
    {id b : String} {r' : Return}
    (hr' : (ledger.apply sdk.sha256 retry (.batchFormed members atMs)).returns.get id = some r')
    (hin : r'.inBatch b = true) :
    (b = (ledger.nextBatch sdk.sha256 members atMs).id ∧ id ∈ members ∧
        r'.record.status = .proving) ∨
      (b ≠ (ledger.nextBatch sdk.sha256 members atMs).id ∧ ledger.returns.get id = some r') := by
  obtain ⟨r, hr, ⟨hid, -, rfl⟩ | ⟨-, rfl⟩⟩ := returns_formed hr'
  · left
    have hbatch := (Return.inBatch_iff.1 hin).1
    simp only [ReturnRecord.enter_batchId, Option.some.injEq] at hbatch
    exact ⟨hbatch.symm, hid, by simp⟩
  · right
    refine ⟨?_, hr⟩
    rintro rfl
    exact h.fresh he hr (Return.inBatch_iff.1 hin).1

/-- **Every permitted event keeps the flights in order.** -/
theorem InFlight.apply (h : ledger.InFlight) (hindexed : ledger.Indexed sdk codec)
    (he : e.Admissible sdk codec ledger) (hpermitted : e.Permitted ledger) :
    (ledger.apply sdk.sha256 retry e).InFlight where
  single := by
    intro b b' hb hb'
    -- a batch proves now because it did before, was rebased, or was just formed; what is permitted
    -- leaves only one of them
    rcases proving_cases he hb with hold | ⟨atMs, rfl⟩ | ⟨members, atMs, rfl, hid⟩
    · rcases proving_cases he hb' with hold' | ⟨atMs, rfl⟩ | ⟨members, atMs, rfl, -⟩
      · exact h.single b b' hold hold'
      · exact absurd hold (hpermitted.2 b)
      · exact absurd hold (hpermitted.1 b)
    · rcases proving_cases he hb' with hold' | ⟨atMs', heq⟩ | ⟨members, atMs', heq, -⟩
      · exact absurd hold' (hpermitted.2 b')
      · cases heq
        rfl
      · cases heq
    · rcases proving_cases he hb' with hold' | ⟨atMs', heq⟩ | ⟨members', atMs', heq, hid'⟩
      · exact absurd hold' (hpermitted.1 b')
      · cases heq
      · cases heq
        exact hid.trans hid'.symm
  named := by
    intro id r' hr' hstatus
    rcases returns_cases he.ne_snapshot hr' with ⟨r, hr, rfl⟩ | ⟨burn, record, rfl, -, -, rfl⟩
    -- only forming puts a return into a batch; every other event keeps the name it has
    · by_cases hforms : e.Forms
      · obtain ⟨members, atMs, rfl⟩ := hforms
        obtain ⟨r₀, hr₀, ⟨-, -, heq⟩ | ⟨-, heq⟩⟩ := returns_formed hr'
        · refine ⟨(ledger.nextBatch sdk.sha256 members atMs).id, Return.inBatch_iff.2 ⟨?_, hstatus⟩⟩
          rw [heq]
          simp
        · rw [heq] at hstatus ⊢
          exact h.named id r₀ hr₀ hstatus
      · obtain ⟨b, hb⟩ := h.named id r hr (e.inFlight_before hforms hstatus)
        refine ⟨b, Return.inBatch_iff.2 ⟨?_, hstatus⟩⟩
        exact (e.recordAfter_batchId hforms).trans (Return.inBatch_iff.1 hb).1
    · simp [(accepted_record he).1] at hstatus
  member := by
    intro id r' b hr' hin
    by_cases hforms : e.Forms
    · obtain ⟨members, atMs, rfl⟩ := hforms
      rcases h.formed_cases he hr' hin with ⟨rfl, hid, hstatus⟩ | ⟨hne, hr⟩
      · refine ⟨ledger.nextBatch sdk.sha256 members atMs, ?_, hid, .inl ⟨hstatus, rfl⟩⟩
        rw [Ledger.apply, batches_form, if_pos rfl]
      · rw [Ledger.apply, batches_form, if_neg hne]
        exact h.member id r' b hr hin
    · rcases returns_cases he.ne_snapshot hr' with ⟨r, hr, rfl⟩ | ⟨burn, record, rfl, -, -, rfl⟩
      · exact h.member_apply hindexed he hpermitted hforms hr hin
      · have hstatus := (Return.inBatch_iff.1 hin).2
        simp [(accepted_record he).1] at hstatus
  proof := by
    intro b batch' hbatch' hproven
    rcases batches_cases he.ne_snapshot hbatch' with ⟨batch, hbatch, rfl⟩ | ⟨members, atMs, rfl, rfl, -⟩
    -- forming leaves older batches alone, and its own id is fresh
    · by_cases hforms : e.Forms
      · obtain ⟨members, atMs, rfl⟩ := hforms
        obtain ⟨bundle, hbundle, htxid, hpays⟩ := h.proof b batch hbatch hproven
        refine ⟨bundle, hbundle, htxid, fun id r' hr' hin => ?_⟩
        rcases h.formed_cases he hr' hin with ⟨rfl, -, -⟩ | ⟨-, hr⟩
        · have hfresh : ledger.batches.get (ledger.nextBatch sdk.sha256 members atMs).id = none := he
          rw [hfresh] at hbatch
          cases hbatch
        · exact hpays id r' hr hin
      · exact h.proof_apply he hpermitted hforms hbatch hproven
    · cases hproven
  written := by
    intro b batch' bundle hbatch' hbundle
    rcases batches_cases he.ne_snapshot hbatch' with ⟨batch, hbatch, rfl⟩ | ⟨members, atMs, rfl, rfl, -⟩
    · obtain ⟨hwritten, howns⟩ := h.written_apply hpermitted hbatch hbundle
      exact ⟨hwritten, howns.apply he⟩
    · cases hbundle
  known := by
    intro b batch' hbatch' id hid
    have hknown : ∃ r, ledger.returns.get id = some r := by
      rcases batches_cases he.ne_snapshot hbatch' with
        ⟨batch, hbatch, rfl⟩ | ⟨members, atMs, rfl, rfl, -⟩
      · rw [Event.batchAfter_members] at hid
        exact h.known b batch hbatch id hid
      · obtain ⟨r, hr, -⟩ := hpermitted.2.2 id hid
        exact ⟨r, hr⟩
    obtain ⟨r, hr⟩ := hknown
    obtain ⟨r', hr', -⟩ := @burn_apply _ _ retry _ _ he _ _ hr
    exact ⟨r', hr'⟩
  distinct := by
    intro b batch' hbatch'
    rcases batches_cases he.ne_snapshot hbatch' with ⟨batch, hbatch, rfl⟩ | ⟨members, atMs, rfl, rfl, -⟩
    · rw [Event.batchAfter_members]
      exact h.distinct b batch hbatch
    · exact hpermitted.2.1
  formed := by
    -- the batch a return names is never taken away again
    intro id r' b hr' hname
    have hold : ∀ {r : Return}, ledger.returns.get id = some r → r.record.batchId = some b →
        ∃ batch, (ledger.apply sdk.sha256 retry e).batches.get b = some batch := by
      intro r hr hname
      obtain ⟨batch, hbatch⟩ := h.formed id r b hr hname
      obtain ⟨batch', hbatch', -⟩ := @batch_persists _ _ retry _ _ he _ _ hbatch
      exact ⟨batch', hbatch'⟩
    by_cases hforms : e.Forms
    · obtain ⟨members, atMs, rfl⟩ := hforms
      obtain ⟨r, hr, ⟨-, -, rfl⟩ | ⟨-, rfl⟩⟩ := returns_formed hr'
      · simp only [ReturnRecord.enter_batchId, Option.some.injEq] at hname
        refine ⟨ledger.nextBatch sdk.sha256 members atMs, ?_⟩
        rw [Ledger.apply, batches_form, if_pos hname.symm]
      · exact hold hr hname
    · rcases returns_cases he.ne_snapshot hr' with ⟨r, hr, rfl⟩ | ⟨burn, record, rfl, -, -, rfl⟩
      · exact hold hr ((e.recordAfter_batchId hforms).symm.trans hname)
      · rw [(accepted_record he).2.1] at hname
        cases hname

end Ledger

end UnicityBridge.Service
