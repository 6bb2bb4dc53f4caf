import UnicityBridge.Service.Budget

/-!
# The shape of the ledger

What holds of a ledger whatever events the store commits, and after every replay from a snapshot: the
index of nullifiers and the returns are one map read both ways, the queue is in the order of acceptance,
every return is in one place, and the flags of its record say which.

Nothing is asked of the events but that accepted records are fresh and that two burns with one id have
one nullifier. That a batch in flight is active holds of the service's own runs.
-/

set_option autoImplicit false

namespace UnicityBridge.Service

open UnicityBridge.Lib

section Shape

variable {sdk : TokenSdk.Sdk} {codec : Wire.Codec} {sha256 : Bytes → Bytes32} {retry : RetryPolicy}
  {policy : BatchPolicy} {ledger : Ledger}

/-! ## Records -/

/-- The flags of a record follow from its status, and a record in flight names its batch. -/
structure ReturnRecord.Flagged (record : ReturnRecord) : Prop where
  terminal : record.terminal =
    (record.status = .settled || (record.status = .failed && !record.failedRecoverably))
  success : record.success = some true ↔ record.status = .settled
  named : record.status = .proving ∨ record.status = .proven → record.batchId ≠ none

namespace ReturnRecord

variable (record : ReturnRecord) (atMs : Nat)

theorem flagged_queued (returnId : String) (nullifier : Bytes32) (now : Nat) :
    (queued returnId nullifier now).Flagged := by
  constructor <;> simp [queued]

/-- **A transition sets the flags.** -/
theorem flagged_transition (status : ReturnStatus)
    (h : status = .proving ∨ status = .proven → record.batchId ≠ none) :
    (record.transition status atMs).Flagged where
  terminal := by
    cases status with
    | failed => simp [transition, applyStatusDefaults, failedRecoverably]
    | queued | proving | proven | submitted | settled => simp [transition, applyStatusDefaults]
  success := by
    cases status with
    | failed =>
        simp only [transition, applyStatusDefaults]
        split <;> simp
    | queued | proving | proven | submitted | settled => simp [transition, applyStatusDefaults]
  named := by
    rw [transition_status, transition_batchId]
    exact h

theorem flagged_transitionWith (status : ReturnStatus) (message : String)
    (h : status = .proving ∨ status = .proven → record.batchId ≠ none) :
    (record.transitionWith status atMs message).Flagged :=
  have hflagged := record.flagged_transition atMs status h
  ⟨hflagged.terminal, hflagged.success, hflagged.named⟩

theorem flagged_scheduleRetry (kind : ErrorKind) (message : String) :
    (record.scheduleRetry atMs kind message retry).Flagged := by
  simp only [scheduleRetry]
  split <;> exact flagged_transition _ _ _ (by simp)

theorem flagged_scheduleAfterInterruption :
    (record.scheduleAfterInterruption atMs retry).Flagged := by
  simp only [scheduleAfterInterruption]
  split
  · exact flagged_transition _ _ _ (by simp)
  · exact flagged_transitionWith _ _ _ _ (by simp)

variable {record}

theorem Flagged.requeue (h : record.Flagged) : (record.requeue atMs retry).Flagged := by
  unfold ReturnRecord.requeue
  split
  · exact flagged_transitionWith _ _ _ _ (by simp)
  · split
    · exact flagged_transitionWith _ _ _ _ (by simp)
    · exact h

theorem Flagged.interrupt (h : record.Flagged) (orderly : Bool) :
    (record.interrupt atMs orderly retry).Flagged := by
  unfold ReturnRecord.interrupt
  split
  · exact h
  · split
    · exact flagged_transitionWith _ _ _ _ (by simp)
    · exact record.flagged_scheduleAfterInterruption atMs

theorem Flagged.exclude (h : record.Flagged) (reason : Exclusion) :
    (record.exclude atMs reason retry).Flagged := by
  unfold ReturnRecord.exclude
  split
  · exact flagged_transitionWith _ _ _ _ (by simp)
  · -- a repeated check only moves the time of the next one
    simp only
    split
    · exact ⟨h.terminal, h.success, h.named⟩
    · exact flagged_transitionWith _ _ _ _ (by simp)
  · exact record.flagged_scheduleRetry atMs _ _
  · exact flagged_transition _ _ _ (by simp)

end ReturnRecord

/-- The time that an event carries. -/
def Event.atMs : Event → Option Nat
  | .snapshot _ | .accepted _ _ => none
  | .requeued _ atMs | .batchFormed _ atMs | .batchProven _ _ _ atMs | .batchSettled _ _ atMs
  | .batchFailed _ _ _ atMs | .batchRebased _ atMs | .batchInterrupted _ atMs _
  | .returnExcluded _ _ atMs => some atMs

namespace Event

variable {id : String} {r : Return} (e : Event)

/-- **Every event keeps the flags**, whatever record it meets. -/
theorem recordAfter_flagged (h : r.record.Flagged) :
    (e.recordAfter sha256 retry ledger id r).Flagged := by
  -- a member of a batch names the batch
  have hbatch {b : String} (hmember : ledger.isMember b r = true) : r.record.batchId ≠ none := by
    rw [(Return.inBatch_iff.1 (Ledger.isMember_iff.1 hmember).2).1]
    exact Option.some_ne_none b
  cases e with
  | snapshot | accepted => exact h
  | requeued i atMs =>
      simp only [recordAfter]
      split
      · exact h.requeue atMs
      · exact h
  | batchFormed members atMs =>
      simp only [recordAfter]
      split
      · exact ReturnRecord.flagged_transition _ _ _ fun _ => Option.some_ne_none _
      · exact h
  | batchProven b _ _ atMs =>
      simp only [recordAfter]
      split
      · next hmember => exact ReturnRecord.flagged_transition _ _ _ fun _ => hbatch hmember
      · exact h
  | batchSettled b txid atMs =>
      simp only [recordAfter]
      split
      · cases txid with
        | some => exact ReturnRecord.flagged_transition _ _ _ (by simp)
        | none => exact ReturnRecord.flagged_transitionWith _ _ _ _ (by simp)
      · exact h
  | batchFailed b kind message atMs =>
      simp only [recordAfter]
      split
      · exact r.record.flagged_scheduleRetry atMs kind message
      · exact h
  | batchRebased b atMs =>
      simp only [recordAfter]
      split
      · next hmember => exact ReturnRecord.flagged_transitionWith _ _ _ _ fun _ => hbatch hmember
      · exact h
  | batchInterrupted b atMs orderly =>
      simp only [recordAfter]
      split
      · exact h.interrupt atMs orderly
      · exact h
  | returnExcluded i reason atMs =>
      simp only [recordAfter]
      split
      · exact h.exclude atMs reason
      · exact h

end Event

/-! ## Retries -/

/-- The retry is no earlier than this time, or is the one that the record had. -/
def ReturnRecord.Schedules (before after : ReturnRecord) (atMs : Nat) : Prop :=
  ∀ t, after.notBeforeMs = some t → before.notBeforeMs = some t ∨ atMs ≤ t

namespace ReturnRecord

variable (record : ReturnRecord) (atMs : Nat)

theorem le_notBefore (attempts : Nat) : atMs ≤ retry.notBefore attempts atMs :=
  Nat.le_add_right _ _

theorem schedules_of_eq {after : ReturnRecord} (h : after.notBeforeMs = record.notBeforeMs) :
    record.Schedules after atMs := fun _ ht => .inl (h.symm.trans ht)

theorem schedules_scheduleRetry (kind : ErrorKind) (message : String) :
    record.Schedules (record.scheduleRetry atMs kind message retry) atMs := by
  intro t ht
  simp only [scheduleRetry] at ht
  split at ht
  · simp at ht
  · simp only [transition_notBeforeMs, Option.some.injEq] at ht
    exact .inr (ht ▸ le_notBefore atMs _)

theorem schedules_scheduleAfterInterruption :
    record.Schedules (record.scheduleAfterInterruption atMs retry) atMs := by
  intro t ht
  simp only [scheduleAfterInterruption] at ht
  split at ht
  · simp at ht
  · simp only [transitionWith_notBeforeMs, Option.some.injEq] at ht
    exact .inr (ht ▸ le_notBefore atMs _)

theorem schedules_requeue : record.Schedules (record.requeue atMs retry) atMs := by
  unfold requeue
  split
  · intro t ht
    simp at ht
  · split
    · exact record.schedules_of_eq atMs (by simp)
    · exact record.schedules_of_eq atMs rfl

theorem schedules_interrupt (orderly : Bool) :
    record.Schedules (record.interrupt atMs orderly retry) atMs := by
  unfold interrupt
  split
  · exact record.schedules_of_eq atMs rfl
  · split
    · intro t ht
      simp [requeueAfterStop] at ht
    · exact record.schedules_scheduleAfterInterruption atMs

theorem schedules_exclude (reason : Exclusion) :
    record.Schedules (record.exclude atMs reason retry) atMs := by
  have hcheck : atMs ≤ atMs + RELEASE_RECHECK_MS := Nat.le_add_right _ _
  unfold exclude
  split
  · intro t ht
    simp at ht
  · simp only
    split
    · intro t ht
      exact .inr (hcheck.trans_eq (Option.some.inj ht))
    · intro t ht
      simp only [transitionWith_notBeforeMs, Option.some.injEq] at ht
      exact .inr (hcheck.trans_eq ht)
  · exact record.schedules_scheduleRetry atMs _ _
  · exact record.schedules_of_eq atMs (by simp)

end ReturnRecord

/-- **No event schedules a retry before its own time.** -/
theorem Event.recordAfter_schedules {e : Event} {atMs : Nat} (hat : e.atMs = some atMs) (id : String)
    (r : Return) : r.record.Schedules (e.recordAfter sha256 retry ledger id r) atMs := by
  have hsame {after : ReturnRecord} (h : after.notBeforeMs = r.record.notBeforeMs) :
      r.record.Schedules after atMs := r.record.schedules_of_eq atMs h
  cases e with
  | snapshot | accepted => cases hat
  | requeued i t =>
      obtain rfl := Option.some.inj hat
      simp only [recordAfter]
      split
      · exact r.record.schedules_requeue t
      · exact hsame rfl
  | batchFormed | batchProven | batchRebased =>
      simp only [recordAfter]
      split
      · exact hsame (by simp [ReturnRecord.enter, ReturnRecord.rebase])
      · exact hsame rfl
  | batchSettled b txid t =>
      simp only [recordAfter]
      split
      · cases txid <;> exact hsame (by simp [ReturnRecord.settle])
      · exact hsame rfl
  | batchFailed b kind message t =>
      obtain rfl := Option.some.inj hat
      simp only [recordAfter]
      split
      · exact r.record.schedules_scheduleRetry t kind message
      · exact hsame rfl
  | batchInterrupted b t orderly =>
      obtain rfl := Option.some.inj hat
      simp only [recordAfter]
      split
      · exact r.record.schedules_interrupt t orderly
      · exact hsame rfl
  | returnExcluded i reason t =>
      obtain rfl := Option.some.inj hat
      simp only [recordAfter]
      split
      · exact r.record.schedules_exclude t reason
      · exact hsame rfl

/-! ## Places -/

/-- Where a return can be. -/
inductive Place where
  | pending
  | batch (id : String)
  | awaiting
  | done
  deriving DecidableEq

/-- The return stands at the place. -/
def Return.In (r : Return) : Place → Prop
  | .pending => r.isPending = true
  | .batch id => r.inBatch id = true
  | .awaiting => r.awaitsConfirmation = true
  | .done => r.isDone = true

/-- The place that the record tells. -/
def Return.place (r : Return) : Option Place :=
  match r.record.status with
  | .queued => some .pending
  | .proving | .proven => r.record.batchId.map .batch
  | .submitted => some .awaiting
  | .settled => some .done
  | .failed => if r.record.failedRecoverably then some .pending else some .done

theorem Return.in_iff {r : Return} {place : Place} : r.In place ↔ r.place = some place := by
  cases hstatus : r.record.status with
  | failed =>
      cases hfailed : r.record.failedRecoverably <;> cases place <;>
        simp [In, Return.place, isPending, inBatch, awaitsConfirmation, isDone, hstatus, hfailed]
  | queued | proving | proven | submitted | settled =>
      cases place <;>
        simp [In, Return.place, isPending, inBatch, awaitsConfirmation, isDone, hstatus,
          ReturnRecord.failedRecoverably]

/-- **A return is in one place.** -/
theorem Return.existsUnique_place {r : Return} (h : r.record.Flagged) : ∃! place, r.In place := by
  obtain ⟨place, hplace⟩ : ∃ place, r.place = some place := by
    have hnamed := h.named
    cases hstatus : r.record.status with
    | proving | proven =>
        obtain ⟨id, hid⟩ := Option.ne_none_iff_exists'.1 (hnamed (by simp [hstatus]))
        exact ⟨.batch id, by simp [Return.place, hstatus, hid]⟩
    | failed => cases hfailed : r.record.failedRecoverably <;> simp [Return.place, hstatus, hfailed]
    | queued | submitted | settled => simp [Return.place, hstatus]
  refine ⟨place, in_iff.2 hplace, fun other hother => ?_⟩
  exact Option.some.inj ((in_iff.1 hother).symm.trans hplace)

/-! ## The ledger -/

/-- What the events keep. -/
structure Ledger.Shaped (ledger : Ledger) : Prop where
  id_eq : ∀ id r, ledger.returns.get id = some r → r.burn.id = id
  /-- The index leads from the nullifier of every return to it. -/
  indexed : ∀ id r, ledger.returns.get id = some r →
    ledger.byNullifier.get (toLowercase r.record.nullifier) = some id
  /-- What the index leads to is the return of the nullifier. -/
  owner : ∀ nullifier id, ledger.byNullifier.get nullifier = some id →
    ∃ r, ledger.returns.get id = some r ∧ toLowercase r.record.nullifier = nullifier
  seq_le : ∀ id r, ledger.returns.get id = some r → r.seq ≤ ledger.accepted
  seq_inj : ∀ id id' r r', ledger.returns.get id = some r → ledger.returns.get id' = some r' →
    r.seq = r'.seq → id = id'
  flagged : ∀ id r, ledger.returns.get id = some r → r.record.Flagged

/-- An event that the store can commit: an accepted record is fresh, and its burn shares its id with no
return of another nullifier. -/
def Event.Committable (ledger : Ledger) : Event → Prop
  | .accepted burn record =>
      (∃ returnId nullifier now, record = .queued returnId nullifier now) ∧
        ∀ r, ledger.returns.get burn.id = some r →
          toLowercase r.record.nullifier = toLowercase record.nullifier
  | _ => True

namespace Ledger

theorem shaped_empty : Shaped empty where
  id_eq := fun _ _ h => by cases h
  indexed := fun _ _ h => by cases h
  owner := fun _ _ h => by cases h
  seq_le := fun _ _ h => by cases h
  seq_inj := fun _ _ _ _ h => by cases h
  flagged := fun _ _ h => by cases h

theorem accepted_apply (e : Event) (hsnapshot : ∀ l, e ≠ .snapshot l)
    (haccepted : ∀ burn record, e ≠ .accepted burn record) :
    (ledger.apply sha256 retry e).accepted = ledger.accepted := by
  cases e with
  | snapshot l => exact absurd rfl (hsnapshot l)
  | accepted burn record => exact absurd rfl (haccepted burn record)
  | requeued | batchFormed | returnExcluded => rfl
  | batchProven | batchSettled | batchFailed | batchRebased | batchInterrupted =>
      simp only [apply, prove, settle, fail, rebase, interrupt, onBatch]
      split <;> rfl

/-- A burn under a nullifier that is not known has a new id. -/
theorem Shaped.new_id (h : ledger.Shaped) {burn : Burn} {record : ReturnRecord}
    (he : (Event.accepted burn record).Committable ledger)
    (hnew : ledger.byNullifier.contains (toLowercase record.nullifier) = false) :
    ledger.returns.get burn.id = none := by
  by_contra hsome
  obtain ⟨r, hr⟩ := Option.ne_none_iff_exists'.1 hsome
  have hknown := h.indexed burn.id r hr
  rw [he.2 r hr] at hknown
  simp [Dict.contains, hknown] at hnew

/-- **An acceptance keeps the shape**: the new return has the next number. -/
theorem Shaped.accept (h : ledger.Shaped) {burn : Burn} {record : ReturnRecord}
    (he : (Event.accepted burn record).Committable ledger)
    (hnew : ledger.byNullifier.contains (toLowercase record.nullifier) = false) :
    (ledger.accept burn record).Shaped := by
  have hid := h.new_id he hnew
  have hreturns (id : String) : (ledger.accept burn record).returns.get id =
      if id = burn.id then some ⟨ledger.accepted + 1, burn, record⟩ else ledger.returns.get id := by
    rw [get_accept, hnew]
    simp only [true_and]
  have hindex : (ledger.accept burn record).byNullifier =
      ledger.byNullifier.insert (toLowercase record.nullifier) burn.id := by
    simp [Ledger.accept, hnew]
  have hcount : (ledger.accept burn record).accepted = ledger.accepted + 1 := by
    simp [Ledger.accept, hnew]
  -- a return is the new one or was there
  have hcases {id : String} {r : Return} (hr : (ledger.accept burn record).returns.get id = some r) :
      (id = burn.id ∧ r = ⟨ledger.accepted + 1, burn, record⟩) ∨
        (id ≠ burn.id ∧ ledger.returns.get id = some r) := by
    rw [hreturns] at hr
    split at hr
    · next heq => exact .inl ⟨heq, (Option.some.inj hr).symm⟩
    · next hne => exact .inr ⟨hne, hr⟩
  constructor
  · intro id r hr
    rcases hcases hr with ⟨rfl, rfl⟩ | ⟨-, hr⟩
    · rfl
    · exact h.id_eq id r hr
  · intro id r hr
    rw [hindex]
    rcases hcases hr with ⟨rfl, rfl⟩ | ⟨-, hr⟩
    · exact Dict.get_insert_self _ _ _
    -- the new nullifier was in no index, so no older entry is overwritten
    · have hknown := h.indexed id r hr
      rw [Dict.get_insert_of_ne]
      · exact hknown
      · intro hsame
        rw [hsame] at hknown
        simp [Dict.contains, hknown] at hnew
  · intro nullifier id hknown
    rw [hindex] at hknown
    rw [hreturns]
    by_cases hsame : nullifier = toLowercase record.nullifier
    · rw [hsame, Dict.get_insert_self] at hknown
      obtain rfl := Option.some.inj hknown
      rw [if_pos rfl]
      exact ⟨_, rfl, hsame.symm⟩
    -- an older nullifier still leads to its return, whose id is not the new one
    · rw [Dict.get_insert_of_ne _ _ hsame] at hknown
      obtain ⟨r, hr, hnullifier⟩ := h.owner nullifier id hknown
      have hne : id ≠ burn.id := by
        rintro rfl
        rw [hid] at hr
        cases hr
      rw [if_neg hne]
      exact ⟨r, hr, hnullifier⟩
  · intro id r hr
    rw [hcount]
    rcases hcases hr with ⟨-, rfl⟩ | ⟨-, hr⟩
    · exact le_rfl
    · exact (h.seq_le id r hr).trans (Nat.le_succ _)
  -- the new number is greater than all before it
  · intro id id' r r' hr hr' hseq
    rcases hcases hr with ⟨rfl, rfl⟩ | ⟨-, hr⟩
    · rcases hcases hr' with ⟨rfl, -⟩ | ⟨-, hr'⟩
      · rfl
      · exact absurd (h.seq_le id' r' hr') (not_le.2 (hseq ▸ Nat.lt_succ_self _))
    · rcases hcases hr' with ⟨-, rfl⟩ | ⟨-, hr'⟩
      · exact absurd (h.seq_le id r hr) (not_le.2 (hseq.symm ▸ Nat.lt_succ_self _))
      · exact h.seq_inj id id' r r' hr hr' hseq
  · intro id r hr
    rcases hcases hr with ⟨-, rfl⟩ | ⟨-, hr⟩
    · obtain ⟨returnId, nullifier, now, rfl⟩ := he.1
      exact ReturnRecord.flagged_queued returnId nullifier now
    · exact h.flagged id r hr

/-- **Every event keeps the shape.** -/
theorem Shaped.apply (h : ledger.Shaped) {e : Event} (hsnapshot : ∀ l, e ≠ .snapshot l)
    (he : e.Committable ledger) : (ledger.apply sha256 retry e).Shaped := by
  by_cases haccepted : ∃ burn record, e = .accepted burn record
  · obtain ⟨burn, record, rfl⟩ := haccepted
    -- a nullifier that is known already changes nothing
    cases hnew : ledger.byNullifier.contains (toLowercase record.nullifier) with
    | true =>
        have hsame : ledger.apply sha256 retry (.accepted burn record) = ledger := if_pos hnew
        rw [hsame]
        exact h
    | false => exact h.accept he hnew
  have hother := fun burn record heq => haccepted ⟨burn, record, heq⟩
  -- the other events only change records
  have hcases {id : String} {r' : Return} (hr' : (ledger.apply sha256 retry e).returns.get id = some r') :
      ∃ r, ledger.returns.get id = some r ∧
        r' = { r with record := e.recordAfter sha256 retry ledger id r } := by
    rw [get_apply e hsnapshot hother] at hr'
    obtain ⟨r, hr, rfl⟩ := Option.map_eq_some_iff.1 hr'
    exact ⟨r, hr, rfl⟩
  have hindex := @byNullifier_apply sha256 retry ledger e hsnapshot hother
  have hcount := @accepted_apply sha256 retry ledger e hsnapshot hother
  constructor
  · intro id r' hr'
    obtain ⟨r, hr, rfl⟩ := hcases hr'
    exact h.id_eq id r hr
  · intro id r' hr'
    obtain ⟨r, hr, rfl⟩ := hcases hr'
    rw [hindex, Event.recordAfter_nullifier]
    exact h.indexed id r hr
  · intro nullifier id hknown
    rw [hindex] at hknown
    obtain ⟨r, hr, hnullifier⟩ := h.owner nullifier id hknown
    rw [get_apply e hsnapshot hother, hr]
    exact ⟨_, rfl, by rw [Event.recordAfter_nullifier, hnullifier]⟩
  · intro id r' hr'
    obtain ⟨r, hr, rfl⟩ := hcases hr'
    exact hcount ▸ h.seq_le id r hr
  · intro id id' r₁ r₂ hr₁ hr₂ hseq
    obtain ⟨r, hr, rfl⟩ := hcases hr₁
    obtain ⟨r', hr', rfl⟩ := hcases hr₂
    exact h.seq_inj id id' r r' hr hr' hseq
  · intro id r' hr'
    obtain ⟨r, hr, rfl⟩ := hcases hr'
    exact e.recordAfter_flagged (h.flagged id r hr)

/-! ## Queries -/

/-- **The queue** is the pending returns, each once, in the order of acceptance. -/
theorem Shaped.queue (h : ledger.Shaped) :
    (ledger.pending.map Return.seq).Pairwise (· < ·) ∧
      ∀ r, r ∈ ledger.pending ↔ (∃ id, ledger.returns.get id = some r) ∧ r.isPending = true := by
  constructor
  · have hentries : ledger.returns.entries.Nodup := .of_map _ ledger.returns.unique
    have hseqs : (ledger.returns.values.map Return.seq).Nodup := by
      rw [Dict.values, List.map_map]
      refine hentries.map_on fun entry hentry other hother hseq => ?_
      have hid := h.seq_inj entry.1 other.1 entry.2 other.2 (Dict.get_eq_some.2 hentry)
        (Dict.get_eq_some.2 hother) hseq
      exact List.inj_on_of_nodup_map ledger.returns.unique hentry hother hid
    have hperm := (List.mergeSort_perm (ledger.returns.values.filter Return.isPending)
      fun a b => a.seq ≤ b.seq).map Return.seq
    have hnodup : (ledger.pending.map Return.seq).Nodup :=
      hperm.nodup_iff.2 (hseqs.sublist (List.filter_sublist.map _))
    have hsorted : ledger.pending.Pairwise fun a b => a.seq ≤ b.seq := by
      have hsort := @List.pairwise_mergeSort _ (fun a b : Return => decide (a.seq ≤ b.seq))
        (fun a b c hab hbc => by simp at *; omega) (fun a b => by simp; omega)
        (ledger.returns.values.filter Return.isPending)
      simpa only [pending, bySeq, decide_eq_true_eq] using hsort
    exact ((List.pairwise_map.2 hsorted).and hnodup).imp fun hboth => lt_of_le_of_ne hboth.1 hboth.2
  · intro r
    rw [pending, bySeq, List.mem_mergeSort, List.mem_filter, Dict.mem_values]

/-- The ids of the returns that are not done. -/
def unfinishedIds (ledger : Ledger) : List String :=
  ledger.returns.keys.filter fun id => (ledger.returns.get id).any fun r => !r.isDone

theorem unfinished_eq (ledger : Ledger) : ledger.unfinished = ledger.unfinishedIds.length :=
  ledger.returns.length_filter_values fun r => !r.isDone

theorem mem_unfinishedIds {id : String} :
    id ∈ ledger.unfinishedIds ↔ ∃ r, ledger.returns.get id = some r ∧ r.isDone = false := by
  rw [unfinishedIds, List.mem_filter, Option.any_eq_true]
  constructor
  · rintro ⟨-, r, hr, hopen⟩
    exact ⟨r, hr, by simpa using hopen⟩
  · rintro ⟨r, hr, hopen⟩
    have hkey : id ∈ ledger.returns.keys := by
      by_contra hnone
      rw [Dict.get_eq_none.2 hnone] at hr
      cases hr
    exact ⟨hkey, r, hr, by simpa using hopen⟩

/-- The return of a known nullifier. -/
theorem Shaped.returnOf_eq (h : ledger.Shaped) {nullifier : String} {known : Return}
    (hknown : ledger.returnOf nullifier = some known) :
    ledger.returns.get known.burn.id = some known ∧
      toLowercase known.record.nullifier = toLowercase nullifier := by
  obtain ⟨id, hid, hr⟩ := Option.bind_eq_some_iff.1 hknown
  obtain ⟨r, hr', hnullifier⟩ := h.owner _ id hid
  obtain rfl := Option.some.inj (hr.symm.trans hr')
  rw [h.id_eq id known hr]
  exact ⟨hr, hnullifier⟩

/-- A nullifier without a return is not known to the index. -/
theorem Shaped.contains_eq_false (h : ledger.Shaped) {nullifier : String}
    (hnone : ledger.returnOf nullifier = none) :
    ledger.byNullifier.contains (toLowercase nullifier) = false := by
  cases hget : ledger.byNullifier.get (toLowercase nullifier) with
  | none => simp [Dict.contains, hget]
  | some id =>
      obtain ⟨r, hr, -⟩ := h.owner _ id hget
      rw [returnOf, hget, Option.bind_some, hr] at hnone
      cases hnone

/-- A requeue leaves the number of unfinished returns as it is. -/
theorem unfinished_requeue {id : String} {r : Return} (hr : ledger.returns.get id = some r)
    (hopen : r.isDone = false) (atMs : Nat) :
    (ledger.requeue id atMs retry).unfinished = ledger.unfinished := by
  have hkept : (r.update fun record => record.requeue atMs retry).isDone = false := by
    rcases r.record.requeue_cases atMs retry with ⟨-, hqueued⟩ | hsame
    · simp [Return.isDone, hqueued]
    · simpa [Return.isDone, hsame] using hopen
  rw [unfinished_eq, unfinished_eq, unfinishedIds, unfinishedIds]
  refine congrArg List.length ?_
  rw [requeue, Dict.keys_modify]
  refine List.filter_congr fun other _ => ?_
  rw [get_modify]
  by_cases hid : other = id
  · rw [hid, hr]
    simp [hkept, hopen]
  · simp [hid]

/-- An accepted burn under a new nullifier is one more that is unfinished. -/
theorem Shaped.unfinished_accept (h : ledger.Shaped) {burn : Burn} {record : ReturnRecord}
    (he : (Event.accepted burn record).Committable ledger)
    (hnew : ledger.byNullifier.contains (toLowercase record.nullifier) = false) :
    (ledger.accept burn record).unfinished = ledger.unfinished + 1 := by
  obtain ⟨returnId, nullifier, now, hrecord⟩ := he.1
  have hvalues : (ledger.accept burn record).returns.values =
      ledger.returns.values ++ [⟨ledger.accepted + 1, burn, record⟩] := by
    rw [Ledger.accept, if_neg (by simp [hnew])]
    exact Dict.values_insert_of_none (h.new_id he hnew) _
  have hopen : Return.isDone ⟨ledger.accepted + 1, burn, record⟩ = false := by
    simp [hrecord, Return.isDone, ReturnRecord.queued]
  rw [unfinished, hvalues, List.filter_append, List.length_append, unfinished]
  simp [hopen]

/-- **What `accept_within` commits**: a new return below the limit, under a nullifier that no return has,
or nothing new. -/
theorem Shaped.acceptWithin (h : ledger.Shaped) {burn : Burn} {record : ReturnRecord}
    {nowMs maxUnfinished : Nat} {e : Event}
    (haccept : ReturnStore.acceptWithin ledger burn record nowMs maxUnfinished = some e) :
    (∃ known, ledger.returns.get known.burn.id = some known ∧
        toLowercase known.record.nullifier = toLowercase record.nullifier ∧
        e = .requeued known.burn.id nowMs ∧
        (ledger.apply sha256 retry e).unfinished = ledger.unfinished) ∨
      (e = .accepted burn record ∧
        (∀ id r, ledger.returns.get id = some r →
          toLowercase r.record.nullifier ≠ toLowercase record.nullifier) ∧
        (e.Committable ledger →
          (ledger.apply sha256 retry e).unfinished = ledger.unfinished + 1) ∧
        ledger.unfinished + 1 ≤ maxUnfinished) := by
  unfold ReturnStore.acceptWithin at haccept
  cases hknown : ledger.returnOf record.nullifier with
  | some known =>
      obtain ⟨hget, hnullifier⟩ := h.returnOf_eq hknown
      rw [hknown] at haccept
      dsimp only at haccept
      split at haccept
      · next hfailed =>
        obtain rfl := Option.some.inj haccept
        exact .inl ⟨known, hget, hnullifier, rfl,
          unfinished_requeue hget (Return.not_done_of_failedRecoverably hfailed) nowMs⟩
      · cases haccept
  | none =>
      have hnew := h.contains_eq_false hknown
      rw [hknown] at haccept
      dsimp only at haccept
      split at haccept
      · cases haccept
      · next hlimit =>
        obtain rfl := Option.some.inj haccept
        refine .inr ⟨rfl, fun id r hr hsame => ?_, fun he => h.unfinished_accept he hnew,
          not_le.1 hlimit⟩
        have hindexed := h.indexed id r hr
        rw [hsame] at hindexed
        simp [Dict.contains, hindexed] at hnew

end Ledger

/-! ## Runs -/

variable (sha256 retry) in
/-- The events that a store commits, from an empty ledger or behind a snapshot of such a ledger. -/
inductive Committed : List Event → Prop
  | nil : Committed []
  | commit {events : List Event} {e : Event} (h : Committed events)
      (hsnapshot : ∀ l, e ≠ .snapshot l) (he : e.Committable (replay sha256 retry events)) :
      Committed (events ++ [e])
  | snapshot {history : List Event} (h : Committed history) (events : List Event) :
      Committed (events ++ [.snapshot (replay sha256 retry history)])

/-- **Every ledger of the store keeps the shape.** -/
theorem Committed.shaped {events : List Event} (h : Committed sha256 retry events) :
    (replay sha256 retry events).Shaped := by
  induction h with
  | nil => exact Ledger.shaped_empty
  | commit _ hsnapshot he ih =>
      rw [replay_append]
      exact ih.apply hsnapshot he
  | snapshot _ events ih =>
      rw [replay_append]
      exact ih

/-- The service only commits such events. -/
theorem Sound.committed {w : History} (h : Sound sdk codec retry policy w) :
    ∃ events, Committed sdk.sha256 retry events ∧ replay sdk.sha256 retry events = w.state := by
  have hcommit {state : Ledger} {e : Event} (he : e.Admissible sdk codec state)
      (ih : ∃ events, Committed sdk.sha256 retry events ∧ replay sdk.sha256 retry events = state) :
      ∃ events, Committed sdk.sha256 retry events ∧
        replay sdk.sha256 retry events = state.apply sdk.sha256 retry e := by
    obtain ⟨events, hevents, rfl⟩ := ih
    refine ⟨events ++ [e], hevents.commit he.ne_snapshot ?_, replay_append events e⟩
    cases e with
    | accepted burn record =>
        obtain ⟨⟨wireInput, nowMs, hcreate⟩, hfresh⟩ := he
        obtain ⟨-, leaf, -, hrecord⟩ := prechecked_of_createReturn hcreate
        refine ⟨⟨_, _, _, hrecord⟩, fun r hr => ?_⟩
        rw [hfresh] at hr
        cases hr
    | _ => trivial
  induction h with
  | initial => exact ⟨[], .nil, rfl⟩
  | own _ _ hadmits ih => exact hcommit hadmits ih
  | other _ hintake ih => exact hcommit hintake.admissible ih
  | heard _ _ _ ih => exact ih
  | outside _ _ ih => exact ih
  | started _ ih => exact ih

/-- Where a return is in an active batch: the batch is proving or proven, and lists it. -/
def Ledger.Active (ledger : Ledger) (id b : String) : Prop :=
  ∃ batch, ledger.batches.get b = some batch ∧ id ∈ batch.members ∧
    (batch.status = .proving ∨ batch.status = .proven)

variable (sha256 retry) in
/-- The representation invariant of a ledger. -/
structure Ledger.Represented (ledger : Ledger) : Prop where
  /-- The index of nullifiers and the returns are one map, read both ways. -/
  index : ∀ nullifier id, ledger.byNullifier.get nullifier = some id ↔
    ∃ r, ledger.returns.get id = some r ∧ toLowercase r.record.nullifier = nullifier
  seq : ∀ id id' r r', ledger.returns.get id = some r → ledger.returns.get id' = some r' →
    r.seq = r'.seq → id = id'
  ordered : (ledger.pending.map Return.seq).Pairwise (· < ·)
  queued : ∀ r, r ∈ ledger.pending ↔ (∃ id, ledger.returns.get id = some r) ∧ r.isPending = true
  place : ∀ id r, ledger.returns.get id = some r → ∃! place, r.In place
  terminal : ∀ id r, ledger.returns.get id = some r → (r.record.terminal = true ↔ r.isDone = true)
  success : ∀ id r, ledger.returns.get id = some r →
    (r.record.success = some true ↔ r.record.status = .settled)
  /-- An event that schedules a retry schedules it for its own time or later. -/
  scheduled : ∀ e atMs, e.atMs = some atMs → ∀ id r r', ledger.returns.get id = some r →
    (ledger.apply sha256 retry e).returns.get id = some r' → r.record.Schedules r'.record atMs
  counted : ledger.unfinished = ledger.unfinishedIds.length ∧ ledger.unfinishedIds.Nodup ∧
    ∀ id, id ∈ ledger.unfinishedIds ↔ ∃ r, ledger.returns.get id = some r ∧ r.isDone = false
  /-- `accept_within` admits a burn below the limit and under a nullifier that no return has, or requeues
  the return that has it. -/
  admitted : ∀ burn record nowMs maxUnfinished e,
    ReturnStore.acceptWithin ledger burn record nowMs maxUnfinished = some e →
    (∃ known, ledger.returns.get known.burn.id = some known ∧
        toLowercase known.record.nullifier = toLowercase record.nullifier ∧
        e = .requeued known.burn.id nowMs ∧
        (ledger.apply sha256 retry e).unfinished = ledger.unfinished) ∨
      (e = .accepted burn record ∧
        (∀ id r, ledger.returns.get id = some r →
          toLowercase r.record.nullifier ≠ toLowercase record.nullifier) ∧
        (e.Committable ledger →
          (ledger.apply sha256 retry e).unfinished = ledger.unfinished + 1) ∧
        ledger.unfinished + 1 ≤ maxUnfinished)

theorem Ledger.Shaped.represented (h : ledger.Shaped) : ledger.Represented sha256 retry where
  index := fun nullifier id =>
    ⟨h.owner nullifier id, fun ⟨r, hr, hnullifier⟩ => hnullifier ▸ h.indexed id r hr⟩
  seq := h.seq_inj
  ordered := h.queue.1
  queued := h.queue.2
  place := fun id r hr => Return.existsUnique_place (h.flagged id r hr)
  terminal := fun id r hr => by
    rw [(h.flagged id r hr).terminal]
    rfl
  success := fun id r hr => (h.flagged id r hr).success
  scheduled := by
    intro e atMs hat id r r' hr hr'
    have hsnapshot : ∀ l, e ≠ .snapshot l := by
      rintro l rfl
      cases hat
    have haccepted : ∀ burn record, e ≠ .accepted burn record := by
      rintro burn record rfl
      cases hat
    rw [get_apply e hsnapshot haccepted, hr, Option.map_some, Option.some.injEq] at hr'
    subst hr'
    exact Event.recordAfter_schedules hat id r
  counted := ⟨unfinished_eq ledger, ledger.returns.unique.filter _, fun _ => mem_unfinishedIds⟩
  admitted := fun _ _ _ _ _ haccept => h.acceptWithin haccept

/-- **The ledger's representation** holds behind every sequence of events that the store commits, and
behind every replay from a snapshot. The service commits such sequences, and in its runs a return that is
in a batch is in an active one. -/
theorem ledger_represented (sdk : TokenSdk.Sdk) (codec : Wire.Codec) (retry : RetryPolicy)
    (policy : BatchPolicy) :
    (∀ events, Committed sdk.sha256 retry events →
      (replay sdk.sha256 retry events).Represented sdk.sha256 retry) ∧
    ∀ c : ServiceConfig, (service sdk codec retry policy).Reach c →
      (∃ events, Committed sdk.sha256 retry events ∧
        replay sdk.sha256 retry events = c.world.state) ∧
      ∀ id r b, c.world.state.returns.get id = some r → r.In (.batch b) → c.world.state.Active id b := by
  refine ⟨fun events hevents => hevents.shaped.represented, fun c hreach =>
    ⟨(reach_sound hreach).committed, fun id r b hr hin => ?_⟩⟩
  obtain ⟨batch, hbatch, hmember, hstatus⟩ := (Sound.ledger (reach_sound hreach)).2.member id r b hr hin
  exact ⟨batch, hbatch, hmember, hstatus.imp And.right And.right⟩

end Shape

namespace Sample

/-- Two burns are accepted and enter a batch, the simulation refuses one of them, the batch fails with
the other, and that one is posted again. -/
def failing : List Event :=
  [acceptance .whole, acceptance .left, .batchFormed members 0,
    .returnExcluded (id .whole) (.rejected "recipient reverts") 100,
    .batchFailed batch.id .chainRejected "reverted" 200,
    .requeued (id .left) 300]

theorem failing_committed (retry : RetryPolicy) : Committed Guest.Sample.sdk.sha256 retry failing := by
  have hfirst : Committed Guest.Sample.sdk.sha256 retry [acceptance .whole] :=
    .commit .nil (fun _ h => by cases h) ⟨⟨_, _, _, rfl⟩, fun _ h => by cases h⟩
  have hsecond : Committed Guest.Sample.sdk.sha256 retry [acceptance .whole, acceptance .left] := by
    refine hfirst.commit (fun _ h => by cases h) ⟨⟨_, _, _, rfl⟩, fun r hr => ?_⟩
    have hget : (single retry).returns.get (id .left) = some r := hr
    rw [get_single, if_neg (id_ne (by decide))] at hget
    cases hget
  have hformed := hsecond.commit (e := .batchFormed members 0) (fun _ h => by cases h) trivial
  have hrefused := hformed.commit
    (e := .returnExcluded (id .whole) (.rejected "recipient reverts") 100) (fun _ h => by cases h) trivial
  have hfailed := hrefused.commit (e := .batchFailed batch.id .chainRejected "reverted" 200)
    (fun _ h => by cases h) trivial
  exact hfailed.commit (e := .requeued (id .left) 300) (fun _ h => by cases h) trivial

end Sample

/-- The ledger behind a snapshot of two returns of one batch, and their batch in a run. -/
theorem ledger_represented_sample :
    (replay Guest.Sample.sdk.sha256 ⟨60000, 2, 3⟩ (Sample.failing ++
      [.snapshot (replay Guest.Sample.sdk.sha256 ⟨60000, 2, 3⟩ Sample.failing)])).Represented
        Guest.Sample.sdk.sha256 ⟨60000, 2, 3⟩ ∧
    ∀ coin ∈ [Guest.Sample.Coin.whole, .left],
      (Sample.forming ⟨60000, 2, 3⟩).state.Active (Sample.id coin) Sample.batch.id := by
  obtain ⟨hrepresented, hruns⟩ :=
    ledger_represented Guest.Sample.sdk Wire.Sample.codec ⟨60000, 2, 3⟩ Sample.policy
  obtain ⟨-, hactive⟩ := hruns _ (Sample.reach_forming ⟨60000, 2, 3⟩)
  refine ⟨hrepresented _ ((Sample.failing_committed _).snapshot Sample.failing), fun coin hcoin => ?_⟩
  exact hactive _ _ _ (Sample.forming_get _ hcoin) (Sample.entered_in coin)

end UnicityBridge.Service
