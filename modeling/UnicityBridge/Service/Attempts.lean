import UnicityBridge.Service.Terminal

/-!
# Attempts

A return is charged an attempt when its batch fails or is cut off by a crash, and when the simulation
rejects it. `chargesOf` counts, over a history, how often a batch charged a return.

A rebase assembles every member of the batch again. Unless that touches members that have left it, each
batch charges a return once at most, and a return is parked when its attempts are used up.
-/

set_option autoImplicit false

namespace UnicityBridge.Service

open UnicityBridge.Lib

section Attempts

variable {sdk : TokenSdk.Sdk} {codec : Wire.Codec} {sha256 : Bytes → Bytes32} {retry : RetryPolicy}
  {policy : BatchPolicy}

/-! ## Records -/

namespace ReturnRecord

/-- Failed, and not tried again. -/
def FailedForGood (record : ReturnRecord) : Prop :=
  record.status = .failed ∧ record.failedRecoverably = false

instance (record : ReturnRecord) : Decidable record.FailedForGood :=
  inferInstanceAs (Decidable (_ ∧ _))

/-- One attempt more: the return is parked when that was the last, and waits for its next one
otherwise. -/
structure ChargedTo (retry : RetryPolicy) (record record' : ReturnRecord) : Prop where
  attempts : record'.attempts = record.attempts + 1
  parked : retry.maxAttempts ≤ record'.attempts → record'.FailedForGood
  open_ : record'.attempts < retry.maxAttempts → ¬ record'.FailedForGood
  left : ¬ (record'.status = .proving ∨ record'.status = .proven)

variable (record : ReturnRecord) (atMs : Nat)

theorem scheduleRetry_charged (kind : ErrorKind) (message : String) :
    ChargedTo retry record (record.scheduleRetry atMs kind message retry) := by
  unfold scheduleRetry RetryPolicy.parked
  simp only [decide_eq_true_eq]
  split
  · next hparked =>
    refine ⟨by simp, fun _ => ⟨by simp, ?_⟩, fun hroom => ?_, by simp⟩
    · simp [failedRecoverably, ReturnFailure.asTerminal]
    · simp only [transition_attempts] at hroom
      omega
  · next hroom =>
    refine ⟨by simp, fun hparked => ?_, fun _ hgood => ?_, by simp⟩
    · simp only [transition_attempts] at hparked
      omega
    · simp [FailedForGood, failedRecoverably, ReturnFailure.asRecoverable] at hgood

theorem scheduleAfterInterruption_charged :
    ChargedTo retry record (record.scheduleAfterInterruption atMs retry) := by
  unfold scheduleAfterInterruption RetryPolicy.parked
  simp only [decide_eq_true_eq]
  split
  · next hparked =>
    refine ⟨by simp, fun _ => ⟨by simp, ?_⟩, fun hroom => ?_, by simp⟩
    · simp [failedRecoverably, ReturnFailure.asTerminal]
    · simp only [transition_attempts] at hroom
      omega
  · next hroom =>
    refine ⟨by simp, fun hparked => ?_, fun _ hgood => ?_, by simp⟩
    · simp only [transitionWith_attempts] at hparked
      omega
    · simp [FailedForGood] at hgood

/-- An interruption of a record: an orderly one costs nothing. -/
theorem interrupt_attempts (orderly : Bool) :
    ((record.interrupt atMs orderly retry).attempts = record.attempts ∧
        ((record.interrupt atMs orderly retry).FailedForGood → record.FailedForGood)) ∨
      (orderly = false ∧ ChargedTo retry record (record.interrupt atMs orderly retry)) := by
  unfold interrupt
  split
  · exact .inl ⟨rfl, fun h => h⟩
  · split
    · left
      refine ⟨by simp [requeueAfterStop], fun h => ?_⟩
      simp [FailedForGood, requeueAfterStop] at h
    · next horderly =>
      exact .inr ⟨by simpa using horderly, record.scheduleAfterInterruption_charged atMs⟩

theorem requeue_attempts :
    (record.requeue atMs retry).attempts = record.attempts ∧
      ((record.requeue atMs retry).FailedForGood → record.FailedForGood) := by
  unfold requeue
  split
  · exact ⟨by simp, fun h => by simp [FailedForGood] at h⟩
  · split
    · exact ⟨by simp, fun h => by simp [FailedForGood] at h⟩
    · exact ⟨rfl, fun h => h⟩

/-- An exclusion charges the return that the simulation rejects. -/
theorem exclude_attempts (reason : Exclusion) :
    ((record.exclude atMs reason retry).attempts = record.attempts ∧
        ((record.exclude atMs reason retry).FailedForGood ↔ ∃ message, reason = .invalid message)) ∨
      ∃ message, reason = .rejected message ∧
        ChargedTo retry record (record.exclude atMs reason retry) := by
  match reason with
  | .alreadySettled txid none =>
      left
      simp [exclude, FailedForGood]
  | .alreadySettled txid (some why) =>
      left
      by_cases hsame : record.status = .submitted ∧ record.message = waitMessage txid why
      · simp [exclude, hsame, FailedForGood]
      · simp [exclude, hsame, FailedForGood]
  | .rejected message => exact .inr ⟨message, rfl, record.scheduleRetry_charged atMs _ _⟩
  | .invalid message =>
      left
      simp [exclude, FailedForGood, failedRecoverably, ReturnFailure.asTerminal]

end ReturnRecord

theorem Return.done_of_failedForGood {r : Return} (h : r.record.FailedForGood) : r.isDone = true := by
  simp [isDone, h.1, h.2]

/-! ## Events -/

/-- **What an event does to the attempts of a return**: nothing, and the return fails for good only when
it is excluded as invalid; or it charges the return, which is in a batch that ends, or is rejected. -/
theorem Event.attempts_cases {ledger : Ledger} {id : String} {r : Return} (e : Event) :
    ((e.recordAfter sha256 retry ledger id r).attempts = r.record.attempts ∧
        ((e.recordAfter sha256 retry ledger id r).FailedForGood → r.record.FailedForGood ∨
          ∃ message atMs, e = .returnExcluded id (.invalid message) atMs)) ∨
      (ReturnRecord.ChargedTo retry r.record (e.recordAfter sha256 retry ledger id r) ∧
        ((∃ b, ledger.isMember b r = true) ∨
          ∃ message atMs, e = .returnExcluded id (.rejected message) atMs)) := by
  cases e with
  -- a snapshot or an accepted burn changes no record of an older return
  | snapshot | accepted => exact .inl ⟨rfl, .inl⟩
  | requeued i atMs =>
      left
      simp only [recordAfter]
      split
      · obtain ⟨hsame, hgood⟩ := @ReturnRecord.requeue_attempts retry r.record atMs
        exact ⟨hsame, fun h => .inl (hgood h)⟩
      · exact ⟨rfl, .inl⟩
  | batchFormed members atMs =>
      left
      simp only [recordAfter]
      split
      · exact ⟨by simp [ReturnRecord.enter], fun h => by simp [ReturnRecord.FailedForGood] at h⟩
      · exact ⟨rfl, .inl⟩
  | batchProven b bundle root atMs =>
      left
      simp only [recordAfter]
      split
      · exact ⟨by simp, fun h => by simp [ReturnRecord.FailedForGood] at h⟩
      · exact ⟨rfl, .inl⟩
  | batchSettled b txid atMs =>
      left
      simp only [recordAfter]
      split
      · refine ⟨?_, fun h => by simp [ReturnRecord.FailedForGood] at h⟩
        cases txid <;> simp [ReturnRecord.settle]
      · exact ⟨rfl, .inl⟩
  -- a failed batch charges its members, and nobody else
  | batchFailed b kind message atMs =>
      simp only [recordAfter]
      split
      · next hmember => exact .inr ⟨r.record.scheduleRetry_charged atMs _ _, .inl ⟨b, hmember⟩⟩
      · exact .inl ⟨rfl, .inl⟩
  | batchRebased b atMs =>
      left
      simp only [recordAfter]
      split
      · refine ⟨by simp [ReturnRecord.rebase], fun h => by simp [ReturnRecord.FailedForGood] at h⟩
      · exact ⟨rfl, .inl⟩
  | batchInterrupted b atMs orderly =>
      simp only [recordAfter]
      split
      -- an interruption charges only where the stop was not orderly
      · next hmember =>
        rcases @ReturnRecord.interrupt_attempts retry r.record atMs orderly with
          ⟨hsame, hgood⟩ | ⟨-, hcharged⟩
        · exact .inl ⟨hsame, fun h => .inl (hgood h)⟩
        · exact .inr ⟨hcharged, .inl ⟨b, hmember⟩⟩
      · exact .inl ⟨rfl, .inl⟩
  | returnExcluded i reason atMs =>
      simp only [recordAfter]
      split
      · next hid =>
        subst hid
        -- of the exclusions only a rejection by the simulation is charged
        rcases @ReturnRecord.exclude_attempts retry r.record atMs reason with
          ⟨hsame, hgood⟩ | ⟨message, rfl, hcharged⟩
        · refine .inl ⟨hsame, fun h => .inr ?_⟩
          obtain ⟨message, rfl⟩ := hgood.1 h
          exact ⟨message, atMs, rfl⟩
        · exact .inr ⟨hcharged, .inr ⟨message, atMs, rfl⟩⟩
      · exact .inl ⟨rfl, .inl⟩

/-! ## Charges -/

/-- The moment charges the return an attempt, in the batch that its record names. -/
def Charges (sha256 : Bytes → Bytes32) (retry : RetryPolicy) (id b : String) :
    Ledger × Moment → Bool
  | (ledger, .own e) | (ledger, .other e) =>
      (ledger.returns.get id).any fun r => r.record.batchId = some b &&
        (e.recordAfter sha256 retry ledger id r).attempts != r.record.attempts
  | _ => false

/-- How often a history charged the return for this batch. -/
def chargesOf (sha256 : Bytes → Bytes32) (retry : RetryPolicy) (past : Past) (id b : String) : Nat :=
  past.countP (Charges sha256 retry id b)

/-- The return was excluded as invalid. -/
def Invalidated (past : Past) (id : String) : Prop :=
  ∃ ledger message atMs, (ledger, Label.own (.returnExcluded id (.invalid message) atMs)) ∈ past

/-- The return failed for good, and not because it was found invalid: for lack of attempts. -/
def Parked (past : Past) (id : String) (r : Return) : Prop :=
  r.record.FailedForGood ∧ ¬ Invalidated past id

theorem charges_own {ledger : Ledger} {e : Event} {id b : String} :
    Charges sha256 retry id b (ledger, .own e) = true ↔ ∃ r, ledger.returns.get id = some r ∧
      r.record.batchId = some b ∧
        (e.recordAfter sha256 retry ledger id r).attempts ≠ r.record.attempts := by
  simp [Charges, Option.any_eq_true]

/-- An orderly stop charges nothing. -/
theorem not_charges_stop (ledger : Ledger) (id b b' : String) (atMs : Nat) :
    Charges sha256 retry id b (ledger, .own (.batchInterrupted b' atMs true)) = false := by
  by_contra hcharges
  rw [Bool.not_eq_false, charges_own] at hcharges
  obtain ⟨r, -, -, hattempts⟩ := hcharges
  apply hattempts
  simp only [Event.recordAfter]
  split
  · rcases @ReturnRecord.interrupt_attempts retry r.record atMs true with ⟨hsame, -⟩ | ⟨horderly, -⟩
    · exact hsame
    · cases horderly
  · rfl

/-- A request handler charges nothing. -/
theorem Intake.attempts {ledger : Ledger} {e : Event} (h : Intake sdk codec ledger e) (id : String)
    (r : Return) : (e.recordAfter sha256 retry ledger id r).attempts = r.record.attempts := by
  rcases h.cases with ⟨burn, record, rfl⟩ | ⟨r', nowMs, rfl, -⟩
  · rfl
  · simp only [Event.recordAfter]
    split
    · exact (ReturnRecord.requeue_attempts r.record nowMs).1
    · rfl

theorem Intake.not_charges {ledger : Ledger} {e : Event} (h : Intake sdk codec ledger e)
    (id b : String) : Charges sha256 retry id b (ledger, .other e) = false := by
  simp [Charges, h.attempts]

/-! ## One charge a batch -/

/-- Whenever a burn is assembled, its return is proving. -/
def AssemblesProving (past : Past) : Prop :=
  ∀ id r, AssembledAs past id r → r.record.status = .proving

theorem AssemblesProving.mono {past past' : Past} (h : AssemblesProving past')
    (hpast : past ⊆ past') : AssemblesProving past :=
  fun id r hassembled => h id r (hassembled.mono hpast)

theorem AssemblesProving.opens {past : Past} (h : AssemblesProving past) : AssemblesOpen past := by
  intro id r hassembled
  simp [Return.isDone, h id r hassembled]

/-- A batch has charged a return once at most, and not at all while the return is in it. -/
structure Charged (sha256 : Bytes → Bytes32) (retry : RetryPolicy) (w : History) : Prop where
  once : ∀ id b, chargesOf sha256 retry w.past id b ≤ 1
  flying : ∀ id r b, w.state.returns.get id = some r → r.inBatch b = true →
    chargesOf sha256 retry w.past id b = 0
  fresh : ∀ id b, w.state.batches.get b = none → chargesOf sha256 retry w.past id b = 0

section Charged

variable {w : History}

/-- **The orchestrator charges a return only out of its batch.** -/
theorem Allowed.charges {e : Event} (hallowed : Allowed sdk codec retry w e)
    (hproving : AssemblesProving w.past) {id b : String}
    (hcharges : Charges sha256 retry id b (w.state, .own e) = true) :
    ∃ r, w.state.returns.get id = some r ∧ r.inBatch b = true ∧
      ReturnRecord.ChargedTo retry r.record (e.recordAfter sha256 retry w.state id r) := by
  obtain ⟨r, hr, hname, hattempts⟩ := charges_own.1 hcharges
  have hsame : ∀ {b'}, r.inBatch b' = true → r.inBatch b = true := by
    intro b' hin
    obtain ⟨hname', hstatus⟩ := Return.inBatch_iff.1 hin
    exact Return.inBatch_iff.2 ⟨hname, hstatus⟩
  rcases @Event.attempts_cases sha256 retry w.state id r e with
    ⟨hunchanged, -⟩ | ⟨hcharged, ⟨b', hmember⟩ | ⟨message, atMs, rfl⟩⟩
  · exact absurd hunchanged hattempts
  · exact ⟨r, hr, hsame (Ledger.isMember_iff.1 hmember).2, hcharged⟩
  · refine ⟨r, hr, ?_, hcharged⟩
    -- a rejected return is in the batch, or was assembled out of it
    cases hallowed with
    | recheck may =>
        obtain ⟨_, _, _, _, _, hreason, -⟩ := may
        cases hreason
    | run hrun =>
        cases hrun with
        | exclude may =>
            obtain ⟨r', hr', -, hin | ⟨r₀, hassembled, hleft, -⟩⟩ := may
            · obtain rfl := Option.some.inj (hr.symm.trans hr')
              exact hsame hin
            · exact absurd (hproving id r₀ hassembled) hleft

/-- An event of the orchestrator keeps the charges. -/
theorem Charged.own {e : Event} (h : Charged sdk.sha256 retry w) (hs : Sound sdk codec retry policy w)
    (hproving : AssemblesProving w.past) (hallowed : Allowed sdk codec retry w e)
    (hadmits : e.Admissible sdk codec w.state) :
    Charged sdk.sha256 retry (w.own (service sdk codec retry policy) e) := by
  obtain ⟨-, hflight⟩ := Sound.ledger hs
  -- the event adds one to the count of the batch that it charges
  have hcount : ∀ id b, chargesOf sdk.sha256 retry (w.own (service sdk codec retry policy) e).past id b =
      chargesOf sdk.sha256 retry w.past id b +
        if Charges sdk.sha256 retry id b (w.state, .own e) then 1 else 0 := fun id b => by
    rw [chargesOf, World.own, List.countP_cons]
    rfl
  constructor
  · intro id b
    rw [hcount]
    cases hcharges : Charges sdk.sha256 retry id b (w.state, .own e) with
    | false => simpa using h.once id b
    -- a charge takes the return out of its batch, where it had not been charged
    | true =>
        obtain ⟨r, hr, hin, -⟩ := hallowed.charges hproving hcharges
        rw [h.flying id r b hr hin]
        rfl
  -- a return still in its batch was not charged by this event
  · intro id r' b hr' hin
    have hkept : Charges sdk.sha256 retry id b (w.state, .own e) = false := by
      by_contra hcharges
      rw [Bool.not_eq_false] at hcharges
      obtain ⟨r, hr, -, hcharged⟩ := hallowed.charges hproving hcharges
      rcases Ledger.returns_cases hadmits.ne_snapshot hr' with
        ⟨r₁, hr₁, rfl⟩ | ⟨burn, record, rfl, -, -, rfl⟩
      · obtain rfl := Option.some.inj (hr.symm.trans hr₁)
        exact hcharged.left (Return.inBatch_iff.1 hin).2
      · have hstatus := (Return.inBatch_iff.1 hin).2
        simp [(Ledger.accepted_record hadmits).1] at hstatus
    rw [hcount, hkept, if_neg (by simp), Nat.add_zero]
    by_cases hforms : e.Forms
    · obtain ⟨members, atMs, rfl⟩ := hforms
      rcases @Ledger.InFlight.formed_cases _ _ retry _ hflight _ _ hadmits _ _ _ hr' hin with
        ⟨rfl, -, -⟩ | ⟨-, hr⟩
      · exact h.fresh id _ hadmits
      · exact h.flying id r' b hr hin
    · rcases Ledger.returns_cases hadmits.ne_snapshot hr' with
        ⟨r, hr, rfl⟩ | ⟨burn, record, rfl, -, -, rfl⟩
      · exact h.flying id r b hr (e.inBatch_before hforms hin)
      · have hstatus := (Return.inBatch_iff.1 hin).2
        simp [(Ledger.accepted_record hadmits).1] at hstatus
  -- a batch the ledger does not know cannot have charged anybody
  · intro id b hnone
    have hbefore : w.state.batches.get b = none := by
      cases hget : w.state.batches.get b with
      | none => rfl
      | some batch =>
          obtain ⟨batch', hafter, -⟩ := @Ledger.batch_persists _ _ retry _ _ hadmits _ _ hget
          cases hnone.symm.trans hafter
    rw [hcount, h.fresh id b hbefore, if_neg]
    intro hcharges
    obtain ⟨r, hr, hname, -⟩ := charges_own.1 hcharges
    obtain ⟨batch, hbatch⟩ := hflight.formed id r b hr hname
    rw [hbefore] at hbatch
    cases hbatch

/-- A moment that charges nothing, and moves no return into a batch, keeps the charges. -/
theorem Charged.beside {w' : History} {moment : Ledger × Moment} (h : Charged sha256 retry w)
    (hpast : w'.past = moment :: w.past)
    (hmoment : ∀ id b, Charges sha256 retry id b moment = false)
    (hin : ∀ id r b, w'.state.returns.get id = some r → r.inBatch b = true →
      w.state.returns.get id = some r)
    (hbatches : w'.state.batches = w.state.batches) : Charged sha256 retry w' := by
  have hcount : ∀ id b, chargesOf sha256 retry w'.past id b = chargesOf sha256 retry w.past id b := by
    intro id b
    rw [chargesOf, hpast, List.countP_cons, hmoment id b]
    rfl
  constructor
  · intro id b
    rw [hcount]
    exact h.once id b
  · intro id r b hr hb
    rw [hcount]
    exact h.flying id r b (hin id r b hr hb) hb
  · intro id b hnone
    rw [hcount]
    exact h.fresh id b (hbatches ▸ hnone)

/-- **Each batch charges a return once at most.** -/
theorem Sound.charged (h : Sound sdk codec retry policy w) (hproving : AssemblesProving w.past) :
    Charged sdk.sha256 retry w := by
  refine System.Guarded.invariant (I := fun w => AssemblesProving w.past →
    Charged sdk.sha256 retry w) ?_ ?_ ?_ ?_ h hproving
  · intro _
    exact ⟨fun _ _ => Nat.zero_le _, fun _ _ _ _ _ => rfl, fun _ _ _ => rfl⟩
  · intro w e hs ih hallowed hadmits hproving
    have hbefore := hproving.mono (List.subset_cons_self _ _)
    exact (ih hbefore).own hs hbefore hallowed hadmits
  · intro w e hs ih hintake hproving
    have haside := @Intake.aside sdk codec retry _ (Sound.ledger hs).1 _ hintake
    refine (ih (hproving.mono (List.subset_cons_self _ _))).beside rfl
      (fun id b => hintake.not_charges id b) (fun id r b hr hin => ?_) haside.batches
    exact haside.inBatch_before hr hin
  · intro w moment hs ih hown hother hproving
    refine (ih (hproving.mono (List.subset_cons_self _ _))).beside rfl (fun id b => ?_)
      (fun _ _ _ hr _ => hr) rfl
    cases moment with
    | own e => exact absurd rfl (hown e)
    | other e => exact absurd rfl (hother e)
    | heard | outside | started => rfl

end Charged

/-! ## The count of attempts -/

/-- The attempts of the returns are within the limit, and those whose attempts are used up are
parked. -/
structure Counted (retry : RetryPolicy) (w : History) : Prop where
  within : ∀ id r, w.state.returns.get id = some r → r.record.attempts ≤ retry.maxAttempts
  spent : ∀ id r, w.state.returns.get id = some r → r.record.attempts = retry.maxAttempts →
    r.record.FailedForGood
  failed : ∀ id r, w.state.returns.get id = some r → r.record.FailedForGood →
    r.record.attempts = retry.maxAttempts ∨ Invalidated w.past id
  invalid : ∀ id r, w.state.returns.get id = some r → Invalidated w.past id →
    r.record.FailedForGood ∧ r.record.attempts < retry.maxAttempts
  known : ∀ id, Invalidated w.past id → ∃ r, w.state.returns.get id = some r

section Counted

variable {w : History}

/-- A return that is not done has attempts left. -/
theorem Counted.room (h : Counted retry w) {id : String} {r : Return}
    (hr : w.state.returns.get id = some r) (hopen : r.isDone = false) :
    r.record.attempts < retry.maxAttempts ∧ ¬ Invalidated w.past id := by
  have hgood : ¬ r.record.FailedForGood := fun hgood => by
    rw [Return.done_of_failedForGood hgood] at hopen
    cases hopen
  constructor
  · exact lt_of_le_of_ne (h.within id r hr) fun hspent => hgood (h.spent id r hr hspent)
  · exact fun hinvalid => hgood (h.invalid id r hr hinvalid).1

/-- **An event keeps the count**, if it excludes no return that is done. -/
theorem Counted.event {e : Event} (h : Counted retry w) (hmax : 0 < retry.maxAttempts)
    (hadmits : e.Admissible sdk codec w.state)
    (hdone : ∀ id r, w.state.returns.get id = some r → r.isDone = true →
      ∀ reason atMs, e ≠ .returnExcluded id reason atMs)
    (hget : ∀ id reason atMs, e = .returnExcluded id reason atMs →
      ∃ r, w.state.returns.get id = some r)
    {past : Past} (hpast : ∀ id, Invalidated past id ↔
      Invalidated w.past id ∨ ∃ message atMs, e = .returnExcluded id (.invalid message) atMs) :
    Counted retry ⟨w.state.apply sdk.sha256 retry e, past⟩ := by
  -- the return after the event, by whether it was done before
  have hafter : ∀ id r', (w.state.apply sdk.sha256 retry e).returns.get id = some r' →
      (w.state.returns.get id = some r' ∧ r'.isDone = true ∧
          (Invalidated past id → Invalidated w.past id)) ∨
        (r'.record.attempts < retry.maxAttempts ∧
          (r'.record.FailedForGood ↔ Invalidated past id)) ∨
        (r'.record.attempts = retry.maxAttempts ∧ r'.record.FailedForGood ∧
          ¬ Invalidated past id) := by
    intro id r' hr'
    rcases Ledger.returns_cases hadmits.ne_snapshot hr' with
      ⟨r, hr, rfl⟩ | ⟨burn, record, rfl, rfl, -, rfl⟩
    -- a return that is done keeps its record: nothing is permitted to exclude it
    · cases hisDone : r.isDone with
      | true =>
          left
          rw [Event.recordAfter_of_done hisDone e (hdone id r hr hisDone)]
          refine ⟨hr, hisDone, fun hinvalid => ((hpast id).1 hinvalid).resolve_right ?_⟩
          rintro ⟨message, atMs, he⟩
          exact hdone id r hr hisDone _ atMs he
      | false =>
          right
          obtain ⟨hroom, hvalid⟩ := h.room hr hisDone
          by_cases hinvalid : ∃ message atMs, e = .returnExcluded id (.invalid message) atMs
          -- excluded for good: no attempt is charged, and the history now says why
          · left
            have hnow : Invalidated past id := (hpast id).2 (.inr hinvalid)
            obtain ⟨message, atMs, rfl⟩ := hinvalid
            simp only [Event.recordAfter, if_true]
            rcases @ReturnRecord.exclude_attempts retry r.record atMs (.invalid message) with
              ⟨hsame, hgood⟩ | ⟨_, hreason, -⟩
            · exact ⟨hsame ▸ hroom, fun _ => hnow, fun _ => hgood.2 ⟨message, rfl⟩⟩
            · cases hreason
          · have hstill : ¬ Invalidated past id := fun hpast' =>
              ((hpast id).1 hpast').elim hvalid hinvalid
            rcases @Event.attempts_cases sdk.sha256 retry w.state id r e with
              ⟨hsame, hgood⟩ | ⟨hcharged, -⟩
            -- no charge: what failed for good by this event was excluded, which is ruled out here
            · refine .inl ⟨hsame ▸ hroom, fun hgood' => ?_, fun hpast' => absurd hpast' hstill⟩
              rcases hgood hgood' with hbefore | hevent
              · rw [Return.done_of_failedForGood hbefore] at hisDone
                cases hisDone
              · exact absurd hevent hinvalid
            -- a charge: either attempts are left, or this was the last and the return is parked
            · have hattempts := hcharged.attempts
              rcases Nat.lt_or_ge (r.record.attempts + 1) retry.maxAttempts with hmore | hlast
              · left
                rw [← hattempts] at hmore
                exact ⟨hmore, fun hgood => absurd hgood (hcharged.open_ hmore),
                  fun hpast' => absurd hpast' hstill⟩
              · right
                rw [← hattempts] at hlast
                have hleast := Nat.succ_le_of_lt hroom
                rw [Nat.succ_eq_add_one, ← hattempts] at hleast
                exact ⟨le_antisymm hleast hlast, hcharged.parked hlast, hstill⟩
    · -- a new return has all of its attempts
      right; left
      obtain ⟨hstatus, -, -, hattempts⟩ := Ledger.accepted_record hadmits
      refine ⟨hattempts ▸ hmax, fun hgood => ?_, fun hinvalid => ?_⟩
      · have hfailed := hgood.1
        rw [hstatus] at hfailed
        cases hfailed
      · rcases (hpast burn.id).1 hinvalid with hbefore | ⟨_, _, he⟩
        · obtain ⟨r, hr⟩ := h.known _ hbefore
          rw [hadmits.2] at hr
          cases hr
        · cases he
  constructor
  · intro id r' hr'
    rcases hafter id r' hr' with ⟨hr, -, -⟩ | ⟨hroom, -⟩ | ⟨hspent, -⟩
    · exact h.within id r' hr
    · exact hroom.le
    · exact hspent.le
  · intro id r' hr' hattempts
    rcases hafter id r' hr' with ⟨hr, -, -⟩ | ⟨hroom, -⟩ | ⟨-, hgood, -⟩
    · exact h.spent id r' hr hattempts
    · exact absurd hattempts hroom.ne
    · exact hgood
  · intro id r' hr' hgood
    rcases hafter id r' hr' with ⟨hr, -, -⟩ | ⟨-, hinvalid⟩ | ⟨hspent, -⟩
    · exact (h.failed id r' hr hgood).imp_right fun hbefore => (hpast id).2 (.inl hbefore)
    · exact .inr (hinvalid.1 hgood)
    · exact .inl hspent
  · intro id r' hr' hinvalid
    rcases hafter id r' hr' with ⟨hr, -, hbefore⟩ | ⟨hroom, hiff⟩ | ⟨-, -, hvalid⟩
    · exact h.invalid id r' hr (hbefore hinvalid)
    · exact ⟨hiff.2 hinvalid, hroom⟩
    · exact absurd hinvalid hvalid
  · intro id hinvalid
    have hbefore : ∃ r, w.state.returns.get id = some r := by
      rcases (hpast id).1 hinvalid with hold | ⟨message, atMs, he⟩
      · exact h.known id hold
      · exact hget id _ atMs he
    obtain ⟨r, hr⟩ := hbefore
    obtain ⟨r', hr', -⟩ := @Ledger.burn_apply _ _ retry _ _ hadmits _ _ hr
    exact ⟨r', hr'⟩

/-- Only a return of the ledger is excluded. -/
theorem Allowed.excludes_known {id : String} {reason : Exclusion} {atMs : Nat}
    (h : Allowed sdk codec retry w (.returnExcluded id reason atMs)) :
    ∃ r, w.state.returns.get id = some r := by
  cases h with
  | recheck may =>
      obtain ⟨r, hr, -⟩ := may
      exact ⟨r, hr⟩
  | run hrun =>
      cases hrun with
      | exclude may =>
          obtain ⟨r, hr, -⟩ := may
          exact ⟨r, hr⟩

/-- **The attempts stay within the limit.** -/
theorem Sound.counted (h : Sound sdk codec retry policy w) (hmax : 0 < retry.maxAttempts)
    (hopen : AssemblesOpen w.past) : Counted retry w := by
  refine System.Guarded.invariant (I := fun w => AssemblesOpen w.past → Counted retry w)
    ?_ ?_ ?_ ?_ h hopen
  · intro _
    have hvalid : ∀ id, ¬ Invalidated [] id := by
      rintro id ⟨_, _, _, hmem⟩
      -- no return, no exclusion
      cases hmem
    exact ⟨fun _ _ hr => (by cases hr), fun _ _ hr => (by cases hr), fun _ _ hr => (by cases hr),
      fun _ _ hr => (by cases hr), fun id hinvalid => absurd hinvalid (hvalid id)⟩
  · intro w e hs ih hallowed hadmits hopen
    have hbefore := hopen.mono (List.subset_cons_self _ _)
    -- own events: none excludes what is done, and the history grows by the event itself
    refine (ih hbefore).event hmax hadmits ?_ ?_ fun id => ?_
    · rintro id r hr hdone reason atMs rfl
      exact Allowed.not_excludes_done hbefore hr hdone hallowed
    · rintro id reason atMs rfl
      exact hallowed.excludes_known
    · constructor
      · rintro ⟨ledger, message, atMs, hmem⟩
        rcases List.mem_cons.1 hmem with heq | hold
        · exact .inr ⟨message, atMs, (Label.own.inj (Prod.mk.inj heq).2).symm⟩
        · exact .inl ⟨ledger, message, atMs, hold⟩
      · rintro (⟨ledger, message, atMs, hold⟩ | ⟨message, atMs, rfl⟩)
        · exact ⟨ledger, message, atMs, List.mem_cons_of_mem _ hold⟩
        · exact ⟨w.state, message, atMs, List.mem_cons_self⟩
  · intro w e hs ih hintake hopen
    refine (ih (hopen.mono (List.subset_cons_self _ _))).event hmax hintake.admissible ?_ ?_
      fun id => ?_
    -- a wallet's events exclude nothing
    · rintro id r - - reason atMs rfl
      exact hintake.not_excludes
    · rintro id reason atMs rfl
      exact absurd hintake Intake.not_excludes
    · constructor
      · rintro ⟨ledger, message, atMs, hmem⟩
        rcases List.mem_cons.1 hmem with heq | hold
        · cases heq
        · exact .inl ⟨ledger, message, atMs, hold⟩
      · rintro (⟨ledger, message, atMs, hold⟩ | ⟨message, atMs, rfl⟩)
        · exact ⟨ledger, message, atMs, List.mem_cons_of_mem _ hold⟩
        · exact absurd hintake Intake.not_excludes
  -- moments without an event
  · intro w moment hs ih hown _ hopen
    have hcounted := ih (hopen.mono (List.subset_cons_self _ _))
    have hpast : ∀ id, Invalidated ((w.state, moment) :: w.past) id ↔ Invalidated w.past id := by
      intro id
      constructor
      · rintro ⟨ledger, message, atMs, hmem⟩
        rcases List.mem_cons.1 hmem with heq | hold
        · exact absurd (Prod.mk.inj heq).2.symm (hown _)
        · exact ⟨ledger, message, atMs, hold⟩
      · rintro ⟨ledger, message, atMs, hold⟩
        exact ⟨ledger, message, atMs, List.mem_cons_of_mem _ hold⟩
    exact ⟨hcounted.within, hcounted.spent,
      fun id r hr hgood => (hcounted.failed id r hr hgood).imp_right (hpast id).2,
      fun id r hr hinvalid => hcounted.invalid id r hr ((hpast id).1 hinvalid),
      fun id hinvalid => hcounted.known id ((hpast id).1 hinvalid)⟩

end Counted

/-! ## Orderly stops -/

section Stops

variable (sdk codec retry policy)

/-- What is allowed and charges nothing. -/
def Free (w : History) (e : Event) : Prop :=
  Allowed sdk codec retry w e ∧
    ∀ id b, Charges sdk.sha256 retry id b (w.state, .own e) = false

/-- An orderly stop and the start after it. The service turns to its stop, or is drained; from there on
nothing but its own steps happens to it, until it has stopped and the next opening has come to its end. -/
inductive OrderlyStop (w₀ : History) : ServiceConfig → Prop where
  | begins (h : (service sdk codec retry policy).Reach
      (⟨w₀, .running (Orchestrator.code sdk codec retry policy .stopping)⟩ : ServiceConfig)) :
      OrderlyStop w₀ ⟨w₀, .running (Orchestrator.code sdk codec retry policy .stopping)⟩
  | drained (h : (service sdk codec retry policy).Reach
      (⟨w₀, .running (.done .stopped)⟩ : ServiceConfig)) :
      OrderlyStop w₀ ⟨w₀, .running (.done .stopped)⟩
  | goes {c c' : ServiceConfig} (h : OrderlyStop w₀ c)
      (hmove : (service sdk codec retry policy).Move (fun _ => False) c c') : OrderlyStop w₀ c'
  | restarts {w w' : History} (h : OrderlyStop w₀ ⟨w, .running (.done .stopped)⟩)
      (hrely : (service sdk codec retry policy).Rely w w') :
      OrderlyStop w₀ ⟨w'.started, .running (Orchestrator.code sdk codec retry policy .opening)⟩

variable {sdk codec retry policy} {w : History}

/-- Where a stop and an opening lead: when it is the end, no batch is proving. -/
def Quiet (w : History) (point : Orchestrator.Point) : Prop :=
  point = .stopped → ∀ b, ¬ w.state.Proving b

/-- The stop interrupts what is proving, and charges nothing. -/
theorem stopping_free (hs : Sound sdk codec retry policy w) :
    (Orchestrator.code sdk codec retry policy .stopping).Ensures (service sdk codec retry policy)
      (Allowed sdk codec retry) (Free sdk codec retry) Quiet w := by
  refine ensures_ask hs fun w₁ atMs _ hs₁ _ => ?_
  have hnone : ∀ w' e, Orchestrator.Interrupts sdk codec retry atMs true w' e →
      Free sdk codec retry w' e := by
    rintro w' e ⟨hallowed, b, rfl⟩
    exact ⟨hallowed, fun id b' => not_charges_stop _ id b' b atMs⟩
  have hfree := (Orchestrator.interruptions_ensures hs₁ atMs true).mono hnone fun _ _ h _ => h
  refine Prog.Ensures.bind hfree fun w₂ _ hafter hs₂ => ?_
  exact ensures_end hs₂ fun w' hsince _ _ b hb => hafter.1 b (hsince.aside.proving_iff.1 hb)

/-- A start that finds no batch proving has nothing to interrupt. -/
theorem opening_free (hs : Sound sdk codec retry policy w) (hnone : ∀ b, ¬ w.state.Proving b) :
    (Orchestrator.code sdk codec retry policy .opening).Ensures (service sdk codec retry policy)
      (Allowed sdk codec retry) (Free sdk codec retry) Quiet w := by
  refine ensures_ask hs fun w₁ atMs hsince₁ hs₁ _ => ?_
  have hnothing : (ReturnStore.recover atMs).Ensures (service sdk codec retry policy)
      (Allowed sdk codec retry) (Free sdk codec retry) (fun _ _ => True) w₁ := by
    refine ensures_look hs₁ fun w₂ hsince₂ hs₂ => ?_
    obtain ⟨hindexed, hflight⟩ := Sound.ledger hs₂
    rcases hflight.interruptions hindexed atMs false with ⟨hnil, -⟩ | ⟨b, -, hproving⟩
    · have hempty : w₂.state.recover atMs = [] := hnil
      rw [hempty]
      exact ensures_end hs₂ fun _ _ _ => trivial
    · exact absurd ((hsince₁.trans hsince₂).aside.proving_iff.1 hproving) (hnone b)
  refine Prog.Ensures.bind hnothing fun w₂ _ _ hs₂ => ?_
  refine ensures_look hs₂ fun w₃ _ hs₃ => ?_
  exact ensures_end hs₃ fun _ _ _ hstopped => by cases hstopped

/-- What charges nothing leaves the count. -/
theorem chargesOf_grows {w' : History}
    (h : Relation.ReflTransGen ((service sdk codec retry policy).Grows (Free sdk codec retry)) w w')
    (id b : String) :
    chargesOf sdk.sha256 retry w'.past id b = chargesOf sdk.sha256 retry w.past id b := by
  induction h with
  | refl => rfl
  | tail _ hone ih =>
      rw [← ih]
      cases hone with
      | own hfree => exact List.countP_cons_of_neg (by simp [hfree.2 id b])
      | other hintake => exact List.countP_cons_of_neg (by simp [hintake.not_charges id b])
      | heard | outside | started => exact List.countP_cons_of_neg (by simp [Charges])

theorem OrderlyStop.moves {w₀ : History} {c c' : ServiceConfig}
    (h : OrderlyStop sdk codec retry policy w₀ c)
    (hmoves : Relation.ReflTransGen ((service sdk codec retry policy).Move fun _ => False) c c') :
    OrderlyStop sdk codec retry policy w₀ c' := by
  induction hmoves with
  | refl => exact h
  | tail _ hmove ih => exact ih.goes hmove

/-- An orderly stop is a part of a run: the process ends when it has stopped. -/
theorem OrderlyStop.reach {w₀ : History} {c : ServiceConfig}
    (h : OrderlyStop sdk codec retry policy w₀ c) : (service sdk codec retry policy).Reach c := by
  induction h with
  | begins hreach | drained hreach => exact hreach
  | goes _ hmove ih => exact ih.trans hmove.steps
  | @restarts w w' _ hrely ih =>
      exact ((ih.trans (System.rely_steps hrely)).tail .crash).tail .start

/-- **An orderly stop** leaves its charges, step by step. -/
theorem OrderlyStop.free {w₀ : History} {c : ServiceConfig}
    (h : OrderlyStop sdk codec retry policy w₀ c) :
    Sound sdk codec retry policy c.world ∧
      Relation.ReflTransGen ((service sdk codec retry policy).Grows (Free sdk codec retry)) w₀ c.world ∧
      ∃ prog, c.task = .running prog ∧ prog.Ensures (service sdk codec retry policy)
        (Allowed sdk codec retry) (Free sdk codec retry) Quiet c.world := by
  induction h with
  | begins hreach =>
      have hs := reach_sound hreach
      exact ⟨hs, .refl, _, rfl, stopping_free hs⟩
  | drained hreach =>
      obtain ⟨hs, htask⟩ := reach_holds hreach
      exact ⟨hs, .refl, _, rfl, fun w' hrely hs' _ => htask w' hrely hs'⟩
  | @goes c c' _ hmove ih =>
      obtain ⟨hs, hgrows, prog, htask, hensures⟩ := ih
      obtain ⟨w, task⟩ := c
      obtain rfl : task = .running prog := htask
      obtain ⟨hs', hmore, hrest⟩ := hensures.move (fun _ _ hfree => hfree.1) hs hmove
      exact ⟨hs', hgrows.trans hmore, hrest⟩
  | @restarts w w' _ hrely ih =>
      obtain ⟨hs, hgrows, prog, htask, hensures⟩ := ih
      obtain rfl := Task.running.inj htask
      have hs' := hs.rely hrely
      have hstarted : Sound sdk codec retry policy w'.started := .started hs'
      refine ⟨hstarted, (hgrows.trans hrely.grows).tail .started, _, rfl, ?_⟩
      exact opening_free hstarted (hensures w' hrely hs' rfl)

end Stops

/-- **Attempt accounting.** In a run in which no burn is assembled after its return has left the batch:
each batch charges a return one attempt at most; an orderly stop charges none, neither by what it
interrupts nor when the service starts again; and the attempts of a return never exceed `max_attempts`,
which they reach exactly when the return is parked. -/
theorem attempts_accounted {c : ServiceConfig} (h : (service sdk codec retry policy).Reach c)
    (hmax : 0 < retry.maxAttempts) (hproving : AssemblesProving c.world.past) :
    (∀ id b, chargesOf sdk.sha256 retry c.world.past id b ≤ 1) ∧
    (∀ ledger b atMs, (ledger, Label.own (.batchInterrupted b atMs true)) ∈ c.world.past →
      ∀ id b', Charges sdk.sha256 retry id b' (ledger, .own (.batchInterrupted b atMs true)) = false) ∧
    (∀ w₀, OrderlyStop sdk codec retry policy w₀ c → ∀ id b,
      chargesOf sdk.sha256 retry c.world.past id b = chargesOf sdk.sha256 retry w₀.past id b) ∧
    ∀ id r, c.world.state.returns.get id = some r → r.record.attempts ≤ retry.maxAttempts ∧
      (r.record.attempts = retry.maxAttempts ↔ Parked c.world.past id r) := by
  have hs := reach_sound h
  have hcounted := hs.counted hmax hproving.opens
  refine ⟨(hs.charged hproving).once, ?_, ?_, fun id r hr => ⟨hcounted.within id r hr, ?_⟩⟩
  · exact fun ledger b atMs _ id b' => not_charges_stop ledger id b' b atMs
  · intro w₀ hstop id b
    obtain ⟨-, hgrows, -⟩ := hstop.free
    exact chargesOf_grows hgrows id b
  · constructor
    · intro hspent
      refine ⟨hcounted.spent id r hr hspent, fun hinvalid => ?_⟩
      have hroom := (hcounted.invalid id r hr hinvalid).2
      omega
    · rintro ⟨hgood, hvalid⟩
      exact (hcounted.failed id r hr hgood).resolve_right hvalid

end Attempts

/-! ## A refusal and a stop -/

namespace Sample

open Guest.Sample (Coin sdk)
open Wire.Sample (codec)

theorem refused_attempts : (refused ⟨1, 1, 1⟩).record.attempts = 1 := by
  show ((entered .whole).record.scheduleRetry 0 .submissionFailed _ ⟨1, 1, 1⟩).attempts = 1
  rw [((entered .whole).record.scheduleRetry_charged 0 _ _).attempts]
  rfl

/-- The batch is interrupted by an orderly stop. -/
def stopped (retry : RetryPolicy) : History :=
  ((forming retry).heard .now (0 : Nat)).own (service sdk codec retry policy)
    (.batchInterrupted batch.id 0 true)

section Stopped

variable {retry : RetryPolicy}

/-- The service is asked to stop while it waits for the log of the vault. -/
theorem reach_stopping : (service sdk codec retry policy).Reach
    (⟨forming retry, .running (Orchestrator.code sdk codec retry policy .stopping)⟩ : ServiceConfig) :=
  (((reach_forming retry).tail (.goto _)).tail (.quiet rfl)).tail (.abort rfl)

theorem stop_forming : (forming retry).state.stop 0 = [.batchInterrupted batch.id 0 true] := by
  obtain ⟨hindexed, hflight⟩ := Sound.ledger (reach_sound (reach_forming retry))
  have hkeeps := keeps_forming retry
  rcases hflight.interruptions hindexed 0 true with ⟨-, hnone⟩ | ⟨b, hone, other, hother, -⟩
  · exact absurd ⟨batch, hkeeps.batch, rfl⟩ (hnone batch.id)
  · obtain rfl := hkeeps.only b other hother
    exact hone

theorem stopping_can : (Orchestrator.code sdk codec retry policy .stopping).CanEnd
    (service sdk codec retry policy) (fun w' point => w' = stopped retry ∧ point = .stopped)
      (forming retry) := by
  apply Prog.canEnd_query (0 : Nat)
  have hstop : ((forming retry).heard .now (0 : Nat)).state.stop 0 =
      [.batchInterrupted batch.id 0 true] := stop_forming
  show Prog.CanEnd _ _ (ReturnStore.applyAll (((forming retry).heard .now (0 : Nat)).state.stop 0) >>=
    fun _ => pure Orchestrator.Point.stopped) _
  rw [hstop]
  exact ⟨trivial, rfl, rfl⟩

/-- **The stop**, and the start after it. -/
theorem restarting : OrderlyStop sdk codec retry policy (forming retry)
    ⟨(stopped retry).started, .running (Orchestrator.code sdk codec retry policy .opening)⟩ := by
  obtain ⟨w, point, ⟨rfl, rfl⟩, hturns⟩ :=
    @Prog.CanEnd.turns _ _ _ _ _ _ _ (fun _ => False) _ _ _ stopping_can
  exact .restarts (OrderlyStop.moves (.begins reach_stopping) (System.turns_moves hturns)) .refl

theorem stopped_interrupts : ((forming retry).state, Label.own (.batchInterrupted batch.id 0 true)) ∈
    (stopped retry).started.past :=
  List.mem_cons_of_mem _ List.mem_cons_self

end Stopped

end Sample

/-- A return that the simulation refused has its one attempt and is parked; a batch that an orderly stop
interrupts charges nothing, also when the service starts again. -/
theorem attempts_accounted_sample :
    (∃ (w : History) (r : Return), w.state.returns.get (Sample.id .whole) = some r ∧
      r.record.attempts = 1 ∧ Parked w.past (Sample.id .whole) r ∧
      chargesOf Guest.Sample.sdk.sha256 ⟨1, 1, 1⟩ w.past (Sample.id .whole) Sample.batch.id ≤ 1) ∧
    ∃ c' : ServiceConfig, OrderlyStop Guest.Sample.sdk Wire.Sample.codec ⟨1, 1, 1⟩ Sample.policy
        (Sample.forming ⟨1, 1, 1⟩) c' ∧
      (∃ ledger, (ledger, Label.own (.batchInterrupted Sample.batch.id 0 true)) ∈ c'.world.past) ∧
      ∀ id b, chargesOf Guest.Sample.sdk.sha256 ⟨1, 1, 1⟩ c'.world.past id b =
        chargesOf Guest.Sample.sdk.sha256 ⟨1, 1, 1⟩ (Sample.forming ⟨1, 1, 1⟩).past id b := by
  refine ⟨?_, _, Sample.restarting, ⟨_, Sample.stopped_interrupts⟩, ?_⟩
  · obtain ⟨w, hfirst, hkeeps, hassemblies⟩ := Sample.first_round ⟨1, 1, 1⟩ Nat.one_pos
    have hreach := (Sample.reach_forming ⟨1, 1, 1⟩).trans (System.turns_steps hfirst)
    have hproving : AssemblesProving w.past := fun _ _ hassembled =>
      Sample.assembledAs_status ⟨1, 1, 1⟩ hassemblies hassembled
    obtain ⟨honce, -, -, hcount⟩ := attempts_accounted hreach Nat.one_pos hproving
    have hr := hkeeps.get _ List.mem_cons_self
    obtain ⟨-, hparked⟩ := hcount _ _ hr
    exact ⟨w, _, hr, Sample.refused_attempts, hparked.1 Sample.refused_attempts, honce _ _⟩
  · have hnothing : assembliesOf (Sample.stopped ⟨1, 1, 1⟩).started.past = [] := rfl
    have hproving : AssemblesProving (Sample.stopped ⟨1, 1, 1⟩).started.past := by
      rintro id r ⟨ledger, burns, acc, rejected, answer, hmem, -⟩
      have hledger : ledger ∈ assembliesOf (Sample.stopped ⟨1, 1, 1⟩).started.past :=
        List.mem_filterMap.2 ⟨_, hmem, rfl⟩
      rw [hnothing] at hledger
      cases hledger
    have hstop := @Sample.restarting ⟨1, 1, 1⟩
    obtain ⟨-, -, hstops, -⟩ := attempts_accounted hstop.reach Nat.one_pos hproving
    exact hstops _ hstop

/-- A return that the simulation refused is charged another attempt in the same batch. -/
theorem attempts_accounted_counterexample :
    ∃ (c : ServiceConfig) (r : Return),
      (service Guest.Sample.sdk Wire.Sample.codec ⟨1, 1, 1⟩ Sample.policy).Reach c ∧
      c.world.state.returns.get (Sample.id .whole) = some r ∧ r.record.attempts = 2 ∧
      ∀ b other, c.world.state.batches.get b = some other → b = Sample.batch.id := by
  obtain ⟨w, hfirst, hkeeps, -⟩ := Sample.first_round ⟨1, 1, 1⟩ Nat.one_pos
  -- the second round refuses the burn again
  have hnew : Guest.Sample.word Guest.Sample.Coin.left.number ∉
      (Sample.treeOf Sample.foreign).keys := by decide
  obtain ⟨w', ledger, assembled, hturns, -, -, -, hsettled⟩ := Sample.second_round ⟨1, 1, 1⟩ hkeeps
    (Sample.verdict_refused _) (Sample.verdict_others hnew) hnew (Sample.rules_rejected _)
  have hlater := hsettled.get _ List.mem_cons_self
  rw [Sample.ruled_some] at hlater
  refine ⟨_, _, (Sample.reach_forming ⟨1, 1, 1⟩).trans (System.turns_steps (hfirst.trans hturns)),
    hlater, ?_, hsettled.only⟩
  show ((Sample.refused ⟨1, 1, 1⟩).record.scheduleRetry 0 .submissionFailed _ ⟨1, 1, 1⟩).attempts = 2
  rw [((Sample.refused ⟨1, 1, 1⟩).record.scheduleRetry_charged 0 _ _).attempts, Sample.refused_attempts]

end UnicityBridge.Service
