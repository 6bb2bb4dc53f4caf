import UnicityBridge.Service.Api
import UnicityBridge.Service.Outcomes

/-!
# Posting a burn

What the handlers of `api.rs` come to while the orchestrator and each other change the ledger between
their steps. They commit only what intake takes (`hosted_reach`), and whatever intake takes they can
commit (`reach_hosted`): the runs of the service with its handlers at work are those of the service with
intake beside it.

A post is idempotent: a nullifier keeps its return from the first answer on, and a later post of it is
answered with this return whatever the fees and the queue are by then (`resubmission`).
-/

set_option autoImplicit false

namespace UnicityBridge.Service

open UnicityBridge.Lib
open UnicityBridge.Core (ReturnLeaf)

/-! ## The id of a record -/

namespace ReturnRecord

variable (record : ReturnRecord) (status : ReturnStatus) (atMs : Nat) (message : String)
  (retry : RetryPolicy)

@[simp] theorem transition_returnId :
    (record.transition status atMs).returnId = record.returnId := by
  cases status <;> rfl

@[simp] theorem transitionWith_returnId :
    (record.transitionWith status atMs message).returnId = record.returnId := by
  cases status <;> rfl

@[simp] theorem scheduleRetry_returnId (kind : ErrorKind) :
    (record.scheduleRetry atMs kind message retry).returnId = record.returnId := by
  simp only [scheduleRetry]
  split <;> simp

@[simp] theorem settle_returnId (txid : Option String) :
    (record.settle atMs txid).returnId = record.returnId := by
  cases txid <;> simp [settle]

@[simp] theorem interrupt_returnId (orderly : Bool) :
    (record.interrupt atMs orderly retry).returnId = record.returnId := by
  unfold interrupt
  split
  · rfl
  · split
    · simp [requeueAfterStop]
    · simp only [scheduleAfterInterruption]
      split <;> simp

@[simp] theorem exclude_returnId (reason : Exclusion) :
    (record.exclude atMs reason retry).returnId = record.returnId := by
  unfold exclude
  split
  · simp
  · simp only
    split <;> simp
  · simp
  · simp

@[simp] theorem requeue_returnId : (record.requeue atMs retry).returnId = record.returnId := by
  unfold requeue
  split
  · simp
  · split <;> simp

end ReturnRecord

theorem Event.recordAfter_returnId (sha256 : Bytes → Bytes32) (retry : RetryPolicy) (ledger : Ledger)
    (id : String) (r : Return) (e : Event) :
    (e.recordAfter sha256 retry ledger id r).returnId = r.record.returnId := by
  cases e with
  | snapshot | accepted => rfl
  | _ =>
      simp only [recordAfter]
      split <;> simp [ReturnRecord.enter, ReturnRecord.rebase]

section Posts

variable {sdk : TokenSdk.Sdk} {codec : Wire.Codec} {retry : RetryPolicy} {policy : BatchPolicy}
  {hexError : String → String} {deployed : AppState → Prop} {ledger : Ledger}

/-- Every record names the id that its return is kept under. -/
def Ledger.Named (ledger : Ledger) : Prop :=
  ∀ id r, ledger.returns.get id = some r → r.record.returnId = id

theorem Ledger.Named.apply (h : ledger.Named) {e : Event} (he : e.Admissible sdk codec ledger) :
    (ledger.apply sdk.sha256 retry e).Named := by
  intro id r' hr'
  rcases Ledger.returns_cases he.ne_snapshot hr' with
    ⟨r, hr, rfl⟩ | ⟨burn, record, rfl, rfl, -, rfl⟩
  · exact (Event.recordAfter_returnId _ _ _ _ _ _).trans (h id r hr)
  · obtain ⟨⟨wireInput, nowMs, hcreate⟩, -⟩ := he
    obtain ⟨-, leaf, -, rfl⟩ := prechecked_of_createReturn hcreate
    rfl

/-! ## The ledger as a handler sees it -/

/-- The nullifier belongs to this return. -/
def Ledger.Holds (nullifier id : String) (ledger : Ledger) : Prop :=
  ledger.byNullifier.get nullifier = some id

/-- **A nullifier keeps its return**, whatever is committed. -/
theorem Ledger.Holds.apply {nullifier id : String} (h : ledger.Holds nullifier id) {e : Event}
    (he : e.Admissible sdk codec ledger) : (ledger.apply sdk.sha256 retry e).Holds nullifier id := by
  by_cases haccepted : ∃ burn record, e = .accepted burn record
  · obtain ⟨burn, record, rfl⟩ := haccepted
    exact Ledger.byNullifier_accept h
  · rw [Holds, Ledger.byNullifier_apply e he.ne_snapshot fun burn record heq =>
      haccepted ⟨burn, record, heq⟩]
    exact h

/-- What is known of every ledger. -/
structure Ledger.Orderly (sdk : TokenSdk.Sdk) (codec : Wire.Codec) (ledger : Ledger) : Prop where
  indexed : ledger.Indexed sdk codec
  named : ledger.Named

theorem Ledger.Orderly.apply (h : ledger.Orderly sdk codec) {e : Event}
    (he : e.Admissible sdk codec ledger) : (ledger.apply sdk.sha256 retry e).Orderly sdk codec :=
  ⟨h.indexed.apply he, h.named.apply he⟩

section Seen

variable {law : Ledger → Event → Prop} {guard : History → Event → Prop} {w w' : History}

theorem Guarded.orderly (h : ((service sdk codec retry policy).seen law).Guarded guard w) :
    w.state.Orderly sdk codec := by
  refine System.Guarded.invariant (I := fun w => w.state.Orderly sdk codec) ?_ ?_ ?_ ?_ h
  · exact ⟨Ledger.indexed_empty sdk codec, fun _ _ hget => by cases hget⟩
  · exact fun w e _ ih _ hadmits => ih.apply hadmits.1
  · exact fun w e _ ih hadmits => ih.apply hadmits.1
  · exact fun w _ _ ih _ _ => ih

theorem Rely.holds {nullifier id : String}
    (h : ((service sdk codec retry policy).seen law).Rely w w') (hholds : w.state.Holds nullifier id) :
    w'.state.Holds nullifier id :=
  System.Rely.given (Ledger.Holds nullifier id)
    (fun _ _ hadmits _ hholds => Ledger.Holds.apply hholds hadmits) h hholds

end Seen

/-- The return that holds a nullifier. -/
theorem Ledger.Orderly.owner (h : ledger.Orderly sdk codec) {nullifier id : String}
    (hholds : ledger.Holds nullifier id) :
    ∃ r, ledger.returns.get id = some r ∧ r.burn.id = id ∧ r.record.returnId = id ∧
      r.record.nullifier = nullifier := by
  obtain ⟨r, hr, hnullifier⟩ := h.indexed.owner nullifier id hholds
  refine ⟨r, hr, h.indexed.id_eq id r hr, h.named id r hr, ?_⟩
  rw [h.indexed.nullifier_eq id r hr, hnullifier]

/-- The record that the store answers for a nullifier. -/
theorem Ledger.Orderly.record (h : ledger.Orderly sdk codec) {nullifier id : String}
    (hholds : ledger.Holds nullifier id) :
    ∃ view, ledger.record id = some view ∧ view.record.returnId = id ∧
      view.record.nullifier = nullifier := by
  obtain ⟨r, hr, -, hid, hnullifier⟩ := h.owner hholds
  have hrecord : ∃ view, ledger.record id = some view ∧ view.record = r.record := by
    rw [Ledger.record, hr]
    exact ⟨_, rfl, rfl⟩
  obtain ⟨view, hview, hsame⟩ := hrecord
  exact ⟨view, hview, hsame ▸ hid, hsame ▸ hnullifier⟩

/-- A nullifier that the store knows belongs to a return. -/
theorem Ledger.Orderly.holds (h : ledger.Orderly sdk codec) {nullifier : Bytes32} {known : Return}
    (hknown : ledger.returnOf (hex32 nullifier) = some known) :
    ledger.Holds (hex32 nullifier) known.burn.id := by
  obtain ⟨id, hid, hget⟩ := Option.bind_eq_some_iff.1 hknown
  rw [toLowercase_hex32] at hid
  obtain rfl := h.indexed.id_eq id known hget
  exact hid

theorem Ledger.Orderly.returnOf (h : ledger.Orderly sdk codec) {nullifier : Bytes32} {id : String}
    (hholds : ledger.Holds (hex32 nullifier) id) :
    ∃ known, ledger.returnOf (hex32 nullifier) = some known ∧ known.burn.id = id := by
  obtain ⟨r, hr, hid, -⟩ := h.owner hholds
  refine ⟨r, ?_, hid⟩
  rw [Ledger.returnOf, toLowercase_hex32]
  exact Option.bind_eq_some_iff.2 ⟨id, hholds, hr⟩

/-- A burn whose nullifier is new gets it. -/
theorem Ledger.Orderly.holds_accept (h : ledger.Orderly sdk codec) {nullifier : Bytes32} {burn : Burn}
    {record : ReturnRecord} (hrecord : record.nullifier = hex32 nullifier)
    (hnew : ledger.returnOf (hex32 nullifier) = none) :
    (ledger.accept burn record).Holds (hex32 nullifier) burn.id := by
  have hunknown : ledger.byNullifier.get (hex32 nullifier) = none := by
    cases hid : ledger.byNullifier.get (hex32 nullifier) with
    | none => rfl
    | some id =>
        have hholds : ledger.Holds (hex32 nullifier) id := hid
        obtain ⟨known, hknown, -⟩ := h.returnOf hholds
        rw [hnew] at hknown
        cases hknown
  have hcontains : ledger.byNullifier.contains (toLowercase record.nullifier) = false := by
    rw [hrecord, toLowercase_hex32, Dict.contains, hunknown]
    rfl
  rw [Holds, Ledger.accept]
  simp only [hcontains, Bool.false_eq_true, if_false]
  rw [hrecord, toLowercase_hex32, Dict.get_insert_self]

/-! ## What a post commits -/

/-- A post that has passed the checks that do not ask the store, under settings of the service. -/
structure Submitted (sdk : TokenSdk.Sdk) (codec : Wire.Codec) (hexError : String → String)
    (deployed : AppState → Prop) (request : AppState × Request) (s : Submission) : Prop where
  deployed : deployed request.1
  posted : ∃ req, request.2 = .createReturn req ∧
    submission sdk codec hexError request.1 req = some (.ok s)

theorem decodeHex_hexText (hexError : String → String) (bytes : Bytes) :
    decodeHex hexError (hexText bytes) = .ok bytes := by
  rw [decodeHex, hexBytes_hexText]
  rfl

/-- A submission is a prechecked input of one leaf. -/
theorem submission_eq_ok {state : AppState} {req : CreateReturnRequest} {s : Submission}
    (h : submission sdk codec hexError state req = some (.ok s)) :
    buildWireInput sdk codec hexError state req = .ok (some s.wireInput) ∧
      Precheck.precheckWire sdk codec s.wireInput = some (.ok s.report) ∧
        Wire.decodeGuestInput sdk codec s.wireInput = .ok s.input ∧ s.input.returnLeaves = [s.leaf] ∧
          checkConfig state s.report.publicValues.configHash = .ok () := by
  unfold submission at h
  split at h
  · cases h
  · cases h
  · next wireInput hbuild =>
    split at h
    · cases h
    · cases h
    · next report hprecheck =>
      simp only [admitted, Option.some.injEq, bind_eq_ok, mapError_eq_ok] at h
      obtain ⟨input, hdecode, h⟩ := h
      split at h
      · next leaf hleaf =>
        simp only [bind_eq_ok] at h
        obtain ⟨⟨⟩, hconfig, h⟩ := h
        cases h
        exact ⟨hbuild, hprecheck, hdecode, hleaf, hconfig⟩
      · cases h

/-- Intake takes what was submitted. -/
theorem createReturn_submission {state : AppState} {req : CreateReturnRequest} {s : Submission}
    (h : submission sdk codec hexError state req = some (.ok s)) (nowMs : Nat) :
    createReturn sdk codec s.wireInput nowMs = some (s.burn sdk, s.record sdk nowMs) := by
  obtain ⟨-, hprecheck, hdecode, hleaf, -⟩ := submission_eq_ok h
  simp only [createReturn, hprecheck, hdecode, hleaf]
  rfl

/-- The clock was read. -/
def Clock.Said (heard : List (Heard Query Query.Answer)) (nowMs : Nat) : Prop :=
  (⟨.now, nowMs⟩ : Heard Query Query.Answer) ∈ heard

/-- What a handler may commit: a submission that the store does not have, if its fee was good when the
clock was read, or another try for one that failed. -/
def Commits (sdk : TokenSdk.Sdk) (codec : Wire.Codec) (hexError : String → String)
    (deployed : AppState → Prop) (request : AppState × Request)
    (heard : List (Heard Query Query.Answer)) (ledger : Ledger) (e : Event) : Prop :=
  ∃ s createdAtMs nowMs, Submitted sdk codec hexError deployed request s ∧
    ReturnStore.acceptWithin ledger (s.burn sdk) (s.record sdk createdAtMs) nowMs
        request.1.maxPending = some e ∧
      ∀ burn record, e = .accepted burn record → burn = s.burn sdk ∧
        ∃ readMs, Clock.Said heard readMs ∧
          request.1.fee.refusal s.leaf (UInt64.ofNat (readMs / 1000)) = none

/-- The store takes a burn that it does not have, or requeues the one that it has. -/
theorem acceptWithin_cases {burn : Burn} {record : ReturnRecord} {nowMs max : Nat} {e : Event}
    (h : ReturnStore.acceptWithin ledger burn record nowMs max = some e) :
    (∃ known, ledger.returnOf record.nullifier = some known ∧ e = .requeued known.burn.id nowMs) ∨
      ledger.returnOf record.nullifier = none ∧ ledger.unfinished < max ∧ e = .accepted burn record := by
  unfold ReturnStore.acceptWithin at h
  split at h
  · next known hknown =>
    split at h
    · exact .inl ⟨known, hknown, (Option.some.inj h).symm⟩
    · cases h
  · next hknown =>
    split at h
    · cases h
    · next hroom => exact .inr ⟨hknown, by omega, (Option.some.inj h).symm⟩

/-- A new burn is taken while there is room. -/
theorem acceptWithin_new {burn : Burn} {record : ReturnRecord} {nowMs max : Nat}
    (hnew : ledger.returnOf record.nullifier = none) (hroom : ledger.unfinished < max) :
    ReturnStore.acceptWithin ledger burn record nowMs max = some (.accepted burn record) := by
  rw [ReturnStore.acceptWithin, hnew]
  exact if_neg (Nat.not_le.2 hroom)

theorem Commits.intake {request : AppState × Request} {heard : List (Heard Query Query.Answer)}
    {e : Event} (h : Commits sdk codec hexError deployed request heard ledger e)
    (hadmits : e.Admissible sdk codec ledger) : Intake sdk codec ledger e := by
  obtain ⟨s, createdAtMs, nowMs, ⟨-, req, -, hsubmission⟩, haccept, -⟩ := h
  rcases acceptWithin_cases haccept with ⟨known, hknown, rfl⟩ | ⟨hknown, hroom, rfl⟩
  · -- the time in a record that is not used may be any
    refine ⟨s.wireInput, nowMs, _, _, request.1.maxPending, createReturn_submission hsubmission nowMs,
      ?_, hadmits⟩
    have hknown' : ledger.returnOf (s.record sdk nowMs).nullifier = some known := hknown
    rw [ReturnStore.acceptWithin, hknown] at haccept
    rw [ReturnStore.acceptWithin, hknown']
    exact haccept
  · refine ⟨s.wireInput, createdAtMs, _, _, request.1.maxPending,
      createReturn_submission hsubmission createdAtMs, ?_, hadmits⟩
    exact acceptWithin_new hknown hroom

/-! ## What a handler ensures -/

/-- What an answered post says of the ledger, now and later. -/
def Stands (sdk : TokenSdk.Sdk) (codec : Wire.Codec) (hexError : String → String) (ledger : Ledger)
    (request : AppState × Request) (_ : List (Heard Query Query.Answer))
    (answer : Except ApiError Response) : Prop :=
  ∀ req body, request.2 = .createReturn req → answer = .ok (.created body) →
    ∃ s, submission sdk codec hexError request.1 req = some (.ok s) ∧
      body.nullifier = hex32 s.leaf.nullifier ∧ ledger.Holds body.nullifier body.returnId

/-- The record of a return, as it was promised to the wallet. -/
def RecordView.Is (view : RecordView) (nullifier id : String) : Prop :=
  view.record.returnId = id ∧ view.record.nullifier = nullifier

/-- What is answered about a nullifier that a return holds already. -/
structure Repeats (sdk : TokenSdk.Sdk) (codec : Wire.Codec) (hexError : String → String)
    (nullifier id : String) (_ : Ledger) (request : AppState × Request)
    (_ : List (Heard Query Query.Answer)) (answer : Except ApiError Response) : Prop where
  /-- another post is answered with the return -/
  post : ∀ req s, request.2 = .createReturn req →
    submission sdk codec hexError request.1 req = some (.ok s) → hex32 s.leaf.nullifier = nullifier →
      ∃ body, answer = .ok (.created body) ∧ body.nullifier = nullifier ∧ body.returnId = id
  /-- the wallet can poll the return -/
  poll : request.2 = .getReturn id → ∃ view, answer = .ok (.record view) ∧ view.Is nullifier id
  /-- and find it by its nullifier -/
  find : request.2 = .getReturnByNullifier nullifier →
    ∃ view, answer = .ok (.found (some view)) ∧ view.Is nullifier id

/-- What the store answers to a submission: the record of the return that holds its nullifier. -/
def Submission.Answers (s : Submission) (ledger : Ledger) (taken : Option (RecordView × Bool)) : Prop :=
  ∀ view inserted, taken = some (view, inserted) →
    view.record.nullifier = hex32 s.leaf.nullifier ∧
      ledger.Holds (hex32 s.leaf.nullifier) view.record.returnId

/-- The handlers' view of the service. -/
abbrev Beside (sdk : TokenSdk.Sdk) (codec : Wire.Codec) (retry : RetryPolicy) (policy : BatchPolicy)
    (law : Ledger → Event → Prop) : System Ledger Event Query Query.Answer Orchestrator.Point :=
  (service sdk codec retry policy).seen law

section Handlers

variable {law : Ledger → Event → Prop} {w : History}

/-- **What the store returns.** A submission that was taken, or whose nullifier a return holds, is
answered by the record of this return; only a new one can find the store full. -/
theorem taken_eq {s : Submission} {createdAtMs max : Nat} {before after : Ledger}
    (hbefore : before.Orderly sdk codec) (hafter : after.Orderly sdk codec)
    (hkeeps : ∀ nullifier id, before.Holds nullifier id → after.Holds nullifier id)
    (hnew : before.returnOf (hex32 s.leaf.nullifier) = none → before.unfinished < max →
      after = before.apply sdk.sha256 retry (.accepted (s.burn sdk) (s.record sdk createdAtMs))) :
    ∃ taken, ReturnStore.taken (s.burn sdk) (s.record sdk createdAtMs) max before after = pure taken ∧
      s.Answers after taken ∧
        ∀ id, before.Holds (hex32 s.leaf.nullifier) id →
          ∃ view inserted, taken = some (view, inserted) ∧ view.record.returnId = id := by
  have hnullifier : (s.record sdk createdAtMs).nullifier = hex32 s.leaf.nullifier := rfl
  rw [ReturnStore.taken, hnullifier]
  cases hknown : before.returnOf (hex32 s.leaf.nullifier) with
  | some known =>
      -- the store had a return for the nullifier, which is found again behind the step
      have hholds := hbefore.holds hknown
      obtain ⟨view, hview, hid, hsame⟩ := hafter.record (hkeeps _ _ hholds)
      refine ⟨some (view, known.record.failedRecoverably), ?_, ?_, ?_⟩
      · simp only [hview]
      · intro view' inserted heq
        cases heq
        rw [hid]
        exact ⟨hsame, hkeeps _ _ hholds⟩
      · intro id hother
        refine ⟨view, _, rfl, ?_⟩
        rw [hid]
        exact Option.some.inj (hholds.symm.trans hother)
  | none =>
      have hunheld : ∀ id, ¬ before.Holds (hex32 s.leaf.nullifier) id := by
        intro id hholds
        obtain ⟨known, hsome, -⟩ := hbefore.returnOf hholds
        rw [hknown] at hsome
        cases hsome
      -- a new nullifier: refused for a full queue, or accepted
      by_cases hfull : max ≤ before.unfinished
      · refine ⟨none, if_pos hfull, fun _ _ heq => (by cases heq), fun id hholds => ?_⟩
        exact absurd hholds (hunheld id)
      · have hholds : after.Holds (hex32 s.leaf.nullifier) (s.burn sdk).id := by
          rw [hnew hknown (Nat.not_le.1 hfull)]
          exact hbefore.holds_accept hnullifier hknown
        obtain ⟨view, hview, hid, hsame⟩ := hafter.record hholds
        refine ⟨some (view, true), ?_, ?_, fun id hother => absurd hother (hunheld id)⟩
        · simp only [if_neg hfull, hview]
        · intro view' inserted heq
          cases heq
          rw [hid]
          exact ⟨hsame, hholds⟩

theorem Clock.Said.rely {w w' : History} {nowMs : Nat} (h : Clock.Said w.answers nowMs)
    (hrely : (Beside sdk codec retry policy law).Rely w w') : Clock.Said w'.answers nowMs := by
  rw [System.Rely.answers hrely]
  exact h

theorem Clock.Said.heard {w : History} {nowMs : Nat} (h : Clock.Said w.answers nowMs)
    (question : Query) (answer : question.Answer) : Clock.Said (w.heard question answer).answers nowMs :=
  List.mem_cons_of_mem _ h

/-- The events that a post's handler may commit, from what it has heard. -/
abbrev MayCommit (sdk : TokenSdk.Sdk) (codec : Wire.Codec) (hexError : String → String)
    (deployed : AppState → Prop) (request : AppState × Request) (w : History) (e : Event) : Prop :=
  Commits sdk codec hexError deployed request w.answers w.state e

/-- Accepting a burn, by a handler that knows of a return that holds its nullifier, or that has asked
the fee policy. -/
theorem accept_ensures {request : AppState × Request} {s : Submission} {createdAtMs nowMs : Nat}
    {held : Option String} {post : History → Api.Answer → Prop}
    {next : Option (RecordView × Bool) → Program Api.Answer}
    (hsubmitted : Submitted sdk codec hexError deployed request s)
    (hheld : ∀ id, held = some id → w.state.Holds (hex32 s.leaf.nullifier) id)
    (hpaid : held = none → ∃ readMs, Clock.Said w.answers readMs ∧
      request.1.fee.refusal s.leaf (UInt64.ofNat (readMs / 1000)) = none)
    (hnext : ∀ (w' : History) taken, s.Answers w'.state taken →
      (∀ id, w.state.Holds (hex32 s.leaf.nullifier) id →
        ∃ view inserted, taken = some (view, inserted) ∧ view.record.returnId = id) →
      (next taken).Ensures (Beside sdk codec retry policy law) (fun _ _ => True)
        (MayCommit sdk codec hexError deployed request) post w') :
    (ReturnStore.accept (s.burn sdk) (s.record sdk createdAtMs) nowMs request.1.maxPending >>=
      next).Ensures (Beside sdk codec retry policy law) (fun _ _ => True)
        (MayCommit sdk codec hexError deployed request) post w := by
  intro w' hrely hguarded
  have horderly := Guarded.orderly hguarded
  constructor
  -- nothing to commit: the return was there, or the queue is full
  · intro hquiet
    obtain ⟨taken, htaken, hanswers, hknown⟩ := @taken_eq sdk codec retry s createdAtMs
      request.1.maxPending _ _ horderly horderly (fun _ _ h => h) (by
        intro hnew hroom
        exact absurd (hquiet.symm.trans (acceptWithin_new hnew hroom)) (by simp))
    show Prog.Ensures _ _ _ _ ((ReturnStore.taken _ _ _ w'.state w'.state).bind next) _
    rw [htaken]
    exact hnext w' taken hanswers fun id hid => hknown id (Rely.holds hrely hid)
  -- a commit: a new burn was paid for, or a failed one goes back to the queue
  · intro e he
    have hcases := acceptWithin_cases he
    refine ⟨⟨s, createdAtMs, nowMs, hsubmitted, he, ?_⟩, fun hadmits => ?_⟩
    · rintro burn record rfl
      rcases hcases with ⟨known, -, heq⟩ | ⟨hnew, -, heq⟩
      · cases heq
      · cases heq
        cases held with
        | none =>
            obtain ⟨readMs, hsaid, hfree⟩ := hpaid rfl
            exact ⟨rfl, readMs, hsaid.rely hrely, hfree⟩
        | some id =>
            -- the return that the handler knew of is still there
            obtain ⟨known, hsome, -⟩ := horderly.returnOf (Rely.holds hrely (hheld id rfl))
            have hnew' : w'.state.returnOf (hex32 s.leaf.nullifier) = none := hnew
            rw [hnew'] at hsome
            cases hsome
    · have hafter := @Ledger.Orderly.apply _ _ retry _ horderly _ hadmits.1
      obtain ⟨taken, htaken, hanswers, hknown⟩ := @taken_eq sdk codec retry s createdAtMs
        request.1.maxPending _ _ horderly hafter (fun _ _ h => h.apply hadmits.1) (by
          intro hnew _
          rcases hcases with ⟨known, hsome, -⟩ | ⟨-, -, rfl⟩
          · have hsome' : w'.state.returnOf (hex32 s.leaf.nullifier) = some known := hsome
            rw [hnew] at hsome'
            cases hsome'
          · rfl)
      show Prog.Ensures _ _ _ _ ((ReturnStore.taken _ _ _ w'.state
        (w'.state.apply sdk.sha256 retry e)).bind next) _
      rw [htaken]
      exact hnext _ taken hanswers fun id hid => hknown id (Rely.holds hrely hid)

/-- The store has a record exactly for the nullifiers that returns hold. -/
theorem Ledger.Orderly.recordOf (h : ledger.Orderly sdk codec) (nullifier : Bytes32) :
    (ledger.recordOf (hex32 nullifier)).isSome = true ↔
      ∃ id, ledger.Holds (hex32 nullifier) id := by
  constructor
  · intro hsome
    obtain ⟨view, hview⟩ := Option.isSome_iff_exists.1 hsome
    obtain ⟨known, hknown, -⟩ := Option.bind_eq_some_iff.1 hview
    exact ⟨_, h.holds hknown⟩
  · rintro ⟨id, hholds⟩
    obtain ⟨known, hknown, rfl⟩ := h.returnOf hholds
    obtain ⟨view, hview, -⟩ := h.record hholds
    rw [Ledger.recordOf, hknown, Option.bind_some, hview]
    rfl

theorem feeError_eq_none {state : AppState} {held : Bool} {leaf : ReturnLeaf} {nowSecs : UInt64} :
    Api.feeError state held leaf nowSecs = none ↔
      held = true ∨ state.fee.refusal leaf nowSecs = none := by
  unfold Api.feeError
  cases held with
  | true => simp
  | false =>
      cases state.fee.refusal leaf nowSecs with
      | none => simp
      | some refusal => cases refusal <;> simp

/-- What the answer to a submission says, with what the handler knew of its nullifier. -/
structure Submission.Answered (s : Submission) (known : Option String) (ledger : Ledger)
    (result : Except ApiError Response) : Prop where
  created : ∀ body, result = .ok (.created body) → body.nullifier = hex32 s.leaf.nullifier ∧
    ledger.Holds (hex32 s.leaf.nullifier) body.returnId
  known : ∀ id, known = some id → ∃ body, result = .ok (.created body) ∧
    body.nullifier = hex32 s.leaf.nullifier ∧ body.returnId = id

/-- A submission asks twice before it may commit. -/
theorem submit_eq (state : AppState) (s : Submission) :
    Api.submit sdk state s = (do
      let nowSecs ← Clock.nowSecs
      let held ← ReturnStore.getByNullifier (hex32 s.leaf.nullifier)
      (Api.feeError state held.isSome s.leaf nowSecs).elim
        (do
          let createdAtMs ← Clock.nowMs
          let nowMs ← Clock.nowMs
          let taken ← ReturnStore.accept (s.burn sdk) (s.record sdk createdAtMs) nowMs state.maxPending
          pure (some (Api.created state taken)))
        (fun err => pure (some (.error err)))) := by
  refine congrArg (Clock.nowSecs >>= ·) (funext fun nowSecs => ?_)
  refine congrArg (ReturnStore.getByNullifier (hex32 s.leaf.nullifier) >>= ·) (funext fun held => ?_)
  cases hfee : Api.feeError state held.isSome s.leaf nowSecs with
  | some err => rfl
  | none => rfl

/-- **A submission's handler**, between whatever else happens to the ledger. -/
theorem submit_ensures {request : AppState × Request} {s : Submission} (known : Option String)
    (hsubmitted : Submitted sdk codec hexError deployed request s)
    (hknown : ∀ id, known = some id → w.state.Holds (hex32 s.leaf.nullifier) id) :
    (Api.submit sdk request.1 s).Ensures (Beside sdk codec retry policy law)
      (fun _ _ => True) (MayCommit sdk codec hexError deployed request)
      (fun w answer => ∃ result, answer = some result ∧ s.Answered known w.state result) w := by
  rw [submit_eq]
  intro w₁ hrely₁ hguarded₁ (nowMs₁ : Nat) w₂ hrely₂ hguarded₂
  refine ⟨fun _ => ?_, fun e he => by cases he⟩
  have horderly := Guarded.orderly hguarded₂
  have hknown₁ : ∀ id, known = some id →
      (w₁.heard Query.now nowMs₁).state.Holds (hex32 s.leaf.nullifier) id := by
    intro id hid
    have hholds : w₁.state.Holds (hex32 s.leaf.nullifier) id := Rely.holds hrely₁ (hknown id hid)
    exact hholds
  -- what the store held when the request came in, it holds at every later read
  have hknown₂ : ∀ id, known = some id → w₂.state.Holds (hex32 s.leaf.nullifier) id :=
    fun id hid => Rely.holds hrely₂ (hknown₁ id hid)
  have hheld := horderly.recordOf s.leaf.nullifier
  show Prog.Ensures _ _ _ _ (Option.elim (Api.feeError request.1
    (w₂.state.recordOf (hex32 s.leaf.nullifier)).isSome s.leaf _) _ _) w₂
  cases hfee : Api.feeError request.1 (w₂.state.recordOf (hex32 s.leaf.nullifier)).isSome s.leaf
    (UInt64.ofNat (nowMs₁ / 1000)) with
  -- the policy refuses only what the store does not hold
  | some err =>
    refine Prog.ensures_pure fun w₃ hrely₃ _ => ⟨_, rfl,
      ⟨fun body hbody => (by cases hbody), fun id hid => ?_⟩⟩
    rw [feeError_eq_none.2 (.inl (hheld.2 ⟨id, hknown₂ id hid⟩))] at hfee
    cases hfee
  | none =>
    intro w₃ hrely₃ _ (createdAtMs : Nat) w₄ hrely₄ _ (nowMs : Nat)
    -- what the handler found when it asked whether the store has the nullifier
    obtain ⟨held, hheldAt, hpaid⟩ : ∃ held : Option String,
        (∀ id, held = some id → w₂.state.Holds (hex32 s.leaf.nullifier) id) ∧
          (held = none → ∃ readMs, Clock.Said w₂.answers readMs ∧
            request.1.fee.refusal s.leaf (UInt64.ofNat (readMs / 1000)) = none) := by
      rcases feeError_eq_none.1 hfee with hsome | hfree
      · obtain ⟨id, hholds⟩ := hheld.1 hsome
        refine ⟨some id, fun id' heq => ?_, fun hnone => by cases hnone⟩
        obtain rfl := Option.some.inj heq
        exact hholds
      · have hsaid : Clock.Said (w₁.heard Query.now nowMs₁).answers nowMs₁ := List.mem_cons_self
        exact ⟨none, fun id heq => (by cases heq), fun _ => ⟨nowMs₁, hsaid.rely hrely₂, hfree⟩⟩
    have hlater : ∀ id, w₂.state.Holds (hex32 s.leaf.nullifier) id →
        (w₄.heard Query.now nowMs).state.Holds (hex32 s.leaf.nullifier) id := by
      intro id hid
      have hthird : w₃.state.Holds (hex32 s.leaf.nullifier) id := Rely.holds hrely₃ hid
      have hfourth : w₄.state.Holds (hex32 s.leaf.nullifier) id :=
        Rely.holds (w := w₃.heard Query.now createdAtMs) hrely₄ hthird
      exact hfourth
    have hpaidLater : held = none → ∃ readMs,
        Clock.Said (w₄.heard Query.now nowMs).answers readMs ∧
          request.1.fee.refusal s.leaf (UInt64.ofNat (readMs / 1000)) = none := by
      intro hnone
      obtain ⟨readMs, hsaid, hfree⟩ := hpaid hnone
      have hthird := (hsaid.rely hrely₃).heard Query.now createdAtMs
      exact ⟨readMs, (hthird.rely hrely₄).heard Query.now nowMs, hfree⟩
    refine accept_ensures hsubmitted (fun id hid => hlater id (hheldAt id hid)) hpaidLater ?_
    intro w₅ taken hanswers hfound
    -- the answer: the return that was stored or found, still there
    refine Prog.ensures_pure fun w₆ hrely₆ _ => ⟨_, rfl, ⟨?_, ?_⟩⟩
    · intro body hbody
      cases taken with
      | none => cases hbody
      | some entry =>
          obtain ⟨view, inserted⟩ := entry
          obtain ⟨hnullifier, hholds⟩ := hanswers view inserted rfl
          cases hbody
          exact ⟨hnullifier, Rely.holds hrely₆ hholds⟩
    · intro id hid
      obtain ⟨view, inserted, rfl, hreturnId⟩ := hfound id (hlater id (hknown₂ id hid))
      exact ⟨_, rfl, (hanswers view inserted rfl).1, hreturnId⟩

/-- Handlers that only look. -/
theorem quiet_handler (state : AppState) {request : Request}
    (hlooks : ∀ req, request ≠ .createReturn req) :
    (Api.handler sdk codec hexError state request).Quiet := by
  have hclock : Clock.nowSecs.Quiet := (Prog.quiet_query _).bind fun _ => trivial
  cases request with
  | createReturn req => exact absurd rfl (hlooks req)
  | accumulator =>
      refine (Prog.quiet_read _).bind fun settled => (Prog.quiet_query _).bind fun answer => ?_
      cases answer <;> trivial
  | getReturnByNullifier nullifier => exact (Prog.quiet_read _).bind fun _ => trivial
  | getReturn id => exact (Prog.quiet_read _).bind fun _ => trivial
  | getBatch id =>
      refine (Prog.quiet_read _).bind fun found => ?_
      cases found with
      | none => trivial
      | some entry =>
          refine hclock.bind fun nowSecs => ?_
          split <;> trivial
  | fees => exact hclock.bind fun _ => trivial

/-- A post is answered as `answered` says, if every submission is. -/
theorem createReturn_handles {answered : Ledger → AppState × Request →
    List (Heard Query Query.Answer) → Except ApiError Response → Prop}
    {state : AppState} {req : CreateReturnRequest}
    (herror : ∀ ledger heard err, submission sdk codec hexError state req = some (.error err) →
      answered ledger (state, .createReturn req) heard (.error err))
    (hsubmit : ∀ s, submission sdk codec hexError state req = some (.ok s) →
      (Api.submit sdk state s).Handles (service sdk codec retry policy) law
        (Commits sdk codec hexError deployed) answered (state, .createReturn req) w) :
    (Api.handler sdk codec hexError state (.createReturn req)).Handles (service sdk codec retry policy) law
      (Commits sdk codec hexError deployed) answered (state, .createReturn req) w := by
  show Prog.Handles _ _ _ _ _ (Api.createReturn sdk codec hexError state req) w
  unfold Api.createReturn
  split
  · exact Prog.ensures_pure fun _ _ _ r hr => by cases hr
  · next err hsubmission =>
    exact Prog.ensures_pure fun _ _ _ r hr => by
      cases hr
      exact herror _ _ err hsubmission
  · next s hsubmission => exact hsubmit s hsubmission

/-- **Every answer stands.** -/
theorem handler_stands {request : AppState × Request} (hdeployed : deployed request.1) :
    (Api.handler sdk codec hexError request.1 request.2).Handles (service sdk codec retry policy) law
      (Commits sdk codec hexError deployed) (Stands sdk codec hexError) request w := by
  obtain ⟨state, request⟩ := request
  by_cases hpost : ∃ req, request = .createReturn req
  · obtain ⟨req, rfl⟩ := hpost
    refine createReturn_handles ?_ ?_
    · intro ledger heard err _ req' body _ hanswer
      cases hanswer
    · intro s hsubmission
      refine (submit_ensures none ⟨hdeployed, req, rfl, hsubmission⟩
        fun id hid => by cases hid).mono (fun _ _ h => h) ?_
      rintro w' answer ⟨result, rfl, hresult⟩ - r hr req' body hreq hbody
      cases hr
      cases hreq
      obtain ⟨hnullifier, hholds⟩ := hresult.created body hbody
      exact ⟨s, hsubmission, hnullifier, hnullifier ▸ hholds⟩
  · refine Prog.Quiet.ensures ?_ (quiet_handler state fun req heq => hpost ⟨req, heq⟩) w
    intro _ _ _ _ req body heq
    exact absurd ⟨req, heq⟩ hpost

/-- **A nullifier that a return holds is answered with this return.** -/
theorem post_repeats {nullifier : Bytes32} {id : String} {state : AppState} {req : CreateReturnRequest}
    (hdeployed : deployed state) (hholds : w.state.Holds (hex32 nullifier) id) :
    (Api.handler sdk codec hexError state (.createReturn req)).Handles
      (service sdk codec retry policy) law (Commits sdk codec hexError deployed)
      (Repeats sdk codec hexError (hex32 nullifier) id) (state, .createReturn req) w := by
  refine createReturn_handles ?_ ?_
  · intro ledger heard err herr
    refine ⟨fun req' s hreq hsubmission => ?_, fun heq => (by cases heq), fun heq => (by cases heq)⟩
    cases hreq
    rw [herr] at hsubmission
    cases hsubmission
  · intro s hsubmission
    by_cases hsame : hex32 s.leaf.nullifier = hex32 nullifier
    · refine (submit_ensures (some id) ⟨hdeployed, req, rfl, hsubmission⟩ fun id' heq => by
        cases heq
        exact hsame ▸ hholds).mono (fun _ _ h => h) ?_
      rintro w' answer ⟨result, rfl, hresult⟩ - r hr
      cases hr
      refine ⟨fun _ _ _ _ _ => ?_, fun heq => (by cases heq), fun heq => (by cases heq)⟩
      exact hsame ▸ (hresult.known id rfl)
    · refine (submit_ensures none ⟨hdeployed, req, rfl, hsubmission⟩
        fun id hid => by cases hid).mono (fun _ _ h => h) ?_
      rintro w' answer ⟨result, rfl, hresult⟩ - r hr
      cases hr
      refine ⟨fun req' s' hreq hsubmission' hnullifier => ?_, fun heq => (by cases heq),
        fun heq => (by cases heq)⟩
      cases hreq
      rw [hsubmission] at hsubmission'
      cases hsubmission'
      exact absurd hnullifier hsame

theorem handler_repeats {nullifier : Bytes32} {id : String} {request : AppState × Request}
    (hdeployed : deployed request.1) (hholds : w.state.Holds (hex32 nullifier) id) :
    (Api.handler sdk codec hexError request.1 request.2).Handles (service sdk codec retry policy) law
      (Commits sdk codec hexError deployed) (Repeats sdk codec hexError (hex32 nullifier) id)
      request w := by
  obtain ⟨state, request⟩ := request
  cases request with
  | createReturn req => exact post_repeats hdeployed hholds
  | getReturn id' =>
      refine Prog.ensures_read fun w₁ hrely₁ hguarded₁ => Prog.ensures_pure fun w₂ _ _ r hr => ?_
      cases hr
      refine ⟨fun _ _ heq => (by cases heq), fun heq => ?_, fun heq => (by cases heq)⟩
      obtain rfl := Request.getReturn.inj heq
      obtain ⟨view, hview, his⟩ := (Guarded.orderly hguarded₁).record (Rely.holds hrely₁ hholds)
      refine ⟨view, ?_, his⟩
      rw [hview]
      rfl
  | getReturnByNullifier nullifier' =>
      refine Prog.ensures_read fun w₁ hrely₁ hguarded₁ => Prog.ensures_pure fun w₂ _ _ r hr => ?_
      cases hr
      refine ⟨fun _ _ heq => (by cases heq), fun heq => (by cases heq), fun heq => ?_⟩
      obtain rfl := Request.getReturnByNullifier.inj heq
      have horderly := Guarded.orderly hguarded₁
      have hholds₁ := Rely.holds hrely₁ hholds
      obtain ⟨known, hknown, rfl⟩ := horderly.returnOf hholds₁
      obtain ⟨view, hview, his⟩ := horderly.record hholds₁
      refine ⟨view, ?_, his⟩
      rw [Ledger.recordOf, hknown, Option.bind_some, hview]
  | accumulator | getBatch | fees =>
      refine Prog.Quiet.ensures ?_ (quiet_handler state fun req heq => by cases heq) w
      intro _ _ _ _
      exact ⟨fun _ _ heq => (by cases heq), fun heq => (by cases heq), fun heq => (by cases heq)⟩

end Handlers

/-! ## Every intake is a post -/

/-- A service without a deployment and without a fee. -/
def AppState.bare (maxPending : Nat) : AppState where
  intake := none
  configHash := none
  fee := FeePolicy.default
  maxPending := maxPending
  isLive := false
  submits := false

/-- A wire input, posted as it is. -/
def CreateReturnRequest.raw (wireInput : Bytes) : CreateReturnRequest where
  tokenCbor := none
  reasonBytes := none
  configHash := none
  wireInput := some (hexText wireInput)

/-- Without a deployment every wire input that the precheck accepts can be posted. -/
theorem submission_raw {state : AppState} (hintake : state.intake = none)
    (hconfig : state.configHash = none) {wireInput : Bytes} {report : Precheck.PrecheckReport}
    {input : Guest.GuestInput} {leaf : ReturnLeaf}
    (hprecheck : Precheck.precheckWire sdk codec wireInput = some (.ok report))
    (hdecode : Wire.decodeGuestInput sdk codec wireInput = .ok input)
    (hleaf : input.returnLeaves = [leaf]) :
    submission sdk codec hexError state (.raw wireInput) = some (.ok ⟨wireInput, report, input, leaf⟩) := by
  have hbuild : buildWireInput sdk codec hexError state (.raw wireInput) = .ok (some wireInput) := by
    have hdecode := decodeHex_hexText hexError wireInput
    simp only [buildWireInput, CreateReturnRequest.raw, hintake, bind_eq_ok, okOr_eq_ok, ensure_eq_ok]
    exact ⟨_, rfl, (), rfl, wireInput, hdecode, rfl⟩
  have hadmitted : admitted sdk codec state wireInput report = .ok ⟨wireInput, report, input, leaf⟩ := by
    simp only [admitted, bind_eq_ok, mapError_eq_ok]
    refine ⟨input, hdecode, ?_⟩
    rw [hleaf]
    simp only [checkConfig, hconfig, bind_eq_ok, exists_const, and_self]
  simp only [submission, hbuild, hprecheck, hadmitted]

/-- **Whatever intake takes, some handler commits.** -/
theorem Intake.offered {e : Event} (h : Intake sdk codec ledger e) :
    ∃ maxPending wireInput,
      (Api.handler sdk codec hexError (.bare maxPending) (.createReturn (.raw wireInput))).Offers
        ledger e := by
  obtain ⟨wireInput, nowMs, burn, record, maxPending, hcreate, haccept, -⟩ := h
  refine ⟨maxPending, wireInput, ?_⟩
  obtain ⟨s, hsubmission, rfl, rfl⟩ : ∃ s,
      submission sdk codec hexError (.bare maxPending) (.raw wireInput) = some (.ok s) ∧
        s.burn sdk = burn ∧ s.record sdk nowMs = record := by
    unfold createReturn at hcreate
    split at hcreate
    · next report input hprecheck hdecode =>
      split at hcreate
      · next leaf hleaf =>
        obtain ⟨rfl, rfl⟩ := Prod.mk.inj (Option.some.inj hcreate)
        exact ⟨_, submission_raw rfl rfl hprecheck hdecode hleaf, rfl, rfl⟩
      · cases hcreate
    · cases hcreate
  have hhandler : Api.handler sdk codec hexError (.bare maxPending) (.createReturn (.raw wireInput)) =
      Api.submit sdk (.bare maxPending) s := by
    rw [Api.handler, Api.createReturn, hsubmission]
  have hfree : Api.feeError (.bare maxPending) (ledger.recordOf (hex32 s.leaf.nullifier)).isSome s.leaf
      0 = none :=
    feeError_eq_none.2 (.inr (FeePolicy.refusal_eq_none.2 (.inl rfl)))
  rw [hhandler, submit_eq]
  refine ⟨(0 : Nat), .inr ⟨rfl, ?_⟩⟩
  show Prog.Offers _ _ (Option.elim (Api.feeError (.bare maxPending)
    (ledger.recordOf (hex32 s.leaf.nullifier)).isSome s.leaf 0) _ _)
  rw [hfree]
  exact ⟨nowMs, nowMs, .inl haccept⟩

end Posts

/-! ## A post -/

namespace Sample

open Guest.Sample (Coin sdk leaf)
open Wire.Sample (codec wire encode_input input_accepted)

/-- A service without a deployment that charges the fee that the sample burns pay. -/
def settings : AppState where
  intake := none
  configHash := none
  fee := {
    recipient := List.Vector.replicate 20 0x92
    amount := 1
    floor := 1
    settleWindow := 24 }
  maxPending := 10
  isLive := true
  submits := true

/-- The wire input of a burn, posted as it is. -/
def post (coin : Coin) : CreateReturnRequest := .raw (wire coin)

/-- Settings without a deployment, with any fee and any limit. -/
def deployed (state : AppState) : Prop := state.intake = none ∧ state.configHash = none

theorem submission_post (hexError : String → String) {state : AppState} (hdeployed : deployed state)
    {coin : Coin} (hreturned : coin ≠ .source) :
    ∃ s, submission sdk codec hexError state (post coin) = some (.ok s) ∧ s.leaf = leaf coin ∧
      s.burn sdk = posted coin ∧
        ∀ nowMs, s.record sdk nowMs = ReturnRecord.queued (id coin) (leaf coin).nullifier nowMs := by
  obtain ⟨hencode, hdecode⟩ := encode_input coin
  obtain ⟨report, hreport⟩ := Precheck.precheck_ok (input_accepted hreturned) hencode hdecode
  have hprecheck : Precheck.precheckWire sdk codec (wire coin) = some (.ok report) := by
    rw [Precheck.precheckWire, hdecode]
    exact hreport
  have hleaves : (Wire.Sample.input coin).returnLeaves = [leaf coin] := rfl
  refine ⟨_, submission_raw hdeployed.1 hdeployed.2 hprecheck hdecode hleaves, rfl, ?_, fun nowMs => ?_⟩
  · rw [Submission.burn, Submission.id, returnId_eq]
    rfl
  · rw [Submission.record, Submission.id, returnId_eq]

/-- The leaf pays the fee 50 seconds after the epoch. -/
theorem paysFee (coin : Coin) : settings.fee.refusal (leaf coin) 50 = none := by
  refine FeePolicy.refusal_eq_none.2 (.inr ⟨rfl, ?_, ?_⟩)
  · cases coin <;> decide
  · cases coin <;> decide

theorem record_single (retry : RetryPolicy) :
    (single retry).record (id .whole) = some ⟨record .whole, some 1⟩ := by
  have hid : (queued .whole).burn.id = id .whole := rfl
  have hpending : (single retry).pending = [queued .whole] := by
    rw [Ledger.pending, single_eq]
    exact List.mergeSort_singleton _
  rw [Ledger.record, get_single, if_pos rfl, hpending]
  simp only [List.findIdx?_cons, hid, decide_true, if_true, Option.map_some]
  rfl

/-- The store takes a burn while it is empty. -/
theorem accept_can {retry : RetryPolicy} {policy : BatchPolicy} {w : History}
    (hempty : w.state = Ledger.empty) :
    (ReturnStore.accept (posted .whole) (record .whole) 0 settings.maxPending).CanEnd
      (service sdk codec retry policy)
      (fun w' taken => w'.state = single retry ∧ taken = some (⟨record .whole, some 1⟩, true)) w := by
  have haccept : ReturnStore.acceptWithin w.state (posted .whole) (record .whole) 0
      settings.maxPending = some (acceptance .whole) := by
    rw [hempty]
    rfl
  have hadmits : (acceptance .whole).Admissible sdk codec w.state := by
    rw [hempty]
    exact acceptance_admissible (by decide) (Dict.get_empty _)
  have hafter : w.state.apply sdk.sha256 retry (acceptance .whole) = single retry := by
    rw [hempty]
    rfl
  have htaken : ReturnStore.taken (posted .whole) (record .whole) settings.maxPending w.state
      (single retry) = pure (some (⟨record .whole, some 1⟩, true)) := by
    have hnew : w.state.returnOf (record .whole).nullifier = none := by
      rw [hempty]
      rfl
    have hroom : ¬ settings.maxPending ≤ w.state.unfinished := by
      rw [hempty]
      decide
    have hrecord : (single retry).record (posted .whole).id = _ := record_single retry
    simp only [ReturnStore.taken, hnew, if_neg hroom, hrecord]
  simp only [ReturnStore.accept, Prog.CanEnd, haccept]
  refine ⟨hadmits, ?_⟩
  show Prog.CanEnd _ _ (ReturnStore.taken _ _ _ _ (w.state.apply sdk.sha256 retry (acceptance .whole))) _
  rw [hafter, htaken]
  exact ⟨hafter, rfl⟩

/-- On an empty ledger the burn is taken, and its return is answered. -/
theorem submit_can {retry : RetryPolicy} {policy : BatchPolicy} {s : Submission}
    (hleaf : s.leaf = leaf .whole) (hburn : s.burn sdk = posted .whole)
    (hrecord : ∀ nowMs, s.record sdk nowMs =
      ReturnRecord.queued (id .whole) (leaf .whole).nullifier nowMs)
    {w : History} (hempty : w.state = Ledger.empty) :
    (Api.submit sdk settings s).CanEnd (service sdk codec retry policy)
      (fun w' answer => w'.state = single retry ∧
        ∃ body, answer = some (.ok (.created body)) ∧ body.returnId = id .whole ∧
          body.nullifier = id .whole) w := by
  rw [submit_eq]
  refine ⟨(50000 : Nat), ?_⟩
  have hfree : Api.feeError settings (w.state.recordOf (hex32 s.leaf.nullifier)).isSome s.leaf 50 =
      none := by
    rw [hempty, hleaf, feeError_eq_none]
    exact .inr (paysFee .whole)
  show Prog.CanEnd _ _ (Option.elim (Api.feeError settings
    (w.state.recordOf (hex32 s.leaf.nullifier)).isSome s.leaf 50) _ _) _
  rw [hfree]
  refine ⟨(0 : Nat), (0 : Nat), ?_⟩
  rw [hburn, hrecord]
  show Prog.CanEnd _ _ (ReturnStore.accept (posted .whole) (record .whole) 0
    settings.maxPending >>= _) _
  refine (accept_can ?_).bind ?_
  · exact hempty
  · rintro w' taken ⟨hstate, rfl⟩
    exact ⟨hstate, _, rfl, rfl, rfl⟩

/-- The burn is held. -/
theorem returnOf_single (retry : RetryPolicy) :
    (single retry).returnOf (record .whole).nullifier = some (queued .whole) := by
  rw [Ledger.returnOf, single_eq]
  simp only [Dict.get_insert_self, Option.bind_some]

/-- Settings under which the store takes no burn. -/
def full : AppState := { settings with maxPending := 0 }

/-- A store that takes no burn still answers for the one that it holds. -/
theorem reaccept_can {retry : RetryPolicy} {policy : BatchPolicy} {w : History}
    (hsingle : w.state = single retry) :
    (ReturnStore.accept (posted .whole) (record .whole) 0 full.maxPending).CanEnd
      (service sdk codec retry policy)
      (fun _ taken => taken = some (⟨record .whole, some 1⟩, false)) w := by
  have hknown : w.state.returnOf (record .whole).nullifier = some (queued .whole) := by
    rw [hsingle, returnOf_single]
  have hview : w.state.record (queued .whole).burn.id = some ⟨record .whole, some 1⟩ := by
    rw [hsingle]
    exact record_single retry
  have haccept : ReturnStore.acceptWithin w.state (posted .whole) (record .whole) 0 full.maxPending =
      none := by
    rw [ReturnStore.acceptWithin, hknown]
    rfl
  have htaken : ReturnStore.taken (posted .whole) (record .whole) full.maxPending w.state w.state =
      pure (some (⟨record .whole, some 1⟩, false)) := by
    simp only [ReturnStore.taken, hknown, hview]
    rfl
  simp only [ReturnStore.accept, Prog.CanEnd, haccept, htaken]
  exact rfl

/-- The burn is posted again after its deadline, to a full store. -/
theorem repost_can {retry : RetryPolicy} {policy : BatchPolicy} {s : Submission}
    (hleaf : s.leaf = leaf .whole) (hburn : s.burn sdk = posted .whole)
    (hrecord : ∀ nowMs, s.record sdk nowMs =
      ReturnRecord.queued (id .whole) (leaf .whole).nullifier nowMs)
    {w : History} (hsingle : w.state = single retry) :
    (Api.submit sdk full s).CanEnd (service sdk codec retry policy)
      (fun _ answer => ∃ body, answer = some (.ok (.created body)) ∧ body.nullifier = id .whole ∧
        body.duplicate = true) w := by
  -- a held burn is not asked for its fee
  have hheld : (w.state.recordOf (hex32 s.leaf.nullifier)).isSome = true := by
    have hnullifier : hex32 s.leaf.nullifier = (record .whole).nullifier := by
      rw [hleaf]
      rfl
    have hview : (single retry).record (queued .whole).burn.id = some ⟨record .whole, some 1⟩ :=
      record_single retry
    rw [Ledger.recordOf, hsingle, hnullifier, returnOf_single, Option.bind_some, hview]
    rfl
  rw [submit_eq]
  refine ⟨(1000000 : Nat), ?_⟩
  show Prog.CanEnd _ _ (Option.elim (Api.feeError full
    (w.state.recordOf (hex32 s.leaf.nullifier)).isSome s.leaf 1000) _ _) _
  rw [hheld]
  refine ⟨(0 : Nat), (0 : Nat), ?_⟩
  rw [hburn, hrecord]
  show Prog.CanEnd _ _ (ReturnStore.accept (posted .whole) (record .whole) 0 full.maxPending >>= _) _
  refine (reaccept_can ?_).bind ?_
  · exact hsingle
  · rintro w' taken rfl
    exact ⟨_, rfl, rfl, rfl⟩

/-- A request arrives and is answered. -/
theorem asked {retry : RetryPolicy} {policy : BatchPolicy} {hexError : String → String}
    {deployed : AppState → Prop} {state : AppState} {request : Request} {handling : Program Api.Answer}
    {post : History → Api.Answer → Prop} {seen w : History} {p : Hosting}
    {prog : Program Orchestrator.Point} (hdeployed : deployed state)
    (hhandler : Api.handler sdk codec hexError state request = handling)
    (h : handling.CanEnd (service sdk codec retry policy) post seen)
    (hp : p.config = ⟨w, .running prog⟩) (hstate : w.state = seen.state) :
    ∃ (p' : Hosting) (w' seen' : History) (value : Api.Answer)
      (heard : List (Heard Query Query.Answer)),
      Relation.ReflTransGen (Hosts sdk codec retry policy hexError deployed) p p' ∧ post seen' value ∧
        p'.config = ⟨w', .running prog⟩ ∧ w'.state = seen'.state ∧
          p'.requests p.arrived = some ⟨(state, request), heard, .done value⟩ := by
  subst hhandler
  have hserved := @Prog.CanEnd.served _ _ _ _ _ _ _ _ (service sdk codec retry policy)
    (fun request => deployed request.1)
    (fun request => Api.handler sdk codec hexError request.1 request.2) post (state, request) hdeployed
    seen h p w prog hp hstate
  exact hserved

/-- A run in which the first post is answered. -/
theorem hosted_post (retry : RetryPolicy) (policy : BatchPolicy) (hexError : String → String) :
    ∃ (p : Hosting) (w : History) (prog : Program Orchestrator.Point),
      Hosted sdk codec retry policy hexError deployed p ∧ p.config = ⟨w, .running prog⟩ ∧
        w.state = single retry ∧ ∃ heard body,
          p.Answered 0 (settings, .createReturn (post .whole)) heard (.ok (.created body)) ∧
            body.returnId = id .whole ∧ body.nullifier = id .whole := by
  have hdeployed : deployed settings := ⟨rfl, rfl⟩
  obtain ⟨s, hsubmission, hleaf, hburn, hrecord⟩ :=
    @submission_post hexError _ hdeployed .whole (by decide)
  have hhandler : Api.handler sdk codec hexError settings (.createReturn (post .whole)) =
      Api.submit sdk settings s := by
    rw [Api.handler, Api.createReturn, hsubmission]
  obtain ⟨start, hstart, hconfig, harrived⟩ : ∃ start : Hosting,
      Hosted sdk codec retry policy hexError deployed start ∧
        start.config = ⟨World.started ⟨Ledger.empty, []⟩,
          .running (Orchestrator.code sdk codec retry policy .opening)⟩ ∧ start.arrived = 0 :=
    ⟨_, .single (.program .start), rfl, rfl⟩
  have hcan := @submit_can retry policy s hleaf hburn hrecord
    (World.started ⟨Ledger.empty, []⟩) rfl
  obtain ⟨p, w, seen, value, heard, hrun, ⟨hstate, body, rfl, hid, hnullifier⟩, hafter, hsame,
    hanswered⟩ := asked hdeployed hhandler hcan hconfig rfl
  rw [harrived] at hanswered
  exact ⟨p, w, _, hstart.trans hrun, hafter, hsame.trans hstate, heard, body, hanswered, hid, hnullifier⟩

end Sample

/-! ## Runs -/

section Runs

variable {sdk : TokenSdk.Sdk} {codec : Wire.Codec} {retry : RetryPolicy} {policy : BatchPolicy}
  {hexError : String → String} {deployed : AppState → Prop} {p p' : Hosting}

/-- **The handlers do what the service allows to others.** Whatever they commit between the steps of
the orchestrator and of each other, the service is in a state that it can get into with intake beside
it. What they committed was due by what they had heard, and nothing else came from outside. -/
theorem hosted_reach (h : Hosted sdk codec retry policy hexError deployed p) :
    (service sdk codec retry policy).Reach p.config ∧
      (∀ c ∈ p.commits, Commits sdk codec hexError deployed c.request c.heard c.state c.event) ∧
        ∀ ledger e, (ledger, .other e) ∈ p.config.world.past →
          ∃ c ∈ p.commits, c.state = ledger ∧ c.event = e := by
  have hlaw : ∀ p : Hosting, Hosted sdk codec retry policy hexError deployed p →
      p.config.world.Lawful fun _ _ => True := fun _ _ _ _ _ => trivial
  have hreach := System.Served.reach hlaw (fun _ hdeployed _ _ => handler_stands hdeployed)
    (fun _ _ _ _ hcommits hadmits => hcommits.intake hadmits) h
  exact ⟨hreach, System.Served.committed hlaw (fun _ hdeployed _ _ => handler_stands hdeployed) h⟩

/-- **And all that it allows them.** Each state that the service gets into with intake beside it is one
that it gets into with its handlers at work, so the properties of its runs are those of the former. -/
theorem reach_hosted (hdeployed : ∀ maxPending, deployed (.bare maxPending)) {c : ServiceConfig}
    (h : (service sdk codec retry policy).Reach c) :
    ∃ p : Hosting, Hosted sdk codec retry policy hexError deployed p ∧ p.config = c := by
  refine System.Reach.served h fun ledger e hother => ?_
  have hintake : Intake sdk codec ledger e := hother
  refine ⟨hintake.admissible, ?_⟩
  obtain ⟨maxPending, wireInput, hoffers⟩ := @Intake.offered _ _ hexError _ _ hintake
  exact ⟨(.bare maxPending, .createReturn (.raw wireInput)), hdeployed maxPending, hoffers⟩

theorem hosted_reach_sample :
    ∃ p : Hosting, p.state = Sample.single ⟨1, 1, 1⟩ ∧
      (service Guest.Sample.sdk Wire.Sample.codec ⟨1, 1, 1⟩ ⟨⟨2, 1000, 0⟩⟩).Reach p.config := by
  obtain ⟨p, w, prog, hp, hconfig, hstate, -⟩ := Sample.hosted_post ⟨1, 1, 1⟩ ⟨⟨2, 1000, 0⟩⟩ id
  refine ⟨p, ?_, (hosted_reach hp).1⟩
  rw [Serving.state, hconfig]
  exact hstate

/-- The run of a service that settles its batch, with the burns posted. -/
theorem reach_hosted_sample :
    ∃ p : Hosting, Hosted Guest.Sample.sdk Wire.Sample.codec ⟨1, 1, 1⟩ Sample.policy id (fun _ => True) p ∧
      ∃ batch, p.state.batches.get Sample.batch.id = some batch ∧ batch.status = .settled := by
  obtain ⟨assembled, hassembles⟩ := Sample.assembles_clean
  obtain ⟨p, hp, hconfig⟩ := @reach_hosted _ _ _ _ id (fun _ => True) (fun _ => trivial) _
    (Sample.reach_paid ⟨1, 1, 1⟩ hassembles)
  obtain ⟨batch, hbatch, hstatus⟩ : ∃ batch,
      (Sample.paid ⟨1, 1, 1⟩ assembled).state.batches.get Sample.batch.id = some batch ∧
        batch.status = .settled := ⟨_, (Sample.keeps_paid ⟨1, 1, 1⟩ assembled).batch, rfl⟩
  refine ⟨p, hp, batch, ?_, hstatus⟩
  rw [Serving.state, hconfig]
  exact hbatch

/-- **Posting is idempotent.** Once a post was answered with a return, every answer about its nullifier
names this return; and every request that arrives from then on, under whatever settings, finds it: a
post of the same nullifier is refused by neither the fee policy nor a full queue, and the return can be
polled and looked up. -/
theorem resubmission (h : Hosted sdk codec retry policy hexError deployed p)
    (hrun : Relation.ReflTransGen (Hosts sdk codec retry policy hexError deployed) p p') {i : Nat}
    {state : AppState} {req : CreateReturnRequest} {heard : List (Heard Query Query.Answer)}
    {body : CreateReturnResponse}
    (hfirst : p.Answered i (state, .createReturn req) heard (.ok (.created body))) :
    (∀ j state' req' heard' body',
        p'.Answered j (state', .createReturn req') heard' (.ok (.created body')) →
          body'.nullifier = body.nullifier → body'.returnId = body.returnId) ∧
      ∀ j request heard' answer, p.arrived ≤ j → p'.Answered j request heard' answer →
        Repeats sdk codec hexError body.nullifier body.returnId p'.state request heard' answer := by
  have hlaw : ∀ p : Hosting, Hosted sdk codec retry policy hexError deployed p →
      p.config.world.Lawful fun _ _ => True := fun _ _ _ _ _ => trivial
  have hstands : ∀ (request : AppState × Request), deployed request.1 → ∀ w : History,
      ((service sdk codec retry policy).seen fun _ _ => True).Guarded (fun _ _ => True) w →
        (Api.handler sdk codec hexError request.1 request.2).Handles (service sdk codec retry policy)
          (fun _ _ => True) (Commits sdk codec hexError deployed) (Stands sdk codec hexError) request
          w :=
    fun _ hdeployed _ _ => handler_stands hdeployed
  have hlater : Hosted sdk codec retry policy hexError deployed p' := h.later hrun
  obtain ⟨s, hsubmission, hnullifier, hholds⟩ := System.Served.postcondition hlaw hstands h hfirst req
    body rfl rfl
  rw [hnullifier] at hholds ⊢
  refine ⟨fun j state' req' heard' body' hanswered hsame => ?_, ?_⟩
  · obtain ⟨-, -, -, hholds'⟩ :=
      System.Served.postcondition hlaw hstands hlater hanswered req' body' rfl rfl
    have hkept : p'.state.Holds (hex32 s.leaf.nullifier) body.returnId :=
      System.Served.keeps (Ledger.Holds (hex32 s.leaf.nullifier) body.returnId) hlaw
        (fun _ _ hadmits _ hholds => Ledger.Holds.apply hholds hadmits) h hholds hrun
    rw [hsame] at hholds'
    exact Option.some.inj (hholds'.symm.trans hkept)
  · intro j request heard' answer hj hanswered
    exact System.Served.answered_since hlaw hstands
      (fun _ _ hadmits _ hholds => Ledger.Holds.apply hholds hadmits)
      (fun _ hdeployed _ _ hholds => handler_repeats hdeployed hholds) h hholds hrun hj hanswered

/-- The burn of the first post is posted again, to a full store and after its deadline, and is answered
with the return of the first. -/
theorem resubmission_sample :
    ∃ (p p' : Hosting) (i : Nat) (heard heard' : List (Heard Query Query.Answer))
      (first again : CreateReturnResponse), p.arrived ≤ i ∧
      p.Answered 0 (Sample.settings, .createReturn (Sample.post .whole)) heard (.ok (.created first)) ∧
        p'.Answered i (Sample.full, .createReturn (Sample.post .whole)) heard' (.ok (.created again)) ∧
          again.duplicate = true ∧ again.returnId = first.returnId := by
  obtain ⟨p, w, prog, hp, hconfig, hstate, heard, first, hfirst, hid, hnullifier⟩ :=
    Sample.hosted_post ⟨1, 1, 1⟩ ⟨⟨2, 1000, 0⟩⟩ id
  have hdeployed : Sample.deployed Sample.full := ⟨rfl, rfl⟩
  obtain ⟨s, hsubmission, hleaf, hburn, hrecord⟩ :=
    @Sample.submission_post id _ hdeployed .whole (by decide)
  have hhandler : Api.handler Guest.Sample.sdk Wire.Sample.codec id Sample.full
      (.createReturn (Sample.post .whole)) = Api.submit Guest.Sample.sdk Sample.full s := by
    rw [Api.handler, Api.createReturn, hsubmission]
  have hcan := @Sample.repost_can ⟨1, 1, 1⟩ ⟨⟨2, 1000, 0⟩⟩ s hleaf hburn hrecord w hstate
  obtain ⟨p', w', seen, value, heard', hrun, ⟨again, rfl, hsame, hduplicate⟩, -, -, hagain⟩ :=
    Sample.asked hdeployed hhandler hcan hconfig rfl
  obtain ⟨honce, -⟩ := resubmission hp hrun hfirst
  exact ⟨p, p', p.arrived, heard, heard', first, again, le_rfl, hfirst, hagain, hduplicate,
    honce _ _ _ _ _ hagain (hsame.trans hnullifier.symm)⟩

end Runs

end UnicityBridge.Service
