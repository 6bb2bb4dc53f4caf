import UnicityBridge.Service.Terminal

/-!
# What becomes of a return

Facts about every state that the service gets into: one batch proves at a time, returns in flight are in
batches in flight, and no return is settled without evidence.
-/

set_option autoImplicit false

namespace UnicityBridge.Service

open UnicityBridge.Lib
open UnicityBridge.Settlement (RebuiltAccumulator)
open Orchestrator (Point Loop)

section Outcomes

variable {sdk : TokenSdk.Sdk} {codec : Wire.Codec} {retry : RetryPolicy} {policy : BatchPolicy}

/-! ## Flights -/

/-- A stop and a restart interrupt the batch. -/
def Ledger.Interrupts (ledger : Ledger) (b : String) : Prop :=
  ∀ atMs, .batchInterrupted b atMs true ∈ ledger.stop atMs ∧
    .batchInterrupted b atMs false ∈ ledger.recover atMs

theorem Ledger.Indexed.interrupts {ledger : Ledger} (h : ledger.Indexed sdk codec) {b : String}
    {batch : Batch} (hget : ledger.batches.get b = some batch) (hstatus : batch.status = .proving) :
    ledger.Interrupts b := by
  have hmem : ∀ atMs orderly, Event.batchInterrupted b atMs orderly ∈
      ledger.interruptions atMs orderly := by
    intro atMs orderly
    refine List.mem_map.2 ⟨batch, ?_, by rw [h.batch_id b batch hget]⟩
    rw [Ledger.byFormation, List.mem_mergeSort, List.mem_filter, Dict.mem_values, decide_eq_true_iff]
    exact ⟨⟨b, hget⟩, hstatus⟩
  exact fun atMs => ⟨hmem atMs true, hmem atMs false⟩

/-- A return in flight is a member of the batch its record names, which is in flight with it: a proving
batch is interrupted by a stop and by a restart, a proven one is settled after a restart. -/
def Ledger.Flies (ledger : Ledger) (id : String) (r : Return) : Prop :=
  ∃ b batch, r.record.batchId = some b ∧ ledger.batches.get b = some batch ∧ id ∈ batch.members ∧
    ((r.record.status = .proving ∧ batch.status = .proving ∧ ledger.Interrupts b) ∨
      (r.record.status = .proven ∧ batch.status = .proven ∧ batch ∈ ledger.unsettledProofs))

/-- `take_next` commits the formation of a batch and returns this batch. -/
theorem takeNext_step {c c' : ServiceConfig} (hs : (service sdk codec retry policy).Holds
      (Allowed sdk codec retry) (fun point w => point.Holds retry w) c)
    {nowMs : Nat} {collecting : Bool} {rest : Taken → Program Point} {members : List String}
    (htask : c.task = .running (ReturnStore.takeNext policy nowMs collecting >>= rest))
    (hstep : (service sdk codec retry policy).Step c c')
    (hforms : c'.world = c.world.own (service sdk codec retry policy) (.batchFormed members nowMs)) :
    c'.task = .running (rest (.batch (c.world.state.nextBatch sdk.sha256 members nowMs))) ∧
      c'.world.state.batches.get (c.world.state.nextBatch sdk.sha256 members nowMs).id =
        some (c.world.state.nextBatch sdk.sha256 members nowMs) := by
  obtain ⟨w, task⟩ := c
  obtain rfl : task = _ := htask
  have hget : (w.state.apply sdk.sha256 retry (.batchFormed members nowMs)).batches.get
      (w.state.nextBatch sdk.sha256 members nowMs).id =
        some (w.state.nextBatch sdk.sha256 members nowMs) := by
    rw [Ledger.apply, Ledger.batches_form, if_pos rfl]
  obtain ⟨hguarded, hensures⟩ := hs
  have hnext := hensures w .refl hguarded
  cases hstep with
  | @own _ _ _ e he hadmits =>
      -- the step is the event, so the program goes on with the batch that is now active
      have hmoments := congrArg World.past hforms
      have he' : e = .batchFormed members nowMs := by
        simpa [World.own] using hmoments
      subst he'
      refine ⟨?_, hget⟩
      obtain ⟨hallowed, -⟩ := hnext.2 _ he
      have hnone : ∀ b, ¬ w.state.Proving b := (Allowed.permitted hallowed).1
      have hactive := @Ledger.activeBatch_formed sdk codec retry _ hnone _ _ hadmits
      cases hdecision : policy.next w.state.pending nowMs collecting with
      | batch members' =>
          have hmade : ((service sdk codec retry policy).apply w.state
              (.batchFormed members nowMs)).activeBatch = _ := hactive
          show Task.running _ = Task.running _
          congr 1
          simp only [hdecision]
          rw [hmade]
          rfl
      | waitUntil atMs =>
          simp only [hdecision] at he
          cases he
      | idle =>
          simp only [hdecision] at he
          cases he
  | other => simp [World.own, World.other] at hforms
  | outside => simp [World.own, World.outside] at hforms
  -- a step without an event does not change the history
  | quiet | crash =>
      have hlength := congrArg (fun w : History => w.past.length) hforms
      simp [World.own] at hlength

/-- **Single flight and membership.** In every state that the service gets into at most one batch is
proving, and none is while the orchestrator is in its loop between batches; `take_next` returns the
batch that it just formed; and every return that is proving or proven is a member of the batch its
record names, which is in flight itself, for the orchestrator, a restart or a stop to go on with. -/
theorem single_flight {c : ServiceConfig} (h : (service sdk codec retry policy).Reach c) :
    (∀ b b', c.world.state.Proving b → c.world.state.Proving b' → b = b') ∧
    (∀ turn, c.task = .running (.done (.loop turn)) → ∀ b, ¬ c.world.state.Proving b) ∧
    (∀ nowMs collecting rest members c',
      c.task = .running (ReturnStore.takeNext policy nowMs collecting >>= rest) →
      (service sdk codec retry policy).Step c c' →
      c'.world = c.world.own (service sdk codec retry policy) (.batchFormed members nowMs) →
      c'.task = .running (rest (.batch (c.world.state.nextBatch sdk.sha256 members nowMs))) ∧
        c'.world.state.batches.get (c.world.state.nextBatch sdk.sha256 members nowMs).id =
          some (c.world.state.nextBatch sdk.sha256 members nowMs)) ∧
    ∀ id r, c.world.state.returns.get id = some r →
      r.record.status = .proving ∨ r.record.status = .proven → c.world.state.Flies id r := by
  have hholds := reach_holds h
  obtain ⟨hindexed, hflight⟩ := Sound.ledger hholds.1
  refine ⟨hflight.single, fun turn hturn => ?_, ?_, fun id r hr hactive => ?_⟩
  · obtain ⟨hs, htask⟩ := hholds
    rw [hturn] at htask
    exact (htask c.world .refl hs).1
  · intro nowMs collecting rest members c' htask hstep hforms
    exact takeNext_step hholds htask hstep hforms
  · obtain ⟨b, hin⟩ := hflight.named id r hr hactive
    obtain ⟨batch, hget, hid, hstatus⟩ := hflight.member id r b hr hin
    refine ⟨b, batch, (Return.inBatch_iff.1 hin).1, hget, hid, ?_⟩
    rcases hstatus with ⟨hr', hproving⟩ | ⟨hr', hproven⟩
    · exact .inl ⟨hr', hproving, hindexed.interrupts hget hproving⟩
    · obtain ⟨bundle, hbundle, htxid, -⟩ := hflight.proof b batch hget hproven
      refine .inr ⟨hr', hproven, (Orchestrator.mem_unsettledProofs hindexed).2 ⟨?_, ?_⟩⟩
      · rw [hindexed.batch_id b batch hget]
        exact hget
      · simp [Batch.isUnsettledProof, hproven, hbundle, htxid]

/-! ## Evidence -/

namespace Event

variable {ledger : Ledger} {id : String} {r : Return}

/-- **What an event does to the settlement of a record**: it keeps it, or clears it from a record that
is not settled, or it is a settlement of the return's batch or a confirmed exclusion of the return. -/
theorem settlement_cases (e : Event) :
    ((e.recordAfter sdk.sha256 retry ledger id r).settleTxid = r.record.settleTxid ∧
      ((e.recordAfter sdk.sha256 retry ledger id r).status = .settled → r.record.status = .settled)) ∨
    ((e.recordAfter sdk.sha256 retry ledger id r).settleTxid = none ∧
      (e.recordAfter sdk.sha256 retry ledger id r).status ≠ .settled) ∨
    ((∃ b atMs, e = .batchSettled b (e.recordAfter sdk.sha256 retry ledger id r).settleTxid atMs ∧
        ledger.isMember b r = true) ∨
      ∃ atMs, e = .returnExcluded id
        (.alreadySettled (e.recordAfter sdk.sha256 retry ledger id r).settleTxid none) atMs) := by
  cases e with
  -- an event of another kind leaves the transaction alone and settles nothing
  | snapshot | accepted => exact .inl ⟨rfl, fun h => h⟩
  | requeued i atMs =>
      left
      simp only [recordAfter]
      split
      · refine ⟨?_, fun h => ?_⟩
        · unfold ReturnRecord.requeue
          split
          · simp
          · split <;> simp
        · rcases r.record.requeue_cases atMs retry with ⟨-, hqueued⟩ | hsame
          · rw [hqueued] at h
            cases h
          · rwa [hsame] at h
      · exact ⟨rfl, fun h => h⟩
  | batchFormed members atMs =>
      left
      simp only [recordAfter]
      split
      · simp [ReturnRecord.enter]
      · exact ⟨rfl, fun h => h⟩
  -- only a settled batch and a confirmed release name a transaction
  | batchSettled b txid atMs =>
      simp only [recordAfter]
      split
      · next hmember => exact .inr (.inr (.inl ⟨b, atMs, by simp, hmember⟩))
      · exact .inl ⟨rfl, fun h => h⟩
  | batchProven b bundle root atMs =>
      left
      simp only [recordAfter]
      split
      · simp
      · exact ⟨rfl, fun h => h⟩
  | batchFailed b kind message atMs =>
      left
      simp only [recordAfter]
      split
      · refine ⟨?_, by simp⟩
        simp only [ReturnRecord.scheduleRetry]
        split <;> simp
      · exact ⟨rfl, fun h => h⟩
  | batchRebased b atMs =>
      left
      simp only [recordAfter]
      split
      · simp [ReturnRecord.rebase]
      · exact ⟨rfl, fun h => h⟩
  | batchInterrupted b atMs orderly =>
      left
      simp only [recordAfter]
      split
      · unfold ReturnRecord.interrupt
        split
        · exact ⟨rfl, fun h => h⟩
        · split
          · simp [ReturnRecord.requeueAfterStop]
          · simp only [ReturnRecord.scheduleAfterInterruption]
            split <;> simp
      · exact ⟨rfl, fun h => h⟩
  | returnExcluded i reason atMs =>
      simp only [recordAfter]
      split
      · next hid =>
        subst hid
        cases reason with
        | alreadySettled txid unconfirmed =>
            cases unconfirmed with
            | none =>
                refine .inr (.inr (.inr ⟨atMs, ?_⟩))
                simp [ReturnRecord.exclude]
            -- an unconfirmed release drops the transaction; a repeated one changes no text
            | some why =>
                by_cases hsame : r.record.status = .submitted ∧
                    r.record.message = ReturnRecord.waitMessage txid why
                · simp [ReturnRecord.exclude, hsame]
                · simp [ReturnRecord.exclude, hsame]
        | rejected message =>
            left
            refine ⟨?_, by simp [ReturnRecord.exclude]⟩
            simp only [ReturnRecord.exclude, ReturnRecord.scheduleRetry]
            split <;> simp
        | invalid message => simp [ReturnRecord.exclude]
      · exact .inl ⟨rfl, fun h => h⟩

end Event

/-- Whatever is recorded as settled has a transaction, and every recorded transaction has evidence. -/
structure Evident (w : History) : Prop where
  shown : ∀ id r txid, w.state.returns.get id = some r → r.record.settleTxid = some txid →
    Evidence w.past r.burn.nullifier txid
  named : ∀ id r, w.state.returns.get id = some r → r.record.status = .settled →
    ∃ txid, r.record.settleTxid = some txid

theorem eqIgnoreAsciiCase_trans {a b c : String} (h : eqIgnoreAsciiCase a b = true)
    (h' : eqIgnoreAsciiCase b c = true) : eqIgnoreAsciiCase a c = true := by
  simp only [eqIgnoreAsciiCase, beq_iff_eq] at h h' ⊢
  exact h.trans h'

/-- What settles a batch is evidence for each return in it. -/
theorem RunOf.evidence {w : History} {b b' : String} {txid : Option String} {atMs : Nat}
    (h : RunOf sdk codec retry b' w (.batchSettled b txid atMs)) (hflight : w.state.InFlight)
    {id : String} {r : Return} (hr : w.state.returns.get id = some r) (hin : r.inBatch b = true) :
    ∃ t, txid = some t ∧ Evidence w.past r.burn.nullifier t := by
  cases h with
  | @settle batch bundle t _ current proven proof shown held =>
      refine ⟨t, rfl, ?_⟩
      rcases shown with ⟨ledger, hheard⟩ | ⟨ledger, asked, answer, hheard, -, -, hall⟩
      · obtain ⟨bundle', hbundle', -, hpays⟩ := hflight.proof b batch current proven
        obtain rfl := Option.some.inj (proof.symm.trans hbundle')
        exact .inl ⟨ledger, bundle, hheard, hpays id r hr hin⟩
      · obtain ⟨t', hsame, hverdict⟩ := hall id r hr hin
        obtain ⟨c, hc, his⟩ := Confirmations.verdict_ok.1 hverdict
        refine .inr ⟨ledger, asked, answer, hheard, c, hc, ?_⟩
        simp only [Release.is, Bool.and_eq_true] at his ⊢
        exact ⟨his.1, eqIgnoreAsciiCase_trans his.2 hsame⟩

/-- **Every event keeps the evidence.** -/
theorem Sound.evident {w : History} (h : Sound sdk codec retry policy w) : Evident w := by
  -- a record keeps its settlement through an event that neither settles its batch nor confirms it
  have hkeep : ∀ {w : History} {e : Event} {past : Past}, Evident w → w.past ⊆ past →
      e.Admissible sdk codec w.state →
      (∀ id r, w.state.returns.get id = some r → ∀ txid b atMs, e = .batchSettled b txid atMs →
        w.state.isMember b r = true → ∃ t, txid = some t ∧ Evidence w.past r.burn.nullifier t) →
      (∀ id r, w.state.returns.get id = some r → ∀ txid atMs,
        e = .returnExcluded id (.alreadySettled txid none) atMs →
        ∃ t, txid = some t ∧ Evidence w.past r.burn.nullifier t) →
      Evident ⟨w.state.apply sdk.sha256 retry e, past⟩ := by
    intro w e past ih hpast hadmits hsettles hexcludes
    -- by where the settlement of the record comes from
    have hrecord : ∀ id r, w.state.returns.get id = some r →
        (∀ txid, (e.recordAfter sdk.sha256 retry w.state id r).settleTxid = some txid →
          Evidence w.past r.burn.nullifier txid) ∧
        ((e.recordAfter sdk.sha256 retry w.state id r).status = .settled →
          ∃ txid, (e.recordAfter sdk.sha256 retry w.state id r).settleTxid = some txid) := by
      intro id r hr
      rcases @Event.settlement_cases sdk retry w.state id r e with
        ⟨hsame, hstatus⟩ | ⟨hcleared, hstatus⟩ | ⟨b, atMs, he, hmember⟩ | ⟨atMs, he⟩
      · rw [hsame]
        exact ⟨fun txid htxid => ih.shown id r txid hr htxid,
          fun hsettled => ih.named id r hr (hstatus hsettled)⟩
      · rw [hcleared]
        refine ⟨fun txid htxid => ?_, fun hsettled => absurd hsettled hstatus⟩
        cases htxid
      · obtain ⟨t, ht, hevidence⟩ := hsettles id r hr _ b atMs he hmember
        rw [ht]
        exact ⟨fun txid htxid => Option.some.inj htxid ▸ hevidence, fun _ => ⟨t, rfl⟩⟩
      · obtain ⟨t, ht, hevidence⟩ := hexcludes id r hr _ atMs he
        rw [ht]
        exact ⟨fun txid htxid => Option.some.inj htxid ▸ hevidence, fun _ => ⟨t, rfl⟩⟩
    constructor
    · intro id r' txid hr' htxid
      rcases Ledger.returns_cases hadmits.ne_snapshot hr' with
        ⟨r, hr, rfl⟩ | ⟨burn, record, rfl, -, -, rfl⟩
      · exact ((hrecord id r hr).1 txid htxid).mono hpast
      · rw [(Ledger.accepted_record hadmits).2.2.1] at htxid
        cases htxid
    · intro id r' hr' hstatus
      rcases Ledger.returns_cases hadmits.ne_snapshot hr' with
        ⟨r, hr, rfl⟩ | ⟨burn, record, rfl, -, -, rfl⟩
      · exact (hrecord id r hr).2 hstatus
      · rw [(Ledger.accepted_record hadmits).1] at hstatus
        cases hstatus
  have hlater : ∀ {w w' : History}, Evident w → w'.state = w.state → w.past ⊆ w'.past →
      Evident w' := by
    intro w w' ih hstate hpast
    constructor
    · intro id r txid hr htxid
      exact (ih.shown id r txid (hstate ▸ hr) htxid).mono hpast
    · intro id r hr
      exact ih.named id r (hstate ▸ hr)
  induction h with
  | initial =>
      constructor
      · intro id r txid hr
        cases hr
      · intro id r hr
        cases hr
  | @own w e hbefore hallowed hadmits ih =>
      obtain ⟨hindexed, hflight⟩ := Sound.ledger hbefore
      refine hkeep ih (List.subset_cons_self _ _) hadmits ?_ ?_
      · rintro id r hr txid b atMs rfl hmember
        cases hallowed with
        | run hrun => exact hrun.evidence hflight hr (Ledger.isMember_iff.1 hmember).2
      · rintro id r hr txid atMs rfl
        cases hallowed with
        | recheck may =>
            obtain ⟨r', hr', -, txid', unconfirmed, hreason, hevidence⟩ := may
            obtain ⟨rfl, rfl⟩ := Exclusion.alreadySettled.inj hreason
            exact Option.some.inj (hr'.symm.trans hr) ▸ hevidence rfl
        | run hrun =>
            cases hrun with
            | exclude may =>
                obtain ⟨r', hr', hevidence, -⟩ := may
                exact Option.some.inj (hr'.symm.trans hr) ▸ hevidence txid rfl
  | @other w e hbefore hintake ih =>
      refine hkeep ih (List.subset_cons_self _ _) hintake.admissible ?_ ?_
      · rintro id r hr txid b atMs rfl
        exact absurd hintake Intake.not_settles
      · rintro id r hr txid atMs rfl
        exact absurd hintake Intake.not_excludes
  | heard _ question answer ih => exact hlater ih rfl (List.subset_cons_self _ _)
  | outside _ x ih => exact hlater ih rfl (List.subset_cons_self _ _)
  | started _ ih => exact hlater ih rfl (List.subset_cons_self _ _)

/-- **No return is settled without evidence.** In every state that the service gets into, a return that
is settled names its settle transaction, and every settle transaction of a return was either reported by
the settler as the submission of a bundle that pays the return's nullifier, or confirmed by the second
source for exactly this nullifier. -/
theorem settled_with_evidence {c : ServiceConfig} (h : (service sdk codec retry policy).Reach c)
    {id : String} {r : Return} (hr : c.world.state.returns.get id = some r) :
    (r.record.status = .settled → ∃ txid, r.record.settleTxid = some txid) ∧
      ∀ txid, r.record.settleTxid = some txid → Evidence c.world.past r.burn.nullifier txid := by
  have hevident := Sound.evident (reach_sound h)
  exact ⟨hevident.named id r hr, fun txid htxid => hevident.shown id r txid hr htxid⟩

/-! ## Payments -/

/-- What settles a batch whose returns have not drifted settles every return that its bundle pays. -/
theorem RunOf.settles_paid {w : History} {b b' : String} {txid : Option String} {atMs : Nat}
    (h : RunOf sdk codec retry b' w (.batchSettled b txid atMs))
    (hindexed : w.state.Indexed sdk codec) (hflight : w.state.InFlight)
    (hkept : ∀ id, ¬ Drifted w.past id) {batch : Batch} {bundle : BatchBundle}
    (hbatch : w.state.batches.get b = some batch) (hbundle : batch.bundle = some bundle)
    {id : String} {r : Return} (hr : w.state.returns.get id = some r)
    (hpays : bundle.Pays r.burn.nullifier) :
    ∃ r' t, (w.state.apply sdk.sha256 retry (.batchSettled b txid atMs)).returns.get id = some r' ∧
      r'.record.status = .settled ∧ txid = some t ∧ r'.record.settleTxid = some t := by
  cases h with
  | @settle batch' bundle' t _ current proven proof shown held =>
      obtain rfl := Option.some.inj (hbatch.symm.trans current)
      obtain rfl := Option.some.inj (hbundle.symm.trans proof)
      obtain ⟨leaf, hleaf, hnullifier⟩ := hpays
      obtain ⟨id', r', hr', hsame, hin | hdrifted⟩ := held leaf hleaf
      · -- the nullifier belongs to one return, which is in the batch
        obtain rfl := hindexed.id_of_nullifier hr hr' (hnullifier.symm.trans hsame.symm)
        obtain rfl := Option.some.inj (hr.symm.trans hr')
        have hmember := (hflight.isMember_iff hindexed hr).2 hin
        have hget : (w.state.apply sdk.sha256 retry (.batchSettled b (some t) atMs)).returns.get id =
            some { r with record := r.record.settle atMs (some t) } := by
          rw [Ledger.get_apply _ (fun _ h => by cases h) (fun _ _ h => by cases h), hr]
          simp [Event.recordAfter, hmember]
        exact ⟨_, t, hget, by simp, rfl, by simp⟩
      · exact absurd hdrifted (hkept id')

/-- **Every paid burn is recorded as paid.** In a run in which no return drifts from its batch, whenever
a batch with a bundle is settled, every return whose nullifier the bundle pays is settled then, with the
transaction of the batch. -/
theorem paid_recorded {c : ServiceConfig} (h : (service sdk codec retry policy).Reach c)
    (hkept : ∀ id, ¬ Drifted c.world.past id) {ledger : Ledger} {b : String} {txid : Option String}
    {atMs : Nat} (hsettled : (ledger, Label.own (.batchSettled b txid atMs)) ∈ c.world.past)
    {batch : Batch} {bundle : BatchBundle} (hbatch : ledger.batches.get b = some batch)
    (hbundle : batch.bundle = some bundle) {id : String} {r : Return}
    (hr : ledger.returns.get id = some r) (hpays : bundle.Pays r.burn.nullifier) :
    ∃ r' t, (ledger.apply sdk.sha256 retry (.batchSettled b txid atMs)).returns.get id = some r' ∧
      r'.record.status = .settled ∧ txid = some t ∧ r'.record.settleTxid = some t := by
  obtain ⟨w, hs, rfl, hpast, hallowed, -⟩ := (reach_sound h).before hsettled
  obtain ⟨hindexed, hflight⟩ := Sound.ledger hs
  have hkept' : ∀ id, ¬ Drifted w.past id := fun id hdrifted => hkept id (hdrifted.mono hpast)
  cases hallowed with
  | run hrun => exact hrun.settles_paid hindexed hflight hkept' hbatch hbundle hr hpays

end Outcomes

/-- Both burns of a batch that has just formed. -/
theorem single_flight_sample : ∃ r s,
    (Sample.forming ⟨1, 1, 1⟩).state.returns.get (Sample.id .whole) = some r ∧
      (Sample.forming ⟨1, 1, 1⟩).state.Flies (Sample.id .whole) r ∧
    (Sample.forming ⟨1, 1, 1⟩).state.returns.get (Sample.id .left) = some s ∧
      (Sample.forming ⟨1, 1, 1⟩).state.Flies (Sample.id .left) s := by
  have hflies : ∀ coin ∈ [Guest.Sample.Coin.whole, .left],
      ∃ r, (Sample.forming ⟨1, 1, 1⟩).state.returns.get (Sample.id coin) = some r ∧
        (Sample.forming ⟨1, 1, 1⟩).state.Flies (Sample.id coin) r := by
    intro coin hcoin
    have hr := Sample.forming_get ⟨1, 1, 1⟩ hcoin
    obtain ⟨-, -, -, hflies⟩ := single_flight (Sample.reach_forming ⟨1, 1, 1⟩)
    exact ⟨_, hr, hflies _ _ hr (.inl (Sample.forming_status _ hr))⟩
  obtain ⟨r, hr, hwhole⟩ := hflies .whole List.mem_cons_self
  obtain ⟨s, hs, hleft⟩ := hflies .left (List.mem_cons_of_mem _ List.mem_cons_self)
  exact ⟨r, s, hr, hwhole, hs, hleft⟩

/-- Both burns that the service's own submission settled. -/
theorem settled_with_evidence_sample :
    ∃ w : History, ∀ coin ∈ [Guest.Sample.Coin.whole, .left],
      ∃ r, w.state.returns.get (Sample.id coin) = some r ∧ r.record.status = .settled ∧
        ∃ txid, r.record.settleTxid = some txid ∧ Evidence w.past r.burn.nullifier txid := by
  obtain ⟨assembled, hassembles⟩ := Sample.assembles_clean
  refine ⟨Sample.paid ⟨1, 1, 1⟩ assembled, fun coin hcoin => ?_⟩
  have hr := Sample.get_paid ⟨1, 1, 1⟩ assembled hcoin
  have hstatus := Sample.paidReturn_status coin
  obtain ⟨hnamed, hshown⟩ := settled_with_evidence (Sample.reach_paid ⟨1, 1, 1⟩ hassembles) hr
  obtain ⟨txid, htxid⟩ := hnamed hstatus
  exact ⟨_, hr, hstatus, txid, htxid, hshown txid htxid⟩

namespace Sample

open Guest.Sample (Coin sdk leaf)
open Wire.Sample (codec)

/-- The bundle pays what is kept. -/
theorem AssemblesTo.pays {acc : RebuiltAccumulator} {rejected : List Rejected}
    {verdict : Option Exclusion} {assembled : Assembled}
    (h : AssemblesTo acc rejected verdict assembled) {coin : Coin} (hkept : coin ∈ kept verdict) :
    (bundleOf batch.id assembled).Pays (posted coin).nullifier := by
  refine ⟨LeafHex.from (leaf coin), ?_, rfl⟩
  show _ ∈ assembled.leaves.map LeafHex.from
  rw [h.leaves]
  exact List.mem_map_of_mem (List.mem_map_of_mem hkept)

/-- A start that finds nothing finds no proof without its returns. -/
theorem not_drifted (retry : RetryPolicy) {past : Past}
    (hpast : assembliesOf past = [(forming retry).state]) (hstarts : startsOf past = [Ledger.empty])
    (key : String) : ¬ Drifted past key := by
  rintro (⟨r, hassembled, hstatus⟩ | ⟨ledger, hmem, other, hother, -⟩)
  · exact hstatus (assembledAs_status retry hpast hassembled)
  · have hledger : ledger ∈ startsOf past := List.mem_filterMap.2 ⟨_, hmem, rfl⟩
    rw [hstarts, List.mem_singleton] at hledger
    subst hledger
    have hnone : Ledger.empty.unsettledProofs = [] := by
      simp [Ledger.unsettledProofs, Ledger.empty, Dict.values, Dict.empty, Ledger.byFormation]
    rw [hnone] at hother
    cases hother

end Sample

/-- Both burns of a bundle that is settled. -/
theorem paid_recorded_sample :
    ∃ (ledger : Ledger) (b : String) (bundle : BatchBundle),
      (∃ batch, ledger.batches.get b = some batch ∧ batch.bundle = some bundle) ∧
      ∀ coin ∈ [Guest.Sample.Coin.whole, .left], ∃ r, ledger.returns.get (Sample.id coin) = some r ∧
        bundle.Pays r.burn.nullifier ∧
        ∃ r' t, (ledger.apply Guest.Sample.sdk.sha256 ⟨1, 1, 1⟩
            (.batchSettled b (some Sample.settlement) 0)).returns.get (Sample.id coin) = some r' ∧
          r'.record.status = .settled ∧ some Sample.settlement = some t ∧
          r'.record.settleTxid = some t := by
  obtain ⟨assembled, hassembles⟩ := Sample.assembles_clean
  have hkeeps := Sample.keeps_clean ⟨1, 1, 1⟩ assembled
  have hassemblies : assembliesOf (Sample.paid ⟨1, 1, 1⟩ assembled).past =
      [(Sample.forming ⟨1, 1, 1⟩).state] := rfl
  have hstarts : startsOf (Sample.paid ⟨1, 1, 1⟩ assembled).past = [Ledger.empty] := rfl
  have hkept := Sample.not_drifted ⟨1, 1, 1⟩ hassemblies hstarts
  have hsettled := submitting_settles Guest.Sample.sdk Wire.Sample.codec ⟨1, 1, 1⟩ Sample.policy
    (Sample.clean ⟨1, 1, 1⟩ assembled) Sample.batch.id (Sample.accOf .new) Sample.settlement 0
    (Sample.bundleOf Sample.batch.id assembled)
  refine ⟨_, _, _, ⟨_, hkeeps.batch, rfl⟩, fun coin hcoin => ?_⟩
  have hr := Sample.clean_get ⟨1, 1, 1⟩ assembled hcoin
  have hpays := hassembles.pays hcoin
  exact ⟨_, hr, hpays, paid_recorded (Sample.reach_paid ⟨1, 1, 1⟩ hassembles) hkept hsettled
    hkeeps.batch rfl hr hpays⟩

/-- A return that the simulation refused is paid after the rebase, and stays failed. -/
theorem paid_recorded_counterexample :
    ∃ (c : ServiceConfig) (ledger : Ledger) (b : String) (batch : Batch) (bundle : BatchBundle)
        (r r' : Return),
      (service Guest.Sample.sdk Wire.Sample.codec ⟨1, 1, 1⟩ Sample.policy).Reach c ∧
      (ledger, Label.own (.batchSettled b (some Sample.settlement) 0)) ∈ c.world.past ∧
      ledger.batches.get b = some batch ∧ batch.bundle = some bundle ∧
      ledger.returns.get (Sample.id .whole) = some r ∧ bundle.Pays r.burn.nullifier ∧
      (ledger.apply Guest.Sample.sdk.sha256 ⟨1, 1, 1⟩
        (.batchSettled b (some Sample.settlement) 0)).returns.get (Sample.id .whole) = some r' ∧
      r'.record.status = .failed := by
  obtain ⟨w, hfirst, hkeeps, -⟩ := Sample.first_round ⟨1, 1, 1⟩ Nat.one_pos
  -- the second round finds nothing against the burn
  have hnew : Guest.Sample.word Guest.Sample.Coin.left.number ∉
      (Sample.treeOf Sample.foreign).keys := by decide
  have hclear := @Sample.verdict_none (Sample.accOf (Sample.treeOf Sample.foreign)) [] .left
    (by decide) hnew fun _ h => (by cases h)
  obtain ⟨w', ledger, assembled, hturns, hassembles, hledger, hsettled, -⟩ :=
    Sample.second_round ⟨1, 1, 1⟩ hkeeps Sample.verdict_clear hclear hnew Sample.rules_none
  have hr := hledger.get _ List.mem_cons_self
  have hafter := (@Ledger.Keeps.settled _ _ ⟨1, 1, 1⟩ _ _ _ hledger (some Sample.settlement) 0).get _
    List.mem_cons_self
  rw [Sample.ruled_none, Return.inside_of_out (Sample.refused_out _ _)] at hafter
  rw [Sample.ruled_none] at hr
  exact ⟨_, ledger, _, _, _, _, _,
    (Sample.reach_forming ⟨1, 1, 1⟩).trans (System.turns_steps (hfirst.trans hturns)), hsettled,
    hledger.batch, rfl, hr, hassembles.pays List.mem_cons_self, hafter, Sample.refused_status ⟨1, 1, 1⟩⟩

end UnicityBridge.Service
