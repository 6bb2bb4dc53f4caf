import UnicityBridge.Service.Outcomes

/-!
# Settled batches and the vault

What the vault did is in a history as what happened outside. Given that the settler's receipts and the
second source's confirmations are true (`Truthful`), a batch that is recorded as settled is one that the
vault made, unless a foreign transaction released every return of a proven batch (`OwnFulfilments` rules
this out). The settled batches then add nothing to the vault's log, and it rebuilds to the same root.
-/

set_option autoImplicit false

namespace UnicityBridge.Service

open UnicityBridge.Lib
open UnicityBridge.Settlement (SettledBatch Transition rebuild outcome)

section Truth

variable {sdk : TokenSdk.Sdk} {codec : Wire.Codec} {retry : RetryPolicy} {policy : BatchPolicy}

/-! ## Transitions -/

/-- The accumulator step that the bundle's public values state. -/
def BatchBundle.transition (bundle : BatchBundle) : Option Transition := do
  let bytes ← hexBytes bundle.publicValues
  let publicValues ← Core.publicValuesFromAbi bytes
  some ⟨bundle.leaves.filterMap fun l => parseHex32 l.nullifier, publicValues.spentRootOld,
    publicValues.spentRootNew⟩

theorem Batch.settledBatch_transition {batch : Batch} {bundle : BatchBundle} {x : SettledBatch}
    (hbundle : batch.bundle = some bundle) (h : batch.settledBatch = some x) :
    bundle.transition = some x.transition := by
  simp only [settledBatch, hbundle, Option.bind_eq_bind, Option.bind_some, Option.bind_eq_some_iff,
    Option.some.injEq] at h
  obtain ⟨bytes, hbytes, values, hvalues, rfl⟩ := h
  simp [BatchBundle.transition, hbytes, hvalues, SettledBatch.transition, nullifiers, hbundle]

/-- **The settled batches of a ledger** are those of its batches that settled. -/
theorem Ledger.mem_settledBatches {ledger : Ledger} {x : SettledBatch}
    (h : x ∈ ledger.settledBatches) :
    ∃ b batch bundle, ledger.batches.get b = some batch ∧ batch.status = .settled ∧
      batch.bundle = some bundle ∧ bundle.transition = some x.transition := by
  obtain ⟨batch, hbatch, hx⟩ := List.mem_filterMap.1 h
  rw [List.mem_filter, Dict.mem_values, decide_eq_true_iff] at hbatch
  obtain ⟨⟨b, hb⟩, hstatus⟩ := hbatch
  obtain ⟨bundle, hbundle⟩ : ∃ bundle, batch.bundle = some bundle := by
    cases hbundle : batch.bundle with
    | none => simp [Batch.settledBatch, hbundle] at hx
    | some bundle => exact ⟨bundle, rfl⟩
  exact ⟨b, batch, bundle, hb, hstatus, hbundle, Batch.settledBatch_transition hbundle hx⟩

/-! ## What the vault did -/

/-- The batches that the vault fulfilled, in order. -/
def vaultLog (past : Past) : List SettledBatch :=
  past.reverse.filterMap fun moment =>
    match moment.2 with
    | .outside made => some made
    | _ => none

/-- The vault made the transition that the bundle states. -/
def Fulfilled (past : Past) (bundle : BatchBundle) : Prop :=
  ∃ made ∈ vaultLog past, bundle.transition = some made.transition

/-- The vault released the nullifier in this transaction. -/
def ReleasedBy (past : Past) (nullifier txid : String) : Prop :=
  ∃ made ∈ vaultLog past, (∃ n ∈ made.nullifiers, eqIgnoreAsciiCase nullifier (hex32 n) = true) ∧
    ∃ t, made.txid = some t ∧ eqIgnoreAsciiCase t txid = true

/-- A receipt is for a bundle that the vault fulfilled, and a confirmed release is one that the vault
made in the transaction that was asked about. -/
structure Truthful (past : Past) : Prop where
  submitted : ∀ ledger bundle txid,
    (ledger, Label.heard (Query.submit bundle) (SubmitOutcome.submitted txid)) ∈ past →
      Fulfilled past bundle
  confirmed : ∀ ledger asked answer,
    (ledger, Label.heard (Query.confirmReleases asked) (.ok answer)) ∈ past →
      ∀ c ∈ answer.confirmed, ReleasedBy past c.nullifier c.txid

/-- Whenever releases are confirmed: a transaction that released every return that is still in a proven
batch fulfilled the batch's own bundle. -/
def OwnFulfilments (past : Past) : Prop :=
  ∀ ledger asked answer, (ledger, Label.heard (Query.confirmReleases asked) (.ok answer)) ∈ past →
    ∀ b batch bundle txid, ledger.batches.get b = some batch → batch.status = .proven →
      batch.bundle = some bundle →
      (∃ id r, ledger.returns.get id = some r ∧ r.inBatch b = true) →
      (∀ id r, ledger.returns.get id = some r → r.inBatch b = true →
        ReleasedBy past r.burn.nullifier txid) →
      Fulfilled past bundle

theorem eqIgnoreAsciiCase_symm {a b : String} (h : eqIgnoreAsciiCase a b = true) :
    eqIgnoreAsciiCase b a = true := by
  simp only [eqIgnoreAsciiCase, beq_iff_eq] at h ⊢
  exact h.symm

/-- What was confirmed for a release the vault released. -/
theorem Truthful.released {past : Past} (h : Truthful past) {ledger : Ledger} {asked : List Release}
    {answer : Confirmations}
    (hheard : (ledger, Label.heard (Query.confirmReleases asked) (.ok answer)) ∈ past)
    {nullifier t txid : String} (hverdict : answer.verdict ⟨nullifier, t⟩ = .ok ())
    (hsame : eqIgnoreAsciiCase t txid = true) : ReleasedBy past nullifier txid := by
  obtain ⟨c, hc, his⟩ := Confirmations.verdict_ok.1 hverdict
  simp only [Release.is, Bool.and_eq_true] at his
  obtain ⟨made, hmade, ⟨n, hn, hnullifier⟩, t', ht', htxid⟩ := h.confirmed ledger asked answer hheard c hc
  refine ⟨made, hmade, ⟨n, hn, ?_⟩, t', ht', ?_⟩
  · exact eqIgnoreAsciiCase_trans (eqIgnoreAsciiCase_symm his.1) hnullifier
  · exact eqIgnoreAsciiCase_trans (eqIgnoreAsciiCase_trans htxid his.2) hsame

/-! ## Settled batches -/

/-- **What settles a batch shows that the vault made its transition.** -/
theorem RunOf.fulfilled {w : History} {b b' : String} {txid : Option String} {atMs : Nat}
    (h : RunOf sdk codec retry b' w (.batchSettled b txid atMs)) {past : Past} (hpast : w.past ⊆ past)
    (htruthful : Truthful past) (hown : OwnFulfilments past) {batch : Batch} {bundle : BatchBundle}
    (hbatch : w.state.batches.get b = some batch) (hbundle : batch.bundle = some bundle) :
    Fulfilled past bundle := by
  cases h with
  | @settle batch' bundle' t _ current proven proof shown held =>
      obtain rfl := Option.some.inj (hbatch.symm.trans current)
      obtain rfl := Option.some.inj (hbundle.symm.trans proof)
      rcases shown with ⟨ledger, hheard⟩ | ⟨ledger, asked, answer, hheard, haside, hsome, hall⟩
      · exact htruthful.submitted ledger bundle t (hpast hheard)
      · -- the returns in the batch are those that were in it when the releases were confirmed
        obtain ⟨id, r, hr, hin⟩ := hsome
        refine hown ledger asked answer (hpast hheard) b batch bundle t ?_ proven hbundle
          ⟨id, r, haside.inBatch_before hr hin, hin⟩ fun id' r' hr' hin' => ?_
        · rw [← haside.batches]
          exact hbatch
        · have hopen := Return.not_failedRecoverably_of_active (Return.active_of_inBatch hin')
          obtain ⟨t', hsame, hverdict⟩ := hall id' r' (haside.get hr' List.not_mem_nil hopen) hin'
          exact htruthful.released (hpast hheard) hverdict hsame

/-- A batch that is settled after an event was settled before it, unless the event settles it. -/
theorem Event.settled_before {e : Event} {b : String} {batch : Batch}
    (h : (e.batchAfter b batch).status = .settled) :
    (batch.status = .settled ∧ e.batchAfter b batch = batch) ∨
      ∃ txid atMs, e = .batchSettled b txid atMs := by
  cases e with
  | batchSettled b' txid atMs =>
      by_cases hb : b = b'
      · exact .inr ⟨txid, atMs, by rw [hb]⟩
      · simp only [batchAfter, if_neg hb] at h ⊢
        exact .inl ⟨h, trivial⟩
  | batchProven b' | batchFailed b' | batchRebased b' | batchInterrupted b' =>
      by_cases hb : b = b'
      · simp [batchAfter, hb] at h
      · simp only [batchAfter, if_neg hb] at h ⊢
        exact .inl ⟨h, trivial⟩
  | snapshot | accepted | requeued | batchFormed | returnExcluded => exact .inl ⟨h, rfl⟩

/-- Every settled batch has a bundle that the vault fulfilled. -/
theorem Sound.fulfilled {w : History} (h : Sound sdk codec retry policy w) {past : Past}
    (hpast : w.past ⊆ past) (htruthful : Truthful past) (hown : OwnFulfilments past) {b : String}
    {batch : Batch} {bundle : BatchBundle} (hbatch : w.state.batches.get b = some batch)
    (hstatus : batch.status = .settled) (hbundle : batch.bundle = some bundle) :
    Fulfilled past bundle := by
  induction h generalizing b batch bundle with
  | initial => cases hbatch
  | @own w e hbefore hallowed hadmits ih =>
      have hpast' : w.past ⊆ past := List.Subset.trans (List.subset_cons_self _ _) hpast
      rcases Ledger.batches_cases hadmits.ne_snapshot hbatch with
        ⟨old, hold, rfl⟩ | ⟨members, atMs, rfl, rfl, -⟩
      · rcases Event.settled_before hstatus with
          ⟨hsettled, hsame⟩ | ⟨txid, atMs, rfl⟩
        · rw [hsame] at hbundle
          exact ih hpast' hold hsettled hbundle
        · -- only the settle transaction of the bundle changes
          simp only [Event.batchAfter, if_true, Option.map_eq_some_iff] at hbundle
          obtain ⟨settled, hproof, rfl⟩ := hbundle
          have hfulfilled : Fulfilled past settled := by
            cases hallowed with
            | run hrun => exact hrun.fulfilled hpast' htruthful hown hold hproof
          exact hfulfilled
      · cases hstatus
  | @other w e hbefore hintake ih =>
      have haside := @Intake.aside sdk codec retry _ (Sound.ledger hbefore).1 _ hintake
      have hsame : w.state.batches.get b = some batch := by
        rw [← haside.batches]
        exact hbatch
      exact ih (List.Subset.trans (List.subset_cons_self _ _) hpast) hsame hstatus hbundle
  | heard _ _ _ ih | outside _ _ ih | started _ ih =>
      exact ih (List.Subset.trans (List.subset_cons_self _ _) hpast) hbatch hstatus hbundle

/-- **A batch recorded as settled is one the vault made.** In a run with true receipts and
confirmations, in which a transaction that releases every return still in a proven batch is the
fulfilment of that batch, each settled batch is a transition of the vault's log; so whenever the log
rebuilds, it does so with the settled batches appended, to the same accumulator. -/
theorem settled_made {c : ServiceConfig} (h : (service sdk codec retry policy).Reach c)
    (htruthful : Truthful c.world.past) (hown : OwnFulfilments c.world.past) :
    (∀ x ∈ c.world.state.settledBatches, ∃ made ∈ vaultLog c.world.past,
      made.transition = x.transition) ∧
    ∀ acc, rebuild sdk.sha256 (vaultLog c.world.past) = .ok acc →
      ∃ acc', rebuild sdk.sha256 (vaultLog c.world.past ++ c.world.state.settledBatches) = .ok acc' ∧
        acc'.tree = acc.tree ∧ acc'.spentRoot = acc.spentRoot ∧ acc'.spentCount = acc.spentCount := by
  have hmade : ∀ x ∈ c.world.state.settledBatches, ∃ made ∈ vaultLog c.world.past,
      made.transition = x.transition := by
    intro x hx
    obtain ⟨b, batch, bundle, hbatch, hstatus, hbundle, htransition⟩ := Ledger.mem_settledBatches hx
    obtain ⟨made, hmade, hsame⟩ := (reach_sound h).fulfilled (List.Subset.refl _) htruthful hown
      hbatch hstatus hbundle
    exact ⟨made, hmade, Option.some.inj (hsame.symm.trans htransition)⟩
  refine ⟨hmade, fun acc hacc => ?_⟩
  have hsame := @Settlement.outcome_congr sdk.sha256 (vaultLog c.world.past)
    (vaultLog c.world.past ++ c.world.state.settledBatches) fun t => by
      rw [List.map_append, List.mem_append]
      refine ⟨.inl, fun ht => ht.elim id fun hsettled => ?_⟩
      obtain ⟨x, hx, rfl⟩ := List.mem_map.1 hsettled
      obtain ⟨made, hlog, htransition⟩ := hmade x hx
      exact htransition ▸ List.mem_map_of_mem hlog
  cases hrun : rebuild sdk.sha256 (vaultLog c.world.past ++ c.world.state.settledBatches) with
  | error e =>
      rw [hacc, hrun] at hsame
      cases hsame
  | ok acc' =>
      rw [hacc, hrun, outcome, outcome, Option.some.injEq, Prod.mk.injEq, Prod.mk.injEq] at hsame
      exact ⟨acc', rfl, hsame.1.symm, hsame.2.1.symm, hsame.2.2.symm⟩

end Truth

/-! ## A settlement, and a release by others -/

namespace Sample

open Guest.Sample (Coin sdk)
open Wire.Sample (codec)
open Accumulator (NullifierTree)
open Settlement (RebuiltAccumulator)

variable (retry : RetryPolicy)

/-- The batch that was proven on the empty vault, settled in this transaction. -/
def settledBy (assembled : Assembled) (txid : String) : Batch :=
  (batch.provenWith assembled (proofOf assembled) 0).settledWith (some txid)

/-- What that batch is recorded as. -/
def recorded (assembled : Assembled) (txid : String) : SettledBatch :=
  ⟨[Guest.Sample.word Coin.whole.number, Guest.Sample.word Coin.left.number],
    assembled.publicValues.spentRootOld, assembled.publicValues.spentRootNew, some txid⟩

theorem nullifiers_provenWith {assembled : Assembled}
    (h : AssemblesTo (accOf .new) [] none assembled) :
    (batch.provenWith assembled (proofOf assembled) 0).nullifiers =
      [Guest.Sample.word Coin.whole.number, Guest.Sample.word Coin.left.number] := by
  rw [Batch.nullifiers_provenWith, h.leaves]
  rfl

theorem settledBatch_settledBy {assembled : Assembled}
    (h : AssemblesTo (accOf .new) [] none assembled) (txid : String) :
    (settledBy assembled txid).settledBatch = some (recorded assembled txid) := by
  have hnullifiers : (settledBy assembled txid).nullifiers =
      [Guest.Sample.word Coin.whole.number, Guest.Sample.word Coin.left.number] := nullifiers_provenWith h
  rw [@Batch.settledBatch_eq (settledBy assembled txid) _ _ rfl rfl, hnullifiers]
  rfl

/-- The batch is settled, and the vault has made it. -/
def fulfilled (assembled : Assembled) : History :=
  (paid retry assembled).outside (recorded assembled settlement)

theorem keeps_fulfilled (assembled : Assembled) : (fulfilled retry assembled).state.Keeps sdk codec
    (settledBy assembled settlement) [paidReturn .whole, paidReturn .left] := by
  have hkeeps := keeps_paid retry assembled
  unfold fulfilled
  generalize paid retry assembled = w at hkeeps ⊢
  exact hkeeps

/-- The transaction that releases both burns, with another. -/
def elsewhere : String := "0x7f"

/-- The tree of a vault that made it. -/
def releasedTree : NullifierTree :=
  ⟨[Guest.Sample.word Coin.whole.number, Guest.Sample.word Coin.left.number, foreign], by decide⟩

/-- What the vault made. -/
def made : SettledBatch :=
  ⟨releasedTree.keys, NullifierTree.new.root sdk.sha256, releasedTree.root sdk.sha256, some elsewhere⟩

/-- The accumulator of the vault's log. -/
def releasedAcc : RebuiltAccumulator :=
  ⟨releasedTree, releasedTree.root sdk.sha256, releasedTree.keys.length, fun _ => some elsewhere⟩

/-- The release of a burn there. -/
def releaseOf (coin : Coin) : Release := ⟨id coin, elsewhere⟩

/-- The releases that are asked about and confirmed. -/
def releases : List Release := [releaseOf .whole, releaseOf .left]

/-- The batch is proven on the empty vault, whose log is behind. -/
def behind (assembled : Assembled) : History :=
  provingFrom retry ((forming retry).outside made) batch (accOf .new) [] none assembled

/-- The batch is settled by the release. -/
def overtaken (assembled : Assembled) : History :=
  releasing sdk codec retry policy (behind retry assembled) batch.id releasedAcc releases ⟨releases, []⟩
    elsewhere 0

theorem keeps_outside : ((forming retry).outside made).state.Keeps sdk codec batch
    [entered .whole, entered .left] := keeps_forming retry

theorem keeps_behind (assembled : Assembled) : (behind retry assembled).state.Keeps sdk codec
    (batch.provenWith assembled (proofOf assembled) 0) [proved .whole, proved .left] := by
  have hproven := @Ledger.Keeps.rounding _ _ retry policy _ _ _ (accOf .new) [] [] assembled
    (proofOf assembled) 0 (keeps_outside retry)
  have hrounded (coin : Coin) : (entered coin).rounded retry batch.id [] 0 = proved coin :=
    Return.rounded_of_in (entered_in coin) fun _ hentry => (by cases hentry)
  rw [List.map_cons, List.map_singleton, hrounded, hrounded] at hproven
  exact hproven

/-- What the orchestrator finds released. -/
def releasedMember (coin : Coin) : Released := ⟨id coin, id coin, some elsewhere⟩

theorem releasedMembers_behind {assembled : Assembled}
    (h : AssemblesTo (accOf .new) [] none assembled) :
    (behind retry assembled).state.releasedMembers
      (batch.provenWith assembled (proofOf assembled) 0) releasedAcc =
        [releasedMember .whole, releasedMember .left] := by
  have hkeeps := keeps_behind retry assembled
  have hreturn (coin : Coin) (hcoin : coin ∈ [Coin.whole, Coin.left]) :
      (behind retry assembled).state.returnOf (hex32 (Guest.Sample.word coin.number)) =
        some (proved coin) :=
    hkeeps.indexed.returnOf_eq_some.2 ⟨hkeeps.get _ (List.mem_map_of_mem hcoin), rfl⟩
  have hin (coin : Coin) :
      (proved coin).inBatch (batch.provenWith assembled (proofOf assembled) 0).id = true :=
    proved_in coin
  rw [Ledger.releasedMembers, nullifiers_provenWith h]
  simp only [List.filterMap_cons, List.filterMap_nil, hreturn .whole (by decide),
    hreturn .left (by decide), Option.bind_eq_bind, Option.bind_some, hin, if_true]
  rfl

/-- The second source confirms both. -/
theorem verdict_releases {coin : Coin} (hcoin : coin ∈ [Coin.whole, Coin.left]) :
    Confirmations.verdict ⟨releases, []⟩ (releaseOf coin) = .ok () := by
  refine Confirmations.verdict_ok.2 ⟨releaseOf coin, List.mem_map_of_mem hcoin, ?_⟩
  rw [Release.is, Bool.and_eq_true]
  exact ⟨eqIgnoreAsciiCase_hex32.2 rfl, by simp [releaseOf, eqIgnoreAsciiCase]⟩

/-- **A release of the whole batch**: the service records the batch as settled. -/
theorem reach_overtaken {assembled : Assembled} (h : AssemblesTo (accOf .new) [] none assembled) :
    (service sdk codec retry policy).Reach
      (⟨overtaken retry assembled, .running (.done (.loop (.collecting false)))⟩ : ServiceConfig) := by
  have hall : allReleased sdk.sha256 (batch.provenWith assembled (proofOf assembled) 0) releasedAcc =
      true := by
    rw [allReleased, nullifiers_provenWith h]
    simp [releasedAcc, releasedTree, Accumulator.nonMembershipWitness_eq_none]
  have hwhole := @verdict_releases .whole (by decide)
  have hleft := @verdict_releases .left (by decide)
  have hone : oneTransaction ([releasedMember .whole, releasedMember .left].map
      (Released.verdict (.ok ⟨releases, []⟩))) = some elsewhere := by
    rw [releaseOf] at hwhole hleft
    simp only [releasedMember, List.map_cons, List.map_nil, Released.verdict, hwhole, hleft]
    rfl
  have hround : (Orchestrator.proveStage sdk codec retry batch).CanEnd (service sdk codec retry policy)
      (fun w' stage => w' = overtaken retry assembled ∧ stage = .done) ((forming retry).outside made) := by
    refine round (keeps_outside retry) rfl rfl rfl h rules_none ?_
    exact Orchestrator.settleStage_releases hall (releasedMembers_behind retry h) (List.cons_ne_nil _ _)
      hone 0 ⟨rfl, rfl⟩
  obtain ⟨w', stage, ⟨rfl, rfl⟩, hturns⟩ := Orchestrator.run_goes rfl hround
  exact ((reach_forming retry).tail (.outside made)).trans (System.turns_steps hturns)

theorem keeps_overtaken (assembled : Assembled) : (overtaken retry assembled).state.Keeps sdk codec
    (settledBy assembled elsewhere) ([proved .whole, proved .left].map
      (Return.inside batch.id fun record => record.settle 0 (some elsewhere))) := by
  have hsettled := @Ledger.Keeps.settled _ _ retry _ _ _ (keeps_behind retry assembled)
    (some elsewhere) 0
  rw [overtaken, releasing_state]
  exact hsettled

end Sample

/-- The batch of both burns, submitted by the service and made by the vault. -/
theorem settled_made_sample :
    ∃ (w : History) (x : Settlement.SettledBatch), x ∈ w.state.settledBatches ∧
      x.nullifiers.length = 2 ∧ ∃ made ∈ vaultLog w.past, made.transition = x.transition := by
  obtain ⟨assembled, hassembles⟩ := Sample.assembles_clean
  have hreach : (service Guest.Sample.sdk Wire.Sample.codec ⟨1, 1, 1⟩ Sample.policy).Reach
      (⟨Sample.fulfilled ⟨1, 1, 1⟩ assembled,
        .running (.done (.loop (.collecting false)))⟩ : ServiceConfig) :=
    (Sample.reach_paid ⟨1, 1, 1⟩ hassembles).tail (.outside _)
  have hsettled := Sample.settledBatch_settledBy hassembles Sample.settlement
  have hx := (Sample.keeps_fulfilled ⟨1, 1, 1⟩ assembled).settledBatch rfl hsettled
  have hlog : vaultLog (Sample.fulfilled ⟨1, 1, 1⟩ assembled).past =
    [Sample.recorded assembled Sample.settlement] := rfl
  have hanswers : answersOf (Sample.fulfilled ⟨1, 1, 1⟩ assembled).past = [] := rfl
  have hsubmissions : submissionsOf (Sample.fulfilled ⟨1, 1, 1⟩ assembled).past =
    [Sample.bundleOf Sample.batch.id assembled] := rfl
  have hunasked : ∀ ledger asked answer, (ledger, Label.heard (Query.confirmReleases asked) (.ok answer)) ∉
      (Sample.fulfilled ⟨1, 1, 1⟩ assembled).past := by
    intro ledger asked answer hheard
    have hmem : answer ∈ answersOf (Sample.fulfilled ⟨1, 1, 1⟩ assembled).past :=
      List.mem_filterMap.2 ⟨_, hheard, rfl⟩
    rw [hanswers] at hmem
    cases hmem
  have htruthful : Truthful (Sample.fulfilled ⟨1, 1, 1⟩ assembled).past := by
    refine ⟨fun ledger bundle txid hheard => ?_,
      fun ledger asked answer hheard => absurd hheard (hunasked ledger asked answer)⟩
    have hmem : bundle ∈ submissionsOf (Sample.fulfilled ⟨1, 1, 1⟩ assembled).past :=
      List.mem_filterMap.2 ⟨_, hheard, rfl⟩
    rw [hsubmissions, List.mem_singleton] at hmem
    subst hmem
    refine ⟨_, hlog ▸ List.mem_singleton_self _, ?_⟩
    -- the settlement changes nothing that the transition is made of
    have hbundle : (Sample.settledBy assembled Sample.settlement).bundle =
      some { Sample.bundleOf Sample.batch.id assembled with settleTxid := some Sample.settlement } := rfl
    have htransition := Batch.settledBatch_transition hbundle hsettled
    exact htransition
  have hown : OwnFulfilments (Sample.fulfilled ⟨1, 1, 1⟩ assembled).past :=
    fun ledger asked answer hheard => absurd hheard (hunasked ledger asked answer)
  exact ⟨_, _, hx, rfl, (settled_made hreach htruthful hown).1 _ hx⟩

/-- A third party releases both burns together with another: the service records a transition that the
vault did not make. -/
theorem settled_made_counterexample :
    ∃ (c : ServiceConfig) (x : Settlement.SettledBatch),
      (service Guest.Sample.sdk Wire.Sample.codec ⟨1, 1, 1⟩ Sample.policy).Reach c ∧
      Truthful c.world.past ∧ x ∈ c.world.state.settledBatches ∧
      ∀ made ∈ vaultLog c.world.past, made.transition ≠ x.transition := by
  obtain ⟨assembled, hassembles⟩ := Sample.assembles_clean
  have hsettled := Sample.settledBatch_settledBy hassembles Sample.elsewhere
  have hx := (Sample.keeps_overtaken ⟨1, 1, 1⟩ assembled).settledBatch rfl hsettled
  have hlog : vaultLog (Sample.overtaken ⟨1, 1, 1⟩ assembled).past = [Sample.made] := rfl
  have hsubmissions : submissionsOf (Sample.overtaken ⟨1, 1, 1⟩ assembled).past = [] := rfl
  have hanswers : answersOf (Sample.overtaken ⟨1, 1, 1⟩ assembled).past = [⟨Sample.releases, []⟩] := rfl
  refine ⟨_, _, Sample.reach_overtaken ⟨1, 1, 1⟩ hassembles, ?_, hx, ?_⟩
  · constructor
    · intro ledger bundle txid hheard
      have hmem : bundle ∈ submissionsOf (Sample.overtaken ⟨1, 1, 1⟩ assembled).past :=
        List.mem_filterMap.2 ⟨_, hheard, rfl⟩
      rw [hsubmissions] at hmem
      cases hmem
    · intro ledger asked answer hheard c hc
      have hmem : answer ∈ answersOf (Sample.overtaken ⟨1, 1, 1⟩ assembled).past :=
        List.mem_filterMap.2 ⟨_, hheard, rfl⟩
      rw [hanswers, List.mem_singleton] at hmem
      subst hmem
      obtain ⟨coin, hcoin, rfl⟩ : ∃ coin ∈ [Guest.Sample.Coin.whole, .left],
          c = Sample.releaseOf coin := by
        rcases List.mem_pair.1 hc with rfl | rfl
        · exact ⟨.whole, by decide, rfl⟩
        · exact ⟨.left, by decide, rfl⟩
      refine ⟨Sample.made, hlog ▸ List.mem_singleton_self _,
        ⟨Guest.Sample.word coin.number, ?_, eqIgnoreAsciiCase_hex32.2 rfl⟩, Sample.elsewhere, rfl, ?_⟩
      · rcases List.mem_pair.1 hcoin with rfl | rfl
        · exact List.mem_cons_self
        · exact List.mem_cons_of_mem _ List.mem_cons_self
      · simp [Sample.releaseOf, eqIgnoreAsciiCase]
  · -- the vault released three nullifiers, the record has two
    intro made hmade hsame
    rw [hlog, List.mem_singleton] at hmade
    subst hmade
    have hlength := congrArg (fun t => t.nullifiers.length) hsame
    exact absurd hlength (show (3 : Nat) ≠ 2 by decide)

end UnicityBridge.Service
