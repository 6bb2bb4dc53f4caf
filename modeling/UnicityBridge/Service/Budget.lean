import UnicityBridge.Service.Courses

/-!
# The rebase budget

The journal counts the rebases of a batch over the whole history of the service, restarts included, and
the count never passes `max_rebases`. A run of a batch comes to an end therefore, whatever the vault's
root does and whatever the settler and the prover answer; and it does not get stuck before, since all it
asks can be answered and all it commits is admitted.
-/

set_option autoImplicit false

namespace UnicityBridge.Service

open UnicityBridge.Lib
open UnicityBridge.Settlement (RebuiltAccumulator)
open Orchestrator (Point Loop)

section Runs

variable {sdk : TokenSdk.Sdk} {codec : Wire.Codec} {retry : RetryPolicy} {policy : BatchPolicy}

/-! ## The count -/

/-- The moment is a rebase of this batch. -/
def Rebases (b : String) : Moment → Bool
  | .own (.batchRebased b' _) => b' = b
  | _ => false

/-- How often a history rebased a batch. -/
def rebasesOf (past : Past) (b : String) : Nat := past.countP fun moment => Rebases b moment.2

/-- Every batch carries the number of its rebases, which is within the budget. -/
structure Budget (retry : RetryPolicy) (w : History) : Prop where
  counted : ∀ b batch, w.state.batches.get b = some batch → batch.rebases = rebasesOf w.past b
  fresh : ∀ b, w.state.batches.get b = none → rebasesOf w.past b = 0
  within : ∀ b, rebasesOf w.past b ≤ retry.maxRebases

theorem Event.batchAfter_rebases (b : String) (batch : Batch) (e : Event) :
    (e.batchAfter b batch).rebases =
      batch.rebases + if Rebases b (Label.own e : Moment) then 1 else 0 := by
  cases e with
  | batchRebased b' atMs =>
      by_cases hb : b = b'
      · simp [batchAfter, Rebases, hb]
      · simp [batchAfter, Rebases, hb, Ne.symm hb]
  | batchProven b' | batchSettled b' | batchFailed b' | batchInterrupted b' =>
      simp only [batchAfter, Rebases]
      split <;> simp
  | _ => simp [batchAfter, Rebases]

/-- An event keeps the count. -/
theorem Budget.own {w : History} {e : Event} (h : Budget retry w)
    (hallowed : Allowed sdk codec retry w e) (hadmits : e.Admissible sdk codec w.state) :
    Budget retry (w.own (service sdk codec retry policy) e) := by
  have hcount : ∀ b, rebasesOf (w.own (service sdk codec retry policy) e).past b =
      rebasesOf w.past b + if Rebases b (Label.own e : Moment) then 1 else 0 := fun b => by
    rw [rebasesOf, World.own, List.countP_cons]
    rfl
  constructor
  · intro b batch' hget
    rw [hcount]
    rcases Ledger.batches_cases hadmits.ne_snapshot hget with
      ⟨batch, hbatch, rfl⟩ | ⟨members, atMs, rfl, rfl, rfl⟩
    · rw [Event.batchAfter_rebases, h.counted b batch hbatch]
    · rw [h.fresh _ hadmits]
      rfl
  · intro b hnone
    have hbefore : w.state.batches.get b = none := by
      cases hget : w.state.batches.get b with
      | none => rfl
      | some batch =>
          obtain ⟨batch', hafter, -⟩ := @Ledger.batch_persists _ _ retry _ _ hadmits _ _ hget
          cases hnone.symm.trans hafter
    rw [hcount, h.fresh b hbefore]
    cases hrebases : Rebases b (Label.own e : Moment) with
    | false => rfl
    | true =>
        -- only a batch of the ledger is rebased
        cases hallowed with
        | run hrun =>
            cases hrun with
            | rebase current =>
                obtain rfl : _ = b := by simpa [Rebases] using hrebases
                rw [hbefore] at current
                cases current
            | _ => cases hrebases
        | _ => cases hrebases
  · intro b
    rw [hcount]
    cases hrebases : Rebases b (Label.own e : Moment) with
    | false => simpa using h.within b
    -- a rebase was allowed only below the limit
    | true =>
        cases hallowed with
        | run hrun =>
            cases hrun with
            | rebase current _ within =>
                obtain rfl : _ = b := by simpa [Rebases] using hrebases
                rw [h.counted _ _ current] at within
                rw [if_pos rfl]
                omega
            | _ => cases hrebases
        | _ => cases hrebases

/-- A moment that is no event of the orchestrator keeps the count. -/
theorem Budget.beside {w w' : History} (h : Budget retry w) {moment : Ledger × Moment}
    (hpast : w'.past = moment :: w.past) (hmoment : ∀ b, Rebases b moment.2 = false)
    (hbatches : w'.state.batches = w.state.batches) : Budget retry w' := by
  have hcount : ∀ b, rebasesOf w'.past b = rebasesOf w.past b := fun b => by
    rw [rebasesOf, hpast, List.countP_cons, hmoment b]
    rfl
  constructor
  · intro b batch hget
    rw [hcount]
    exact h.counted b batch (hbatches ▸ hget)
  · intro b hget
    rw [hcount]
    exact h.fresh b (hbatches ▸ hget)
  · intro b
    rw [hcount]
    exact h.within b

/-- **The count is the number of rebases over the whole history, and within the budget.** -/
theorem Sound.budget {w : History} (h : Sound sdk codec retry policy w) : Budget retry w := by
  induction h with
  | initial =>
      refine ⟨fun b batch hget => ?_, fun _ _ => rfl, fun _ => Nat.zero_le _⟩
      cases hget
  | own _ hallowed hadmits ih => exact ih.own hallowed hadmits
  | other hbefore hintake ih =>
      have haside := @Intake.aside sdk codec retry _ (Sound.ledger hbefore).1 _ hintake
      exact ih.beside rfl (fun _ => rfl) haside.batches
  | heard _ question answer ih => exact ih.beside rfl (fun _ => rfl) rfl
  | outside _ x ih => exact ih.beside rfl (fun _ => rfl) rfl
  | started _ ih => exact ih.beside rfl (fun _ => rfl) rfl

/-! ## A run of a batch -/

/-- Where a run of the batch `b` stands: about to start, about to prove again, or at its end. Until
then the batch has been rebased `k` times at least. -/
def RunAt (b : String) (after : Loop) (k : Nat) (w : History) : Point → Prop
  | .run batch after' => batch.id = b ∧ after' = after ∧ batch.Runs w.state ∧
      Orchestrator.Starts w batch ∧ k ≤ batch.rebases
  | .rebased b' after' => b' = b ∧ after' = after ∧ ∃ batch, w.state.batches.get b = some batch ∧
      batch.status = .proving ∧ k ≤ batch.rebases
  | .loop turn => turn = after ∧ ∃ batch, w.state.batches.get b = some batch ∧ Finished w.past batch
  | _ => False

section Stages

variable {w : History} {after : Loop} {k : Nat}

/-- Where a stage of a batch leads. -/
theorem IsStage.runAt {batch : Batch} {prog : Program Stage}
    (hstage : IsStage sdk codec retry policy batch prog w) :
    (prog >>= fun stage => pure (Point.after batch.id after stage)).Ensures
      (service sdk codec retry policy) (Allowed sdk codec retry) (Allowed sdk codec retry)
      (fun w' point => RunAt batch.id after (batch.rebases + 1) w' point) w := by
  refine Prog.Ensures.bind (Prog.Ensures.mono hstage RunOf.allowed fun _ _ h _ => h) ?_
  intro w₁ stage hended hs₁
  refine ensures_end hs₁ fun w' hsince _ => ?_
  have hended' := Ended.since hended hsince
  cases stage with
  | done =>
      obtain ⟨-, batch', hget, -, hfinished⟩ := hended'
      exact ⟨rfl, batch', hget, hfinished⟩
  | rebase =>
      obtain ⟨batch', hget, hproving, hrebases, -⟩ := hended'
      exact ⟨rfl, rfl, batch', hget, hproving, hrebases.ge⟩

theorem RunAt.mono {b : String} {k' : Nat} {point : Point} (h : RunAt b after k' w point)
    (hk : k ≤ k') : RunAt b after k w point := by
  cases point with
  | run =>
      obtain ⟨hb, hafter, hruns, hstarts, hrebases⟩ := h
      exact ⟨hb, hafter, hruns, hstarts, hk.trans hrebases⟩
  | rebased =>
      obtain ⟨hb, hafter, batch, hget, hproving, hrebases⟩ := h
      exact ⟨hb, hafter, batch, hget, hproving, hk.trans hrebases⟩
  | opening | loop | stopping | stopped => exact h

/-- **Each round of a run** rebases the batch once more or ends the run. -/
theorem code_runAt {b : String} {point : Point} (hs : Sound sdk codec retry policy w)
    (hinside : InRun point) (hpoint : RunAt b after k w point) :
    (Orchestrator.code sdk codec retry policy point).Ensures (service sdk codec retry policy)
      (Allowed sdk codec retry) (Allowed sdk codec retry)
      (fun w' point' => RunAt b after (k + 1) w' point') w := by
  cases point with
  | run batch after' =>
      obtain ⟨rfl, rfl, hruns, hstarts, hrebases⟩ := hpoint
      have hstage := Orchestrator.start_stage hs hruns hstarts
      have hnext : ∀ w' point', RunAt batch.id after' (batch.rebases + 1) w' point' →
          Sound sdk codec retry policy w' → RunAt batch.id after' (k + 1) w' point' :=
        fun _ _ h _ => h.mono (Nat.add_le_add_right hrebases 1)
      show (Orchestrator.runBatch sdk codec retry batch after').Ensures _ _ _ _ _
      unfold Orchestrator.runBatch
      split
      · next hsome =>
        rw [if_pos hsome] at hstage
        exact hstage.runAt.mono (fun _ _ h => h) hnext
      · next hnone =>
        rw [if_neg hnone] at hstage
        exact hstage.runAt.mono (fun _ _ h => h) hnext
  | rebased b' after' =>
      obtain ⟨rfl, rfl, batch, hget, hproving, hrebases⟩ := hpoint
      -- the batch is read again, with the count that the journal has
      refine ensures_look hs fun w₁ hsince₁ hs₁ => ?_
      have hget₁ : w₁.state.batches.get b' = some batch := by
        rw [hsince₁.aside.batches]
        exact hget
      rw [hget₁]
      obtain rfl := (Sound.ledger hs₁).1.batch_id b' batch hget₁
      have hruns : batch.Runs w₁.state := by
        refine ⟨hget₁, .inl hproving, fun b' hb' => ?_⟩
        exact (Sound.ledger hs₁).2.single b' batch.id hb' ⟨batch, hget₁, hproving⟩
      refine (Orchestrator.proveStage_stage hs₁ hruns hproving).runAt.mono (fun _ _ h => h) ?_
      exact fun _ _ h _ => h.mono (Nat.add_le_add_right hrebases 1)
  | opening | loop | stopping | stopped => cases hinside

/-- A point of a run is within the budget. -/
theorem RunAt.le_maxRebases {b : String} {point : Point} (h : RunAt b after k w point)
    (hs : Sound sdk codec retry policy w) (hinside : InRun point) : k ≤ retry.maxRebases := by
  have hbudget := Sound.budget hs
  cases point with
  | run batch after' =>
      obtain ⟨rfl, -, hruns, -, hrebases⟩ := h
      rw [hbudget.counted _ _ hruns.current] at hrebases
      exact hrebases.trans (hbudget.within _)
  | rebased b' after' =>
      obtain ⟨rfl, -, batch, hget, -, hrebases⟩ := h
      rw [hbudget.counted _ _ hget] at hrebases
      exact hrebases.trans (hbudget.within _)
  | opening | loop | stopping | stopped => cases hinside

/-- **A run terminates**: each round uses up some of the budget. -/
theorem RunAt.terminates {b : String} {point : Point} (hs : Sound sdk codec retry policy w)
    (hinside : InRun point) (hpoint : RunAt b after k w point) :
    Acc (fun c' c => (service sdk codec retry policy).Move InRun c c')
      ⟨w, .running (Orchestrator.code sdk codec retry policy point)⟩ := by
  -- by induction over what is left of the budget
  obtain ⟨left, hleft⟩ : ∃ left, retry.maxRebases + 1 ≤ left + k := ⟨retry.maxRebases + 1, by omega⟩
  induction left generalizing k w point with
  | zero =>
      have hk := hpoint.le_maxRebases hs hinside
      omega
  | succ left ih =>
      refine (code_runAt hs hinside hpoint).terminates hs fun point' w' hs' hpoint' hinside' => ?_
      exact ih hs' hinside' hpoint' (by omega)

end Stages

/-- What is known at a point of a run. -/
theorem runAt_of_holds {w : History} {point : Point} (h : point.Holds retry w)
    (hinside : InRun point) : ∃ b after, RunAt b after 0 w point := by
  cases point with
  | run batch after =>
      obtain ⟨hruns, hstarts, -⟩ := h
      exact ⟨batch.id, after, rfl, rfl, hruns, hstarts, Nat.zero_le _⟩
  | rebased b after =>
      obtain ⟨⟨batch, hget, hproving, -⟩, -⟩ := h
      exact ⟨b, after, rfl, rfl, batch, hget, hproving, Nat.zero_le _⟩
  | opening | loop | stopping | stopped => cases hinside

/-! ## Progress -/

namespace Orchestrator

section Live

variable {batch : Batch}

theorem fail_live (kind : ErrorKind) (message : String) :
    (fail batch kind message).Live (service sdk codec retry policy) := by
  refine Prog.live_query (0 : Nat) fun nowMs => ?_
  exact Prog.live_commit (fun _ => trivial) (Prog.live_pure _)

theorem exclude_live (excluded : List (String × Exclusion)) :
    (exclude excluded).Live (service sdk codec retry policy) := by
  induction excluded with
  | nil => exact Prog.live_pure _
  | cons entry rest ih =>
      refine Prog.live_query (0 : Nat) fun nowMs => ?_
      exact Prog.live_commit (fun _ => trivial) ih

theorem rebaseOrFail_live (why : String) :
    (rebaseOrFail retry batch why).Live (service sdk codec retry policy) := by
  unfold rebaseOrFail
  split
  · refine Prog.live_query (0 : Nat) fun nowMs => ?_
    exact Prog.live_commit (fun _ => trivial) (Prog.live_pure _)
  · exact fail_live _ _

theorem settle_live (txid : String) : (do
      let nowMs ← Clock.nowMs
      ReturnStore.apply (.batchSettled batch.id (some txid) nowMs)
      pure Stage.done : Program Stage).Live (service sdk codec retry policy) := by
  refine Prog.live_query (0 : Nat) fun nowMs => ?_
  exact Prog.live_commit (fun _ => trivial) (Prog.live_pure _)

/-- An answer of the chain log, for a question that must have one. -/
def unread : Except ChainSyncError RebuiltAccumulator := .error .noConfirmationSource

theorem unsynced_live (error : ChainSyncError) :
    (unsynced batch error).Live (service sdk codec retry policy) :=
  (fail_live _ _).bind fun _ => Prog.live_pure _

theorem syncedAfter_live (delays : List Nat) :
    (syncedAfter batch delays).Live (service sdk codec retry policy) := by
  -- by induction over the delays that are left
  induction delays with
  | nil =>
      refine Prog.live_read fun known => Prog.live_query unread fun answer => ?_
      cases answer with
      | ok acc => exact Prog.live_pure _
      | error error => exact unsynced_live error
  | cons delay rest ih =>
      refine Prog.live_read fun known => Prog.live_query unread fun answer => ?_
      cases answer with
      | ok acc => exact Prog.live_pure _
      | error error =>
          simp only
          split
          · exact Prog.live_query () fun _ => ih
          · exact unsynced_live error

theorem confirm_live (released : List Released) :
    (confirm released).Live (service sdk codec retry policy) := by
  unfold confirm
  by_cases hasked : askedOf released = []
  · simp only [hasked, if_true]
    exact Prog.live_pure _
  · simp only [hasked, if_false]
    apply Prog.live_query (.error .noConfirmationSource)
    exact fun answer => Prog.live_pure _

theorem confirmed_live (excluded : List (String × Exclusion)) (nullifiers : Dict String String) :
    (confirmed excluded nullifiers).Live (service sdk codec retry policy) :=
  (confirm_live _).bind fun _ => Prog.live_pure _

theorem released_live (acc : RebuiltAccumulator) :
    (released batch acc).Live (service sdk codec retry policy) := by
  refine Prog.live_read fun members => (confirm_live _).bind fun verdicts => ?_
  split
  · exact settle_live _
  · exact (exclude_live _).bind fun _ => fail_live _ _

theorem awaitSettlementAfter_live (txid : String) (checks : List Nat) :
    (awaitSettlementAfter sdk retry batch txid checks).Live (service sdk codec retry policy) := by
  -- by induction over the checks that are left
  induction checks with
  | nil => exact fail_live _ _
  | cons delay rest ih =>
      refine Prog.live_query () fun _ => Prog.live_read fun known => ?_
      refine Prog.live_query unread fun answer => ?_
      cases answer with
      | error error => exact ih
      | ok acc =>
          simp only
          split
          · exact released_live acc
          · split
            · exact ih
            · exact rebaseOrFail_live _

theorem settleStage_live : (settleStage sdk retry batch).Live (service sdk codec retry policy) := by
  refine (syncedAfter_live _).bind fun known => ?_
  cases known with
  | none => exact Prog.live_pure _
  | some acc =>
      simp only
      split
      · exact released_live acc
      · split
        · cases batch.bundle with
          | none => exact Prog.live_pure _
          | some bundle =>
              refine Prog.live_query SubmitOutcome.skipped fun outcome => ?_
              cases outcome with
              | skipped => exact Prog.live_pure _
              | submitted txid => exact settle_live txid
              | unconfirmed txid => exact awaitSettlementAfter_live txid _
              | staleRoot => exact rebaseOrFail_live _
              | failed message => exact fail_live _ _
        · exact rebaseOrFail_live _

theorem proven_live (assembled : Assembled) :
    (proven sdk retry batch assembled).Live (service sdk codec retry policy) := by
  have hfinish : ∀ bundle root,
      (proven.finish sdk retry batch bundle root).Live (service sdk codec retry policy) := by
    intro bundle root
    refine Prog.live_query (0 : Nat) fun nowMs => Prog.live_commit (fun _ => trivial) ?_
    refine Prog.live_read fun current => ?_
    cases current with
    | none => exact Prog.live_pure _
    | some current => exact settleStage_live
  refine Prog.live_read fun reusable => ?_
  cases reusable with
  | some reused => exact hfinish _ _
  | none =>
      apply Prog.live_query (.error "")
      intro answer
      cases answer with
      | ok proof => exact hfinish _ _
      | error error => exact fail_live _ _

theorem proveStage_live :
    (proveStage sdk codec retry batch).Live (service sdk codec retry policy) := by
  refine (syncedAfter_live _).bind fun known => ?_
  cases known with
  | none => exact Prog.live_pure _
  | some acc =>
      refine Prog.live_read fun burns => ?_
      apply Prog.live_query (.error "")
      intro answer
      cases answer with
      | error error => exact fail_live _ _
      | ok rejected =>
          apply Prog.live_query (.error "")
          intro joined
          split
          · exact (confirmed_live _ _).bind fun _ => (exclude_live _).bind fun _ => proven_live _
          · exact (confirmed_live _ _).bind fun _ => (exclude_live _).bind fun _ => fail_live _ _
          · exact fail_live _ _
          · exact fail_live _ _
          · exact fail_live _ _

/-- **The code of a run is never stuck.** -/
theorem code_live {point : Point} (hinside : InRun point) :
    (code sdk codec retry policy point).Live (service sdk codec retry policy) := by
  cases point with
  | run batch after =>
      show (runBatch sdk codec retry batch after).Live _
      unfold runBatch
      split
      · exact settleStage_live.bind fun _ => Prog.live_pure _
      · exact proveStage_live.bind fun _ => Prog.live_pure _
  | rebased b after =>
      refine Prog.live_read fun current => ?_
      cases current with
      | none => exact Prog.live_pure _
      | some current => exact proveStage_live.bind fun _ => Prog.live_pure _
  | opening | loop | stopping | stopped => cases hinside

end Live

end Orchestrator

/-- **A batch run ends.** In every state that the service gets into, each batch carries the number of
its rebases over the whole history, restarts included, which is at most `max_rebases`; the orchestrator
takes finitely many steps until it is out of `run_batch`, whatever it is answered; and a run of a batch
has a next step until it ends, with the batch settled, failed, or proven with its submission skipped,
after no more rebases than were left. -/
theorem batch_run_ends {c : ServiceConfig} (h : (service sdk codec retry policy).Reach c) :
    (∀ b batch, c.world.state.batches.get b = some batch →
      batch.rebases = rebasesOf c.world.past b ∧ batch.rebases ≤ retry.maxRebases) ∧
    Acc (fun c' c => (service sdk codec retry policy).Move InRun c c') c ∧
    ∀ batch after, c.task = .running (.done (.run batch after)) →
      ∀ c', Relation.ReflTransGen ((service sdk codec retry policy).Move InRun) c c' →
        rebasesOf c'.world.past batch.id ≤
          rebasesOf c.world.past batch.id + (retry.maxRebases - batch.rebases) ∧
        ((∃ c'', (service sdk codec retry policy).Move InRun c' c'') ∨
          c'.task = .running (.done (.loop after)) ∧
            ∃ batch', c'.world.state.batches.get batch.id = some batch' ∧
              Finished c'.world.past batch') ∧
        ∀ point, c'.task = .running (.done point) → ¬ InRun point →
          point = .loop after ∧ ∃ batch', c'.world.state.batches.get batch.id = some batch' ∧
            Finished c'.world.past batch' := by
  obtain ⟨hs, htask⟩ := reach_holds h
  have hbudget := Sound.budget hs
  refine ⟨fun b batch hget => ?_, ?_, fun batch after hrun c' hmoves => ?_⟩
  · have hcount := hbudget.counted b batch hget
    exact ⟨hcount, hcount ▸ hbudget.within b⟩
  -- termination: a program between two points ends, and each point inside the run has a smaller one
  -- behind it
  · obtain ⟨w, task⟩ := c
    cases task with
    | down =>
        refine Acc.intro _ fun c' hmove => ?_
        obtain ⟨w', -, hturn⟩ := hmove
        cases hturn
    | running prog =>
        refine Prog.Ensures.terminates htask hs fun point w' hs' hpoint hinside => ?_
        obtain ⟨b, after, hat⟩ := runAt_of_holds hpoint hinside
        exact hat.terminates hs' hinside
  -- what this run adds is counted from its start, where no rebase has happened yet
  · have hholds : (service sdk codec retry policy).Holds (Allowed sdk codec retry)
        (fun point w => RunAt batch.id after 0 w point) c := by
      refine ⟨hs, ?_⟩
      rw [hrun] at htask ⊢
      intro w' hrely hs'
      obtain ⟨hruns, hstarts, -⟩ := htask w' hrely hs'
      exact ⟨rfl, rfl, hruns, hstarts, Nat.zero_le _⟩
    have hcurrent : c.world.state.batches.get batch.id = some batch := by
      rw [hrun] at htask
      exact (htask c.world .refl hs).1.current
    obtain ⟨hs', htask'⟩ := hholds.moves (fun point w hinside hs hpoint =>
      (code_runAt hs hinside hpoint).mono (fun _ _ h => h) fun _ _ h _ => h.mono (Nat.zero_le _)) hmoves
    have hlively : (service sdk codec retry policy).Lively c := by
      rw [System.Lively, hrun]
      trivial
    -- outside the run the task stands at its loop, with the batch finished
    have hout : ∀ point, c'.task = .running (.done point) → ¬ InRun point →
        point = .loop after ∧ ∃ batch', c'.world.state.batches.get batch.id = some batch' ∧
          Finished c'.world.past batch' := by
      intro point hpoint hout
      rw [hpoint] at htask'
      have hat := htask' c'.world .refl hs'
      cases point with
      | loop turn =>
          obtain ⟨rfl, hfinished⟩ := hat
          exact ⟨rfl, hfinished⟩
      | run | rebased => exact absurd trivial hout
      | opening | stopping | stopped => cases hat
    refine ⟨?_, ?_, hout⟩
    · have hcount := hbudget.counted batch.id batch hcurrent
      have hbefore := hbudget.within batch.id
      have hafter := (Sound.budget hs').within batch.id
      omega
    · -- what is left of the run is never stuck
      have hlively' := hlively.moves (fun _ => Orchestrator.code_live) hmoves
      obtain ⟨w', task⟩ := c'
      cases task with
      | down =>
          rcases hmoves.cases_tail with heq | ⟨c₁, -, hmove⟩
          · rw [← heq] at hrun
            cases hrun
          · obtain ⟨w, -, hturn⟩ := hmove
            obtain ⟨w₁, task₁⟩ := c₁
            cases hturn
      | running prog =>
          rcases hlively'.progress with hnext | ⟨point, rfl, houtside⟩
          · exact .inl hnext
          · obtain ⟨rfl, hfinished⟩ := hout point rfl houtside
            exact .inr ⟨rfl, hfinished⟩

end Runs

/-! ## A batch of two rounds -/

namespace Sample

open Guest.Sample (Coin sdk leaf trustBase config)
open Wire.Sample (codec input wire input_accepted codec_canonical)

/-- A posted coin is taken in, when its nullifier is not known. -/
theorem intake_acceptance {ledger : Ledger} {coin : Coin} (hreturned : coin ≠ .source)
    (hunknown : ledger.returnOf (record coin).nullifier = none)
    (hnew : ledger.returns.get (id coin) = none) : Intake sdk codec ledger (acceptance coin) := by
  refine ⟨wire coin, 0, posted coin, record coin, ledger.unfinished + 1,
    createReturn_wire hreturned 0, ?_, acceptance_admissible hreturned hnew⟩
  rw [ReturnStore.acceptWithin, hunknown]
  exact if_neg (Nat.not_succ_le_self _)

/-- Nothing is known under a nullifier that no return has. -/
theorem returnOf_eq_none {ledger : Ledger} (hindexed : ledger.Indexed sdk codec) {coin : Coin}
    (hnew : ∀ key r, ledger.returns.get key = some r → r.burn.nullifier ≠ id coin) :
    ledger.returnOf (record coin).nullifier = none := by
  rw [Option.eq_none_iff_forall_not_mem]
  intro r hr
  obtain ⟨hget, hnullifier⟩ := hindexed.returnOf_eq_some.1 hr
  exact hnew _ r hget hnullifier

variable (retry : RetryPolicy)

/-- The service has started. -/
def opened : History := (World.started ⟨Ledger.empty, []⟩).heard .now (0 : Nat)

/-- Both burns are posted. -/
def posting : History :=
  (opened.other (service sdk codec retry policy) (acceptance .whole)).other
    (service sdk codec retry policy) (acceptance .left)

theorem posting_state : (posting retry).state = ledger retry := rfl

/-- The service gets to its main loop with both burns posted. -/
theorem reach_posting : (service sdk codec retry policy).Reach
    (⟨posting retry, .running (.done (.loop (.collecting true)))⟩ : ServiceConfig) := by
  have hstart : (service sdk codec retry policy).Reach
      (⟨World.started ⟨Ledger.empty, []⟩, .running (Orchestrator.code sdk codec retry policy
        .opening)⟩ : ServiceConfig) := .single .start
  have hrecover : Ledger.empty.recover 0 = [] := by
    simp [Ledger.recover, Ledger.interruptions, Ledger.empty, Dict.values, Dict.empty,
      Ledger.byFormation]
  have hproofs : Ledger.empty.unsettledProofs = [] := by
    simp [Ledger.unsettledProofs, Ledger.empty, Dict.values, Dict.empty, Ledger.byFormation]
  have hopens := @Orchestrator.opening_can sdk codec retry policy
    (World.started ⟨Ledger.empty, []⟩) 0 hrecover
  obtain ⟨w, point, ⟨rfl, rfl⟩, hsteps⟩ := hopens.steps
  have hturns : (Orchestrator.code sdk codec retry policy (.loop (.starting []))).CanEnd
      (service sdk codec retry policy) (fun w point => w = opened ∧ point = .loop (.collecting true))
      opened := ⟨rfl, rfl⟩
  have hopened : (service sdk codec retry policy).Reach
      (⟨opened, .running (.done (.loop (.collecting true)))⟩ : ServiceConfig) := by
    refine (hstart.trans hsteps).trans ?_
    have hfound : (World.started ⟨Ledger.empty, []⟩ : History).state.unsettledProofs = [] := hproofs
    rw [hfound]
    exact System.goes_to hturns
  have hbuilt : Ledger.Built sdk codec retry (single retry) :=
    .apply .empty (acceptance_admissible (by decide) (Dict.get_empty _))
  refine (hopened.tail (.other ?_)).tail (.other ?_)
  · exact intake_acceptance (by decide) rfl (Dict.get_empty _)
  · refine intake_acceptance (by decide) (returnOf_eq_none hbuilt.indexed fun key r hr => ?_) ?_
    · have hget : (single retry).returns.get key = some r := hr
      rw [get_single] at hget
      split at hget
      · obtain rfl := Option.some.inj hget
        exact id_ne (by decide)
      · cases hget
    · show (single retry).returns.get (id .left) = none
      rw [get_single, if_neg (id_ne (by decide))]

/-- The batch of both burns. -/
def batch : Batch := Batch.formed sdk.sha256 1 members 0

theorem nextBatch_ledger : (ledger retry).nextBatch sdk.sha256 members 0 = batch := by
  rw [ledger_eq, single_eq]
  rfl

/-- The batch is formed. -/
def forming : History :=
  (Orchestrator.looking (posting retry) 0).own (service sdk codec retry policy)
    (.batchFormed members 0)

/-- The orchestrator forms the batch and goes on to run it. -/
theorem reach_forming : (service sdk codec retry policy).Reach
    (⟨forming retry, .running (.done (.run batch (.collecting false)))⟩ : ServiceConfig) := by
  have hnone : ∀ b, ¬ (posting retry).state.Proving b := by
    rintro b ⟨other, hother, -⟩
    rw [posting_state, batches_ledger] at hother
    cases hother
  have hadmits : (Event.batchFormed members 0).Admissible sdk codec (posting retry).state := by
    show (ledger retry).batches.get _ = none
    rw [batches_ledger]
    exact Dict.get_empty _
  have hdue : (posting retry).state.releasesDue 0 = [] := by
    rw [posting_state, Ledger.releasesDue, values_ledger]
    show (Ledger.bySeq []).map _ = []
    simp [Ledger.bySeq]
  have hforms := @Orchestrator.collect_forms sdk codec retry policy (posting retry) 0 true members
    hdue hnone (next_ledger retry) hadmits
  rw [posting_state, nextBatch_ledger] at hforms
  exact (reach_posting retry).trans (System.goes_to hforms)

/-- The return of a burn that has entered the batch. -/
def entered (coin : Coin) : Return :=
  { queued coin with record := (record coin).enter 0 batch.id }

theorem entered_batchId (coin : Coin) : (entered coin).record.batchId = some batch.id := by
  simp [entered]

theorem entered_in (coin : Coin) : (entered coin).inBatch batch.id = true :=
  Return.inBatch_iff.2 ⟨entered_batchId coin, .inl (by simp [entered])⟩

/-- The return of a burn that is proven with the batch. -/
def proved (coin : Coin) : Return :=
  { entered coin with record := (entered coin).record.transition .proven 0 }

theorem proved_in (coin : Coin) : (proved coin).inBatch batch.id = true :=
  Return.inBatch_iff.2 ⟨by simp [proved, entered_batchId], .inr (by simp [proved])⟩

theorem keeps_forming :
    (forming retry).state.Keeps sdk codec batch [entered .whole, entered .left] := by
  have hreturns : ∀ r ∈ [queued .whole, queued .left],
      (ledger retry).returns.get r.burn.id = some r ∧ r.isPending = true := by
    intro r hr
    rw [Dict.get_eq_some, returns_ledger]
    rcases List.mem_pair.1 hr with rfl | rfl
    · exact ⟨List.mem_cons_self, rfl⟩
    · exact ⟨List.mem_cons_of_mem _ List.mem_cons_self, rfl⟩
  have hcomplete : ∀ key r, (ledger retry).returns.get key = some r →
      r ∈ [queued .whole, queued .left] := by
    intro key r hr
    rw [← values_ledger retry, Dict.mem_values]
    exact ⟨key, hr⟩
  have hmembers : members = [queued .whole, queued .left].map fun r => r.burn.id := rfl
  have hformed := @Ledger.Keeps.formed _ _ retry _ _ (ledger_built retry).indexed
    (batches_ledger retry) hreturns hcomplete _ hmembers 0
  rw [nextBatch_ledger] at hformed
  exact hformed

theorem forming_get {coin : Coin} (h : coin ∈ [Coin.whole, Coin.left]) :
    (forming retry).state.returns.get (id coin) = some (entered coin) := by
  have hid : (entered coin).burn.id = id coin := rfl
  rw [← hid]
  exact (keeps_forming retry).get _ (List.mem_map_of_mem h)

/-! Assemblies of both burns -/

/-- A burn as a member of a batch. -/
def part (coin : Coin) (hreturned : coin ≠ .source) : Member sdk codec config :=
  ⟨posted coin, input coin, leaf coin,
    ⟨posted_decodes coin, rfl, input_accepted hreturned, rfl⟩, rfl⟩

/-- The two burns as members of a batch. -/
def parts : List (Member sdk codec config) := [part .whole (by decide), part .left (by decide)]

theorem parts_together : MembersTogether parts where
  trustBase := by
    have hall : ∀ burn ∈ parts.map Member.burn,
        burn.trustBaseHash = hex32 (Verify.canonicalHash sdk trustBase) := by
      intro burn hburn
      rcases List.mem_pair.1 hburn with rfl | rfl
      · exact trustBaseHash_posted .whole
      · exact trustBaseHash_posted .left
    intro a ha b hb
    rw [hall a ha, hall b hb]
  disjoint := by
    show List.Pairwise _ [posted .whole, posted .left]
    simp [lockNonces_posted, Coin.nonce]

/-- The coins that are kept, when the first has this verdict and the second none. -/
def kept : Option Exclusion → List Coin
  | none => [.whole, .left]
  | some _ => [.left]

/-- An assembly of both burns, in which the first has this verdict. -/
structure AssemblesTo (acc : RebuiltAccumulator) (rejected : List Rejected)
    (verdict : Option Exclusion) (assembled : Assembled) : Prop where
  result : assemble sdk codec [posted .whole, posted .left] acc rejected = some (.ok assembled)
  excluded : assembled.excluded = verdict.toList.map fun reason => (id .whole, reason)
  leaves : assembled.leaves = (kept verdict).map leaf
  root : assembled.publicValues.spentRootOld = acc.tree.root sdk.sha256
  accepted : Precheck.executeWire sdk codec assembled.wire =
    .ok (Precheck.publicOutput sdk assembled.publicValues)

theorem assembles {acc : RebuiltAccumulator} {rejected : List Rejected} {verdict : Option Exclusion}
    (hfirst : (part .whole (by decide)).verdict acc rejected = verdict)
    (hsecond : (part .left (by decide)).verdict acc rejected = none) :
    ∃ assembled, AssemblesTo acc rejected verdict assembled := by
  have hkept : (keptOf acc rejected parts).map Member.leaf = (kept verdict).map leaf := by
    cases verdict with
    | none =>
        simp only [parts, keptOf, List.filter_cons, hfirst, hsecond, kept]
        rfl
    | some reason =>
        simp only [parts, keptOf, List.filter_cons, hfirst, hsecond, kept]
        rfl
  have hexcluded : excludedOf acc rejected parts =
      verdict.toList.map fun reason => (id .whole, reason) := by
    cases verdict with
    | none => simp [parts, excludedOf, hfirst, hsecond]
    | some reason =>
        simp only [parts, excludedOf, List.filterMap_cons, hfirst, hsecond]
        rfl
  have hnodup : (parts.map fun m => m.leaf.nullifier).Nodup := by
    show [Guest.Sample.word Coin.whole.number, Guest.Sample.word Coin.left.number].Nodup
    decide
  have hrefs : (parts.flatMap fun m => m.input.sortedLockRefs).length < 2 ^ 32 := by
    show 2 < 2 ^ 32
    decide
  obtain ⟨-, hsome⟩ := assemble_members codec_canonical parts_together hnodup (by decide) hrefs acc
    rejected
  have hne : keptOf acc rejected parts ≠ [] := by
    intro hnil
    rw [hnil] at hkept
    cases verdict <;> cases hkept
  obtain ⟨assembled, hresult, hsame, hcarries⟩ := hsome hne
  refine ⟨assembled, hresult, hsame.trans hexcluded, ?_, hcarries.spentRootOld, hcarries.accepted⟩
  rw [hcarries.leaves, ← hkept, List.flatMap_map, List.map_eq_flatMap]
  exact List.flatMap_congr fun m _ => m.returnLeaves_eq

/-- A burn that is neither spent nor rejected has no verdict. -/
theorem verdict_none {acc : RebuiltAccumulator} {rejected : List Rejected} {coin : Coin}
    (hreturned : coin ≠ .source) (hspent : Guest.Sample.word coin.number ∉ acc.tree.keys)
    (hrejected : ∀ r ∈ rejected, eqIgnoreAsciiCase r.nullifier (id coin) = false) :
    (part coin hreturned).verdict acc rejected = none := by
  rw [Member.verdict_eq_none, ← Bool.not_eq_true]
  show ¬ (posted coin).excluded acc rejected = true
  rw [excluded_iff]
  rintro (hmem | ⟨r, hr, hsame⟩)
  · exact hspent hmem
  · rw [← id, hrejected r hr] at hsame
    cases hsame

/-- The verdict of the simulation. -/
theorem verdict_refused (acc : RebuiltAccumulator) :
    (part .whole (by decide)).verdict acc refusal = some (.rejected "recipient reverts") := by
  have hfound : eqIgnoreAsciiCase (hex32 (Guest.Sample.word Coin.whole.number))
      (posted .whole).nullifier = true :=
    eqIgnoreAsciiCase_hex32.2 rfl
  have hrejection : rejection refusal (posted .whole) = some (.rejected "recipient reverts") := by
    simp [rejection, refusal, hfound]
  show (rejection refusal (posted .whole)).or _ = _
  rw [hrejection]
  rfl

theorem verdict_others {acc : RebuiltAccumulator}
    (hnew : Guest.Sample.word Coin.left.number ∉ acc.tree.keys) :
    (part .left (by decide)).verdict acc refusal = none := by
  refine verdict_none _ hnew fun r hr => ?_
  obtain rfl := List.mem_singleton.1 hr
  rw [← Bool.not_eq_true, id, eqIgnoreAsciiCase_hex32]
  exact fun hsame => absurd (word_inj hsame) (by decide)

/-- What the orchestrator makes of the verdict on the first return, whose release names no
transaction. -/
def Rules (verdict ruling : Option Exclusion) : Prop :=
  ∀ nullifiers : Dict String String, nullifiers.get (id .whole) = some (id .whole) →
    askedOf (releasedOf (verdict.toList.map fun reason => (id .whole, reason)) nullifiers) = [] ∧
    takeVerdicts (verdict.toList.map fun reason => (id .whole, reason)) (Dict.ofList
      ((releasedOf (verdict.toList.map fun reason => (id .whole, reason)) nullifiers).map
        (Released.verdict (.ok ⟨[], []⟩)))) = ruling.toList.map fun reason => (id .whole, reason)

theorem rules_none : Rules none none := fun _ _ => ⟨rfl, rfl⟩

theorem rules_rejected (message : String) :
    Rules (some (.rejected message)) (some (.rejected message)) := fun _ _ => ⟨rfl, rfl⟩

/-! Rounds -/

/-- A proof of an assembled batch, with the public values that the guest gives. -/
def proofOf (assembled : Assembled) : ProofBundle :=
  ⟨"groth16", Core.publicValuesAbi assembled.publicValues, [0x01], none⟩

/-- The bundle of that proof. -/
def bundleOf (b : String) (assembled : Assembled) : BatchBundle :=
  .proven b (proofOf assembled) assembled.leaves assembled.lockRefs

/-- A batch of both burns that is proven, with an exclusion of the first return or without. -/
def provingFrom (w : History) (current : Batch) (acc : RebuiltAccumulator) (rejected : List Rejected)
    (ruling : Option Exclusion) (assembled : Assembled) : History :=
  rounding sdk codec retry policy w current acc rejected
    (ruling.toList.map fun reason => (id .whole, reason)) assembled (proofOf assembled) 0

section Rounds

variable {retry} {w : History} {current : Batch} {first second : Return}
  {acc : RebuiltAccumulator} {rejected : List Rejected} {verdict ruling : Option Exclusion}
  {assembled : Assembled}

/-- **A round of both burns.** -/
theorem round (h : w.state.Keeps sdk codec current [first, second])
    (hfirst : first.burn = posted .whole) (hsecond : second.burn = posted .left)
    (hbundle : current.bundle = none) (hassembles : AssemblesTo acc rejected verdict assembled)
    (hrules : Rules verdict ruling) {post : History → Stage → Prop}
    (hsettle : (Orchestrator.settleStage sdk retry
        (current.provenWith assembled (proofOf assembled) 0)).CanEnd
      (service sdk codec retry policy) post
        (provingFrom retry w current acc rejected ruling assembled)) :
    (Orchestrator.proveStage sdk codec retry current).CanEnd (service sdk codec retry policy) post
      w := by
  have hburns : [first, second].map Return.burn = [posted .whole, posted .left] := by
    rw [List.map_cons, List.map_singleton, hfirst, hsecond]
  refine h.round hbundle (hburns ▸ hassembles.result) ?_ hsettle
  rintro nullifiers rfl
  rw [hassembles.excluded]
  apply hrules
  simp only [List.map_cons, List.map_nil, hfirst, hsecond]
  show Dict.get ((Dict.empty.insert (id .whole) (id .whole)).insert (id .left) (id .left))
    (id .whole) = _
  rw [Dict.get_insert_of_ne _ _ (id_ne (by decide)), Dict.get_insert_self]

/-- The log does not show the second burn released. -/
theorem not_released (hassembles : AssemblesTo acc rejected verdict assembled)
    {later : RebuiltAccumulator} (hnew : Guest.Sample.word Coin.left.number ∉ later.tree.keys) :
    allReleased sdk.sha256 (current.provenWith assembled (proofOf assembled) 0) later = false := by
  have hleaf : leaf .left ∈ assembled.leaves := by
    rw [hassembles.leaves]
    cases verdict <;> simp [kept]
  exact Batch.allReleased_provenWith hleaf hnew

theorem chainsOnto_iff (hassembles : AssemblesTo acc rejected verdict assembled)
    {tree : Accumulator.NullifierTree} :
    (current.provenWith assembled (proofOf assembled) 0).chainsOnto (accOf tree).spentRoot = true ↔
      acc.tree.root sdk.sha256 = tree.root sdk.sha256 := by
  rw [Batch.chainsOnto_provenWith, hassembles.root]
  rfl

end Rounds

/-- A nullifier of another burn. -/
def foreign : Bytes32 := Guest.Sample.word 0x45

/-- The root of a vault moves when it releases a nullifier. -/
theorem root_ne (key : Bytes32) :
    (treeOf key).root sdk.sha256 ≠ Accumulator.NullifierTree.new.root sdk.sha256 := by
  have hempty : Accumulator.NullifierTree.new.keys = [] := rfl
  have hkeys : (treeOf key).keys ≠ [] := List.cons_ne_nil _ _
  rw [Accumulator.root_eq, Accumulator.root_eq, if_neg hkeys, if_pos hempty]
  show Accumulator.sampleHash (Accumulator.preimageBytes (.node 0 _ _)) ≠ _
  exact Accumulator.sampleHash_ne_zero _

/-- The simulation refused the first return in the first round, which leaves it no attempt. -/
def refused : Return :=
  { entered .whole with
    record := (entered .whole).record.exclude 0 (.rejected "recipient reverts") retry }

/-- The second return, in the batch again after the rebase. -/
def again : Return :=
  { proved .left with record := (proved .left).record.rebase 0 }

theorem refused_out (b : String) : (refused retry).inBatch b = false :=
  (entered .whole).not_inBatch_exclude retry b _ 0

theorem again_in : again.inBatch batch.id = true :=
  Return.inBatch_iff.2 ⟨by simp [again, proved, entered_batchId], .inl (by simp [again])⟩

/-- The batch after it was rebased. -/
def rebasedBatch : Batch := { batch with rebases := 1 }

theorem rebased_provenWith (assembled : Assembled) :
    (batch.provenWith assembled (proofOf assembled) 0).rebased = rebasedBatch := rfl

/-- **The first round**: the first burn is refused, the second is proven, and the root moves. -/
theorem first_round (hrebases : 0 < retry.maxRebases) :
    ∃ w, Relation.ReflTransGen ((service sdk codec retry policy).Turn InRun)
        ⟨forming retry, .running (.done (.run batch (.collecting false)))⟩
        ⟨w, .running (.done (.rebased batch.id (.collecting false)))⟩ ∧
      w.state.Keeps sdk codec rebasedBatch [refused retry, again] ∧
      assembliesOf w.past = [(forming retry).state] := by
  have hkeeps := keeps_forming retry
  have hnew : Guest.Sample.word Coin.left.number ∉ (accOf .new).tree.keys := List.not_mem_nil
  obtain ⟨assembled, hassembles⟩ := assembles (verdict_refused (accOf .new)) (verdict_others hnew)
  have hopen := @not_released batch _ _ _ _ hassembles (accOf (treeOf foreign)) (by decide)
  have hmoved : (batch.provenWith assembled (proofOf assembled) 0).chainsOnto
      (accOf (treeOf foreign)).spentRoot = false := by
    rw [← Bool.not_eq_true, chainsOnto_iff hassembles]
    exact (root_ne foreign).symm
  have hround : (Orchestrator.proveStage sdk codec retry batch).CanEnd (service sdk codec retry policy)
      (fun w' stage => w' = rebasing sdk codec retry policy (provingFrom retry (forming retry) batch
        (accOf .new) refusal (some (.rejected "recipient reverts")) assembled) batch.id
          (accOf (treeOf foreign)) 0 ∧ stage = .rebase) (forming retry) := by
    refine round hkeeps rfl rfl rfl hassembles (rules_rejected _) ?_
    exact Orchestrator.settleStage_moves hopen hmoved (decide_eq_true hrebases) 0 ⟨rfl, rfl⟩
  obtain ⟨w, stage, ⟨rfl, rfl⟩, hturns⟩ := Orchestrator.run_goes rfl hround
  have hproven := @Ledger.Keeps.rounding _ _ retry policy _ _ _ (accOf .new) refusal
    [(id .whole, .rejected "recipient reverts")] assembled (proofOf assembled) 0 hkeeps
  have hwhole : (entered .whole).rounded retry batch.id
      [(id .whole, .rejected "recipient reverts")] 0 = refused retry := Return.rounded_excluded rfl _
  have hleft : (entered .left).rounded retry batch.id
      [(id .whole, .rejected "recipient reverts")] 0 = proved .left := by
    refine Return.rounded_of_in (entered_in .left) fun entry hentry => ?_
    obtain rfl := List.mem_singleton.1 hentry
    exact id_ne (by decide)
  rw [List.map_cons, List.map_singleton, hwhole, hleft] at hproven
  have hafter := @Ledger.Keeps.rebased _ _ retry _ _ _ hproven 0
  have hproved : (proved .left).inBatch (batch.provenWith assembled (proofOf assembled) 0).id = true :=
    proved_in .left
  rw [rebased_provenWith, List.map_cons, List.map_singleton,
    Return.inside_of_out (refused_out retry _), Return.inside_of_in hproved] at hafter
  refine ⟨_, hturns, ?_, rfl⟩
  rw [rebasing_state]
  exact hafter

/-- The transaction that settles the batch. -/
def settlement : String := "0x7e"

/-- The first return after the second round, in which it has this ruling. -/
def ruled (ruling : Option Exclusion) : Return :=
  (refused retry).rounded retry batch.id (ruling.toList.map fun reason => (id .whole, reason)) 0

theorem ruled_none : ruled retry none = refused retry :=
  Return.rounded_of_out (refused_out retry _) fun _ hentry => (by cases hentry)

theorem ruled_some (reason : Exclusion) : ruled retry (some reason) =
    { refused retry with record := (refused retry).record.exclude 0 reason retry } :=
  Return.rounded_excluded rfl reason

/-- No ruling brings the first return back into the batch. -/
theorem ruled_out (ruling : Option Exclusion) (b : String) :
    (ruled retry ruling).inBatch b = false := by
  cases ruling with
  | none =>
      rw [ruled_none]
      exact refused_out retry b
  | some reason =>
      rw [ruled_some]
      exact (refused retry).not_inBatch_exclude retry b reason 0

/-- The second return, proven in the second round. -/
def provedAgain : Return := { again with record := again.record.transition .proven 0 }

theorem provedAgain_in : provedAgain.inBatch batch.id = true :=
  Return.inBatch_iff.2
    ⟨by simp [provedAgain, again, proved, entered_batchId], .inr (by simp [provedAgain])⟩

/-- The second return, settled. -/
def settledAgain : Return :=
  { provedAgain with record := provedAgain.record.settle 0 (some settlement) }

/-- **The second round**: the batch is assembled again, both burns included, proven and settled. -/
theorem second_round {w : History}
    (h : w.state.Keeps sdk codec rebasedBatch [refused retry, again])
    {tree : Accumulator.NullifierTree} {rejected : List Rejected} {verdict ruling : Option Exclusion}
    (hfirst : (part .whole (by decide)).verdict (accOf tree) rejected = verdict)
    (hsecond : (part .left (by decide)).verdict (accOf tree) rejected = none)
    (hnew : Guest.Sample.word Coin.left.number ∉ tree.keys) (hrules : Rules verdict ruling) :
    ∃ (w' : History) (ledger : Ledger) (assembled : Assembled),
      Relation.ReflTransGen ((service sdk codec retry policy).Turn InRun)
        ⟨w, .running (.done (.rebased batch.id (.collecting false)))⟩
        ⟨w', .running (.done (.loop (.collecting false)))⟩ ∧
      AssemblesTo (accOf tree) rejected verdict assembled ∧
      ledger.Keeps sdk codec (rebasedBatch.provenWith assembled (proofOf assembled) 0)
        [ruled retry ruling, provedAgain] ∧
      (ledger, Label.own (.batchSettled batch.id (some settlement) 0)) ∈ w'.past ∧
      w'.state.Keeps sdk codec
        ((rebasedBatch.provenWith assembled (proofOf assembled) 0).settledWith (some settlement))
        [ruled retry ruling, settledAgain] := by
  obtain ⟨assembled, hassembles⟩ := assembles hfirst hsecond
  have hopen := @not_released rebasedBatch _ _ _ _ hassembles (accOf tree) hnew
  have hroot := (@chainsOnto_iff rebasedBatch _ _ _ _ hassembles tree).2 rfl
  -- the round: the proof is made, and its submission settles the batch
  have hround : (Orchestrator.proveStage sdk codec retry rebasedBatch).CanEnd
      (service sdk codec retry policy)
      (fun w' stage => w' = submitting sdk codec retry policy (provingFrom retry w rebasedBatch
        (accOf tree) rejected ruling assembled) batch.id (bundleOf batch.id assembled) (accOf tree)
          settlement 0 ∧ stage = .done) w := by
    refine round h rfl rfl rfl hassembles hrules ?_
    exact Orchestrator.settleStage_submits hopen hroot rfl settlement 0 ⟨rfl, rfl⟩
  obtain ⟨w', stage, ⟨rfl, rfl⟩, hturns⟩ := Orchestrator.rebased_goes h.batch hround
  -- what the round does to the batch and to its two returns
  have hproven := @Ledger.Keeps.rounding _ _ retry policy _ _ _ (accOf tree) rejected
    (ruling.toList.map fun reason => (id .whole, reason)) assembled (proofOf assembled) 0 h
  have hagain : again.rounded retry batch.id (ruling.toList.map fun reason => (id .whole, reason)) 0 =
      provedAgain := by
    refine Return.rounded_of_in again_in fun entry hentry => ?_
    obtain ⟨reason, -, rfl⟩ := List.mem_map.1 hentry
    exact id_ne (by decide)
  have hid : rebasedBatch.id = batch.id := rfl
  rw [List.map_cons, List.map_singleton, hid, hagain] at hproven
  have hsettled := @Ledger.Keeps.settled _ _ retry _ _ _ hproven (some settlement) 0
  have hid' : (rebasedBatch.provenWith assembled (proofOf assembled) 0).id = batch.id := rfl
  rw [List.map_cons, List.map_singleton, hid', Return.inside_of_in provedAgain_in] at hsettled
  have hruled := Return.inside_of_out (f := fun record => record.settle 0 (some settlement))
    (ruled_out retry ruling batch.id)
  rw [ruled] at hruled
  rw [hruled] at hsettled
  exact ⟨_, _, assembled, hturns, hassembles, hproven, submitting_settles _ _ _ _ _ _ _ _ _ _,
    hsettled⟩

/-- Nothing is against the first burn in the second round. -/
theorem verdict_clear : (part .whole (by decide)).verdict (accOf (treeOf foreign)) [] = none :=
  verdict_none (by decide) (by decide) fun _ hmem => (by cases hmem)

/-- **Two rounds of a batch**: rebased once, with its budget spent, and settled. -/
theorem two_rounds : ∃ c' batch', Relation.ReflTransGen ((service sdk codec ⟨1, 1, 1⟩ policy).Move InRun)
      ⟨forming ⟨1, 1, 1⟩, .running (.done (.run batch (.collecting false)))⟩ c' ∧
    c'.task = .running (.done (.loop (.collecting false))) ∧
    c'.world.state.batches.get batch.id = some batch' ∧ batch'.rebases = 1 ∧
    batch'.status = .settled := by
  obtain ⟨w, hfirst, hkeeps, -⟩ := first_round ⟨1, 1, 1⟩ Nat.one_pos
  have hnew : Guest.Sample.word Coin.left.number ∉ (treeOf foreign).keys := by decide
  obtain ⟨w', ledger, assembled, hsecond, -, -, -, hsettled⟩ := second_round ⟨1, 1, 1⟩ hkeeps
    verdict_clear (verdict_none (by decide) hnew fun _ hmem => (by cases hmem)) hnew rules_none
  exact ⟨_, _, System.turns_moves (hfirst.trans hsecond), rfl, hsettled.batch, rfl, rfl⟩

end Sample

/-- A batch with one rebase in its budget: the vault's root moves in its first round, it is settled in
its second, and no step of the run is left. -/
theorem batch_run_ends_sample :
    ∃ c' : ServiceConfig, Relation.ReflTransGen
        ((service Guest.Sample.sdk Wire.Sample.codec ⟨1, 1, 1⟩ Sample.policy).Move InRun)
        ⟨Sample.forming ⟨1, 1, 1⟩, .running (.done (.run Sample.batch (.collecting false)))⟩ c' ∧
      c'.task = .running (.done (.loop (.collecting false))) ∧
      rebasesOf (Sample.forming ⟨1, 1, 1⟩).past Sample.batch.id = 0 ∧
      rebasesOf c'.world.past Sample.batch.id = 1 ∧
      ∃ batch', c'.world.state.batches.get Sample.batch.id = some batch' ∧ batch'.status = .settled ∧
        Finished c'.world.past batch' := by
  have hreach := Sample.reach_forming ⟨1, 1, 1⟩
  obtain ⟨c', batch', hmoves, htask, hget, hrebases, hstatus⟩ := Sample.two_rounds
  obtain ⟨hbefore, -, hends⟩ := batch_run_ends hreach
  obtain ⟨hbound, -, hout⟩ := hends _ _ rfl c' hmoves
  obtain ⟨-, other, hother, hfinished⟩ := hout _ htask fun hinside => hinside
  obtain ⟨hafter, -, -⟩ := batch_run_ends (hreach.trans (System.moves_steps hmoves))
  have hcount := (hafter _ _ hget).1
  obtain rfl := Option.some.inj (hget.symm.trans hother)
  have hnone := (hbefore _ _ (Sample.keeps_forming ⟨1, 1, 1⟩).batch).1
  exact ⟨c', hmoves, htask, hnone.symm, hcount.symm.trans hrebases, batch', hget, hstatus, hfinished⟩

end UnicityBridge.Service
