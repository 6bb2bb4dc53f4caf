import UnicityBridge.Service.Proving

/-!
# Runs of the service

The loops of the orchestrator, and with them every run: each configuration that the service gets into,
through crashes, restarts and stops, has a sound history (`reach_sound`).
-/

set_option autoImplicit false

namespace UnicityBridge.Service

open UnicityBridge.Lib
open UnicityBridge.Settlement (RebuiltAccumulator)

variable {sdk : TokenSdk.Sdk} {codec : Wire.Codec} {retry : RetryPolicy} {policy : BatchPolicy}

/-! ## Other batches -/

/-- A run of the batch `b` leaves the other batches as they are, with what their bundles hold. -/
structure Leaves (b : String) (w w' : History) : Prop where
  batches : ∀ b', b' ≠ b → w'.state.batches.get b' = w.state.batches.get b'
  held : ∀ b' bundle, b' ≠ b → Held w.past b' bundle w.state → Held w'.past b' bundle w'.state

theorem Leaves.refl (b : String) (w : History) : Leaves b w w := ⟨fun _ _ => rfl, fun _ _ _ h => h⟩

theorem Leaves.trans {b : String} {w w' w'' : History} (h : Leaves b w w') (h' : Leaves b w' w'') :
    Leaves b w w'' where
  batches := fun b' hne => (h'.batches b' hne).trans (h.batches b' hne)
  held := fun b' bundle hne hheld => h'.held b' bundle hne (h.held b' bundle hne hheld)

theorem Since.leaves {w w' : History} (h : Since [] w w') (b : String) : Leaves b w w' where
  batches := fun b' _ => by rw [h.aside.batches]
  held := fun _ _ _ hheld => hheld.since h fun _ hid => by cases hid

/-- The event is on the batch. -/
def Event.On (b : String) : Event → Prop
  | .batchProven b' _ _ _ | .batchSettled b' _ _ | .batchFailed b' _ _ _ | .batchRebased b' _
  | .batchInterrupted b' _ _ => b' = b
  | _ => False

/-- An event on a batch leaves the others alone. -/
theorem Event.On.leaves {b : String} {w : History} {e : Event} (h : e.On b)
    (hadmits : e.Admissible sdk codec w.state) :
    Leaves b w (w.own (service sdk codec retry policy) e) := by
  have hforms : ∀ members atMs, e ≠ .batchFormed members atMs := by
    rintro members atMs rfl
    cases h
  have haccepts : ∀ burn record, e ≠ .accepted burn record := by
    rintro burn record rfl
    cases h
  constructor
  · intro b' hne
    show (w.state.apply sdk.sha256 retry e).batches.get b' = _
    rw [Ledger.batches_apply e hadmits.ne_snapshot hforms]
    cases e <;> cases h <;> simp [Event.batchAfter, hne]
  · intro b' bundle hne hheld leaf hleaf
    obtain ⟨id, r, hr, hnullifier, hwhere⟩ := hheld leaf hleaf
    have hget : (w.state.apply sdk.sha256 retry e).returns.get id =
        some { r with record := e.recordAfter sdk.sha256 retry w.state id r } := by
      rw [Ledger.get_apply e hadmits.ne_snapshot haccepts, hr]
      rfl
    refine ⟨id, _, hget, hnullifier, ?_⟩
    rcases hwhere with hin | hdrifted
    · left
      have hmember : w.state.isMember b r ≠ true := by
        intro hmember
        exact hne (Return.inBatch_unique hin (Ledger.isMember_iff.1 hmember).2)
      cases e <;> cases h <;> simpa [Event.recordAfter, hmember] using hin
    · exact .inr (hdrifted.mono (List.subset_cons_self _ _))

/-- An exclusion by the run of a batch leaves the others alone. -/
theorem MayExclude.leaves {b id : String} {w : History} {reason : Exclusion} {atMs : Nat}
    (h : MayExclude b w id reason) :
    Leaves b w (w.own (service sdk codec retry policy) (.returnExcluded id reason atMs)) := by
  have hsince : Since [id] w (w.own (service sdk codec retry policy) (.returnExcluded id reason atMs)) :=
    ⟨Ledger.aside_excluded sdk.sha256 reason, List.subset_cons_self _ _⟩
  constructor
  · intro b' _
    rw [hsince.aside.batches]
  · intro b' bundle hne hheld leaf hleaf
    obtain ⟨id', r, hr, hnullifier, hwhere⟩ := hheld leaf hleaf
    obtain ⟨r', hr', hburn⟩ := hsince.aside.burn hr
    rcases hwhere with hin | hdrifted
    · by_cases hid : id' = id
      · -- a return of another batch was assembled out of this one
        subst hid
        obtain ⟨r₁, hr₁, -, hin' | ⟨r₀, hassembled, hstatus, -⟩⟩ := h
        · obtain rfl := Option.some.inj (hr.symm.trans hr₁)
          exact absurd (Return.inBatch_unique hin hin') hne
        · exact ⟨id', r', hr', hburn ▸ hnullifier,
            .inr (.inl ⟨r₀, hassembled.mono hsince.past, hstatus⟩)⟩
      · have hopen := Return.not_failedRecoverably_of_active (Return.active_of_inBatch hin)
        exact ⟨id', r, hsince.aside.get hr (by simpa using hid) hopen, hnullifier, .inl hin⟩
    · exact ⟨id', r', hr', hburn ▸ hnullifier, .inr (hdrifted.mono hsince.past)⟩

/-- One event of a run. -/
theorem RunOf.leaves {b : String} {w : History} {e : Event} (h : RunOf sdk codec retry b w e)
    (hadmits : e.Admissible sdk codec w.state) :
    Leaves b w (w.own (service sdk codec retry policy) e) := by
  cases h with
  | exclude may => exact may.leaves
  | prove | settle | fail | rebase => exact Event.On.leaves rfl hadmits

/-- **The stages of a batch leave the others alone.** -/
theorem IsStage.leaves {batch : Batch} {prog : Program Stage} {w : History}
    (h : IsStage sdk codec retry policy batch prog w) (hs : Sound sdk codec retry policy w) :
    prog.Ensures (service sdk codec retry policy) (Allowed sdk codec retry)
      (RunOf sdk codec retry batch.id)
      (fun w' stage => Ended retry batch.id batch.rebases w' stage ∧ Leaves batch.id w w') w := by
  refine Prog.Ensures.frame (Leaves.refl batch.id) (fun _ _ _ => Leaves.trans) ?_ ?_ ?_ RunOf.allowed hs h
  · intro w w' hs hrely
    exact (Since.of_rely hs hrely).leaves batch.id
  · intro w question answer
    exact ((Since.refl [] w).heard question answer).leaves batch.id
  · intro w e _ hrun hadmits
    exact hrun.leaves hadmits

/-! ## Rechecks -/

/-- The return with this nullifier waits for a confirmation. -/
def Waits (w : History) (id nullifier : String) : Prop :=
  ∃ r, w.state.returns.get id = some r ∧ r.record.status = .submitted ∧ r.burn.nullifier = nullifier

theorem Waits.since {w w' : History} {id nullifier : String} {ids : List String}
    (h : Waits w id nullifier) (hsince : Since ids w w') (hid : id ∉ ids) : Waits w' id nullifier := by
  obtain ⟨r, hr, hstatus, hnullifier⟩ := h
  have hopen : r.record.failedRecoverably = false := by
    simp [ReturnRecord.failedRecoverably, hstatus]
  exact ⟨r, hsince.aside.get hr hid hopen, hstatus, hnullifier⟩

/-- A return that waits may be checked again. -/
theorem Waits.may {w : History} {id nullifier : String} {txid unconfirmed : Option String}
    (h : Waits w id nullifier)
    (hevidence : unconfirmed = none → ∃ t, txid = some t ∧ Evidence w.past nullifier t) :
    MayRecheck w id (.alreadySettled txid unconfirmed) := by
  obtain ⟨r, hr, hstatus, rfl⟩ := h
  exact ⟨r, hr, hstatus, txid, unconfirmed, rfl, hevidence⟩

/-- The returns due for another check, each once. -/
theorem Ledger.Indexed.releasesDue {ledger : Ledger} (h : ledger.Indexed sdk codec) (nowMs : Nat) :
    ((ledger.releasesDue nowMs).map Prod.fst).Nodup ∧
      ∀ entry ∈ ledger.releasesDue nowMs, ∃ r, ledger.returns.get entry.1 = some r ∧
        r.record.status = .submitted ∧ r.burn.nullifier = entry.2 := by
  constructor
  · have hkeys : ledger.returns.values.map (fun r => r.burn.id) = ledger.returns.keys := by
      rw [Dict.values, Dict.keys, List.map_map]
      refine List.map_congr_left fun entry hentry => ?_
      exact h.id_eq entry.1 entry.2 (Dict.get_eq_some.2 hentry)
    have hvalues : (ledger.returns.values.map fun r => r.burn.id).Nodup := hkeys ▸ ledger.returns.unique
    rw [Ledger.releasesDue, List.map_map]
    have hperm := (List.mergeSort_perm (ledger.returns.values.filter fun r =>
      r.awaitsConfirmation && r.isDue nowMs) fun a b => a.seq ≤ b.seq).map fun r => r.burn.id
    exact hperm.nodup_iff.2 (hvalues.sublist (List.filter_sublist.map _))
  · intro entry hentry
    rw [Ledger.releasesDue, List.mem_map] at hentry
    obtain ⟨r, hr, rfl⟩ := hentry
    rw [bySeq, List.mem_mergeSort, List.mem_filter, Dict.mem_values, Bool.and_eq_true] at hr
    obtain ⟨⟨id, hid⟩, hwaits, -⟩ := hr
    refine ⟨r, h.id_eq id r hid ▸ hid, ?_, (h.nullifier_eq id r hid).symm⟩
    simpa [Return.awaitsConfirmation] using hwaits

namespace Orchestrator

variable {w : History}

/-- The returns that are released still, after the others were put back in the queue. -/
theorem recheckEach_ensures (acc : RebuiltAccumulator) {due : List (String × String)}
    (hs : Sound sdk codec retry policy w) (hnodup : (due.map Prod.fst).Nodup)
    (hwaits : ∀ entry ∈ due, Waits w entry.1 entry.2) :
    (recheckEach sdk acc due).Ensures (service sdk codec retry policy) (Allowed sdk codec retry)
      (Allowed sdk codec retry)
      (fun w' released => Since (due.map Prod.fst) w w' ∧
        (released.map Released.id).Sublist (due.map Prod.fst) ∧
        ∀ r ∈ released, Waits w' r.id r.nullifier) w := by
  -- by induction over what is left to check
  induction due generalizing w with
  | nil =>
      refine ensures_end hs fun w' hsince _ => ⟨hsince, List.Sublist.slnil, ?_⟩
      intro r hr
      cases hr
  | cons entry rest ih =>
      obtain ⟨id, nullifier⟩ := entry
      obtain ⟨hnew, hrest⟩ := List.nodup_cons.1 hnodup
      have hwaitsRest : ∀ {w' : History} {ids : List String}, Since ids w w' → ids ⊆ [id] →
          ∀ entry ∈ rest, Waits w' entry.1 entry.2 := by
        intro w' ids hsince hids entry hentry
        refine (hwaits entry (List.mem_cons_of_mem _ hentry)).since hsince fun hid => ?_
        have hname : entry.1 = id := List.mem_singleton.1 (hids hid)
        exact hnew (List.mem_map.2 ⟨entry, hentry, hname⟩)
      unfold recheckEach
      split
      -- released still: it joins the answer
      · next n _ =>
        refine Prog.Ensures.bind
          (ih hs hrest (hwaitsRest (Since.refl [] w) (List.nil_subset _))) ?_
        rintro w₁ released ⟨hsince₁, hsub, hreleased⟩ hs₁
        refine ensures_end hs₁ fun w' hsince' _ => ⟨?_, hsub.cons_cons _, ?_⟩
        · exact (hsince₁.trans hsince'.of_nil).mono (List.subset_cons_self _ _)
        · intro r hr
          rcases List.mem_cons.1 hr with rfl | hr
          · refine Waits.since ?_ hsince' List.not_mem_nil
            exact (hwaits _ List.mem_cons_self).since hsince₁ hnew
          · exact (hreleased r hr).since hsince' List.not_mem_nil
      -- not released any more: back to the queue
      · refine ensures_ask hs fun w₁ atMs hsince₁ hs₁ _ => ?_
        refine ensures_apply hs₁ (fun _ _ h => h) fun w₂ hsince₂ hs₂ => ⟨.requeue, fun hs₃ _ => ?_⟩
        have hstep : Since [id] w (w₂.own (service sdk codec retry policy) (.requeued id atMs)) :=
          (hsince₁.trans hsince₂).of_nil.trans
            ⟨Ledger.aside_requeued sdk.sha256, List.subset_cons_self _ _⟩
        refine Prog.Ensures.mono (ih hs₃ hrest (hwaitsRest hstep (List.Subset.refl _)))
          (fun _ _ h => h) ?_
        rintro w' released ⟨hsince', hsub, hreleased⟩ -
        refine ⟨?_, hsub.trans (List.sublist_cons_self _ _), hreleased⟩
        exact (hstep.mono (by simp)).trans (hsince'.mono (List.subset_cons_self _ _))

/-- **Rechecking releases** leaves the batches alone. -/
theorem recheckReleases_ensures (hs : Sound sdk codec retry policy w) :
    (recheckReleases sdk).Ensures (service sdk codec retry policy) (Allowed sdk codec retry)
      (Allowed sdk codec retry) (fun w' _ => w'.state.batches = w.state.batches) w := by
  refine ensures_ask hs fun w₁ nowMs hsince₁ hs₁ _ => ?_
  refine ensures_look hs₁ fun w₂ hsince₂ hs₂ => ?_
  have hsince := hsince₁.trans hsince₂
  obtain ⟨hnodup, hdue⟩ := (Sound.ledger hs₂).1.releasesDue nowMs
  split
  -- nothing is due
  · exact ensures_end hs₂ fun w' hsince' _ => (hsince.trans hsince').aside.batches
  · refine ensures_look hs₂ fun w₃ hsince₃ hs₃ => ?_
    refine ensures_ask hs₃ fun w₄ answer hsince₄ hs₄ _ => ?_
    have hsince' := hsince₃.trans hsince₄
    have hwaits : ∀ entry ∈ w₂.state.releasesDue nowMs, Waits w₄ entry.1 entry.2 := fun entry hentry =>
      Waits.since (hdue entry hentry) hsince' List.not_mem_nil
    cases answer with
    -- no log: every return that was due waits on, and none is settled
    | error error =>
        refine Prog.Ensures.mono (exclude_ensures (fun _ _ h => h) hs₄ ?_ ?_) (fun _ _ h => h) ?_
        · rw [List.map_map]
          exact hnodup
        · intro entry hentry ids w' hid hsince'' _ atMs
          obtain ⟨⟨id, nullifier⟩, hmem, rfl⟩ := List.mem_map.1 hentry
          exact .recheck (((hwaits _ hmem).may fun h => by cases h).since hsince'' hid)
        · rintro w' - ⟨hsince'', -⟩ -
          exact (((hsince.trans hsince').of_nil).trans hsince'').aside.batches
    | ok acc =>
        -- those still released are asked about; the others went back to the queue
        refine Prog.Ensures.bind (recheckEach_ensures acc hs₄ hnodup hwaits) ?_
        rintro w₅ released ⟨hsince₅, hsub, hreleased⟩ hs₅
        refine Prog.Ensures.bind (confirm_ensures hs₅ released) ?_
        rintro w₆ verdicts ⟨hsince₆, hanswered⟩ hs₆
        have hids := hanswered.ids
        refine Prog.Ensures.mono (exclude_ensures (fun _ _ h => h) hs₆ ?_ ?_) (fun _ _ h => h) ?_
        · rw [hids]
          exact hnodup.sublist hsub
        · intro entry hentry ids w' hid hsince'' _ atMs
          refine .recheck (MayRecheck.since ?_ hsince'' hid)
          have hmem : entry.1 ∈ released.map Released.id := hids ▸ List.mem_map_of_mem hentry
          obtain ⟨r, hr, hname⟩ := List.mem_map.1 hmem
          obtain ⟨answer, hverdicts, -⟩ := id hanswered
          rw [hverdicts] at hentry
          obtain ⟨r', hr', hverdict⟩ := List.mem_map.1 hentry
          obtain ⟨unconfirmed, hreason⟩ := @Released.verdict_snd r' answer
          rw [hverdict] at hreason
          rw [hreason]
          have hwaiting := (hreleased r hr).since hsince₆ List.not_mem_nil
          rw [hname] at hwaiting
          refine hwaiting.may fun hnone => ?_
          subst hnone
          -- a settled one is the return whose release was confirmed, since each id is asked about
          -- once
          rw [← hverdicts] at hentry
          obtain ⟨r'', hr'', hname'', t, ht, hevidence⟩ :=
            @Answered.evidence _ _ _ hanswered entry.1 r'.txid (by rw [← hreason]; exact hentry)
          have hsame : r'' = r := by
            have hids' : (released.map Released.id).Nodup := hnodup.sublist hsub
            exact List.inj_on_of_nodup_map hids' hr'' hr (hname''.trans hname.symm)
          exact ⟨t, ht, hsame ▸ hevidence⟩
        · rintro w' - ⟨hsince'', -⟩ -
          have hfirst := (hsince.trans hsince').aside.batches
          rw [hsince''.aside.batches, hsince₆.aside.batches, hsince₅.aside.batches]
          exact hfirst

end Orchestrator

/-! ## Points -/

/-- The proofs that are still to settle: proven as they were, with what their bundles hold. -/
structure Waiting (w : History) (batches : List Batch) : Prop where
  nodup : (batches.map Batch.id).Nodup
  current : ∀ batch ∈ batches, w.state.batches.get batch.id = some batch ∧ batch.status = .proven ∧
    ∃ bundle, batch.bundle = some bundle ∧ Held w.past batch.id bundle w.state

theorem Waiting.leaves {w w' : History} {batches : List Batch} {b : String} (h : Waiting w batches)
    (hleaves : Leaves b w w') (hb : b ∉ batches.map Batch.id) : Waiting w' batches where
  nodup := h.nodup
  current := by
    intro batch hbatch
    have hne : batch.id ≠ b := by
      rintro rfl
      exact hb (List.mem_map_of_mem hbatch)
    obtain ⟨hget, hproven, bundle, hbundle, hheld⟩ := h.current batch hbatch
    refine ⟨(hleaves.batches batch.id hne).trans hget, hproven, bundle, hbundle, ?_⟩
    exact hleaves.held batch.id bundle hne hheld

theorem Waiting.since {w w' : History} {batches : List Batch} (h : Waiting w batches)
    (hsince : Since [] w w') : Waiting w' batches where
  nodup := h.nodup
  current := by
    intro batch hbatch
    obtain ⟨hget, hproven, bundle, hbundle, hheld⟩ := h.current batch hbatch
    refine ⟨?_, hproven, bundle, hbundle, hheld.since hsince fun _ hid => by cases hid⟩
    rw [hsince.aside.batches]
    exact hget

namespace Orchestrator

/-- What waits beside the batch `b` that runs. -/
def Loop.Holds (w : History) (b : Option String) : Loop → Prop
  | .collecting _ => True
  | .starting batches => Waiting w batches ∧ ∀ id, b = some id → id ∉ batches.map Batch.id

/-- How a batch starts its run. -/
def Starts (w : History) (batch : Batch) : Prop :=
  (batch.status = .proving ∧ batch.bundle = none) ∨
    (batch.status = .proven ∧ ∃ bundle, batch.bundle = some bundle ∧
      Held w.past batch.id bundle w.state)

theorem Starts.since {w w' : History} {batch : Batch} (h : Starts w batch) (hsince : Since [] w w') :
    Starts w' batch := by
  rcases h with hproving | ⟨hproven, bundle, hbundle, hheld⟩
  · exact .inl hproving
  · exact .inr ⟨hproven, bundle, hbundle, hheld.since hsince fun _ hid => by cases hid⟩

/-- What holds at each point of the orchestrator: between batches and after a stop none is proving, and
between the rounds of a batch only this one. -/
def Point.Holds (retry : RetryPolicy) (w : History) : Point → Prop
  | .opening => (w.state, Label.started) ∈ w.past
  | .loop turn => (∀ b, ¬ w.state.Proving b) ∧ turn.Holds w none
  | .run batch after => batch.Runs w.state ∧ Starts w batch ∧ after.Holds w (some batch.id)
  | .rebased b after => (∃ batch, w.state.batches.get b = some batch ∧ batch.status = .proving ∧
      1 ≤ batch.rebases ∧ batch.rebases ≤ retry.maxRebases) ∧ after.Holds w (some b)
  | .stopping => True
  | .stopped => ∀ b, ¬ w.state.Proving b

theorem Loop.Holds.leaves {w w' : History} {b : String} {turn : Loop} (h : turn.Holds w (some b))
    (hleaves : Leaves b w w') : turn.Holds w' (some b) := by
  cases turn with
  | collecting => trivial
  | starting batches => exact ⟨h.1.leaves hleaves (h.2 b rfl), h.2⟩

theorem Loop.Holds.since {w w' : History} {b : Option String} {turn : Loop} (h : turn.Holds w b)
    (hsince : Since [] w w') : turn.Holds w' b := by
  cases turn with
  | collecting => trivial
  | starting batches => exact ⟨h.1.since hsince, h.2⟩

theorem Loop.Holds.forget {w : History} {b : Option String} {turn : Loop} (h : turn.Holds w b) :
    turn.Holds w none := by
  cases turn with
  | collecting => trivial
  | starting batches => exact ⟨h.1, fun _ hid => by cases hid⟩

variable {batch : Batch} {w : History} {after : Loop}

/-- Where a stage of a batch leads. -/
theorem stage_ensures {prog : Program Stage} (hs : Sound sdk codec retry policy w)
    (hstage : IsStage sdk codec retry policy batch prog w) (hafter : after.Holds w (some batch.id)) :
    (prog >>= fun stage => pure (Point.after batch.id after stage)).Ensures
      (service sdk codec retry policy) (Allowed sdk codec retry) (Allowed sdk codec retry)
      (fun w' point => Point.Holds retry w' point) w := by
  refine Prog.Ensures.bind ((hstage.leaves hs).mono RunOf.allowed fun _ _ h _ => h) ?_
  rintro w₁ stage ⟨hended, hleaves⟩ hs₁
  have hafter₁ := hafter.leaves hleaves
  refine ensures_end hs₁ fun w' hsince _ => ?_
  have hended' := hended.since hsince
  have hafter' := hafter₁.since hsince
  cases stage with
  | done => exact ⟨hended'.1, hafter'.forget⟩
  | rebase =>
      obtain ⟨current, hget, hproving, hrebases, hwithin⟩ := hended'
      exact ⟨⟨current, hget, hproving, by omega, by omega⟩, hafter'⟩

/-- The first stage of a batch. -/
theorem start_stage (hs : Sound sdk codec retry policy w) (hruns : batch.Runs w.state)
    (hstarts : Starts w batch) :
    IsStage sdk codec retry policy batch
      (if batch.bundle.isSome then settleStage sdk retry batch else proveStage sdk codec retry batch)
      w := by
  rcases hstarts with ⟨hproving, hbundle⟩ | ⟨hproven, bundle, hbundle, hheld⟩
  · rw [hbundle]
    exact proveStage_stage hs hruns hproving
  · rw [if_pos (by rw [hbundle]; rfl)]
    exact settleStage_stage hs hruns hproven hbundle hheld

theorem runBatch_ensures (hs : Sound sdk codec retry policy w) (hruns : batch.Runs w.state)
    (hstarts : Starts w batch) (hafter : after.Holds w (some batch.id)) :
    (runBatch sdk codec retry batch after).Ensures (service sdk codec retry policy)
      (Allowed sdk codec retry) (Allowed sdk codec retry)
      (fun w' point => Point.Holds retry w' point) w := by
  have hstage := start_stage hs hruns hstarts
  unfold runBatch
  split
  · next hsome =>
    rw [if_pos hsome] at hstage
    exact stage_ensures hs hstage hafter
  · next hnone =>
    rw [if_neg hnone] at hstage
    exact stage_ensures hs hstage hafter

end Orchestrator

/-! ## Forming a batch -/

namespace Ledger

variable {ledger : Ledger}

/-- The batch that just formed is the one that is proving. -/
theorem activeBatch_formed (hnone : ∀ b, ¬ ledger.Proving b)
    {members : List String} {atMs : Nat}
    (he : (Event.batchFormed members atMs).Admissible sdk codec ledger) :
    (ledger.apply sdk.sha256 retry (.batchFormed members atMs)).activeBatch =
      some (ledger.nextBatch sdk.sha256 members atMs) := by
  have hget : (ledger.apply sdk.sha256 retry (.batchFormed members atMs)).batches.get
      (ledger.nextBatch sdk.sha256 members atMs).id =
        some (ledger.nextBatch sdk.sha256 members atMs) := by
    rw [apply, batches_form, if_pos rfl]
  cases hactive : (ledger.apply sdk.sha256 retry (.batchFormed members atMs)).activeBatch with
  | none =>
      have hall := List.find?_eq_none.1 hactive _ (Dict.mem_values.2 ⟨_, hget⟩)
      simp [nextBatch, Batch.formed] at hall
  | some batch =>
      have hproving : batch.status = .proving := by simpa using List.find?_some hactive
      obtain ⟨b, hb⟩ := Dict.mem_values.1 (List.mem_of_find?_eq_some hactive)
      rcases proving_cases he ⟨batch, hb, hproving⟩ with hold | ⟨_, heq⟩ | ⟨_, _, heq, hid⟩
      · exact absurd hold (hnone b)
      · cases heq
      · cases heq
        rw [hid, hget] at hb
        exact hb.symm

theorem nextBatch_runs (hnone : ∀ b, ¬ ledger.Proving b) {members : List String} {atMs : Nat}
    (he : (Event.batchFormed members atMs).Admissible sdk codec ledger) :
    (ledger.nextBatch sdk.sha256 members atMs).Runs
      (ledger.apply sdk.sha256 retry (.batchFormed members atMs)) where
  current := by
    rw [apply, batches_form, if_pos rfl]
  flying := .inl rfl
  alone := by
    intro b hb
    rcases proving_cases he hb with hold | ⟨_, heq⟩ | ⟨_, _, heq, hid⟩
    · exact absurd hold (hnone b)
    · cases heq
    · cases heq
      exact hid

/-- What the policy forms a batch of are pending returns, each once. -/
theorem Indexed.permitted_form (h : ledger.Indexed sdk codec) (hnone : ∀ b, ¬ ledger.Proving b)
    {nowMs : Nat} {collect : Bool} {members : List String}
    (hnext : policy.next ledger.pending nowMs collect = .batch members) (atMs : Nat) :
    (Event.batchFormed members atMs).Permitted ledger := by
  obtain ⟨chosen, -, hsub, rfl, -⟩ := BatchPolicy.next_batch hnext
  refine ⟨hnone, h.pending_nodup.sublist (hsub.map _), fun id hid => ?_⟩
  obtain ⟨r, hr, rfl⟩ := List.mem_map.1 hid
  exact ⟨r, h.get_of_pending (hsub.subset hr)⟩

/-- In flight, at most one batch is interrupted. -/
theorem InFlight.interruptions (h : ledger.InFlight) (hindexed : ledger.Indexed sdk codec)
    (atMs : Nat) (orderly : Bool) :
    (ledger.interruptions atMs orderly = [] ∧ ∀ b, ¬ ledger.Proving b) ∨
      ∃ b, ledger.interruptions atMs orderly = [.batchInterrupted b atMs orderly] ∧
        ledger.Proving b := by
  -- the list holds the proving batches, each once
  have hmem : ∀ batch, batch ∈ byFormation (ledger.batches.values.filter fun batch =>
      batch.status = .proving) → ledger.Proving batch.id := by
    intro batch hbatch
    rw [byFormation, List.mem_mergeSort, List.mem_filter, Dict.mem_values, decide_eq_true_iff] at hbatch
    obtain ⟨⟨b, hb⟩, hstatus⟩ := hbatch
    exact ⟨batch, hindexed.batch_id b batch hb ▸ hb, hstatus⟩
  have hnodup : ((byFormation (ledger.batches.values.filter fun batch =>
      batch.status = .proving)).map Batch.id).Nodup := by
    have hkeys : ledger.batches.values.map Batch.id = ledger.batches.keys := by
      rw [Dict.values, Dict.keys, List.map_map]
      refine List.map_congr_left fun entry hentry => ?_
      exact hindexed.batch_id entry.1 entry.2 (Dict.get_eq_some.2 hentry)
    have hperm := (List.mergeSort_perm (ledger.batches.values.filter fun batch =>
      batch.status = .proving) fun a b => a.formedAtMs ≤ b.formedAtMs).map Batch.id
    refine hperm.nodup_iff.2 (List.Nodup.sublist (List.filter_sublist.map _) ?_)
    exact hkeys ▸ ledger.batches.unique
  unfold Ledger.interruptions
  generalize hlist : byFormation (ledger.batches.values.filter fun batch =>
    batch.status = .proving) = list at hmem hnodup
  cases list with
  | nil =>
      left
      refine ⟨rfl, fun b hb => ?_⟩
      obtain ⟨batch, hget, hstatus⟩ := hb
      have hin : batch ∈ byFormation (ledger.batches.values.filter fun batch =>
          batch.status = .proving) := by
        rw [byFormation, List.mem_mergeSort, List.mem_filter, Dict.mem_values, decide_eq_true_iff]
        exact ⟨⟨b, hget⟩, hstatus⟩
      rw [hlist] at hin
      cases hin
  | cons batch rest =>
      cases rest with
      | nil => exact .inr ⟨batch.id, rfl, hmem batch List.mem_cons_self⟩
      -- two of them would be one, since at most one batch proves
      | cons other rest =>
          have hsame := h.single _ _ (hmem batch List.mem_cons_self)
            (hmem other (List.mem_cons_of_mem _ List.mem_cons_self))
          rw [List.map_cons, List.map_cons, hsame] at hnodup
          exact absurd List.mem_cons_self (List.nodup_cons.1 hnodup).1

end Ledger

/-! ## The code at each point -/

namespace Orchestrator

variable {w : History}

/-- An interruption that is allowed. -/
def Interrupts (sdk : TokenSdk.Sdk) (codec : Wire.Codec) (retry : RetryPolicy) (atMs : Nat)
    (orderly : Bool) (w : History) (e : Event) : Prop :=
  Allowed sdk codec retry w e ∧ ∃ b, e = .batchInterrupted b atMs orderly

/-- **Interruptions** leave no batch proving; they touch one batch at most, which is not proven then. -/
theorem interruptions_ensures (hs : Sound sdk codec retry policy w) (atMs : Nat) (orderly : Bool) :
    (do
      let events ← ReturnStore.read fun ledger => ledger.interruptions atMs orderly
      ReturnStore.applyAll events).Ensures (service sdk codec retry policy)
        (Allowed sdk codec retry) (Interrupts sdk codec retry atMs orderly)
        (fun w' _ => (∀ b, ¬ w'.state.Proving b) ∧
          (Since [] w w' ∨ ∃ b, Leaves b w w' ∧ ¬ w'.state.Proven b)) w := by
  refine ensures_look hs fun w₁ hsince₁ hs₁ => ?_
  obtain ⟨hindexed, hflight⟩ := Sound.ledger hs₁
  rcases hflight.interruptions hindexed atMs orderly with ⟨hnil, hnone⟩ | ⟨b, hone, hproving⟩
  · rw [hnil]
    refine ensures_end hs₁ fun w' hsince _ => ⟨?_, .inl (hsince₁.trans hsince)⟩
    exact fun b hb => hnone b (hsince.aside.proving_iff.1 hb)
  · rw [hone]
    refine ensures_apply hs₁ (fun _ _ h => h.1) fun w₂ hsince₂ hs₂ => ?_
    have hproving₂ := hsince₂.aside.proving_iff.2 hproving
    refine ⟨⟨.interrupt hproving₂, b, rfl⟩, fun hs₃ hadmits => ?_⟩
    obtain ⟨batch, hget, hstatus⟩ := id hproving₂
    have hruns : Batch.Runs batch w₂.state := by
      obtain rfl := (Sound.ledger hs₂).1.batch_id b batch hget
      exact ⟨hget, .inl hstatus, fun b' hb' => (Sound.ledger hs₂).2.single b' _ hb' hproving₂⟩
    obtain rfl := (Sound.ledger hs₂).1.batch_id b batch hget
    have hforms : ¬ (Event.batchInterrupted batch.id atMs orderly).Forms := by
      rintro ⟨_, _, h⟩
      cases h
    have hover := @Batch.Runs.ends _ _ retry _ _ hruns _ hadmits hforms (fun _ _ h => by cases h)
      (by simp [Event.batchAfter])
    have hafter := @Batch.Runs.get_apply _ _ retry _ _ hruns _ hadmits hforms
    refine ensures_end hs₃ fun w' hsince _ => ⟨?_, .inr ⟨batch.id, ?_, ?_⟩⟩
    · exact fun b' hb' => hover b' (hsince.aside.proving_iff.1 hb')
    · have hon : (Event.batchInterrupted batch.id atMs orderly).On batch.id := rfl
      exact (((hsince₁.trans hsince₂).leaves _).trans (hon.leaves hadmits)).trans (hsince.leaves _)
    · intro hproven
      obtain ⟨batch', hget', hstatus'⟩ := hsince.aside.proven_iff.1 hproven
      obtain rfl := Option.some.inj (hget'.symm.trans hafter)
      simp [Event.batchAfter] at hstatus'

/-- A proof that is still to settle at a start. -/
theorem mem_unsettledProofs {ledger : Ledger} (hindexed : ledger.Indexed sdk codec)
    {batch : Batch} : batch ∈ ledger.unsettledProofs ↔
      ledger.batches.get batch.id = some batch ∧ batch.isUnsettledProof = true := by
  rw [Ledger.unsettledProofs, Ledger.byFormation, List.mem_mergeSort, List.mem_filter, Dict.mem_values]
  constructor
  · rintro ⟨⟨b, hb⟩, hproof⟩
    exact ⟨hindexed.batch_id b batch hb ▸ hb, hproof⟩
  · rintro ⟨hget, hproof⟩
    exact ⟨⟨batch.id, hget⟩, hproof⟩

theorem unsettledProofs_nodup {ledger : Ledger} (hindexed : ledger.Indexed sdk codec) :
    (ledger.unsettledProofs.map Batch.id).Nodup := by
  have hkeys : ledger.batches.values.map Batch.id = ledger.batches.keys := by
    rw [Dict.values, Dict.keys, List.map_map]
    refine List.map_congr_left fun entry hentry => ?_
    exact hindexed.batch_id entry.1 entry.2 (Dict.get_eq_some.2 hentry)
  have hperm := (List.mergeSort_perm (ledger.batches.values.filter Batch.isUnsettledProof)
    fun a b => a.formedAtMs ≤ b.formedAtMs).map Batch.id
  refine hperm.nodup_iff.2 (List.Nodup.sublist (List.filter_sublist.map _) ?_)
  exact hkeys ▸ ledger.batches.unique

/-- What the bundle of an unsettled proof holds when the service starts. -/
theorem held_started (hs : Sound sdk codec retry policy w)
    (hstarted : (w.state, Label.started) ∈ w.past) {batch : Batch} {bundle : BatchBundle}
    (hbatch : batch ∈ w.state.unsettledProofs) (hbundle : batch.bundle = some bundle) :
    Held w.past batch.id bundle w.state := by
  obtain ⟨hindexed, hflight⟩ := Sound.ledger hs
  obtain ⟨hget, -⟩ := (mem_unsettledProofs hindexed).1 hbatch
  obtain ⟨-, howns⟩ := hflight.written _ _ _ hget hbundle
  intro leaf hleaf
  obtain ⟨id, r, hr, hnullifier⟩ := howns leaf hleaf
  refine ⟨id, r, hr, hnullifier, ?_⟩
  cases hin : r.inBatch batch.id with
  | true => exact .inl rfl
  | false =>
      refine .inr (.inr ⟨w.state, hstarted, batch, hbatch, bundle, r, hbundle, hr, ?_, hin⟩)
      exact ⟨leaf, hleaf, hnullifier.symm⟩

/-- **The start** of the service. -/
theorem opening_ensures (hs : Sound sdk codec retry policy w)
    (hstarted : (w.state, Label.started) ∈ w.past) :
    (code sdk codec retry policy .opening).Ensures (service sdk codec retry policy)
      (Allowed sdk codec retry) (Allowed sdk codec retry)
      (fun w' point => Point.Holds retry w' point) w := by
  refine ensures_ask hs fun w₁ atMs hsince₁ hs₁ _ => ?_
  have hinterrupts := (interruptions_ensures hs₁ atMs false).mono (fun _ _ h => h.1) fun _ _ h _ => h
  refine Prog.Ensures.bind hinterrupts ?_
  rintro w₂ - ⟨hnone, hleaves⟩ hs₂
  refine ensures_look hs₂ fun w₃ hsince₃ hs₃ => ?_
  refine ensures_end hs₃ fun w₄ hsince₄ _ => ?_
  refine ⟨fun b hb => hnone b ?_, Waiting.since ?_ hsince₄, fun _ hid => by cases hid⟩
  · exact (hsince₃.trans hsince₄).aside.proving_iff.1 hb
  · obtain ⟨hindexed₃, hflight₃⟩ := Sound.ledger hs₃
    refine ⟨unsettledProofs_nodup hindexed₃, fun batch hbatch => ?_⟩
    obtain ⟨hget, hproof⟩ := (mem_unsettledProofs hindexed₃).1 hbatch
    have hproven : batch.status = .proven := by
      simp only [Batch.isUnsettledProof, Bool.and_eq_true, decide_eq_true_eq] at hproof
      exact hproof.1
    obtain ⟨bundle, hbundle, -⟩ := hflight₃.proof batch.id batch hget hproven
    refine ⟨hget, hproven, bundle, hbundle, ?_⟩
    -- the batch was proven when the service started
    have hkept : w₃.state.batches.get batch.id = w.state.batches.get batch.id ∧
        (Held w.past batch.id bundle w.state → Held w₃.past batch.id bundle w₃.state) := by
      rcases hleaves with hsince₂ | ⟨b, hb, hnot⟩
      · have hsince := (hsince₁.trans hsince₂).trans hsince₃
        exact ⟨by rw [hsince.aside.batches], fun hheld => hheld.since hsince fun _ hid => by cases hid⟩
      · have hne : batch.id ≠ b := by
          rintro rfl
          exact hnot (hsince₃.aside.proven_iff.1 ⟨batch, hget, hproven⟩)
        have hall := ((hsince₁.leaves b).trans hb).trans (hsince₃.leaves b)
        exact ⟨hall.batches _ hne, hall.held _ _ hne⟩
    refine hkept.2 (held_started hs hstarted ?_ hbundle)
    exact (mem_unsettledProofs (Sound.ledger hs).1).2 ⟨hkept.1 ▸ hget, hproof⟩

/-- **A turn of the main loop.** -/
theorem collect_ensures (hs : Sound sdk codec retry policy w) (hnone : ∀ b, ¬ w.state.Proving b)
    (collecting : Bool) :
    (collect sdk policy collecting).Ensures (service sdk codec retry policy)
      (Allowed sdk codec retry) (Allowed sdk codec retry)
      (fun w' point => Point.Holds retry w' point) w := by
  refine ensures_ask hs fun w₁ draining hsince₁ hs₁ _ => ?_
  -- the service is asked to stop twice: before and behind the recheck
  cases draining with
  | true =>
      refine ensures_end hs₁ fun w' hsince _ b hb => hnone b ?_
      exact (hsince₁.trans hsince).aside.proving_iff.1 hb
  | false =>
      refine Prog.Ensures.bind (recheckReleases_ensures hs₁) fun w₂ _ hbatches hs₂ => ?_
      refine ensures_ask hs₂ fun w₃ draining' hsince₃ hs₃ _ => ?_
      cases draining' with
      | true =>
          refine ensures_end hs₃ fun w' hsince _ b hb => ?_
          obtain ⟨batch, hget, hstatus⟩ := (hsince₃.trans hsince).aside.proving_iff.1 hb
          rw [hbatches, hsince₁.aside.batches] at hget
          exact hnone b ⟨batch, hget, hstatus⟩
      | false =>
          refine ensures_look hs₃ fun w₄ hsince₄ hs₄ => ?_
          refine ensures_ask hs₄ fun w₅ nowMs hsince₅ hs₅ _ => ?_
          -- nothing proves still: the recheck forms no batch, and nobody else may
          have hnone₅ : ∀ b, ¬ w₅.state.Proving b := by
            intro b hb
            obtain ⟨batch, hget, hstatus⟩ := hb
            rw [hsince₅.aside.batches, hsince₄.aside.batches, hsince₃.aside.batches, hbatches,
              hsince₁.aside.batches] at hget
            exact hnone b ⟨batch, hget, hstatus⟩
          have hidle : ∀ w', Since [] w₅ w' → Point.Holds retry w' (.loop (.collecting true)) :=
            fun w' hsince => ⟨fun b hb => hnone₅ b (hsince.aside.proving_iff.1 hb), trivial⟩
          -- `take_next` looks at the queue and forms the batch in one step
          intro w₆ hrely hs₆
          have hsince₆ := Since.of_rely hs₅ hrely
          have hnone₆ : ∀ b, ¬ w₆.state.Proving b :=
            fun b hb => hnone₅ b (hsince₆.aside.proving_iff.1 hb)
          have hindexed₆ := (Sound.ledger hs₆).1
          cases hnext : policy.next w₆.state.pending nowMs collecting with
          | batch members =>
              refine ⟨fun h => ?_, fun e he => ?_⟩
              · simp only [hnext] at h
                cases h
              · simp only [hnext, Option.some.injEq] at he
                subst he
                have hpermitted := hindexed₆.permitted_form hnone₆ hnext nowMs
                refine ⟨.form hpermitted, fun hadmits => ?_⟩
                have hs₇ : Sound sdk codec retry policy
                    (w₆.own (service sdk codec retry policy) (.batchFormed members nowMs)) :=
                  .own hs₆ (.form hpermitted) hadmits
                have hactive := @Ledger.activeBatch_formed sdk codec retry _ hnone₆ _ _ hadmits
                have hmade : ((service sdk codec retry policy).apply w₆.state
                    (.batchFormed members nowMs)).activeBatch = _ := hactive
                simp only [hnext]
                rw [hmade]
                refine ensures_end hs₇ fun w' hsince' _ => ?_
                have hruns := @Ledger.nextBatch_runs sdk codec retry _ hnone₆ _ _ hadmits
                exact ⟨hruns.aside hsince'.aside, .inl ⟨rfl, rfl⟩, trivial⟩
          | waitUntil atMs =>
              refine ⟨fun _ => ?_, fun e he => ?_⟩
              · simp only [hnext]
                refine ensures_ask hs₆ fun w₇ _ hsince₇ hs₇ _ => ?_
                exact ensures_end hs₇ fun w' hsince' _ => hidle w' ((hsince₆.trans hsince₇).trans hsince')
              · simp only [hnext] at he
                cases he
          | idle =>
              refine ⟨fun _ => ?_, fun e he => ?_⟩
              · simp only [hnext]
                refine ensures_ask hs₆ fun w₇ _ hsince₇ hs₇ _ => ?_
                exact ensures_end hs₇ fun w' hsince' _ => hidle w' ((hsince₆.trans hsince₇).trans hsince')
              · simp only [hnext] at he
                cases he

/-- **The code at each point** commits what is allowed and leads to another point. -/
theorem code_ensures (point : Point) (hs : Sound sdk codec retry policy w)
    (hpoint : point.Holds retry w) :
    (code sdk codec retry policy point).Ensures (service sdk codec retry policy)
      (Allowed sdk codec retry) (Allowed sdk codec retry)
      (fun w' point' => Point.Holds retry w' point') w := by
  cases point with
  | opening => exact opening_ensures hs hpoint
  | loop turn =>
      obtain ⟨hnone, hturn⟩ := hpoint
      have hidle : ∀ w', Since [] w w' → Point.Holds retry w' (.loop (.collecting true)) :=
        fun w' hsince => ⟨fun b hb => hnone b (hsince.aside.proving_iff.1 hb), trivial⟩
      -- the main loop, or the proofs found at the start, one after the other
      match turn, hturn with
      | .collecting collecting, _ => exact collect_ensures hs hnone collecting
      | .starting [], _ => exact ensures_end hs fun w' hsince _ => hidle w' hsince
      | .starting (batch :: rest), ⟨hwaiting, _⟩ =>
          refine ensures_ask hs fun w₁ draining hsince₁ hs₁ _ => ?_
          cases draining with
          | true => exact ensures_end hs₁ fun w' hsince _ => hidle w' (hsince₁.trans hsince)
          | false =>
              -- nobody proves, so the proven batch may be run on
              have hwaiting₁ := hwaiting.since hsince₁
              obtain ⟨hnew, hrest⟩ := List.nodup_cons.1 hwaiting₁.nodup
              obtain ⟨hget, hproven, hbundle⟩ := hwaiting₁.current batch List.mem_cons_self
              have hruns : batch.Runs w₁.state := by
                refine ⟨hget, .inr hproven, fun b hb => ?_⟩
                exact absurd (hsince₁.aside.proving_iff.1 hb) (hnone b)
              have hafter : (Loop.starting rest).Holds w₁ (some batch.id) := by
                refine ⟨⟨hrest, fun other hother => ?_⟩, ?_⟩
                · exact hwaiting₁.current other (List.mem_cons_of_mem _ hother)
                · rintro id hid
                  obtain rfl := Option.some.inj hid
                  exact hnew
              have hstarts : Starts w₁ batch := .inr ⟨hproven, hbundle⟩
              refine ensures_end hs₁ fun w' hsince _ => ?_
              exact ⟨hruns.aside hsince.aside, hstarts.since hsince, hafter.since hsince⟩
  | run batch after => exact runBatch_ensures hs hpoint.1 hpoint.2.1 hpoint.2.2
  -- the rebased batch proves again, and it is the only one
  | rebased b after =>
      obtain ⟨⟨batch, hget, hproving, hrebases⟩, hafter⟩ := hpoint
      refine ensures_look hs fun w₁ hsince₁ hs₁ => ?_
      have hget₁ : w₁.state.batches.get b = some batch := by
        rw [hsince₁.aside.batches]
        exact hget
      rw [hget₁]
      obtain rfl := (Sound.ledger hs₁).1.batch_id b batch hget₁
      have hruns : batch.Runs w₁.state := by
        refine ⟨hget₁, .inl hproving, fun b' hb' => ?_⟩
        exact (Sound.ledger hs₁).2.single b' batch.id hb' ⟨batch, hget₁, hproving⟩
      exact stage_ensures hs₁ (proveStage_stage hs₁ hruns hproving) (hafter.since hsince₁)
  -- an orderly stop interrupts whatever proves
  | stopping =>
      refine ensures_ask hs fun w₁ atMs _ hs₁ _ => ?_
      have hinterrupts := (interruptions_ensures hs₁ atMs true).mono (fun _ _ h => h.1) fun _ _ h _ => h
      refine Prog.Ensures.bind hinterrupts fun w₂ _ hafter hs₂ => ?_
      exact ensures_end hs₂ fun w' hsince _ b hb => hafter.1 b (hsince.aside.proving_iff.1 hb)
  | stopped =>
      intro w' _ _ answer
      cases answer

end Orchestrator

/-- A configuration of the service. -/
abbrev ServiceConfig :=
  Config Ledger Event Query Query.Answer Settlement.SettledBatch Orchestrator.Point

/-- **Every run of the service is sound**: through crashes, restarts and stops, whatever the outside
answers and the request handlers do, the orchestrator commits only what is allowed. -/
theorem reach_holds {c : ServiceConfig} (h : (service sdk codec retry policy).Reach c) :
    (service sdk codec retry policy).Holds (Allowed sdk codec retry)
      (fun point w => point.Holds retry w) c :=
  System.Reach.sound (fun _ _ => List.mem_cons_self) (fun _ _ => trivial)
    (fun point _ hs hpoint => Orchestrator.code_ensures point hs hpoint) h

theorem reach_sound {c : ServiceConfig} (h : (service sdk codec retry policy).Reach c) :
    Sound sdk codec retry policy c.world :=
  (reach_holds h).1

end UnicityBridge.Service
