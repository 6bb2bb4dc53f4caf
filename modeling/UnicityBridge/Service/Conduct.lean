import UnicityBridge.Service.Guarantee

/-!
# How the orchestrator runs a batch

Each function of the orchestrator commits only what the run of its batch may commit, whatever it is
answered and whatever the request handlers do meanwhile, and it ends with the batch ended or with
another round to go.
-/

set_option autoImplicit false

namespace UnicityBridge.Service

open UnicityBridge.Lib
open UnicityBridge.Settlement (RebuiltAccumulator)

variable {sdk : TokenSdk.Sdk} {codec : Wire.Codec} {retry : RetryPolicy} {policy : BatchPolicy}

/-! ## What one event leaves -/

namespace ReturnRecord

theorem exclude_not_active (record : ReturnRecord) (atMs : Nat) (reason : Exclusion) :
    ¬ ((record.exclude atMs reason retry).status = .proving ∨
      (record.exclude atMs reason retry).status = .proven) := by
  rcases record.exclude_status atMs retry reason with hs | hs | hs <;> simp [hs]

end ReturnRecord

/-- A return that failed recoverably is not done. -/
theorem Return.not_done_of_failedRecoverably {r : Return} (h : r.record.failedRecoverably = true) :
    r.isDone = false := by
  have hstatus : r.record.status = .failed := by
    simp only [ReturnRecord.failedRecoverably, Bool.and_eq_true, decide_eq_true_eq] at h
    exact h.1
  simp [Return.isDone, hstatus, h]

namespace Ledger

variable {ledger : Ledger} {id : String} {atMs : Nat}

theorem aside_modify {f : ReturnRecord → ReturnRecord}
    (hf : ∀ r, ledger.returns.get id = some r → f r.record = r.record ∨
      ¬ ((f r.record).status = .proving ∨ (f r.record).status = .proven)) :
    Aside [id] ledger { ledger with returns := ledger.returns.modify id fun r => r.update f } where
  batches := rfl
  kept := by
    intro key r hr
    simp only [get_modify, hr, Option.map_some, Option.some.injEq, exists_eq_left']
    by_cases hkey : key = id
    · subst hkey
      rw [if_pos rfl]
      refine ⟨rfl, ?_⟩
      rcases hf r hr with hsame | hactive
      · left
        rw [Return.update, hsame]
      · exact .inr ⟨hactive, .inl (List.mem_singleton_self key)⟩
    · rw [if_neg hkey]
      exact ⟨rfl, .inl rfl⟩
  came := by
    intro key r' hr'
    simp only [get_modify, Option.map_eq_some_iff] at hr'
    obtain ⟨r, hr, rfl⟩ := hr'
    by_cases hkey : key = id
    · subst hkey
      rw [if_pos rfl]
      rcases hf r hr with hsame | hactive
      · left
        rw [Return.update, hsame]
        exact hr
      · exact .inr hactive
    · rw [if_neg hkey]
      exact .inl hr

theorem aside_excluded (sha256 : Bytes → Bytes32) (reason : Exclusion) :
    Aside [id] ledger (ledger.apply sha256 retry (.returnExcluded id reason atMs)) :=
  aside_modify fun r _ => .inr (r.record.exclude_not_active atMs reason)

/-- An excluded return is in no batch. -/
theorem not_active_excluded (sha256 : Bytes → Bytes32) (reason : Exclusion) {r' : Return}
    (hr' : (ledger.apply sha256 retry (.returnExcluded id reason atMs)).returns.get id = some r') :
    ¬ r'.Active := by
  simp only [apply, exclude, get_modify, Option.map_eq_some_iff, if_true] at hr'
  obtain ⟨r, -, rfl⟩ := hr'
  exact r.record.exclude_not_active atMs reason

theorem aside_requeued (sha256 : Bytes → Bytes32) :
    Aside [id] ledger (ledger.apply sha256 retry (.requeued id atMs)) := by
  refine aside_modify fun r _ => ?_
  rcases r.record.requeue_cases atMs retry with ⟨-, hqueued⟩ | hsame
  · exact .inr (by simp [hqueued])
  · exact .inl hsame

end Ledger

/-- **What a request handler commits leaves the orchestrator's returns alone.** -/
theorem Intake.aside {ledger : Ledger} (hindexed : ledger.Indexed sdk codec) {e : Event}
    (h : Intake sdk codec ledger e) :
    Ledger.Aside [] ledger (ledger.apply sdk.sha256 retry e) := by
  have hadmissible := h.admissible
  obtain ⟨wireInput, nowMs, burn, record, maxUnfinished, hcreate, haccept, -⟩ := h
  unfold ReturnStore.acceptWithin at haccept
  split at haccept
  · next known hknown =>
    split at haccept
    · next hfailed =>
      obtain rfl := Option.some.inj haccept
      obtain ⟨id, -, hget⟩ := Option.bind_eq_some_iff.1 hknown
      obtain rfl : known.burn.id = id := hindexed.id_eq id known hget
      have haside := @Ledger.aside_requeued retry ledger known.burn.id nowMs sdk.sha256
      refine ⟨haside.batches, fun id r hr => ?_, haside.came⟩
      obtain ⟨r', hr', hburn, hsame | ⟨hactive, hid | hfailed'⟩⟩ := haside.kept id r hr
      · exact ⟨r', hr', hburn, .inl hsame⟩
      · -- the return was put back in the queue
        obtain rfl := List.mem_singleton.1 hid
        obtain rfl : r = known := Option.some.inj (hr.symm.trans hget)
        refine ⟨r', hr', hburn, .inr ⟨hactive, .inr ⟨hfailed, ?_⟩⟩⟩
        simp only [Ledger.apply, Ledger.requeue, Ledger.get_modify, hr, Option.map_some, if_true,
          Option.some.injEq] at hr'
        subst hr'
        rcases r.record.requeue_cases nowMs retry with ⟨-, hqueued⟩ | hunchanged
        · simp [Return.isDone, hqueued]
        · have hopen := Return.not_done_of_failedRecoverably hfailed
          simpa [Return.isDone, hunchanged] using hopen
      · exact ⟨r', hr', hburn, .inr ⟨hactive, .inr hfailed'⟩⟩
    · cases haccept
  -- a new return, under an id that nobody had
  · split at haccept
    · cases haccept
    · obtain rfl := Option.some.inj haccept
      have hfresh : ledger.returns.get burn.id = none := hadmissible.2
      refine ⟨?_, fun id r hr => ⟨r, ?_, rfl, .inl rfl⟩, fun id r' hr' => ?_⟩
      · simp only [Ledger.apply, Ledger.accept]
        split <;> rfl
      · rw [Ledger.apply, Ledger.get_accept, if_neg]
        · exact hr
        · rintro ⟨-, rfl⟩
          rw [hfresh] at hr
          cases hr
      · rw [Ledger.apply, Ledger.get_accept] at hr'
        split at hr'
        · obtain rfl := Option.some.inj hr'
          right
          simp [Return.Active, (Ledger.accepted_record hadmissible).1]
        · exact .inl hr'

/-! ## Since -/

/-- From the first history to the second nothing happened to the batches, and to the returns only what
the request handlers do, except under `ids`. -/
structure Since (ids : List String) (w w' : History) : Prop where
  aside : Ledger.Aside ids w.state w'.state
  past : w.past ⊆ w'.past

namespace Since

variable {ids : List String} {w w' w'' : History}

theorem refl (ids : List String) (w : History) : Since ids w w := ⟨.refl ids _, List.Subset.refl _⟩

theorem trans (h : Since ids w w') (h' : Since ids w' w'') : Since ids w w'' :=
  ⟨h.aside.trans h'.aside, List.Subset.trans h.past h'.past⟩

theorem mono {ids' : List String} (h : Since ids w w') (hids : ids ⊆ ids') : Since ids' w w' :=
  ⟨h.aside.mono hids, h.past⟩

theorem of_nil (h : Since [] w w') : Since ids w w' := h.mono (List.nil_subset ids)

theorem heard (h : Since ids w w') (question : Query) (answer : question.Answer) :
    Since ids w (w'.heard question answer) :=
  ⟨h.aside, List.Subset.trans h.past (List.subset_cons_self _ _)⟩

/-- What happens between two steps of the orchestrator. -/
theorem of_rely (hs : Sound sdk codec retry policy w)
    (h : (service sdk codec retry policy).Rely w w') : Since [] w w' := by
  refine System.Rely.keeps (refl []) (fun _ _ _ => trans) ?_ ?_ hs h
  · intro w e hguarded hintake
    exact ⟨Intake.aside (Sound.ledger hguarded).1 hintake, List.subset_cons_self _ _⟩
  · intro w x
    exact ⟨.refl [] _, List.subset_cons_self _ _⟩

end Since

/-! ## Rules for programs -/

section Rules

variable {α β : Type} {allowed : History → Event → Prop} {post : History → β → Prop} {w : History}

/-- Ask, and go on with the answer. -/
theorem ensures_ask (hs : Sound sdk codec retry policy w) {question : Query}
    {rest : question.Answer → Program β}
    (h : ∀ w' answer, Since [] w w' → Sound sdk codec retry policy w' →
      (w'.state, Label.heard question answer) ∈ w'.past →
      (rest answer).Ensures (service sdk codec retry policy) (Allowed sdk codec retry) allowed post w') :
    (Prog.query question >>= rest).Ensures (service sdk codec retry policy) (Allowed sdk codec retry)
      allowed post w := by
  refine Prog.ensures_query fun w' hrely hguarded answer => ?_
  exact h _ answer ((Since.of_rely hs hrely).heard question answer) (.heard hguarded question answer)
    List.mem_cons_self

/-- Read, and go on. -/
theorem ensures_look (hs : Sound sdk codec retry policy w) {f : Ledger → α} {rest : α → Program β}
    (h : ∀ w', Since [] w w' → Sound sdk codec retry policy w' →
      (rest (f w'.state)).Ensures (service sdk codec retry policy) (Allowed sdk codec retry) allowed
        post w') :
    (ReturnStore.read f >>= rest).Ensures (service sdk codec retry policy)
      (Allowed sdk codec retry) allowed post w :=
  Prog.ensures_read fun w' hrely hguarded => h w' (Since.of_rely hs hrely) hguarded

/-- Commit, and go on. -/
theorem ensures_apply (hs : Sound sdk codec retry policy w)
    (hguard : ∀ w e, allowed w e → Allowed sdk codec retry w e) {e : Event} {rest : Unit → Program β}
    (h : ∀ w', Since [] w w' → Sound sdk codec retry policy w' → allowed w' e ∧
      (Sound sdk codec retry policy (w'.own (service sdk codec retry policy) e) →
        e.Admissible sdk codec w'.state →
        (rest ()).Ensures (service sdk codec retry policy) (Allowed sdk codec retry) allowed post
          (w'.own (service sdk codec retry policy) e))) :
    (ReturnStore.apply e >>= rest).Ensures (service sdk codec retry policy)
      (Allowed sdk codec retry) allowed post w := by
  refine Prog.ensures_commit fun w' hrely hguarded => ?_
  obtain ⟨hallowed, hrest⟩ := h w' (Since.of_rely hs hrely) hguarded
  exact ⟨hallowed, fun hadmits => hrest (.own hguarded (hguard w' e hallowed) hadmits) hadmits⟩

/-- End. -/
theorem ensures_end (hs : Sound sdk codec retry policy w) {value : β}
    (h : ∀ w', Since [] w w' → Sound sdk codec retry policy w' → post w' value) :
    (pure value : Program β).Ensures (service sdk codec retry policy) (Allowed sdk codec retry)
      allowed post w :=
  Prog.ensures_pure fun w' hrely hguarded => h w' (Since.of_rely hs hrely) hguarded

end Rules

/-! ## Exclusions -/

theorem Evidence.since {ids : List String} {w w' : History} {nullifier txid : String}
    (h : Evidence w.past nullifier txid) (hsince : Since ids w w') :
    Evidence w'.past nullifier txid :=
  h.mono hsince.past

/-- An exclusion may wait while others are excluded. -/
theorem MayExclude.since {b id : String} {reason : Exclusion} {ids : List String} {w w' : History}
    (h : MayExclude b w id reason) (hsince : Since ids w w') (hid : id ∉ ids) :
    MayExclude b w' id reason := by
  obtain ⟨r, hr, hevidence, hwhere⟩ := h
  obtain ⟨r', hr', hburn⟩ := hsince.aside.burn hr
  refine ⟨r', hr', fun txid hreason => ?_, ?_⟩
  · obtain ⟨t, ht, hshown⟩ := hevidence txid hreason
    exact ⟨t, ht, hburn ▸ hshown.since hsince⟩
  · rcases hwhere with hin | ⟨r₀, hassembled, hstatus, hdone⟩
    · left
      have hopen := Return.not_failedRecoverably_of_active (Return.active_of_inBatch hin)
      rwa [Option.some.inj (hr'.symm.trans (hsince.aside.get hr hid hopen))]
    · right
      refine ⟨r₀, hassembled.mono hsince.past, hstatus, fun hdone' => hdone ?_⟩
      exact hsince.aside.done_before hr hr' hid hdone'

theorem MayRecheck.since {id : String} {reason : Exclusion} {ids : List String} {w w' : History}
    (h : MayRecheck w id reason) (hsince : Since ids w w') (hid : id ∉ ids) :
    MayRecheck w' id reason := by
  obtain ⟨r, hr, hstatus, txid, unconfirmed, hreason, hevidence⟩ := h
  have hopen : r.record.failedRecoverably = false := by
    simp [ReturnRecord.failedRecoverably, hstatus]
  refine ⟨r, hsince.aside.get hr hid hopen, hstatus, txid, unconfirmed, hreason, fun hnone => ?_⟩
  obtain ⟨t, ht, hshown⟩ := hevidence hnone
  exact ⟨t, ht, hshown.since hsince⟩

/-- What a bundle holds it holds while others than its returns are excluded. -/
theorem Held.since {b : String} {bundle : BatchBundle} {ids : List String} {w w' : History}
    (h : Held w.past b bundle w.state) (hsince : Since ids w w')
    (hids : ∀ id ∈ ids, ∀ r, w.state.returns.get id = some r → r.inBatch b = false) :
    Held w'.past b bundle w'.state := by
  intro leaf hleaf
  obtain ⟨id, r, hr, hnullifier, hin | hdrifted⟩ := h leaf hleaf
  · have hid : id ∉ ids := by
      intro hid
      rw [hids id hid r hr] at hin
      cases hin
    have hopen := Return.not_failedRecoverably_of_active (Return.active_of_inBatch hin)
    exact ⟨id, r, hsince.aside.get hr hid hopen, hnullifier, .inl hin⟩
  · obtain ⟨r', hr', hburn⟩ := hsince.aside.burn hr
    exact ⟨id, r', hr', hburn ▸ hnullifier, .inr (hdrifted.mono hsince.past)⟩

namespace Orchestrator

/-- **The exclusions of a list of returns**, each of which may happen whatever the others do: only these
returns change, and none of them is in a batch afterwards. -/
theorem exclude_ensures {allowed : History → Event → Prop}
    (hguard : ∀ w e, allowed w e → Allowed sdk codec retry w e) {w : History}
    (hs : Sound sdk codec retry policy w) {excluded : List (String × Exclusion)}
    (hnodup : (excluded.map Prod.fst).Nodup)
    (hmay : ∀ entry ∈ excluded, ∀ ids w', entry.1 ∉ ids → Since ids w w' →
      Sound sdk codec retry policy w' → ∀ atMs, allowed w' (.returnExcluded entry.1 entry.2 atMs)) :
    (exclude excluded).Ensures (service sdk codec retry policy) (Allowed sdk codec retry) allowed
      (fun w' _ => Since (excluded.map Prod.fst) w w' ∧
        ∀ id ∈ excluded.map Prod.fst, ∀ r, w'.state.returns.get id = some r → ¬ r.Active) w := by
  -- by induction over the list, which is shorter after each exclusion
  induction excluded generalizing w with
  | nil =>
      refine ensures_end hs fun w' hsince _ => ⟨hsince, ?_⟩
      intro id hid
      cases hid
  | cons entry rest ih =>
      obtain ⟨id, reason⟩ := entry
      obtain ⟨hnew, hrest⟩ := List.nodup_cons.1 hnodup
      refine ensures_ask hs fun w₁ atMs hsince₁ hs₁ _ => ?_
      refine ensures_apply hs₁ hguard fun w₂ hsince₂ hs₂ => ?_
      have hsince := hsince₁.trans hsince₂
      refine ⟨hmay (id, reason) List.mem_cons_self [] w₂ List.not_mem_nil hsince hs₂ atMs, ?_⟩
      intro hs₃ _
      have hstep : Since [id] w
          (w₂.own (service sdk codec retry policy) (.returnExcluded id reason atMs)) :=
        hsince.of_nil.trans ⟨Ledger.aside_excluded sdk.sha256 reason, List.subset_cons_self _ _⟩
      refine Prog.Ensures.mono (ih hs₃ hrest ?_) (fun _ _ h => h) ?_
      -- the exclusion touched this return only, so the others may still be excluded
      · intro entry' hentry' ids w' hid' hsince' hs'
        have hne : entry'.1 ≠ id := by
          intro hsame
          exact hnew (List.mem_map.2 ⟨entry', hentry', hsame⟩)
        refine hmay entry' (List.mem_cons_of_mem _ hentry') (id :: ids) w' ?_ ?_ hs'
        · simp [hne, hid']
        · exact (hstep.mono (by simp)).trans (hsince'.mono (List.subset_cons_self _ _))
      · rintro w' _ ⟨hsince', hleft⟩ -
        refine ⟨(hstep.mono (by simp)).trans (hsince'.mono (List.subset_cons_self _ _)), ?_⟩
        intro id' hid' r hr
        rcases List.mem_cons.1 hid' with rfl | hid'
        · rcases hsince'.aside.came _ r hr with hr' | hactive
          · exact Ledger.not_active_excluded sdk.sha256 reason hr'
          · exact hactive
        · exact hleft id' hid' r hr

end Orchestrator

/-! ## Where a run stands -/

/-- The batch that runs: it is as the ledger has it, proving or proven, and no other is proving. -/
structure Batch.Runs (batch : Batch) (ledger : Ledger) : Prop where
  current : ledger.batches.get batch.id = some batch
  flying : batch.status = .proving ∨ batch.status = .proven
  alone : ∀ b, ledger.Proving b → b = batch.id

namespace Batch.Runs

variable {batch : Batch} {ledger later : Ledger}

theorem aside {ids : List String} (h : batch.Runs ledger) (haside : Ledger.Aside ids ledger later) :
    batch.Runs later where
  current := by
    rw [haside.batches]
    exact h.current
  flying := h.flying
  alone := fun b hb => h.alone b (haside.proving_iff.1 hb)

theorem flies (h : batch.Runs ledger) : ledger.Proving batch.id ∨ ledger.Proven batch.id :=
  h.flying.imp (fun hstatus => ⟨batch, h.current, hstatus⟩) fun hstatus => ⟨batch, h.current, hstatus⟩

/-- Beside a proven batch no batch is proving. -/
theorem none_proving (h : batch.Runs ledger) (hproven : batch.status = .proven) (b : String) :
    ¬ ledger.Proving b := by
  intro hb
  obtain rfl := h.alone b hb
  obtain ⟨batch', hget, hproving⟩ := hb
  rw [← Option.some.inj (h.current.symm.trans hget), hproven] at hproving
  cases hproving

/-- The batch after an event that is no formation. -/
theorem get_apply (h : batch.Runs ledger) {e : Event} (he : e.Admissible sdk codec ledger)
    (hforms : ¬ e.Forms) :
    (ledger.apply sdk.sha256 retry e).batches.get batch.id = some (e.batchAfter batch.id batch) := by
  rw [Ledger.batches_apply e he.ne_snapshot fun members atMs heq => hforms ⟨members, atMs, heq⟩,
    h.current]
  rfl

/-- After an event that ends the batch no batch is proving. -/
theorem ends (h : batch.Runs ledger) {e : Event} (he : e.Admissible sdk codec ledger)
    (hforms : ¬ e.Forms) (hrebases : ∀ b atMs, e ≠ .batchRebased b atMs)
    (hover : (e.batchAfter batch.id batch).status ≠ .proving) (b : String) :
    ¬ (ledger.apply sdk.sha256 retry e).Proving b := by
  intro hb
  rcases Ledger.proving_cases he hb with hold | ⟨atMs, heq⟩ | ⟨members, atMs, heq, -⟩
  · obtain rfl := h.alone b hold
    obtain ⟨batch', hget, hproving⟩ := hb
    rw [h.get_apply he hforms] at hget
    exact hover (Option.some.inj hget ▸ hproving)
  · exact hrebases b atMs heq
  · exact hforms ⟨members, atMs, heq⟩

end Batch.Runs

/-- The batch's bundle was not submitted, by the settler's own account. -/
def Skipped (past : Past) (batch : Batch) : Prop :=
  ∃ ledger bundle, batch.bundle = some bundle ∧
    (ledger, Label.heard (Query.submit bundle) SubmitOutcome.skipped) ∈ past

/-- The batch is at an end: settled, failed, or left proven because its bundle was not submitted. -/
def Finished (past : Past) (batch : Batch) : Prop :=
  batch.status = .settled ∨ batch.status = .failed ∨ batch.status = .proven ∧ Skipped past batch

/-- How a stage of a batch ends that has been rebased `k` times: the batch is at an end and none is
proving, or it is proving again, rebased once more. -/
def Ended (retry : RetryPolicy) (b : String) (k : Nat) (w : History) : Stage → Prop
  | .done => (∀ b', ¬ w.state.Proving b') ∧ ∃ batch, w.state.batches.get b = some batch ∧
      batch.rebases = k ∧ Finished w.past batch
  | .rebase => ∃ batch, w.state.batches.get b = some batch ∧ batch.status = .proving ∧
      batch.rebases = k + 1 ∧ k < retry.maxRebases

theorem Finished.mono {past past' : Past} {batch : Batch} (h : Finished past batch)
    (hpast : past ⊆ past') : Finished past' batch := by
  refine h.imp_right fun h => h.imp_right fun ⟨hproven, ledger, bundle, hbundle, hmem⟩ => ?_
  exact ⟨hproven, ledger, bundle, hbundle, hpast hmem⟩

theorem Ended.since {b : String} {k : Nat} {w w' : History} {stage : Stage} {ids : List String}
    (h : Ended retry b k w stage) (hsince : Since ids w w') : Ended retry b k w' stage := by
  cases stage with
  | done =>
      obtain ⟨hnone, batch, hget, hrebases, hfinished⟩ := h
      refine ⟨fun b' hb' => hnone b' (hsince.aside.proving_iff.1 hb'), batch, ?_, hrebases,
        hfinished.mono hsince.past⟩
      rw [hsince.aside.batches]
      exact hget
  | rebase =>
      obtain ⟨batch, hget, hrest⟩ := h
      refine ⟨batch, ?_, hrest⟩
      rw [hsince.aside.batches]
      exact hget

end UnicityBridge.Service
