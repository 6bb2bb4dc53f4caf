import UnicityBridge.Service.Conduct

/-!
# The stages of a batch

What each stage of `run_batch` commits and how it ends.
-/

set_option autoImplicit false

namespace UnicityBridge.Service

open UnicityBridge.Lib
open UnicityBridge.Settlement (RebuiltAccumulator)

variable {sdk : TokenSdk.Sdk} {codec : Wire.Codec} {retry : RetryPolicy} {policy : BatchPolicy}

variable (sdk codec retry policy) in
/-- The program is a stage of the batch: it commits what the batch's run may commit, and ends as a stage
ends. -/
def IsStage (batch : Batch) (prog : Program Stage) (w : History) : Prop :=
  prog.Ensures (service sdk codec retry policy) (Allowed sdk codec retry)
    (RunOf sdk codec retry batch.id) (fun w' stage => Ended retry batch.id batch.rebases w' stage) w

theorem RunOf.allowed {b : String} (w : History) (e : Event) (h : RunOf sdk codec retry b w e) :
    Allowed sdk codec retry w e :=
  .run h

namespace Orchestrator

variable {batch : Batch} {w : History}

/-- Failing a batch ends it. -/
theorem fail_ensures (hs : Sound sdk codec retry policy w) (hruns : batch.Runs w.state)
    (kind : ErrorKind) (message : String) :
    (fail batch kind message).Ensures (service sdk codec retry policy) (Allowed sdk codec retry)
      (RunOf sdk codec retry batch.id)
      (fun w' stage => stage = .done ∧ Ended retry batch.id batch.rebases w' .done) w := by
  refine ensures_ask hs fun w₁ atMs hsince₁ hs₁ _ => ?_
  refine ensures_apply hs₁ RunOf.allowed fun w₂ hsince₂ hs₂ => ?_
  have hruns₂ := hruns.aside (hsince₁.trans hsince₂).aside
  refine ⟨.fail hruns₂.flies, fun hs₃ hadmits => ?_⟩
  have hforms : ¬ (Event.batchFailed batch.id kind message atMs).Forms := by
    rintro ⟨_, _, h⟩
    cases h
  have hafter : Ended retry batch.id batch.rebases
      (w₂.own (service sdk codec retry policy) (.batchFailed batch.id kind message atMs)) .done := by
    refine ⟨hruns₂.ends hadmits hforms (fun _ _ h => by cases h) ?_, _,
      hruns₂.get_apply hadmits hforms, ?_, ?_⟩
    · simp [Event.batchAfter]
    · simp [Event.batchAfter]
    · exact .inr (.inl (by simp [Event.batchAfter]))
  exact ensures_end hs₃ fun w' hsince _ => ⟨rfl, hafter.since hsince⟩

theorem fail_stage (hs : Sound sdk codec retry policy w) (hruns : batch.Runs w.state)
    (kind : ErrorKind) (message : String) :
    IsStage sdk codec retry policy batch (fail batch kind message) w := by
  refine (fail_ensures hs hruns kind message).mono (fun _ _ h => h) ?_
  rintro w' _ ⟨rfl, hended⟩ -
  exact hended

/-- A batch that a receipt or a confirmation settles ends. -/
theorem settle_stage (hs : Sound sdk codec retry policy w) (hruns : batch.Runs w.state)
    {bundle : BatchBundle} {txid : String} (hproven : batch.status = .proven)
    (hbundle : batch.bundle = some bundle) (hheld : Held w.past batch.id bundle w.state)
    (hshown : (∃ ledger,
        (ledger, Label.heard (Query.submit bundle) (SubmitOutcome.submitted txid)) ∈ w.past) ∨
      ∀ w', Since [] w w' → ReleasedIn w' batch.id txid) :
    IsStage sdk codec retry policy batch (do
      let nowMs ← Clock.nowMs
      ReturnStore.apply (.batchSettled batch.id (some txid) nowMs)
      pure .done) w := by
  refine ensures_ask hs fun w₁ atMs hsince₁ hs₁ _ => ?_
  refine ensures_apply hs₁ RunOf.allowed fun w₂ hsince₂ hs₂ => ?_
  have hsince := hsince₁.trans hsince₂
  have hruns₂ := hruns.aside hsince.aside
  refine ⟨.settle hruns₂.current hproven hbundle ?_ (hheld.since hsince fun _ h => by cases h), ?_⟩
  · rcases hshown with ⟨ledger, hmem⟩ | hreleased
    · exact .inl ⟨ledger, hsince.past hmem⟩
    · exact .inr (hreleased w₂ hsince)
  · intro hs₃ hadmits
    have hforms : ¬ (Event.batchSettled batch.id (some txid) atMs).Forms := by
      rintro ⟨_, _, h⟩
      cases h
    have hafter : Ended retry batch.id batch.rebases
        (w₂.own (service sdk codec retry policy) (.batchSettled batch.id (some txid) atMs)) .done := by
      refine ⟨hruns₂.ends hadmits hforms (fun _ _ h => by cases h) ?_, _,
        hruns₂.get_apply hadmits hforms, ?_, ?_⟩
      · simp [Event.batchAfter]
      · simp [Event.batchAfter]
      · exact .inl (by simp [Event.batchAfter])
    exact ensures_end hs₃ fun w' hsince' _ => hafter.since hsince'

/-- **A rebase within the budget starts another round; past the budget the batch fails.** -/
theorem rebaseOrFail_stage (hs : Sound sdk codec retry policy w) (hruns : batch.Runs w.state)
    (hproven : batch.status = .proven) (why : String) :
    IsStage sdk codec retry policy batch (rebaseOrFail retry batch why) w := by
  unfold rebaseOrFail
  split
  · next hcan =>
    have hwithin : batch.rebases < retry.maxRebases := by
      simpa [Batch.canRebase] using hcan
    refine ensures_ask hs fun w₁ atMs hsince₁ hs₁ _ => ?_
    refine ensures_apply hs₁ RunOf.allowed fun w₂ hsince₂ hs₂ => ?_
    have hruns₂ := hruns.aside (hsince₁.trans hsince₂).aside
    refine ⟨.rebase hruns₂.current hproven hwithin (hruns₂.none_proving hproven), ?_⟩
    intro hs₃ hadmits
    have hforms : ¬ (Event.batchRebased batch.id atMs).Forms := by
      rintro ⟨_, _, h⟩
      cases h
    have hafter : Ended retry batch.id batch.rebases
        (w₂.own (service sdk codec retry policy) (.batchRebased batch.id atMs)) .rebase := by
      refine ⟨_, hruns₂.get_apply hadmits hforms, ?_, ?_, hwithin⟩
      · simp [Event.batchAfter]
      · simp [Event.batchAfter]
    exact ensures_end hs₃ fun w' hsince _ => hafter.since hsince
  · exact fail_stage hs hruns _ _

/-! ## The vault's log -/

variable (retry) in
/-- Either the log was read, or the batch has failed for want of it. -/
def SyncedOr (batch : Batch) (w w' : History) : Option RebuiltAccumulator → Prop
  | some _ => Since [] w w'
  | none => Ended retry batch.id batch.rebases w' .done

theorem unsynced_ensures (hs : Sound sdk codec retry policy w) (hruns : batch.Runs w.state)
    (error : ChainSyncError) (w₀ : History) :
    (unsynced batch error).Ensures (service sdk codec retry policy) (Allowed sdk codec retry)
      (RunOf sdk codec retry batch.id) (SyncedOr retry batch w₀) w := by
  refine Prog.Ensures.bind (fail_ensures hs hruns _ _) fun w₁ _ hended hs₁ => ?_
  exact ensures_end hs₁ fun w' hsince _ => hended.2.since hsince

theorem syncedAfter_ensures (delays : List Nat) {w₀ : History} (hsince₀ : Since [] w₀ w)
    (hs : Sound sdk codec retry policy w) (hruns : batch.Runs w₀.state) :
    (syncedAfter batch delays).Ensures (service sdk codec retry policy) (Allowed sdk codec retry)
      (RunOf sdk codec retry batch.id) (SyncedOr retry batch w₀) w := by
  -- by induction over the delays that are left
  induction delays generalizing w with
  | nil =>
      refine ensures_look hs fun w₁ hsince₁ hs₁ => ?_
      refine ensures_ask hs₁ fun w₂ answer hsince₂ hs₂ _ => ?_
      have hsince := (hsince₀.trans hsince₁).trans hsince₂
      cases answer with
      | ok acc => exact ensures_end hs₂ fun w' hsince' _ => hsince.trans hsince'
      | error error => exact unsynced_ensures hs₂ (hruns.aside hsince.aside) error w₀
  | cons delay rest ih =>
      refine ensures_look hs fun w₁ hsince₁ hs₁ => ?_
      refine ensures_ask hs₁ fun w₂ answer hsince₂ hs₂ _ => ?_
      have hsince := (hsince₀.trans hsince₁).trans hsince₂
      cases answer with
      | ok acc => exact ensures_end hs₂ fun w' hsince' _ => hsince.trans hsince'
      | error error =>
          simp only
          split
          · refine ensures_ask hs₂ fun w₃ _ hsince₃ hs₃ _ => ?_
            exact ih (hsince.trans hsince₃) hs₃
          · exact unsynced_ensures hs₂ (hruns.aside hsince.aside) error w₀

theorem synced_ensures (hs : Sound sdk codec retry policy w) (hruns : batch.Runs w.state) :
    (synced batch).Ensures (service sdk codec retry policy) (Allowed sdk codec retry)
      (RunOf sdk codec retry batch.id) (SyncedOr retry batch w) w :=
  syncedAfter_ensures _ (.refl [] w) hs hruns

end Orchestrator

/-! ## Confirmations -/

namespace Released

variable {r : Released} {answer : Except ChainSyncError Confirmations}

@[simp] theorem verdict_fst : (r.verdict answer).1 = r.id := rfl

/-- A verdict is about the release in the transaction that the log names. -/
theorem verdict_snd : ∃ unconfirmed, (r.verdict answer).2 = .alreadySettled r.txid unconfirmed :=
  ⟨_, rfl⟩

/-- **A release is confirmed by a second source only**, in the transaction that the log names. -/
theorem verdict_confirmed {txid : Option String}
    (h : (r.verdict answer).2 = .alreadySettled txid none) :
    ∃ t confirmations, r.txid = some t ∧ txid = some t ∧ answer = .ok confirmations ∧
      confirmations.verdict ⟨r.nullifier, t⟩ = .ok () := by
  simp only [verdict, Exclusion.alreadySettled.injEq] at h
  obtain ⟨rfl, hconfirmed⟩ := h
  cases htxid : r.txid with
  | none =>
      rw [htxid] at hconfirmed
      cases hconfirmed
  | some t =>
      rw [htxid] at hconfirmed
      cases answer with
      | error error => cases hconfirmed
      | ok confirmations =>
          refine ⟨t, confirmations, rfl, rfl, rfl, ?_⟩
          cases hverdict : confirmations.verdict ⟨r.nullifier, t⟩ with
          | ok => rfl
          | error why =>
              simp only [hverdict] at hconfirmed
              cases hconfirmed

end Released

theorem mem_askedOf {released : List Released} {r : Released} {t : String} (hr : r ∈ released)
    (ht : r.txid = some t) : askedOf released ≠ [] := by
  apply List.ne_nil_of_mem
  exact List.mem_filterMap.2 ⟨r, hr, by rw [ht, Option.map_some]⟩

/-- The verdicts on these releases rest on one answer of the second source. -/
def Answered (released : List Released) (w : History) (verdicts : List (String × Exclusion)) : Prop :=
  ∃ answer, verdicts = released.map (Released.verdict answer) ∧ (askedOf released ≠ [] →
    ∃ ledger, (ledger, Label.heard (Query.confirmReleases (askedOf released)) answer) ∈ w.past ∧
      Ledger.Aside [] ledger w.state)

/-- A confirmed release has evidence. -/
theorem Answered.evidence {released : List Released} {w : History}
    {verdicts : List (String × Exclusion)} (h : Answered released w verdicts) {id : String}
    {txid : Option String} (hmem : (id, Exclusion.alreadySettled txid none) ∈ verdicts) :
    ∃ r ∈ released, r.id = id ∧ ∃ t, txid = some t ∧ Evidence w.past r.nullifier t := by
  obtain ⟨answer, rfl, hasked⟩ := h
  obtain ⟨r, hr, hverdict⟩ := List.mem_map.1 hmem
  obtain ⟨t, confirmations, ht, htxid, rfl, hok⟩ :=
    @Released.verdict_confirmed r answer txid (by rw [hverdict])
  obtain ⟨ledger, hheard, -⟩ := hasked (mem_askedOf hr ht)
  refine ⟨r, hr, by rw [← @Released.verdict_fst r (.ok confirmations), hverdict], t, htxid, .inr ?_⟩
  exact ⟨ledger, _, confirmations, hheard, Confirmations.verdict_ok.1 hok⟩

theorem Answered.ids {released : List Released} {w : History} {verdicts : List (String × Exclusion)}
    (h : Answered released w verdicts) : verdicts.map Prod.fst = released.map Released.id := by
  obtain ⟨answer, rfl, -⟩ := h
  rw [List.map_map]
  rfl

/-- **Every release is confirmed, in one transaction**, up to the case of its text. -/
theorem oneTransaction_eq_some {verdicts : List (String × Exclusion)} {txid : String}
    (h : oneTransaction verdicts = some txid) :
    verdicts ≠ [] ∧ ∀ entry ∈ verdicts, ∃ t, entry.2 = .alreadySettled (some t) none ∧
      eqIgnoreAsciiCase t txid = true := by
  unfold oneTransaction at h
  obtain ⟨hhead, hall⟩ := Option.filter_eq_some_iff.1 h
  rw [Bool.and_eq_true, decide_eq_true_iff, List.all_eq_true] at hall
  constructor
  · rintro rfl
    cases hhead
  · intro entry hentry
    have hsome := List.filterMap_length_eq_length.1 hall.1 entry hentry
    obtain ⟨id, verdict⟩ := entry
    obtain ⟨txid' | t, none | why⟩ | message | message := verdict
    case alreadySettled.some.none =>
      refine ⟨t, rfl, hall.2 t ?_⟩
      exact List.mem_filterMap.2 ⟨_, hentry, rfl⟩
    all_goals cases hsome

/-! ## The members of a released batch -/

theorem BatchBundle.Written.nullifiers {batch : Batch} {bundle : BatchBundle} (h : bundle.Written)
    (hbundle : batch.bundle = some bundle) :
    batch.nullifiers.map hex32 = bundle.leaves.map LeafHex.nullifier := by
  rw [Batch.nullifiers, hbundle]
  simp only
  rw [List.map_filterMap, ← List.filterMap_eq_map]
  refine List.filterMap_congr fun leaf hleaf => ?_
  obtain ⟨n, hn⟩ := h.hex leaf hleaf
  simp [hn, parseHex32_hex32]

namespace Ledger

variable {ledger : Ledger} {batch : Batch} {acc : RebuiltAccumulator}

/-- The return that holds a nullifier. -/
theorem Indexed.returnOf_eq_some (h : ledger.Indexed sdk codec) {n : Bytes32} {r : Return} :
    ledger.returnOf (hex32 n) = some r ↔
      ledger.returns.get r.burn.id = some r ∧ r.burn.nullifier = hex32 n := by
  rw [returnOf, toLowercase_hex32, Option.bind_eq_some_iff]
  constructor
  · rintro ⟨id, hid, hr⟩
    obtain rfl := h.id_eq id r hr
    obtain ⟨r', hr', hnullifier⟩ := h.owner _ _ hid
    exact ⟨hr, Option.some.inj (hr.symm.trans hr') ▸ hnullifier⟩
  · rintro ⟨hr, hnullifier⟩
    exact ⟨r.burn.id, hnullifier ▸ h.byNullifier _ r hr, hr⟩

theorem Indexed.mem_releasedMembers (h : ledger.Indexed sdk codec) {released : Released} :
    released ∈ ledger.releasedMembers batch acc ↔ ∃ n ∈ batch.nullifiers, ∃ r,
      ledger.returns.get r.burn.id = some r ∧ r.burn.nullifier = hex32 n ∧
        r.inBatch batch.id = true ∧ released = ⟨r.burn.id, hex32 n, acc.txids n⟩ := by
  simp only [releasedMembers, List.mem_filterMap, Option.bind_eq_bind, Option.bind_eq_some_iff,
    h.returnOf_eq_some, Option.ite_none_right_eq_some, Option.some.injEq]
  constructor
  · rintro ⟨n, hn, r, ⟨hr, hnullifier⟩, hin, rfl⟩
    exact ⟨n, hn, r, hr, hnullifier, hin, rfl⟩
  · rintro ⟨n, hn, r, hr, hnullifier, hin, rfl⟩
    exact ⟨n, hn, r, ⟨hr, hnullifier⟩, hin, rfl⟩

/-- A member is released once. -/
theorem Indexed.releasedMembers_nodup (h : ledger.Indexed sdk codec) (hnodup : batch.nullifiers.Nodup) :
    ((ledger.releasedMembers batch acc).map Released.id).Nodup := by
  rw [List.Nodup, List.pairwise_map, releasedMembers, List.pairwise_filterMap]
  refine List.Pairwise.imp ?_ hnodup
  intro n n' hne released hreleased released' hreleased' hsame
  simp only [Option.bind_eq_bind, Option.bind_eq_some_iff, h.returnOf_eq_some,
    Option.ite_none_right_eq_some, Option.some.injEq] at hreleased hreleased'
  obtain ⟨r, ⟨hr, hnullifier⟩, -, rfl⟩ := hreleased
  obtain ⟨r', ⟨hr', hnullifier'⟩, -, rfl⟩ := hreleased'
  simp only at hsame
  rw [hsame, hr', Option.some.injEq] at hr
  subst hr
  exact hne (hex32_inj (hnullifier.symm.trans hnullifier'))

end Ledger

namespace Orchestrator

variable {batch : Batch} {w : History}

/-- Asking the second source changes nothing. -/
theorem confirm_ensures {allowed : History → Event → Prop} (hs : Sound sdk codec retry policy w)
    (released : List Released) :
    (confirm released).Ensures (service sdk codec retry policy) (Allowed sdk codec retry) allowed
      (fun w' verdicts => Since [] w w' ∧ Answered released w' verdicts) w := by
  unfold confirm
  by_cases hasked : askedOf released = []
  · simp only [hasked, if_true]
    refine ensures_end hs fun w' hsince _ => ⟨hsince, .ok ⟨[], []⟩, rfl, fun hne => absurd hasked hne⟩
  · simp only [hasked, if_false]
    refine ensures_ask hs fun w₁ answer hsince₁ hs₁ hheard => ?_
    refine ensures_end hs₁ fun w' hsince' _ => ⟨hsince₁.trans hsince', answer, rfl, fun _ => ?_⟩
    exact ⟨w₁.state, hsince'.past hheard, hsince'.aside⟩

/-- **A released batch** settles when every return in it is confirmed in one transaction; otherwise
each of these returns gets its own verdict and the batch fails. -/
theorem released_stage (hs : Sound sdk codec retry policy w) (hruns : batch.Runs w.state)
    {bundle : BatchBundle} (hproven : batch.status = .proven) (hbundle : batch.bundle = some bundle)
    (hheld : Held w.past batch.id bundle w.state) (acc : RebuiltAccumulator) :
    IsStage sdk codec retry policy batch (released batch acc) w := by
  refine ensures_look hs fun w₁ hsince₁ hs₁ => ?_
  obtain ⟨hindexed, hflight⟩ := Sound.ledger hs₁
  have hruns₁ := hruns.aside hsince₁.aside
  obtain ⟨hwritten, -⟩ := hflight.written batch.id batch bundle hruns₁.current hbundle
  have hnullifiers := hwritten.nullifiers hbundle
  refine Prog.Ensures.bind (confirm_ensures hs₁ _) fun w₂ verdicts hconfirmed hs₂ => ?_
  obtain ⟨hsince₂, hanswered⟩ := hconfirmed
  have hruns₂ := hruns₁.aside hsince₂.aside
  cases hone : oneTransaction verdicts with
  -- one transaction for all: the batch settles by it
  | some txid =>
      obtain ⟨hne, hall⟩ := oneTransaction_eq_some hone
      refine settle_stage hs₂ hruns₂ hproven hbundle ?_ (.inr fun w' hsince' => ?_)
      · exact hheld.since (hsince₁.trans hsince₂) fun _ h => by cases h
      · -- each return in the batch was asked about, and each was confirmed
        have hsince := hsince₂.trans hsince'
        obtain ⟨answer, rfl, hasked⟩ := hanswered
        have hverdict : ∀ released ∈ w₁.state.releasedMembers batch acc, ∃ t confirmations,
            released.txid = some t ∧ eqIgnoreAsciiCase t txid = true ∧ answer = .ok confirmations ∧
              confirmations.verdict ⟨released.nullifier, t⟩ = .ok () := by
          intro released hreleased
          obtain ⟨t, ht, hsame⟩ := hall _ (List.mem_map_of_mem hreleased)
          obtain ⟨t', confirmations, ht', htxid, hanswer, hok⟩ := Released.verdict_confirmed ht
          obtain rfl := Option.some.inj htxid
          exact ⟨t, confirmations, ht', hsame, hanswer, hok⟩
        obtain ⟨first, hfirst⟩ : ∃ first, first ∈ w₁.state.releasedMembers batch acc :=
          List.exists_mem_of_ne_nil _ fun hnil => hne (by rw [hnil, List.map_nil])
        obtain ⟨t₀, confirmations, ht₀, -, rfl, -⟩ := hverdict first hfirst
        obtain ⟨ledger, hheard, haside⟩ := hasked (mem_askedOf hfirst ht₀)
        refine ⟨ledger, _, confirmations, hsince'.past hheard, haside.trans hsince'.aside, ?_, ?_⟩
        · obtain ⟨n, -, r, hr, -, hin, -⟩ := hindexed.mem_releasedMembers.1 hfirst
          have hopen := Return.not_failedRecoverably_of_active (Return.active_of_inBatch hin)
          exact ⟨r.burn.id, r, hsince.aside.get hr List.not_mem_nil hopen, hin⟩
        · intro id r hr hin
          have hr₁ := hsince.aside.inBatch_before hr hin
          obtain ⟨bundle', hbundle', -, hpays⟩ := hflight.proof batch.id batch hruns₁.current hproven
          obtain rfl := Option.some.inj (hbundle.symm.trans hbundle')
          obtain ⟨leaf, hleaf, hnullifier⟩ := hpays id r hr₁ hin
          have hmem : leaf.nullifier ∈ batch.nullifiers.map hex32 := by
            rw [hnullifiers]
            exact List.mem_map_of_mem hleaf
          obtain ⟨n, hn, hhex⟩ := List.mem_map.1 hmem
          obtain rfl := hindexed.id_eq id r hr₁
          have hmember : (⟨r.burn.id, hex32 n, acc.txids n⟩ : Released) ∈
              w₁.state.releasedMembers batch acc :=
            hindexed.mem_releasedMembers.2
              ⟨n, hn, r, hr₁, hnullifier.symm.trans hhex.symm, hin, rfl⟩
          obtain ⟨t, confirmations', -, hsame, hanswer, hok⟩ := hverdict _ hmember
          obtain rfl := Except.ok.inj hanswer
          refine ⟨t, hsame, ?_⟩
          rw [← hnullifier, ← hhex]
          exact hok
  -- no such transaction: each member is judged alone, then the batch fails
  | none =>
      have hids := hanswered.ids
      have hnodup : (verdicts.map Prod.fst).Nodup := by
        rw [hids]
        apply hindexed.releasedMembers_nodup
        exact List.Nodup.of_map hex32 (hnullifiers ▸ hwritten.nodup)
      refine Prog.Ensures.bind (exclude_ensures RunOf.allowed hs₂ hnodup ?_) ?_
      · intro entry hentry ids w' hid hsince' _ atMs
        refine .exclude (MayExclude.since ?_ hsince' hid)
        have hmem : entry.1 ∈ (w₁.state.releasedMembers batch acc).map Released.id :=
          hids ▸ List.mem_map_of_mem hentry
        obtain ⟨released, hreleased, hname⟩ := List.mem_map.1 hmem
        obtain ⟨n, -, r, hr, hnullifier, hin, rfl⟩ := hindexed.mem_releasedMembers.1 hreleased
        have hopen := Return.not_failedRecoverably_of_active (Return.active_of_inBatch hin)
        refine ⟨r, hname ▸ hsince₂.aside.get hr List.not_mem_nil hopen, fun txid hreason => ?_, .inl hin⟩
        -- an exclusion that settles a return carries the confirmation of its own release
        obtain ⟨released', hreleased', hname', t, ht, hevidence⟩ :=
          @Answered.evidence _ _ _ hanswered entry.1 txid (by rw [← hreason]; exact hentry)
        obtain ⟨n', -, r', hr', hnullifier', -, rfl⟩ := hindexed.mem_releasedMembers.1 hreleased'
        simp only at hname hname' hevidence
        rw [hname', ← hname, hr, Option.some.injEq] at hr'
        subst hr'
        exact ⟨t, ht, hnullifier'.symm ▸ hevidence⟩
      · rintro w₃ - ⟨hsince₃, -⟩ hs₃
        exact fail_stage hs₃ (hruns₂.aside hsince₃.aside) _ _

/-! ## Settlement -/

/-- Waiting for a settlement whose receipt was not read. -/
theorem awaitSettlementAfter_stage (txid : String) (checks : List Nat)
    (hs : Sound sdk codec retry policy w) (hruns : batch.Runs w.state) {bundle : BatchBundle}
    (hproven : batch.status = .proven) (hbundle : batch.bundle = some bundle)
    (hheld : Held w.past batch.id bundle w.state) :
    IsStage sdk codec retry policy batch (awaitSettlementAfter sdk retry batch txid checks) w := by
  -- by induction over the checks that are left
  induction checks generalizing w with
  | nil => exact fail_stage hs hruns _ _
  | cons delay rest ih =>
      refine ensures_ask hs fun w₁ _ hsince₁ hs₁ _ => ?_
      refine ensures_look hs₁ fun w₂ hsince₂ hs₂ => ?_
      refine ensures_ask hs₂ fun w₃ answer hsince₃ hs₃ _ => ?_
      have hsince := (hsince₁.trans hsince₂).trans hsince₃
      have hruns₃ := hruns.aside hsince.aside
      have hheld₃ := hheld.since hsince fun _ h => by cases h
      cases answer with
      | error error => exact ih hs₃ hruns₃ hheld₃
      | ok acc =>
          simp only
          split
          · exact released_stage hs₃ hruns₃ hproven hbundle hheld₃ acc
          · split
            · exact ih hs₃ hruns₃ hheld₃
            · exact rebaseOrFail_stage hs₃ hruns₃ hproven _

/-- **A proven batch** settles, waits for its settlement, is rebased, or fails. -/
theorem settleStage_stage (hs : Sound sdk codec retry policy w) (hruns : batch.Runs w.state)
    {bundle : BatchBundle} (hproven : batch.status = .proven) (hbundle : batch.bundle = some bundle)
    (hheld : Held w.past batch.id bundle w.state) :
    IsStage sdk codec retry policy batch (settleStage sdk retry batch) w := by
  refine Prog.Ensures.bind (synced_ensures hs hruns) fun w₁ acc hsynced hs₁ => ?_
  cases acc with
  | none => exact ensures_end hs₁ fun w' hsince _ => Ended.since hsynced hsince
  | some acc =>
      have hsince₁ : Since [] w w₁ := hsynced
      have hruns₁ := hruns.aside hsince₁.aside
      have hheld₁ := hheld.since hsince₁ fun _ h => by cases h
      simp only [hbundle]
      split
      · exact released_stage hs₁ hruns₁ hproven hbundle hheld₁ acc
      · split
        · refine ensures_ask hs₁ fun w₂ outcome hsince₂ hs₂ hheard => ?_
          have hruns₂ := hruns₁.aside hsince₂.aside
          have hheld₂ := hheld₁.since hsince₂ fun _ h => by cases h
          cases outcome with
          | skipped =>
              refine ensures_end hs₂ fun w' hsince' _ => Ended.since ?_ hsince'
              exact ⟨hruns₂.none_proving hproven, batch, hruns₂.current, rfl,
                .inr (.inr ⟨hproven, w₂.state, bundle, hbundle, hheard⟩)⟩
          | submitted txid =>
              exact settle_stage hs₂ hruns₂ hproven hbundle hheld₂ (.inl ⟨w₂.state, hheard⟩)
          | unconfirmed txid =>
              exact awaitSettlementAfter_stage txid _ hs₂ hruns₂ hproven hbundle hheld₂
          | staleRoot => exact rebaseOrFail_stage hs₂ hruns₂ hproven _
          | failed message => exact fail_stage hs₂ hruns₂ _ _
        · exact rebaseOrFail_stage hs₁ hruns₁ hproven _

end Orchestrator

end UnicityBridge.Service
