import UnicityBridge.Service.Stages
import UnicityBridge.Service.Verdicts

/-!
# The proving stage

`prove_stage` assembles a batch from all of its members, excludes those that assembly did not take, and
proves the rest or takes an earlier proof of it. Members that have left the batch are assembled too:
what then becomes of them the history shows (`Drifted`).
-/

set_option autoImplicit false

namespace UnicityBridge.Service

open UnicityBridge.Lib
open UnicityBridge.Settlement (RebuiltAccumulator)

variable {sdk : TokenSdk.Sdk} {codec : Wire.Codec} {retry : RetryPolicy} {policy : BatchPolicy}

/-! ## The burns of a batch -/

namespace Ledger

variable {ledger : Ledger}

theorem mem_burns {ids : List String} {burn : Burn} :
    burn ∈ ledger.burns ids ↔ ∃ id ∈ ids, ∃ r, ledger.returns.get id = some r ∧ r.burn = burn := by
  simp [burns]

/-- The burns are the returns' own, each once. -/
theorem Indexed.burns_ids (h : ledger.Indexed sdk codec) {ids : List String} (hnodup : ids.Nodup) :
    ((ledger.burns ids).map Burn.id).Nodup := by
  rw [List.Nodup, List.pairwise_map, burns, List.pairwise_filterMap]
  refine List.Pairwise.imp ?_ hnodup
  intro id id' hne burn hburn burn' hburn' hsame
  obtain ⟨r, hr, rfl⟩ := Option.map_eq_some_iff.1 hburn
  obtain ⟨r', hr', rfl⟩ := Option.map_eq_some_iff.1 hburn'
  rw [h.id_eq id r hr, h.id_eq id' r' hr'] at hsame
  exact hne hsame

theorem Indexed.burns_nullifiers (h : ledger.Indexed sdk codec) {ids : List String}
    (hnodup : ids.Nodup) : ((ledger.burns ids).map Burn.nullifier).Nodup := by
  rw [List.Nodup, List.pairwise_map, burns, List.pairwise_filterMap]
  refine List.Pairwise.imp ?_ hnodup
  intro id id' hne burn hburn burn' hburn' hsame
  obtain ⟨r, hr, rfl⟩ := Option.map_eq_some_iff.1 hburn
  obtain ⟨r', hr', rfl⟩ := Option.map_eq_some_iff.1 hburn'
  exact hne (h.id_of_nullifier hr hr' hsame)

theorem Indexed.burns_checked (h : ledger.Indexed sdk codec) {ids : List String} {burn : Burn}
    (hburn : burn ∈ ledger.burns ids) : burn.Checked sdk codec := by
  obtain ⟨id, -, r, hr, rfl⟩ := mem_burns.1 hburn
  exact h.prechecked id r hr

/-! ## An earlier proof -/

/-- **A candidate** for another use is a batch that did not settle, proven on the same root for the same
nullifiers. -/
theorem of_mem_proofCandidates {nullifiers : List String} {root : String} {batch : Batch}
    (h : batch ∈ ledger.proofCandidates nullifiers root) :
    ∃ b, ledger.batches.get b = some batch ∧ batch.status ≠ .settled ∧
      batch.spentRootOld = some root ∧ ∀ bundle, batch.bundle = some bundle →
        bundle.leaves.map (fun l => toLowercase l.nullifier) = nullifiers.map toLowercase := by
  rw [proofCandidates, List.mem_filter, Dict.mem_values] at h
  obtain ⟨⟨b, hb⟩, hcandidate⟩ := h
  simp only [Bool.and_eq_true, decide_eq_true_eq, beq_iff_eq, provesNullifiers] at hcandidate
  obtain ⟨⟨hstatus, hroot⟩, hproves⟩ := hcandidate
  refine ⟨b, hb, hstatus, hroot, fun bundle hbundle => ?_⟩
  rw [hbundle, Option.any_some, Bool.and_eq_true, beq_iff_eq] at hproves
  exact hproves.2

/-- An earlier proof is the bundle of a candidate. -/
theorem proofFor_mem {nullifiers : List String} {root : String} {bundle : BatchBundle}
    (h : ledger.proofFor nullifiers root = some bundle) :
    ∃ batch ∈ ledger.proofCandidates nullifiers root, batch.bundle = some bundle := by
  obtain ⟨batch, hlast, hbundle⟩ := Option.bind_eq_some_iff.1 h
  exact ⟨batch, List.mem_mergeSort.1 (List.mem_of_getLast? hlast), hbundle⟩

/-- **An earlier proof** is the bundle of a batch that did not settle, proven on the same root for the
same nullifiers. -/
theorem proofFor_eq_some {nullifiers : List String} {root : String} {bundle : BatchBundle}
    (h : ledger.proofFor nullifiers root = some bundle) :
    ∃ b batch, ledger.batches.get b = some batch ∧ batch.bundle = some bundle ∧
      batch.status ≠ .settled ∧ batch.spentRootOld = some root ∧
      bundle.leaves.map (fun l => toLowercase l.nullifier) = nullifiers.map toLowercase := by
  obtain ⟨batch, hmem, hbundle⟩ := proofFor_mem h
  obtain ⟨b, hb, hstatus, hroot, hleaves⟩ := of_mem_proofCandidates hmem
  exact ⟨b, batch, hb, hbundle, hstatus, hroot, hleaves bundle hbundle⟩

/-- In flight, a candidate's proof has these nullifiers themselves. -/
theorem InFlight.candidate_nullifiers (h : ledger.InFlight) {nullifiers : List String} {root : String}
    {batch : Batch} (hbatch : batch ∈ ledger.proofCandidates nullifiers root) {bundle : BatchBundle}
    (hbundle : batch.bundle = some bundle)
    (hhex : ∀ nullifier ∈ nullifiers, toLowercase nullifier = nullifier) :
    bundle.leaves.map LeafHex.nullifier = nullifiers := by
  obtain ⟨b, hb, -, -, hsame⟩ := of_mem_proofCandidates hbatch
  obtain ⟨hwritten, -⟩ := h.written b batch bundle hb hbundle
  have hleaves : bundle.leaves.map (fun l => toLowercase l.nullifier) =
      bundle.leaves.map LeafHex.nullifier := by
    refine List.map_congr_left fun leaf hleaf => ?_
    obtain ⟨n, hn⟩ := hwritten.hex leaf hleaf
    rw [hn, toLowercase_hex32]
  have hwanted : nullifiers.map toLowercase = nullifiers := by
    rw [List.map_congr_left hhex, List.map_id']
  rw [← hleaves, hsame bundle hbundle, hwanted]

end Ledger

/-! ## A proven batch -/

/-- What an assembled batch is about: its leaves are returns', each once, that are in the batch or were
assembled out of it, and every return in the batch has a leaf. -/
structure Covers (b : String) (w : History) (nullifiers : List String) : Prop where
  nodup : nullifiers.Nodup
  hex : ∀ nullifier ∈ nullifiers, ∃ n : Bytes32, nullifier = hex32 n
  held : ∀ nullifier ∈ nullifiers, ∃ id r, w.state.returns.get id = some r ∧
    r.burn.nullifier = nullifier ∧ (r.inBatch b = true ∨ Drifted w.past id)
  pays : ∀ id r, w.state.returns.get id = some r → r.inBatch b = true → r.burn.nullifier ∈ nullifiers

section Covers

variable {b : String} {w w' : History} {nullifiers : List String} {bundle : BatchBundle}

theorem Covers.since (h : Covers b w nullifiers) (hsince : Since [] w w') :
    Covers b w' nullifiers where
  nodup := h.nodup
  hex := h.hex
  held := by
    intro nullifier hnullifier
    obtain ⟨id, r, hr, hsame, hin | hdrifted⟩ := h.held nullifier hnullifier
    · have hopen := Return.not_failedRecoverably_of_active (Return.active_of_inBatch hin)
      exact ⟨id, r, hsince.aside.get hr List.not_mem_nil hopen, hsame, .inl hin⟩
    · obtain ⟨r', hr', hburn⟩ := hsince.aside.burn hr
      exact ⟨id, r', hr', hburn ▸ hsame, .inr (hdrifted.mono hsince.past)⟩
  pays := fun id r hr hin => h.pays id r (hsince.aside.inBatch_before hr hin) hin

variable (hbundle : bundle.leaves.map LeafHex.nullifier = nullifiers)
include hbundle

theorem Covers.written (h : Covers b w nullifiers) : bundle.Written where
  hex := fun leaf hleaf => h.hex leaf.nullifier (hbundle ▸ List.mem_map_of_mem hleaf)
  nodup := hbundle ▸ h.nodup

theorem Covers.holds (h : Covers b w nullifiers) : Held w.past b bundle w.state :=
  fun leaf hleaf => h.held leaf.nullifier (hbundle ▸ List.mem_map_of_mem hleaf)

theorem Covers.permitted (h : Covers b w nullifiers) (hproving : w.state.Proving b)
    (htxid : bundle.settleTxid = none) (root : String) (atMs : Nat) :
    (Event.batchProven b bundle root atMs).Permitted w.state := by
  refine ⟨hproving, htxid, ⟨h.written hbundle, fun leaf hleaf => ?_⟩, fun id r hr hin => ?_⟩
  · obtain ⟨id, r, hr, hsame, -⟩ := h.holds hbundle leaf hleaf
    exact ⟨id, r, hr, hsame⟩
  · have hmem := h.pays id r hr hin
    rw [← hbundle] at hmem
    exact List.mem_map.1 hmem

end Covers

/-- What a bundle holds it holds when its batch is proven. -/
theorem Held.proven {b root : String} {bundle new : BatchBundle} {w : History} {atMs : Nat}
    (h : Held w.past b bundle w.state) (hindexed : w.state.Indexed sdk codec)
    (hflight : w.state.InFlight) {past : Past} (hpast : w.past ⊆ past) :
    Held past b bundle (w.state.apply sdk.sha256 retry (.batchProven b new root atMs)) := by
  intro leaf hleaf
  obtain ⟨id, r, hr, hnullifier, hwhere⟩ := h leaf hleaf
  have hget : (w.state.apply sdk.sha256 retry (.batchProven b new root atMs)).returns.get id = some
      { r with record := (Event.batchProven b new root atMs).recordAfter sdk.sha256 retry w.state id r } := by
    rw [Ledger.get_apply _ (fun _ h => by cases h) (fun _ _ h => by cases h), hr]
    rfl
  refine ⟨id, _, hget, hnullifier, ?_⟩
  rcases hwhere with hin | hdrifted
  · left
    have hmember := (hflight.isMember_iff hindexed hr).2 hin
    simp only [Event.recordAfter, hmember, if_true]
    exact Return.inBatch_iff.2 ⟨by simpa using (Return.inBatch_iff.1 hin).1, .inr (by simp)⟩
  · exact .inr (hdrifted.mono hpast)

/-! ## The members that assembly did not take -/

theorem takeVerdicts_ids (excluded : List (String × Exclusion)) (verdicts : Dict String Exclusion) :
    (takeVerdicts excluded verdicts).map Prod.fst = excluded.map Prod.fst := by
  induction excluded generalizing verdicts with
  | nil => rfl
  | cons entry rest ih =>
      obtain ⟨id, exclusion⟩ := entry
      simp [takeVerdicts, ih]

/-- What a return is excluded for is what assembly found or the verdict on its release. -/
theorem mem_takeVerdicts {excluded : List (String × Exclusion)} {verdicts : Dict String Exclusion}
    {entry : String × Exclusion} (h : entry ∈ takeVerdicts excluded verdicts) :
    entry ∈ excluded ∨ verdicts.get entry.1 = some entry.2 := by
  induction excluded generalizing verdicts with
  | nil => cases h
  | cons first rest ih =>
      obtain ⟨id, exclusion⟩ := first
      rcases List.mem_cons.1 h with rfl | hrest
      · cases hverdict : verdicts.get id with
        | none => exact .inl (by simp)
        | some verdict => exact .inr rfl
      · rcases ih hrest with hmem | hget
        · exact .inl (List.mem_cons_of_mem _ hmem)
        · exact .inr (Dict.get_erase_of_some hget)

theorem mem_releasedOf {excluded : List (String × Exclusion)} {nullifiers : Dict String String}
    {r : Released} (h : r ∈ releasedOf excluded nullifiers) :
    r.id ∈ excluded.map Prod.fst ∧ nullifiers.get r.id = some r.nullifier := by
  obtain ⟨⟨id, exclusion⟩, hentry, hr⟩ := List.mem_filterMap.1 h
  simp only at hr
  split at hr
  · obtain ⟨nullifier, hget, rfl⟩ := Option.map_eq_some_iff.1 hr
    exact ⟨List.mem_map_of_mem hentry, hget⟩
  · cases hr

/-- Another reason does for an exclusion when it has its evidence. -/
theorem MayExclude.confirm {b id : String} {w : History} {reason reason' : Exclusion}
    (h : MayExclude b w id reason)
    (hevidence : ∀ r txid, w.state.returns.get id = some r → reason' = .alreadySettled txid none →
      ∃ t, txid = some t ∧ Evidence w.past r.burn.nullifier t) :
    MayExclude b w id reason' := by
  obtain ⟨r, hr, -, hwhere⟩ := h
  exact ⟨r, hr, fun txid hreason => hevidence r txid hr hreason, hwhere⟩

namespace Orchestrator

/-- **Members that assembly did not take are excluded**, each release by the verdict on it, and the
stage goes on. -/
theorem excluding_ensures {b : String} {w : History} {α : Type} {rest : Program α}
    {post : History → α → Prop} (hs : Sound sdk codec retry policy w)
    {excluded : List (String × Exclusion)} {nullifiers : Dict String String}
    (hnodup : (excluded.map Prod.fst).Nodup)
    (hunconfirmed : ∀ entry ∈ excluded, ∀ txid, entry.2 ≠ .alreadySettled txid none)
    (hmay : ∀ entry ∈ excluded, MayExclude b w entry.1 entry.2)
    (hnullifiers : ∀ id nullifier r, nullifiers.get id = some nullifier →
      w.state.returns.get id = some r → r.burn.nullifier = nullifier)
    (hrest : ∀ w', Since (excluded.map Prod.fst) w w' →
      (∀ id ∈ excluded.map Prod.fst, ∀ r, w'.state.returns.get id = some r → ¬ r.Active) →
      Sound sdk codec retry policy w' →
      rest.Ensures (service sdk codec retry policy) (Allowed sdk codec retry)
        (RunOf sdk codec retry b) post w') :
    (do
      let excluded ← confirmed excluded nullifiers
      exclude excluded
      rest).Ensures (service sdk codec retry policy) (Allowed sdk codec retry)
        (RunOf sdk codec retry b) post w := by
  have hconfirmed : (confirmed excluded nullifiers).Ensures (service sdk codec retry policy)
      (Allowed sdk codec retry) (RunOf sdk codec retry b)
      (fun w' final => Since [] w w' ∧ ∃ verdicts,
        Answered (releasedOf excluded nullifiers) w' verdicts ∧
          final = takeVerdicts excluded (Dict.ofList verdicts)) w := by
    refine Prog.Ensures.bind (confirm_ensures hs _) fun w₁ verdicts hanswered hs₁ => ?_
    refine ensures_end hs₁ fun w' hsince' _ => ⟨hanswered.1.trans hsince', verdicts, ?_, rfl⟩
    obtain ⟨-, answer, hverdicts, hasked⟩ := hanswered
    refine ⟨answer, hverdicts, fun hne => ?_⟩
    obtain ⟨ledger, hheard, haside⟩ := hasked hne
    exact ⟨ledger, hsince'.past hheard, haside.trans hsince'.aside⟩
  refine Prog.Ensures.bind hconfirmed fun w₁ final hfinal hs₁ => ?_
  obtain ⟨hsince₁, verdicts, hanswered, rfl⟩ := hfinal
  have hids := takeVerdicts_ids excluded (Dict.ofList verdicts)
  refine Prog.Ensures.bind (exclude_ensures RunOf.allowed hs₁ (hids ▸ hnodup) ?_) ?_
  · intro entry hentry ids w' hid hsince' _ atMs
    refine .exclude (MayExclude.since ?_ hsince' hid)
    have hmem : entry.1 ∈ excluded.map Prod.fst := hids ▸ List.mem_map_of_mem hentry
    obtain ⟨⟨id, reason⟩, hfirst, hname⟩ := List.mem_map.1 hmem
    obtain rfl : id = entry.1 := hname
    refine MayExclude.confirm ((hmay _ hfirst).since hsince₁ List.not_mem_nil) ?_
    intro r txid hr hreason
    -- a confirmed release comes from the second source's answer
    rcases mem_takeVerdicts hentry with hold | hverdict
    · exact absurd hreason (hunconfirmed entry hold txid)
    · rw [hreason] at hverdict
      obtain ⟨released, hreleased, hsame, t, ht, hevidence⟩ :=
        hanswered.evidence (Dict.mem_of_get_ofList hverdict)
      obtain ⟨-, hnullifier⟩ := mem_releasedOf hreleased
      obtain ⟨r₀, hr₀, -⟩ := hmay _ hfirst
      obtain ⟨r', hr', hburn⟩ := hsince₁.aside.burn hr₀
      obtain rfl := Option.some.inj (hr.symm.trans hr')
      rw [hsame] at hnullifier
      exact ⟨t, ht, by rw [hburn, hnullifiers _ _ _ hnullifier hr₀]; exact hevidence⟩
  -- what follows runs with all of them left out
  · rintro w₂ - ⟨hsince₂, hleft⟩ hs₂
    rw [hids] at hsince₂ hleft
    exact hrest w₂ (hsince₁.of_nil.trans hsince₂) hleft hs₂

end Orchestrator

namespace Orchestrator

variable {batch : Batch} {w : History} {assembled : Assembled}

/-- **A proof of an assembled batch** proves the batch, which then goes on to its settlement. -/
theorem finish_stage (assembled : Assembled) (hs : Sound sdk codec retry policy w) (hruns : batch.Runs w.state)
    (hproving : batch.status = .proving) {nullifiers : List String}
    (hcovers : Covers batch.id w nullifiers) {bundle : BatchBundle} {root : String}
    (hbundle : bundle.leaves.map LeafHex.nullifier = nullifiers) (htxid : bundle.settleTxid = none)
    (hproves : ∀ w', Since [] w w' → Proves sdk codec batch.id w' bundle root assembled) :
    IsStage sdk codec retry policy batch (proven.finish sdk retry batch bundle root) w := by
  refine ensures_ask hs fun w₁ atMs hsince₁ hs₁ _ => ?_
  refine ensures_apply hs₁ RunOf.allowed fun w₂ hsince₂ hs₂ => ?_
  have hsince := hsince₁.trans hsince₂
  have hruns₂ := hruns.aside hsince.aside
  have hcovers₂ := hcovers.since hsince
  have hnow : w₂.state.Proving batch.id := ⟨batch, hruns₂.current, hproving⟩
  -- the proof may be recorded: its leaves cover whoever is still in the batch
  refine ⟨.prove (hcovers₂.permitted hbundle hnow htxid root atMs) (hproves w₂ hsince)
    (hcovers₂.holds hbundle), fun hs₃ hadmits => ?_⟩
  have hforms : ¬ (Event.batchProven batch.id bundle root atMs).Forms := by
    rintro ⟨_, _, h⟩
    cases h
  have hget := @Batch.Runs.get_apply _ _ retry _ _ hruns₂ _ hadmits hforms
  have hover := @Batch.Runs.ends _ _ retry _ _ hruns₂ _ hadmits hforms (fun _ _ h => by cases h)
    (by simp [Event.batchAfter])
  have hafter : (Event.batchProven batch.id bundle root atMs).batchAfter batch.id batch =
      { batch with
        status := .proven, bundle := some bundle, spentRootOld := some root,
        provenAtMs := some atMs } := by
    simp [Event.batchAfter]
  rw [hafter] at hget
  -- what the bundle pays is held from here on, until the batch is settled
  obtain ⟨hindexed₂, hflight₂⟩ := Sound.ledger hs₂
  have hheld := @Held.proven sdk codec retry _ root _ bundle _ atMs (hcovers₂.holds hbundle) hindexed₂
    hflight₂ _ (List.subset_cons_self (w₂.state, .own (.batchProven batch.id bundle root atMs)) w₂.past)
  refine ensures_look hs₃ fun w₃ hsince₃ hs₃' => ?_
  have hcurrent : w₃.state.batches.get batch.id = some
      { batch with
        status := .proven, bundle := some bundle, spentRootOld := some root,
        provenAtMs := some atMs } := by
    rw [hsince₃.aside.batches]
    exact hget
  rw [hcurrent]
  refine @settleStage_stage sdk codec retry policy
    { batch with
      status := .proven, bundle := some bundle, spentRootOld := some root, provenAtMs := some atMs }
    w₃ hs₃' ⟨hcurrent, .inr rfl, fun b hb => ?_⟩ bundle rfl rfl
    (hheld.since hsince₃ fun _ h => by cases h)
  exact absurd (hsince₃.aside.proving_iff.1 hb) (hover b)

/-- **An assembled batch** takes an earlier proof, or is proven, or fails. -/
theorem proven_stage (hs : Sound sdk codec retry policy w) (hruns : batch.Runs w.state)
    (hproving : batch.status = .proving)
    (hcovers : Covers batch.id w (assembled.leaves.map fun l => hex32 l.nullifier))
    (hmade : WasAssembled sdk codec w.past assembled) :
    IsStage sdk codec retry policy batch (proven sdk retry batch assembled) w := by
  refine ensures_look hs fun w₁ hsince₁ hs₁ => ?_
  have hruns₁ := hruns.aside hsince₁.aside
  have hcovers₁ := hcovers.since hsince₁
  cases hreusable : w₁.state.proofFor (assembled.leaves.map fun l => hex32 l.nullifier)
      (hex32 assembled.publicValues.spentRootOld) with
  | some reused =>
      obtain ⟨candidate, hcandidate, hbundle⟩ := Ledger.proofFor_mem hreusable
      have hnullifiers := (Sound.ledger hs₁).2.candidate_nullifiers hcandidate hbundle (by
        intro nullifier hnullifier
        obtain ⟨n, rfl⟩ := hcovers.hex nullifier hnullifier
        exact toLowercase_hex32 n)
      refine finish_stage assembled hs₁ hruns₁ hproving hcovers₁ hnullifiers rfl fun w' hsince' => ?_
      refine ⟨hmade.mono (hsince₁.trans hsince').past, rfl, .inl ⟨reused, ?_, rfl⟩⟩
      rw [Ledger.proofFor, Ledger.proofCandidates, hsince'.aside.batches]
      exact hreusable
  | none =>
      refine ensures_ask hs₁ fun w₂ answer hsince₂ hs₂ hheard => ?_
      have hruns₂ := hruns₁.aside hsince₂.aside
      cases answer with
      | error error => exact fail_stage hs₂ hruns₂ _ _
      | ok proof =>
          refine finish_stage assembled hs₂ hruns₂ hproving (hcovers₁.since hsince₂) ?_ rfl
            fun w' hsince' => ?_
          · simp [BatchBundle.proven, LeafHex.from]
          · refine ⟨hmade.mono (hsince₁.trans (hsince₂.trans hsince')).past, rfl, .inr ?_⟩
            exact ⟨w₂.state, proof, hsince'.past hheard, rfl⟩

/-- What a stage knows of the burns that it assembles: they are the returns' own, each once, every
return in the batch is among them, and each stands as it did when it was assembled. -/
structure Assembling (sdk : TokenSdk.Sdk) (codec : Wire.Codec) (b : String) (w : History)
    (burns : List Burn) : Prop where
  ids : (burns.map Burn.id).Nodup
  nullifiers : (burns.map Burn.nullifier).Nodup
  checked : ∀ burn ∈ burns, burn.Checked sdk codec
  returns : ∀ burn ∈ burns, ∃ r, w.state.returns.get burn.id = some r ∧ r.burn = burn
  members : ∀ id r, w.state.returns.get id = some r → r.inBatch b = true →
    r.burn.id = id ∧ r.burn ∈ burns
  heard : ∃ acc rejected answer,
    (w.state, Label.heard (Query.assembling burns acc rejected) answer) ∈ w.past
  proving : ∀ r, r.record.status = .proving → (∃ id, w.state.returns.get id = some r) →
    r.inBatch b = true

section Assembling

variable {burns : List Burn}

/-- A burn that is assembled is in the batch, or has drifted out of it. -/
theorem Assembling.may (h : Assembling sdk codec batch.id w burns) {burn : Burn}
    (hburn : burn ∈ burns) {reason : Exclusion}
    (hreason : ∀ txid, reason ≠ .alreadySettled txid none) :
    MayExclude batch.id w burn.id reason := by
  obtain ⟨r, hr, hsame⟩ := h.returns burn hburn
  refine ⟨r, hr, fun txid heq => absurd heq (hreason txid), ?_⟩
  by_cases hproving : r.record.status = .proving
  · exact .inl (h.proving r hproving ⟨burn.id, hr⟩)
  · obtain ⟨acc, rejected, answer, hheard⟩ := h.heard
    refine .inr ⟨r, ⟨w.state, burns, acc, rejected, answer, hheard, ⟨burn, hburn, rfl⟩, hr⟩, hproving, ?_⟩
    exact fun hdone => hdone

variable {marks : List Mark} {excluded : List (String × Exclusion)}

theorem mem_excluded {marks : List Mark} {entry : String × Exclusion}
    (h : entry ∈ marks.filterMap fun m => m.2.map fun reason => (m.1.id, reason)) :
    ∃ m ∈ marks, m.1.id = entry.1 ∧ m.2 = some entry.2 := by
  obtain ⟨m, hm, hentry⟩ := List.mem_filterMap.1 h
  obtain ⟨reason, hreason, rfl⟩ := Option.map_eq_some_iff.1 hentry
  exact ⟨m, hm, rfl, hreason⟩

/-- Each member is excluded once. -/
theorem excluded_nodup (hids : (marks.map fun m => m.1.id).Nodup) :
    ((marks.filterMap fun m => m.2.map fun reason => (m.1.id, reason)).map Prod.fst).Nodup := by
  refine List.Nodup.sublist ?_ hids
  induction marks with
  | nil => exact List.Sublist.slnil
  | cons m rest ih =>
      obtain ⟨burn, mark⟩ := m
      have hrest := ih (List.nodup_cons.1 hids).2
      cases mark with
      | none => exact hrest.cons _
      | some reason => exact hrest.cons_cons _

/-- **What is left to prove**: once the members that assembly did not take are excluded, the leaves of
the others cover the batch. -/
theorem Assembling.covers (h : Assembling sdk codec batch.id w burns) {merge : Merge}
    (hmarks : marks.map Prod.fst = burns) (hmarked : merge.Marked sdk codec marks) {w' : History}
    (hsince : Since ((marks.filterMap fun m => m.2.map fun reason => (m.1.id, reason)).map Prod.fst)
      w w')
    (hleft : ∀ id ∈ (marks.filterMap fun m => m.2.map fun reason => (m.1.id, reason)).map Prod.fst,
      ∀ r, w'.state.returns.get id = some r → ¬ r.Active) :
    Covers batch.id w' (merge.leaves.map fun l => hex32 l.nullifier) := by
  have hmem : ∀ m ∈ marks, m.1 ∈ burns := fun m hm => hmarks ▸ List.mem_map_of_mem hm
  have hids : (marks.map fun m => m.1.id).Nodup := by
    have hnodup := h.ids
    rw [← hmarks, List.map_map] at hnodup
    exact hnodup
  have hnullifiers := hmarked.nullifiers fun m hm => h.checked m.1 (hmem m hm)
  constructor
  · have hnodup := h.nullifiers
    rw [← hmarks, List.map_map] at hnodup
    rw [hnullifiers]
    exact hnodup.sublist (List.filter_sublist.map _)
  · intro nullifier hnullifier
    obtain ⟨leaf, -, rfl⟩ := List.mem_map.1 hnullifier
    exact ⟨_, rfl⟩
  -- every leaf belongs to a member that was taken
  · intro nullifier hnullifier
    rw [hnullifiers] at hnullifier
    obtain ⟨m, hm, rfl⟩ := List.mem_map.1 hnullifier
    obtain ⟨hm, htaken⟩ := List.mem_filter.1 hm
    obtain ⟨r, hr, hsame⟩ := h.returns m.1 (hmem m hm)
    obtain ⟨r', hr', hburn⟩ := hsince.aside.burn hr
    have hnullifier' : r'.burn.nullifier = m.1.nullifier := by
      rw [hburn, hsame]
    by_cases hproving : r.record.status = .proving
    · -- a taken member is none of those that were excluded
      have hin := h.proving r hproving ⟨m.1.id, hr⟩
      have hid : m.1.id ∉
          (marks.filterMap fun m => m.2.map fun reason => (m.1.id, reason)).map Prod.fst := by
        intro hexcluded
        obtain ⟨entry, hentry, hname⟩ := List.mem_map.1 hexcluded
        obtain ⟨m', hm', hname', hreason⟩ := mem_excluded hentry
        obtain rfl := List.inj_on_of_nodup_map hids hm' hm (hname'.trans hname)
        rw [hreason] at htaken
        cases htaken
      have hopen := Return.not_failedRecoverably_of_active (Return.active_of_inBatch hin)
      exact ⟨m.1.id, r, hsince.aside.get hr hid hopen, hsame ▸ rfl, .inl hin⟩
    -- a member that was not proving any more when its burn was read
    · obtain ⟨acc, rejected, answer, hheard⟩ := h.heard
      refine ⟨m.1.id, r', hr', hnullifier', .inr (.inl ⟨r, ?_, hproving⟩)⟩
      exact ⟨w.state, burns, acc, rejected, answer, hsince.past hheard, ⟨m.1, hmem m hm, rfl⟩, hr⟩
  -- every return in the batch is a member that was taken; an excluded one is active no longer
  · intro id r hr' hin
    have hr := hsince.aside.inBatch_before hr' hin
    obtain ⟨hname, hburn⟩ := h.members id r hr hin
    rw [← hmarks] at hburn
    obtain ⟨m, hm, hsame⟩ := List.mem_map.1 hburn
    rw [hnullifiers, ← hsame]
    refine List.mem_map.2 ⟨m, List.mem_filter.2 ⟨hm, ?_⟩, rfl⟩
    cases hmark : m.2 with
    | none => rfl
    | some reason =>
        have hid : id ∈
            (marks.filterMap fun m => m.2.map fun reason => (m.1.id, reason)).map Prod.fst := by
          refine List.mem_map.2 ⟨(m.1.id, reason), ?_, by rw [← hname, ← hsame]⟩
          exact List.mem_filterMap.2 ⟨m, hm, by rw [hmark, Option.map_some]⟩
        exact absurd (Return.active_of_inBatch hin) (hleft id hid r hr')

end Assembling

/-- What a stage knows of the burns it read, when their assembly ends. -/
theorem assembling_of_read {w₁ : History} (hs : Sound sdk codec retry policy w)
    (hs₁ : Sound sdk codec retry policy w₁) (hruns : batch.Runs w.state) (hsince : Since [] w w₁)
    {acc : RebuiltAccumulator}
    {rejected : List Rejected} {answer : Except String Unit}
    (hheard : (w₁.state, Label.heard (Query.assembling (w.state.burns batch.members) acc rejected)
      answer) ∈ w₁.past) :
    Assembling sdk codec batch.id w₁ (w.state.burns batch.members) := by
  obtain ⟨hindexed, hflight⟩ := Sound.ledger hs
  obtain ⟨hindexed₁, hflight₁⟩ := Sound.ledger hs₁
  have hdistinct := hflight.distinct batch.id batch hruns.current
  have hruns₁ := hruns.aside hsince.aside
  refine ⟨hindexed.burns_ids hdistinct, hindexed.burns_nullifiers hdistinct,
    fun burn hburn => hindexed.burns_checked hburn, ?_, ?_, ⟨acc, rejected, answer, hheard⟩, ?_⟩
  · intro burn hburn
    obtain ⟨id, -, r, hr, rfl⟩ := Ledger.mem_burns.1 hburn
    obtain ⟨r', hr', hsame⟩ := hsince.aside.burn hr
    exact ⟨r', hindexed.id_eq id r hr ▸ hr', hsame⟩
  · intro id r hr₁ hin
    have hr := hsince.aside.inBatch_before hr₁ hin
    obtain ⟨batch', hbatch', hid, -⟩ := hflight.member id r batch.id hr hin
    obtain rfl := Option.some.inj (hruns.current.symm.trans hbatch')
    exact ⟨hindexed.id_eq id r hr, Ledger.mem_burns.2 ⟨id, hid, r, hr, rfl⟩⟩
  · rintro r hstatus ⟨id, hr⟩
    obtain ⟨b, hin⟩ := hflight₁.named id r hr (.inl hstatus)
    obtain ⟨batch', hbatch', -, hcase⟩ := hflight₁.member id r b hr hin
    rcases hcase with ⟨-, hproving'⟩ | ⟨hproven, -⟩
    · exact hruns₁.alone b ⟨batch', hbatch', hproving'⟩ ▸ hin
    · rw [hstatus] at hproven
      cases hproven

/-- The exclusions of an assembly, and what the stage goes on with. -/
theorem Assembling.excluding {burns : List Burn} {marks : List Mark} {merge : Merge}
    (h : Assembling sdk codec batch.id w burns) (hs : Sound sdk codec retry policy w)
    (hmarks : marks.map Prod.fst = burns) (hmarked : merge.Marked sdk codec marks)
    {rest : Program Stage} {post : History → Stage → Prop}
    (hrest : ∀ w', Since (merge.excluded.map Prod.fst) w w' →
      Covers batch.id w' (merge.leaves.map fun l => hex32 l.nullifier) →
      Sound sdk codec retry policy w' →
      rest.Ensures (service sdk codec retry policy) (Allowed sdk codec retry)
        (RunOf sdk codec retry batch.id) post w') :
    (do
      let excluded ← confirmed merge.excluded
        (Dict.ofList (burns.map fun (b : Burn) => (b.id, b.nullifier)))
      exclude excluded
      rest).Ensures (service sdk codec retry policy) (Allowed sdk codec retry)
        (RunOf sdk codec retry batch.id) post w := by
  have hids : (marks.map fun m => m.1.id).Nodup := by
    have hnodup := h.ids
    rw [← hmarks, List.map_map] at hnodup
    exact hnodup
  refine excluding_ensures hs ?_ ?_ ?_ ?_ fun w' hsince hleft hs' => ?_
  · rw [hmarked.excluded]
    exact excluded_nodup hids
  · intro entry hentry txid hreason
    rw [hmarked.excluded] at hentry
    obtain ⟨m, hm, -, hmark⟩ := mem_excluded hentry
    exact hmarked.unconfirmed m hm txid (hreason ▸ hmark)
  · intro entry hentry
    rw [hmarked.excluded] at hentry
    obtain ⟨m, hm, hname, hmark⟩ := mem_excluded hentry
    rw [← hname]
    refine h.may (hmarks ▸ List.mem_map_of_mem hm) fun txid hreason => ?_
    exact hmarked.unconfirmed m hm txid (hreason ▸ hmark)
  · intro id nullifier r hnullifier hr
    obtain ⟨burn, hburn, heq⟩ := List.mem_map.1 (Dict.mem_of_get_ofList hnullifier)
    obtain ⟨rfl, rfl⟩ := Prod.mk.inj heq
    obtain ⟨r', hr', hsame⟩ := h.returns burn hburn
    rw [Option.some.inj (hr.symm.trans hr'), hsame]
  · refine hrest w' hsince ?_ hs'
    rw [hmarked.excluded] at hsince hleft
    exact h.covers hmarks hmarked hsince hleft

/-- **The proving stage** ends with the batch proven and at the end of its settlement, failed, or
rebased. -/
theorem proveStage_stage (hs : Sound sdk codec retry policy w) (hruns : batch.Runs w.state)
    (hproving : batch.status = .proving) :
    IsStage sdk codec retry policy batch (proveStage sdk codec retry batch) w := by
  refine Prog.Ensures.bind (synced_ensures hs hruns) fun w₁ acc hsynced hs₁ => ?_
  cases acc with
  | none => exact ensures_end hs₁ fun w' hsince _ => Ended.since hsynced hsince
  | some acc =>
      have hsince₁ : Since [] w w₁ := hsynced
      refine ensures_look hs₁ fun w₂ hsince₂ hs₂ => ?_
      have hruns₂ := hruns.aside (hsince₁.trans hsince₂).aside
      refine ensures_ask hs₂ fun w₃ answer hsince₃ hs₃ _ => ?_
      have hruns₃ := hruns₂.aside hsince₃.aside
      cases answer with
      | error error => exact fail_stage hs₃ hruns₃ _ _
      | ok rejected =>
          refine ensures_ask hs₃ fun w₄ joined hsince₄ hs₄ hheard => ?_
          have hruns₄ := hruns₃.aside hsince₄.aside
          -- what was read before the simulation describes the ledger still, up to what others do
          have hassembling := assembling_of_read hs₂ hs₄ hruns₂ (hsince₃.trans hsince₄) hheard
          cases joined with
          | error error => exact fail_stage hs₄ hruns₄ _ _
          | ok =>
              obtain ⟨marks, hmarks, hmarked⟩ := @foldl_marked sdk codec acc rejected
                (w₂.state.burns batch.members)
              have hmade := hassembling.returns
              cases hassemble : assemble sdk codec (w₂.state.burns batch.members) acc rejected with
              | none => exact fail_stage hs₄ hruns₄ _ _
              | some result =>
                  cases result with
                  | ok assembled =>
                      -- a batch: record who is left out, then prove the rest
                      have hfrom := assemble_eq_ok hassemble
                      simp only [hfrom.excluded]
                      refine hassembling.excluding hs₄ hmarks hmarked fun w₅ hsince₅ hcovers hs₅ => ?_
                      refine proven_stage hs₅ (hruns₄.aside hsince₅.aside) hproving ?_ ?_
                      · rw [hfrom.leaves]
                        exact hcovers
                      · refine ⟨w₄.state, _, acc, rejected, hsince₅.past hheard, ?_, hassemble⟩
                        intro burn hburn
                        obtain ⟨r, hr, hsame⟩ := hmade burn hburn
                        exact ⟨burn.id, r, hr, hsame⟩
                  | error error =>
                      cases error with
                      -- nobody is left: record that, and fail
                      | allExcluded excluded =>
                          rw [assemble_eq_allExcluded hassemble]
                          refine hassembling.excluding hs₄ hmarks hmarked fun w₅ hsince₅ _ hs₅ => ?_
                          exact fail_stage hs₅ (hruns₄.aside hsince₅.aside) _ _
                      | accumulator text => exact fail_stage hs₄ hruns₄ _ _
                      | precheck text => exact fail_stage hs₄ hruns₄ _ _

end Orchestrator

end UnicityBridge.Service
