import UnicityBridge.Service.Terminal

/-!
# Proofs that are used again

`proof_for` looks for a proof by the ordered nullifiers and the old root alone. That these fix the whole
public statement rests on two facts about every run: a nullifier belongs to one burn, which never
changes, so the burns of an assembly can be read off its leaves; and every bundle in the ledger states
what some assembly on its recorded root came to (`Ledger.Backed`).
-/

set_option autoImplicit false

namespace UnicityBridge.Service

open UnicityBridge.Lib
open UnicityBridge.Core (ReturnLeaf)
open UnicityBridge.Accumulator (treeInputs EMPTY_TREE_ROOT)
open UnicityBridge.Settlement (RebuiltAccumulator)

section Reuse

variable {sdk : TokenSdk.Sdk} {codec : Wire.Codec} {retry : RetryPolicy} {policy : BatchPolicy}

/-! ## The transition of an assembly -/

/-- A next batch takes the tree's root to that of the tree with the new nullifiers. -/
theorem nextBatch_roots {sha256 : Bytes → Bytes32} {acc : RebuiltAccumulator} {keys : List Accumulator.Key}
    {next : Settlement.NextBatch} (h : Settlement.nextBatch sha256 acc keys = .ok next) :
    next.spentRootOld = acc.tree.root sha256 ∧
      next.spentRootNew = Accumulator.setRoot sha256 (acc.tree.keys ++ keys).toFinset := by
  simp only [Settlement.nextBatch, bind_eq_ok, ensure_eq_ok, mapError_eq_ok, Except.ok.injEq,
    Prod.exists] at h
  obtain ⟨-, -, witnesses, root, hordered, running, -, -, rfl, rfl⟩ := h
  simp only [Accumulator.orderedInsertWitnesses, bind_eq_ok, Except.ok.injEq, Prod.exists,
    Prod.mk.injEq] at hordered
  obtain ⟨ws, tree, hfold, rfl, rfl⟩ := hordered
  refine ⟨rfl, ?_⟩
  show tree.root sha256 = _
  rw [Accumulator.root_eq_setRoot, Accumulator.foldlM_insertWitness_keys sha256 hfold]

/-- Trees with one root take new nullifiers to one root. -/
theorem setRoot_of_root_eq {sha256 : Bytes → Bytes32} {Q : Set Bytes}
    (hQ : SparseMerkle.CollisionFree sha256 EMPTY_TREE_ROOT Q)
    {tree tree' : Accumulator.NullifierTree} (htree : treeInputs sha256 tree ⊆ Q)
    (htree' : treeInputs sha256 tree' ⊆ Q) (h : tree.root sha256 = tree'.root sha256)
    (keys : List Accumulator.Key) :
    Accumulator.setRoot sha256 (tree.keys ++ keys).toFinset =
      Accumulator.setRoot sha256 (tree'.keys ++ keys).toFinset := by
  congr 1
  ext key
  simp only [List.mem_toFinset, List.mem_append]
  exact or_congr_left (Accumulator.keys_of_root_eq hQ htree htree' h key)

/-! ## Burns by their nullifiers -/

/-- Burns of the ledger's returns. -/
def Ledger.HoldsBurns (ledger : Ledger) (burns : List Burn) : Prop :=
  ∀ burn ∈ burns, ∃ id r, ledger.returns.get id = some r ∧ r.burn = burn

/-- **Nullifiers name their burns.** -/
theorem Ledger.Indexed.burns_of_nullifiers {ledger : Ledger} (h : ledger.Indexed sdk codec)
    {burns burns' : List Burn} (hburns : ledger.HoldsBurns burns) (hburns' : ledger.HoldsBurns burns')
    (hsame : burns.map Burn.nullifier = burns'.map Burn.nullifier) : burns = burns' := by
  -- the burn that the index leads to
  let named (nullifier : String) : Option Burn :=
    ((ledger.byNullifier.get nullifier).bind ledger.returns.get).map Return.burn
  have hnamed : ∀ burns, ledger.HoldsBurns burns →
      (burns.map Burn.nullifier).map named = burns.map some := by
    intro burns hburns
    rw [List.map_map]
    refine List.map_congr_left fun burn hburn => ?_
    obtain ⟨id, r, hr, rfl⟩ := hburns burn hburn
    simp [named, h.byNullifier id r hr, hr]
  have hsome := (hnamed burns hburns).symm.trans ((congrArg _ hsame).trans (hnamed burns' hburns'))
  exact List.map_injective_iff.2 (Option.some_injective _) hsome

theorem Burn.Checked.values {burn : Burn} (h : burn.Checked sdk codec) {input : Guest.GuestInput}
    (hdecode : Wire.decodeGuestInput sdk codec burn.wireInput = .ok input) :
    input.publicValues.domainTag = Core.domainTag sdk.keccak256 ∧
      input.publicValues.configHash = Core.configHash sdk.keccak256 input.config := by
  obtain ⟨input', leaf, hburn⟩ := h
  obtain rfl := Except.ok.inj (hdecode.symm.trans hburn.decodes)
  obtain ⟨hpublic, -⟩ := (Guest.execute_eq_ok sdk).1 hburn.accepted
  obtain ⟨htag, hconfig, -⟩ := (Core.validatePublicValues_eq_ok sdk.keccak256).1 hpublic
  exact ⟨htag, hconfig⟩

/-! ## Two assemblies -/

/-- The burns that were taken, in order. -/
def takenOf (marks : List Mark) : List Burn := (marks.filter fun m => m.2.isNone).map Prod.fst

theorem mem_takenOf {marks : List Mark} {burn : Burn} : burn ∈ takenOf marks ↔ (burn, none) ∈ marks := by
  simp [takenOf]

/-- What an assembly says, by the burns that it took. -/
structure Says (sdk : TokenSdk.Sdk) (codec : Wire.Codec) (acc : RebuiltAccumulator)
    (assembled : Assembled) (taken : List Burn) : Prop where
  nullifiers : assembled.leaves.map (fun l => hex32 l.nullifier) = taken.map Burn.nullifier
  leaves : assembled.leaves = taken.flatMap fun b => b.returnLeaves sdk codec
  lockRefs : assembled.lockRefs = Guest.sortByNonce (taken.flatMap fun b => b.lockRefs sdk codec)
  values : ∃ burn ∈ taken, ∃ input lockRefRoot next,
    Wire.decodeGuestInput sdk codec burn.wireInput = .ok input ∧
      Settlement.nextBatch sdk.sha256 acc (assembled.leaves.map ReturnLeaf.nullifier) = .ok next ∧
      Core.lockRefRoot sdk.keccak256 assembled.lockRefs = .ok lockRefRoot ∧
      assembled.publicValues =
        mergedValues sdk input.publicValues next assembled.leaves lockRefRoot ∧
      ∀ other ∈ taken, ∃ input', Wire.decodeGuestInput sdk codec other.wireInput = .ok input' ∧
        input'.config = input.config ∧
        input'.publicValues.trustBaseHash = input.publicValues.trustBaseHash

/-- **What an assembly says** follows from the burns that it took. -/
theorem says_of_assemble {burns : List Burn} {acc : RebuiltAccumulator} {rejected : List Rejected}
    {assembled : Assembled} (hchecked : ∀ burn ∈ burns, burn.Checked sdk codec)
    (h : assemble sdk codec burns acc rejected = some (.ok assembled)) :
    ∃ taken, taken ⊆ burns ∧ Says sdk codec acc assembled taken := by
  obtain ⟨marks, rfl, hmarked⟩ := @foldl_marked sdk codec acc rejected burns
  obtain ⟨hleaves, hrefs, -, config, template, next, root, htemplate, hnext, hroot, hvalues, -⟩ :=
    assemble_eq_ok h
  refine ⟨takenOf marks, ?_, ?_, ?_, ?_, ?_⟩
  · exact List.map_subset _ (List.filter_subset_self _)
  · rw [hleaves, hmarked.nullifiers fun m hm => hchecked m.1 (List.mem_map_of_mem hm), takenOf,
      List.map_map]
    rfl
  · rw [hleaves, hmarked.leaves, takenOf, List.flatMap_map]
  · rw [hrefs, hmarked.lockRefs, takenOf, List.flatMap_map]
  · obtain ⟨⟨burn, _⟩, hm, rfl, input, hdecode, rfl, rfl⟩ := hmarked.template config template htemplate
    refine ⟨burn, mem_takenOf.2 hm, input, root, next, hdecode, hleaves ▸ hnext, hrefs ▸ hroot,
      hleaves ▸ hvalues, fun other hother => ?_⟩
    obtain ⟨input', config', values', hdecode', htemplate', hconfig, htrust⟩ :=
      hmarked.agree _ (mem_takenOf.1 hother) rfl
    obtain ⟨rfl, rfl⟩ := Prod.mk.inj (Option.some.inj (htemplate.symm.trans htemplate'))
    exact ⟨input', hdecode', hconfig, htrust⟩

/-- **The burns and the old root fix what an assembly says.** -/
theorem Says.unique {acc acc' : RebuiltAccumulator} {assembled assembled' : Assembled}
    {taken : List Burn} (h : Says sdk codec acc assembled taken)
    (h' : Says sdk codec acc' assembled' taken) (hchecked : ∀ burn ∈ taken, burn.Checked sdk codec)
    (hroot : assembled.publicValues.spentRootOld = assembled'.publicValues.spentRootOld)
    {Q : Set Bytes} (hQ : SparseMerkle.CollisionFree sdk.sha256 EMPTY_TREE_ROOT Q)
    (htree : treeInputs sdk.sha256 acc.tree ⊆ Q) (htree' : treeInputs sdk.sha256 acc'.tree ⊆ Q) :
    assembled.publicValues = assembled'.publicValues ∧ assembled.leaves = assembled'.leaves ∧
      assembled.lockRefs = assembled'.lockRefs := by
  have hleaves := h.leaves.trans h'.leaves.symm
  have hrefs := h.lockRefs.trans h'.lockRefs.symm
  obtain ⟨burn, hburn, input, root, next, hdecode, hnext, hlock, hvalues, hagree⟩ := h.values
  obtain ⟨burn', hburn', input', root', next', hdecode', hnext', hlock', hvalues', -⟩ := h'.values
  -- the first burns of the two assemblies agree
  obtain ⟨other, hother, hconfig, htrust⟩ := hagree burn' hburn'
  obtain rfl := Except.ok.inj (hdecode'.symm.trans hother)
  obtain ⟨htag, hhash⟩ := (hchecked burn hburn).values hdecode
  obtain ⟨htag', hhash'⟩ := (hchecked burn' hburn').values hdecode'
  obtain ⟨hold, hnew⟩ := nextBatch_roots hnext
  obtain ⟨hold', hnew'⟩ := nextBatch_roots hnext'
  have hroots : acc.tree.root sdk.sha256 = acc'.tree.root sdk.sha256 := by
    rw [hvalues, hvalues'] at hroot
    exact hold.symm.trans (hroot.trans hold')
  have hsame : next.spentRootNew = next'.spentRootNew := by
    rw [hnew, hnew', hleaves, setRoot_of_root_eq hQ htree htree' hroots]
  rw [hrefs] at hlock
  obtain rfl := Except.ok.inj (hlock.symm.trans hlock')
  refine ⟨?_, hleaves, hrefs⟩
  rw [hvalues, hvalues', mergedValues, mergedValues, htag, htag', hhash, hhash', hconfig, htrust, hold,
    hold', hroots, hsame, hleaves]

/-! ## Bundles -/

/-- The bundle makes the public statement of the assembled batch. -/
structure BatchBundle.States (bundle : BatchBundle) (assembled : Assembled) : Prop where
  publicValues : bundle.publicValues = hexText (Core.publicValuesAbi assembled.publicValues)
  leaves : bundle.leaves = assembled.leaves.map LeafHex.from
  lockRefs : bundle.lockRefs = assembled.lockRefs.map LockRefHex.from

/-- The prover publishes what the guest publishes on the wire input. -/
def Publishes (sdk : TokenSdk.Sdk) (codec : Wire.Codec) (past : Past) : Prop :=
  ∀ ledger id wire proof, (ledger, Label.heard (Query.prove id wire) (.ok proof)) ∈ past →
    ∀ output, Precheck.executeWire sdk codec wire = .ok output →
      proof.publicValues = output.publicValuesAbi

/-- The bundle states what an assembly on this root came to. -/
def Backed (sdk : TokenSdk.Sdk) (codec : Wire.Codec) (past : Past) (bundle : BatchBundle)
    (spentRootOld : String) : Prop :=
  ∃ assembled, WasAssembled sdk codec past assembled ∧
    spentRootOld = hex32 assembled.publicValues.spentRootOld ∧ bundle.States assembled

theorem Publishes.mono {past past' : Past} (h : Publishes sdk codec past') (hpast : past ⊆ past') :
    Publishes sdk codec past :=
  fun ledger id wire proof hheard => h ledger id wire proof (hpast hheard)

theorem Backed.mono {past past' : Past} {bundle : BatchBundle} {root : String}
    (h : Backed sdk codec past bundle root) (hpast : past ⊆ past') :
    Backed sdk codec past' bundle root := by
  obtain ⟨assembled, hmade, hrest⟩ := h
  exact ⟨assembled, hmade.mono hpast, hrest⟩

/-- Every bundle of the ledger states what an assembly on its recorded root came to. -/
def BundlesBacked (sdk : TokenSdk.Sdk) (codec : Wire.Codec) (w : History) : Prop :=
  ∀ b batch bundle root, w.state.batches.get b = some batch → batch.bundle = some bundle →
    batch.spentRootOld = some root → Backed sdk codec w.past bundle root

/-- A new proof states what was assembled, and an earlier proof states what it did. -/
theorem Proves.backed {w : History} {b : String} {bundle : BatchBundle} {root : String}
    {assembled : Assembled} (h : Proves sdk codec b w bundle root assembled)
    (hbacked : BundlesBacked sdk codec w) (hprover : Publishes sdk codec w.past) :
    Backed sdk codec w.past bundle root := by
  rcases h.proof with ⟨reused, hreused, rfl⟩ | ⟨ledger, proof, hheard, rfl⟩
  · obtain ⟨b', batch, hget, hbundle, -, hroot, -⟩ := Ledger.proofFor_eq_some hreused
    obtain ⟨earlier, hmade, hsame, hstates⟩ := hbacked b' batch reused root hget hbundle hroot
    exact ⟨earlier, hmade, hsame, hstates.publicValues, hstates.leaves, hstates.lockRefs⟩
  · obtain ⟨ledger', burns, acc, rejected, -, -, hassemble⟩ := id h.made
    refine ⟨assembled, h.made, h.root, ?_, rfl, rfl⟩
    exact congrArg hexText (hprover ledger b assembled.wire proof hheard _ (assemble_executes hassemble))

/-- **Every bundle of every batch is backed**, also of those that failed or were cut off. -/
theorem Sound.backed {w : History} (h : Sound sdk codec retry policy w)
    (hprover : Publishes sdk codec w.past) : BundlesBacked sdk codec w := by
  refine System.Guarded.invariant (I := fun w => Publishes sdk codec w.past →
    BundlesBacked sdk codec w) ?_ ?_ ?_ ?_ h hprover
  · intro _ b batch bundle root hget
    cases hget
  -- the service's own events: only a proof writes a bundle, the others keep or drop it
  · intro w e hs ih hallowed hadmits hprover b batch' bundle root hget hbundle hroot
    have hpast : w.past ⊆ (w.own (service sdk codec retry policy) e).past := List.subset_cons_self _ _
    have hbefore := ih (hprover.mono hpast)
    rcases Ledger.batches_cases hadmits.ne_snapshot hget with
      ⟨batch, hbatch, rfl⟩ | ⟨members, atMs, rfl, rfl, -⟩
    · have hkept : ∀ bundle', batch.bundle = some bundle' → batch.spentRootOld = some root →
          Backed sdk codec (w.own (service sdk codec retry policy) e).past bundle' root :=
        fun bundle' hbundle' hroot' =>
          (hbefore b batch bundle' root hbatch hbundle' hroot').mono hpast
      cases e with
      | batchProven b' new root' atMs =>
          -- the new bundle is backed by the input it was proved from, or by the one it was taken
          -- from
          by_cases hb : b = b'
          · simp only [Event.batchAfter, if_pos hb, Option.some.injEq] at hbundle hroot
            subst hbundle hroot
            cases hallowed with
            | run hrun =>
                cases hrun with
                | prove _ proves => exact (proves.backed hbefore (hprover.mono hpast)).mono hpast
          · simp only [Event.batchAfter, if_neg hb] at hbundle hroot
            exact hkept bundle hbundle hroot
      | batchSettled b' txid atMs =>
          by_cases hb : b = b'
          · simp only [Event.batchAfter, if_pos hb, Option.map_eq_some_iff] at hbundle hroot
            obtain ⟨old, hold, rfl⟩ := hbundle
            obtain ⟨assembled, hmade, hsame, hstates⟩ := hkept old hold hroot
            exact ⟨assembled, hmade, hsame, hstates.publicValues, hstates.leaves, hstates.lockRefs⟩
          · simp only [Event.batchAfter, if_neg hb] at hbundle hroot
            exact hkept bundle hbundle hroot
      | batchRebased b' atMs =>
          by_cases hb : b = b'
          · simp only [Event.batchAfter, if_pos hb] at hbundle
            cases hbundle
          · simp only [Event.batchAfter, if_neg hb] at hbundle hroot
            exact hkept bundle hbundle hroot
      | batchFailed b' | batchInterrupted b' =>
          by_cases hb : b = b'
          · simp only [Event.batchAfter, if_pos hb] at hbundle hroot
            exact hkept bundle hbundle hroot
          · simp only [Event.batchAfter, if_neg hb] at hbundle hroot
            exact hkept bundle hbundle hroot
      | snapshot | accepted | requeued | batchFormed | returnExcluded =>
          exact hkept bundle hbundle hroot
    · cases hbundle
  -- others touch no batch
  · intro w e hs ih hintake hprover b batch bundle root hget hbundle hroot
    have hpast : w.past ⊆ (w.other (service sdk codec retry policy) e).past := List.subset_cons_self _ _
    have haside := @Intake.aside sdk codec retry _ (Sound.ledger hs).1 _ hintake
    have hsame : w.state.batches.get b = some batch := by
      rw [← haside.batches]
      exact hget
    exact (ih (hprover.mono hpast) b batch bundle root hsame hbundle hroot).mono hpast
  · intro w moment hs ih _ _ hprover b batch bundle root hget hbundle hroot
    have hpast : w.past ⊆ (w.state, moment) :: w.past := List.subset_cons_self _ _
    exact (ih (hprover.mono hpast) b batch bundle root hget hbundle hroot).mono hpast

/-- The burns of an earlier ledger are still there. -/
theorem Sound.burn_of_past {w : History} (h : Sound sdk codec retry policy w) {ledger : Ledger}
    {moment : Moment} (hmem : (ledger, moment) ∈ w.past) {id : String} {r : Return}
    (hr : ledger.returns.get id = some r) :
    ∃ r', w.state.returns.get id = some r' ∧ r'.burn = r.burn := by
  induction h with
  | initial => cases hmem
  | @own w e hbefore hallowed hadmits ih =>
      obtain ⟨r', hr', hburn⟩ : ∃ r', w.state.returns.get id = some r' ∧ r'.burn = r.burn := by
        rcases List.mem_cons.1 hmem with heq | hold
        · obtain ⟨rfl, -⟩ := Prod.mk.inj heq
          exact ⟨r, hr, rfl⟩
        · exact ih hold
      obtain ⟨r'', hr'', hburn'⟩ := @Ledger.burn_apply _ _ retry _ _ hadmits _ _ hr'
      exact ⟨r'', hr'', hburn'.trans hburn⟩
  | @other w e hbefore hintake ih =>
      obtain ⟨r', hr', hburn⟩ : ∃ r', w.state.returns.get id = some r' ∧ r'.burn = r.burn := by
        rcases List.mem_cons.1 hmem with heq | hold
        · obtain ⟨rfl, -⟩ := Prod.mk.inj heq
          exact ⟨r, hr, rfl⟩
        · exact ih hold
      obtain ⟨r'', hr'', hburn'⟩ := @Ledger.burn_apply _ _ retry _ _ hintake.admissible _ _ hr'
      exact ⟨r'', hr'', hburn'.trans hburn⟩
  | heard _ _ _ ih | outside _ _ ih | started _ ih =>
      rcases List.mem_cons.1 hmem with heq | hold
      · obtain ⟨rfl, -⟩ := Prod.mk.inj heq
        exact ⟨r, hr, rfl⟩
      · exact ih hold

/-- What the accumulators hash that batches were assembled on. -/
def assemblyInputs (sdk : TokenSdk.Sdk) (past : Past) (acc : RebuiltAccumulator) : Set Bytes :=
  treeInputs sdk.sha256 acc.tree ∪ {input | ∃ ledger burns acc' rejected answer,
    (ledger, Label.heard (Query.assembling burns acc' rejected) answer) ∈ past ∧
      input ∈ treeInputs sdk.sha256 acc'.tree}

/-- **A candidate says what the batch says** that is assembled now. -/
theorem candidate_states {c : ServiceConfig} (h : (service sdk codec retry policy).Reach c)
    (hprover : Publishes sdk codec c.world.past) {ids : List String} {acc : RebuiltAccumulator}
    {rejected : List Rejected} {assembled : Assembled}
    (hsha : SparseMerkle.CollisionFree sdk.sha256 EMPTY_TREE_ROOT
      (assemblyInputs sdk c.world.past acc))
    (hassemble : assemble sdk codec (c.world.state.burns ids) acc rejected = some (.ok assembled))
    {batch : Batch} (hbatch : batch ∈ c.world.state.proofCandidates
      (assembled.leaves.map fun l => hex32 l.nullifier) (hex32 assembled.publicValues.spentRootOld))
    {bundle : BatchBundle} (hbundle : batch.bundle = some bundle) : bundle.States assembled := by
  have hs := reach_sound h
  obtain ⟨hindexed, hflight⟩ := Sound.ledger hs
  obtain ⟨b, hget, -, hroot, -⟩ := Ledger.of_mem_proofCandidates hbatch
  obtain ⟨earlier, ⟨ledger, burns, acc', rejected', hheard, hburns, hmade⟩, hsameRoot, hstates⟩ :=
    hs.backed hprover b batch bundle _ hget hbundle hroot
  -- the burns of both assemblies are the ledger's
  have hholds : c.world.state.HoldsBurns burns := by
    intro burn hburn
    obtain ⟨id, r, hr, rfl⟩ := hburns burn hburn
    obtain ⟨r', hr', hsame⟩ := hs.burn_of_past hheard hr
    exact ⟨id, r', hr', hsame⟩
  have hholds' : c.world.state.HoldsBurns (c.world.state.burns ids) := by
    intro burn hburn
    obtain ⟨id, -, r, hr, hsame⟩ := Ledger.mem_burns.1 hburn
    exact ⟨id, r, hr, hsame⟩
  have hchecked : ∀ {burns : List Burn}, c.world.state.HoldsBurns burns →
      ∀ burn ∈ burns, burn.Checked sdk codec := by
    intro burns hholds burn hburn
    obtain ⟨id, r, hr, rfl⟩ := hholds burn hburn
    exact hindexed.prechecked id r hr
  -- so both bundles say what an assembly of its burns says
  obtain ⟨taken, hsub, hsays⟩ := says_of_assemble (hchecked hholds) hmade
  obtain ⟨taken', hsub', hsays'⟩ := says_of_assemble (hchecked hholds') hassemble
  have hnullifiers := hflight.candidate_nullifiers hbatch hbundle fun nullifier hnullifier => by
    obtain ⟨leaf, -, rfl⟩ := List.mem_map.1 hnullifier
    exact toLowercase_hex32 _
  have hsame : taken.map Burn.nullifier = taken'.map Burn.nullifier := by
    rw [← hsays.nullifiers, ← hsays'.nullifiers, ← hnullifiers, hstates.leaves, List.map_map]
    rfl
  have htaken : c.world.state.HoldsBurns taken := fun burn hburn => hholds burn (hsub hburn)
  have htaken' : c.world.state.HoldsBurns taken' := fun burn hburn => hholds' burn (hsub' hburn)
  -- equal nullifiers mean equal burns, and equal burns on one root mean equal statements
  obtain rfl := hindexed.burns_of_nullifiers htaken htaken' hsame
  obtain ⟨hvalues, hleaves, hrefs⟩ := hsays.unique hsays' (hchecked htaken) (hex32_inj hsameRoot.symm)
    hsha (fun input hinput => .inr ⟨ledger, burns, acc', rejected', .ok (), hheard, hinput⟩)
    Set.subset_union_left
  exact ⟨hvalues ▸ hstates.publicValues, hleaves ▸ hstates.leaves, hrefs ▸ hstates.lockRefs⟩

/-- **Reusing a proof is the same as proving again.** In every state that the service gets into, with a
prover that publishes the public values of its input: whatever bundle `proof_for` returns for the
nullifiers and the old root of a batch that is assembled now, it has the public values, the leaves and
the lock references of this batch; and so has the bundle of every batch that it chooses from. -/
theorem reuse_is_proving {c : ServiceConfig} (h : (service sdk codec retry policy).Reach c)
    (hprover : Publishes sdk codec c.world.past) {ids : List String} {acc : RebuiltAccumulator}
    {rejected : List Rejected} {assembled : Assembled}
    (hsha : SparseMerkle.CollisionFree sdk.sha256 EMPTY_TREE_ROOT
      (assemblyInputs sdk c.world.past acc))
    (hassemble : assemble sdk codec (c.world.state.burns ids) acc rejected = some (.ok assembled)) :
    (∀ bundle, c.world.state.proofFor (assembled.leaves.map fun l => hex32 l.nullifier)
      (hex32 assembled.publicValues.spentRootOld) = some bundle → bundle.States assembled) ∧
    ∀ batch ∈ c.world.state.proofCandidates (assembled.leaves.map fun l => hex32 l.nullifier)
      (hex32 assembled.publicValues.spentRootOld),
      ∀ bundle, batch.bundle = some bundle → bundle.States assembled := by
  refine ⟨fun bundle hproof => ?_, fun batch hbatch bundle hbundle => ?_⟩
  · obtain ⟨batch, hbatch, hbundle⟩ := Ledger.proofFor_mem hproof
    exact candidate_states h hprover hsha hassemble hbatch hbundle
  · exact candidate_states h hprover hsha hassemble hbatch hbundle

end Reuse

/-! ## A submission that is skipped -/

namespace Sample

open Guest.Sample (Coin sdk)
open Wire.Sample (codec)

/-- The submission of the batch is skipped. -/
def skipped (retry : RetryPolicy) (assembled : Assembled) : History :=
  (rebuilt (clean retry assembled) (accOf .new)).heard (.submit (bundleOf batch.id assembled))
    SubmitOutcome.skipped

section Skipped

variable {retry : RetryPolicy} {assembled : Assembled}

/-- **Submission is off**: the batch stays proven. -/
theorem reach_skipped (h : AssemblesTo (accOf .new) [] none assembled) :
    (service sdk codec retry policy).Reach
      (⟨skipped retry assembled, .running (.done (.loop (.collecting false)))⟩ : ServiceConfig) := by
  have hnew : Guest.Sample.word Coin.left.number ∉ (accOf .new).tree.keys := List.not_mem_nil
  have hopen := @not_released batch _ _ _ _ h (accOf .new) hnew
  have hroot := (@chainsOnto_iff batch _ _ _ _ h .new).2 rfl
  have hround : (Orchestrator.proveStage sdk codec retry batch).CanEnd (service sdk codec retry policy)
      (fun w' stage => w' = skipped retry assembled ∧ stage = .done) (forming retry) := by
    refine round (keeps_forming retry) rfl rfl rfl h rules_none ?_
    exact Orchestrator.settleStage_skips hopen hroot rfl ⟨rfl, rfl⟩
  obtain ⟨w', stage, ⟨rfl, rfl⟩, hturns⟩ := Orchestrator.run_goes rfl hround
  exact (reach_forming retry).trans (System.turns_steps hturns)

theorem keeps_skipped : (skipped retry assembled).state.Keeps sdk codec
    (batch.provenWith assembled (proofOf assembled) 0) [proved .whole, proved .left] := by
  have hkeeps := keeps_clean retry assembled
  unfold skipped
  generalize clean retry assembled = w at hkeeps ⊢
  exact hkeeps

/-- The proof of the batch is found again. -/
theorem candidates_skipped : (skipped retry assembled).state.proofCandidates
    (assembled.leaves.map fun l => hex32 l.nullifier) (hex32 assembled.publicValues.spentRootOld) =
      [batch.provenWith assembled (proofOf assembled) 0] := by
  have hstatus : (batch.provenWith assembled (proofOf assembled) 0).status ≠ .settled := by
    simp [Batch.provenWith]
  have hproof : (bundleOf batch.id assembled).hasProof = true := rfl
  refine keeps_skipped.proofCandidates hstatus rfl hproof rfl ?_
  show (assembled.leaves.map LeafHex.from).map _ = _
  rw [List.map_map, List.map_map]
  rfl

theorem proofFor_skipped : (skipped retry assembled).state.proofFor
    (assembled.leaves.map fun l => hex32 l.nullifier) (hex32 assembled.publicValues.spentRootOld) =
      some (bundleOf batch.id assembled) := by
  rw [Ledger.proofFor, candidates_skipped]
  simp [bundleOf, Batch.provenWith]

/-- The prover published what the guest publishes. -/
theorem publishes_skipped (h : AssemblesTo (accOf .new) [] none assembled) :
    Publishes sdk codec (skipped retry assembled).past := by
  have hproofs : proofsOf (skipped retry assembled).past = [(assembled.wire, .ok (proofOf assembled))] :=
    rfl
  intro ledger id wire proof hheard output houtput
  have hmem : (wire, Except.ok proof) ∈ proofsOf (skipped retry assembled).past :=
    List.mem_filterMap.2 ⟨_, hheard, rfl⟩
  rw [hproofs, List.mem_singleton] at hmem
  obtain ⟨rfl, hproof⟩ := Prod.mk.inj hmem
  obtain rfl := Except.ok.inj hproof
  rw [h.accepted] at houtput
  obtain rfl := Except.ok.inj houtput
  rfl

/-- Batches were assembled on the empty tree, and the hash has no collision there. -/
theorem collisionFree_skipped : SparseMerkle.CollisionFree sdk.sha256 EMPTY_TREE_ROOT
    (assemblyInputs sdk (skipped retry assembled).past (accOf .new)) := by
  have haccumulators : accumulatorsOf (skipped retry assembled).past = [accOf .new] := rfl
  have hempty : treeInputs sdk.sha256 (accOf .new).tree ⊆
      Accumulator.treesInputs sdk.sha256 Guest.Sample.nullifiers :=
    Accumulator.treeInputs_subset _ (List.nil_subset _)
  refine Guest.Sample.sha256_collisionFree.mono ?_
  rintro input (hinput | ⟨ledger, burns, acc, rejected, answer, hheard, hinput⟩)
  · exact hempty hinput
  · have hmem : acc ∈ accumulatorsOf (skipped retry assembled).past :=
      List.mem_filterMap.2 ⟨_, hheard, rfl⟩
    rw [haccumulators, List.mem_singleton] at hmem
    subst hmem
    exact hempty hinput

end Skipped

end Sample

/-- A batch of two burns that was proven, and is assembled again on the same root. -/
theorem reuse_is_proving_sample :
    ∃ (w : History) (assembled : Assembled) (bundle : BatchBundle),
      assemble Guest.Sample.sdk Wire.Sample.codec (w.state.burns Sample.members) (Sample.accOf .new) [] =
        some (.ok assembled) ∧
      w.state.proofFor (assembled.leaves.map fun l => hex32 l.nullifier)
        (hex32 assembled.publicValues.spentRootOld) = some bundle ∧
      bundle.States assembled := by
  obtain ⟨assembled, hassembles⟩ := Sample.assembles_clean
  have hkeeps := @Sample.keeps_skipped ⟨1, 1, 1⟩ assembled
  have hassemble : assemble Guest.Sample.sdk Wire.Sample.codec
      ((Sample.skipped ⟨1, 1, 1⟩ assembled).state.burns Sample.members) (Sample.accOf .new) [] =
        some (.ok assembled) := by
    have hburns := hkeeps.burns
    rw [List.map_cons, List.map_singleton] at hburns
    have hmembers : (Sample.batch.provenWith assembled (Sample.proofOf assembled) 0).members =
        Sample.members := rfl
    rw [hmembers] at hburns
    rw [hburns]
    exact hassembles.result
  have hproof := @Sample.proofFor_skipped ⟨1, 1, 1⟩ assembled
  obtain ⟨hreused, -⟩ := reuse_is_proving (Sample.reach_skipped hassembles)
    (Sample.publishes_skipped hassembles) Sample.collisionFree_skipped hassemble
  exact ⟨_, assembled, _, hassemble, hproof, hreused _ hproof⟩

end UnicityBridge.Service
