import UnicityBridge.Service.Assembly

/-!
# What assembly makes of each burn

Assembly takes each burn or excludes it for a reason, in order. This is read off the loop for any
burns, also for those that a policy would not put together: a rebased batch is assembled again from all
of its members.
-/

set_option autoImplicit false

namespace UnicityBridge.Service

open UnicityBridge.Lib
open UnicityBridge.Core (PublicValues ReturnLeaf SourceLockRef)
open UnicityBridge.Guest (GuestInput)
open UnicityBridge.Settlement (RebuiltAccumulator)

variable {sdk : TokenSdk.Sdk} {codec : Wire.Codec}

/-! ## The loop over members -/

/-- A burn, with the reason it was excluded for. -/
abbrev Mark := Burn × Option Exclusion

/-- The burn's input decodes to this, and agrees with the batch it joined. -/
def Agrees (sdk : TokenSdk.Sdk) (codec : Wire.Codec) (burn : Burn)
    (template : Option (Core.BridgeConfig × PublicValues)) : Prop :=
  ∃ input config values, Wire.decodeGuestInput sdk codec burn.wireInput = .ok input ∧
    template = some (config, values) ∧ input.config = config ∧
      input.publicValues.trustBaseHash = values.trustBaseHash

/-- What the loop has gathered from burns with these marks. -/
structure Merge.Marked (sdk : TokenSdk.Sdk) (codec : Wire.Codec) (merge : Merge)
    (marks : List Mark) : Prop where
  leaves : merge.leaves =
    (marks.filter fun m => m.2.isNone).flatMap fun m => m.1.returnLeaves sdk codec
  lockRefs : merge.lockRefs =
    (marks.filter fun m => m.2.isNone).flatMap fun m => m.1.lockRefs sdk codec
  excluded : merge.excluded = marks.filterMap fun m => m.2.map fun reason => (m.1.id, reason)
  unconfirmed : ∀ m ∈ marks, ∀ txid, m.2 ≠ some (.alreadySettled txid none)
  agree : ∀ m ∈ marks, m.2 = none → Agrees sdk codec m.1 merge.template
  template : ∀ config values, merge.template = some (config, values) →
    ∃ m ∈ marks, m.2 = none ∧ ∃ input, Wire.decodeGuestInput sdk codec m.1.wireInput = .ok input ∧
      input.config = config ∧ input.publicValues = values

/-- What a burn is excluded for is no confirmed release. -/
theorem admitBurn_error {burn : Burn} {acc : RebuiltAccumulator} {rejected : List Rejected}
    {merge : Merge} {reason : Exclusion}
    (h : admitBurn sdk codec burn acc rejected merge = .error reason) (txid : Option String) :
    reason ≠ .alreadySettled txid none := by
  rintro rfl
  unfold admitBurn at h
  split at h
  · cases h
  · split at h
    · next hclash =>
      obtain rfl := Except.error.inj h
      unfold clash at hclash
      split at hclash
      · cases hclash
      · split at hclash
        · cases hclash
        · split at hclash <;> cases hclash
    · split at h
      · next hrejection =>
        obtain rfl := Except.error.inj h
        rw [rejection, Option.map_eq_some_iff] at hrejection
        obtain ⟨r, -, hr⟩ := hrejection
        split at hr <;> cases hr
      · split at h
        · next hspent =>
          obtain rfl := Except.error.inj h
          rw [alreadySpent, Option.map_eq_some_iff] at hspent
          obtain ⟨spent, -, hreleased⟩ := hspent
          cases hreleased
        · split at h <;> cases h

/-- A burn that is taken decodes and agrees with the batch so far. -/
theorem admitBurn_ok {burn : Burn} {acc : RebuiltAccumulator} {rejected : List Rejected}
    {merge : Merge} {input : GuestInput}
    (h : admitBurn sdk codec burn acc rejected merge = .ok input) :
    Wire.decodeGuestInput sdk codec burn.wireInput = .ok input ∧
      ∀ config values, merge.template = some (config, values) →
        input.config = config ∧ input.publicValues.trustBaseHash = values.trustBaseHash := by
  unfold admitBurn at h
  split at h
  · cases h
  · next decoded hdecode =>
    split at h
    · cases h
    · next hclash =>
      split at h
      · cases h
      · split at h
        · cases h
        · split at h
          · cases h
          · obtain rfl := Except.ok.inj h
            refine ⟨hdecode, fun config values htemplate => ?_⟩
            rw [htemplate, clash] at hclash
            split at hclash
            · cases hclash
            · next hconfig =>
              split at hclash
              · cases hclash
              · next htrust => exact ⟨not_not.1 hconfig, not_not.1 htrust⟩

theorem Agrees.or {burn : Burn} {template later : Option (Core.BridgeConfig × PublicValues)}
    (h : Agrees sdk codec burn template) : Agrees sdk codec burn (template.or later) := by
  obtain ⟨input, config, values, hdecode, rfl, hagree⟩ := h
  exact ⟨input, config, values, hdecode, rfl, hagree⟩

/-- One turn of the loop marks one burn. -/
theorem Merge.Marked.step {merge : Merge} {marks : List Mark}
    (h : merge.Marked sdk codec marks) (acc : RebuiltAccumulator) (rejected : List Rejected)
    (burn : Burn) :
    ∃ mark, (mergeStep sdk codec acc rejected merge burn).Marked sdk codec (marks ++ [(burn, mark)]) := by
  unfold mergeStep
  cases hadmit : admitBurn sdk codec burn acc rejected merge with
  | ok input =>
      obtain ⟨hdecode, htemplate⟩ := admitBurn_ok hadmit
      refine ⟨none, ?_, ?_, ?_, ?_, ?_, ?_⟩
      · simp [take, h.leaves, Burn.returnLeaves, hdecode]
      · simp [take, h.lockRefs, Burn.lockRefs, hdecode]
      · simp [take, h.excluded]
      · intro m hm txid
        rcases List.mem_append.1 hm with hm | hm
        · exact h.unconfirmed m hm txid
        · obtain rfl := List.mem_singleton.1 hm
          exact fun hnone => by cases hnone
      · intro m hm hnone
        rcases List.mem_append.1 hm with hm | hm
        · exact (h.agree m hm hnone).or
        · obtain rfl := List.mem_singleton.1 hm
          -- the first burn is the template, a later one agrees with it
          cases hmerge : merge.template with
          | none => exact ⟨input, _, _, hdecode, by simp [take, hmerge], rfl, rfl⟩
          | some template =>
              obtain ⟨config, values⟩ := template
              exact ⟨input, config, values, hdecode, by simp [take, hmerge], htemplate _ _ hmerge⟩
      · intro config values hvalues
        cases hmerge : merge.template with
        | none =>
            simp only [take, hmerge, Option.none_or, Option.some.injEq, Prod.mk.injEq] at hvalues
            exact ⟨(burn, none), by simp, rfl, input, hdecode, hvalues⟩
        | some template =>
            simp only [take, hmerge, Option.some_or] at hvalues
            obtain ⟨m, hm, hrest⟩ := h.template config values (hmerge.trans hvalues)
            exact ⟨m, List.mem_append_left _ hm, hrest⟩
  | error reason =>
      refine ⟨some reason, ?_, ?_, ?_, ?_, ?_, ?_⟩
      · simp [exclude, h.leaves]
      · simp [exclude, h.lockRefs]
      · simp [exclude, h.excluded]
      · intro m hm txid
        rcases List.mem_append.1 hm with hm | hm
        · exact h.unconfirmed m hm txid
        · obtain rfl := List.mem_singleton.1 hm
          exact fun hsome => admitBurn_error hadmit txid (Option.some.inj hsome)
      · intro m hm hnone
        rcases List.mem_append.1 hm with hm | hm
        · exact h.agree m hm hnone
        · obtain rfl := List.mem_singleton.1 hm
          cases hnone
      · intro config values hvalues
        obtain ⟨m, hm, hrest⟩ := h.template config values hvalues
        exact ⟨m, List.mem_append_left _ hm, hrest⟩

/-- **The loop marks every burn**, in order. -/
theorem foldl_marked (acc : RebuiltAccumulator) (rejected : List Rejected) (burns : List Burn) :
    ∃ marks : List Mark, marks.map Prod.fst = burns ∧
      (burns.foldl (mergeStep sdk codec acc rejected) Merge.empty).Marked sdk codec marks := by
  -- by induction over the burns, the last one last
  induction burns using List.reverseRecOn with
  | nil =>
      refine ⟨[], rfl, rfl, rfl, rfl, ?_, ?_, ?_⟩
      · intro m hm
        cases hm
      · intro m hm
        cases hm
      · intro config values hvalues
        cases hvalues
  | append_singleton burns burn ih =>
      obtain ⟨marks, rfl, hmarked⟩ := ih
      obtain ⟨mark, hstep⟩ := hmarked.step acc rejected burn
      refine ⟨marks ++ [(burn, mark)], by simp, ?_⟩
      rw [List.foldl_append]
      exact hstep

/-! ## Prechecked burns -/

/-- The burn has passed its precheck. -/
def Burn.Checked (sdk : TokenSdk.Sdk) (codec : Wire.Codec) (burn : Burn) : Prop :=
  ∃ input leaf, Prechecked sdk codec burn input leaf

theorem Burn.Checked.returnLeaves {burn : Burn} (h : burn.Checked sdk codec) :
    ∃ leaf : ReturnLeaf, burn.returnLeaves sdk codec = [leaf] ∧ burn.nullifier = hex32 leaf.nullifier := by
  obtain ⟨input, leaf, hburn⟩ := h
  refine ⟨leaf, ?_, hburn.nullifier⟩
  rw [Burn.returnLeaves, hburn.decodes]
  exact hburn.leaves

/-- The leaves are those of the burns that were taken. -/
theorem Merge.Marked.nullifiers {merge : Merge} {marks : List Mark} (h : merge.Marked sdk codec marks)
    (hchecked : ∀ m ∈ marks, m.1.Checked sdk codec) :
    merge.leaves.map (fun l => hex32 l.nullifier) =
      (marks.filter fun m => m.2.isNone).map fun m => m.1.nullifier := by
  rw [h.leaves, List.map_flatMap, List.map_eq_flatMap]
  refine List.flatMap_congr fun m hm => ?_
  obtain ⟨leaf, hleaf, hnullifier⟩ := (hchecked m (List.mem_of_mem_filter hm)).returnLeaves
  rw [hleaf, hnullifier]
  rfl

/-! ## What an assembly returns -/

/-- The input that an assembled batch writes, with the transition it makes. -/
structure AssembledFrom (sdk : TokenSdk.Sdk) (codec : Wire.Codec) (acc : RebuiltAccumulator)
    (merge : Merge) (assembled : Assembled) : Prop where
  leaves : assembled.leaves = merge.leaves
  lockRefs : assembled.lockRefs = Guest.sortByNonce merge.lockRefs
  excluded : assembled.excluded = merge.excluded
  values : ∃ config template next lockRefRoot,
    merge.template = some (config, template) ∧
      Settlement.nextBatch sdk.sha256 acc (merge.leaves.map ReturnLeaf.nullifier) = .ok next ∧
      Core.lockRefRoot sdk.keccak256 (Guest.sortByNonce merge.lockRefs) = .ok lockRefRoot ∧
      assembled.publicValues = mergedValues sdk template next merge.leaves lockRefRoot ∧
      ∃ input : GuestInput, Wire.encodeGuestInput codec input = some assembled.wire ∧
        input.config = config ∧ input.publicValues = assembled.publicValues ∧
        input.returnLeaves = assembled.leaves ∧ input.sortedLockRefs = assembled.lockRefs

theorem finish_eq_ok {merge : Merge} {input : GuestInput} {assembled : Assembled}
    (h : finish sdk codec merge input = some (.ok assembled)) :
    Wire.encodeGuestInput codec input = some assembled.wire ∧
      assembled.publicValues = input.publicValues ∧ assembled.leaves = input.returnLeaves ∧
      assembled.lockRefs = input.sortedLockRefs ∧ assembled.excluded = merge.excluded ∧
      ∃ report, Precheck.precheckWire sdk codec assembled.wire = some (.ok report) := by
  unfold finish at h
  split at h
  · cases h
  · next wire hwire =>
    obtain ⟨result, hprecheck, hresult⟩ := Option.map_eq_some_iff.1 h
    cases result with
    | error e => cases hresult
    | ok report =>
        obtain rfl := Except.ok.inj hresult
        exact ⟨hwire, rfl, rfl, rfl, rfl, report, hprecheck⟩

theorem assemble_eq_ok {burns : List Burn} {acc : RebuiltAccumulator} {rejected : List Rejected}
    {assembled : Assembled} (h : assemble sdk codec burns acc rejected = some (.ok assembled)) :
    AssembledFrom sdk codec acc (burns.foldl (mergeStep sdk codec acc rejected) Merge.empty)
      assembled := by
  unfold assemble at h
  simp only at h
  split at h
  · cases h
  · next config template htemplate =>
    unfold assembleMerged at h
    simp only at h
    split at h
    · cases h
    · next next hnext =>
      split at h
      · cases h
      · next root hroot =>
        split at h
        · obtain ⟨hwire, hvalues, hleaves, hrefs, hexcluded, -⟩ := finish_eq_ok h
          exact ⟨hleaves, hrefs, hexcluded, config, template, next, root, htemplate, hnext, hroot,
            hvalues, _, hwire, rfl, hvalues.symm, hleaves.symm, hrefs.symm⟩
        · cases h

/-- **What is assembled the guest accepts**, and publishes the public values of the assembly. -/
theorem assemble_executes {burns : List Burn} {acc : RebuiltAccumulator} {rejected : List Rejected}
    {assembled : Assembled} (h : assemble sdk codec burns acc rejected = some (.ok assembled)) :
    Precheck.executeWire sdk codec assembled.wire =
      .ok (Precheck.publicOutput sdk assembled.publicValues) := by
  obtain ⟨-, -, -, _, _, _, _, -, -, -, -, input, hencode, -, hvalues, -⟩ := assemble_eq_ok h
  -- the bytes were prechecked
  obtain ⟨report, hreport⟩ : ∃ report,
      Precheck.precheckWire sdk codec assembled.wire = some (.ok report) := by
    unfold assemble at h
    simp only at h
    split at h
    · cases h
    · unfold assembleMerged at h
      simp only at h
      split at h
      · cases h
      · split at h
        · cases h
        · split at h
          · exact (finish_eq_ok h).2.2.2.2.2
          · cases h
  cases hdecode : Wire.decodeGuestInput sdk codec assembled.wire with
  | error e =>
      rw [Precheck.precheckWire, hdecode] at hreport
      cases hreport
  | ok input' =>
      rw [Precheck.precheckWire, hdecode] at hreport
      rw [Precheck.executeWire_eq_ok hdecode]
      refine ⟨(Precheck.execute_of_precheck hreport).1, ?_⟩
      rw [Wire.publicValues_of_decode hencode hdecode, hvalues]

/-- An assembly that excludes every burn. -/
theorem assemble_eq_allExcluded {burns : List Burn} {acc : RebuiltAccumulator}
    {rejected : List Rejected} {excluded : List (String × Exclusion)}
    (h : assemble sdk codec burns acc rejected = some (.error (.allExcluded excluded))) :
    excluded = (burns.foldl (mergeStep sdk codec acc rejected) Merge.empty).excluded := by
  unfold assemble at h
  simp only at h
  split at h
  · exact (AssembleError.allExcluded.inj (Except.error.inj (Option.some.inj h))).symm
  · unfold assembleMerged at h
    simp only at h
    split at h
    · cases h
    · split at h
      · cases h
      · split at h
        · unfold finish at h
          split at h
          · cases h
          · obtain ⟨result, -, hresult⟩ := Option.map_eq_some_iff.1 h
            cases result <;> cases hresult
        · cases h

end UnicityBridge.Service
