import UnicityBridge.GuestSound
import UnicityBridge.Service.Intake

/-!
# Merging preserves acceptance

A batch that the policy forms from prechecked burns assembles: the members that are spent or rejected
are excluded, and the others make one input that the guest accepts. The fold over the members is
followed by what it has merged so far (`merged`).
-/

set_option autoImplicit false

namespace UnicityBridge.Service

open UnicityBridge.Lib
open UnicityBridge.Core (PublicValues ReturnLeaf SourceLockRef nonces)
open UnicityBridge.Guest (GuestInput BridgeBurnWitness)
open UnicityBridge.Settlement (RebuiltAccumulator)

/-! ## Members -/

/-- A burn with its decoded input, accepted alone under a bridge configuration. -/
structure Member (sdk : TokenSdk.Sdk) (codec : Wire.Codec) (config : Core.BridgeConfig) where
  burn : Burn
  input : GuestInput
  leaf : ReturnLeaf
  prechecked : Prechecked sdk codec burn input leaf
  config_eq : input.config = config

namespace Member

variable {sdk : TokenSdk.Sdk} {codec : Wire.Codec} {config : Core.BridgeConfig}

theorem lockNonces_eq (m : Member sdk codec config) :
    m.burn.lockNonces = m.input.sortedLockRefs.map SourceLockRef.nonce := by
  rw [m.prechecked.summary]
  rfl

theorem trustBaseHash_eq (m : Member sdk codec config) :
    m.burn.trustBaseHash = hex32 m.input.publicValues.trustBaseHash := by
  rw [m.prechecked.summary]
  rfl

/-- The public values of a member fix its configuration and its sorted lock references. -/
theorem validated (m : Member sdk codec config) :
    m.input.publicValues.domainTag = Core.domainTag sdk.keccak256 ∧
      m.input.publicValues.configHash = Core.configHash sdk.keccak256 config ∧
      (nonces m.input.sortedLockRefs).Pairwise (· < ·) := by
  obtain ⟨hpublic, -⟩ := (Guest.execute_eq_ok sdk).1 m.prechecked.accepted
  obtain ⟨htag, hconfig, -, hnonces, -⟩ := (Core.validatePublicValues_eq_ok sdk.keccak256).1 hpublic
  exact ⟨htag, by rw [hconfig, m.config_eq], hnonces⟩

/-- A member has one burn, which is accepted against its leaf and its lock references. -/
theorem exists_burn (m : Member sdk codec config) :
    ∃ burn, m.input.witness.bridgeBurns = [burn] ∧
      Guest.validateBridgeBurns sdk config m.input.publicValues.trustBaseHash [m.leaf]
        m.input.sortedLockRefs [burn] = .ok () := by
  obtain ⟨-, -, hburns, -⟩ := (Guest.execute_eq_ok sdk).1 m.prechecked.accepted
  rw [m.prechecked.leaves, m.config_eq] at hburns
  have hlength : m.input.witness.bridgeBurns.length = [m.leaf].length := by
    simp only [Guest.validateBridgeBurns, bind_eq_ok, ensure_eq_ok] at hburns
    exact hburns.choose_spec.1.2
  obtain ⟨burn, hburn⟩ := List.length_eq_one_iff.1 hlength
  exact ⟨burn, hburn, hburn ▸ hburns⟩

/-- The part of a member in a merged batch. -/
noncomputable def part (m : Member sdk codec config) : Guest.Part :=
  ⟨m.exists_burn.choose, m.leaf, m.input.sortedLockRefs⟩

theorem bridgeBurns_eq (m : Member sdk codec config) :
    m.input.witness.bridgeBurns = [m.part.burn] := m.exists_burn.choose_spec.1

theorem part_accepted (m : Member sdk codec config) :
    Guest.validateBridgeBurns sdk config m.input.publicValues.trustBaseHash [m.part.leaf]
      m.part.refs [m.part.burn] = .ok () := m.exists_burn.choose_spec.2

/-- Why a member is excluded: the simulation's verdict first, then the accumulator's. -/
def verdict (acc : RebuiltAccumulator) (rejected : List Rejected) (m : Member sdk codec config) :
    Option Exclusion :=
  (rejection rejected m.burn).or (alreadySpent sdk acc m.input.returnLeaves)

end Member

/-! ## The fold over the members -/

section Fold

variable {sdk : TokenSdk.Sdk} {codec : Wire.Codec} {config : Core.BridgeConfig}

/-- The merge of these members, with these exclusions. -/
def merged (kept : List (Member sdk codec config)) (excluded : List (String × Exclusion)) : Merge where
  template := kept.head?.map fun m => (m.input.config, m.input.publicValues)
  taken := kept.flatMap fun m => m.input.sortedLockRefs.map SourceLockRef.nonce
  leaves := kept.map Member.leaf
  lockRefs := kept.flatMap fun m => m.input.sortedLockRefs
  burns := kept.flatMap fun m => m.input.witness.bridgeBurns
  kept := kept.map fun m => m.burn.id
  excluded := excluded

/-- Members whose burns go together. -/
def MembersTogether (members : List (Member sdk codec config)) : Prop :=
  BatchPolicy.Together (members.map Member.burn)

theorem MembersTogether.trustBase {members : List (Member sdk codec config)}
    (h : MembersTogether members) {a b : Member sdk codec config} (ha : a ∈ members)
    (hb : b ∈ members) :
    a.input.publicValues.trustBaseHash = b.input.publicValues.trustBaseHash := by
  have htrust := BatchPolicy.Together.trustBase h _ (List.mem_map_of_mem ha) _ (List.mem_map_of_mem hb)
  rw [a.trustBaseHash_eq, b.trustBaseHash_eq] at htrust
  exact hex32_inj htrust

theorem MembersTogether.sublist {members kept : List (Member sdk codec config)}
    (h : MembersTogether members) (hsub : kept.Sublist members) : MembersTogether kept where
  trustBase := fun a ha b hb =>
    BatchPolicy.Together.trustBase h a ((hsub.map _).subset ha) b ((hsub.map _).subset hb)
  disjoint := (BatchPolicy.Together.disjoint h).sublist (hsub.map _)

theorem take_merged (kept : List (Member sdk codec config)) (excluded : List (String × Exclusion))
    (m : Member sdk codec config) :
    (merged kept excluded).take m.burn m.input = merged (kept ++ [m]) excluded := by
  simp only [merged, Merge.take, Merge.mk.injEq, m.prechecked.leaves]
  refine ⟨?_, by simp, by simp, by simp, by simp, by simp, trivial⟩
  cases kept <;> rfl

/-- A member that goes with the kept ones does not clash with them. -/
theorem clash_merged {kept : List (Member sdk codec config)} {excluded : List (String × Exclusion)}
    {m : Member sdk codec config} (h : MembersTogether (kept ++ [m])) :
    clash m.input (merged kept excluded).template = none := by
  cases kept with
  | nil => rfl
  | cons first rest =>
      have htrust : m.input.publicValues.trustBaseHash = first.input.publicValues.trustBaseHash :=
        h.trustBase (by simp) (by simp)
      simp [merged, clash, m.config_eq, first.config_eq, htrust]

/-- Its locks are not taken. -/
theorem nonces_merged {kept : List (Member sdk codec config)} {excluded : List (String × Exclusion)}
    {m : Member sdk codec config} (h : MembersTogether (kept ++ [m])) :
    (m.input.sortedLockRefs.any fun r => r.nonce ∈ (merged kept excluded).taken) = false := by
  rw [List.any_eq_false]
  intro r hr
  rw [decide_eq_true_iff]
  intro htaken
  obtain ⟨other, hother, hnonce⟩ := List.mem_flatMap.1 htaken
  have hdisjoint := BatchPolicy.Together.disjoint h
  rw [List.map_append, List.pairwise_append] at hdisjoint
  refine hdisjoint.2.2 other.burn (List.mem_map_of_mem hother) m.burn (by simp) r.nonce ?_ ?_
  · rw [other.lockNonces_eq]
    exact hnonce
  · rw [m.lockNonces_eq]
    exact List.mem_map_of_mem hr

/-- **One turn of the loop**: a member without a verdict is merged, any other is excluded with it. -/
theorem mergeStep_merged {kept : List (Member sdk codec config)}
    {excluded : List (String × Exclusion)} {m : Member sdk codec config}
    (h : MembersTogether (kept ++ [m])) (acc : RebuiltAccumulator) (rejected : List Rejected) :
    mergeStep sdk codec acc rejected (merged kept excluded) m.burn =
      match m.verdict acc rejected with
      | none => merged (kept ++ [m]) excluded
      | some reason => merged kept (excluded ++ [(m.burn.id, reason)]) := by
  simp only [mergeStep, admitBurn, m.prechecked.decodes, clash_merged h, Member.verdict]
  cases hrejection : rejection rejected m.burn with
  | some reason => rfl
  | none =>
      cases hspent : alreadySpent sdk acc m.input.returnLeaves with
      | some reason => rfl
      | none =>
          simp only [nonces_merged h, Bool.false_eq_true, if_false, Option.none_or]
          exact take_merged kept excluded m

/-- The members without a verdict. -/
def keptOf (acc : RebuiltAccumulator) (rejected : List Rejected)
    (members : List (Member sdk codec config)) : List (Member sdk codec config) :=
  members.filter fun m => (m.verdict acc rejected).isNone

/-- The others, with theirs. -/
def excludedOf (acc : RebuiltAccumulator) (rejected : List Rejected)
    (members : List (Member sdk codec config)) : List (String × Exclusion) :=
  members.filterMap fun m => (m.verdict acc rejected).map fun reason => (m.burn.id, reason)

/-- The whole loop, by induction over the members. -/
theorem foldl_mergeStep (acc : RebuiltAccumulator) (rejected : List Rejected)
    {members kept : List (Member sdk codec config)} {excluded : List (String × Exclusion)}
    (h : MembersTogether (kept ++ members)) :
    (members.map Member.burn).foldl (mergeStep sdk codec acc rejected) (merged kept excluded) =
      merged (kept ++ keptOf acc rejected members) (excluded ++ excludedOf acc rejected members) := by
  induction members generalizing kept excluded with
  | nil => simp [keptOf, excludedOf]
  | cons m rest ih =>
      have hm : MembersTogether (kept ++ [m]) := h.sublist (by simp)
      rw [List.map_cons, List.foldl_cons, mergeStep_merged hm]
      cases hverdict : m.verdict acc rejected with
      | none =>
          have hnext : MembersTogether ((kept ++ [m]) ++ rest) := by
            rwa [List.append_assoc]
          simp only [keptOf, excludedOf] at ih ⊢
          rw [ih hnext]
          simp [hverdict]
      | some reason =>
          have hnext : MembersTogether (kept ++ rest) := h.sublist (by simp)
          simp only [keptOf, excludedOf] at ih ⊢
          rw [ih hnext]
          simp [hverdict]

/-! ## The merged input -/

variable (codec) in
/-- The input that `assemble` builds from the kept members, on top of a transition. -/
def mergedInput (kept : List (Member sdk codec config)) (template : PublicValues)
    (next : Settlement.NextBatch) (root : Bytes32) (h : (kept.map Member.leaf).length < 2 ^ 32) :
    GuestInput where
  config := config
  publicValues := mergedValues sdk template next (kept.map Member.leaf) root
  returnLeaves := kept.map Member.leaf
  sortedLockRefs := Guest.sortByNonce (kept.flatMap fun m => m.input.sortedLockRefs)
  witness := {
    accumulatorWitnesses := next.witnesses
    bridgeBurns := kept.flatMap fun m => m.input.witness.bridgeBurns }
  leaves_lt := h

/-- No lock is used twice among the kept members. -/
theorem refs_disjoint {kept : List (Member sdk codec config)} (h : MembersTogether kept) :
    (kept.flatMap fun m => m.input.sortedLockRefs).Pairwise fun a b => a.nonce ≠ b.nonce := by
  rw [List.pairwise_flatMap]
  constructor
  · intro m _
    have hrising := Guest.nonces_pairwise_iff.1 m.validated.2.2
    refine hrising.imp ?_
    intro a b hlt heq
    rw [heq] at hlt
    exact UInt64.lt_irrefl _ hlt
  · have hdisjoint := List.pairwise_map.1 (BatchPolicy.Together.disjoint h)
    refine hdisjoint.imp fun {a b} hab r hr r' hr' heq => ?_
    refine hab r.nonce ?_ ?_
    · rw [a.lockNonces_eq]
      exact List.mem_map_of_mem hr
    · rw [b.lockNonces_eq, heq]
      exact List.mem_map_of_mem hr'

theorem sortedRefs_pairwise {kept : List (Member sdk codec config)} (h : MembersTogether kept) :
    (nonces (Guest.sortByNonce (kept.flatMap fun m => m.input.sortedLockRefs))).Pairwise (· < ·) :=
  Guest.nonces_pairwise_iff.2 (Guest.sortByNonce_pairwise (refs_disjoint h))

/-- The burns of the kept members are accepted together. -/
theorem merged_burns {first : Member sdk codec config} {rest : List (Member sdk codec config)}
    (h : MembersTogether (first :: rest)) :
    Guest.validateBridgeBurns sdk config first.input.publicValues.trustBaseHash
      ((first :: rest).map Member.leaf)
      (Guest.sortByNonce ((first :: rest).flatMap fun m => m.input.sortedLockRefs))
      ((first :: rest).flatMap fun m => m.input.witness.bridgeBurns) = .ok () := by
  have hburns : ((first :: rest).flatMap fun m => m.input.witness.bridgeBurns) =
      ((first :: rest).map Member.part).map Guest.Part.burn := by
    rw [List.map_map, List.map_eq_flatMap]
    exact List.flatMap_congr fun m _ => m.bridgeBurns_eq
  have hrefs : ((first :: rest).map Member.part).flatMap Guest.Part.refs =
      (first :: rest).flatMap fun m => m.input.sortedLockRefs := by
    rw [List.flatMap_map]
    rfl
  have hleaves : ((first :: rest).map Member.part).map Guest.Part.leaf =
      (first :: rest).map Member.leaf := by
    rw [List.map_map]
    rfl
  rw [hburns, ← hrefs, ← hleaves]
  refine Guest.validateBridgeBurns_merge (by simp) ?_ ?_
  · intro part hpart
    obtain ⟨m, hm, rfl⟩ := List.mem_map.1 hpart
    rw [h.trustBase List.mem_cons_self hm]
    exact m.part_accepted
  · rw [hrefs]
    exact refs_disjoint h

/-- **The merged input is accepted by the guest.** -/
theorem execute_merged {first : Member sdk codec config} {rest : List (Member sdk codec config)}
    (h : MembersTogether (first :: rest)) {next : Settlement.NextBatch}
    (hlength : next.witnesses.length = ((first :: rest).map Member.leaf).length)
    (hfold : ((((first :: rest).map Member.leaf).map ReturnLeaf.nullifier).zip
      next.witnesses).foldlM (fun root p => Accumulator.insert sdk.sha256 root p.1 p.2)
        next.spentRootOld = some next.spentRootNew)
    {root : Bytes32} (hroot : Core.lockRefRoot sdk.keccak256
      (Guest.sortByNonce ((first :: rest).flatMap fun m => m.input.sortedLockRefs)) = .ok root)
    (hcount : ((first :: rest).map Member.leaf).length < 2 ^ 32) :
    Guest.execute sdk (mergedInput codec (first :: rest) first.input.publicValues next root hcount) =
      .ok (mergedInput codec (first :: rest) first.input.publicValues next root
        hcount).publicValues := by
  obtain ⟨htag, hconfig, -⟩ := first.validated
  obtain ⟨hnonces, rfl⟩ := (Core.lockRefRoot_eq_ok sdk.keccak256).1 hroot
  refine (Guest.execute_eq_ok sdk).2 ⟨?_, ?_, merged_burns h, rfl⟩
  · exact (Core.validatePublicValues_eq_ok sdk.keccak256).2
      ⟨htag, hconfig, rfl, hnonces, rfl, rfl, rfl⟩
  · refine (Guest.validateAccumulatorTransition_ok sdk).2 ⟨hlength.symm, ?_⟩
    exact Guest.foldlM_insertLeaf_eq_ok.2 hfold

/-- What an assembly of these members returns: an input that the guest accepts from its bytes, with the
leaves and the lock references of the members, on the accumulator's root. -/
structure Assembles (acc : RebuiltAccumulator) (kept : List (Member sdk codec config))
    (excluded : List (String × Exclusion)) (assembled : Assembled) (input : GuestInput) : Prop where
  decodes : Wire.decodeGuestInput sdk codec assembled.wire = .ok input
  accepted : Guest.execute sdk input = .ok input.publicValues
  publicValues : assembled.publicValues = input.publicValues
  leaves : assembled.leaves = kept.map Member.leaf
  returnLeaves : input.returnLeaves = assembled.leaves
  lockRefs : assembled.lockRefs =
    Guest.sortByNonce (kept.flatMap fun m => m.input.sortedLockRefs)
  sortedLockRefs : input.sortedLockRefs = assembled.lockRefs
  config : input.config = config
  spentRootOld : input.publicValues.spentRootOld = acc.tree.root sdk.sha256
  trustBaseHash : ∀ m ∈ kept, m.input.publicValues.trustBaseHash = input.publicValues.trustBaseHash
  kept : assembled.kept = kept.map fun m => m.burn.id
  excluded : assembled.excluded = excluded

/-- The parts of the merged input can be written and read back. -/
theorem inputFits_merged (hcodec : codec.Canonical) {kept : List (Member sdk codec config)}
    {template : PublicValues} {next : Settlement.NextBatch} {root : Bytes32}
    {hcount : (kept.map Member.leaf).length < 2 ^ 32}
    (hrefs : (kept.flatMap fun m => m.input.sortedLockRefs).length < 2 ^ 32)
    (hwitnesses : next.witnesses.length = (kept.map Member.leaf).length)
    (hsteps : ∀ witness ∈ next.witnesses, witness.steps.length ≤ 256) :
    Wire.InputFits sdk codec (mergedInput codec kept template next root hcount) where
  lockRefs := by
    rw [mergedInput, (Guest.sortByNonce_perm _).length_eq]
    exact hrefs
  witnesses := hwitnesses ▸ hcount
  steps := fun witness hwitness => lt_of_le_of_lt (hsteps witness hwitness) (by decide)
  burns := by
    have hone : ∀ m ∈ kept, (m.input.witness.bridgeBurns).length = 1 := fun m _ => by
      rw [m.bridgeBurns_eq]
      rfl
    rw [mergedInput, List.length_flatMap, List.map_congr_left hone]
    simpa using hcount
  burn := by
    intro burn hburn
    obtain ⟨m, -, hm⟩ := List.mem_flatMap.1 hburn
    exact Wire.burnFits_of_decode hcodec m.prechecked.decodes burn hm

/-- **Kept members assemble.** Their nullifiers are new and distinct, no lock is used twice, and the
counts fit the wire. -/
theorem assembleMerged_ok (hcodec : codec.Canonical) {first : Member sdk codec config}
    {rest : List (Member sdk codec config)} (h : MembersTogether (first :: rest))
    {acc : RebuiltAccumulator}
    (hnodup : ((first :: rest).map fun m => m.leaf.nullifier).Nodup)
    (hnew : ∀ m ∈ first :: rest, m.leaf.nullifier ∉ acc.tree.keys)
    (hcount : (first :: rest).length < 2 ^ 32)
    (hrefs : ((first :: rest).flatMap fun m => m.input.sortedLockRefs).length < 2 ^ 32)
    (excluded : List (String × Exclusion)) :
    ∃ assembled input,
      assembleMerged sdk codec acc (merged (first :: rest) excluded) config
        first.input.publicValues = some (.ok assembled) ∧
      Assembles acc (first :: rest) excluded assembled input := by
  have hmap : ((first :: rest).map Member.leaf).map ReturnLeaf.nullifier =
      (first :: rest).map fun m => m.leaf.nullifier := List.map_map
  have hne : ((first :: rest).map Member.leaf).map ReturnLeaf.nullifier ≠ [] := by simp
  have habsent : ∀ key ∈ ((first :: rest).map Member.leaf).map ReturnLeaf.nullifier,
      key ∉ acc.tree.keys := by
    rw [hmap]
    intro key hkey
    obtain ⟨m, hm, rfl⟩ := List.mem_map.1 hkey
    exact hnew m hm
  -- the witnesses for the new leaves on the rebuilt tree
  obtain ⟨next, hnext, hold, hwitnesses, hsteps, hfold⟩ :=
    Settlement.nextBatch_ok sdk.sha256 hne (hmap ▸ hnodup) habsent
  rw [List.length_map] at hwitnesses
  obtain ⟨root, hroot⟩ : ∃ root, Core.lockRefRoot sdk.keccak256
      (Guest.sortByNonce ((first :: rest).flatMap fun m => m.input.sortedLockRefs)) = .ok root :=
    ⟨_, (Core.lockRefRoot_eq_ok sdk.keccak256).2 ⟨sortedRefs_pairwise h, rfl⟩⟩
  have hlt : ((first :: rest).map Member.leaf).length < 2 ^ 32 := by
    rw [List.length_map]
    exact hcount
  -- the merged input runs, fits its wire format and so passes the precheck
  have hexecute := execute_merged h hwitnesses hfold hroot hlt
  have hfits : Wire.InputFits sdk codec
      (mergedInput codec (first :: rest) first.input.publicValues next root hlt) :=
    inputFits_merged hcodec hrefs hwitnesses hsteps
  obtain ⟨wire, hencode, hdecode⟩ := Wire.decode_encode hfits
  obtain ⟨report, hreport⟩ := Precheck.precheck_ok hexecute hencode hdecode
  have hprecheck : Precheck.precheckWire sdk codec wire = some (.ok report) := by
    rw [Precheck.precheckWire, hdecode]
    exact hreport
  refine ⟨⟨wire, mergedValues sdk first.input.publicValues next ((first :: rest).map Member.leaf) root,
    (first :: rest).map Member.leaf,
    Guest.sortByNonce ((first :: rest).flatMap fun m => m.input.sortedLockRefs),
    (first :: rest).map fun m => m.burn.id, excluded⟩,
    mergedInput codec (first :: rest) first.input.publicValues next root hlt, ?_, ?_⟩
  · have hfinish : finish sdk codec (merged (first :: rest) excluded)
        (mergedInput codec (first :: rest) first.input.publicValues next root hlt) =
          some (.ok ⟨wire, mergedValues sdk first.input.publicValues next
            ((first :: rest).map Member.leaf) root, (first :: rest).map Member.leaf,
            Guest.sortByNonce ((first :: rest).flatMap fun m => m.input.sortedLockRefs),
            (first :: rest).map fun m => m.burn.id, excluded⟩) := by
      rw [finish, hencode]
      simp only [hprecheck, Option.map_some]
      rfl
    simp only [assembleMerged, merged] at hfinish ⊢
    simp only [hnext, hroot]
    exact (dif_pos hlt).trans hfinish
  · exact ⟨hdecode, hexecute, rfl, rfl, rfl, rfl, rfl, rfl, hold,
      fun m hm => h.trustBase hm List.mem_cons_self, rfl, rfl⟩

end Fold

end UnicityBridge.Service
