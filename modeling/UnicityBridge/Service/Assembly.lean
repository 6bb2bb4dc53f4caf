import UnicityBridge.Service.Merge
import UnicityBridge.WireCodec

/-!
# Assembling what the policy formed

A ledger of the service, a batch that the policy forms from its pending returns, and any later ledger:
the burns of the batch's members are still there, and they assemble.
-/

set_option autoImplicit false

namespace UnicityBridge.Service

open UnicityBridge.Lib
open UnicityBridge.Core (PublicValues ReturnLeaf SourceLockRef)
open UnicityBridge.Guest (GuestInput)
open UnicityBridge.Settlement (RebuiltAccumulator)

section Assembling

variable {sdk : TokenSdk.Sdk} {codec : Wire.Codec} {config : Core.BridgeConfig} {retry : RetryPolicy}

/-! ## What a burn is excluded for -/

namespace Burn

/-- The accumulator holds the burn's nullifier. -/
def Spent (acc : RebuiltAccumulator) (burn : Burn) : Prop :=
  ∃ key ∈ acc.tree.keys, hex32 key = burn.nullifier

/-- The simulation's answer names the burn's nullifier. -/
def Rejected (rejected : List Rejected) (burn : Burn) : Prop :=
  ∃ r ∈ rejected, eqIgnoreAsciiCase r.nullifier burn.nullifier = true

instance (acc : RebuiltAccumulator) (burn : Burn) : Decidable (burn.Spent acc) :=
  inferInstanceAs (Decidable (∃ key ∈ acc.tree.keys, hex32 key = burn.nullifier))

instance (rejected : List Service.Rejected) (burn : Burn) : Decidable (burn.Rejected rejected) :=
  inferInstanceAs (Decidable (∃ r ∈ rejected, eqIgnoreAsciiCase r.nullifier burn.nullifier = true))

/-- The burn stays out of the batch. -/
def excluded (acc : RebuiltAccumulator) (rejected : List Service.Rejected) (burn : Burn) : Bool :=
  decide (burn.Spent acc ∨ burn.Rejected rejected)

/-- The leaves of the stored input. -/
def returnLeaves (sdk : TokenSdk.Sdk) (codec : Wire.Codec) (burn : Burn) : List ReturnLeaf :=
  match Wire.decodeGuestInput sdk codec burn.wireInput with
  | .ok input => input.returnLeaves
  | .error _ => []

/-- The lock references of the stored input. -/
def lockRefs (sdk : TokenSdk.Sdk) (codec : Wire.Codec) (burn : Burn) : List SourceLockRef :=
  match Wire.decodeGuestInput sdk codec burn.wireInput with
  | .ok input => input.sortedLockRefs
  | .error _ => []

end Burn

namespace Member

theorem returnLeaves_eq (m : Member sdk codec config) : m.burn.returnLeaves sdk codec = [m.leaf] := by
  rw [Burn.returnLeaves, m.prechecked.decodes]
  exact m.prechecked.leaves

theorem lockRefs_eq (m : Member sdk codec config) :
    m.burn.lockRefs sdk codec = m.input.sortedLockRefs := by
  rw [Burn.lockRefs, m.prechecked.decodes]

theorem spent_iff (m : Member sdk codec config) (acc : RebuiltAccumulator) :
    m.burn.Spent acc ↔ m.leaf.nullifier ∈ acc.tree.keys := by
  constructor
  · rintro ⟨key, hkey, heq⟩
    rw [m.prechecked.nullifier] at heq
    exact hex32_inj heq ▸ hkey
  · intro hkey
    exact ⟨m.leaf.nullifier, hkey, m.prechecked.nullifier.symm⟩

theorem alreadySpent_eq_none (m : Member sdk codec config) (acc : RebuiltAccumulator) :
    alreadySpent sdk acc m.input.returnLeaves = none ↔ ¬ m.burn.Spent acc := by
  rw [m.spent_iff, m.prechecked.leaves, alreadySpent, Option.map_eq_none_iff, List.find?_eq_none]
  simp [Accumulator.nonMembershipWitness_eq_none]

theorem rejection_eq_none (m : Member sdk codec config) (rejected : List Rejected) :
    rejection rejected m.burn = none ↔ ¬ m.burn.Rejected rejected := by
  rw [rejection, Option.map_eq_none_iff, List.find?_eq_none]
  simp [Burn.Rejected]

/-- **A member has a verdict exactly when it is spent or rejected.** -/
theorem verdict_eq_none (m : Member sdk codec config) (acc : RebuiltAccumulator)
    (rejected : List Rejected) :
    m.verdict acc rejected = none ↔ m.burn.excluded acc rejected = false := by
  rw [verdict, Option.or_eq_none_iff, m.alreadySpent_eq_none, m.rejection_eq_none, Burn.excluded,
    decide_eq_false_iff_not, not_or]
  exact and_comm

/-- A verdict is the simulation's, or that the vault released the burn. -/
theorem verdict_cases {m : Member sdk codec config} {acc : RebuiltAccumulator}
    {rejected : List Rejected} {reason : Exclusion} (h : m.verdict acc rejected = some reason) :
    rejection rejected m.burn = some reason ∨ ∃ txid, reason = .released txid := by
  rw [verdict] at h
  rcases Option.or_eq_some_iff.1 h with hrejection | ⟨-, hspent⟩
  · exact .inl hrejection
  · obtain ⟨spent, -, rfl⟩ := Option.map_eq_some_iff.1 hspent
    exact .inr ⟨_, rfl⟩

end Member

/-! ## What an assembly of burns returns -/

/-- The spent and the rejected burns, in order, each with the simulation's verdict or as released. -/
structure Splits (acc : RebuiltAccumulator) (rejected : List Rejected) (burns : List Burn)
    (excluded : List (String × Exclusion)) : Prop where
  ids : excluded.map Prod.fst = (burns.filter fun b => b.excluded acc rejected).map Burn.id
  reasons : ∀ entry ∈ excluded,
    (∃ b ∈ burns, b.id = entry.1 ∧ rejection rejected b = some entry.2) ∨
      ∃ txid, entry.2 = .released txid

/-- A batch of these burns on top of the accumulator: the guest accepts its bytes, with the burns'
leaves and lock references and the public values that follow from them. -/
structure Carries (sdk : TokenSdk.Sdk) (codec : Wire.Codec) (config : Core.BridgeConfig)
    (acc : RebuiltAccumulator) (burns : List Burn) (assembled : Assembled) : Prop where
  accepted : Precheck.executeWire sdk codec assembled.wire =
    .ok (Precheck.publicOutput sdk assembled.publicValues)
  decodes : ∃ input, Wire.decodeGuestInput sdk codec assembled.wire = .ok input ∧
    input.config = config ∧ input.publicValues = assembled.publicValues ∧
    input.returnLeaves = assembled.leaves ∧ input.sortedLockRefs = assembled.lockRefs
  kept : assembled.kept = burns.map Burn.id
  leaves : assembled.leaves = burns.flatMap (Burn.returnLeaves sdk codec)
  lockRefs : assembled.lockRefs = Guest.sortByNonce (burns.flatMap (Burn.lockRefs sdk codec))
  domainTag : assembled.publicValues.domainTag = Core.domainTag sdk.keccak256
  configHash : assembled.publicValues.configHash = Core.configHash sdk.keccak256 config
  trustBaseHash : ∀ b ∈ burns, b.trustBaseHash = hex32 assembled.publicValues.trustBaseHash
  spentRootOld : assembled.publicValues.spentRootOld = acc.tree.root sdk.sha256
  returnRoot : assembled.publicValues.returnRoot = Core.returnRoot sdk.keccak256 assembled.leaves
  lockRefRoot : Core.lockRefRoot sdk.keccak256 assembled.lockRefs =
    .ok assembled.publicValues.lockRefRoot
  batchSize : assembled.publicValues.batchSize = UInt32.ofNat assembled.leaves.length
  totalAmount : assembled.publicValues.totalAmount = Core.sumAmounts assembled.leaves

theorem Assembles.carries {acc : RebuiltAccumulator} {kept : List (Member sdk codec config)}
    {excluded : List (String × Exclusion)}
    {assembled : Assembled} {input : GuestInput}
    (h : Assembles acc kept excluded assembled input) :
    Carries sdk codec config acc (kept.map Member.burn) assembled := by
  obtain ⟨hpublic, -⟩ := (Guest.execute_eq_ok sdk).1 h.accepted
  obtain ⟨htag, hconfig, hreturn, hnonces, hlock, hsize, htotal⟩ :=
    (Core.validatePublicValues_eq_ok sdk.keccak256).1 hpublic
  rw [h.config] at hconfig
  rw [h.returnLeaves] at hreturn hsize htotal
  rw [h.sortedLockRefs] at hnonces hlock
  rw [← h.publicValues] at htag hconfig hreturn hlock hsize htotal
  constructor
  · rw [h.publicValues]
    exact (Precheck.executeWire_eq_ok h.decodes).2 ⟨h.accepted, rfl⟩
  · exact ⟨input, h.decodes, h.config, h.publicValues.symm, h.returnLeaves, h.sortedLockRefs⟩
  · rw [h.kept, List.map_map]
    rfl
  · rw [h.leaves, List.flatMap_map, List.map_eq_flatMap]
    exact List.flatMap_congr fun m _ => m.returnLeaves_eq.symm
  · rw [h.lockRefs, List.flatMap_map]
    exact congrArg Guest.sortByNonce (List.flatMap_congr fun m _ => m.lockRefs_eq.symm)
  · exact htag
  · exact hconfig
  · intro b hb
    obtain ⟨m, hm, rfl⟩ := List.mem_map.1 hb
    rw [m.trustBaseHash_eq, h.publicValues, h.trustBaseHash m hm]
  · rw [h.publicValues]
    exact h.spentRootOld
  · exact hreturn
  · exact (Core.lockRefRoot_eq_ok sdk.keccak256).2 ⟨hnonces, hlock⟩
  · exact hsize
  · exact htotal

/-! ## The members of a formed batch -/

/-- A ledger of the service, later in its run. -/
inductive Ledger.Later (sdk : TokenSdk.Sdk) (codec : Wire.Codec) (retry : RetryPolicy) :
    Ledger → Ledger → Prop where
  | refl (ledger : Ledger) : Later sdk codec retry ledger ledger
  | apply {ledger later : Ledger} {e : Event} (before : Later sdk codec retry ledger later)
      (admissible : e.Admissible sdk codec later) :
      Later sdk codec retry ledger (later.apply sdk.sha256 retry e)

/-- A return keeps its burn. -/
theorem Ledger.Later.burn {ledger later : Ledger} (h : Ledger.Later sdk codec retry ledger later)
    {id : String} {r : Return} (hr : ledger.returns.get id = some r) :
    ∃ r', later.returns.get id = some r' ∧ r'.burn = r.burn := by
  induction h with
  | refl => exact ⟨r, hr, rfl⟩
  | apply _ he ih =>
      obtain ⟨middle, hmiddle, hburn⟩ := ih
      obtain ⟨r', hr', hsame⟩ := @Ledger.burn_apply _ _ retry _ _ he _ _ hmiddle
      exact ⟨r', hr', hsame.trans hburn⟩

/-- The burns of returns that were in the ledger. -/
theorem Ledger.Later.burns {ledger later : Ledger} (h : Ledger.Later sdk codec retry ledger later)
    {chosen : List Return} (hchosen : ∀ r ∈ chosen, ledger.returns.get r.burn.id = some r) :
    later.burns (chosen.map fun r => r.burn.id) = chosen.map Return.burn := by
  rw [Ledger.burns, List.filterMap_map, ← List.filterMap_eq_map]
  refine List.filterMap_congr fun r hr => ?_
  obtain ⟨r', hr', hburn⟩ := h.burn (hchosen r hr)
  simp [hr', hburn]

namespace Ledger

variable {ledger : Ledger}

/-- A pending return is in the ledger under its burn's id. -/
theorem Indexed.get_of_pending (h : ledger.Indexed sdk codec) {r : Return}
    (hr : r ∈ ledger.pending) : ledger.returns.get r.burn.id = some r ∧ r.isPending = true := by
  rw [pending, bySeq, List.mem_mergeSort, List.mem_filter, Dict.mem_values] at hr
  obtain ⟨⟨id, hid⟩, hpending⟩ := hr
  exact ⟨h.id_eq id r hid ▸ hid, hpending⟩

/-- No return is pending twice. -/
theorem Indexed.pending_nodup (h : ledger.Indexed sdk codec) :
    (ledger.pending.map fun r => r.burn.id).Nodup := by
  have hkeys : ledger.returns.values.map (fun r => r.burn.id) = ledger.returns.keys := by
    rw [Dict.values, Dict.keys, List.map_map]
    refine List.map_congr_left fun entry hentry => ?_
    exact h.id_eq entry.1 entry.2 (Dict.get_eq_some.2 hentry)
  have hvalues : (ledger.returns.values.map fun r => r.burn.id).Nodup := hkeys ▸ ledger.returns.unique
  have hperm := (List.mergeSort_perm (ledger.returns.values.filter Return.isPending)
    fun a b => a.seq ≤ b.seq).map fun r => r.burn.id
  exact hperm.nodup_iff.2 (hvalues.sublist (List.filter_sublist.map _))

/-- Burns of distinct returns have distinct nullifiers. -/
theorem Indexed.nullifiers_nodup (h : ledger.Indexed sdk codec) {chosen : List Return}
    (hchosen : ∀ r ∈ chosen, ledger.returns.get r.burn.id = some r)
    (hnodup : (chosen.map fun r => r.burn.id).Nodup) :
    ((chosen.map Return.burn).map Burn.nullifier).Nodup := by
  rw [List.map_map]
  rw [List.Nodup, List.pairwise_map] at hnodup ⊢
  refine hnodup.imp_of_mem fun {a b} ha hb hne hsame => hne ?_
  exact h.id_of_nullifier (hchosen a ha) (hchosen b hb) hsame

end Ledger

/-- Prechecked burns under one configuration are members. -/
theorem exists_members {burns : List Burn}
    (hburns : ∀ b ∈ burns, ∃ input leaf, Prechecked sdk codec b input leaf ∧ input.config = config) :
    ∃ members : List (Member sdk codec config), members.map Member.burn = burns := by
  induction burns with
  | nil => exact ⟨[], rfl⟩
  | cons b rest ih =>
      obtain ⟨input, leaf, hburn, hconfig⟩ := hburns b List.mem_cons_self
      obtain ⟨members, hmembers⟩ := ih fun b' hb' => hburns b' (List.mem_cons_of_mem b hb')
      exact ⟨⟨b, input, leaf, hburn, hconfig⟩ :: members, by simp [hmembers]⟩

theorem leaves_nodup {members : List (Member sdk codec config)}
    (h : ((members.map Member.burn).map Burn.nullifier).Nodup) :
    (members.map fun m => m.leaf.nullifier).Nodup := by
  have hhex : (members.map Member.burn).map Burn.nullifier =
      (members.map fun m => m.leaf.nullifier).map hex32 := by
    rw [List.map_map, List.map_map]
    exact List.map_congr_left fun m _ => m.prechecked.nullifier
  rw [hhex] at h
  exact h.of_map _

/-- The counts of the members' inputs, by their size. -/
theorem counts_le (members : List (Member sdk codec config)) :
    144 * members.length + 40 * (members.flatMap fun m => m.input.sortedLockRefs).length ≤
      (members.map fun m => m.burn.size).sum := by
  induction members with
  | nil => simp
  | cons m rest ih =>
      have hm := Wire.length_of_decode _ _ m.prechecked.decodes
      rw [m.prechecked.leaves, List.length_singleton] at hm
      simp only [List.length_cons, List.flatMap_cons, List.length_append, List.map_cons,
        List.sum_cons, Burn.size]
      simp only [Burn.size] at ih
      omega

/-- A batch within the byte limit, or of one member, fits the counts of the wire. -/
theorem counts_fit {members : List (Member sdk codec config)} {limit : Nat}
    (hlimit : limit < 40 * 2 ^ 32)
    (hsize : members.length = 1 ∨ (members.map fun m => m.burn.size).sum ≤ limit) :
    members.length < 2 ^ 32 ∧
      (members.flatMap fun m => m.input.sortedLockRefs).length < 2 ^ 32 := by
  rcases hsize with hone | hsum
  · obtain ⟨m, rfl⟩ := List.length_eq_one_iff.1 hone
    exact ⟨by simp, by simpa using Wire.lockRefs_lt_of_decode _ _ m.prechecked.decodes⟩
  · have hcounts := counts_le members
    omega

/-! ## The fold over members -/

theorem excludedOf_splits (acc : RebuiltAccumulator) (rejected : List Rejected)
    (members : List (Member sdk codec config)) :
    Splits acc rejected (members.map Member.burn) (excludedOf acc rejected members) where
  ids := by
    induction members with
    | nil => rfl
    | cons m rest ih =>
        simp only [excludedOf] at ih ⊢
        rw [List.map_cons, List.filter_cons]
        cases hverdict : m.verdict acc rejected with
        | none =>
            rw [if_neg (by simp [(m.verdict_eq_none acc rejected).1 hverdict])]
            simpa [hverdict] using ih
        | some reason =>
            have hexcluded : m.burn.excluded acc rejected = true := by
              rw [← Bool.not_eq_false, ← m.verdict_eq_none, hverdict]
              simp
            rw [if_pos hexcluded]
            simp [hverdict, ih]
  reasons := by
    intro entry hentry
    obtain ⟨m, hm, hreason⟩ := List.mem_filterMap.1 hentry
    obtain ⟨reason, hverdict, rfl⟩ := Option.map_eq_some_iff.1 hreason
    rcases Member.verdict_cases hverdict with hrejection | hreleased
    · exact .inl ⟨m.burn, List.mem_map_of_mem hm, rfl, hrejection⟩
    · exact .inr hreleased

theorem keptOf_burns (acc : RebuiltAccumulator) (rejected : List Rejected)
    (members : List (Member sdk codec config)) :
    (keptOf acc rejected members).map Member.burn =
      (members.map Member.burn).filter fun b => !b.excluded acc rejected := by
  rw [keptOf, List.filter_map]
  refine congrArg (List.map Member.burn) (List.filter_congr fun m _ => ?_)
  have hverdict := m.verdict_eq_none acc rejected
  cases hm : m.verdict acc rejected with
  | none => simp [hverdict.1 hm]
  | some reason =>
      rw [hm] at hverdict
      simpa using hverdict

/-- **Members assemble**: into the kept ones, or into an error that all were excluded. -/
theorem assemble_members (hcodec : codec.Canonical) {members : List (Member sdk codec config)}
    (htogether : MembersTogether members)
    (hnodup : (members.map fun m => m.leaf.nullifier).Nodup)
    (hcount : members.length < 2 ^ 32)
    (hrefs : (members.flatMap fun m => m.input.sortedLockRefs).length < 2 ^ 32)
    (acc : RebuiltAccumulator) (rejected : List Rejected) :
    (keptOf acc rejected members = [] →
      assemble sdk codec (members.map Member.burn) acc rejected =
        some (.error (.allExcluded (excludedOf acc rejected members)))) ∧
      (keptOf acc rejected members ≠ [] → ∃ assembled,
        assemble sdk codec (members.map Member.burn) acc rejected = some (.ok assembled) ∧
          assembled.excluded = excludedOf acc rejected members ∧
          Carries sdk codec config acc ((keptOf acc rejected members).map Member.burn) assembled) := by
  -- the fold over the burns is the merge of those kept
  have hfold : (members.map Member.burn).foldl (mergeStep sdk codec acc rejected) Merge.empty =
      merged (keptOf acc rejected members) (excludedOf acc rejected members) := by
    have hall := @foldl_mergeStep _ _ _ acc rejected members [] [] htogether
    simpa [merged, Merge.empty] using hall
  have hsub : (keptOf acc rejected members).Sublist members := List.filter_sublist
  constructor
  · intro hnone
    simp only [assemble, hfold, hnone]
    rfl
  · intro hsome
    obtain ⟨first, rest, hkept⟩ := List.exists_cons_of_ne_nil hsome
    rw [hkept] at hsub hfold ⊢
    -- a kept member is not spent, so the tree takes its nullifier
    have hnew : ∀ m ∈ first :: rest, m.leaf.nullifier ∉ acc.tree.keys := by
      intro m hm
      rw [← hkept] at hm
      have hverdict := (List.mem_filter.1 hm).2
      rw [Option.isNone_iff_eq_none, m.verdict_eq_none, Burn.excluded, decide_eq_false_iff_not,
        not_or, m.spent_iff] at hverdict
      exact hverdict.1
    have hrefsKept : ((first :: rest).flatMap fun m => m.input.sortedLockRefs).length < 2 ^ 32 := by
      rw [List.length_flatMap] at hrefs ⊢
      exact lt_of_le_of_lt ((hsub.map _).sum_le_sum (by simp)) hrefs
    obtain ⟨assembled, input, hassemble, h⟩ := assembleMerged_ok hcodec (htogether.sublist hsub)
      (hnodup.sublist (hsub.map _)) hnew (lt_of_le_of_lt hsub.length_le hcount) hrefsKept
      (excludedOf acc rejected members)
    refine ⟨assembled, ?_, h.excluded, h.carries⟩
    have htemplate : (merged (first :: rest) (excludedOf acc rejected members)).template =
        some (config, first.input.publicValues) :=
      congrArg (fun c => some (c, first.input.publicValues)) first.config_eq
    simp only [assemble, hfold, htemplate]
    exact hassemble

/-- Every burn of the ledger was prechecked under this bridge configuration. -/
def Ledger.Under (sdk : TokenSdk.Sdk) (codec : Wire.Codec) (config : Core.BridgeConfig)
    (ledger : Ledger) : Prop :=
  ∀ id r input, ledger.returns.get id = some r →
    Wire.decodeGuestInput sdk codec r.burn.wireInput = .ok input → input.config = config

/-- **Merging preserves acceptance.** A batch that the policy forms from a ledger of the service, when it
is assembled then or later: the spent and the rejected members are excluded and no others; the others
are kept in order, and if there is one they make a batch that the guest accepts. -/
theorem merging_preserves_acceptance (hcodec : codec.Canonical) {policy : BatchPolicy}
    (hlimit : policy.limits.maxBytes < 40 * 2 ^ 32) {ledger later : Ledger}
    (hbuilt : Ledger.Built sdk codec retry ledger) (hunder : ledger.Under sdk codec config)
    {nowMs : Nat} {collect : Bool} {members : List String}
    (hnext : policy.next ledger.pending nowMs collect = .batch members)
    (hlater : Ledger.Later sdk codec retry ledger later) (acc : RebuiltAccumulator)
    (rejected : List Rejected) :
    (later.burns members).map Burn.id = members ∧
      ∃ excluded, Splits acc rejected (later.burns members) excluded ∧
        let kept := (later.burns members).filter fun b => !b.excluded acc rejected
        (kept = [] →
          assemble sdk codec (later.burns members) acc rejected =
            some (.error (.allExcluded excluded))) ∧
        (kept ≠ [] → ∃ assembled,
          assemble sdk codec (later.burns members) acc rejected = some (.ok assembled) ∧
            assembled.excluded = excluded ∧ Carries sdk codec config acc kept assembled) := by
  have hindexed := hbuilt.indexed
  -- the policy's choice: pending returns that go together
  obtain ⟨chosen, -, hsub, rfl, htogether, hsize⟩ := BatchPolicy.next_batch hnext
  have hget : ∀ r ∈ chosen, ledger.returns.get r.burn.id = some r := fun r hr =>
    (hindexed.get_of_pending (hsub.subset hr)).1
  rw [hlater.burns hget]
  -- each was prechecked under the service's configuration when it was accepted
  have hburns : ∀ b ∈ chosen.map Return.burn, ∃ input leaf,
      Prechecked sdk codec b input leaf ∧ input.config = config := by
    intro b hb
    obtain ⟨r, hr, rfl⟩ := List.mem_map.1 hb
    obtain ⟨input, leaf, hburn⟩ := hindexed.prechecked _ r (hget r hr)
    exact ⟨input, leaf, hburn, hunder _ r input (hget r hr) hburn.decodes⟩
  obtain ⟨parts, hparts⟩ := exists_members hburns
  -- distinct nullifiers, since the ledger holds each of them once
  have hnodup : (parts.map fun m => m.leaf.nullifier).Nodup := by
    refine leaves_nodup ?_
    rw [hparts]
    exact hindexed.nullifiers_nodup hget (hindexed.pending_nodup.sublist (hsub.map _))
  have hparts_size : parts.length = 1 ∨
      (parts.map fun m => m.burn.size).sum ≤ policy.limits.maxBytes := by
    have hlength : parts.length = chosen.length := by
      simpa using congrArg List.length hparts
    have hsizes : (parts.map fun m => m.burn.size) = chosen.map fun r => r.burn.size := by
      simpa [Function.comp_def] using congrArg (List.map Burn.size) hparts
    rw [hlength, hsizes]
    exact hsize
  have hmembers : MembersTogether parts := by
    rw [MembersTogether, hparts]
    exact htogether
  -- the limits on size keep every count of the wire format in its field
  obtain ⟨hcount, hrefs⟩ := counts_fit hlimit hparts_size
  obtain ⟨hnone, hsome⟩ := assemble_members hcodec hmembers hnodup hcount hrefs acc rejected
  have hsplits := excludedOf_splits acc rejected parts
  rw [hparts] at hsplits hnone hsome
  have hkept := keptOf_burns acc rejected parts
  rw [hparts] at hkept
  refine ⟨by rw [List.map_map]; rfl, excludedOf acc rejected parts, hsplits, ?_, ?_⟩
  · intro hempty
    exact hnone (List.map_eq_nil_iff.1 (hkept.trans hempty))
  · intro hne
    rw [← hkept] at hne ⊢
    exact hsome fun hempty => hne (List.map_eq_nil_iff.2 hempty)

end Assembling

/-! ## Posted burns -/

/-- Texts of 32 bytes are written in lower case. -/
theorem eqIgnoreAsciiCase_hex32 {a b : Bytes32} :
    eqIgnoreAsciiCase (hex32 a) (hex32 b) = true ↔ a = b := by
  have hlower (value : Bytes32) : (hex32 value).toList.map Char.toLower = (hex32 value).toList := by
    have hsame := congrArg String.toList (toLowercase_hex32 value)
    rwa [toLowercase, String.toList_ofList] at hsame
  rw [eqIgnoreAsciiCase, hlower, hlower, beq_iff_eq, String.toList_inj]
  exact ⟨hex32_inj, congrArg hex32⟩

/-- A burn under a new nullifier is added behind the others. -/
theorem Ledger.accept_new {ledger : Ledger} {burn : Burn} {record : ReturnRecord}
    (hnew : ledger.byNullifier.contains (toLowercase record.nullifier) = false) :
    ledger.accept burn record = { ledger with
      returns := ledger.returns.insert burn.id ⟨ledger.accepted + 1, burn, record⟩
      byNullifier := ledger.byNullifier.insert (toLowercase record.nullifier) burn.id
      accepted := ledger.accepted + 1 } := by
  simp [accept, hnew]

namespace Sample

open Guest.Sample (Coin sdk leaf trustBase)
open Wire.Sample (codec input wire encode_input input_accepted)

/-- The id of the return of a coin is its nullifier. -/
def id (coin : Coin) : String := hex32 (Guest.Sample.word coin.number)

theorem word_inj {coin other : Coin}
    (h : Guest.Sample.word coin.number = Guest.Sample.word other.number) : coin = other := by
  have hhead := congrArg (fun value : Bytes32 => value.toList.head?) h
  cases coin <;> cases other <;> first | rfl | exact absurd hhead (by decide)

theorem id_inj {coin other : Coin} (h : id coin = id other) : coin = other := word_inj (hex32_inj h)

/-- Different coins have different ids. -/
theorem id_ne {coin other : Coin} (h : coin ≠ other) : id coin ≠ id other := fun hid => h (id_inj hid)

/-- What intake makes of the posted input. -/
def posted (coin : Coin) : Burn := Burn.fromInput (id coin) (input coin) (leaf coin) (wire coin)

theorem posted_decodes (coin : Coin) :
    Wire.decodeGuestInput sdk codec (posted coin).wireInput = .ok (input coin) :=
  (encode_input coin).2

/-- The record of a return that was posted at time 0. -/
def record (coin : Coin) : ReturnRecord := ReturnRecord.queued (id coin) (leaf coin).nullifier 0

theorem returnId_eq (digest : Bytes32) (coin : Coin) :
    returnId sdk.sha256 digest (leaf coin).nullifier = id coin := by
  have hfirst : (Core.utf8 "bridge-return-service:return-id:v1" ++ digest.toList).head? =
      some 0x62 := by
    rfl
  exact congrArg hex32 (Guest.Sample.hash_append (Guest.Sample.word coin.number) hfirst (by decide))

/-- Intake takes every coin that can be returned. -/
theorem createReturn_wire {coin : Coin} (hreturned : coin ≠ .source) (nowMs : Nat) :
    createReturn sdk codec (wire coin) nowMs =
      some (posted coin, ReturnRecord.queued (id coin) (leaf coin).nullifier nowMs) := by
  obtain ⟨hencode, hdecode⟩ := encode_input coin
  obtain ⟨report, hreport⟩ := Precheck.precheck_ok (input_accepted hreturned) hencode hdecode
  have hprecheck : Precheck.precheckWire sdk codec (wire coin) = some (.ok report) := by
    rw [Precheck.precheckWire, hdecode]
    exact hreport
  have hleaves : (input coin).returnLeaves = [leaf coin] := rfl
  simp only [createReturn, hprecheck, hdecode, hleaves, returnId_eq]
  rfl

/-- The event that records a posted burn. -/
def acceptance (coin : Coin) : Event := .accepted (posted coin) (record coin)

theorem acceptance_admissible {ledger : Ledger} {coin : Coin} (hreturned : coin ≠ .source)
    (hnew : ledger.returns.get (id coin) = none) :
    (acceptance coin).Admissible sdk codec ledger :=
  ⟨⟨wire coin, 0, createReturn_wire hreturned 0⟩, hnew⟩

/-- The number of a return, in the order that the burns are posted in. -/
def order : Coin → Nat
  | .whole => 1
  | .left => 2
  | _ => 3

/-- The return of a coin that was posted. -/
def queued (coin : Coin) : Return := ⟨order coin, posted coin, record coin⟩

/-- The burns that are posted first make a batch of two, without a wait. -/
def policy : BatchPolicy := ⟨⟨2, (posted .whole).size + (posted .left).size, 0⟩⟩

theorem policy_limit : policy.limits.maxBytes < 40 * 2 ^ 32 := by decide +kernel

/-- The returns of the whole and the left coin. -/
def members : List String := [id .whole, id .left]

variable (retry : RetryPolicy)

/-- The ledger with one burn. -/
def single : Ledger := Ledger.empty.apply sdk.sha256 retry (acceptance .whole)

/-- The ledger with two burns. -/
def ledger : Ledger := (single retry).apply sdk.sha256 retry (acceptance .left)

theorem single_eq : single retry = { Ledger.empty with
    returns := Dict.empty.insert (id .whole) (queued .whole)
    byNullifier := Dict.empty.insert (toLowercase (record .whole).nullifier) (id .whole)
    accepted := 1 } := by
  rw [single, acceptance, Ledger.apply, Ledger.accept_new rfl]
  rfl

theorem single_new : (single retry).byNullifier.contains (toLowercase (record .left).nullifier) =
    false := by
  have hne : toLowercase (record .left).nullifier ≠ toLowercase (record .whole).nullifier := by
    show toLowercase (hex32 _) ≠ toLowercase (hex32 _)
    rw [toLowercase_hex32, toLowercase_hex32]
    exact id_ne (by decide)
  rw [single_eq, Dict.contains, Dict.get_insert_of_ne _ _ hne]
  rfl

theorem ledger_eq : ledger retry = { single retry with
    returns := (single retry).returns.insert (id .left) (queued .left)
    byNullifier := (single retry).byNullifier.insert (toLowercase (record .left).nullifier)
      (id .left)
    accepted := 2 } := by
  have haccepted : (single retry).accepted = 1 := by
    rw [single_eq]
  rw [ledger, acceptance, Ledger.apply, Ledger.accept_new (single_new retry), haccepted]
  rfl

theorem get_single (key : String) : (single retry).returns.get key =
    if key = id .whole then some (queued .whole) else none := by
  rw [single_eq]
  split
  · next hkey => rw [hkey, Dict.get_insert_self]
  · next hkey => rw [Dict.get_insert_of_ne _ _ hkey, Dict.get_empty]

theorem returns_ledger : (ledger retry).returns.entries =
    [(id .whole, queued .whole), (id .left, queued .left)] := by
  rw [ledger_eq, single_eq]
  simp [Dict.insert, Dict.empty, Dict.keys, id_ne]

theorem values_ledger : (ledger retry).returns.values = [queued .whole, queued .left] := by
  rw [Dict.values, returns_ledger]
  rfl

theorem batches_ledger : (ledger retry).batches = Dict.empty := by
  rw [ledger_eq, single_eq]
  rfl

theorem ledger_built : Ledger.Built sdk codec retry (ledger retry) := by
  refine .apply (.apply .empty (acceptance_admissible (by decide) (Dict.get_empty _))) ?_
  refine acceptance_admissible (by decide) ?_
  show (single retry).returns.get (id .left) = none
  rw [get_single, if_neg (id_ne (by decide))]

theorem pending_ledger : (ledger retry).pending = [queued .whole, queued .left] := by
  rw [Ledger.pending, values_ledger]
  exact List.mergeSort_of_pairwise (by decide)

/-- All burns are under one trust base. -/
theorem trustBaseHash_posted (coin : Coin) :
    (posted coin).trustBaseHash = hex32 (Verify.canonicalHash sdk trustBase) := rfl

theorem lockNonces_posted (coin : Coin) : (posted coin).lockNonces = [coin.nonce.toUInt64] := rfl

/-- The policy takes both burns. -/
theorem next_ledger : policy.next (ledger retry).pending 0 true = .batch members := by
  have hfits : policy.fits (posted .whole)
      ⟨(posted .whole).lockNonces, (posted .whole).size, [id .whole]⟩ (posted .left) = true := by
    rw [BatchPolicy.fits_iff]
    refine ⟨by rw [trustBaseHash_posted, trustBaseHash_posted], ?_, ?_⟩
    · rw [lockNonces_posted, lockNonces_posted]
      simp [Coin.nonce]
    · simp only [policy, le_refl]
  rw [pending_ledger]
  exact BatchPolicy.next_pair true rfl rfl rfl hfits

theorem ledger_under : (ledger retry).Under sdk codec Guest.Sample.config := by
  intro key r decoded hr hdecode
  have hcoin : ∃ coin, r.burn = posted coin := by
    rw [Dict.get_eq_some, returns_ledger] at hr
    rcases List.mem_pair.1 hr with heq | heq
    · exact ⟨.whole, by rw [(Prod.mk.inj heq).2]; rfl⟩
    · exact ⟨.left, by rw [(Prod.mk.inj heq).2]; rfl⟩
  obtain ⟨coin, hburn⟩ := hcoin
  rw [hburn, posted_decodes] at hdecode
  rw [← Except.ok.inj hdecode]
  rfl

/-- The accumulator of these nullifiers, from a log that names no transactions. -/
def accOf (tree : Accumulator.NullifierTree) : RebuiltAccumulator :=
  ⟨tree, tree.root sdk.sha256, tree.keys.length, fun _ => none⟩

/-- The tree of a vault that released only this nullifier. -/
def treeOf (key : Bytes32) : Accumulator.NullifierTree := ⟨[key], List.nodup_singleton key⟩

/-- The simulation refuses the whole coin. -/
def refusal : List Rejected :=
  [⟨hex32 (Guest.Sample.word Coin.whole.number), "recipient reverts", .recipient⟩]

/-- The batch is formed, and goes back to be assembled on another root. -/
def rebased : Ledger :=
  ((ledger retry).apply sdk.sha256 retry (.batchFormed members 0)).apply sdk.sha256 retry
    (.batchRebased ((ledger retry).nextBatch sdk.sha256 members 0).id 0)

theorem rebased_later : Ledger.Later sdk codec retry (ledger retry) (rebased retry) := by
  refine .apply (.apply (.refl _) ?_) trivial
  show (ledger retry).batches.get _ = none
  rw [batches_ledger]
  exact Dict.get_empty _

/-- The burns of both members, then and later. -/
theorem burns_members {later : Ledger} (h : Ledger.Later sdk codec retry (ledger retry) later) :
    later.burns members = [posted .whole, posted .left] := by
  have hget : ∀ r ∈ [queued .whole, queued .left],
      (ledger retry).returns.get r.burn.id = some r := ?_
  · exact h.burns hget
  intro r hr
  rw [Dict.get_eq_some, returns_ledger]
  rcases List.mem_pair.1 hr with rfl | rfl
  · exact List.mem_cons_self
  · exact List.mem_cons_of_mem _ List.mem_cons_self

/-- What keeps a burn out of a batch. -/
theorem excluded_iff (acc : RebuiltAccumulator) (rejected : List Rejected) (coin : Coin) :
    (posted coin).excluded acc rejected = true ↔ Guest.Sample.word coin.number ∈ acc.tree.keys ∨
      ∃ r ∈ rejected, eqIgnoreAsciiCase r.nullifier (hex32 (Guest.Sample.word coin.number)) = true := by
  rw [Burn.excluded, decide_eq_true_iff]
  refine or_congr ⟨?_, fun hmem => ⟨_, hmem, rfl⟩⟩ Iff.rfl
  rintro ⟨key, hkey, hsame⟩
  have hsameKey : key = Guest.Sample.word coin.number := hex32_inj hsame
  exact hsameKey ▸ hkey

/-- There is something against the whole coin, and the other is left to return. -/
structure LeavesLeft (acc : RebuiltAccumulator) (rejected : List Rejected) : Prop where
  excluded : [posted .whole, posted .left].filter (fun b => b.excluded acc rejected) =
    [posted .whole]
  others : [posted .whole, posted .left].filter (fun b => !b.excluded acc rejected) =
    [posted .left]

theorem leavesLeft {acc : RebuiltAccumulator} {rejected : List Rejected}
    (hwhole : (posted .whole).excluded acc rejected = true)
    (hleft : (posted .left).excluded acc rejected = false) : LeavesLeft acc rejected :=
  ⟨by simp [hwhole, hleft], by simp [hwhole, hleft]⟩

theorem leaves_refused : LeavesLeft (accOf .new) refusal := by
  apply leavesLeft
  · rw [excluded_iff]
    exact .inr ⟨_, List.mem_singleton_self _, eqIgnoreAsciiCase_hex32.2 rfl⟩
  · rw [← Bool.not_eq_true, excluded_iff]
    rintro (hmem | ⟨r, hr, hsame⟩)
    · cases hmem
    · obtain rfl := List.mem_singleton.1 hr
      exact absurd (word_inj (eqIgnoreAsciiCase_hex32.1 hsame)) (by decide)

theorem leaves_released : LeavesLeft (accOf (treeOf (Guest.Sample.word Coin.whole.number))) [] := by
  apply leavesLeft
  · rw [excluded_iff]
    exact .inl (List.mem_singleton_self _)
  · rw [← Bool.not_eq_true, excluded_iff]
    rintro (hmem | ⟨r, hr, -⟩)
    · exact absurd (word_inj (List.mem_singleton.1 hmem)) (by decide)
    · cases hr

end Sample

/-- Two posted burns in one batch: one is refused at first, and released when the batch is assembled
again after a rebase; the other is kept both times. -/
theorem merging_preserves_acceptance_sample :
    ∃ first second,
      assemble Guest.Sample.sdk Wire.Sample.codec ((Sample.ledger ⟨1, 1, 1⟩).burns Sample.members)
          (Sample.accOf .new) Sample.refusal = some (.ok first) ∧
        first.kept = [Sample.id .left] ∧ first.excluded.map Prod.fst = [Sample.id .whole] ∧
      assemble Guest.Sample.sdk Wire.Sample.codec ((Sample.rebased ⟨1, 1, 1⟩).burns Sample.members)
          (Sample.accOf (Sample.treeOf (Guest.Sample.word Guest.Sample.Coin.whole.number))) [] =
            some (.ok second) ∧
        second.kept = [Sample.id .left] ∧ second.excluded.map Prod.fst = [Sample.id .whole] := by
  have hkept : ∀ later, Ledger.Later Guest.Sample.sdk Wire.Sample.codec ⟨1, 1, 1⟩
      (Sample.ledger ⟨1, 1, 1⟩) later → ∀ acc rejected, Sample.LeavesLeft acc rejected →
      ∃ assembled, assemble Guest.Sample.sdk Wire.Sample.codec (later.burns Sample.members) acc
          rejected = some (.ok assembled) ∧ assembled.kept = [Sample.id .left] ∧
        assembled.excluded.map Prod.fst = [Sample.id .whole] := by
    intro later hlater acc rejected hleaves
    obtain ⟨-, excluded, hsplits, -, hsome⟩ :=
      merging_preserves_acceptance Wire.Sample.codec_canonical Sample.policy_limit
        (Sample.ledger_built ⟨1, 1, 1⟩) (Sample.ledger_under ⟨1, 1, 1⟩)
        (Sample.next_ledger ⟨1, 1, 1⟩) hlater acc rejected
    rw [Sample.burns_members _ hlater] at hsplits hsome ⊢
    simp only [hleaves.others] at hsome
    obtain ⟨assembled, hassemble, hsame, hcarries⟩ := hsome (List.cons_ne_nil _ _)
    refine ⟨assembled, hassemble, hcarries.kept, ?_⟩
    rw [hsame, hsplits.ids, hleaves.excluded]
    rfl
  obtain ⟨first, hfirst⟩ := hkept _ (.refl _) _ _ Sample.leaves_refused
  obtain ⟨second, hsecond⟩ := hkept _ (Sample.rebased_later _) _ _ Sample.leaves_released
  exact ⟨first, second, hfirst.1, hfirst.2.1, hfirst.2.2, hsecond⟩

end UnicityBridge.Service
