import UnicityBridge.GuestBatch
import Mathlib.Data.Finset.Lattice.Lemmas

/-!
# Soundness of the guest relation

What `execute` establishes about the input it accepts. Each turn of the loop over the burns ties one
leaf to one burn (`BurnAccepted`), the loop does so for all of them in order, and the accumulator
chain keeps every nullifier once inserted, so that no nullifier occurs twice. The main result is
`execute_sound`.

The SDK writes amounts as big-endian numbers (`EncodesAmounts`), and SHA-256 is collision free on
what the accumulator witnesses hash.
-/

set_option autoImplicit false

namespace UnicityBridge.Guest

open UnicityBridge.Lib UnicityBridge.Core UnicityBridge.TokenSdk UnicityBridge.Verify
open UnicityBridge.Accumulator

section Soundness

variable (sdk : Sdk)

/-- The SDK writes an amount big-endian. -/
def EncodesAmounts : Prop := ∀ value, beNat (sdk.encodeAmount value) = value

/-! ## One leaf and its burn -/

/-- Leaf `leaf` pays out burn `burn`: its terms are those of the reason in the terminal transfer, its
amount is the value of the burned token and its nullifier is that of the transfer. -/
structure PaysBurn (config : Core.BridgeConfig) (leaf : ReturnLeaf) (burn : BridgeBurnWitness) :
    Prop where
  terms : ∃ transfer bytes reason,
    burn.token.transactions.getLast? = some transfer ∧ transfer.transaction.data = some bytes ∧
      decodeBridgeBackReason sdk config.reasonTag bytes = .ok reason ∧
      leaf.recipient = reason.recipient ∧ leaf.amount = reason.amount ∧
      leaf.feeRecipient = reason.feeRecipient ∧ leaf.feeAmount = reason.feeAmount ∧
      leaf.deadline = reason.deadline ∧
      burnNullifier sdk (configHash sdk.keccak256 config) transfer.transaction =
        .ok leaf.nullifier
  value : ∃ data payment asset, burn.token.genesis.transaction.data = some data ∧
    Bridge.decodeBridgedPaymentData sdk data = some payment ∧
      payment.get config.coinId.toList = some asset ∧ leaf.amount.toNat = asset.value
  fee_le : leaf.feeAmount.toNat ≤ leaf.amount.toNat

theorem validateTerminalBurn_ok {config : Core.BridgeConfig} {cfgHash : Bytes32}
    {leaf : ReturnLeaf} {token : Token}
    (h : validateTerminalBurn sdk config cfgHash leaf token = .ok ()) :
    ∃ transfer bytes reason,
      token.transactions.getLast? = some transfer ∧ transfer.transaction.data = some bytes ∧
        transfer.transaction.recipient = sdk.burnPredicate (sdk.sha256 bytes).toList ∧
        decodeBridgeBackReason sdk config.reasonTag bytes = .ok reason ∧
        leaf.recipient = reason.recipient ∧ leaf.amount = reason.amount ∧
        leaf.feeRecipient = reason.feeRecipient ∧ leaf.feeAmount = reason.feeAmount ∧
        leaf.deadline = reason.deadline ∧ leaf.feeAmount.toNat ≤ leaf.amount.toNat ∧
        burnNullifier sdk cfgHash transfer.transaction = .ok leaf.nullifier := by
  simp only [validateTerminalBurn, bind_eq_ok, okOr_eq_ok, ensure_eq_ok] at h
  obtain ⟨transfer, hlast, bytes, hdata, -, hrecipient, reason, hreason, -,
    ⟨-, -, -, -, -, -, hto, hamount, hfeeTo, hfee, hdeadline, hle⟩, nullifier, hnullifier, heq⟩ := h
  have hcompare : leaf.feeAmount.toNat ≤ leaf.amount.toNat := by
    rw [greaterThan, lt_iff_beNat_lt (by simp), hamount, hfee, not_lt] at hle
    exact hle
  refine ⟨transfer, bytes, reason, hlast, hdata, hrecipient, hreason, hto.symm, hamount.symm,
    hfeeTo.symm, hfee.symm, hdeadline.symm, hcompare, ?_⟩
  rw [hnullifier, heq]

theorem validateCurrentValue_ok (hamounts : EncodesAmounts sdk) {config : Core.BridgeConfig}
    {leaf : ReturnLeaf} {token : Token} (h : validateCurrentValue sdk config leaf token = .ok ()) :
    ∃ data payment asset, token.genesis.transaction.data = some data ∧
      Bridge.decodeBridgedPaymentData sdk data = some payment ∧
        payment.get config.coinId.toList = some asset ∧ leaf.amount.toNat = asset.value := by
  simp only [validateCurrentValue, bind_eq_ok, okOr_eq_ok, ensure_eq_ok] at h
  obtain ⟨data, hdata, payment, hpayment, asset, hasset, amount, hamount, rfl⟩ := h
  refine ⟨data, payment, asset, hdata, hpayment, hasset, ?_⟩
  rw [u256FromAmountBytes] at hamount
  split at hamount
  · cases hamount
  · rw [toByteArr_eq_some] at hamount
    rw [ByteArr.toNat, hamount, beNat_zeros_append, hamounts]

/-! ## The loop over the burns -/

/-- The token of a burn is verified in the burn's own mode. An anchor may have been verified under
the trust base of another burn with the same hash. -/
def VerifiedBurn (trustBaseHash : Bytes32) (burn : BridgeBurnWitness) : Prop :=
  match burn.verification with
  | .anchored anchor => ∃ trustBase root, canonicalHash sdk trustBase = trustBaseHash ∧
      verifyAnchorCertificate sdk trustBase anchor = .ok root ∧
      verifyTokenAgainstRoot sdk burn.token burn.trustBase root = .ok ()
  | .certified => verifyTokenCertified sdk burn.token burn.trustBase = .ok ()

/-- What one turn of the loop establishes about a burn, its leaf and its obligations. -/
structure BurnAccepted (config : Core.BridgeConfig) (trustBaseHash : Bytes32)
    (pair : BridgeBurnWitness × ReturnLeaf) (obligations : List Bridge.BridgeLockObligation) :
    Prop where
  trustBase : canonicalHash sdk pair.1.trustBase = trustBaseHash
  verified : VerifiedBurn sdk trustBaseHash pair.1
  obligations_eq : Bridge.bridgeLockObligationsForVerifiedToken sdk pair.1.token pair.1.trustBase
    pair.1.lockJustificationTag (sdkBridgeConfig config) = .ok obligations
  terminal : validateTerminalBurn sdk config (configHash sdk.keccak256 config) pair.2
    pair.1.token = .ok ()
  value : validateCurrentValue sdk config pair.2 pair.1.token = .ok ()

theorem BurnAccepted.paysBurn (hamounts : EncodesAmounts sdk) {config : Core.BridgeConfig}
    {trustBaseHash : Bytes32} {pair : BridgeBurnWitness × ReturnLeaf}
    {obligations : List Bridge.BridgeLockObligation}
    (h : BurnAccepted sdk config trustBaseHash pair obligations) :
    PaysBurn sdk config pair.2 pair.1 := by
  obtain ⟨transfer, bytes, reason, hlast, hdata, -, hreason, hto, hamount, hfeeTo, hfee, hdeadline,
    hle, hnullifier⟩ := validateTerminalBurn_ok sdk h.terminal
  exact {
    terms := ⟨transfer, bytes, reason, hlast, hdata, hreason, hto, hamount, hfeeTo, hfee, hdeadline,
      hnullifier⟩
    value := validateCurrentValue_ok sdk hamounts h.value
    fee_le := hle }

/-- Every root in the cache was verified under a trust base of the batch. -/
def CacheVerified (trustBaseHash : Bytes32) (cache : List (UnicityCertificate × Bytes32)) : Prop :=
  ∀ entry ∈ cache, ∃ trustBase, canonicalHash sdk trustBase = trustBaseHash ∧
    verifyAnchorCertificate sdk trustBase entry.1 = .ok entry.2

theorem anchorRoot_ok {trustBase : RootTrustBase} {trustBaseHash root : Bytes32}
    {anchor : UnicityCertificate} {cache cache' : List (UnicityCertificate × Bytes32)}
    (htrust : canonicalHash sdk trustBase = trustBaseHash)
    (hcache : CacheVerified sdk trustBaseHash cache)
    (h : anchorRoot sdk trustBase anchor cache = .ok (root, cache')) :
    CacheVerified sdk trustBaseHash cache' ∧
      ∃ trustBase, canonicalHash sdk trustBase = trustBaseHash ∧
        verifyAnchorCertificate sdk trustBase anchor = .ok root := by
  unfold anchorRoot at h
  split at h
  · next entry hfind =>
    cases h
    have hanchor : entry.1 = anchor := by simpa using List.find?_some hfind
    exact ⟨hcache, hanchor ▸ hcache entry (List.mem_of_find?_eq_some hfind)⟩
  · simp only [bind_eq_ok, mapError_eq_ok, Except.ok.injEq, Prod.mk.injEq] at h
    obtain ⟨root', hroot, rfl, rfl⟩ := h
    refine ⟨fun entry hentry => ?_, trustBase, htrust, hroot⟩
    rcases List.mem_append.1 hentry with hold | hnew
    · exact hcache entry hold
    · obtain rfl := List.mem_singleton.1 hnew
      exact ⟨trustBase, htrust, hroot⟩

theorem burnObligations_ok {config : Core.BridgeConfig} {trustBaseHash : Bytes32}
    {burn : BridgeBurnWitness} {cache cache' : List (UnicityCertificate × Bytes32)}
    {obligations : List Bridge.BridgeLockObligation}
    (htrust : canonicalHash sdk burn.trustBase = trustBaseHash)
    (hcache : CacheVerified sdk trustBaseHash cache)
    (h : burnObligations sdk config burn cache = .ok (obligations, cache')) :
    CacheVerified sdk trustBaseHash cache' ∧ VerifiedBurn sdk trustBaseHash burn ∧
      Bridge.bridgeLockObligationsForVerifiedToken sdk burn.token burn.trustBase
        burn.lockJustificationTag (sdkBridgeConfig config) = .ok obligations := by
  unfold burnObligations at h
  unfold VerifiedBurn
  cases hmode : burn.verification with
  | anchored anchor =>
      simp only [hmode, bind_eq_ok, mapError_eq_ok, Bridge.bridgeLockObligationsForTokenAgainstRoot,
        Except.ok.injEq, Prod.mk.injEq, Prod.exists] at h
      obtain ⟨root, cache'', hroot, os, ⟨_, hverified, hos⟩, rfl, rfl⟩ := h
      obtain ⟨hcache', trustBase, hhash, hanchor⟩ := anchorRoot_ok sdk htrust hcache hroot
      exact ⟨hcache', ⟨trustBase, root, hhash, hanchor, hverified⟩, hos⟩
  | certified =>
      simp only [hmode, bind_eq_ok, mapError_eq_ok, Bridge.bridgeLockObligationsForTokenCertified,
        Except.ok.injEq, Prod.mk.injEq] at h
      obtain ⟨os, ⟨_, hverified, hos⟩, rfl, rfl⟩ := h
      exact ⟨hcache, hverified, hos⟩

/-- One turn of the loop. -/
theorem validateBurn_ok {config : Core.BridgeConfig} {trustBaseHash : Bytes32}
    {state state' : BurnsState} {pair : BridgeBurnWitness × ReturnLeaf}
    (hcache : CacheVerified sdk trustBaseHash state.anchorRoots)
    (h : validateBurn sdk config trustBaseHash state pair = .ok state') :
    CacheVerified sdk trustBaseHash state'.anchorRoots ∧
      ∃ obligations, BurnAccepted sdk config trustBaseHash pair obligations ∧
        state'.obligations = state.obligations ++ obligations.map toLockRef := by
  obtain ⟨burn, leaf⟩ := pair
  simp only [validateBurn, bind_eq_ok, ensure_eq_ok, Except.ok.injEq, Prod.exists] at h
  obtain ⟨-, htrust, obligations, cache, hburn, _, hterminal, _, hvalue, rfl⟩ := h
  obtain ⟨hcache', hverified, hobligations⟩ := burnObligations_ok sdk htrust hcache hburn
  exact ⟨hcache', obligations, ⟨htrust, hverified, hobligations, hterminal, hvalue⟩, rfl⟩

/-- The whole loop, by induction over the pairs: the cache stays verified and every burn is accepted
with its own obligations. -/
theorem foldlM_validateBurn_ok {config : Core.BridgeConfig} {trustBaseHash : Bytes32}
    {pairs : List (BridgeBurnWitness × ReturnLeaf)} {state state' : BurnsState}
    (hcache : CacheVerified sdk trustBaseHash state.anchorRoots)
    (h : pairs.foldlM (validateBurn sdk config trustBaseHash) state = .ok state') :
    ∃ obligations : List (List Bridge.BridgeLockObligation),
      List.Forall₂ (BurnAccepted sdk config trustBaseHash) pairs obligations ∧
        state'.obligations = state.obligations ++ obligations.flatten.map toLockRef := by
  induction pairs generalizing state with
  | nil =>
      rw [List.foldlM_nil, pure_eq_ok] at h
      exact ⟨[], .nil, by simp [h]⟩
  | cons pair rest ih =>
      rw [List.foldlM_cons, bind_eq_ok] at h
      obtain ⟨mid, hmid, hrest⟩ := h
      obtain ⟨hcache', os, haccepted, hos⟩ := validateBurn_ok sdk hcache hmid
      obtain ⟨obligations, hall, hobligations⟩ := ih hcache' hrest
      refine ⟨os :: obligations, .cons haccepted hall, ?_⟩
      rw [hobligations, hos]
      simp

theorem exists_of_forall₂ {α β : Type} {R : α → β → Prop} {xs : List α} {ys : List β}
    (h : List.Forall₂ R xs ys) : ∀ x ∈ xs, ∃ y, R x y :=
  ((List.forall₂_and_left _ _).1 (h.imp fun _ y hxy => ⟨⟨y, hxy⟩, hxy⟩)).1

/-- **What `validate_bridge_burns` establishes.** -/
theorem validateBridgeBurns_ok {config : Core.BridgeConfig} {trustBaseHash : Bytes32}
    {leaves : List ReturnLeaf} {refs : List SourceLockRef} {burns : List BridgeBurnWitness}
    (h : validateBridgeBurns sdk config trustBaseHash leaves refs burns = .ok ()) :
    burns ≠ [] ∧ burns.length = leaves.length ∧
      ∃ obligations : List (List Bridge.BridgeLockObligation),
        List.Forall₂ (BurnAccepted sdk config trustBaseHash) (burns.zip leaves) obligations ∧
          sortByNonce (obligations.flatten.map toLockRef) = refs := by
  simp only [validateBridgeBurns, bind_eq_ok, ensure_eq_ok] at h
  obtain ⟨-, ⟨hne, hlen⟩, state, hstate, hrefs⟩ := h
  have hempty : CacheVerified sdk trustBaseHash [] := fun entry hentry =>
    absurd hentry List.not_mem_nil
  obtain ⟨obligations, hall, hobligations⟩ := foldlM_validateBurn_ok sdk hempty hstate
  rw [hobligations, List.nil_append] at hrefs
  exact ⟨hne, hlen, obligations, hall, hrefs⟩

/-! ## The accumulator chain -/

/-- The byte strings hashed to check the accumulator witnesses of the leaves. -/
def transitionInputs (leaves : List ReturnLeaf) (witnesses : List NonMembershipWitness) :
    Set Bytes :=
  {input | ∃ pair ∈ leaves.zip witnesses,
    input ∈ absentInputs sdk.sha256 pair.1.nullifier pair.2 ∪
      presentInputs sdk.sha256 pair.1.nullifier pair.2}

/-- A chain of insertions keeps what the first root holds and inserts each nullifier once. -/
theorem foldlM_insertLeaf_ok {Q : Set Bytes}
    (hQ : SparseMerkle.CollisionFree sdk.sha256 EMPTY_TREE_ROOT Q)
    (hdef : defaultInputs sdk.sha256 ⊆ Q) {pairs : List (ReturnLeaf × NonMembershipWitness)}
    {root r : Bytes32}
    (hinputs : ∀ pair ∈ pairs, absentInputs sdk.sha256 pair.1.nullifier pair.2 ∪
      presentInputs sdk.sha256 pair.1.nullifier pair.2 ⊆ Q)
    (h : pairs.foldlM (insertLeaf sdk) root = .ok r) :
    (pairs.map fun pair => pair.1.nullifier).Nodup ∧
      ∀ a, Holds sdk.sha256 Q a root →
        a ∉ (pairs.map fun pair => pair.1.nullifier) ∧ Holds sdk.sha256 Q a r := by
  induction pairs generalizing root with
  | nil =>
      rw [List.foldlM_nil, pure_eq_ok] at h
      exact ⟨List.nodup_nil, fun a ha => ⟨List.not_mem_nil, h ▸ ha⟩⟩
  | cons pair rest ih =>
      rw [List.foldlM_cons, bind_eq_ok] at h
      obtain ⟨mid, hmid, hrest⟩ := h
      rw [insertLeaf, okOr_eq_ok] at hmid
      have hpair := hinputs pair List.mem_cons_self
      have habsent := Set.subset_union_left.trans hpair
      have hpresent := Set.subset_union_right.trans hpair
      obtain ⟨hnodup, hkeep⟩ := ih (fun p hp => hinputs p (List.mem_cons_of_mem pair hp)) hrest
      obtain ⟨hfresh, -⟩ := hkeep _ (insert_holds hpresent hmid)
      refine ⟨List.nodup_cons.2 ⟨hfresh, hnodup⟩, fun a ha => ?_⟩
      obtain ⟨hne, ha'⟩ := insert_keeps hQ hdef habsent hpresent ha hmid
      obtain ⟨hrest', har⟩ := hkeep a ha'
      rw [List.map_cons, List.mem_cons, not_or]
      exact ⟨⟨hne, hrest'⟩, har⟩

/-- A chain of insertions from the commitment to a set commits to the set with all nullifiers, which
are new and distinct. By induction along the chain. -/
theorem foldlM_insertLeaf_setRoot {Q : Set Bytes}
    (hQ : SparseMerkle.CollisionFree sdk.sha256 EMPTY_TREE_ROOT Q)
    (hdef : defaultInputs sdk.sha256 ⊆ Q) {pairs : List (ReturnLeaf × NonMembershipWitness)} :
    ∀ {T : Finset Bytes32} {r : Bytes32},
      (∀ U ⊆ T ∪ (pairs.map fun pair => pair.1.nullifier).toFinset,
        treeInputs sdk.sha256 (ofFinset U) ⊆ Q) →
      (∀ pair ∈ pairs, absentInputs sdk.sha256 pair.1.nullifier pair.2 ⊆ Q) →
      pairs.foldlM (insertLeaf sdk) (setRoot sdk.sha256 T) = .ok r →
      (pairs.map fun pair => pair.1.nullifier).Nodup ∧
        (∀ key ∈ T, key ∉ pairs.map fun pair => pair.1.nullifier) ∧
        r = setRoot sdk.sha256 (T ∪ (pairs.map fun pair => pair.1.nullifier).toFinset) := by
  induction pairs with
  | nil =>
      intro T r _ _ h
      rw [List.foldlM_nil, pure_eq_ok] at h
      refine ⟨List.nodup_nil, fun _ _ => List.not_mem_nil, ?_⟩
      rw [List.map_nil, List.toFinset_nil, Finset.union_empty, h]
  | cons pair rest ih =>
      intro T r htrees hinputs h
      rw [List.foldlM_cons, bind_eq_ok] at h
      obtain ⟨mid, hmid, hrest⟩ := h
      rw [insertLeaf, okOr_eq_ok] at hmid
      obtain ⟨hfresh, rfl⟩ := insert_setRoot hQ (htrees T Finset.subset_union_left) hdef
        (hinputs pair List.mem_cons_self) hmid
      have hunion : Insert.insert pair.1.nullifier T ∪
          (rest.map fun pair => pair.1.nullifier).toFinset =
            T ∪ ((pair :: rest).map fun pair => pair.1.nullifier).toFinset := by
        rw [List.map_cons, List.toFinset_cons, Finset.insert_union, Finset.union_insert]
      obtain ⟨hnodup, hnew, hroot⟩ := ih (fun U hU => htrees U (hunion ▸ hU))
        (fun p hp => hinputs p (List.mem_cons_of_mem pair hp)) hrest
      refine ⟨?_, fun key hkey => ?_, hunion ▸ hroot⟩
      · rw [List.map_cons, List.nodup_cons]
        exact ⟨hnew _ (Finset.mem_insert_self _ _), hnodup⟩
      · rw [List.map_cons, List.mem_cons, not_or]
        exact ⟨fun heq => hfresh (heq ▸ hkey), hnew key (Finset.mem_insert_of_mem hkey)⟩

/-! ## The relation -/

/-- The relation that an accepted input stands in to the obligations of its burns. -/
structure Relation (input : GuestInput) (obligations : List (List Bridge.BridgeLockObligation)) :
    Prop where
  burns_length : input.witness.bridgeBurns.length = input.returnLeaves.length
  witnesses_length : input.witness.accumulatorWitnesses.length = input.returnLeaves.length
  batchSize : input.publicValues.batchSize.toNat = input.returnLeaves.length
  nonempty : 1 ≤ input.returnLeaves.length
  nullifiers : (input.returnLeaves.map ReturnLeaf.nullifier).Nodup
  pays : ∀ (i : Nat) (hl : i < input.returnLeaves.length)
    (hb : i < input.witness.bridgeBurns.length),
      PaysBurn sdk input.config input.returnLeaves[i] input.witness.bridgeBurns[i]
  obligations_eq : List.Forall₂ (fun burn os =>
    Bridge.bridgeLockObligationsForVerifiedToken sdk burn.token burn.trustBase
      burn.lockJustificationTag (sdkBridgeConfig input.config) = .ok os)
    input.witness.bridgeBurns obligations
  lockRefs_perm : input.sortedLockRefs.Perm (obligations.flatten.map toLockRef)
  lockRefs_sorted : (nonces input.sortedLockRefs).Pairwise (· < ·)
  verified : ∀ burn ∈ input.witness.bridgeBurns,
    canonicalHash sdk burn.trustBase = input.publicValues.trustBaseHash ∧
      VerifiedBurn sdk input.publicValues.trustBaseHash burn
  domainTag_eq : input.publicValues.domainTag = domainTag sdk.keccak256
  configHash_eq : input.publicValues.configHash = configHash sdk.keccak256 input.config
  returnRoot_eq : input.publicValues.returnRoot = returnRoot sdk.keccak256 input.returnLeaves
  lockRefRoot_eq : input.publicValues.lockRefRoot =
    sdk.keccak256 (input.sortedLockRefs.flatMap refWords)
  totalAmount_eq : input.publicValues.totalAmount = sumAmounts input.returnLeaves
  spentRootNew_eq : (input.returnLeaves.zip input.witness.accumulatorWitnesses).foldlM
    (insertLeaf sdk) input.publicValues.spentRootOld = .ok input.publicValues.spentRootNew

/-- **The guest relation is sound.** An input that `execute` accepts pays each burn by its own leaf,
once, and publishes exactly the locks behind the burns. -/
theorem execute_sound (hamounts : EncodesAmounts sdk) {input : GuestInput} {pv : PublicValues}
    (Q : Set Bytes) (hQ : SparseMerkle.CollisionFree sdk.sha256 EMPTY_TREE_ROOT Q)
    (hdef : defaultInputs sdk.sha256 ⊆ Q)
    (hinputs : transitionInputs sdk input.returnLeaves input.witness.accumulatorWitnesses ⊆ Q)
    (h : execute sdk input = .ok pv) :
    pv = input.publicValues ∧ ∃ obligations, Relation sdk input obligations := by
  -- what each of the three checks says
  obtain ⟨hpublic, htransition, hburns, rfl⟩ := (execute_eq_ok sdk).1 h
  obtain ⟨htag, hconfig, hreturn, hnonces, href, hsize, htotal⟩ :=
    (validatePublicValues_eq_ok sdk.keccak256).1 hpublic
  obtain ⟨hwitnesses, hfold⟩ := (validateAccumulatorTransition_ok sdk).1 htransition
  obtain ⟨hne, hlen, obligations, hall, hrefs⟩ := validateBridgeBurns_ok sdk hburns
  obtain ⟨hnodup, -⟩ := foldlM_insertLeaf_ok sdk hQ hdef
    (fun pair hpair input hin => hinputs ⟨pair, hpair, hin⟩) hfold
  -- the leaves zipped with their witnesses are all the leaves, in order; likewise the burns
  have hnullifiers : ((input.returnLeaves.zip input.witness.accumulatorWitnesses).map
      fun pair => pair.1.nullifier) = input.returnLeaves.map ReturnLeaf.nullifier := by
    have hfst : (input.returnLeaves.zip input.witness.accumulatorWitnesses).map Prod.fst =
        input.returnLeaves := List.map_fst_zip (by omega)
    rw [← congrArg (List.map ReturnLeaf.nullifier) hfst, List.map_map]
    rfl
  have hpairs : (input.witness.bridgeBurns.zip input.returnLeaves).map Prod.fst =
      input.witness.bridgeBurns := List.map_fst_zip (by omega)
  have haccepted : ∀ pair ∈ input.witness.bridgeBurns.zip input.returnLeaves, ∃ os,
      BurnAccepted sdk input.config input.publicValues.trustBaseHash pair os :=
    exists_of_forall₂ hall
  refine ⟨rfl, obligations, ?_⟩
  exact {
    burns_length := hlen
    witnesses_length := hwitnesses.symm
    batchSize := by rw [hsize, UInt32.toNat_ofNat', Nat.mod_eq_of_lt input.leaves_lt]
    nonempty := by
      rw [← hlen]
      exact List.length_pos_iff.2 hne
    nullifiers := hnullifiers ▸ hnodup
    pays := by
      intro i hl hb
      have hi : i < (input.witness.bridgeBurns.zip input.returnLeaves).length := by
        rw [List.length_zip]
        omega
      have hmem := List.getElem_mem hi
      rw [List.getElem_zip] at hmem
      obtain ⟨os, hos⟩ := haccepted _ hmem
      exact hos.paysBurn sdk hamounts
    obligations_eq := by
      rw [← hpairs, List.forall₂_map_left_iff]
      exact hall.imp fun pair os hos => hos.obligations_eq
    lockRefs_perm := hrefs ▸ List.mergeSort_perm _ _
    lockRefs_sorted := hnonces
    verified := by
      intro burn hburn
      rw [← hpairs, List.mem_map] at hburn
      obtain ⟨pair, hpair, rfl⟩ := hburn
      obtain ⟨os, hos⟩ := haccepted pair hpair
      exact ⟨hos.trustBase, hos.verified⟩
    domainTag_eq := htag
    configHash_eq := hconfig
    returnRoot_eq := hreturn
    lockRefRoot_eq := href
    totalAmount_eq := htotal
    spentRootNew_eq := hfold }

/-- Witnesses inserted in order hash what the trees on the way hash. -/
theorem transitionInputs_ordered {spent : NullifierTree} {leaves : List ReturnLeaf}
    {witnesses : List NonMembershipWitness} {root : Bytes32}
    (h : orderedInsertWitnesses sdk.sha256 spent (leaves.map ReturnLeaf.nullifier) =
      .ok (witnesses, root)) :
    transitionInputs sdk leaves witnesses ⊆
      treesInputs sdk.sha256 (spent.keys ++ leaves.map ReturnLeaf.nullifier) := by
  obtain ⟨-, -, hhonest⟩ := orderedInsertWitnesses_ok sdk.sha256 h
  rintro data ⟨pair, hpair, hdata⟩
  have hmem : (pair.1.nullifier, pair.2) ∈ (leaves.map ReturnLeaf.nullifier).zip witnesses := by
    rw [List.zip_map_left]
    exact List.mem_map_of_mem hpair
  exact (hhonest _ hmem).inputs sdk.sha256 hdata

/-- The inputs of a batch's witnesses are those of trees. -/
theorem transitionInputs_batchOn {config : Core.BridgeConfig} {trustBaseHash : Bytes32}
    {spent : NullifierTree} {parts : List Part} (hshort : parts.length < 2 ^ 32)
    (hnew : (spent.keys ++ nullifiersOf parts).Nodup) :
    transitionInputs sdk (batchOn sdk config trustBaseHash spent parts hshort).returnLeaves
        (batchOn sdk config trustBaseHash spent parts hshort).witness.accumulatorWitnesses ⊆
      treesInputs sdk.sha256 (spent.keys ++ nullifiersOf parts) := by
  have hnullifiers : (parts.map Part.leaf).map ReturnLeaf.nullifier = nullifiersOf parts := by
    rw [List.map_map]
    rfl
  have hordered := @insertion_ok sdk spent parts hnew
  rw [← hnullifiers] at hordered ⊢
  exact transitionInputs_ordered sdk hordered

end Soundness

/-! ## The sample batch -/

theorem Sample.transition_inputs (turn : Sample.Turn) :
    transitionInputs Sample.sdk (Sample.input turn).returnLeaves
      (Sample.input turn).witness.accumulatorWitnesses ⊆
        treesInputs Sample.sdk.sha256 Sample.nullifiers := by
  rw [Sample.input_eq]
  refine (transitionInputs_batchOn Sample.sdk _ (Sample.input_new turn)).trans
    (treesInputs_mono _ ?_)
  cases turn <;> decide

/-- Two burns in one batch: a coin of its own lock, and one output of a split. -/
theorem execute_sound_sample : ∃ obligations, Relation Sample.sdk (Sample.input .first) obligations ∧
    (Sample.input .first).returnLeaves = [Sample.leaf .whole, Sample.leaf .left] := by
  obtain ⟨obligations, hrelation⟩ := (execute_sound Sample.sdk Sample.encodeAmount_beNat _
    Sample.sha256_collisionFree (defaultInputs_subset _ _) (Sample.transition_inputs .first)
    (Sample.input_accepted .first)).2
  exact ⟨obligations, hrelation, rfl⟩

end UnicityBridge.Guest
