import UnicityBridge.AccumulatorSound
import UnicityBridge.Guest
import Mathlib.Data.Nat.Size

/-!
# Batches of burns

`validate_bridge_burns` checks each burn against its own leaf and collects the locks behind it. What it
finds for a burn does not depend on the burns before it: the cache of anchor roots holds what a
verification would return. So burns that pass on their own pass as one batch, with the union of their
locks, once no lock is used twice (`validateBridgeBurns_merge`), and make an accepted input on every
accumulator that none of them was released on (`execute_batchOn`).

The last part is a sample: a mint against a lock, and a mint against a second lock that is split into
two. The SDK is instantiated by a CBOR reader that covers the encodings of these tokens and by the
answers the real SDK gives about them.
-/

set_option autoImplicit false

namespace UnicityBridge.Guest

open UnicityBridge.Lib UnicityBridge.Core UnicityBridge.TokenSdk UnicityBridge.Verify
open UnicityBridge.Accumulator (NonMembershipWitness NullifierTree orderedInsertWitnesses)

/-! ## The checks of the guest -/

section Checks

variable (sdk : Sdk)

/-- The lock reference of an obligation. -/
def toLockRef (obligation : Bridge.BridgeLockObligation) : SourceLockRef :=
  ⟨obligation.nonce, obligation.digest⟩

theorem validateAccumulatorTransition_ok {old new : Bytes32} {leaves : List ReturnLeaf}
    {witnesses : List NonMembershipWitness} :
    validateAccumulatorTransition sdk old new leaves witnesses = .ok () ↔
      leaves.length = witnesses.length ∧
        (leaves.zip witnesses).foldlM (insertLeaf sdk) old = .ok new := by
  simp only [validateAccumulatorTransition, bind_eq_ok, ensure_eq_ok, exists_const]
  constructor
  · rintro ⟨hlen, running, hfold, rfl⟩
    exact ⟨hlen, hfold⟩
  · rintro ⟨hlen, hfold⟩
    exact ⟨hlen, new, hfold, rfl⟩

/-- The checks of `execute`. -/
theorem execute_eq_ok {input : GuestInput} {pv : PublicValues} :
    execute sdk input = .ok pv ↔
      validatePublicValues sdk.keccak256 input.config input.publicValues input.returnLeaves
          input.sortedLockRefs = .ok () ∧
        validateAccumulatorTransition sdk input.publicValues.spentRootOld
          input.publicValues.spentRootNew input.returnLeaves
          input.witness.accumulatorWitnesses = .ok () ∧
        validateBridgeBurns sdk input.config input.publicValues.trustBaseHash input.returnLeaves
          input.sortedLockRefs input.witness.bridgeBurns = .ok () ∧
        pv = input.publicValues := by
  simp only [execute, bind_eq_ok, Except.ok.injEq]
  constructor
  · rintro ⟨_, hpublic, _, htransition, _, hburns, rfl⟩
    exact ⟨hpublic, htransition, hburns, rfl⟩
  · rintro ⟨hpublic, htransition, hburns, rfl⟩
    exact ⟨(), hpublic, (), htransition, (), hburns, rfl⟩

end Checks

/-! ## Sorting lock references -/

theorem nonces_pairwise_iff {refs : List SourceLockRef} :
    (nonces refs).Pairwise (· < ·) ↔ refs.Pairwise fun a b => a.nonce < b.nonce := by
  rw [nonces, List.pairwise_map]
  rfl

/-- **The sort is the one rising order** of references with distinct nonces. -/
theorem sortByNonce_eq {refs sorted : List SourceLockRef} (hperm : refs.Perm sorted)
    (hsorted : sorted.Pairwise fun a b => a.nonce < b.nonce) : sortByNonce refs = sorted := by
  refine @List.Perm.eq_of_pairwise _ (fun a b => decide (a.nonce ≤ b.nonce) = true) _ _ ?_ ?_ ?_ ?_
  · intro a b ha hb hab hba
    have hmem : a ∈ sorted := hperm.mem_iff.1 (List.mem_mergeSort.1 ha)
    have hle : a.nonce = b.nonce :=
      UInt64.le_antisymm (of_decide_eq_true hab) (of_decide_eq_true hba)
    rcases List.Pairwise.forall_of_forall_of_flip
      (R := fun a b : SourceLockRef => a = b ∨ a.nonce < b.nonce ∨ b.nonce < a.nonce)
      (fun a _ => .inl rfl) (hsorted.imp fun h => .inr (.inl h))
      (hsorted.imp fun h => .inr (.inr h)) hmem hb with rfl | hlt | hlt
    · rfl
    · exact absurd hlt (hle ▸ UInt64.lt_irrefl _)
    · exact absurd hlt (hle ▸ UInt64.lt_irrefl _)
  · apply List.pairwise_mergeSort
    · intro a b c hab hbc
      exact decide_eq_true (UInt64.le_trans (of_decide_eq_true hab) (of_decide_eq_true hbc))
    · intro a b
      rw [Bool.or_eq_true, decide_eq_true_iff, decide_eq_true_iff]
      exact UInt64.le_total _ _
  · exact hsorted.imp fun h => decide_eq_true (UInt64.le_of_lt h)
  · exact (List.mergeSort_perm refs _).trans hperm

theorem sortByNonce_perm (refs : List SourceLockRef) : (sortByNonce refs).Perm refs :=
  List.mergeSort_perm _ _

/-- Distinct nonces rise strictly in the sort. -/
theorem sortByNonce_pairwise {refs : List SourceLockRef}
    (h : refs.Pairwise fun a b => a.nonce ≠ b.nonce) :
    (sortByNonce refs).Pairwise fun a b => a.nonce < b.nonce := by
  have hle : (sortByNonce refs).Pairwise fun a b => decide (a.nonce ≤ b.nonce) = true := by
    apply List.pairwise_mergeSort
    · intro a b c hab hbc
      exact decide_eq_true (UInt64.le_trans (of_decide_eq_true hab) (of_decide_eq_true hbc))
    · intro a b
      rw [Bool.or_eq_true, decide_eq_true_iff, decide_eq_true_iff]
      exact UInt64.le_total _ _
  have hne : (sortByNonce refs).Pairwise fun a b => a.nonce ≠ b.nonce :=
    (sortByNonce_perm refs).symm.pairwise h fun hab => Ne.symm hab
  exact hle.imp₂ (fun a b hab hneab => UInt64.lt_of_le_of_ne (of_decide_eq_true hab) hneab) hne

/-! ## One burn -/

section Merge

variable (sdk : Sdk)

/-- Every cached root is the one that its certificate carries. -/
def Rooted (cache : List (UnicityCertificate × Bytes32)) : Prop :=
  ∀ entry ∈ cache, toByteArr 32 entry.1.inputRecordHash = some entry.2

variable {sdk}

theorem verifyAnchorCertificate_root {trustBase : RootTrustBase} {certificate : UnicityCertificate}
    {root : Bytes32} (h : verifyAnchorCertificate sdk trustBase certificate = .ok root) :
    toByteArr 32 certificate.inputRecordHash = some root := by
  simp only [verifyAnchorCertificate, verifyUnicityCertificate, bind_eq_ok, okOr_eq_ok] at h
  obtain ⟨_, -, _, -, _, -, _, -, _, -, hroot⟩ := h
  exact hroot

/-- An anchor that verifies has the same root from any cache. -/
theorem anchorRoot_rooted {trustBase : RootTrustBase} {anchor : UnicityCertificate} {root : Bytes32}
    {cache cache₀ : List (UnicityCertificate × Bytes32)} (hcache : Rooted cache)
    (h : anchorRoot sdk trustBase anchor [] = .ok (root, cache₀)) :
    ∃ cache', Rooted cache' ∧ anchorRoot sdk trustBase anchor cache = .ok (root, cache') := by
  have hverify : verifyAnchorCertificate sdk trustBase anchor = .ok root := by
    simp only [anchorRoot, List.find?_nil, bind_eq_ok, mapError_eq_ok, Except.ok.injEq] at h
    obtain ⟨_, hverify, heq⟩ := h
    exact (Prod.mk.inj heq).1 ▸ hverify
  have hroot := verifyAnchorCertificate_root hverify
  unfold anchorRoot
  split
  · next entry hfind =>
    have hsame : entry.1 = anchor := by simpa using List.find?_some hfind
    have hentry := hcache entry (List.mem_of_find?_eq_some hfind)
    rw [hsame, hroot] at hentry
    exact ⟨cache, hcache, by rw [Option.some.inj hentry]⟩
  · refine ⟨cache ++ [(anchor, root)], ?_, ?_⟩
    · intro entry hentry
      rcases List.mem_append.1 hentry with hold | hnew
      · exact hcache entry hold
      · rw [List.mem_singleton.1 hnew]
        exact hroot
    · simp only [bind_eq_ok, mapError_eq_ok]
      exact ⟨root, hverify, rfl⟩

/-- The obligations of a burn do not depend on the cache. -/
theorem burnObligations_rooted {config : Core.BridgeConfig} {burn : BridgeBurnWitness}
    {obligations : List Bridge.BridgeLockObligation}
    {cache cache₀ : List (UnicityCertificate × Bytes32)} (hcache : Rooted cache)
    (h : burnObligations sdk config burn [] = .ok (obligations, cache₀)) :
    ∃ cache', Rooted cache' ∧
      burnObligations sdk config burn cache = .ok (obligations, cache') := by
  unfold burnObligations at h ⊢
  cases hmode : burn.verification with
  | anchored anchor =>
      simp only [hmode, bind_eq_ok, Prod.exists, Except.ok.injEq] at h
      obtain ⟨root, _, hroot, os, hos, heq⟩ := h
      obtain ⟨cache', hcache', hanchor⟩ := anchorRoot_rooted hcache hroot
      refine ⟨cache', hcache', ?_⟩
      simp only [bind_eq_ok, Prod.exists]
      exact ⟨root, cache', hanchor, os, hos, by rw [(Prod.mk.inj heq).1]⟩
  | certified =>
      simp only [hmode, bind_eq_ok, Except.ok.injEq] at h
      obtain ⟨os, hos, heq⟩ := h
      refine ⟨cache, hcache, ?_⟩
      simp only [bind_eq_ok]
      exact ⟨os, hos, by rw [(Prod.mk.inj heq).1]⟩

/-- A burn accepted alone is accepted after any others, and adds its own obligations. -/
theorem validateBurn_rooted {config : Core.BridgeConfig} {trustBaseHash : Bytes32}
    {pair : BridgeBurnWitness × ReturnLeaf} {alone : BurnsState}
    {cache : List (UnicityCertificate × Bytes32)} (hcache : Rooted cache)
    (obligations : List SourceLockRef)
    (h : validateBurn sdk config trustBaseHash ⟨[], []⟩ pair = .ok alone) :
    ∃ cache', Rooted cache' ∧
      validateBurn sdk config trustBaseHash ⟨cache, obligations⟩ pair =
        .ok ⟨cache', obligations ++ alone.obligations⟩ := by
  obtain ⟨burn, leaf⟩ := pair
  simp only [validateBurn, bind_eq_ok, ensure_eq_ok, Prod.exists, Except.ok.injEq] at h
  obtain ⟨_, htrust, os, _, hburn, _, hterminal, _, hvalue, rfl⟩ := h
  obtain ⟨cache', hcache', hburn'⟩ := burnObligations_rooted hcache hburn
  refine ⟨cache', hcache', ?_⟩
  simp only [validateBurn, bind_eq_ok, ensure_eq_ok, Prod.exists, Except.ok.injEq]
  exact ⟨(), htrust, os, cache', hburn', (), hterminal, (), hvalue, by rw [List.nil_append]⟩

/-- A chain of insertions under the leaves is one under their nullifiers. -/
theorem foldlM_insertLeaf_eq_ok {leaves : List ReturnLeaf}
    {witnesses : List NonMembershipWitness} {root r : Bytes32} :
    (leaves.zip witnesses).foldlM (insertLeaf sdk) root = .ok r ↔
      ((leaves.map ReturnLeaf.nullifier).zip witnesses).foldlM
        (fun root p => Accumulator.insert sdk.sha256 root p.1 p.2) root = some r := by
  induction leaves generalizing witnesses root with
  | nil => simp
  | cons leaf rest ih =>
      cases witnesses with
      | nil => simp
      | cons witness more =>
          simp only [List.zip_cons_cons, List.map_cons, List.foldlM_cons, bind_eq_ok, insertLeaf,
            okOr_eq_ok, Option.bind_eq_bind, Option.bind_eq_some_iff, ih]

/-! ## All burns -/

/-- The loop over burns that are each accepted alone. -/
theorem foldlM_validateBurn_rooted {config : Core.BridgeConfig} {trustBaseHash : Bytes32}
    {pairs : List (BridgeBurnWitness × ReturnLeaf)} {alone : List BurnsState}
    (h : List.Forall₂ (fun pair state =>
      validateBurn sdk config trustBaseHash ⟨[], []⟩ pair = .ok state) pairs alone) :
    ∀ (cache : List (UnicityCertificate × Bytes32)) (obligations : List SourceLockRef),
      Rooted cache → ∃ cache', pairs.foldlM (validateBurn sdk config trustBaseHash)
        ⟨cache, obligations⟩ = .ok ⟨cache', obligations ++ alone.flatMap BurnsState.obligations⟩ := by
  induction h with
  | nil =>
      intro cache obligations _
      exact ⟨cache, by simp⟩
  | cons hhead _ ih =>
      intro cache obligations hcache
      obtain ⟨mid, hmid, hstep⟩ := validateBurn_rooted hcache obligations hhead
      obtain ⟨cache', hrest⟩ := ih _ (obligations ++ _) hmid
      refine ⟨cache', ?_⟩
      rw [List.foldlM_cons, bind_eq_ok]
      refine ⟨_, hstep, ?_⟩
      rw [hrest, List.flatMap_cons, List.append_assoc]

/-- What a burn alone establishes. -/
theorem validateBridgeBurns_single {config : Core.BridgeConfig} {trustBaseHash : Bytes32}
    {leaf : ReturnLeaf} {refs : List SourceLockRef} {burn : BridgeBurnWitness} :
    validateBridgeBurns sdk config trustBaseHash [leaf] refs [burn] = .ok () ↔
      ∃ alone, validateBurn sdk config trustBaseHash ⟨[], []⟩ (burn, leaf) = .ok alone ∧
        sortByNonce alone.obligations = refs := by
  simp [validateBridgeBurns]

/-- A burn with its leaf and its lock references. -/
structure Part where
  burn : BridgeBurnWitness
  leaf : ReturnLeaf
  refs : List SourceLockRef

/-- **Burns accepted alone are accepted together**, when no lock is used twice. -/
theorem validateBridgeBurns_merge {config : Core.BridgeConfig} {trustBaseHash : Bytes32}
    {parts : List Part} (hne : parts ≠ [])
    (halone : ∀ part ∈ parts,
      validateBridgeBurns sdk config trustBaseHash [part.leaf] part.refs [part.burn] = .ok ())
    (hdisjoint : (parts.flatMap Part.refs).Pairwise fun a b => a.nonce ≠ b.nonce) :
    validateBridgeBurns sdk config trustBaseHash (parts.map Part.leaf)
      (sortByNonce (parts.flatMap Part.refs)) (parts.map Part.burn) = .ok () := by
  -- what each burn leaves behind on its own
  obtain ⟨alone, hforall⟩ : ∃ alone : List BurnsState, List.Forall₂ (fun part state =>
      validateBurn sdk config trustBaseHash ⟨[], []⟩ (part.burn, part.leaf) = .ok state ∧
        sortByNonce state.obligations = part.refs) parts alone := by
    clear hne hdisjoint
    induction parts with
    | nil => exact ⟨[], .nil⟩
    | cons part rest ih =>
        rw [List.forall_mem_cons] at halone
        obtain ⟨state, hstate⟩ := validateBridgeBurns_single.1 halone.1
        obtain ⟨states, hstates⟩ := ih halone.2
        exact ⟨state :: states, .cons hstate hstates⟩
  have hpairs : (parts.map Part.burn).zip (parts.map Part.leaf) =
      parts.map fun part => (part.burn, part.leaf) := by
    exact List.zip_map'
  have hloop : List.Forall₂ (fun pair state =>
      validateBurn sdk config trustBaseHash ⟨[], []⟩ pair = .ok state)
      (parts.map fun part => (part.burn, part.leaf)) alone :=
    List.forall₂_map_left_iff.2 (hforall.imp fun _ _ h => h.1)
  have hperm : (alone.flatMap BurnsState.obligations).Perm (parts.flatMap Part.refs) := by
    clear hne hdisjoint halone hpairs hloop
    induction hforall with
    | nil => exact List.Perm.refl _
    | cons hhead _ ih =>
        rw [List.flatMap_cons, List.flatMap_cons]
        refine List.Perm.append ?_ ih
        rw [← hhead.2]
        exact (sortByNonce_perm _).symm
  obtain ⟨cache, hfold⟩ := foldlM_validateBurn_rooted hloop [] []
    fun _ h => absurd h List.not_mem_nil
  simp only [validateBridgeBurns, bind_eq_ok, ensure_eq_ok, hpairs]
  refine ⟨(), ⟨by simpa using hne, by simp⟩, _, hfold, ?_⟩
  rw [List.nil_append]
  exact sortByNonce_eq (hperm.trans (sortByNonce_perm _).symm) (sortByNonce_pairwise hdisjoint)

end Merge

/-! ## A batch on an accumulator -/

section Batch

variable (sdk : Sdk) (config : Core.BridgeConfig) (trustBaseHash : Bytes32)

/-- The nullifiers that a batch of these parts releases. -/
def nullifiersOf (parts : List Part) : List Bytes32 := parts.map fun part => part.leaf.nullifier

/-- The witnesses of a batch on the accumulator of `spent`, and the root after it. -/
def insertion (spent : NullifierTree) (parts : List Part) : List NonMembershipWitness × Bytes32 :=
  (orderedInsertWitnesses sdk.sha256 spent (nullifiersOf parts)).toOption.getD
    ([], spent.root sdk.sha256)

/-- The input that returns the parts after the nullifiers of `spent`. -/
def batchOn (spent : NullifierTree) (parts : List Part) (hshort : parts.length < 2 ^ 32) :
    GuestInput where
  config := config
  publicValues := {
    domainTag := domainTag sdk.keccak256
    configHash := configHash sdk.keccak256 config
    trustBaseHash := trustBaseHash
    spentRootOld := spent.root sdk.sha256
    spentRootNew := (insertion sdk spent parts).2
    returnRoot := returnRoot sdk.keccak256 (parts.map Part.leaf)
    lockRefRoot := sdk.keccak256 ((sortByNonce (parts.flatMap Part.refs)).flatMap refWords)
    batchSize := UInt32.ofNat (parts.map Part.leaf).length
    totalAmount := sumAmounts (parts.map Part.leaf) }
  returnLeaves := parts.map Part.leaf
  sortedLockRefs := sortByNonce (parts.flatMap Part.refs)
  witness := {
    accumulatorWitnesses := (insertion sdk spent parts).1
    bridgeBurns := parts.map Part.burn }
  leaves_lt := by rwa [List.length_map]

variable {sdk} {config} {trustBaseHash}

/-- New nullifiers have witnesses, in order. -/
theorem insertion_ok {spent : NullifierTree} {parts : List Part}
    (hnew : (spent.keys ++ nullifiersOf parts).Nodup) :
    orderedInsertWitnesses sdk.sha256 spent (nullifiersOf parts) =
      .ok (insertion sdk spent parts) := by
  obtain ⟨ws, hordered⟩ := (Accumulator.orderedInsertWitnesses_eq_ok sdk.sha256).2 ⟨hnew, rfl⟩
  rw [insertion, hordered]
  rfl

/-- Witnesses inserted in order are a chain of insertions for the guest. -/
theorem transition_ordered {spent : NullifierTree} {leaves : List ReturnLeaf}
    {witnesses : List NonMembershipWitness} {root : Bytes32}
    (h : orderedInsertWitnesses sdk.sha256 spent (leaves.map ReturnLeaf.nullifier) =
      .ok (witnesses, root)) :
    validateAccumulatorTransition sdk (spent.root sdk.sha256) root leaves witnesses = .ok () := by
  obtain ⟨hlength, hroots, -⟩ := Accumulator.orderedInsertWitnesses_ok sdk.sha256 h
  refine (validateAccumulatorTransition_ok sdk).2 ⟨?_, foldlM_insertLeaf_eq_ok.2 hroots⟩
  rw [hlength, List.length_map]

/-- **Burns that pass their own checks can be returned together**, after any nullifiers that are not
theirs, when no lock is used twice. -/
theorem execute_batchOn {spent : NullifierTree} {parts : List Part} (hshort : parts.length < 2 ^ 32)
    (hne : parts ≠ []) (hnew : (spent.keys ++ nullifiersOf parts).Nodup)
    (halone : ∀ part ∈ parts,
      validateBridgeBurns sdk config trustBaseHash [part.leaf] part.refs [part.burn] = .ok ())
    (hdisjoint : (parts.flatMap Part.refs).Pairwise fun a b => a.nonce ≠ b.nonce) :
    execute sdk (batchOn sdk config trustBaseHash spent parts hshort) =
      .ok (batchOn sdk config trustBaseHash spent parts hshort).publicValues := by
  have hordered := @insertion_ok sdk spent parts hnew
  have hnullifiers : nullifiersOf parts = (parts.map Part.leaf).map ReturnLeaf.nullifier := by
    rw [List.map_map]
    rfl
  rw [hnullifiers] at hordered
  refine (execute_eq_ok sdk).2 ⟨?_, transition_ordered hordered,
    validateBridgeBurns_merge hne halone hdisjoint, rfl⟩
  refine (validatePublicValues_eq_ok sdk.keccak256).2 ⟨rfl, rfl, rfl, ?_, rfl, rfl, rfl⟩
  exact nonces_pairwise_iff.2 (sortByNonce_pairwise hdisjoint)

end Batch

/-! ## A mint and a split -/

namespace Sample

/-- The head of a CBOR item: its major type, its argument and what follows. -/
def readHead : Bytes → Option (Nat × Nat × Bytes)
  | [] => none
  | lead :: rest =>
      let info := lead.toNat % 32
      let width := if info = 24 then 1 else if info = 25 then 2 else if info = 26 then 4
        else if info = 27 then 8 else 0
      if info < 24 then some (lead.toNat / 32, info, rest)
      else if info < 28 ∧ width ≤ rest.length then
        some (lead.toNat / 32, beNat (rest.take width), rest.drop width)
      else none

/-- What follows `count` items; `fuel` bounds the nesting. -/
def skipItems : Nat → Nat → Bytes → Option Bytes
  | _, 0, slice => some slice
  | 0, _ + 1, _ => none
  | fuel + 1, count + 1, slice => do
      let (major, argument, rest) ← readHead slice
      let after ←
        if major = 2 ∨ major = 3 then
          if argument ≤ rest.length then some (rest.drop argument) else none
        else if major = 4 then skipItems fuel argument rest
        else if major = 6 then skipItems fuel 1 rest
        else some rest
      skipItems fuel count after

/-- The first `count` items of a slice, and nothing after them. -/
def splitItems : Nat → Bytes → Option (List Bytes)
  | 0, slice => if slice = [] then some [] else none
  | count + 1, slice => do
      let after ← skipItems 16 1 slice
      let rest ← splitItems count after
      some (slice.take (slice.length - after.length) :: rest)

/-- What a tagged item holds. -/
def readTag (slice : Bytes) (tag : UInt64) : Option Bytes := do
  let (major, argument, rest) ← readHead slice
  if major = 6 ∧ argument = tag.toNat then some rest else none

/-- The items of an array of `count` items. -/
def readArray (slice : Bytes) (count : Nat) : Option (List Bytes) := do
  let (major, argument, rest) ← readHead slice
  if major = 4 ∧ argument = count then splitItems count rest else none

/-- The value of an unsigned integer item. -/
def readUint (slice : Bytes) : Option UInt64 := do
  let (major, argument, rest) ← readHead slice
  if major = 0 ∧ rest = [] then some (UInt64.ofNat argument) else none

/-- The content of a byte string item. -/
def readBytes (slice : Bytes) : Option Bytes := do
  let (major, argument, rest) ← readHead slice
  if major = 2 ∧ rest.length = argument then some rest else none

/-- The mints of the sample: one against the first lock, one against the second lock, which is split,
and the two outputs of the split. -/
inductive Coin where
  | whole
  | source
  | left
  | right
  deriving DecidableEq

namespace Coin

/-- Byte the coin's digests and keys repeat. -/
def number : Coin → UInt8
  | .whole => 0x41
  | .source => 0x42
  | .left => 0x43
  | .right => 0x44

/-- What the coin is worth. -/
def amount : Coin → UInt8
  | .whole => 5
  | .source => 7
  | .left => 3
  | .right => 4

/-- The mint whose lock is behind the coin. -/
def root : Coin → Coin
  | .whole => .whole
  | _ => .source

/-- The nonce of that lock. -/
def nonce : Coin → UInt8
  | .whole => 0
  | _ => 1

end Coin

/-- A word of one repeated byte. -/
def word (number : UInt8) : Bytes32 := List.Vector.replicate 32 number

/-- The vault of the sample. -/
def config : Core.BridgeConfig where
  sourceChainId := 1
  vault := List.Vector.replicate 20 0x11
  asset := List.Vector.replicate 20 0x22
  tokenType := word 0x33
  coinId := word 0x44
  reasonTag := 39048
  lockDomain := word 0x55
  nullifierDomain := word 0x66

/-- `[[coinId, amount]]` -/
def assetBytes (amount : UInt8) : Bytes :=
  [0x81, 0x82, 0x58, 0x20] ++ config.coinId.toList ++ [0x41, amount]

/-- `39050([1, [[coinId, amount]], null])` -/
def paymentBytes (amount : UInt8) : Bytes :=
  [0xd9, 0x98, 0x8a, 0x83, 0x01] ++ assetBytes amount ++ [0xf6]

/-- `1330002([1, chain, vault, asset, txid, 3, amount, nonce])` -/
def lockBytes (amount nonce : UInt8) : Bytes :=
  [0xda, 0x00, 0x14, 0x4b, 0x52, 0x88, 0x01, 0x01, 0x54] ++ config.vault.toList ++ [0x54] ++
    config.asset.toList ++ [0x58, 0x20] ++ List.replicate 32 0x77 ++ [0x03, amount, nonce]

/-- `39048([1, chain, vault, asset, tokenType, coinId, recipient, amount, feeRecipient, 1, 100])` -/
def reasonBytes (amount : UInt8) : Bytes :=
  [0xd9, 0x98, 0x88, 0x8b, 0x01, 0x01, 0x54] ++ config.vault.toList ++ [0x54] ++
    config.asset.toList ++ [0x58, 0x20] ++ config.tokenType.toList ++ [0x58, 0x20] ++
    config.coinId.toList ++ [0x54] ++ List.replicate 20 0x91 ++ [0x41, amount, 0x54] ++
    List.replicate 20 0x92 ++ [0x41, 1, 0x18, 100]

/-- A split justification is a tag in front of the justification of the token that was split. -/
def splitOf (justification : Bytes) : Bytes := 0xd9 :: 0x98 :: 0x84 :: justification

/-- `[7]`: the one root of the split. -/
def manifestBytes : Bytes := [0x81, 0x07]

/-- Whoever holds the coins before their burn. -/
def owner : EncodedPredicate := ⟨[1]⟩

/-- The predicate of every mint. -/
def minter : EncodedPredicate := ⟨[2]⟩

/-- The network of the sample. -/
def network : NetworkId := ⟨3⟩

/-- The predicate of a burn for a reason: a predicate kind of its own. -/
def burnPredicate (reason : Bytes) : EncodedPredicate := ⟨9 :: reason⟩

/-- What a coin was minted for. -/
def justification : Coin → Bytes
  | .whole => lockBytes 5 0
  | .source => lockBytes 7 1
  | _ => splitOf (lockBytes 7 1)

/-- The mint of the coin. -/
def mint (coin : Coin) : MintTransaction where
  networkId := network
  recipient := owner
  tokenType := config.tokenType.toList
  salt := word coin.number
  data := some (paymentBytes coin.amount)
  justification := some (justification coin)
  expiresAt := none

/-- What the burn of a coin is for, with its commitment: the source is split, the others return. -/
def burned : Coin → Bytes × Bytes
  | .source => (manifestBytes, [])
  | coin => (reasonBytes coin.amount, (Accumulator.sampleHash (reasonBytes coin.amount)).toList)

/-- The transfer that burns the coin. -/
def burn (coin : Coin) : TransferTransaction where
  sourceStateHash := DataHash.sha256 (word coin.number)
  lockScript := owner
  recipient := burnPredicate (burned coin).2
  stateMask := []
  data := some (burned coin).1
  expiresAt := none

/-- The state that a transaction spends: a burn the one that its mint created. -/
def spentState : Transaction → DataHash
  | .mint transaction => DataHash.sha256 (transaction.salt.map (· + 0x80))
  | .transfer transaction => transaction.sourceStateHash

/-- The transactions that the aggregator certified. -/
def transactions : List Transaction :=
  [.mint (mint .whole), .transfer (burn .whole), .mint (mint .source), .transfer (burn .source),
    .mint (mint .left), .transfer (burn .left), .mint (mint .right), .transfer (burn .right)]

/-- A certified transaction has the hash of the state that it spends. -/
def transactionHash (transaction : Transaction) : DataHash :=
  if transaction ∈ transactions then spentState transaction else ⟨.sha256, []⟩

/-- The state a transaction ends in, where the sample needs one. -/
def stateHash : Transaction → DataHash
  | .mint transaction => DataHash.sha256 transaction.salt
  | .transfer _ => ⟨.sha256, []⟩

/-- The state that a state hash addresses. -/
def stateOf (hash : DataHash) : Bytes32 := Accumulator.lastBytes hash.data

/-- The one certificate of the sample, signed by the node of `trustBase`. -/
def certificate : UnicityCertificate where
  inputRecordHash := (word 0xc0).toList
  shard := ⟨[]⟩
  unicitySeal := ⟨network, (word 0xc0).toList, [("NODE", [7])], []⟩
  other := []

/-- A trust base of one node. -/
def trustBase : RootTrustBase where
  version := 0
  networkId := network
  epoch := 0
  epochStartRound := 0
  rootNodes := [⟨"NODE", ⟨[5]⟩, 1⟩]
  quorumThreshold := 1

/-- A proof of inclusion under `certificate`. -/
def inclusionProof (lockScript : EncodedPredicate) (state : DataHash) : InclusionProof where
  certificationData := ⟨lockScript, state, state, [], none⟩
  referenceTime := 0
  inclusionCertificate := ⟨[]⟩
  unicityCertificate := certificate

/-- The coin with its burn. -/
def token (coin : Coin) : Token where
  genesis := ⟨mint coin, inclusionProof minter (spentState (.mint (mint coin)))⟩
  transactions := [⟨burn coin, inclusionProof owner (spentState (.transfer (burn coin)))⟩]

/-- The one split of the sample. -/
def splitFromCbor (bytes : Bytes) : Option SplitMintJustification :=
  if bytes = splitOf (lockBytes 7 1) then some ⟨token .source, [⟨[]⟩]⟩ else none

theorem splitFromCbor_eq_some {bytes : Bytes} {split : SplitMintJustification}
    (h : splitFromCbor bytes = some split) :
    bytes = splitOf (lockBytes 7 1) ∧ split = ⟨token .source, [⟨[]⟩]⟩ := by
  unfold splitFromCbor at h
  split at h
  · next hbytes => exact ⟨hbytes, (Option.some.inj h).symm⟩
  · cases h

/-- The entries of the split's sum tree, by token id. -/
def entries : List (Bytes32 × Nat) := [(word Coin.left.number, 3), (word Coin.right.number, 4)]

/-- A Keccak that tells short inputs apart: the residue of the bytes as a number. -/
def keccak256 (input : Bytes) : Bytes32 := ByteArr.ofNat 32 (beNat input % (2 ^ 255 - 19))

/-- An SDK that reads the sample's tokens. -/
def sdk : Sdk where
  sha256 := Accumulator.sampleHash
  keccak256 := keccak256
  finish slice := if skipItems 16 1 slice = some [] then some () else none
  expectTag := readTag
  array := readArray
  uint := readUint
  bytesValue := readBytes
  isNull slice := slice == [0xf6]
  encodeUint value := major 0 value
  encodeByteString := cborBytes
  encodeTextString text := cborText (utf8 text)
  encodeArray items := arrayHeader (UInt64.ofNat items.length) ++ items.flatten
  trustBaseValid _ := true
  signingKey trustBase nodeId :=
    (trustBase.rootNodes.find? fun node => node.nodeId == nodeId).map (·.signingKey)
  computedSealHash certificate := some ⟨.sha256, certificate.inputRecordHash⟩
  sealHash unicitySeal := ⟨.sha256, unicitySeal.hash⟩
  verifySignature _ _ _ := true
  decodeSignature signature := some signature
  deriveStateId _ hash := stateOf hash
  leafValue hash _ := hash.data
  verifyInclusion _ stateId leafValue _ := stateId.toList == leafValue
  isPrefixOf _ _ := true
  signaturePredicate key := ⟨key.bytes⟩
  burnPredicate := burnPredicate
  signatureKey predicate := if predicate.toCbor.head? = some 9 then none else some ⟨predicate.toCbor⟩
  minterKey _ := some ⟨minter.toCbor⟩
  verifySignatureUnlock _ _ _ _ := true
  deriveTokenId _ salt := salt
  mintLockScript _ := minter
  mintSourceStateHash transaction := spentState (.mint transaction)
  transactionHash := transactionHash
  stateHash := stateHash
  paymentFromCbor slice :=
    if slice = assetBytes (slice.getLastD 0) then
      some ⟨[⟨config.coinId.toList, (slice.getLastD 0).toNat⟩]⟩
    else none
  encodeAmount value := beBytes ((value.size + 7) / 8) value
  splitFromCbor := splitFromCbor
  manifestFromCbor bytes := if bytes = manifestBytes then some ⟨[[7]]⟩ else none
  reasonHash _ := []
  splitOutputCommitment _ _ _ _ _ _ _ := []
  verifyAllocation _ tokenId _ amount root :=
    if root = [7] ∧ (tokenId, amount) ∈ entries then some 7 else none
  split_nested := by
    intro bytes split h inner hinner
    obtain ⟨rfl, rfl⟩ := splitFromCbor_eq_some h
    obtain rfl := Option.some.inj hinner
    exact Nat.lt_add_of_pos_right (by decide : 0 < 3)

/-- The burn of the coin as the relation takes it. -/
def witness (coin : Coin) : BridgeBurnWitness := ⟨token coin, trustBase, .certified, 1330002⟩

/-- The nullifier of a burn is its hash, since hashes keep the last 32 bytes. -/
def leaf (coin : Coin) : ReturnLeaf where
  nullifier := word coin.number
  recipient := List.Vector.replicate 20 0x91
  amount := ByteArr.ofNat 32 coin.amount.toNat
  feeRecipient := List.Vector.replicate 20 0x92
  feeAmount := ByteArr.ofNat 32 1
  deadline := 100

/-- The obligation of a coin: the lock behind it. -/
def obligation (coin : Coin) : Bridge.BridgeLockObligation where
  nonce := coin.nonce.toUInt64
  digest := Bridge.lockDigest sdk (sdkBridgeConfig config) coin.nonce.toUInt64
    (ByteArr.ofNat 32 coin.root.amount.toNat) (word coin.root.number) (sdk.sha256 owner.toCbor)

/-- A coin has the obligation of its root. -/
theorem obligation_root (coin : Coin) : obligation coin.root = obligation coin := by
  cases coin <;> rfl

theorem decode_payment (coin : Coin) : Bridge.decodeBridgedPaymentData sdk (paymentBytes coin.amount) =
    some ⟨[⟨config.coinId.toList, coin.amount.toNat⟩]⟩ := by
  cases coin <;> rfl

/-- The sample writes every amount big-endian. -/
theorem encodeAmount_beNat (value : Nat) : beNat (sdk.encodeAmount value) = value := by
  refine beNat_beBytes_of_lt (lt_of_lt_of_le (Nat.lt_size_self value) ?_)
  have hpow : (256 : Nat) = 2 ^ 8 := by decide
  rw [hpow, ← pow_mul]
  exact Nat.pow_le_pow_right (by decide) (by omega)

theorem encodeAmount_coin (coin : Coin) : sdk.encodeAmount coin.amount.toNat = [coin.amount] := by
  cases coin <;> decide

theorem get_coin (coin : Coin) : PaymentAssetCollection.get ⟨[⟨config.coinId.toList,
    coin.amount.toNat⟩]⟩ config.coinId.toList = some ⟨config.coinId.toList, coin.amount.toNat⟩ := by
  rfl

theorem decode_lock {coin : Coin} (hroot : coin.root = coin) :
    Bridge.BridgeLockJustification.fromCborBytes sdk (justification coin) 1330002 =
      .ok ⟨1, config.vault, config.asset, word 0x77, 3, coin.amount.toUInt64, coin.nonce.toUInt64⟩ := by
  cases coin with
  | whole => rfl
  | source => rfl
  | left => cases hroot
  | right => cases hroot

theorem word_amount (coin : Coin) : Bridge.u256FromBiguint sdk coin.amount.toNat =
    some (ByteArr.ofNat 32 coin.amount.toNat) := by
  rw [Bridge.u256FromBiguint, encodeAmount_coin]
  cases coin <;> rfl

theorem direct_obligation {coin : Coin} (hroot : coin.root = coin) :
    Bridge.bridgeLockObligation sdk (token coin).genesis 1330002 (sdkBridgeConfig config) =
      .ok (obligation coin) := by
  have hvalue : coin.amount.toNat = coin.amount.toUInt64.toNat := (UInt8.toNat_toUInt64 _).symm
  simp only [Bridge.bridgeLockObligation, bind_eq_ok, okOr_eq_ok, ensure_eq_ok]
  refine ⟨(), rfl, justification coin, rfl, _, decode_lock hroot, (), ⟨rfl, rfl, rfl⟩, _, rfl, _,
    decode_payment coin, _, get_coin coin, (), hvalue, _, word_amount coin, ?_⟩
  rw [obligation, hroot]
  rfl

/-! Verification -/

theorem mem_transactions (coin : Coin) :
    .mint (mint coin) ∈ transactions ∧ .transfer (burn coin) ∈ transactions := by
  cases coin <;> simp [transactions]

theorem hash_mint (coin : Coin) :
    sdk.transactionHash (.mint (mint coin)) = spentState (.mint (mint coin)) :=
  if_pos (mem_transactions coin).1

theorem hash_burn (coin : Coin) :
    sdk.transactionHash (.transfer (burn coin)) = spentState (.transfer (burn coin)) :=
  if_pos (mem_transactions coin).2

theorem certified_root : verifyUnicityCertificate sdk trustBase certificate = .ok (word 0xc0) := by
  simp only [verifyUnicityCertificate, bind_eq_ok, okOr_eq_ok, ensure_eq_ok]
  exact ⟨(), rfl, _, rfl, (), rfl, (), by decide, rfl⟩

/-- A transaction of the sample is included with the state that it spends. -/
theorem included {transaction : Transaction} {state : Bytes32}
    (hlock : sdk.signatureKey (transaction.lockScript sdk) = some ⟨(transaction.lockScript sdk).toCbor⟩)
    (hsource : transaction.sourceStateHash sdk = DataHash.sha256 state)
    (hexpires : transaction.expiresAt = none)
    (hhash : sdk.transactionHash transaction = DataHash.sha256 state) :
    verifyInclusionAgainstRoot sdk (word 0xc0)
      (inclusionProof (transaction.lockScript sdk) (DataHash.sha256 state)) transaction = .ok () := by
  have hstate : (transaction.stateId sdk).toList = state.toList := by
    rw [Transaction.stateId, hsource]
    exact congrArg List.Vector.toList (Accumulator.lastBytes_toList state)
  simp only [verifyInclusionAgainstRoot, verifyPredicate, bind_eq_ok, okOr_eq_ok, ensure_eq_ok,
    hhash]
  refine ⟨(), ⟨rfl, hsource.symm, hexpires.symm⟩, (), rfl, (), fun _ h => (by cases h), (), ?_, (),
    .inl rfl, ⟨_, hlock, rfl⟩⟩
  exact beq_iff_eq.2 hstate

theorem included_mint (coin : Coin) : verifyInclusionAgainstRoot sdk (word 0xc0)
    (token coin).genesis.inclusionProof (.mint (mint coin)) = .ok () :=
  included rfl rfl rfl (hash_mint coin)

theorem included_burn (coin : Coin) : verifyInclusionAgainstRoot sdk (word 0xc0)
    (inclusionProof owner (spentState (.transfer (burn coin)))) (.transfer (burn coin)) = .ok () :=
  included rfl rfl rfl (hash_burn coin)

theorem verified (coin : Coin) : verifyTokenCertified sdk (token coin) trustBase = .ok () := by
  have hmint : verifyGenesisWithOwnCertificate sdk (token coin) trustBase = .ok () := by
    simp only [verifyGenesisWithOwnCertificate, checkMintLockScript,
      verifyInclusionWithOwnCertificate, bind_eq_ok, okOr_eq_ok, ensure_eq_ok, mapError_eq_ok]
    exact ⟨(), rfl, (), ⟨_, rfl, rfl⟩, _, certified_root, included_mint coin⟩
  simp only [verifyTokenCertified, bind_eq_ok, ensure_eq_ok, forM_eq_ok, mapError_eq_ok,
    verifyInclusionWithOwnCertificate]
  refine ⟨(), rfl, (), hmint, fun transfer htransfer => ?_⟩
  obtain rfl := List.mem_singleton.1 htransfer
  exact ⟨_, certified_root, included_burn coin⟩

theorem decode_manifest : sdk.manifestFromCbor manifestBytes = some ⟨[[7]]⟩ := by rfl

theorem decode_split : sdk.splitFromCbor (splitOf (lockBytes 7 1)) = some ⟨token .source, [⟨[]⟩]⟩ := by
  have hsdk : sdk.splitFromCbor = splitFromCbor := rfl
  rw [hsdk, splitFromCbor, if_pos rfl]

/-- The outputs of the split have their entries in its sum tree. -/
theorem split_checks {coin : Coin} (hroot : coin.root ≠ coin) :
    Bridge.verifySplitMint sdk (token coin) ⟨token .source, [⟨[]⟩]⟩ (.ok [obligation coin]) =
      .ok [obligation coin] := by
  have hentry : (word coin.number, coin.amount.toNat) ∈ entries := by
    cases coin with
    | whole => exact absurd rfl hroot
    | source => exact absurd rfl hroot
    | left => exact List.mem_cons_self
    | right => exact List.mem_cons_of_mem _ List.mem_cons_self
  simp only [Bridge.verifySplitMint, bind_eq_ok, okOr_eq_ok, ensure_eq_ok, forM_eq_ok]
  refine ⟨_, rfl, _, decode_payment coin, (), rfl, _, rfl, _, rfl, manifestBytes, rfl, ⟨[[7]]⟩,
    decode_manifest, (), rfl, (), rfl, _, rfl, _, decode_payment .source, (), rfl, (), rfl, (), ?_, rfl⟩
  intro pair hpair
  obtain rfl := List.mem_singleton.1 hpair
  simp only [Bridge.verifyAllocations, bind_eq_ok, okOr_eq_ok]
  refine ⟨0, by simp, ?_⟩
  simp only [List.getElem?_cons_zero, bind_eq_ok, okOr_eq_ok, ensure_eq_ok]
  exact ⟨7, if_pos ⟨rfl, hentry⟩, rfl⟩

/-- An output of the split is no direct mint. -/
theorem split_indirect {coin : Coin} (hroot : coin.root ≠ coin) :
    ∃ directErr, Bridge.bridgeLockObligation sdk (token coin).genesis 1330002
      (sdkBridgeConfig config) = .error directErr := by
  cases coin with
  | whole => exact absurd rfl hroot
  | source => exact absurd rfl hroot
  | left => exact ⟨_, rfl⟩
  | right => exact ⟨_, rfl⟩

theorem obligations (coin : Coin) : Bridge.bridgeLockObligationsForVerifiedToken sdk (token coin)
    trustBase 1330002 (sdkBridgeConfig config) = .ok [obligation coin] := by
  by_cases hroot : coin.root = coin
  · exact (Bridge.obligationsForVerifiedToken_eq_ok sdk).2 (.inl ⟨_, direct_obligation hroot, rfl⟩)
  · obtain ⟨directErr, hdirect⟩ := split_indirect hroot
    have hsplit : (token coin).genesis.transaction.justification = some (splitOf (lockBytes 7 1)) := by
      cases coin with
      | whole => exact absurd rfl hroot
      | source => exact absurd rfl hroot
      | left => rfl
      | right => rfl
    have hsame : obligation .source = obligation coin := by
      rw [← obligation_root coin]
      cases coin with
      | whole => exact absurd rfl hroot
      | source => rfl
      | left => rfl
      | right => rfl
    refine (Bridge.obligationsForVerifiedToken_eq_ok sdk).2
      (.inr ⟨directErr, _, _, hdirect, hsplit, decode_split, ?_⟩)
    have hsource : Bridge.bridgeLockObligationsForTokenCertified sdk (token .source) trustBase 1330002
        (sdkBridgeConfig config) = .ok [obligation coin] := by
      simp only [Bridge.bridgeLockObligationsForTokenCertified, bind_eq_ok]
      refine ⟨(), verified .source, (Bridge.obligationsForVerifiedToken_eq_ok sdk).2 (.inl ?_)⟩
      exact ⟨_, direct_obligation rfl, by rw [hsame]⟩
    rw [hsource]
    exact split_checks hroot

/-! Return -/

/-- What starts with neither prefix of the tree is hashed to its last 32 bytes. -/
theorem hash_append {front : Bytes} (value : Bytes32) {first : UInt8}
    (hfirst : front.head? = some first) (hother : Accumulator.NODE_PREFIX < first) :
    Accumulator.sampleHash (front ++ value.toList) = value := by
  cases front with
  | nil => cases hfirst
  | cons other rest =>
      obtain rfl := Option.some.inj hfirst
      have hleaf : other ≠ Accumulator.LEAF_PREFIX := by
        rintro rfl
        exact absurd hother (by decide)
      have hnode : other ≠ Accumulator.NODE_PREFIX := by
        rintro rfl
        exact absurd hother (by decide)
      have hhead : (other :: rest ++ value.toList).headD 2 = other := rfl
      rw [Accumulator.sampleHash, hhead, if_neg hleaf, if_neg hnode]
      exact Accumulator.lastBytes_append _ value

/-- An array of three that ends with 32 bytes hashes to them. -/
theorem hArray_append (first second : Bytes) (value : Bytes32) :
    hArray Accumulator.sampleHash [first, second, cborBytes value.toList] = value := by
  have hinput : arrayHeader (UInt64.ofNat 3) ++ [first, second, cborBytes value.toList].flatten =
      0x83 :: (first ++ second ++ major 2 (UInt64.ofNat value.toList.length)) ++ value.toList := by
    simp [cborBytes]
    rfl
  show Accumulator.sampleHash (arrayHeader (UInt64.ofNat 3) ++ _) = value
  rw [hinput]
  exact hash_append value rfl (by decide)

theorem nullifier_burn (coin : Coin) :
    burnNullifier sdk (configHash sdk.keccak256 config) (burn coin) = .ok (leaf coin).nullifier := by
  have hhash : toByteArr 32 (sdk.transactionHash (.transfer (burn coin))).data =
      some (word coin.number) := by
    rw [hash_burn]
    exact dif_pos (word coin.number).2
  simp only [burnNullifier, bind_eq_ok, okOr_eq_ok]
  refine ⟨_, hhash, ?_⟩
  have htransition (state : Bytes32) : burnTransitionId sdk.sha256 state (word coin.number) =
      word coin.number := hArray_append _ _ _
  rw [htransition]
  exact congrArg Except.ok (hArray_append _ _ _)

set_option maxRecDepth 4000 in
theorem decode_reason (coin : Coin) :
    decodeBridgeBackReason sdk config.reasonTag (reasonBytes coin.amount) =
      .ok ⟨1, 1, config.vault, config.asset, config.tokenType, config.coinId, (leaf coin).recipient,
        (leaf coin).amount, (leaf coin).feeRecipient, (leaf coin).feeAmount, (leaf coin).deadline⟩ := by
  cases coin <;> rfl

theorem fee_le (coin : Coin) : ¬ greaterThan (leaf coin).feeAmount (leaf coin).amount := by
  cases coin <;> decide

theorem burned_returned {coin : Coin} (hreturned : coin ≠ .source) : burned coin =
    (reasonBytes coin.amount, (Accumulator.sampleHash (reasonBytes coin.amount)).toList) := by
  cases coin with
  | source => exact absurd rfl hreturned
  | whole => rfl
  | left => rfl
  | right => rfl

/-- A coin that is returned is burned to the predicate of its reason. -/
theorem burn_recipient {coin : Coin} (hreturned : coin ≠ .source) : (burn coin).recipient =
    sdk.burnPredicate (sdk.sha256 (reasonBytes coin.amount)).toList := by
  show burnPredicate _ = _
  rw [burned_returned hreturned]
  rfl

theorem terminal_burn {coin : Coin} (hreturned : coin ≠ .source) :
    validateTerminalBurn sdk config (configHash sdk.keccak256 config) (leaf coin) (token coin) =
      .ok () := by
  have hdata : (burn coin).data = some (reasonBytes coin.amount) :=
    congrArg some (by rw [burned_returned hreturned])
  simp only [validateTerminalBurn, bind_eq_ok, okOr_eq_ok, ensure_eq_ok]
  exact ⟨_, rfl, _, hdata, (), burn_recipient hreturned, _, decode_reason coin, (),
    ⟨rfl, rfl, rfl, rfl, rfl, rfl, rfl, rfl, rfl, rfl, rfl, fee_le coin⟩, _, nullifier_burn coin, rfl⟩

theorem current_value (coin : Coin) : validateCurrentValue sdk config (leaf coin) (token coin) =
    .ok () := by
  have hword : u256FromAmountBytes (sdk.encodeAmount coin.amount.toNat) =
      some (ByteArr.ofNat 32 coin.amount.toNat) := by
    rw [encodeAmount_coin]
    cases coin <;> rfl
  simp only [validateCurrentValue, bind_eq_ok, okOr_eq_ok, ensure_eq_ok]
  exact ⟨_, rfl, _, decode_payment coin, _, get_coin coin, _, hword, rfl⟩

/-- The hash of the trust base, which is the only one in use. -/
def trustBaseHash : Bytes32 := canonicalHash sdk trustBase

/-- The coin's share of a batch. -/
def part (coin : Coin) : Part := ⟨witness coin, leaf coin, [toLockRef (obligation coin)]⟩

/-- Every coin but the source can be returned alone. -/
theorem accepted_alone {coin : Coin} (hreturned : coin ≠ .source) :
    validateBridgeBurns sdk config trustBaseHash [(part coin).leaf] (part coin).refs
      [(part coin).burn] = .ok () := by
  have htoken : Bridge.bridgeLockObligationsForTokenCertified sdk (token coin) trustBase 1330002
      (sdkBridgeConfig config) = .ok [obligation coin] := by
    simp only [Bridge.bridgeLockObligationsForTokenCertified, bind_eq_ok]
    exact ⟨(), verified coin, obligations coin⟩
  have hburn : burnObligations sdk config (witness coin) [] = .ok ([obligation coin], []) := by
    simp only [burnObligations, witness, bind_eq_ok, mapError_eq_ok]
    exact ⟨_, htoken, rfl⟩
  refine validateBridgeBurns_single.2 ⟨⟨[], [toLockRef (obligation coin)]⟩, ?_, ?_⟩
  · have htrust : canonicalHash sdk (witness coin).trustBase = trustBaseHash := rfl
    simp only [validateBurn, part, bind_eq_ok, ensure_eq_ok, hburn, htrust]
    exact ⟨(), trivial, _, rfl, (), terminal_burn hreturned, (), current_value coin, rfl⟩
  · exact List.mergeSort_singleton _

/-- The batches of the sample: the whole coin with one output of the split, then the other output. -/
inductive Turn where
  | first
  | second
  deriving DecidableEq

namespace Turn

/-- The coins burned in a turn. -/
def coins : Turn → List Coin
  | .first => [.whole, .left]
  | .second => [.right]

/-- What was released before. -/
def spent : Turn → NullifierTree
  | .first => .new
  | .second => ⟨[word Coin.whole.number, word Coin.left.number], by decide⟩

end Turn

/-- The locks behind a batch, which its coins are listed by. -/
def refs (turn : Turn) : List SourceLockRef := turn.coins.map fun coin => toLockRef (obligation coin)

theorem refs_eq (turn : Turn) : (turn.coins.map part).flatMap Part.refs = refs turn := by
  cases turn <;> rfl

theorem refs_pairwise (turn : Turn) : (refs turn).Pairwise fun a b => a.nonce < b.nonce := by
  cases turn with
  | first =>
      show [toLockRef (obligation .whole), toLockRef (obligation .left)].Pairwise _
      rw [List.pairwise_pair]
      decide
  | second => exact List.pairwise_singleton _ _

/-- The batch of a turn. -/
def batch (turn : Turn) : GuestInput :=
  batchOn sdk config trustBaseHash turn.spent (turn.coins.map part) (by cases turn <;> decide)

/-- The input of a batch, with its references in order. -/
def input (turn : Turn) : GuestInput :=
  { batch turn with
    sortedLockRefs := refs turn
    publicValues := { (batch turn).publicValues with
      lockRefRoot := sdk.keccak256 ((refs turn).flatMap refWords) } }

theorem input_eq (turn : Turn) : input turn = batch turn := by
  have hsorted : sortByNonce ((turn.coins.map part).flatMap Part.refs) = refs turn := by
    rw [refs_eq]
    exact sortByNonce_eq (List.Perm.refl _) (refs_pairwise turn)
  rw [input, ← hsorted]
  rfl

theorem input_new (turn : Turn) : (turn.spent.keys ++ nullifiersOf (turn.coins.map part)).Nodup := by
  cases turn <;> decide

theorem input_accepted (turn : Turn) : execute sdk (input turn) = .ok (input turn).publicValues := by
  rw [input_eq]
  refine execute_batchOn _ ?_ (input_new turn) ?_ ?_
  · cases turn <;> exact List.cons_ne_nil _ _
  · intro p hp
    obtain ⟨coin, hcoin, rfl⟩ := List.mem_map.1 hp
    refine accepted_alone ?_
    rintro rfl
    cases turn <;> exact absurd hcoin (by decide)
  · rw [refs_eq]
    exact (refs_pairwise turn).imp fun hlt => (UInt64.ne_of_lt hlt)

/-- The coins that are returned. -/
def nullifiers : List Bytes32 :=
  [word Coin.whole.number, word Coin.left.number, word Coin.right.number]

theorem nullifiers_slots : ∀ a ∈ nullifiers, ∀ b ∈ nullifiers,
    Accumulator.slot a = Accumulator.slot b → a = b := by
  have hall : (nullifiers.all fun a => nullifiers.all fun b =>
      decide (Accumulator.slot a = Accumulator.slot b → a = b)) = true := by decide
  intro a ha b hb
  exact of_decide_eq_true (List.all_eq_true.1 (List.all_eq_true.1 hall a ha) b hb)

/-- The hash is collision free on the trees of these coins. -/
theorem sha256_collisionFree : SparseMerkle.CollisionFree sdk.sha256 Accumulator.EMPTY_TREE_ROOT
    (Accumulator.treesInputs sdk.sha256 nullifiers) :=
  Accumulator.sampleHash_collisionFree nullifiers_slots

end Sample

end UnicityBridge.Guest
