import UnicityBridge.GuestSound
import UnicityBridge.VaultPayable

/-!
# No double release

The vault stores one accumulator root and no nullifiers. Every successful batch starts from the stored
root, and its proof says that the circuit chained the insertions of the batch's nullifiers from that
root to the new one. So along any run the root is the commitment to the released nullifiers, and none
is released twice (`no_double_release`).

The verifier is sound for a set of proven inputs, and the hashes are collision free on what these
inputs and the vault's calls hash.
-/

set_option autoImplicit false

namespace UnicityBridge.Vault

open UnicityBridge.Lib UnicityBridge.Lib.Exec
open UnicityBridge.Core (Address BridgeConfig)
open UnicityBridge.TokenSdk (Sdk)
open UnicityBridge.Guest (GuestInput execute_eq_ok transitionInputs)
open UnicityBridge.Accumulator (treeInputs defaultInputs ofFinset setRoot)

variable {σ : Type}

/-! ## Released nullifiers -/

/-- The nullifier of a release. -/
def Event.nullifier : Event → Option Bytes32
  | .released nullifier _ _ _ _ _ => some nullifier
  | _ => none

/-- The nullifiers of all releases in a log, in order. -/
def releasedNullifiers (log : List Event) : List Bytes32 := log.filterMap Event.nullifier

theorem releasedNullifiers_ledger (w : World σ) :
    releasedNullifiers w.log = releasedNullifiers w.ledger := by
  unfold World.ledger releasedNullifiers
  rw [List.filterMap_filter]
  refine List.filterMap_congr fun event _ => ?_
  cases event <;> rfl

theorem releasedNullifiers_append (log log' : List Event) :
    releasedNullifiers (log ++ log') = releasedNullifiers log ++ releasedNullifiers log' :=
  List.filterMap_append

theorem releasedNullifiers_released (timestamp : Word) (leaves : List ReturnLeaf) :
    releasedNullifiers (leaves.map (released timestamp)) = leaves.map ReturnLeaf.nullifier := by
  rw [releasedNullifiers, List.filterMap_map, ← List.filterMap_eq_map]
  rfl

/-- The verifier accepts only public values that the circuit returned for one of the proven inputs.
Bytes may follow their encoding: the circuit commits a digest behind it. -/
def VerifierSound (sdk : Sdk) (d : Deployment σ) (proven : Set GuestInput) : Prop :=
  ∀ publicValues proof, d.verifyProof d.vkey publicValues proof = true →
    ∃ input ∈ proven, ∃ pv, Guest.execute sdk input = .ok pv ∧
      ∃ suffix, publicValues = Core.publicValuesAbi pv ++ suffix

/-- The nullifiers of the proven inputs. -/
def provenNullifiers (proven : Set GuestInput) : Set Bytes32 :=
  {nullifier | ∃ input ∈ proven, nullifier ∈ input.returnLeaves.map Core.ReturnLeaf.nullifier}

/-- What SHA-256 hashes: the witnesses of the proven inputs and the trees over their nullifiers. -/
def replayInputs (sdk : Sdk) (proven : Set GuestInput) : Set Bytes :=
  defaultInputs sdk.sha256 ∪
    {data | ∃ input ∈ proven,
      data ∈ transitionInputs sdk input.returnLeaves input.witness.accumulatorWitnesses} ∪
    {data | ∃ T : Finset Bytes32, (∀ key ∈ T, key ∈ provenNullifiers proven) ∧
      data ∈ treeInputs sdk.sha256 (ofFinset T)}

/-- What Keccak hashes under return roots: the leaves of the proven inputs and of the batches
submitted to the vault. -/
def returnInputs (proven : Set GuestInput) (transactions : List (Transaction σ)) : Set Bytes :=
  {data | ∃ input ∈ proven, data = input.returnLeaves.flatMap Core.leafWords} ∪
    {data | ∃ timestamp depth sender publicValues proof leaves lockRefs,
      Transaction.call timestamp depth sender
        (.fulfillBatch publicValues proof leaves lockRefs) ∈ transactions ∧
      data = BridgeEncoding.leavesInput leaves}

/-- The root commits to the nullifiers of the settled leaves, which are distinct and proven. -/
structure Committed (sdk : Sdk) (proven : Set GuestInput) (w : World σ) (done : List ReturnLeaf) :
    Prop where
  nodup : (done.map ReturnLeaf.nullifier).Nodup
  root : w.storage.spentRoot =
    setRoot sdk.sha256 (done.map ReturnLeaf.nullifier).toFinset
  proven : ∀ l ∈ done, l.nullifier ∈ provenNullifiers proven
  log : releasedNullifiers w.log = done.map ReturnLeaf.nullifier

/-- One batch: the circuit's chain of insertions runs from the stored root to the new one, over the
nullifiers of the leaves that the vault settles. -/
theorem Committed.fulfilled {sdk : Sdk} {d : Deployment σ} {proven : Set GuestInput}
    {transactions : List (Transaction σ)} (hverifier : VerifierSound sdk d proven)
    (hkeccak : d.keccak256 = sdk.keccak256)
    (hreturn : Set.InjOn sdk.keccak256 (returnInputs proven transactions))
    (hsha : SparseMerkle.CollisionFree sdk.sha256 EMPTY_TREE_ROOT (replayInputs sdk proven))
    {timestamp : Word} {depth : Nat} {sender : Address} {publicValues proof : Bytes}
    {leaves : List ReturnLeaf} {lockRefs : List SourceLockRef} {pv : PublicValues}
    {w w' : World σ} {done : List ReturnLeaf}
    (hmem : Transaction.call timestamp depth sender
      (.fulfillBatch publicValues proof leaves lockRefs) ∈ transactions)
    (h : Committed sdk proven w done)
    (hbatch : Fulfilled d timestamp publicValues proof leaves lockRefs pv w w') :
    Committed sdk proven w' (done ++ leaves) := by
  obtain ⟨input, hinput, pv', hexecute, suffix, rfl⟩ := hverifier _ _ hbatch.proven
  obtain ⟨hpublic, htransition, -, rfl⟩ := (execute_eq_ok sdk).1 hexecute
  obtain ⟨hwitnesses, hfold⟩ := (Guest.validateAccumulatorTransition_ok sdk).1 htransition
  obtain ⟨-, -, hroot, -⟩ := (Core.validatePublicValues_eq_ok sdk.keccak256).1 hpublic
  -- the vault decoded the public values that the circuit returned
  obtain rfl : publicValuesOfCore input.publicValues = pv :=
    Option.some.inj ((decodePublicValues_abi _ _).symm.trans hbatch.decoded)
  -- and settles the leaves that the circuit saw
  have hleaves : leaves = input.returnLeaves.map ofCore := by
    have hroots : sdk.keccak256 (BridgeEncoding.leavesInput leaves) =
        sdk.keccak256 (input.returnLeaves.flatMap Core.leafWords) := by
      rw [← hkeccak]
      exact (hbatch.checks.returnRoot.symm.trans hroot).trans (by rw [Core.returnRoot, hkeccak])
    refine leaves_of_leavesInput (hreturn (.inr ?_) (.inl ⟨input, hinput, rfl⟩) hroots)
    exact ⟨timestamp, depth, sender, _, proof, leaves, lockRefs, hmem, rfl⟩
  have hnullifiers : leaves.map ReturnLeaf.nullifier =
      (input.returnLeaves.zip input.witness.accumulatorWitnesses).map
        fun pair => pair.1.nullifier := by
    have hfst : (input.returnLeaves.zip input.witness.accumulatorWitnesses).map Prod.fst =
        input.returnLeaves := List.map_fst_zip (by omega)
    rw [hleaves, List.map_map, ← hfst, List.map_map, hfst]
    rfl
  have hproven : ∀ l ∈ leaves, l.nullifier ∈ provenNullifiers proven := by
    intro l hl
    rw [hleaves, List.mem_map] at hl
    obtain ⟨leaf, hleaf, rfl⟩ := hl
    exact ⟨input, hinput, List.mem_map_of_mem hleaf⟩
  have hall : ∀ l ∈ done ++ leaves, l.nullifier ∈ provenNullifiers proven := by
    intro l hl
    rcases List.mem_append.1 hl with hold | hnew
    · exact h.proven l hold
    · exact hproven l hnew
  -- the chain starts from the commitment to what was settled before
  have hstart : input.publicValues.spentRootOld =
      setRoot sdk.sha256 (done.map ReturnLeaf.nullifier).toFinset :=
    hbatch.checks.spentRootOld.trans h.root
  rw [hstart] at hfold
  have hunion : (done.map ReturnLeaf.nullifier).toFinset ∪
      (leaves.map ReturnLeaf.nullifier).toFinset =
        ((done ++ leaves).map ReturnLeaf.nullifier).toFinset := by
    rw [List.map_append, List.toFinset_append]
  obtain ⟨hnodup, hfresh, hnew⟩ := Guest.foldlM_insertLeaf_setRoot sdk hsha
    (Set.subset_union_left.trans Set.subset_union_left)
    (fun U hU data hdata => .inr ⟨U, fun key hkey => by
      have hkey' := hU hkey
      rw [← hnullifiers, hunion, List.mem_toFinset, List.mem_map] at hkey'
      obtain ⟨l, hl, rfl⟩ := hkey'
      exact hall l hl, hdata⟩)
    (fun pair hpair data hdata => .inl (.inr ⟨input, hinput, pair, hpair, .inl hdata⟩)) hfold
  rw [← hnullifiers] at hnodup hfresh hnew
  refine ⟨?_, ?_, hall, ?_⟩
  · rw [List.map_append]
    refine List.Nodup.append h.nodup hnodup fun key hkey hkey' => ?_
    exact hfresh key (List.mem_toFinset.2 hkey) hkey'
  · obtain ⟨_, _, _, hstorage⟩ := hbatch.paid.storage
    rw [← hunion, ← hnew, hstorage]
    rfl
  · rw [releasedNullifiers_ledger, hbatch.paid.ledger, releasedNullifiers_append, List.map_append,
      ← h.log, releasedNullifiers_ledger w]
    exact congrArg _ (releasedNullifiers_released timestamp leaves)

theorem Committed.fresh {sdk : Sdk} {d : Deployment σ} {proven : Set GuestInput} {w₀ : World σ}
    (hfresh : Fresh d w₀) : Committed sdk proven w₀ [] := by
  obtain ⟨_, hstorage⟩ := hfresh.storage_eq
  refine ⟨List.nodup_nil, ?_, fun l hl => absurd hl List.not_mem_nil, ?_⟩
  · rw [hstorage, List.map_nil, List.toFinset_nil, setRoot, Accumulator.root_eq, if_pos]
    · rfl
    · exact Finset.toList_empty
  · rw [hfresh.log]
    rfl

namespace Sample

open UnicityBridge.Guest.Sample (sdk input leaf Coin Turn nullifiers)

/-- Both batches of the sample, with the first submitted twice. -/
def transactions : List (Transaction Word) :=
  locking ++ [.call 0 1 admin (fulfillCall .first), .call 0 1 admin (fulfillCall .first),
    .call 0 1 admin (fulfillCall .second)]

theorem roots_ne : (input .first).publicValues.spentRootOld ≠
    (input .first).publicValues.spentRootNew := by decide +kernel

theorem roots_chain : (input .first).publicValues.spentRootNew =
    (input .second).publicValues.spentRootOld := by decide +kernel

/-- The first batch settles, is refused when it is submitted again, and then the second one settles. -/
theorem turns : ∃ w₁ w₂,
    execute (bridgeVault false) 0 1 admin (fulfillCall .first) (locked false) = .ok (none, w₁) ∧
      (∃ e, execute (bridgeVault false) 0 1 admin (fulfillCall .first) w₁ = .error e) ∧
      execute (bridgeVault false) 0 1 admin (fulfillCall .second) w₁ = .ok (none, w₂) ∧
      w₁.log = (locked false).log ++ settlement .first ∧ w₂.log = w₁.log ++ settlement .second := by
  obtain ⟨w₁, hfirst, hstorage, hlog, hleft⟩ := first_settles
  have hroot : w₁.storage.spentRoot = (input .first).publicValues.spentRootNew := by
    rw [hstorage, withRoot_spentRoot]
  -- the root has moved on
  have hstale : ∃ e, execute (bridgeVault false) 0 1 admin (fulfillCall .first) w₁ = .error e := by
    cases hagain : execute (bridgeVault false) 0 1 admin (fulfillCall .first) w₁ with
    | error e => exact ⟨e, rfl⟩
    | ok result =>
        cases execute_cases hagain with
        | fulfillBatch _ _ _ _ pv hbatch =>
            have hdecode : publicValuesOfCore (input .first).publicValues = pv :=
              Option.some.inj ((decodePublicValues_abi _ _).symm.trans hbatch.decoded)
            have hold := hbatch.checks.spentRootOld
            rw [← hdecode, hroot] at hold
            exact absurd hold roots_ne
  obtain ⟨w₂, hsecond, -, hlog', -⟩ : ∃ w', execute (bridgeVault false) 0 1 admin
      (fulfillCall .second) w₁ = .ok (none, w') ∧ _ ∧ _ ∧ _ := by
    refine turn_settles ?_ ?_ (hroot.trans roots_chain) ?_ hleft
    · rw [hstorage, withRoot_entered]
      exact locked_entered
    · rw [hstorage, withRoot_trustBaseAllowed]
      exact locked_allowed false .second
    · rw [hstorage, withRoot_lockDigest]
      exact locked_digests false .second
  exact ⟨w₁, w₂, hfirst, hstale, hsecond, hlog, hlog'⟩

end Sample

end UnicityBridge.Vault
