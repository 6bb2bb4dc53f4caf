import UnicityBridge.AccumulatorComplete

/-!
# Accumulator soundness

A witness of the nullifier accumulator is data of the prover: any terminal and any list of steps.
The module shows that acceptance nevertheless pins it to the committed set. Abstractly the
accumulator is a commitment to a finite set of keys (`setRoot`); an accepted witness proves its key
outside the set, and the root computed from the witness alone is the commitment to the set with the
key added (`accumulator_sound`).

SHA-256 is assumed collision free, with no preimage of the empty root, on the byte strings that the
tree, the table of default digests and the verified witness hash.
-/

set_option autoImplicit false

namespace UnicityBridge.Accumulator

open UnicityBridge.Lib

section Verified

open SparseMerkle

variable {sha256 : Bytes → Bytes32} {Q : Set Bytes}

/-- Only the empty tree has the empty root. -/
theorem keys_eq_nil_of_root {tree : NullifierTree} (hQ : CollisionFree sha256 EMPTY_TREE_ROOT Q)
    (htree : treeInputs sha256 tree ⊆ Q) (h : tree.root sha256 = EMPTY_TREE_ROOT) :
    tree.keys = [] := by
  by_contra hne
  rw [root_eq, if_neg hne] at h
  -- the root is the digest of the top node, an input of the tree
  exact hQ.ne_zero _ (htree ⟨_, Or.inl rfl, rfl⟩) h

theorem inputs_subset {P : Set (Preimage Key Bytes32)} (hP : preimageBytes '' P ⊆ Q)
    (hrange : ∀ p ∈ P, InRange p) : P ⊆ {p | InRange p ∧ preimageBytes p ∈ Q} :=
  fun p hp => ⟨hrange p hp, hP ⟨p, hp, rfl⟩⟩

theorem treeQueries_subset {keys : List Key}
    (h : preimageBytes '' treeQueries (scheme sha256) DEPTH 0 keys ⊆ Q) :
    treeQueries (scheme sha256) DEPTH 0 keys ⊆ {p | InRange p ∧ preimageBytes p ∈ Q} :=
  inputs_subset h (inRange_treeQueries sha256 DEPTH 0 keys (by simp))

/-- **Trees with one root hold the same keys.** -/
theorem keys_of_root_eq {tree tree' : NullifierTree} (hQ : CollisionFree sha256 EMPTY_TREE_ROOT Q)
    (htree : treeInputs sha256 tree ⊆ Q) (htree' : treeInputs sha256 tree' ⊆ Q)
    (h : tree.root sha256 = tree'.root sha256) (key : Key) : key ∈ tree.keys ↔ key ∈ tree'.keys := by
  by_cases hnil : tree.keys = []
  · have hroot : tree'.root sha256 = EMPTY_TREE_ROOT := by
      rw [← h, root_eq, if_pos hnil]
    rw [hnil, keys_eq_nil_of_root hQ htree' hroot]
  · have hnil' : tree'.keys ≠ [] := by
      intro heq
      refine hnil (keys_eq_nil_of_root hQ htree ?_)
      rw [h, root_eq, if_pos heq]
    rw [root_eq, root_eq, if_neg hnil, if_neg hnil'] at h
    exact mem_iff_of_treeHash_eq (scheme sha256) (collisionFree_scheme sha256 hQ) DEPTH 0 _ _
      (Nat.zero_add _) (agree_zero _ _) (agree_zero _ _) (treeQueries_subset htree)
      (treeQueries_subset htree') h key

theorem setRoot_inj {T T' : Finset Key} (hQ : CollisionFree sha256 EMPTY_TREE_ROOT Q)
    (hT : treeInputs sha256 (ofFinset T) ⊆ Q) (hT' : treeInputs sha256 (ofFinset T') ⊆ Q)
    (h : setRoot sha256 T = setRoot sha256 T') : T = T' := by
  ext key
  rw [← mem_ofFinset, ← mem_ofFinset]
  exact keys_of_root_eq hQ hT hT' h key

/-- The default digests at every level are hashed from the table's inputs. -/
theorem voidQueries_subset (hdef : defaultInputs sha256 ⊆ Q) {n d : Nat} (hd : d + n = DEPTH) :
    treeQueries (scheme sha256) n d [] ⊆ {p | InRange p ∧ preimageBytes p ∈ Q} := by
  induction d generalizing n with
  | zero =>
      obtain rfl : n = DEPTH := by omega
      exact treeQueries_subset hdef
  | succ d ih =>
      exact (treeQueries_side_subset (scheme sha256) false n d []).trans (ih (n := n + 1) (by omega))

theorem pathQueries_subset {key : Key} {steps : List SmtProofStep} {hash : Bytes32}
    (hlen : steps.length ≤ DEPTH) (h : foldInputs sha256 key hash steps ⊆ Q) :
    pathQueries (scheme sha256) key 0 (witnessSiblings steps) hash ⊆
      {p | InRange p ∧ preimageBytes p ∈ Q} :=
  inputs_subset h (inRange_pathQueries sha256 key _ 0 hash (by
    rw [witnessSiblings_length]; omega))

/-- An accepted witness, in the terms of the general tree: its siblings fold the empty slot, `r`
levels above the bottom, to the digest of the committed keys. -/
theorem accepted_fold {tree : NullifierTree} {key : Key} {witness : NonMembershipWitness}
    (hQ : CollisionFree sha256 EMPTY_TREE_ROOT Q) (htree : treeInputs sha256 tree ⊆ Q)
    (habsent : absentInputs sha256 key witness ⊆ Q)
    (h : rebuildAbsentRoot sha256 key witness = some (tree.root sha256)) :
    ∃ r, r + witness.steps.length = DEPTH ∧
      treeHash (scheme sha256) DEPTH 0 tree.keys =
        pathHash (scheme sha256) key 0 (witnessSiblings witness.steps)
          (voidHash (scheme sha256) r witness.steps.length) := by
  rcases (rebuildAbsentRoot_eq_some sha256).1 h with ⟨-, ⟨hnil, hroot⟩ | ⟨hne, hdesc, hroot⟩⟩
  · refine ⟨DEPTH, by simp [hnil], ?_⟩
    rw [keys_eq_nil_of_root hQ htree hroot, hnil, treeHash_nil]
    rfl
  · have hlen := hdesc.length_le
    refine ⟨DEPTH - witness.steps.length, by omega, ?_⟩
    rw [← emptyHashes_eq sha256 (by omega), ← hroot, root_eq, if_neg ?_]
    -- a fold of at least one level never gives the empty root, so the tree has keys
    intro hkeys
    rw [root_eq, if_pos hkeys] at hroot
    have hsibs : witnessSiblings witness.steps ≠ [] := by
      rw [← List.length_pos_iff, witnessSiblings_length]
      exact List.length_pos_iff.2 hne
    obtain ⟨s, rest, hcons⟩ := List.exists_cons_of_ne_nil hsibs
    have hmem : preimageBytes (joinPreimage (scheme sha256) key 0
        (pathHash (scheme sha256) key 1 rest (emptyHashes sha256 witness.steps.length)) s) ∈ Q := by
      refine habsent ⟨_, ?_, rfl⟩
      show _ ∈ pathQueries (scheme sha256) key 0 (witnessSiblings witness.steps) _
      rw [hcons]
      exact Or.inl rfl
    rw [hcons] at hroot
    exact hQ.ne_zero _ hmem hroot.symm

/-- What the general tree says of an accepted witness: the key is absent, and the same siblings
fold the key alone to the digest of the keys with `key` added. -/
theorem accepted_absent {tree : NullifierTree} {key : Key} {witness : NonMembershipWitness}
    (hQ : CollisionFree sha256 EMPTY_TREE_ROOT Q) (htree : treeInputs sha256 tree ⊆ Q)
    (hdef : defaultInputs sha256 ⊆ Q) (habsent : absentInputs sha256 key witness ⊆ Q)
    (h : rebuildAbsentRoot sha256 key witness = some (tree.root sha256)) :
    key ∉ tree.keys ∧
      treeHash (scheme sha256) DEPTH 0 (tree.keys ++ [key]) =
        pathHash (scheme sha256) key 0 (witnessSiblings witness.steps)
          (singleKeyHash sha256 key witness.steps.length) := by
  obtain ⟨r, hr, hfold⟩ := accepted_fold hQ htree habsent h
  have hlen := witnessSiblings_length witness.steps
  have hlevel : witness.steps.length + r = DEPTH := by omega
  have hsum : r + (witnessSiblings witness.steps).length = DEPTH := by omega
  have hslot : 0 + (witnessSiblings witness.steps).length = witness.steps.length := by omega
  have hQ' := collisionFree_scheme sha256 hQ
  have htree' := treeQueries_subset htree
  have hvoid := voidQueries_subset hdef hlevel
  have hpath : pathQueries (scheme sha256) key 0 (witnessSiblings witness.steps)
      (voidHash (scheme sha256) r witness.steps.length) ⊆ {p | InRange p ∧ preimageBytes p ∈ Q} := by
    refine pathQueries_subset (by omega) ?_
    rwa [← emptyHashes_eq sha256 hlevel]
  rw [← hsum] at htree' hfold ⊢
  rw [← hslot] at hvoid hpath hfold
  refine ⟨absent_of_pathHash (scheme sha256) hQ' key htree' hvoid hpath hfold, ?_⟩
  rw [treeHash_append_of_pathHash (scheme sha256) hQ' key htree' hvoid hpath hfold,
    singleKeyHash_eq sha256 key hlevel, hslot]

/-- An accepted insertion gives the root of every tree that holds the old keys and `key`. -/
theorem insert_root {tree tree' : NullifierTree} {key : Key} {witness : NonMembershipWitness}
    {r : Bytes32} (hQ : CollisionFree sha256 EMPTY_TREE_ROOT Q)
    (htree : treeInputs sha256 tree ⊆ Q) (hdef : defaultInputs sha256 ⊆ Q)
    (habsent : absentInputs sha256 key witness ⊆ Q)
    (h : insert sha256 (tree.root sha256) key witness = some r)
    (hkeys : ∀ k, k ∈ tree'.keys ↔ k ∈ tree.keys ∨ k = key) : r = tree'.root sha256 := by
  obtain ⟨hre, rfl⟩ := (insert_eq_some sha256).1 h
  obtain ⟨-, hadd⟩ := accepted_absent hQ htree hdef habsent hre
  have hne : tree'.keys ≠ [] := by
    have hmem : key ∈ tree'.keys := (hkeys key).2 (Or.inr rfl)
    exact List.ne_nil_of_mem hmem
  rw [root_eq, if_neg hne, ← hadd]
  refine treeHash_congr (scheme sha256) DEPTH 0 _ _ (Nat.zero_add _) (agree_zero _ _) fun k => ?_
  rw [hkeys, List.mem_append, List.mem_singleton]

/-! ## Insertion over an arbitrary root -/

/-- The root commits to `key`: some full path leads from the leaf of `key` to it. -/
def Holds (sha256 : Bytes → Bytes32) (Q : Set Bytes) (key : Key) (root : Bytes32) : Prop :=
  Opens (scheme sha256) {p | InRange p ∧ preimageBytes p ∈ Q} key DEPTH 0 root

theorem singleQueries_subset {key : Key} {n d : Nat} (hd : d + n = DEPTH)
    (h : singleKeyInputs sha256 key d ⊆ Q) :
    treeQueries (scheme sha256) n d [key] ⊆ {p | InRange p ∧ preimageBytes p ∈ Q} := by
  have hn : DEPTH - d = n := by omega
  rw [singleKeyInputs, hn] at h
  exact inputs_subset h (inRange_treeQueries sha256 n d [key] (by omega))

/-- A root that holds a key is no empty root. -/
theorem Holds.ne_empty {key : Key} {root : Bytes32}
    (hQ : CollisionFree sha256 EMPTY_TREE_ROOT Q) (h : Holds sha256 Q key root) :
    root ≠ EMPTY_TREE_ROOT := by
  obtain ⟨s, y, -, rfl, hmem⟩ := Opens.succ_inv (scheme sha256) (n := 255) h
  exact hQ.ne_zero _ hmem.2

/-- The levels between the slot of an accepted witness and the bottom. -/
theorem exists_levels {root : Bytes32} {key : Key} {witness : NonMembershipWitness}
    (h : rebuildAbsentRoot sha256 key witness = some root) :
    ∃ r, r + (witnessSiblings witness.steps).length = DEPTH ∧ witness.steps.length + r = DEPTH := by
  have hlen : witness.steps.length ≤ DEPTH := by
    rcases (rebuildAbsentRoot_eq_some sha256).1 h with ⟨-, ⟨hnil, -⟩ | ⟨-, hdesc, -⟩⟩
    · simp [hnil]
    · exact hdesc.length_le
  refine ⟨DEPTH - witness.steps.length, ?_, by omega⟩
  rw [witnessSiblings_length]
  omega

/-- **An insertion makes the new root hold the key**, over any old root. -/
theorem insert_holds {root r : Bytes32} {key : Key} {witness : NonMembershipWitness}
    (hpresent : presentInputs sha256 key witness ⊆ Q)
    (h : insert sha256 root key witness = some r) : Holds sha256 Q key r := by
  obtain ⟨hre, rfl⟩ := (insert_eq_some sha256).1 h
  obtain ⟨n, hsum, hlevel⟩ := exists_levels hre
  have hslot : 0 + (witnessSiblings witness.steps).length = witness.steps.length := by
    rw [witnessSiblings_length, Nat.zero_add]
  have hsingle := singleQueries_subset hlevel (Set.subset_union_left.trans hpresent)
  have hpath := pathQueries_subset (by omega) (Set.subset_union_right.trans hpresent)
  rw [singleKeyHash_eq sha256 key hlevel] at hpath ⊢
  rw [← hslot] at hsingle hpath ⊢
  rw [Holds, ← hsum]
  exact (opens_single (scheme sha256) key n _ hsingle).pathHash (scheme sha256) _ hpath

/-- **An insertion keeps the keys the old root holds**, and inserts none of them again. -/
theorem insert_keeps {root r : Bytes32} {a key : Key} {witness : NonMembershipWitness}
    (hQ : CollisionFree sha256 EMPTY_TREE_ROOT Q) (hdef : defaultInputs sha256 ⊆ Q)
    (habsent : absentInputs sha256 key witness ⊆ Q)
    (hpresent : presentInputs sha256 key witness ⊆ Q)
    (ha : Holds sha256 Q a root) (h : insert sha256 root key witness = some r) :
    a ≠ key ∧ Holds sha256 Q a r := by
  obtain ⟨hre, rfl⟩ := (insert_eq_some sha256).1 h
  obtain ⟨n, hsum, hlevel⟩ := exists_levels hre
  rcases (rebuildAbsentRoot_eq_some sha256).1 hre with ⟨-, ⟨-, hroot⟩ | ⟨-, hdesc, hroot⟩⟩
  · exact absurd hroot (ha.ne_empty hQ)
  · have hslot : 0 + (witnessSiblings witness.steps).length = witness.steps.length := by
      rw [witnessSiblings_length, Nat.zero_add]
    have hvoid := voidQueries_subset hdef hlevel
    have hold := pathQueries_subset hdesc.length_le habsent
    have hnew := pathQueries_subset hdesc.length_le (Set.subset_union_right.trans hpresent)
    rw [emptyHashes_eq sha256 hlevel] at hroot hold
    rw [← hslot] at hroot hold hvoid
    rw [Holds, ← hsum] at ha ⊢
    obtain ⟨⟨i, hne⟩, hkeep⟩ := Opens.preserved (scheme sha256) (collisionFree_scheme sha256 hQ) _
      ha hroot hvoid hold
    exact ⟨fun heq => hne (by rw [heq]), hkeep _ hnew⟩

end Verified

/-! ## The hash for small trees has no collision -/

section Sample

open SparseMerkle

theorem sampleDigest_inj {m l k m' l' k' : UInt8}
    (h : sampleDigest m l k = sampleDigest m' l' k') : m = m' ∧ l = l' ∧ k = k' := by
  have hlist := congrArg List.Vector.toList h
  simp only [sampleDigest, List.Vector.toList_mk, List.cons.injEq, and_true] at hlist
  exact hlist

theorem sampleHash_leaf (key : Key) :
    sampleHash (leafInput key) = sampleDigest (1 <<< key.toList.getD 31 0) 0 LEAF_PREFIX := by
  have hlast : (leafInput key).getD 32 0 = key.toList.getD 31 0 := by
    simp [leafInput, List.getD_eq_getElem?_getD]
  rw [sampleHash, if_pos (show (leafInput key).headD 2 = LEAF_PREFIX from rfl), hlast]

theorem sampleHash_node (d : UInt8) (l r : Bytes32) :
    sampleHash (nodeInput d l r) = sampleDigest (marks l ||| marks r) d NODE_PREFIX := by
  have hl : (nodeInput d l r).getD 2 0 = marks l := by
    obtain ⟨a, l, rfl⟩ := l.exists_eq_cons
    rfl
  have hr : (nodeInput d l r).getD 34 0 = marks r := by
    obtain ⟨a, r, rfl⟩ := r.exists_eq_cons
    simp [nodeInput, marks]
  have hhead : (nodeInput d l r).headD 2 = NODE_PREFIX := rfl
  have hlevel : (nodeInput d l r).getD 1 0 = d := rfl
  rw [sampleHash, hhead, hl, hr, hlevel, if_neg (by decide), if_pos rfl]

/-- The mark of a key is one bit. -/
theorem testBit_slot (key : Key) (i : Nat) :
    ((1 : UInt8) <<< key.toList.getD 31 0).toNat.testBit i = decide (slot key = i) := by
  have hlt : 2 ^ slot key < 2 ^ 8 := Nat.pow_lt_pow_right (by decide) (Nat.mod_lt _ (by decide))
  rw [UInt8.toNat_shiftLeft, UInt8.toNat_one, Nat.one_shiftLeft]
  exact (congrArg (fun n => n.testBit i) (Nat.mod_eq_of_lt hlt)).trans Nat.testBit_two_pow

/-- **A digest marks the keys below it.** -/
theorem testBit_marks {n d : Nat} {keys : List Key} (hd : d + n = DEPTH)
    (hagree : Agree (scheme sampleHash) d keys) (i : Nat) :
    (marks (treeHash (scheme sampleHash) n d keys)).toNat.testBit i = true ↔
      ∃ key ∈ keys, slot key = i := by
  induction n generalizing d keys with
  | zero =>
      cases keys with
      | nil =>
          have hvoid : (marks EMPTY_TREE_ROOT).toNat = 0 := rfl
          rw [treeHash, show (scheme sampleHash).void = EMPTY_TREE_ROOT from rfl, hvoid]
          simp
      | cons key rest =>
          have hsame : ∀ other ∈ key :: rest, other = key := fun other hother =>
            key_ext other key fun j hj => hagree key List.mem_cons_self other hother j (by omega)
          have hhash : treeHash (scheme sampleHash) 0 d (key :: rest) =
              sampleHash (leafInput key) := rfl
          rw [hhash, sampleHash_leaf]
          show ((1 : UInt8) <<< key.toList.getD 31 0).toNat.testBit i = true ↔ _
          rw [testBit_slot, decide_eq_true_iff]
          constructor
          · intro hslot
            exact ⟨key, List.mem_cons_self, hslot⟩
          · rintro ⟨other, hother, hslot⟩
            rw [← hsame other hother]
            exact hslot
  | succ n ih =>
      have hhash : treeHash (scheme sampleHash) (n + 1) d keys =
          sampleHash (nodeInput (UInt8.ofNat d)
            (treeHash (scheme sampleHash) n (d + 1) (side (scheme sampleHash) false d keys))
            (treeHash (scheme sampleHash) n (d + 1) (side (scheme sampleHash) true d keys))) := rfl
      rw [hhash, sampleHash_node]
      show (marks _ ||| marks _).toNat.testBit i = true ↔ _
      rw [UInt8.toNat_or, Nat.testBit_or, Bool.or_eq_true,
        ih (by omega) (hagree.side (scheme sampleHash) false),
        ih (by omega) (hagree.side (scheme sampleHash) true)]
      simp only [side, List.mem_filter, beq_iff_eq]
      constructor
      · rintro (⟨key, ⟨hkey, -⟩, hslot⟩ | ⟨key, ⟨hkey, -⟩, hslot⟩) <;> exact ⟨key, hkey, hslot⟩
      · rintro ⟨key, hkey, hslot⟩
        cases hbit : (scheme sampleHash).bit key d with
        | false => exact .inl ⟨key, ⟨hkey, hbit⟩, hslot⟩
        | true => exact .inr ⟨key, ⟨hkey, hbit⟩, hslot⟩

/-- A leaf of the keys, or the top of a subtree that holds some of them. -/
inductive SampleInput (keys : List Key) : Preimage Key Bytes32 → Prop
  | leaf {key : Key} (hkey : key ∈ keys) : SampleInput keys (.leaf key)
  | node {n d : Nat} {part : List Key} (hd : d + (n + 1) = DEPTH) (hpart : part ⊆ keys)
      (hagree : Agree (scheme sampleHash) d part) :
      SampleInput keys (.node d
        (treeHash (scheme sampleHash) n (d + 1) (side (scheme sampleHash) false d part))
        (treeHash (scheme sampleHash) n (d + 1) (side (scheme sampleHash) true d part)))

theorem side_subset {b : Bool} {d : Nat} {part keys : List Key} (h : part ⊆ keys) :
    side (scheme sampleHash) b d part ⊆ keys :=
  fun _ hkey => h (List.mem_of_mem_filter hkey)

theorem sampleInput_of_mem {keys part : List Key} {n d : Nat} (hd : d + n = DEPTH)
    (hpart : part ⊆ keys) (hagree : Agree (scheme sampleHash) d part)
    {p : Preimage Key Bytes32} (hp : p ∈ treeQueries (scheme sampleHash) n d part) :
    SampleInput keys p := by
  induction n generalizing d part with
  | zero =>
      cases part with
      | nil => exact absurd hp (Set.notMem_empty p)
      | cons key rest =>
          obtain rfl := hp
          exact .leaf (hpart List.mem_cons_self)
  | succ n ih =>
      rcases hp with rfl | hp | hp
      · exact .node hd hpart hagree
      · exact ih (by omega) (side_subset hpart) (hagree.side _ false) hp
      · exact ih (by omega) (side_subset hpart) (hagree.side _ true) hp

/-- Subtrees of one level with the same marks hold the same keys, when the keys have distinct marks. -/
theorem mem_iff_of_marks {keys part part' : List Key}
    (hslots : ∀ a ∈ keys, ∀ b ∈ keys, slot a = slot b → a = b) (hpart : part ⊆ keys)
    (hpart' : part' ⊆ keys)
    (h : ∀ i, (∃ key ∈ part, slot key = i) ↔ ∃ key ∈ part', slot key = i) (key : Key) :
    key ∈ part ↔ key ∈ part' := by
  constructor
  · intro hkey
    obtain ⟨other, hother, hslot⟩ := (h (slot key)).1 ⟨key, hkey, rfl⟩
    exact hslots other (hpart' hother) key (hpart hkey) hslot ▸ hother
  · intro hkey
    obtain ⟨other, hother, hslot⟩ := (h (slot key)).2 ⟨key, hkey, rfl⟩
    exact hslots other (hpart hother) key (hpart' hkey) hslot ▸ hother

theorem sampleInput_inj {keys : List Key}
    (hslots : ∀ a ∈ keys, ∀ b ∈ keys, slot a = slot b → a = b) {p q : Preimage Key Bytes32}
    (hp : SampleInput keys p) (hq : SampleInput keys q)
    (h : sampleHash (preimageBytes p) = sampleHash (preimageBytes q)) : p = q := by
  cases hp with
  | @leaf a ha =>
      cases hq with
      | @leaf b hb =>
          rw [preimageBytes, preimageBytes, sampleHash_leaf, sampleHash_leaf] at h
          have hbit := testBit_slot a (slot a)
          rw [(sampleDigest_inj h).1, testBit_slot, decide_eq_decide] at hbit
          rw [hslots a ha b hb (hbit.2 rfl).symm]
      | node =>
          rw [preimageBytes, preimageBytes, sampleHash_leaf, sampleHash_node] at h
          exact absurd (sampleDigest_inj h).2.2 (by decide)
  | @node n d part hd hpart hagree =>
      cases hq with
      | leaf =>
          rw [preimageBytes, preimageBytes, sampleHash_leaf, sampleHash_node] at h
          exact absurd (sampleDigest_inj h).2.2 (by decide)
      | @node n' d' part' hd' hpart' hagree' =>
          have hmarks : marks (treeHash (scheme sampleHash) (n + 1) d part) =
              marks (treeHash (scheme sampleHash) (n' + 1) d' part') := congrArg marks h
          rw [preimageBytes, preimageBytes, sampleHash_node, sampleHash_node] at h
          have hlevel := congrArg UInt8.toNat (sampleDigest_inj h).2.1
          simp only [DEPTH] at hd hd'
          rw [UInt8.toNat_ofNat', UInt8.toNat_ofNat', Nat.mod_eq_of_lt (by omega),
            Nat.mod_eq_of_lt (by omega)] at hlevel
          subst hlevel
          obtain rfl : n = n' := by omega
          have hsame := mem_iff_of_marks hslots hpart hpart' fun i => by
            rw [← testBit_marks hd hagree, ← testBit_marks hd' hagree', hmarks]
          have hside : ∀ b key, key ∈ side (scheme sampleHash) b d part ↔
              key ∈ side (scheme sampleHash) b d part' := by
            intro b key
            simp only [side, List.mem_filter, hsame key]
          have hlow : d + 1 + n = DEPTH := by
            simp only [DEPTH]
            omega
          rw [treeHash_congr (scheme sampleHash) n (d + 1) _ _ hlow (hagree.side _ false) (hside false),
            treeHash_congr (scheme sampleHash) n (d + 1) _ _ hlow (hagree.side _ true) (hside true)]

/-- No digest of a tree is the empty root: a leaf has a mark, a node its kind. -/
theorem sampleHash_ne_zero (p : Preimage Key Bytes32) :
    sampleHash (preimageBytes p) ≠ EMPTY_TREE_ROOT := by
  have hzero : sampleDigest 0 0 0 = EMPTY_TREE_ROOT := by decide
  intro h
  rw [← hzero] at h
  cases p with
  | leaf key =>
      rw [preimageBytes, sampleHash_leaf] at h
      have hbit := testBit_slot key (slot key)
      rw [(sampleDigest_inj h).1] at hbit
      simp at hbit
  | node level left right =>
      rw [preimageBytes, sampleHash_node] at h
      exact absurd (sampleDigest_inj h).2.2 (by decide)

/-- **The sample hash has no collision** on what the trees over keys with distinct marks hash. -/
theorem sampleHash_collisionFree {keys : List Key}
    (hslots : ∀ a ∈ keys, ∀ b ∈ keys, slot a = slot b → a = b) :
    CollisionFree sampleHash EMPTY_TREE_ROOT (treesInputs sampleHash keys) where
  inj := by
    rintro x ⟨tree, htree, p, hp, rfl⟩ y ⟨tree', htree', q, hq, rfl⟩ h
    rw [sampleInput_inj hslots (sampleInput_of_mem (Nat.zero_add _) htree (agree_zero _ _) hp)
      (sampleInput_of_mem (Nat.zero_add _) htree' (agree_zero _ _) hq) h]
  ne_zero := by
    rintro x ⟨tree, -, p, -, rfl⟩
    exact sampleHash_ne_zero p

end Sample

/-- An insertion into the commitment to a set commits to the set with a new key. -/
theorem insert_setRoot {sha256 : Bytes → Bytes32} {T : Finset Key} {key : Key}
    {witness : NonMembershipWitness} {Q : Set Bytes} {r : Bytes32}
    (hQ : SparseMerkle.CollisionFree sha256 EMPTY_TREE_ROOT Q)
    (hT : treeInputs sha256 (ofFinset T) ⊆ Q) (hdef : defaultInputs sha256 ⊆ Q)
    (hwitness : absentInputs sha256 key witness ⊆ Q)
    (h : insert sha256 (setRoot sha256 T) key witness = some r) :
    key ∉ T ∧ r = setRoot sha256 (Insert.insert key T) := by
  have hre := ((insert_eq_some sha256).1 h).1
  have habsent := (accepted_absent hQ hT hdef hwitness hre).1
  refine ⟨fun hmem => habsent (mem_ofFinset.2 hmem), ?_⟩
  refine insert_root hQ hT hdef hwitness h fun k => ?_
  rw [mem_ofFinset, mem_ofFinset, Finset.mem_insert, or_comm]

/-- **Every accepted witness is sound.** Whatever terminal and steps it holds, a witness accepted
for `key` against the commitment to `T` proves `key ∉ T`, and the root inserted from it is the
commitment to `T` with `key` added. So two accepted witnesses insert the same root. -/
theorem accumulator_sound (sha256 : Bytes → Bytes32) (T : Finset Key) (key : Key)
    (witness : NonMembershipWitness) (Q : Set Bytes)
    (hQ : SparseMerkle.CollisionFree sha256 EMPTY_TREE_ROOT Q)
    (hT : treeInputs sha256 (ofFinset T) ⊆ Q) (hdef : defaultInputs sha256 ⊆ Q)
    (hwitness : absentInputs sha256 key witness ⊆ Q) :
    (verifyNonMember sha256 (setRoot sha256 T) key witness = true → key ∉ T) ∧
      (∀ r, insert sha256 (setRoot sha256 T) key witness = some r →
        key ∉ T ∧ r = setRoot sha256 (Insert.insert key T)) ∧
      ∀ witness' r r', absentInputs sha256 key witness' ⊆ Q →
        insert sha256 (setRoot sha256 T) key witness = some r →
        insert sha256 (setRoot sha256 T) key witness' = some r' → r = r' := by
  refine ⟨fun h hmem => ?_, fun r => insert_setRoot hQ hT hdef hwitness, ?_⟩
  · have hre := (verifyNonMember_iff sha256).1 h
    exact (accepted_absent hQ hT hdef hwitness hre).1 (mem_ofFinset.2 hmem)
  · intro witness' r r' hwitness' h h'
    rw [(insert_setRoot hQ hT hdef hwitness h).2, (insert_setRoot hQ hT hdef hwitness' h').2]

/-- Two keys that share all but their last byte. -/
def firstKey : Key := List.Vector.replicate 32 1

/-- A key that differs from the sample's first one in its last byte. -/
def secondKey : Key := ⟨List.replicate 31 1 ++ [2], rfl⟩

theorem sample_slots : ∀ a ∈ [firstKey, secondKey], ∀ b ∈ [firstKey, secondKey],
    slot a = slot b → a = b := by
  have hall : ([firstKey, secondKey].all fun a => [firstKey, secondKey].all fun b =>
      decide (slot a = slot b → a = b)) = true := by decide
  intro a ha b hb
  exact of_decide_eq_true (List.all_eq_true.1 (List.all_eq_true.1 hall a ha) b hb)

/-- The second key is inserted into the commitment to the first, with a witness of 249 steps. -/
theorem accumulator_sound_sample :
    ∃ witness : NonMembershipWitness, witness.steps.length = 249 ∧
      verifyNonMember sampleHash (setRoot sampleHash {firstKey}) secondKey witness = true ∧
      secondKey ∉ ({firstKey} : Finset Key) ∧
      insert sampleHash (setRoot sampleHash {firstKey}) secondKey witness =
        some (setRoot sampleHash (Insert.insert secondKey {firstKey})) := by
  let tree : NullifierTree := ⟨[firstKey], List.nodup_singleton _⟩
  let after : NullifierTree := ⟨[firstKey, secondKey], by decide⟩
  have hroot : setRoot sampleHash {firstKey} = tree.root sampleHash :=
    (root_eq_setRoot sampleHash tree).symm
  have hpart : firstDifferingBit secondKey firstKey = some 248 := by decide +kernel
  obtain ⟨witness, hwitness, hlength⟩ :=
    @nonMembershipWitness_single sampleHash tree secondKey firstKey 248 rfl hpart
  have hafter : tree.insert secondKey = .ok after :=
    NullifierTree.insert_eq_ok.2 ⟨by decide, rfl⟩
  have hinsert := nonMembershipWitness_accepted sampleHash hwitness hafter
  have hverify := (verifyNonMember_iff sampleHash).2
    (nonMembershipWitness_folds sampleHash hwitness).1
  obtain ⟨habsentInputs, -⟩ := nonMembershipWitness_inputs sampleHash hwitness hafter
  rw [← hroot] at hinsert hverify
  have hT : treeInputs sampleHash (ofFinset {firstKey}) ⊆
      treesInputs sampleHash [firstKey, secondKey] :=
    treeInputs_subset sampleHash fun key hkey => by
      rw [mem_ofFinset, Finset.mem_singleton] at hkey
      rw [hkey]
      exact List.mem_cons_self
  have htree : tree.keys ⊆ [firstKey, secondKey] :=
    List.cons_subset_cons firstKey (List.nil_subset _)
  obtain ⟨habsent, hadd, -⟩ := accumulator_sound sampleHash {firstKey} secondKey witness _
    (sampleHash_collisionFree sample_slots) hT (defaultInputs_subset sampleHash _)
    (habsentInputs.trans (treeInputs_subset sampleHash htree))
  refine ⟨witness, hlength, hverify, habsent hverify, ?_⟩
  rw [hinsert, (hadd _ hinsert).2]

end UnicityBridge.Accumulator
