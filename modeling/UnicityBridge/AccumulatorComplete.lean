import UnicityBridge.Accumulator

/-!
# Accumulator completeness

The descent that builds a witness and the fold that checks it agree at every tree size, also for
keys that share all but their last bit: the steps of a witness are the siblings on the key's path,
at consecutive depths from the top (`witnessSteps_eq`). So every absent key has a witness of at most
256 steps, the witness verifies, and inserting with it gives the root of the tree with the key added
(`accumulator_complete`). Nothing is assumed of SHA-256.
-/

set_option autoImplicit false

namespace UnicityBridge.Accumulator

open UnicityBridge.Lib

section Descent

open SparseMerkle

variable (sha256 : Bytes → Bytes32)

theorem firstDifferingBit_eq_some {key other : Key} {f : Nat} :
    firstDifferingBit key other = some f ↔
      f < DEPTH ∧ bitAt key.toList f ≠ bitAt other.toList f ∧
        ∀ i < f, bitAt key.toList i = bitAt other.toList i := by
  rw [firstDifferingBit, List.find?_range_eq_some]
  simp only [bne_iff_ne, List.mem_range, Bool.not_eq_true', bne_eq_false_iff_eq]
  tauto

/-- Two keys part at some depth of the tree. -/
theorem exists_firstDifferingBit {key other : Key} (h : key ≠ other) :
    ∃ f, firstDifferingBit key other = some f := by
  cases hf : firstDifferingBit key other with
  | some f => exact ⟨f, rfl⟩
  | none =>
      refine absurd (key_ext key other fun i hi => ?_) h
      rw [firstDifferingBit, List.find?_eq_none] at hf
      simpa using hf i (List.mem_range.2 hi)

/-- The steps stand at consecutive depths from `d` and carry the siblings `sibs`. -/
def Carries (steps : List SmtProofStep) (d : Nat) (sibs : List Bytes32) : Prop :=
  steps.map (fun step => step.depth.toNat) = List.range' d steps.length ∧
    steps.map SmtProofStep.siblingHash = sibs

theorem Carries.cons {steps : List SmtProofStep} {d : Nat} {sibs : List Bytes32} (hd : d < DEPTH)
    (h : Carries steps (d + 1) sibs) (s : Bytes32) :
    Carries (⟨UInt8.ofNat d, s⟩ :: steps) d (s :: sibs) := by
  obtain ⟨hdepths, hsibs⟩ := h
  have hnat : (UInt8.ofNat d).toNat = d := by
    simp only [DEPTH] at hd
    rw [UInt8.toNat_ofNat', Nat.mod_eq_of_lt (by omega)]
  exact ⟨by simp [hnat, hdepths, List.range'_succ], by simp [hsibs]⟩

/-- Towards a single other key: empty siblings down to the depth where the keys part, then the
subtree of the other key. -/
theorem carries_single {key other : Key} {f n d : Nat} (hn : d + n = DEPTH) (hd : d ≤ f)
    (hf : firstDifferingBit key other = some f) :
    Carries ((List.range' d (f - d)).map
        (fun d => ⟨UInt8.ofNat d, emptyHashes sha256 (d + 1)⟩) ++
      [⟨UInt8.ofNat f, singleKeyHash sha256 other (f + 1)⟩]) d
      (siblings (scheme sha256) key n d [other]) := by
  obtain ⟨hlt, hne, heq⟩ := firstDifferingBit_eq_some.1 hf
  induction n generalizing d with
  | zero => omega
  | succ n ih =>
      by_cases hdf : d = f
      · -- the keys part here: the other key is the whole sibling
        subst hdf
        have hbit : (scheme sha256).bit other d = !(scheme sha256).bit key d := by
          show bitAt other.toList d = !bitAt key.toList d
          cases hk : bitAt key.toList d <;> cases ho : bitAt other.toList d <;> simp_all
        have hnear : near (scheme sha256) key d [other] = [] := by simp [near, hbit]
        have hfar : far (scheme sha256) key d [other] = [other] := by simp [far, hbit]
        rw [siblings, hnear, hfar, Nat.sub_self, List.range'_zero, List.map_nil, List.nil_append,
          singleKeyHash_eq sha256 other (n := n) (by omega)]
        refine Carries.cons hlt ?_ _
        cases n <;> exact ⟨rfl, rfl⟩
      · -- the other key goes the same way: an empty sibling
        have hbit : (scheme sha256).bit other d = (scheme sha256).bit key d :=
          (heq d (by omega)).symm
        have hnear : near (scheme sha256) key d [other] = [other] := by simp [near, hbit]
        have hfar : far (scheme sha256) key d [other] = [] := by simp [far, hbit]
        have hrange : f - d = (f - (d + 1)) + 1 := by omega
        rw [siblings, hnear, hfar, hrange, List.range'_succ, List.map_cons, List.cons_append,
          treeHash_nil, emptyHashes_eq sha256 (n := n) (d := d + 1) (by omega)]
        exact (ih (by omega) (by omega)).cons (by omega) _

/-- **The descent finds the siblings.** For an absent key the steps are the siblings on its path, at
consecutive depths. -/
theorem witnessSteps_eq {key : Key} {n d : Nat} {keys : List Key} (hd : d + n = DEPTH)
    (hshare : SharePrefix (scheme sha256) key d keys) (hnodup : keys.Nodup) (hkey : key ∉ keys) :
    ∃ steps, witnessSteps sha256 key n keys d = some steps ∧
      Carries steps d (siblings (scheme sha256) key n d keys) := by
  induction n generalizing d keys with
  | zero =>
      obtain rfl : keys = [] := by
        rw [Nat.add_zero] at hd
        exact (hd ▸ hshare).eq_nil (scheme sha256) hkey
      exact ⟨[], rfl, rfl, rfl⟩
  | succ n ih =>
      match keys with
      | [] => exact ⟨[], rfl, rfl, rfl⟩
      | [other] =>
          have hne : key ≠ other := fun h => hkey (h ▸ List.mem_singleton_self key)
          obtain ⟨f, hf⟩ := exists_firstDifferingBit hne
          have hle : d ≤ f := by
            by_contra hlt
            obtain ⟨-, hbit, -⟩ := firstDifferingBit_eq_some.1 hf
            exact hbit (hshare other (List.mem_singleton_self _) f (by omega)).symm
          exact ⟨_, by rw [witnessSteps, hf]; rfl, carries_single sha256 hd hle hf⟩
      | k :: l :: rest =>
          have hmine : ((k :: l :: rest).filter
              fun x => bitAt x.toList d == bitAt key.toList d) =
              near (scheme sha256) key d (k :: l :: rest) := rfl
          have hsibling : ((k :: l :: rest).filter
              fun x => !(bitAt x.toList d == bitAt key.toList d)) =
              far (scheme sha256) key d (k :: l :: rest) := rfl
          obtain ⟨steps, hsteps, hcarries⟩ := ih (d := d + 1) (by omega) hshare.near
            (hnodup.sublist List.filter_sublist) fun h => hkey (List.mem_of_mem_filter h)
          have hsub : subtreeHash sha256 n (far (scheme sha256) key d (k :: l :: rest)) (d + 1) =
              treeHash (scheme sha256) n (d + 1) (far (scheme sha256) key d (k :: l :: rest)) := by
            refine subtreeHash_eq sha256 (by omega) (hnodup.sublist List.filter_sublist) ?_
            have hagree : Agree (scheme sha256) d (k :: l :: rest) := fun a ha b hb i hi => by
              rw [hshare a ha i hi, hshare b hb i hi]
            rw [far_eq_side]
            exact hagree.side (scheme sha256) _
          refine ⟨_, ?_, hcarries.cons (by omega) _⟩
          rw [witnessSteps, hmine, hsibling, hsteps, hsub]
          rfl

theorem nonMembershipWitness_eq_none {tree : NullifierTree} {key : Key} :
    tree.nonMembershipWitness sha256 key = none ↔ key ∈ tree.keys := by
  have hany : (tree.keys.any fun existing => existing == key) = true ↔ key ∈ tree.keys := by
    simp
  rw [NullifierTree.nonMembershipWitness]
  by_cases hkey : key ∈ tree.keys
  · rw [if_pos (hany.2 hkey)]
    simp [hkey]
  · obtain ⟨steps, hsteps, -⟩ := witnessSteps_eq sha256 (Nat.zero_add DEPTH)
      (sharePrefix_zero _ _ _) tree.nodup hkey
    rw [if_neg (mt hany.1 hkey), hsteps]
    simp [hkey]

/-- The witness of an absent key, in the terms of the general tree. -/
theorem nonMembershipWitness_eq_some {tree : NullifierTree} {key : Key}
    {witness : NonMembershipWitness} (h : tree.nonMembershipWitness sha256 key = some witness) :
    key ∉ tree.keys ∧ witness.terminal = .empty ∧ Descending witness.steps ∧
      witnessSiblings witness.steps = siblings (scheme sha256) key DEPTH 0 tree.keys := by
  have hkey : key ∉ tree.keys := by
    intro hmem
    rw [(nonMembershipWitness_eq_none sha256).2 hmem] at h
    cases h
  obtain ⟨steps, hsteps, hdepths, hsibs⟩ := witnessSteps_eq sha256 (Nat.zero_add DEPTH)
    (sharePrefix_zero _ _ _) tree.nodup hkey
  have hany : ¬ (tree.keys.any fun existing => existing == key) = true := by simpa using hkey
  rw [NullifierTree.nonMembershipWitness, if_neg hany, hsteps] at h
  obtain rfl : witness = ⟨.empty, steps.reverse⟩ := (Option.some.inj h).symm
  refine ⟨hkey, rfl, ?_, ?_⟩
  · rw [Descending, List.map_reverse, hdepths, List.length_reverse, List.range_eq_range']
  · rw [witnessSiblings, List.reverse_reverse, hsibs]

/-- Against one other key the witness has a step for every bit that the keys share, and one more. -/
theorem nonMembershipWitness_single {tree : NullifierTree} {key other : Key} {f : Nat}
    (hkeys : tree.keys = [other]) (hf : firstDifferingBit key other = some f) :
    ∃ witness, tree.nonMembershipWitness sha256 key = some witness ∧
      witness.steps.length = f + 1 := by
  obtain ⟨-, hbit, -⟩ := firstDifferingBit_eq_some.1 hf
  have hne : other ≠ key := fun h => hbit (by rw [h])
  have hany : ¬ ([other].any fun existing => existing == key) = true := by simpa using hne
  rw [NullifierTree.nonMembershipWitness, hkeys, if_neg hany, witnessSteps, hf]
  exact ⟨_, rfl, by simp⟩

/-- The witness of an absent key rebuilds the root, and its siblings fold the key alone to the
digest of the keys with `key` added. -/
theorem nonMembershipWitness_folds {tree : NullifierTree} {key : Key}
    {witness : NonMembershipWitness} (h : tree.nonMembershipWitness sha256 key = some witness) :
    rebuildAbsentRoot sha256 key witness = some (tree.root sha256) ∧
      treeHash (scheme sha256) DEPTH 0 (tree.keys ++ [key]) =
        pathHash (scheme sha256) key 0 (witnessSiblings witness.steps)
          (singleKeyHash sha256 key witness.steps.length) := by
  obtain ⟨hkey, hterm, hdesc, hsibs⟩ := nonMembershipWitness_eq_some sha256 h
  obtain ⟨r, hr, hvoid, hadd⟩ := pathHash_siblings (scheme sha256) key DEPTH 0 tree.keys
    (Nat.zero_add _) (sharePrefix_zero _ _ _) hkey
  rw [← hsibs, witnessSiblings_length] at hr hvoid hadd
  rw [Nat.zero_add] at hvoid hadd
  rw [← emptyHashes_eq sha256 (by omega)] at hvoid
  rw [← singleKeyHash_eq sha256 key (by omega)] at hadd
  refine ⟨(rebuildAbsentRoot_eq_some sha256).2 ⟨hterm, ?_⟩, hadd⟩
  cases hkeys : tree.keys with
  | nil =>
      rw [hkeys] at hsibs
      have hnil : witness.steps = [] := by
        have hlen := congrArg List.length hsibs
        rw [witnessSiblings_length] at hlen
        exact List.length_eq_zero_iff.1 hlen
      exact Or.inl ⟨hnil, by rw [root_eq, if_pos hkeys]⟩
  | cons k rest =>
      have hne : witness.steps ≠ [] := by
        rintro hnil
        rw [hkeys, hnil] at hsibs
        cases hsibs
      refine Or.inr ⟨hne, hdesc, ?_⟩
      rw [root_eq, if_neg (by rw [hkeys]; exact List.cons_ne_nil _ _), hvoid]

/-- The tree with an absent key added. -/
theorem NullifierTree.insert_eq_ok {tree tree' : NullifierTree} {key : Key} :
    tree.insert key = .ok tree' ↔ key ∉ tree.keys ∧ tree'.keys = tree.keys ++ [key] := by
  rw [NullifierTree.insert]
  split
  · next h => simp [h]
  · next h =>
    rw [Except.ok.injEq]
    constructor
    · rintro rfl
      exact ⟨h, rfl⟩
    · rintro ⟨-, hkeys⟩
      cases tree'
      simpa using hkeys.symm

/-- **An honest witness is accepted**, and inserts the root of the tree with the key added. -/
theorem nonMembershipWitness_accepted {tree tree' : NullifierTree} {key : Key}
    {witness : NonMembershipWitness} (h : tree.nonMembershipWitness sha256 key = some witness)
    (hinsert : tree.insert key = .ok tree') :
    Accumulator.insert sha256 (tree.root sha256) key witness = some (tree'.root sha256) := by
  obtain ⟨hre, hadd⟩ := nonMembershipWitness_folds sha256 h
  obtain ⟨-, hkeys⟩ := NullifierTree.insert_eq_ok.1 hinsert
  refine (insert_eq_some sha256).2 ⟨hre, ?_⟩
  rw [root_eq, if_neg (by simp [hkeys]), hkeys, hadd]

/-- **An honest witness hashes what the trees hash**: to rebuild the old root the tree without the key,
to compute the new one the tree with it. -/
theorem nonMembershipWitness_inputs {tree tree' : NullifierTree} {key : Key}
    {witness : NonMembershipWitness} (h : tree.nonMembershipWitness sha256 key = some witness)
    (hinsert : tree.insert key = .ok tree') :
    absentInputs sha256 key witness ⊆ treeInputs sha256 tree ∧
      presentInputs sha256 key witness ⊆ treeInputs sha256 tree' := by
  obtain ⟨hkey, -, -, hsibs⟩ := nonMembershipWitness_eq_some sha256 h
  obtain ⟨-, hkeys⟩ := NullifierTree.insert_eq_ok.1 hinsert
  obtain ⟨r, hr, -⟩ := pathHash_siblings (scheme sha256) key DEPTH 0 tree.keys
    (Nat.zero_add _) (sharePrefix_zero _ _ _) hkey
  obtain ⟨habsent, hpath, hsingle⟩ := queries_siblings (scheme sha256) key DEPTH 0 r tree.keys
    (Nat.zero_add _) (sharePrefix_zero _ _ _) hkey hr
  rw [← hsibs, witnessSiblings_length] at hr
  rw [← hsibs, witnessSiblings_length, Nat.zero_add] at habsent hpath hsingle
  have hlevel : witness.steps.length + r = DEPTH := by omega
  rw [← emptyHashes_eq sha256 hlevel] at habsent
  rw [← singleKeyHash_eq sha256 key hlevel] at hpath
  rw [treeInputs, treeInputs, hkeys]
  refine ⟨Set.image_mono habsent, Set.union_subset ?_ (Set.image_mono hpath)⟩
  have hbelow : DEPTH - witness.steps.length = r := by omega
  rw [singleKeyInputs, hbelow]
  exact Set.image_mono hsingle

/-- What the trees over some of these keys hash. -/
def treesInputs (keys : List Key) : Set Bytes :=
  {data | ∃ tree : NullifierTree, tree.keys ⊆ keys ∧ data ∈ treeInputs sha256 tree}

theorem treeInputs_subset {tree : NullifierTree} {keys : List Key} (h : tree.keys ⊆ keys) :
    treeInputs sha256 tree ⊆ treesInputs sha256 keys :=
  fun _ hdata => ⟨tree, h, hdata⟩

theorem treesInputs_mono {keys more : List Key} (h : keys ⊆ more) :
    treesInputs sha256 keys ⊆ treesInputs sha256 more := by
  rintro data ⟨tree, htree, hdata⟩
  exact ⟨tree, List.Subset.trans htree h, hdata⟩

theorem defaultInputs_subset (keys : List Key) : defaultInputs sha256 ⊆ treesInputs sha256 keys :=
  fun _ hdata => ⟨.new, List.nil_subset keys, hdata⟩

/-- The witness of a key is the one against a tree of some of these keys. -/
def HonestIn (keys : List Key) (pair : Key × NonMembershipWitness) : Prop :=
  ∃ before after : NullifierTree, before.nonMembershipWitness sha256 pair.1 = some pair.2 ∧
    before.insert pair.1 = .ok after ∧ after.keys ⊆ keys

theorem HonestIn.inputs {keys : List Key} {pair : Key × NonMembershipWitness}
    (h : HonestIn sha256 keys pair) :
    absentInputs sha256 pair.1 pair.2 ∪ presentInputs sha256 pair.1 pair.2 ⊆
      treesInputs sha256 keys := by
  obtain ⟨before, after, hwitness, hinsert, hkeys⟩ := h
  obtain ⟨habsent, hpresent⟩ := nonMembershipWitness_inputs sha256 hwitness hinsert
  have hbefore : before.keys ⊆ keys := by
    rw [(NullifierTree.insert_eq_ok.1 hinsert).2] at hkeys
    exact List.Subset.trans (List.subset_append_left _ _) hkeys
  exact Set.union_subset (habsent.trans (treeInputs_subset sha256 hbefore))
    (hpresent.trans (treeInputs_subset sha256 hkeys))

/-! ## Insertion in order -/

/-- The keys of `tree'` are those of `tree` followed by `keys`, and every witness is honest. -/
theorem foldlM_insertWitness {keys : List Key} (ws : List NonMembershipWitness)
    (tree : NullifierTree) (hnodup : keys.Nodup) (habsent : ∀ k ∈ keys, k ∉ tree.keys) :
    ∃ witnesses tree', keys.foldlM (insertWitness sha256) (ws, tree) =
        Except.ok (ws ++ witnesses, tree') ∧
      witnesses.length = keys.length ∧ tree'.keys = tree.keys ++ keys ∧
      (keys.zip witnesses).foldlM (fun root p => Accumulator.insert sha256 root p.1 p.2)
        (tree.root sha256) = some (tree'.root sha256) ∧
      ∀ pair ∈ keys.zip witnesses, HonestIn sha256 (tree.keys ++ keys) pair := by
  -- by induction on the keys, with the tree that grows
  induction keys generalizing ws tree with
  | nil =>
      exact ⟨[], tree, by rw [List.append_nil]; rfl, rfl, by simp, rfl,
        fun _ h => absurd h List.not_mem_nil⟩
  | cons k rest ih =>
      have hk : k ∉ tree.keys := habsent k List.mem_cons_self
      obtain ⟨witness, hwitness⟩ : ∃ w, tree.nonMembershipWitness sha256 k = some w := by
        cases hw : tree.nonMembershipWitness sha256 k with
        | some w => exact ⟨w, rfl⟩
        | none => exact absurd ((nonMembershipWitness_eq_none sha256).1 hw) hk
      obtain ⟨mid, hmid⟩ : ∃ mid, tree.insert k = .ok mid := by
        rw [NullifierTree.insert, dif_neg hk]
        exact ⟨_, rfl⟩
      obtain ⟨-, hkeys⟩ := NullifierTree.insert_eq_ok.1 hmid
      obtain ⟨hrest, hnodup'⟩ := List.nodup_cons.1 hnodup
      have habsent' : ∀ l ∈ rest, l ∉ mid.keys := by
        intro l hl hmem
        rw [hkeys, List.mem_append, List.mem_singleton] at hmem
        rcases hmem with hmem | rfl
        · exact habsent l (List.mem_cons_of_mem k hl) hmem
        · exact hrest hl
      -- the rest is inserted into the tree that has the first key
      obtain ⟨witnesses, tree', hfold, hlen, hkeys', hroots, hhonest⟩ := ih (ws ++ [witness]) mid
        hnodup' habsent'
      have hstep : insertWitness sha256 (ws, tree) k = .ok (ws ++ [witness], mid) := by
        simp only [insertWitness, hwitness, hmid]
        rfl
      have hall : mid.keys ++ rest = tree.keys ++ k :: rest := by simp [hkeys]
      refine ⟨witness :: witnesses, tree', ?_, by simp [hlen], by simp [hkeys', hkeys], ?_, ?_⟩
      · rw [List.foldlM_cons, hstep]
        show rest.foldlM (insertWitness sha256) (ws ++ [witness], mid) = _
        rw [hfold]
        simp
      · rw [List.zip_cons_cons, List.foldlM_cons,
          nonMembershipWitness_accepted sha256 hwitness hmid]
        exact hroots
      · rw [List.zip_cons_cons, List.forall_mem_cons, ← hall]
        exact ⟨⟨tree, mid, hwitness, hmid, List.subset_append_left _ _⟩, hhonest⟩

/-- Inserting keys with their witnesses appends them too. -/
theorem foldlM_insertWitness_keys {keys : List Key} {ws ws' : List NonMembershipWitness}
    {tree tree' : NullifierTree}
    (h : keys.foldlM (insertWitness sha256) (ws, tree) = .ok (ws', tree')) :
    tree'.keys = tree.keys ++ keys := by
  induction keys generalizing ws tree with
  | nil =>
      obtain ⟨-, rfl⟩ := Prod.mk.inj (Except.ok.inj h)
      simp
  | cons k rest ih =>
      rw [List.foldlM_cons, insertWitness] at h
      cases hw : tree.nonMembershipWitness sha256 k with
      | none =>
          rw [hw] at h
          cases h
      | some witness =>
          rw [hw] at h
          cases hk : tree.insert k with
          | error e =>
              rw [hk] at h
              cases h
          | ok mid =>
              rw [hk] at h
              rw [ih h, (NullifierTree.insert_eq_ok.1 hk).2]
              simp

/-- **Ordered insertion succeeds exactly on new keys**, and gives the root of the set with them. -/
theorem orderedInsertWitnesses_eq_ok {tree : NullifierTree} {keys : List Key} {r : Bytes32} :
    (∃ ws, orderedInsertWitnesses sha256 tree keys = .ok (ws, r)) ↔
      (tree.keys ++ keys).Nodup ∧ r = setRoot sha256 (tree.keys ++ keys).toFinset := by
  constructor
  · rintro ⟨ws, h⟩
    cases hfold : keys.foldlM (insertWitness sha256) ([], tree) with
    | error e =>
        rw [orderedInsertWitnesses, hfold] at h
        cases h
    | ok out =>
        obtain ⟨ws', tree'⟩ := out
        rw [orderedInsertWitnesses, hfold] at h
        have hkeys := foldlM_insertWitness_keys sha256 hfold
        have hr : tree'.root sha256 = r := congrArg Prod.snd (Except.ok.inj h)
        refine ⟨hkeys ▸ tree'.nodup, ?_⟩
        rw [← hr, root_eq_setRoot, hkeys]
  · rintro ⟨hnodup, rfl⟩
    obtain ⟨-, hkeys, hdisjoint⟩ := List.nodup_append.1 hnodup
    obtain ⟨ws, tree', hfold, -, hkeys', -⟩ := foldlM_insertWitness sha256 [] tree hkeys
      fun k hk hmem => hdisjoint k hmem k hk rfl
    refine ⟨[] ++ ws, ?_⟩
    rw [orderedInsertWitnesses, hfold, ← hkeys', ← root_eq_setRoot]
    rfl

/-- The witnesses of an ordered insertion are honest, and chain the roots. -/
theorem orderedInsertWitnesses_ok {tree : NullifierTree} {keys : List Key}
    {ws : List NonMembershipWitness} {r : Bytes32}
    (h : orderedInsertWitnesses sha256 tree keys = .ok (ws, r)) :
    ws.length = keys.length ∧
      (keys.zip ws).foldlM (fun root p => Accumulator.insert sha256 root p.1 p.2)
        (tree.root sha256) = some r ∧
      ∀ pair ∈ keys.zip ws, HonestIn sha256 (tree.keys ++ keys) pair := by
  obtain ⟨hnodup, -⟩ := (orderedInsertWitnesses_eq_ok sha256).1 ⟨ws, h⟩
  obtain ⟨-, hkeys, hdisjoint⟩ := List.nodup_append.1 hnodup
  obtain ⟨ws', tree', hfold, hlen, -, hroots, hhonest⟩ := foldlM_insertWitness sha256 [] tree hkeys
    fun k hk hmem => hdisjoint k hmem k hk rfl
  rw [orderedInsertWitnesses, hfold] at h
  obtain ⟨rfl, rfl⟩ := Prod.mk.inj (Except.ok.inj h)
  exact ⟨hlen, hroots, hhonest⟩

/-- Inserting keys one by one appends them. -/
theorem foldlM_insert_keys {keys : List Key} {tree tree' : NullifierTree}
    (h : keys.foldlM NullifierTree.insert tree = .ok tree') : tree'.keys = tree.keys ++ keys := by
  induction keys generalizing tree with
  | nil =>
      obtain rfl : tree = tree' := Except.ok.inj h
      simp
  | cons k rest ih =>
      rw [List.foldlM_cons] at h
      cases hk : tree.insert k with
      | error e =>
          rw [hk] at h
          cases h
      | ok mid =>
          rw [hk] at h
          rw [ih h, (NullifierTree.insert_eq_ok.1 hk).2]
          simp

/-- New keys can be inserted. -/
theorem foldlM_insert_ok {keys : List Key} {tree : NullifierTree}
    (hnodup : (tree.keys ++ keys).Nodup) :
    ∃ tree', keys.foldlM NullifierTree.insert tree = .ok tree' := by
  induction keys generalizing tree with
  | nil => exact ⟨tree, rfl⟩
  | cons k rest ih =>
      have hk : k ∉ tree.keys := fun hmem =>
        (List.nodup_append.1 hnodup).2.2 k hmem k List.mem_cons_self rfl
      obtain ⟨mid, hmid⟩ : ∃ mid, tree.insert k = .ok mid := by
        rw [NullifierTree.insert, dif_neg hk]
        exact ⟨_, rfl⟩
      have hmidKeys := (NullifierTree.insert_eq_ok.1 hmid).2
      rw [List.foldlM_cons, hmid]
      apply ih
      rw [hmidKeys, List.append_assoc]
      exact hnodup

end Descent

/-- **The tree's own witnesses are complete**, at every size and for every absent key, one at a time
and in order, and the root does not depend on the order of insertion. -/
theorem accumulator_complete (sha256 : Bytes → Bytes32) (tree : NullifierTree) :
    (∀ key, tree.nonMembershipWitness sha256 key = none ↔ key ∈ tree.keys) ∧
      (∀ key witness, tree.nonMembershipWitness sha256 key = some witness →
        witness.steps.length ≤ 256 ∧
          verifyNonMember sha256 (tree.root sha256) key witness = true ∧
          ∃ tree', tree.insert key = .ok tree' ∧
            insert sha256 (tree.root sha256) key witness = some (tree'.root sha256)) ∧
      (∀ keys : List Key, keys.Nodup → (∀ k ∈ keys, k ∉ tree.keys) →
        ∃ witnesses r, orderedInsertWitnesses sha256 tree keys = .ok (witnesses, r) ∧
          witnesses.length = keys.length ∧
          (keys.zip witnesses).foldlM (fun root p => insert sha256 root p.1 p.2)
            (tree.root sha256) = some r ∧
          ∀ union : NullifierTree, (∀ k, k ∈ union.keys ↔ k ∈ tree.keys ∨ k ∈ keys) →
            union.root sha256 = r) ∧
      ∀ (keys keys' : List Key) (after after' : NullifierTree), keys.Perm keys' →
        keys.foldlM NullifierTree.insert tree = .ok after →
        keys'.foldlM NullifierTree.insert tree = .ok after' →
        after.root sha256 = after'.root sha256 := by
  refine ⟨fun key => nonMembershipWitness_eq_none sha256, ?_, ?_, ?_⟩
  · intro key witness h
    obtain ⟨hkey, -, hdesc, -⟩ := nonMembershipWitness_eq_some sha256 h
    obtain ⟨tree', htree'⟩ : ∃ tree', tree.insert key = .ok tree' := by
      rw [NullifierTree.insert, dif_neg hkey]
      exact ⟨_, rfl⟩
    exact ⟨hdesc.length_le, (verifyNonMember_iff sha256).2 (nonMembershipWitness_folds sha256 h).1,
      tree', htree', nonMembershipWitness_accepted sha256 h htree'⟩
  · intro keys hnodup habsent
    obtain ⟨witnesses, tree', hfold, hlen, hkeys, hroots, -⟩ :=
      foldlM_insertWitness sha256 [] tree hnodup habsent
    refine ⟨witnesses, tree'.root sha256, ?_, hlen, hroots, fun union hunion => ?_⟩
    · rw [orderedInsertWitnesses, hfold]
      rfl
    · refine root_congr sha256 fun k => ?_
      rw [hunion, hkeys, List.mem_append]
  · intro keys keys' after after' hperm h h'
    refine root_congr sha256 fun k => ?_
    rw [foldlM_insert_keys h, foldlM_insert_keys h', List.mem_append, List.mem_append,
      hperm.mem_iff]

/-- Two keys inserted in order into the empty tree. -/
theorem accumulator_complete_two :
    ∃ witnesses r,
      orderedInsertWitnesses sampleHash .new [ByteArr.zero 32, List.Vector.replicate 32 1] =
        .ok (witnesses, r) ∧
      witnesses.length = 2 := by
  obtain ⟨witnesses, r, h, hlen, -⟩ := (accumulator_complete sampleHash .new).2.2.1
    [ByteArr.zero 32, List.Vector.replicate 32 1] (by decide) (fun _ _ => List.not_mem_nil)
  exact ⟨witnesses, r, h, hlen⟩

end UnicityBridge.Accumulator
