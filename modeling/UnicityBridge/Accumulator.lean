import UnicityBridge.Lib.Bytes
import UnicityBridge.Lib.SparseMerkle
import Mathlib.Data.Finset.Basic
import Mathlib.Data.Finset.Dedup

/-!
# The nullifier accumulator

The sparse Merkle presence accumulator of `prover/crates/sdk-ext/src/accumulator.rs`: witnesses,
their verification and insertion from the witness alone, and the tree that produces them. SHA-256
is a parameter of every definition.

`scheme` is the accumulator as an instance of the general sparse Merkle tree. The last part ties
each function of the source to it: the digest of a subtree, the digest of a single key, the default
digests and the fold of a witness are those of the instance.
-/

set_option autoImplicit false

namespace UnicityBridge.Accumulator

open UnicityBridge.Lib

/-- The nullifiers of the accumulator. -/
abbrev Key := Bytes32

/-- Sentinel root of the empty accumulator. -/
def EMPTY_TREE_ROOT : Bytes32 := ByteArr.zero 32

/-- First byte of a hashed leaf. -/
def LEAF_PREFIX : UInt8 := 0x00

/-- First byte of a hashed node. -/
def NODE_PREFIX : UInt8 := 0x01

/-- The value every present key carries: the tree is a set. -/
def PRESENCE_VALUE : UInt8 := 0x01

/-- Number of bits of a key, hence of levels of the tree. -/
def DEPTH : Nat := 256

/-- Longest list of steps a witness may carry. -/
def MAX_STEPS : Nat := 256

/-- One sibling on the path of a witness, with the depth of the node it hangs from. -/
structure SmtProofStep where
  depth : UInt8
  siblingHash : Bytes32
  deriving DecidableEq

/-- What stands where the path of an absent key ends: nothing, or one other key. -/
inductive NonMembershipTerminal where
  | empty
  | occupied (key : Key)
  deriving DecidableEq

/-- A witness that a key is absent: the end of its path and the siblings, deepest first. -/
structure NonMembershipWitness where
  terminal : NonMembershipTerminal
  steps : List SmtProofStep
  deriving DecidableEq

/-- The SDK error the tree returns. -/
inductive Error where
  | unexpectedValue (text : String)
  deriving DecidableEq

section Functions

variable (sha256 : Bytes → Bytes32)

/-- The bytes hashed for a leaf. -/
def leafInput (key : Key) : Bytes := LEAF_PREFIX :: (key.toList ++ [PRESENCE_VALUE])

/-- The bytes hashed for a node. -/
def nodeInput (depth : UInt8) (left right : Bytes32) : Bytes :=
  NODE_PREFIX :: depth :: (left.toList ++ right.toList)

/-- The digest of a key alone at the bottom of the tree. -/
def leafHash (key : Key) : Bytes32 := sha256 (leafInput key)

/-- The digest of an inner node; its depth is hashed with the two children. -/
def nodeHash (depth : UInt8) (left right : Bytes32) : Bytes32 :=
  sha256 (nodeInput depth left right)

/-- The first `n` steps of the downward loop of `empty_hashes`: the default digest `n` levels above
the bottom. -/
def emptyHashesFrom : Nat → Bytes32
  | 0 => EMPTY_TREE_ROOT
  | n + 1 => let e := emptyHashesFrom n; nodeHash sha256 (UInt8.ofNat (DEPTH - (n + 1))) e e

/-- Entry `depth` of the table of default digests. -/
def emptyHashes (depth : Nat) : Bytes32 := emptyHashesFrom sha256 (DEPTH - depth)

/-- One level of a fold: the node with `hash` on the side of `key` and `sibling` on the other. -/
def foldLevel (key : Key) (depth : Nat) (hash sibling : Bytes32) : Bytes32 :=
  if bitAt key.toList depth then nodeHash sha256 (UInt8.ofNat depth) sibling hash
  else nodeHash sha256 (UInt8.ofNat depth) hash sibling

/-- The digest of the subtree at `depth` that holds `key` alone. The loop over the levels runs from
the bottom up, so it is a right fold over the levels listed downwards. -/
def singleKeyHash (key : Key) (depth : Nat) : Bytes32 :=
  (List.range' depth (DEPTH - depth)).foldr
    (fun level hash => foldLevel sha256 key level hash (emptyHashes sha256 (level + 1)))
    (leafHash sha256 key)

/-- The digest of the subtree holding `keys`, all sharing the prefix down to `depth`; `fuel` is the
number of levels below `depth`. Distinct keys part above depth 256, so a list of two or more keys
always meets `fuel` above zero. -/
def subtreeHash : Nat → List Key → Nat → Bytes32
  | _, [], depth => emptyHashes sha256 depth
  | _, [key], depth => singleKeyHash sha256 key depth
  | 0, _ :: _ :: _, depth => emptyHashes sha256 depth
  | fuel + 1, k :: l :: rest, depth =>
      let left := (k :: l :: rest).filter fun x => !bitAt x.toList depth
      let right := (k :: l :: rest).filter fun x => bitAt x.toList depth
      nodeHash sha256 (UInt8.ofNat depth) (subtreeHash fuel left (depth + 1))
        (subtreeHash fuel right (depth + 1))

/-- Terminal depth: one below the deepest step. The steps have to descend to depth 0 one level at a
time. In the source `top - i` is a subtraction of `usize`; an index above `top` never gives a depth,
whether the build wraps or checks the subtraction. -/
def terminalDepth (steps : List SmtProofStep) : Option Nat := do
  let first ← steps.head?
  let top := first.depth.toNat
  if steps.zipIdx.all fun (step, i) => i ≤ top && step.depth.toNat == top - i then
    let last ← steps.getLast?
    if last.depth ≠ 0 then none else some (top + 1)
  else none

/-- Fold `hash` up to the root; `previousDepth` is the depth of the step before. -/
def foldStepsFrom (key : Key) : Nat → Bytes32 → List SmtProofStep → Option Bytes32
  | _, hash, [] => some hash
  | previousDepth, hash, step :: rest =>
      if step.depth.toNat ≥ previousDepth then none
      else foldStepsFrom key step.depth.toNat
        (foldLevel sha256 key step.depth.toNat hash step.siblingHash) rest

/-- The root the steps lead to, or `none` when their depths do not strictly decrease. -/
def foldSteps (key : Key) (hash : Bytes32) (steps : List SmtProofStep) : Option Bytes32 :=
  foldStepsFrom sha256 key (DEPTH + 1) hash steps

/-- The root of the tree in which `key` is absent, from the witness alone. -/
def rebuildAbsentRoot (key : Key) (witness : NonMembershipWitness) : Option Bytes32 := do
  if witness.terminal ≠ .empty then none
  else if witness.steps.isEmpty then some EMPTY_TREE_ROOT
  else if witness.steps.length > MAX_STEPS then none
  else
    let td ← terminalDepth witness.steps
    foldSteps sha256 key (emptyHashes sha256 td) witness.steps

/-- Verify that `key` is absent from the tree committed by `root`. -/
def verifyNonMember (root : Bytes32) (key : Key) (witness : NonMembershipWitness) : Bool :=
  (rebuildAbsentRoot sha256 key witness).any fun rebuilt => rebuilt == root

/-- The root after inserting `key`, or `none` if the witness does not prove absence. -/
def insert (root : Bytes32) (key : Key) (witness : NonMembershipWitness) : Option Bytes32 := do
  let rebuilt ← rebuildAbsentRoot sha256 key witness
  if rebuilt ≠ root then none
  else if witness.steps.isEmpty then some (singleKeyHash sha256 key 0)
  else
    let td ← terminalDepth witness.steps
    foldSteps sha256 key (singleKeyHash sha256 key td) witness.steps

/-- The depth at which the paths of two keys part; `none` for equal keys. -/
def firstDifferingBit (left right : Key) : Option Nat :=
  (List.range DEPTH).find? fun depth => bitAt left.toList depth != bitAt right.toList depth

/-- The steps of the descent towards `key`, from the top; `fuel` is the number of levels left. -/
def witnessSteps (key : Key) : Nat → List Key → Nat → Option (List SmtProofStep)
  | _, [], _ => some []
  | _, [other], depth => do
      let f ← firstDifferingBit key other
      some ((List.range' depth (f - depth)).map
          (fun d => ⟨UInt8.ofNat d, emptyHashes sha256 (d + 1)⟩) ++
        [⟨UInt8.ofNat f, singleKeyHash sha256 other (f + 1)⟩])
  | 0, _ :: _ :: _, _ => none
  | fuel + 1, k :: l :: rest, depth => do
      let goRight := bitAt key.toList depth
      let mine := (k :: l :: rest).filter fun x => bitAt x.toList depth == goRight
      let sibling := (k :: l :: rest).filter fun x => !(bitAt x.toList depth == goRight)
      let deeper ← witnessSteps key fuel mine (depth + 1)
      some (⟨UInt8.ofNat depth, subtreeHash sha256 fuel sibling (depth + 1)⟩ :: deeper)

end Functions

/-- The accumulator as a list of keys. Only `new` and `insert` build one, so no key occurs
twice. -/
structure NullifierTree where
  keys : List Key
  nodup : keys.Nodup
  deriving DecidableEq

namespace NullifierTree

/-- The empty tree. -/
def new : NullifierTree := ⟨[], List.nodup_nil⟩

variable (sha256 : Bytes → Bytes32)

/-- The root of the tree, with the sentinel for the empty one. -/
def root (tree : NullifierTree) : Bytes32 :=
  if tree.keys.isEmpty then EMPTY_TREE_ROOT else subtreeHash sha256 DEPTH tree.keys 0

/-- Non-membership witness for `key`, or `none` if `key` is already present. -/
def nonMembershipWitness (tree : NullifierTree) (key : Key) : Option NonMembershipWitness := do
  if tree.keys.any fun existing => existing == key then none
  else
    let steps ← witnessSteps sha256 key DEPTH tree.keys 0
    -- deepest first, for the fold
    some ⟨.empty, steps.reverse⟩

/-- Insertion, refused for a key that is already present. -/
def insert (tree : NullifierTree) (key : Key) : Except Error NullifierTree :=
  if h : key ∈ tree.keys then .error (.unexpectedValue "duplicate accumulator key")
  else .ok ⟨tree.keys ++ [key], by
    simpa [List.nodup_append] using ⟨tree.nodup, fun a ha hk => h (hk ▸ ha)⟩⟩

end NullifierTree

/-- One key of `ordered_insert_witnesses`: its witness against the tree so far, and the tree with
the key added. -/
def insertWitness (sha256 : Bytes → Bytes32) (acc : List NonMembershipWitness × NullifierTree)
    (key : Key) : Except Error (List NonMembershipWitness × NullifierTree) :=
  match acc.2.nonMembershipWitness sha256 key with
  | none => .error (.unexpectedValue "duplicate accumulator key")
  | some witness => do
      let tree ← acc.2.insert key
      .ok (acc.1 ++ [witness], tree)

/-- Witnesses for inserting `keys` in order, and the root after the last. -/
def orderedInsertWitnesses (sha256 : Bytes → Bytes32) (start : NullifierTree) (keys : List Key) :
    Except Error (List NonMembershipWitness × Bytes32) := do
  let (witnesses, tree) ← keys.foldlM (insertWitness sha256) ([], start)
  .ok (witnesses, tree.root sha256)

/-! ## The accumulator as a sparse Merkle tree -/

open SparseMerkle in
/-- The byte string hashed for a preimage. -/
def preimageBytes : Preimage Key Bytes32 → Bytes
  | .leaf key => leafInput key
  | .node level left right => nodeInput (UInt8.ofNat level) left right

theorem key_ext (a b : Key) (h : ∀ i < DEPTH, bitAt a.toList i = bitAt b.toList i) : a = b := by
  apply List.Vector.toList_injective
  refine bytes_ext_of_bitAt (by simp) fun i hi => h i ?_
  simpa [DEPTH] using hi

/-- The accumulator as an instance of the general tree. -/
def scheme (sha256 : Bytes → Bytes32) : SparseMerkle.Scheme Key Bytes32 where
  height := DEPTH
  bit key i := bitAt key.toList i
  hash p := sha256 (preimageBytes p)
  void := EMPTY_TREE_ROOT
  bit_ext := key_ext

/-- The byte strings hashed for the root of `tree`. -/
def treeInputs (sha256 : Bytes → Bytes32) (tree : NullifierTree) : Set Bytes :=
  preimageBytes '' SparseMerkle.treeQueries (scheme sha256) DEPTH 0 tree.keys

/-- The byte strings hashed for the table of default digests. -/
def defaultInputs (sha256 : Bytes → Bytes32) : Set Bytes :=
  preimageBytes '' SparseMerkle.treeQueries (scheme sha256) DEPTH 0 []

/-- The byte strings hashed for the subtree of `key` alone at `depth`. -/
def singleKeyInputs (sha256 : Bytes → Bytes32) (key : Key) (depth : Nat) : Set Bytes :=
  preimageBytes '' SparseMerkle.treeQueries (scheme sha256) (DEPTH - depth) depth [key]

/-- The byte strings hashed by the fold of `hash` up the steps of a witness. -/
def foldInputs (sha256 : Bytes → Bytes32) (key : Key) (hash : Bytes32)
    (steps : List SmtProofStep) : Set Bytes :=
  preimageBytes '' SparseMerkle.pathQueries (scheme sha256) key 0
    (steps.reverse.map SmtProofStep.siblingHash) hash

section Instance

open SparseMerkle

variable (sha256 : Bytes → Bytes32)

theorem nodeInput_inj {d d' : UInt8} {l l' r r' : Bytes32}
    (h : nodeInput d l r = nodeInput d' l' r') : d = d' ∧ l = l' ∧ r = r' := by
  simp only [nodeInput, List.cons.injEq, true_and] at h
  obtain ⟨hd, hlr⟩ := h
  obtain ⟨hl, hr⟩ := List.append_inj hlr (by simp)
  exact ⟨hd, List.Vector.toList_injective hl, List.Vector.toList_injective hr⟩

theorem leafInput_inj {a b : Key} (h : leafInput a = leafInput b) : a = b := by
  simp only [leafInput, List.cons.injEq, true_and] at h
  exact List.Vector.toList_injective (List.append_inj h (by simp)).1

theorem leafInput_ne_nodeInput (a : Key) (d : UInt8) (l r : Bytes32) :
    leafInput a ≠ nodeInput d l r := by
  simp [leafInput, nodeInput, LEAF_PREFIX, NODE_PREFIX]

/-- Preimages whose level is an entry of the tree. -/
def InRange : Preimage Key Bytes32 → Prop
  | .leaf _ => True
  | .node level _ _ => level < DEPTH

theorem preimageBytes_inj {p q : Preimage Key Bytes32} (hp : InRange p) (hq : InRange q)
    (h : preimageBytes p = preimageBytes q) : p = q := by
  cases p with
  | leaf a =>
      cases q with
      | leaf b => rw [leafInput_inj h]
      | node d l r => exact absurd h (leafInput_ne_nodeInput a _ l r)
  | node d l r =>
      cases q with
      | leaf b => exact absurd h.symm (leafInput_ne_nodeInput b _ l r)
      | node d' l' r' =>
          obtain ⟨hd, rfl, rfl⟩ := nodeInput_inj h
          have hd' := congrArg UInt8.toNat hd
          simp only [InRange, DEPTH] at hp hq
          simp only [UInt8.toNat_ofNat'] at hd'
          rw [Nat.mod_eq_of_lt (by omega), Nat.mod_eq_of_lt (by omega)] at hd'
          rw [hd']

theorem inRange_join (key : Key) {d : Nat} (hd : d < DEPTH) (x y : Bytes32) :
    InRange (joinPreimage (scheme sha256) key d x y) := by
  unfold joinPreimage
  split <;> exact hd

theorem inRange_treeQueries : ∀ (n d : Nat) (keys : List Key), d + n ≤ DEPTH →
    ∀ q ∈ treeQueries (scheme sha256) n d keys, InRange q
  | 0, _, [], _, _, hq => absurd hq (Set.notMem_empty _)
  | 0, _, _ :: _, _, _, hq => by
      obtain rfl := hq
      trivial
  | n + 1, d, keys, hd, q, hq => by
      rcases hq with rfl | hq | hq
      · exact (by omega : d < DEPTH)
      · exact inRange_treeQueries n (d + 1) _ (by omega) q hq
      · exact inRange_treeQueries n (d + 1) _ (by omega) q hq

theorem inRange_pathQueries (key : Key) : ∀ (sibs : List Bytes32) (d : Nat) (bottom : Bytes32),
    d + sibs.length ≤ DEPTH → ∀ q ∈ pathQueries (scheme sha256) key d sibs bottom, InRange q
  | [], _, _, _, _, hq => absurd hq (Set.notMem_empty _)
  | _ :: rest, d, bottom, hd, q, hq => by
      simp only [List.length_cons] at hd
      rcases hq with rfl | hq
      · exact inRange_join sha256 key (by omega) _ _
      · exact inRange_pathQueries key rest (d + 1) bottom (by omega) q hq

/-- Collision freeness of SHA-256 on byte strings gives it for the tree's hash on preimages. -/
theorem collisionFree_scheme {Q : Set Bytes} (hQ : CollisionFree sha256 EMPTY_TREE_ROOT Q) :
    CollisionFree (scheme sha256).hash (scheme sha256).void
      {p | InRange p ∧ preimageBytes p ∈ Q} where
  inj _ hp _ hq h := preimageBytes_inj hp.1 hq.1 (hQ.inj hp.2 hq.2 h)
  ne_zero _ hp := hQ.ne_zero _ hp.2

theorem foldLevel_eq (key : Key) (d : Nat) (hash sibling : Bytes32) :
    foldLevel sha256 key d hash sibling =
      (scheme sha256).hash (joinPreimage (scheme sha256) key d hash sibling) := by
  cases hb : bitAt key.toList d <;>
    simp [foldLevel, joinPreimage, scheme, hb, preimageBytes, nodeHash]

theorem emptyHashesFrom_eq {n : Nat} (hn : n ≤ DEPTH) :
    emptyHashesFrom sha256 n = voidHash (scheme sha256) n (DEPTH - n) := by
  induction n with
  | zero => rfl
  | succ n ih =>
      have hd : DEPTH - (n + 1) + 1 = DEPTH - n := by omega
      rw [emptyHashesFrom, voidHash, hd, ih (by omega)]
      rfl

theorem emptyHashes_eq {n d : Nat} (hd : d + n = DEPTH) :
    emptyHashes sha256 d = voidHash (scheme sha256) n d := by
  obtain rfl : d = DEPTH - n := by omega
  have hn : DEPTH - (DEPTH - n) = n := by omega
  rw [emptyHashes, hn, emptyHashesFrom_eq sha256 (by omega)]

theorem singleKeyHash_eq (key : Key) {n d : Nat} (hd : d + n = DEPTH) :
    singleKeyHash sha256 key d = treeHash (scheme sha256) n d [key] := by
  have hn : DEPTH - d = n := by omega
  rw [singleKeyHash, hn]
  clear hn
  induction n generalizing d with
  | zero => rfl
  | succ n ih =>
      have hnear : near (scheme sha256) key d [key] = [key] := side_self _ key d
      have hfar : far (scheme sha256) key d [key] = [] := by rw [far_eq_side, side_other]
      rw [List.range'_succ, List.foldr_cons, ih (d := d + 1) (by omega), foldLevel_eq,
        treeHash_succ (scheme sha256) key, hnear, hfar, treeHash_nil,
        emptyHashes_eq sha256 (n := n) (by omega)]

theorem length_le_one_of_agree {keys : List Key} (hnodup : keys.Nodup)
    (hagree : Agree (scheme sha256) DEPTH keys) : keys.length ≤ 1 := by
  match keys with
  | [] => exact Nat.zero_le 1
  | [_] => exact Nat.le_refl 1
  | a :: b :: rest =>
      have hab : a = b := key_ext a b fun i hi =>
        hagree b (by simp) a (by simp) i hi
      simp [hab] at hnodup

theorem subtreeHash_eq {n d : Nat} {keys : List Key} (hd : d + n = DEPTH) (hnodup : keys.Nodup)
    (hagree : Agree (scheme sha256) d keys) :
    subtreeHash sha256 n keys d = treeHash (scheme sha256) n d keys := by
  induction n generalizing d keys with
  | zero =>
      have hlen := length_le_one_of_agree sha256 hnodup (by rwa [← hd])
      match keys with
      | [] => exact emptyHashes_eq sha256 hd
      | [key] => exact singleKeyHash_eq sha256 key hd
      | _ :: _ :: _ => simp at hlen
  | succ n ih =>
      match keys with
      | [] => rw [subtreeHash, treeHash_nil, emptyHashes_eq sha256 hd]
      | [key] => exact singleKeyHash_eq sha256 key hd
      | k :: l :: rest =>
          have hleft : ((k :: l :: rest).filter fun x => !bitAt x.toList d) =
              side (scheme sha256) false d (k :: l :: rest) := by
            simp [side, scheme]
          have hright : ((k :: l :: rest).filter fun x => bitAt x.toList d) =
              side (scheme sha256) true d (k :: l :: rest) := by
            simp [side, scheme]
          have hside : ∀ b, subtreeHash sha256 n (side (scheme sha256) b d (k :: l :: rest))
              (d + 1) = treeHash (scheme sha256) n (d + 1)
                (side (scheme sha256) b d (k :: l :: rest)) := fun b =>
            ih (by omega) (hnodup.sublist List.filter_sublist) (hagree.side (scheme sha256) b)
          rw [subtreeHash, hleft, hright, hside, hside]
          rfl

theorem root_eq (tree : NullifierTree) :
    tree.root sha256 =
      if tree.keys = [] then EMPTY_TREE_ROOT else treeHash (scheme sha256) DEPTH 0 tree.keys := by
  rw [NullifierTree.root]
  simp only [List.isEmpty_iff]
  rw [subtreeHash_eq sha256 (Nat.zero_add DEPTH) tree.nodup (agree_zero _ _)]

/-- **The root depends only on the set of keys.** -/
theorem root_congr {tree tree' : NullifierTree} (h : ∀ k, k ∈ tree.keys ↔ k ∈ tree'.keys) :
    tree.root sha256 = tree'.root sha256 := by
  have hnil : tree.keys = [] ↔ tree'.keys = [] := by
    simp only [List.eq_nil_iff_forall_not_mem, h]
  rw [root_eq, root_eq, treeHash_congr (scheme sha256) DEPTH 0 tree.keys tree'.keys
    (Nat.zero_add _) (agree_zero _ _) h]
  simp only [hnil]

/-! ## Folds of a witness -/

/-- The steps descend one level at a time to depth 0. -/
def Descending (steps : List SmtProofStep) : Prop :=
  steps.map (fun step => step.depth.toNat) = (List.range steps.length).reverse

theorem Descending.tail {step : SmtProofStep} {rest : List SmtProofStep}
    (h : Descending (step :: rest)) : step.depth.toNat = rest.length ∧ Descending rest := by
  simp only [Descending, List.length_cons, List.range_succ, List.reverse_append,
    List.reverse_singleton, List.singleton_append, List.map_cons, List.cons.injEq] at h
  exact h

theorem Descending.length_le {steps : List SmtProofStep} (h : Descending steps) :
    steps.length ≤ DEPTH := by
  cases steps with
  | nil => exact Nat.zero_le _
  | cons step rest =>
      have := h.tail.1
      have hlt := step.depth.toNat_lt
      simp only [List.length_cons, DEPTH]
      omega

theorem descending_iff {steps : List SmtProofStep} :
    Descending steps ↔ ∀ (i : Nat) (h : i < steps.length),
      steps[i].depth.toNat = steps.length - 1 - i := by
  rw [Descending]
  constructor
  · intro h i hi
    have hget := congrArg (fun l => l[i]?) h
    simpa [List.getElem?_reverse, hi] using hget
  · intro h
    refine List.ext_getElem (by simp) fun i hi _ => ?_
    simp only [List.length_map] at hi
    simp [h i hi]

theorem terminalDepth_eq_some {steps : List SmtProofStep} {td : Nat} :
    terminalDepth steps = some td ↔ steps ≠ [] ∧ Descending steps ∧ td = steps.length := by
  cases steps with
  | nil => simp [terminalDepth]
  | cons first rest =>
      have hzip : ((first :: rest).zipIdx.all fun (step, i) =>
            i ≤ first.depth.toNat && step.depth.toNat == first.depth.toNat - i) = true ↔
          ∀ (i : Nat) (h : i < (first :: rest).length),
            i ≤ first.depth.toNat ∧ (first :: rest)[i].depth.toNat = first.depth.toNat - i := by
        simp only [List.all_eq_true, List.forall_mem_iff_forall_getElem, List.length_zipIdx,
          List.getElem_zipIdx, Bool.and_eq_true, decide_eq_true_eq, beq_iff_eq, Nat.zero_add]
      have hlast : (first :: rest).getLast? = some (first :: rest)[rest.length] := by
        simp [List.getLast?_eq_getElem?]
      have hunfold : terminalDepth (first :: rest) = some td ↔
          (∀ (i : Nat) (h : i < (first :: rest).length),
            i ≤ first.depth.toNat ∧ (first :: rest)[i].depth.toNat = first.depth.toNat - i) ∧
          (first :: rest)[rest.length].depth = 0 ∧ first.depth.toNat + 1 = td := by
        rw [← hzip]
        simp only [terminalDepth, List.head?_cons, Option.bind_eq_bind, Option.bind_some, hlast]
        split_ifs with h1 h2 <;> simp_all
      rw [hunfold, descending_iff]
      simp only [List.length_cons, Nat.add_sub_cancel]
      constructor
      · rintro ⟨hsteps, hzero, rfl⟩
        obtain ⟨hle, hdepth⟩ := hsteps rest.length (Nat.lt_succ_self _)
        rw [hzero] at hdepth
        have htop : first.depth.toNat = rest.length := by
          simp only [UInt8.toNat_zero] at hdepth
          omega
        exact ⟨List.cons_ne_nil _ _, fun i h => htop ▸ (hsteps i h).2, by rw [htop]⟩
      · rintro ⟨-, hsteps, rfl⟩
        have htop : first.depth.toNat = rest.length := hsteps 0 (Nat.succ_pos _)
        refine ⟨fun i h => ⟨by omega, by rw [hsteps i h, htop]⟩, ?_, by rw [htop]⟩
        apply UInt8.toNat_inj.1
        rw [hsteps rest.length (Nat.lt_succ_self _), Nat.sub_self]
        rfl

theorem pathHash_concat (key : Key) (sibs : List Bytes32) (s : Bytes32) (d : Nat)
    (bottom : Bytes32) :
    pathHash (scheme sha256) key d (sibs ++ [s]) bottom =
      pathHash (scheme sha256) key d sibs
        (foldLevel sha256 key (d + sibs.length) bottom s) := by
  induction sibs generalizing d with
  | nil => rw [foldLevel_eq]; rfl
  | cons t sibs ih =>
      have hd : d + (t :: sibs).length = d + 1 + sibs.length := by
        simp only [List.length_cons]; omega
      rw [List.cons_append, pathHash, ih, hd]
      rfl

theorem foldStepsFrom_eq (key : Key) {steps : List SmtProofStep} (h : Descending steps) :
    ∀ {previousDepth : Nat} (hash : Bytes32), steps.length ≤ previousDepth →
      foldStepsFrom sha256 key previousDepth hash steps =
        some (pathHash (scheme sha256) key 0 (steps.reverse.map SmtProofStep.siblingHash) hash) := by
  induction steps with
  | nil => intros; rfl
  | cons step rest ih =>
      intro previousDepth hash hlen
      obtain ⟨hdepth, hrest⟩ := h.tail
      simp only [List.length_cons] at hlen
      rw [foldStepsFrom, if_neg (by omega), ih hrest _ (by omega), List.reverse_cons,
        List.map_append, List.map_cons, List.map_nil, pathHash_concat, hdepth]
      simp

theorem foldSteps_eq (key : Key) {steps : List SmtProofStep} (h : Descending steps)
    (hash : Bytes32) :
    foldSteps sha256 key hash steps =
      some (pathHash (scheme sha256) key 0 (steps.reverse.map SmtProofStep.siblingHash) hash) :=
  foldStepsFrom_eq sha256 key h hash (by have := h.length_le; omega)

end Instance

/-! ## The accumulator as a commitment to a set -/

/-- The tree of a finite set of keys. -/
noncomputable def ofFinset (T : Finset Key) : NullifierTree := ⟨T.toList, T.nodup_toList⟩

/-- The commitment to a finite set of keys. -/
noncomputable def setRoot (sha256 : Bytes → Bytes32) (T : Finset Key) : Bytes32 :=
  (ofFinset T).root sha256

theorem mem_ofFinset {T : Finset Key} {key : Key} : key ∈ (ofFinset T).keys ↔ key ∈ T :=
  Finset.mem_toList

/-- Every tree commits to the set of its keys. -/
theorem root_eq_setRoot (sha256 : Bytes → Bytes32) (tree : NullifierTree) :
    tree.root sha256 = setRoot sha256 tree.keys.toFinset :=
  root_congr sha256 fun k => by rw [mem_ofFinset, List.mem_toFinset]

section Acceptance

open SparseMerkle

variable (sha256 : Bytes → Bytes32)

/-- The siblings of a witness, from the top. -/
def witnessSiblings (steps : List SmtProofStep) : List Bytes32 :=
  steps.reverse.map SmtProofStep.siblingHash

theorem witnessSiblings_length (steps : List SmtProofStep) :
    (witnessSiblings steps).length = steps.length := by
  simp [witnessSiblings]

/-- The byte strings hashed to rebuild the root of the tree that lacks `key`. -/
def absentInputs (key : Key) (witness : NonMembershipWitness) : Set Bytes :=
  foldInputs sha256 key (emptyHashes sha256 witness.steps.length) witness.steps

/-- The byte strings hashed to fold the subtree of `key` alone up the steps of the witness. -/
def presentInputs (key : Key) (witness : NonMembershipWitness) : Set Bytes :=
  singleKeyInputs sha256 key witness.steps.length ∪
    foldInputs sha256 key (singleKeyHash sha256 key witness.steps.length) witness.steps

/-- The witnesses that rebuild a root, and the root they rebuild. -/
theorem rebuildAbsentRoot_eq_some {key : Key} {witness : NonMembershipWitness} {x : Bytes32} :
    rebuildAbsentRoot sha256 key witness = some x ↔
      witness.terminal = .empty ∧
        ((witness.steps = [] ∧ x = EMPTY_TREE_ROOT) ∨
          (witness.steps ≠ [] ∧ Descending witness.steps ∧
            x = pathHash (scheme sha256) key 0 (witnessSiblings witness.steps)
              (emptyHashes sha256 witness.steps.length))) := by
  by_cases hterm : witness.terminal = .empty
  · by_cases hnil : witness.steps = []
    · simp [rebuildAbsentRoot, hterm, hnil, eq_comm]
    · cases htd : terminalDepth witness.steps with
      | none =>
          have hdesc : ¬ Descending witness.steps := by
            intro h
            rw [terminalDepth_eq_some.2 ⟨hnil, h, rfl⟩] at htd
            cases htd
          simp [rebuildAbsentRoot, hterm, hnil, hdesc, htd]
      | some td =>
          obtain ⟨-, hdesc, rfl⟩ := terminalDepth_eq_some.1 htd
          have hlen : ¬ witness.steps.length > MAX_STEPS := not_lt.2 hdesc.length_le
          rw [rebuildAbsentRoot, if_neg (by simp [hterm]), if_neg (by simp [hnil]),
            if_neg hlen, htd, Option.bind_eq_bind, Option.bind_some,
            foldSteps_eq sha256 key hdesc]
          simp only [hterm, hnil, hdesc, witnessSiblings, Option.some.injEq, true_and, false_and,
            false_or, ne_eq, not_false_eq_true]
          exact eq_comm
  · simp [rebuildAbsentRoot, hterm]

theorem verifyNonMember_iff {root : Bytes32} {key : Key} {witness : NonMembershipWitness} :
    verifyNonMember sha256 root key witness = true ↔
      rebuildAbsentRoot sha256 key witness = some root := by
  cases h : rebuildAbsentRoot sha256 key witness <;> simp [verifyNonMember, h]

/-- Insertion accepts what verification accepts, and folds the key alone up the same steps. -/
theorem insert_eq_some {root : Bytes32} {key : Key} {witness : NonMembershipWitness}
    {r : Bytes32} :
    insert sha256 root key witness = some r ↔
      rebuildAbsentRoot sha256 key witness = some root ∧
        r = pathHash (scheme sha256) key 0 (witnessSiblings witness.steps)
          (singleKeyHash sha256 key witness.steps.length) := by
  cases hre : rebuildAbsentRoot sha256 key witness with
  | none => simp [insert, hre]
  | some x =>
      by_cases hx : x = root
      · subst hx
        rcases (rebuildAbsentRoot_eq_some sha256).1 hre with ⟨-, ⟨hnil, -⟩ | ⟨hne, hdesc, -⟩⟩
        · have hsibs : witnessSiblings witness.steps = [] := by rw [hnil]; rfl
          rw [insert, hre, Option.bind_eq_bind, Option.bind_some, if_neg (by simp),
            if_pos (by simp [hnil]), hsibs, hnil]
          simp only [pathHash, List.length_nil, Option.some.injEq, true_and]
          exact eq_comm
        · have htd := terminalDepth_eq_some.2 ⟨hne, hdesc, rfl⟩
          rw [insert, hre, Option.bind_eq_bind, Option.bind_some, if_neg (by simp),
            if_neg (by simp [hne]), htd, Option.bind_eq_bind, Option.bind_some,
            foldSteps_eq sha256 key hdesc]
          simp only [witnessSiblings, Option.some.injEq, true_and]
          exact eq_comm
      · simp [insert, hre, hx]

end Acceptance

/-! ## A hash for small trees

A digest that keeps the level and marks the keys below it tells the subtrees of a few keys apart, so
the assumption on SHA-256 can be met. There are eight marks. -/

/-- A digest that holds marks, a level and the kind of its input. -/
def sampleDigest (marks level kind : UInt8) : Bytes32 :=
  ⟨marks :: level :: kind :: List.replicate 29 0, by simp⟩

/-- The marks of a digest. -/
def marks (digest : Bytes32) : UInt8 := digest.toList.headD 0

/-- The last 32 bytes. -/
def lastBytes (input : Bytes) : Bytes32 :=
  ⟨(List.replicate 32 0 ++ input).drop input.length, by
    rw [List.length_drop, List.length_append, List.length_replicate]
    omega⟩

theorem lastBytes_append (front : Bytes) (value : Bytes32) :
    lastBytes (front ++ value.toList) = value := by
  obtain ⟨bytes, hlength⟩ := value
  refine Subtype.ext ?_
  show (List.replicate 32 0 ++ (front ++ bytes)).drop (front ++ bytes).length = bytes
  rw [← List.append_assoc]
  refine List.drop_left' ?_
  rw [List.length_append, List.length_append, List.length_replicate, hlength]
  omega

theorem lastBytes_toList (value : Bytes32) : lastBytes value.toList = value :=
  lastBytes_append [] value

/-- A leaf is marked by the last byte of its key, and a node has the marks of its children. What is
neither keeps its last 32 bytes. -/
def sampleHash (input : Bytes) : Bytes32 :=
  if input.headD 2 = LEAF_PREFIX then sampleDigest (1 <<< input.getD 32 0) 0 LEAF_PREFIX
  else if input.headD 2 = NODE_PREFIX then
    sampleDigest (input.getD 2 0 ||| input.getD 34 0) (input.getD 1 0) NODE_PREFIX
  else lastBytes input

/-- The bit of a key's mark. -/
def slot (key : Key) : Nat := (key.toList.getD 31 0).toNat % 8

end UnicityBridge.Accumulator
