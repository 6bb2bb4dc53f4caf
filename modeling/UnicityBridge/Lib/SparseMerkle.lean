import Mathlib.Data.Set.Function
import Mathlib.Data.List.Basic
import Mathlib.Tactic.Linarith

/-!
# Sparse Merkle trees of bounded height

A scheme fixes the height of the tree, the bits that route a key, the digest of an empty bottom
slot and one hash function on leaves and nodes. `treeHash` is the digest of a set of keys given as
a list, `voidHash` the digest of an empty subtree, and `pathHash` folds a digest up a key's path
with sibling digests listed from the top.

Nothing here assumes a hash function that is injective everywhere, which no function into a finite
type is. Each result is about a set `Q` of preimages that contains what the computations at hand
hash, and assumes only that the hash is collision free on `Q` and never gives the empty digest
there (`CollisionFree`).

Three results carry the applications. A fold that reaches the tree's digest from an empty slot
proves the key absent, and the same fold from the key alone is the digest of the tree with the key
added, whatever siblings were supplied (`absent_of_pathHash`, `treeHash_append_of_pathHash`).
A key once inserted stays provable under later insertions of other keys, over an arbitrary starting
digest (`Opens.preserved`). The siblings of an absent key fold to the tree's digest
(`pathHash_siblings`), with no assumption on the hash.
-/

set_option autoImplicit false

namespace UnicityBridge.Lib.SparseMerkle

universe u v

/-- What the tree hashes: a key at the bottom, or the two children of a node at a level. -/
inductive Preimage (K : Type u) (D : Type v) where
  | leaf (key : K)
  | node (level : Nat) (left right : D)
  deriving DecidableEq

/-- A tree of a fixed height over keys that are told apart by their bits. -/
structure Scheme (K : Type u) (D : Type v) where
  height : Nat
  bit : K → Nat → Bool
  hash : Preimage K D → D
  void : D
  bit_ext : ∀ a b : K, (∀ i < height, bit a i = bit b i) → a = b

/-- The hash has no collision among the preimages of `Q` and gives none of them the digest `z`. -/
structure CollisionFree {A : Type u} {D : Type v} (hash : A → D) (z : D) (Q : Set A) : Prop where
  inj : Set.InjOn hash Q
  ne_zero : ∀ x ∈ Q, hash x ≠ z

theorem CollisionFree.mono {A : Type u} {D : Type v} {hash : A → D} {z : D} {P Q : Set A}
    (h : CollisionFree hash z Q) (hPQ : P ⊆ Q) : CollisionFree hash z P :=
  ⟨h.inj.mono hPQ, fun x hx => h.ne_zero x (hPQ hx)⟩

variable {K : Type u} {D : Type v} (S : Scheme K D)

/-- The keys that turn at level `d` as `key` does. -/
def near (key : K) (d : Nat) (keys : List K) : List K :=
  keys.filter fun k => S.bit k d == S.bit key d

/-- The keys that turn at level `d` away from `key`. -/
def far (key : K) (d : Nat) (keys : List K) : List K :=
  keys.filter fun k => S.bit k d != S.bit key d

/-- The keys on one side of level `d`. -/
def side (b : Bool) (d : Nat) (keys : List K) : List K :=
  keys.filter fun k => S.bit k d == b

/-- A node at level `d` with `here` on the side of `key` and `there` on the other side. -/
def joinPreimage (key : K) (d : Nat) (here there : D) : Preimage K D :=
  if S.bit key d then .node d there here else .node d here there

/-- Digest of an empty subtree with `n` levels below level `d`. -/
def voidHash : Nat → Nat → D
  | 0, _ => S.void
  | n + 1, d => let e := voidHash n (d + 1); S.hash (.node d e e)

/-- Digest of the subtree at level `d` that holds `keys`, with `n` levels below it. -/
def treeHash : Nat → Nat → List K → D
  | 0, _, [] => S.void
  | 0, _, k :: _ => S.hash (.leaf k)
  | n + 1, d, keys =>
      S.hash (.node d (treeHash n (d + 1) (side S false d keys))
        (treeHash n (d + 1) (side S true d keys)))

/-- Fold `bottom` up the path of `key` to level `d`, with the siblings listed from the top. -/
def pathHash (key : K) : Nat → List D → D → D
  | _, [], bottom => bottom
  | d, s :: rest, bottom => S.hash (joinPreimage S key d (pathHash key (d + 1) rest bottom) s)

/-- The keys that share the `m` bits of `key` from level `d` on. -/
def below (key : K) : Nat → Nat → List K → List K
  | 0, _, keys => keys
  | m + 1, d, keys => below key m (d + 1) (near S key d keys)

/-- The siblings on the path of `key`, from the top, down to the first empty subtree. -/
def siblings (key : K) : Nat → Nat → List K → List D
  | 0, _, _ => []
  | _ + 1, _, [] => []
  | n + 1, d, k :: keys =>
      treeHash S n (d + 1) (far S key d (k :: keys)) ::
        siblings key n (d + 1) (near S key d (k :: keys))

/-! ## What a computation hashes -/

/-- The preimages hashed by `treeHash`. -/
def treeQueries : Nat → Nat → List K → Set (Preimage K D)
  | 0, _, [] => ∅
  | 0, _, k :: _ => {.leaf k}
  | n + 1, d, keys =>
      {.node d (treeHash S n (d + 1) (side S false d keys))
        (treeHash S n (d + 1) (side S true d keys))} ∪
      (treeQueries n (d + 1) (side S false d keys) ∪ treeQueries n (d + 1) (side S true d keys))

/-- The preimages hashed by `pathHash`. -/
def pathQueries (key : K) : Nat → List D → D → Set (Preimage K D)
  | _, [], _ => ∅
  | d, s :: rest, bottom =>
      {joinPreimage S key d (pathHash S key (d + 1) rest bottom) s} ∪
        pathQueries key (d + 1) rest bottom

/-! ## Sides of a level -/

theorem near_eq_side (key : K) (d : Nat) (keys : List K) :
    near S key d keys = side S (S.bit key d) d keys := rfl

theorem far_eq_side (key : K) (d : Nat) (keys : List K) :
    far S key d keys = side S (!S.bit key d) d keys := by
  unfold far side
  congr 1
  funext k
  cases S.bit k d <;> cases S.bit key d <;> rfl

theorem side_append (b : Bool) (d : Nat) (xs ys : List K) :
    side S b d (xs ++ ys) = side S b d xs ++ side S b d ys := by
  simp [side]

theorem side_self (key : K) (d : Nat) : side S (S.bit key d) d [key] = [key] := by
  simp [side]

theorem side_other (key : K) (d : Nat) : side S (!S.bit key d) d [key] = [] := by
  cases h : S.bit key d <;> simp [side, h]

theorem eq_nil_of_sides {d : Nat} {keys : List K} (hf : side S false d keys = [])
    (ht : side S true d keys = []) : keys = [] := by
  cases keys with
  | nil => rfl
  | cons k rest =>
      cases hb : S.bit k d with
      | false => simp [side, hb] at hf
      | true => simp [side, hb] at ht

/-- A node of the tree, seen from the path of `key`. -/
theorem treeHash_succ (key : K) (n d : Nat) (keys : List K) :
    treeHash S (n + 1) d keys =
      S.hash (joinPreimage S key d (treeHash S n (d + 1) (near S key d keys))
        (treeHash S n (d + 1) (far S key d keys))) := by
  rw [near_eq_side, far_eq_side]
  cases hb : S.bit key d <;> simp [joinPreimage, hb, treeHash]

theorem joinPreimage_inj {key : K} {d : Nat} {a b a' b' : D}
    (h : joinPreimage S key d a b = joinPreimage S key d a' b') : a = a' ∧ b = b' := by
  cases hb : S.bit key d <;> simp [joinPreimage, hb] at h <;> simp [h]

/-- On the path of a key that turns away at level `d`, the two children change places. -/
theorem joinPreimage_of_bit_ne {a b : K} {d : Nat} (h : S.bit a d ≠ S.bit b d) (x y : D) :
    joinPreimage S a d x y = joinPreimage S b d y x := by
  cases ha : S.bit a d <;> cases hb : S.bit b d <;> simp_all [joinPreimage]

theorem joinPreimage_of_bit_eq {a b : K} {d : Nat} (h : S.bit a d = S.bit b d) (x y : D) :
    joinPreimage S a d x y = joinPreimage S b d x y := by
  simp [joinPreimage, h]

theorem treeHash_nil : ∀ n d, treeHash S n d [] = voidHash S n d
  | 0, _ => rfl
  | n + 1, d => by
      simp [treeHash, voidHash, side, treeHash_nil n (d + 1)]

/-- The query at the node, seen from the path of `key`. -/
theorem join_mem_treeQueries (key : K) (n d : Nat) (keys : List K) :
    joinPreimage S key d (treeHash S n (d + 1) (near S key d keys))
      (treeHash S n (d + 1) (far S key d keys)) ∈ treeQueries S (n + 1) d keys := by
  rw [near_eq_side, far_eq_side]
  cases hb : S.bit key d <;> simp [joinPreimage, hb, treeQueries]

theorem treeQueries_side_subset (b : Bool) (n d : Nat) (keys : List K) :
    treeQueries S n (d + 1) (side S b d keys) ⊆ treeQueries S (n + 1) d keys := by
  intro q hq
  cases b with
  | false => exact Or.inr (Or.inl hq)
  | true => exact Or.inr (Or.inr hq)

/-! ## Absence and insertion under arbitrary siblings -/

section Binding

variable {Q : Set (Preimage K D)} (hQ : CollisionFree S.hash S.void Q)

include hQ

/-- Only the empty list of keys has the digest of an empty subtree. -/
theorem eq_nil_of_treeHash_eq_void :
    ∀ (n d : Nat) (keys : List K), treeQueries S n d keys ⊆ Q → treeQueries S n d [] ⊆ Q →
      treeHash S n d keys = voidHash S n d → keys = []
  | 0, _, [], _, _, _ => rfl
  | 0, _, k :: _, hk, _, h => absurd h (hQ.ne_zero _ (hk rfl))
  | n + 1, d, keys, hk, hv, h => by
      rw [← treeHash_nil] at h
      have hnode := hQ.inj (hk (Or.inl rfl)) (hv (Or.inl rfl)) h
      simp only [Preimage.node.injEq, true_and] at hnode
      obtain ⟨hf, ht⟩ := hnode
      have hv' : treeQueries S n (d + 1) [] ⊆ Q := fun q hq => hv (Or.inr (Or.inl hq))
      have hnil : ∀ b, side S b d ([] : List K) = [] := fun _ => rfl
      rw [hnil, treeHash_nil] at hf ht
      exact eq_nil_of_sides S
        (eq_nil_of_treeHash_eq_void n (d + 1) _
          ((treeQueries_side_subset S false n d keys).trans hk) hv' hf)
        (eq_nil_of_treeHash_eq_void n (d + 1) _
          ((treeQueries_side_subset S true n d keys).trans hk) hv' ht)

/-- A fold that reaches the tree's digest runs through the tree's own digests: its bottom is the
digest of the keys below, and the same siblings fold the tree with `key` added. -/
theorem pathHash_pins (key : K) :
    ∀ (sibs : List D) (r d : Nat) (keys : List K) (bottom : D),
      treeQueries S (r + sibs.length) d keys ⊆ Q → pathQueries S key d sibs bottom ⊆ Q →
      treeHash S (r + sibs.length) d keys = pathHash S key d sibs bottom →
      treeQueries S r (d + sibs.length) (below S key sibs.length d keys) ⊆ Q ∧
        treeHash S r (d + sibs.length) (below S key sibs.length d keys) = bottom ∧
        treeHash S (r + sibs.length) d (keys ++ [key]) =
          pathHash S key d sibs
            (treeHash S r (d + sibs.length) (below S key sibs.length d keys ++ [key]))
  | [], r, d, keys, bottom, ht, _, h => ⟨ht, h, rfl⟩
  | s :: rest, r, d, keys, bottom, ht, hp, h => by
      have hlen : r + (s :: rest).length = r + rest.length + 1 := rfl
      rw [hlen] at ht h ⊢
      rw [treeHash_succ S key] at h
      have hnode := hQ.inj (ht (join_mem_treeQueries S key _ d keys)) (hp (Or.inl rfl)) h
      obtain ⟨hnear, hfar⟩ := joinPreimage_inj S hnode
      obtain ⟨hq, hb, hadd⟩ := pathHash_pins key rest r (d + 1) (near S key d keys) bottom
        ((treeQueries_side_subset S (S.bit key d) _ d keys).trans ht)
        (fun q hq => hp (Or.inr hq)) hnear
      have hd : d + (s :: rest).length = d + 1 + rest.length := by
        simp only [List.length_cons]; omega
      rw [hd]
      refine ⟨hq, hb, ?_⟩
      rw [treeHash_succ S key, near_eq_side, far_eq_side, side_append, side_append, side_self,
        side_other, List.append_nil, ← near_eq_side, ← far_eq_side, hadd, hfar]
      rfl

theorem below_eq_nil (key : K) {sibs : List D} {r d : Nat} {keys : List K}
    (ht : treeQueries S (r + sibs.length) d keys ⊆ Q)
    (hv : treeQueries S r (d + sibs.length) [] ⊆ Q)
    (hp : pathQueries S key d sibs (voidHash S r (d + sibs.length)) ⊆ Q)
    (h : treeHash S (r + sibs.length) d keys =
      pathHash S key d sibs (voidHash S r (d + sibs.length))) :
    below S key sibs.length d keys = [] := by
  obtain ⟨hq, hb, -⟩ := pathHash_pins S hQ key sibs r d keys _ ht hp h
  exact eq_nil_of_treeHash_eq_void S hQ _ _ _ hq hv hb

omit hQ in
theorem mem_below (key : K) : ∀ (m d : Nat) (keys : List K), key ∈ keys →
    key ∈ below S key m d keys
  | 0, _, _, h => h
  | m + 1, d, keys, h => by
      apply mem_below key m (d + 1)
      simp [near, h]

/-- **An accepted fold from an empty slot proves the key absent.** -/
theorem absent_of_pathHash (key : K) {sibs : List D} {r d : Nat} {keys : List K}
    (ht : treeQueries S (r + sibs.length) d keys ⊆ Q)
    (hv : treeQueries S r (d + sibs.length) [] ⊆ Q)
    (hp : pathQueries S key d sibs (voidHash S r (d + sibs.length)) ⊆ Q)
    (h : treeHash S (r + sibs.length) d keys =
      pathHash S key d sibs (voidHash S r (d + sibs.length))) :
    key ∉ keys := by
  intro hmem
  have hb := mem_below S key sibs.length d keys hmem
  rw [below_eq_nil S hQ key ht hv hp h] at hb
  exact absurd hb List.not_mem_nil

/-- **The same siblings fold the key alone to the digest of the tree with the key added.** -/
theorem treeHash_append_of_pathHash (key : K) {sibs : List D} {r d : Nat} {keys : List K}
    (ht : treeQueries S (r + sibs.length) d keys ⊆ Q)
    (hv : treeQueries S r (d + sibs.length) [] ⊆ Q)
    (hp : pathQueries S key d sibs (voidHash S r (d + sibs.length)) ⊆ Q)
    (h : treeHash S (r + sibs.length) d keys =
      pathHash S key d sibs (voidHash S r (d + sibs.length))) :
    treeHash S (r + sibs.length) d (keys ++ [key]) =
      pathHash S key d sibs (treeHash S r (d + sibs.length) [key]) := by
  obtain ⟨-, -, hadd⟩ := pathHash_pins S hQ key sibs r d keys _ ht hp h
  rw [hadd, below_eq_nil S hQ key ht hv hp h, List.nil_append]

end Binding

/-! ## Membership that later insertions keep -/

/-- Some full list of siblings leads from the leaf of `key` to the digest `x` at level `d`. -/
def Opens (Q : Set (Preimage K D)) (key : K) (n d : Nat) (x : D) : Prop :=
  .leaf key ∈ Q ∧ ∃ sibs : List D, sibs.length = n ∧
    pathHash S key d sibs (S.hash (.leaf key)) = x ∧
      pathQueries S key d sibs (S.hash (.leaf key)) ⊆ Q

variable {Q : Set (Preimage K D)}

theorem Opens.succ_inv {key : K} {n d : Nat} {x : D} (h : Opens S Q key (n + 1) d x) :
    ∃ s y, Opens S Q key n (d + 1) y ∧ x = S.hash (joinPreimage S key d y s) ∧
      joinPreimage S key d y s ∈ Q := by
  obtain ⟨hleaf, sibs, hlen, hx, hq⟩ := h
  cases sibs with
  | nil => simp at hlen
  | cons s rest =>
      refine ⟨s, _, ⟨hleaf, rest, by simpa using hlen, rfl, fun q h => hq (Or.inr h)⟩, hx.symm, ?_⟩
      exact hq (Or.inl rfl)

theorem Opens.succ {key : K} {n d : Nat} {y : D} (h : Opens S Q key n (d + 1) y) (s : D)
    (hs : joinPreimage S key d y s ∈ Q) :
    Opens S Q key (n + 1) d (S.hash (joinPreimage S key d y s)) := by
  obtain ⟨hleaf, sibs, hlen, rfl, hq⟩ := h
  refine ⟨hleaf, s :: sibs, by simp [hlen], rfl, ?_⟩
  rintro q (rfl | h)
  · exact hs
  · exact hq h

/-- An empty subtree opens no key. -/
theorem Opens.ne_void (hQ : CollisionFree S.hash S.void Q) (key : K) :
    ∀ n d : Nat, treeQueries S n d [] ⊆ Q → ¬ Opens S Q key n d (voidHash S n d)
  | 0, _, _, ⟨hleaf, sibs, hlen, hx, _⟩ => by
      obtain rfl : sibs = [] := List.length_eq_zero_iff.1 hlen
      exact hQ.ne_zero _ hleaf hx
  | n + 1, d, hv, h => by
      obtain ⟨s, y, hy, hx, hmem⟩ := h.succ_inv
      have hv' : treeQueries S n (d + 1) [] ⊆ Q := fun q hq => hv (Or.inr (Or.inl hq))
      rw [← treeHash_nil, treeHash_succ S key] at hx
      have hnode := hQ.inj (hv (join_mem_treeQueries S key n d [])) hmem hx
      obtain ⟨hyv, -⟩ := joinPreimage_inj S hnode
      have hnil : near S key d ([] : List K) = [] := rfl
      rw [hnil, treeHash_nil] at hyv
      exact Opens.ne_void hQ key n (d + 1) hv' (hyv ▸ hy)

/-- The subtree of a single key opens it. -/
theorem opens_single (key : K) : ∀ n d : Nat, treeQueries S n d [key] ⊆ Q →
    Opens S Q key n d (treeHash S n d [key])
  | 0, _, h => ⟨h rfl, [], rfl, rfl, by simp [pathQueries]⟩
  | n + 1, d, h => by
      have hnear : near S key d [key] = [key] := side_self S key d
      have hmem := h (join_mem_treeQueries S key n d [key])
      have hsub := (treeQueries_side_subset S (S.bit key d) n d [key]).trans h
      rw [← near_eq_side, hnear] at hsub
      rw [treeHash_succ S key]
      rw [hnear] at hmem ⊢
      exact (opens_single key n (d + 1) hsub).succ S _ hmem

/-- Folding an opening further up opens the key there. -/
theorem Opens.pathHash {key : K} : ∀ (sibs : List D) {r d : Nat} {x : D},
    Opens S Q key r (d + sibs.length) x → pathQueries S key d sibs x ⊆ Q →
      Opens S Q key (r + sibs.length) d (pathHash S key d sibs x)
  | [], _, _, _, h, _ => h
  | s :: rest, r, d, x, h, hp => by
      have hd : d + (s :: rest).length = d + 1 + rest.length := by
        simp only [List.length_cons]; omega
      rw [hd] at h
      exact (Opens.pathHash rest h fun q hq => hp (Or.inr hq)).succ S s (hp (Or.inl rfl))

/-- **Inserting another key keeps an opening.** If `x` opens `a` and is also the fold of an empty
slot on the path of `b`, then `b` turns away from `a` above that slot, and whatever digest takes the
slot, the new fold still opens `a`. -/
theorem Opens.preserved (hQ : CollisionFree S.hash S.void Q) {a b : K} :
    ∀ (sibs : List D) {r d : Nat} {x : D}, Opens S Q a (r + sibs.length) d x →
      x = SparseMerkle.pathHash S b d sibs (voidHash S r (d + sibs.length)) →
      treeQueries S r (d + sibs.length) [] ⊆ Q →
      pathQueries S b d sibs (voidHash S r (d + sibs.length)) ⊆ Q →
      (∃ i, S.bit a i ≠ S.bit b i) ∧
        ∀ y, pathQueries S b d sibs y ⊆ Q →
          Opens S Q a (r + sibs.length) d (SparseMerkle.pathHash S b d sibs y)
  | [], r, d, x, h, hx, hv, _ => by
      subst hx
      exact absurd h (Opens.ne_void S hQ a r d hv)
  | t :: rest, r, d, x, h, hx, hv, hp => by
      have hd : d + (t :: rest).length = d + 1 + rest.length := by
        simp only [List.length_cons]; omega
      rw [hd] at hv hp hx
      obtain ⟨s, z, hz, hxz, hmem⟩ := h.succ_inv
      have hnode := hQ.inj hmem (hp (Or.inl rfl)) (hxz ▸ hx)
      by_cases hbit : S.bit a d = S.bit b d
      · -- both paths go the same way: the opening continues below
        rw [joinPreimage_of_bit_eq S hbit] at hnode
        obtain ⟨hzb, hst⟩ := joinPreimage_inj S hnode
        obtain ⟨hne, hkeep⟩ := Opens.preserved hQ rest hz hzb hv fun q hq => hp (Or.inr hq)
        refine ⟨hne, fun y hy => ?_⟩
        have hjoin : joinPreimage S a d (SparseMerkle.pathHash S b (d + 1) rest y) t =
            joinPreimage S b d (SparseMerkle.pathHash S b (d + 1) rest y) t :=
          joinPreimage_of_bit_eq S hbit _ _
        have hkept := (hkeep y fun q hq => hy (Or.inr hq)).succ S t
          (by rw [hjoin]; exact hy (Or.inl rfl))
        rw [hjoin] at hkept
        exact hkept
      · -- the paths part here: only the sibling of `a` changes
        rw [joinPreimage_of_bit_ne S hbit] at hnode
        obtain ⟨-, hzt⟩ := joinPreimage_inj S hnode
        subst hzt
        refine ⟨⟨d, hbit⟩, fun y hy => ?_⟩
        have hjoin : joinPreimage S a d z (SparseMerkle.pathHash S b (d + 1) rest y) =
            joinPreimage S b d (SparseMerkle.pathHash S b (d + 1) rest y) z :=
          joinPreimage_of_bit_ne S hbit _ _
        have hkept := hz.succ S (SparseMerkle.pathHash S b (d + 1) rest y)
          (by rw [hjoin]; exact hy (Or.inl rfl))
        rw [hjoin] at hkept
        exact hkept

/-! ## Siblings of an absent key -/

/-- The keys share the first `d` bits of `key`. -/
def SharePrefix (key : K) (d : Nat) (keys : List K) : Prop :=
  ∀ k ∈ keys, ∀ i < d, S.bit k i = S.bit key i

theorem sharePrefix_zero (key : K) (keys : List K) : SharePrefix S key 0 keys :=
  fun _ _ _ hi => absurd hi (Nat.not_lt_zero _)

theorem SharePrefix.near {key : K} {d : Nat} {keys : List K} (h : SharePrefix S key d keys) :
    SharePrefix S key (d + 1) (near S key d keys) := by
  intro k hk i hi
  simp only [SparseMerkle.near, List.mem_filter, beq_iff_eq] at hk
  rcases Nat.lt_succ_iff_lt_or_eq.1 hi with hlt | rfl
  · exact h k hk.1 i hlt
  · exact hk.2

/-- At the bottom only `key` itself shares all bits of `key`. -/
theorem SharePrefix.eq_nil {key : K} {keys : List K} (h : SharePrefix S key S.height keys)
    (hkey : key ∉ keys) : keys = [] := by
  cases keys with
  | nil => rfl
  | cons k rest =>
      have : k = key := S.bit_ext k key (h k List.mem_cons_self)
      exact absurd (this ▸ List.mem_cons_self) hkey

/-- **The siblings of an absent key fold an empty slot to the tree's digest, and the key alone to
the digest of the tree with the key added.** -/
theorem pathHash_siblings (key : K) : ∀ (n d : Nat) (keys : List K), d + n = S.height →
    SharePrefix S key d keys → key ∉ keys →
    ∃ r, n = r + (siblings S key n d keys).length ∧
      treeHash S n d keys = pathHash S key d (siblings S key n d keys)
        (voidHash S r (d + (siblings S key n d keys).length)) ∧
      treeHash S n d (keys ++ [key]) = pathHash S key d (siblings S key n d keys)
        (treeHash S r (d + (siblings S key n d keys).length) [key])
  | 0, d, keys, hd, hshare, hkey => by
      obtain rfl : keys = [] := by
        rw [Nat.add_zero] at hd
        exact (hd ▸ hshare).eq_nil S hkey
      exact ⟨0, rfl, rfl, rfl⟩
  | n + 1, d, [], _, _, _ => ⟨n + 1, rfl, treeHash_nil S (n + 1) d, rfl⟩
  | n + 1, d, k :: keys, hd, hshare, hkey => by
      have hnear : key ∉ near S key d (k :: keys) := fun h => hkey (List.mem_of_mem_filter h)
      obtain ⟨r, hr, hvoid, hadd⟩ := pathHash_siblings key n (d + 1) (near S key d (k :: keys))
        (by omega) hshare.near hnear
      have hlen : (siblings S key (n + 1) d (k :: keys)).length =
          (siblings S key n (d + 1) (near S key d (k :: keys))).length + 1 := rfl
      have hlevel : d + ((siblings S key n (d + 1) (near S key d (k :: keys))).length + 1) =
          d + 1 + (siblings S key n (d + 1) (near S key d (k :: keys))).length := by omega
      rw [hlen, hlevel]
      refine ⟨r, by omega, ?_, ?_⟩
      · rw [treeHash_succ S key, hvoid]
        rfl
      · have hsplit : near S key d (k :: keys ++ [key]) = near S key d (k :: keys) ++ [key] := by
          rw [near_eq_side, near_eq_side, side_append, side_self]
        have hrest : far S key d (k :: keys ++ [key]) = far S key d (k :: keys) := by
          rw [far_eq_side, far_eq_side, side_append, side_other, List.append_nil]
        rw [treeHash_succ S key, hsplit, hrest, hadd]
        rfl

/-- **The path of an absent key hashes what the trees hash**: from an empty slot the tree itself, from
the key alone the tree with the key added. -/
theorem queries_siblings (key : K) : ∀ (n d r : Nat) (keys : List K), d + n = S.height →
    SharePrefix S key d keys → key ∉ keys → n = r + (siblings S key n d keys).length →
    pathQueries S key d (siblings S key n d keys)
        (voidHash S r (d + (siblings S key n d keys).length)) ⊆ treeQueries S n d keys ∧
      pathQueries S key d (siblings S key n d keys)
        (treeHash S r (d + (siblings S key n d keys).length) [key]) ⊆
          treeQueries S n d (keys ++ [key]) ∧
      treeQueries S r (d + (siblings S key n d keys).length) [key] ⊆
        treeQueries S n d (keys ++ [key])
  | 0, d, r, keys, hd, hshare, hkey, hr => by
      rw [Nat.add_zero] at hd
      obtain rfl : keys = [] := (hd ▸ hshare).eq_nil S hkey
      obtain rfl : r = 0 := (Nat.add_eq_zero_iff.1 hr.symm).1
      exact ⟨Set.empty_subset _, Set.empty_subset _, fun q hq => hq⟩
  | n + 1, d, r, [], _, _, _, hr => by
      obtain rfl : r = n + 1 := hr.symm
      exact ⟨Set.empty_subset _, Set.empty_subset _, fun q hq => hq⟩
  -- a level with keys: the inputs below lie on the near side, and the join is one of the tree's own
  | n + 1, d, r, k :: keys, hd, hshare, hkey, hr => by
      have hnear : key ∉ near S key d (k :: keys) := fun h => hkey (List.mem_of_mem_filter h)
      have hlen : (siblings S key (n + 1) d (k :: keys)).length =
          (siblings S key n (d + 1) (near S key d (k :: keys))).length + 1 := rfl
      have hlevel : d + ((siblings S key n (d + 1) (near S key d (k :: keys))).length + 1) =
          d + 1 + (siblings S key n (d + 1) (near S key d (k :: keys))).length := by omega
      have hr' : n = r + (siblings S key n (d + 1) (near S key d (k :: keys))).length := by omega
      obtain ⟨hempty, hpath, hsingle⟩ := queries_siblings key n (d + 1) r
        (near S key d (k :: keys)) (by omega) hshare.near hnear hr'
      obtain ⟨r', hr'', hvoid, hadd⟩ := pathHash_siblings S key n (d + 1)
        (near S key d (k :: keys)) (by omega) hshare.near hnear
      obtain rfl : r = r' := by omega
      have hsplit : near S key d (k :: keys ++ [key]) = near S key d (k :: keys) ++ [key] := by
        rw [near_eq_side, near_eq_side, side_append, side_self]
      have hrest : far S key d (k :: keys ++ [key]) = far S key d (k :: keys) := by
        rw [far_eq_side, far_eq_side, side_append, side_other, List.append_nil]
      have hbelow : treeQueries S n (d + 1) (near S key d (k :: keys) ++ [key]) ⊆
          treeQueries S (n + 1) d (k :: keys ++ [key]) := by
        rw [← hsplit]
        exact treeQueries_side_subset S (S.bit key d) n d _
      rw [hlen, hlevel]
      refine ⟨?_, ?_, hsingle.trans hbelow⟩
      · rintro q (rfl | hq)
        · rw [← hvoid]
          exact join_mem_treeQueries S key n d (k :: keys)
        · exact treeQueries_side_subset S (S.bit key d) n d (k :: keys) (hempty hq)
      · rintro q (rfl | hq)
        · have hmem := join_mem_treeQueries S key n d (k :: keys ++ [key])
          rw [hsplit, hrest, hadd] at hmem
          exact hmem
        · exact hbelow (hpath hq)

/-! ## The digest depends only on the set of keys -/

/-- The keys agree with each other on the first `d` bits. -/
def Agree (d : Nat) (keys : List K) : Prop := ∀ k ∈ keys, SharePrefix S k d keys

theorem agree_zero (keys : List K) : Agree S 0 keys := fun k _ => sharePrefix_zero S k keys

theorem Agree.side {d : Nat} {keys : List K} (h : Agree S d keys) (b : Bool) :
    Agree S (d + 1) (side S b d keys) := by
  intro k hk l hl i hi
  simp only [SparseMerkle.side, List.mem_filter, beq_iff_eq] at hk hl
  rcases Nat.lt_succ_iff_lt_or_eq.1 hi with hlt | rfl
  · exact h k hk.1 l hl.1 i hlt
  · rw [hk.2, hl.2]

theorem treeHash_congr : ∀ (n d : Nat) (xs ys : List K), d + n = S.height → Agree S d xs →
    (∀ k, k ∈ xs ↔ k ∈ ys) → treeHash S n d xs = treeHash S n d ys
  | 0, _, [], ys, _, _, h => by
      obtain rfl : ys = [] := List.eq_nil_iff_forall_not_mem.2 fun k hk => by simpa using (h k).2 hk
      rfl
  | 0, _, x :: xs, [], _, _, h => absurd ((h x).1 List.mem_cons_self) List.not_mem_nil
  | 0, d, x :: xs, y :: ys, hd, hagree, h => by
      have hy : y ∈ x :: xs := (h y).2 List.mem_cons_self
      have hxy : x = y := S.bit_ext x y fun i hi =>
        hagree y hy x List.mem_cons_self i (by omega)
      rw [hxy]; rfl
  | n + 1, d, xs, ys, hd, hagree, h => by
      have hside : ∀ b k, k ∈ side S b d xs ↔ k ∈ side S b d ys := by
        intro b k
        simp only [side, List.mem_filter, h k]
      simp only [treeHash]
      rw [treeHash_congr n (d + 1) _ _ (by omega) (hagree.side S false) (hside false),
        treeHash_congr n (d + 1) _ _ (by omega) (hagree.side S true) (hside true)]

/-- **Equal digests hold equal sets of keys**, if the hash has no collision among what they hash. -/
theorem mem_iff_of_treeHash_eq {Q : Set (Preimage K D)} (hQ : CollisionFree S.hash S.void Q) :
    ∀ (n d : Nat) (xs ys : List K), d + n = S.height → Agree S d xs → Agree S d ys →
      treeQueries S n d xs ⊆ Q → treeQueries S n d ys ⊆ Q →
      treeHash S n d xs = treeHash S n d ys → ∀ k, k ∈ xs ↔ k ∈ ys
  | 0, _, [], [], _, _, _, _, _, _ => fun _ => Iff.rfl
  | 0, _, [], _ :: _, _, _, _, _, hy, h => absurd h.symm (hQ.ne_zero _ (hy rfl))
  | 0, _, _ :: _, [], _, _, _, hx, _, h => absurd h (hQ.ne_zero _ (hx rfl))
  | 0, d, x :: xs, y :: ys, hd, hax, hay, hx, hy, h => by
      obtain rfl : x = y := Preimage.leaf.inj (hQ.inj (hx rfl) (hy rfl) h)
      -- all keys agree on all bits, so each list repeats one key
      have hall : ∀ {keys : List K}, Agree S d (x :: keys) → ∀ k, k ∈ x :: keys ↔ k = x := by
        intro keys hagree k
        refine ⟨fun hk => ?_, fun hk => hk ▸ List.mem_cons_self⟩
        exact S.bit_ext k x fun i hi => hagree x List.mem_cons_self k hk i (by omega)
      intro k
      rw [hall hax, hall hay]
  | n + 1, d, xs, ys, hd, hax, hay, hx, hy, h => by
      have hnode := hQ.inj (hx (Or.inl rfl)) (hy (Or.inl rfl)) h
      simp only [Preimage.node.injEq, true_and] at hnode
      obtain ⟨hfalse, htrue⟩ := hnode
      have hside : ∀ b, treeHash S n (d + 1) (side S b d xs) = treeHash S n (d + 1) (side S b d ys) →
          ∀ k, k ∈ side S b d xs ↔ k ∈ side S b d ys := fun b hb =>
        mem_iff_of_treeHash_eq hQ n (d + 1) _ _ (by omega) (hax.side S b) (hay.side S b)
          ((treeQueries_side_subset S b n d xs).trans hx)
          ((treeQueries_side_subset S b n d ys).trans hy) hb
      intro k
      have hk : k ∈ side S (S.bit k d) d xs ↔ k ∈ side S (S.bit k d) d ys := by
        cases S.bit k d with
        | false => exact hside false hfalse k
        | true => exact hside true htrue k
      simpa [side] using hk

end UnicityBridge.Lib.SparseMerkle
