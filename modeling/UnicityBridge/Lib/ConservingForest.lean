import Mathlib.Algebra.BigOperators.Group.Finset.Basic
import Mathlib.Algebra.Order.BigOperators.Group.Finset
import Mathlib.Order.Lattice.Nat

/-!
# Conserving forests

A relation between children and parents conserves a value when any finite set of children of one
node is worth at most the node. Then so is any finite set of descendants none of which descends from
another (`sum_le_of_antichain`). A node may have infinitely many children, and nothing bounds the
depth: the induction is on the greatest depth among the chosen descendants.
-/

set_option autoImplicit false

namespace UnicityBridge.Lib.ConservingForest

universe u

variable {V : Type u} (Child : V → V → Prop) (value : V → Nat)

/-- `Below n v p`: `v` lies `n` generations below `p`. -/
inductive Below : Nat → V → V → Prop where
  | here (v : V) : Below 0 v v
  | step {n : Nat} {v c p : V} : Child c p → Below n v c → Below (n + 1) v p

/-- The children of a node are worth at most the node. -/
def Conserves : Prop :=
  ∀ (p : V) (C : Finset V), (∀ c ∈ C, Child c p) → ∑ c ∈ C, value c ≤ value p

/-- No chosen node descends from another. -/
def Antichain (L : Finset V) : Prop :=
  ∀ v ∈ L, ∀ w ∈ L, ∀ n, Below Child n v w → v = w

variable {Child value}

/-- A child at the end of a step lies below its parent's ancestors. -/
theorem Below.snoc {n : Nat} {v c p : V} (h : Below Child n c p) (hv : Child v c) :
    Below Child (n + 1) v p := by
  induction h with
  | here => exact .step hv (.here _)
  | step hc _ ih => exact .step hc (ih hv)

theorem Antichain.mono {L M : Finset V} (h : Antichain Child L) (hM : M ⊆ L) : Antichain Child M :=
  fun v hv w hw n hn => h v (hM hv) w (hM hw) n hn

variable [DecidableEq V]

theorem sum_le_of_depth (hcons : Conserves Child value) :
    ∀ (n : Nat) (p : V) (L : Finset V), (∀ v ∈ L, ∃ m ≤ n, Below Child m v p) →
      Antichain Child L → ∑ v ∈ L, value v ≤ value p := by
  -- by induction on the depth below the root
  intro n
  induction n with
  | zero =>
      intro p L hbelow _
      have hsub : L ⊆ {p} := by
        intro v hv
        obtain ⟨m, hm, hb⟩ := hbelow v hv
        obtain rfl : m = 0 := Nat.le_zero.1 hm
        cases hb
        exact Finset.mem_singleton_self _
      calc ∑ v ∈ L, value v ≤ ∑ v ∈ {p}, value v := Finset.sum_le_sum_of_subset hsub
        _ = value p := Finset.sum_singleton value p
  | succ n ih =>
      intro p L hbelow hanti
      by_cases hp : p ∈ L
      · -- the root is chosen, so nothing below it is
        have hsub : L ⊆ {p} := by
          intro v hv
          obtain ⟨m, -, hb⟩ := hbelow v hv
          exact Finset.mem_singleton.2 (hanti v hv p hp m hb)
        calc ∑ v ∈ L, value v ≤ ∑ v ∈ {p}, value v := Finset.sum_le_sum_of_subset hsub
          _ = value p := Finset.sum_singleton value p
      · -- every chosen node lies below a child of the root
        have hchild : ∀ v ∈ L, ∃ c, Child c p ∧ ∃ m ≤ n, Below Child m v c := by
          intro v hv
          obtain ⟨m, hm, hb⟩ := hbelow v hv
          cases hb with
          | here => exact absurd hv hp
          | step hc hrest => exact ⟨_, hc, _, Nat.le_of_succ_le_succ hm, hrest⟩
        choose! top htop using hchild
        have hmaps : ∀ v ∈ L, top v ∈ L.image top := fun v hv => Finset.mem_image_of_mem top hv
        -- the nodes below one child are an antichain below it
        have hfiber : ∀ c ∈ L.image top, ∑ v ∈ L with top v = c, value v ≤ value c := by
          intro c _
          refine ih c _ (fun v hv => ?_) (hanti.mono (Finset.filter_subset _ _))
          obtain ⟨hvL, rfl⟩ := Finset.mem_filter.1 hv
          exact (htop v hvL).2
        have hchildren : ∀ c ∈ L.image top, Child c p := by
          intro c hc
          obtain ⟨v, hv, rfl⟩ := Finset.mem_image.1 hc
          exact (htop v hv).1
        calc ∑ v ∈ L, value v
            = ∑ c ∈ L.image top, ∑ v ∈ L with top v = c, value v :=
              (Finset.sum_fiberwise_of_maps_to hmaps value).symm
          _ ≤ ∑ c ∈ L.image top, value c := Finset.sum_le_sum hfiber
          _ ≤ value p := hcons p _ hchildren

/-- **Descendants that do not descend from each other are worth at most their root.** -/
theorem sum_le_of_antichain (hcons : Conserves Child value) {p : V} {L : Finset V}
    (hbelow : ∀ v ∈ L, ∃ n, Below Child n v p) (hanti : Antichain Child L) :
    ∑ v ∈ L, value v ≤ value p := by
  choose! depth hdepth using hbelow
  refine sum_le_of_depth hcons (L.sup depth) p L (fun v hv => ?_) hanti
  exact ⟨depth v, Finset.le_sup hv, hdepth v hv⟩

end UnicityBridge.Lib.ConservingForest
