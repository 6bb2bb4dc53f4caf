import UnicityBridge.Conservation
import Mathlib.Algebra.Group.Action.Defs

/-!
# Totals of an accepted batch

`sum_amounts` adds modulo `2 ^ 256` and `batch_size` is a cast, and both are exact: the lock behind a
burned token carries a 64-bit amount and a split never raises a value, so every leaf pays less than
`2 ^ 64`, and a batch has fewer than `2 ^ 32` leaves.
-/

set_option autoImplicit false

namespace UnicityBridge.Guest

open UnicityBridge.Lib UnicityBridge.TokenSdk UnicityBridge.Bridge

/-- The sum in the root of a sum tree is at least each entry. -/
def AllocatesWithin (sdk : Sdk) : Prop :=
  ∀ proof tokenId commitment value root sum,
    sdk.verifyAllocation proof tokenId commitment value root = some sum → value ≤ sum

variable {sdk : Sdk} {config : Core.BridgeConfig}

/-- A token with an obligation carries less than `2 ^ 64` of the coin, by induction on how far the
justifications nest: a direct mint carries its 64-bit lock, a split output at most its source. -/
theorem coin_lt (halloc : AllocatesWithin sdk) {trustBase : RootTrustBase} {tag : UInt64} :
    ∀ {token : Token} {obligations : List BridgeLockObligation},
      bridgeLockObligationsForVerifiedToken sdk token trustBase tag (sdkBridgeConfig config) =
        .ok obligations →
      ∀ asset, coinAsset sdk (sdkBridgeConfig config) token.genesis.transaction = some asset →
        asset.value < 2 ^ 64 := by
  intro token
  induction hsize : justificationSize token using Nat.strong_induction_on generalizing token with
  | _ size ih =>
      intro obligations h asset hasset
      rcases (obligationsForVerifiedToken_eq_ok sdk).1 h with
        ⟨obligation, hdirect, -⟩ | ⟨_, bytes, split, -, hbytes, hsplit, hchecked⟩
      · obtain ⟨asset', _, hasset', -, hlt, -⟩ := bridgeLockObligation_ok sdk hdirect
        obtain rfl : asset' = asset := Option.some.inj (hasset'.symm.trans hasset)
        exact hlt
      · obtain ⟨hsource, _, _, _, _, hchecks⟩ := verifySplitMint_ok sdk hchecked
        simp only [bridgeLockObligationsForTokenCertified, bind_eq_ok] at hsource
        obtain ⟨_, -, hsource⟩ := hsource
        have hnested : justificationSize split.token < size :=
          hsize ▸ justificationSize_lt sdk hbytes hsplit
        obtain ⟨_, source, _, _, -, hcoin, hproof⟩ :=
          @Conservation.splitChecks_coin _ config _ _ _ _ _ _ _ hchecks hasset
        have hle := halloc _ _ _ _ _ _ hproof
        exact lt_of_le_of_lt hle (ih _ hnested rfl hsource source hcoin)

/-- The leaf of an accepted burn pays a 64-bit amount. -/
theorem BurnAccepted.amount_lt (hamounts : EncodesAmounts sdk) (halloc : AllocatesWithin sdk)
    {trustBaseHash : Bytes32} {pair : BridgeBurnWitness × Core.ReturnLeaf}
    {obligations : List BridgeLockObligation}
    (h : BurnAccepted sdk config trustBaseHash pair obligations) :
    pair.2.amount.toNat < 2 ^ 64 := by
  obtain ⟨data, payment, asset, hdata, hpayment, hasset, hvalue⟩ :=
    validateCurrentValue_ok sdk hamounts h.value
  have hcoin : coinAsset sdk (sdkBridgeConfig config) pair.1.token.genesis.transaction =
      some asset := by
    rw [coinAsset, hdata, Option.bind_some, hpayment, Option.bind_some]
    exact hasset
  rw [hvalue]
  exact coin_lt halloc h.obligations_eq asset hcoin

/-- Every leaf of an accepted batch has an accepted burn. -/
theorem leaf_accepted {input : GuestInput}
    (h : validateBridgeBurns sdk input.config input.publicValues.trustBaseHash
      input.returnLeaves input.sortedLockRefs input.witness.bridgeBurns = .ok ()) :
    ∀ leaf ∈ input.returnLeaves, ∃ burn obligations,
      BurnAccepted sdk input.config input.publicValues.trustBaseHash (burn, leaf) obligations := by
  obtain ⟨-, hlen, _, hall, -⟩ := validateBridgeBurns_ok sdk h
  intro leaf hleaf
  have hsnd : (input.witness.bridgeBurns.zip input.returnLeaves).map Prod.snd =
      input.returnLeaves := List.map_snd_zip (by omega)
  rw [← hsnd, List.mem_map] at hleaf
  obtain ⟨⟨burn, leaf⟩, hpair, rfl⟩ := hleaf
  obtain ⟨obligations, haccepted⟩ := exists_of_forall₂ hall _ hpair
  exact ⟨burn, obligations, haccepted⟩

theorem amounts_lt (hamounts : EncodesAmounts sdk) (halloc : AllocatesWithin sdk)
    {input : GuestInput}
    (h : validateBridgeBurns sdk input.config input.publicValues.trustBaseHash
      input.returnLeaves input.sortedLockRefs input.witness.bridgeBurns = .ok ()) :
    ∀ leaf ∈ input.returnLeaves, leaf.amount.toNat < 2 ^ 64 := by
  intro leaf hleaf
  obtain ⟨burn, obligations, hburn⟩ := leaf_accepted h leaf hleaf
  exact BurnAccepted.amount_lt hamounts halloc hburn

/-- **The total of an accepted batch does not wrap**: fewer than `2 ^ 32` amounts below `2 ^ 64`. -/
theorem sumAmounts_eq {leaves : List Core.ReturnLeaf} (hlen : leaves.length < 2 ^ 32)
    (hamount : ∀ leaf ∈ leaves, leaf.amount.toNat < 2 ^ 64) :
    (Core.sumAmounts leaves).toNat = Core.amountSum leaves := by
  have hsum : Core.amountSum leaves ≤ leaves.length * 2 ^ 64 := by
    have hle := List.sum_le_card_nsmul (leaves.map fun leaf => leaf.amount.toNat) (2 ^ 64) (by
      intro value hvalue
      obtain ⟨leaf, hleaf, rfl⟩ := List.mem_map.1 hvalue
      exact le_of_lt (hamount leaf hleaf))
    rwa [List.length_map, smul_eq_mul] at hle
  rw [Core.sumAmounts_toNat]
  exact Nat.mod_eq_of_lt (by omega)

/-- **Totals never wrap.** Every leaf of an accepted batch pays a 64-bit amount, the published total
is the sum of the amounts and the published size is the number of leaves. -/
theorem totals_exact (hamounts : EncodesAmounts sdk) (halloc : AllocatesWithin sdk)
    {input : GuestInput} {pv : Core.PublicValues} (h : execute sdk input = .ok pv) :
    (∀ leaf ∈ input.returnLeaves, leaf.amount.toNat ≤ 2 ^ 64 - 1) ∧
      pv.totalAmount.toNat = Core.amountSum input.returnLeaves ∧
      pv.batchSize.toNat = input.returnLeaves.length := by
  obtain ⟨hpublic, -, hburns, rfl⟩ := (execute_eq_ok sdk).1 h
  obtain ⟨-, -, -, -, -, hsize, htotal⟩ :=
    (Core.validatePublicValues_eq_ok sdk.keccak256).1 hpublic
  have hlt := amounts_lt hamounts halloc hburns
  refine ⟨fun leaf hleaf => Nat.le_sub_one_of_lt (hlt leaf hleaf), ?_, ?_⟩
  · rw [htotal]
    exact sumAmounts_eq input.leaves_lt hlt
  · rw [hsize, UInt32.toNat_ofNat']
    exact Nat.mod_eq_of_lt input.leaves_lt

/-- The entries of the sample's sum tree, 3 and 4, are within its sum of 7. -/
theorem Sample.allocatesWithin : AllocatesWithin Sample.sdk := by
  intro proof tokenId commitment value root sum h
  obtain ⟨hentry, rfl⟩ := Conservation.Sample.entry_of_verified h
  rcases List.mem_pair.1 hentry with heq | heq
  · rw [(Prod.mk.inj heq).2]
    decide
  · rw [(Prod.mk.inj heq).2]
    decide

/-- The first batch of the sample returns a coin of 5 and a split output of 3. -/
theorem totals_exact_sample :
    (∀ leaf ∈ (Sample.input .first).returnLeaves, leaf.amount.toNat ≤ 2 ^ 64 - 1) ∧
      (Sample.input .first).publicValues.totalAmount.toNat = 8 ∧
      (Sample.input .first).publicValues.batchSize.toNat = 2 := by
  obtain ⟨hamounts, htotal, hsize⟩ := totals_exact Sample.encodeAmount_beNat Sample.allocatesWithin
    (Sample.input_accepted .first)
  have hsum : Core.amountSum [Sample.leaf .whole, Sample.leaf .left] = 8 := by decide +kernel
  exact ⟨hamounts, htotal.trans hsum, hsize⟩

end UnicityBridge.Guest
