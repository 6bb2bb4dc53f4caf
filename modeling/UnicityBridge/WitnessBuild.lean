import UnicityBridge.GuestSound
import UnicityBridge.BurnReason

/-!
# The witness that the host builds

`prover/crates/host/src/s1.rs`: certified burns are verified, their locks and nullifiers collected, and
the public values of a first batch computed. `EnvelopeIntake` does so for the one burn of a wallet's
envelope and writes the result for the prover.

The host leaves some checks of a burn to the guest: that the token's last transfer burned it for the
leaf's terms, and that its value is the leaf's amount. The main result is that it leaves no others
(`built_accepted`): what is built is accepted by the guest exactly when each burn passes these two.
-/

set_option autoImplicit false

namespace UnicityBridge.WitnessBuild

open UnicityBridge.Lib UnicityBridge.TokenSdk
open UnicityBridge.Core (ReturnLeaf SourceLockRef PublicValues)
open UnicityBridge.Verify (BridgeExtError canonicalHash)
open UnicityBridge.Guest (GuestInput BridgeBurnWitness toLockRef sortByNonce)
open UnicityBridge.Settlement (HostError Result)
open UnicityBridge.Accumulator (NullifierTree orderedInsertWitnesses)

/-! ## Building -/

/-- The derived debug text of the verification's error. -/
def debugError : BridgeExtError → String
  | .invalidTrustBase => "InvalidTrustBase"
  | .networkMismatch => "NetworkMismatch"
  | .invalidMintLockScript => "InvalidMintLockScript"
  | .certificationDataMismatch => "CertificationDataMismatch"
  | .requestExpired => "RequestExpired"
  | .transactionHashMismatch => "TransactionHashMismatch"
  | .pathInvalid => "PathInvalid"
  | .shardMismatch => "ShardMismatch"
  | .sealNetworkMismatch => "SealNetworkMismatch"
  | .sealRootMismatch => "SealRootMismatch"
  | .quorumNotMet => "QuorumNotMet"
  | .notAuthenticated => "NotAuthenticated"
  | .genesis => "Genesis"
  | .transfer => "Transfer"
  | .bridgeLockJustificationMalformed => "BridgeLockJustificationMalformed"
  | .bridgeLockAddressLength => "BridgeLockAddressLength"
  | .bridgeLockBytes32Length => "BridgeLockBytes32Length"
  | .bridgeLockConfigMismatch => "BridgeLockConfigMismatch"
  | .bridgeLockTokenTypeMismatch => "BridgeLockTokenTypeMismatch"
  | .bridgeLockPaymentDataMissing => "BridgeLockPaymentDataMissing"
  | .bridgeLockPaymentDataMalformed => "BridgeLockPaymentDataMalformed"
  | .bridgeLockCoinMissing => "BridgeLockCoinMissing"
  | .bridgeLockAmountMismatch => "BridgeLockAmountMismatch"
  | .splitMalformed => "SplitMalformed"
  | .splitNetworkMismatch => "SplitNetworkMismatch"
  | .splitBurnTransferMissing => "SplitBurnTransferMissing"
  | .splitManifestMissing => "SplitManifestMissing"
  | .splitManifestMalformed => "SplitManifestMalformed"
  | .splitBurnPredicateMismatch => "SplitBurnPredicateMismatch"
  | .splitTokenTypeMismatch => "SplitTokenTypeMismatch"
  | .splitSourcePaymentDataMissing => "SplitSourcePaymentDataMissing"
  | .splitManifestLengthMismatch => "SplitManifestLengthMismatch"
  | .splitProofCountMismatch => "SplitProofCountMismatch"
  | .splitSourceAssetMissing => "SplitSourceAssetMissing"
  | .splitAllocationProofInvalid => "SplitAllocationProofInvalid"
  | .splitSourceAmountMismatch => "SplitSourceAmountMismatch"

/-- A burn as the host is given it. -/
structure CertifiedBurnInput where
  token : Token
  trustBase : RootTrustBase
  lockJustificationTag : UInt64
  leaf : ReturnLeaf

/-- The nullifier that the burn pays out. -/
def CertifiedBurnInput.nullifier (burn : CertifiedBurnInput) : Bytes32 := burn.leaf.nullifier

/-- The burn as the guest gets it. -/
def CertifiedBurnInput.witness (burn : CertifiedBurnInput) : BridgeBurnWitness where
  token := burn.token
  trustBase := burn.trustBase
  verification := .certified
  lockJustificationTag := burn.lockJustificationTag

section Build

variable (sdk : Sdk) (config : Core.BridgeConfig)

/-- The locks behind a certified token. -/
def verifyCertifiedBurn (token : Token) (trustBase : RootTrustBase) (lockJustificationTag : UInt64) :
    Result (List SourceLockRef) := do
  let obligations ← (Bridge.bridgeLockObligationsForTokenCertified sdk token trustBase
    lockJustificationTag (Guest.sdkBridgeConfig config)).mapError
      fun err => HostError.check s!"certified burn verification failed: {debugError err}"
  .ok (obligations.map toLockRef)

/-- The loop over the burns: one trust base, and the locks of all of them. -/
def verifyBurns (trustBaseHash : Bytes32) : List CertifiedBurnInput → Result (List SourceLockRef)
  | [] => .ok []
  | burn :: rest => do
      ensure (canonicalHash sdk burn.trustBase = trustBaseHash)
        (.check "certified guest input batch mixes trust bases")
      let lockRefs ← verifyCertifiedBurn sdk config burn.token burn.trustBase burn.lockJustificationTag
      let more ← verifyBurns trustBaseHash rest
      .ok (lockRefs ++ more)

/-- The public values of a batch on the empty accumulator. -/
def publicValuesOf (trustBaseHash spentRootNew lockRefRoot : Bytes32) (leaves : List ReturnLeaf) :
    PublicValues where
  domainTag := Core.domainTag sdk.keccak256
  configHash := Core.configHash sdk.keccak256 config
  trustBaseHash := trustBaseHash
  spentRootOld := NullifierTree.new.root sdk.sha256
  spentRootNew := spentRootNew
  returnRoot := Core.returnRoot sdk.keccak256 leaves
  lockRefRoot := lockRefRoot
  batchSize := UInt32.ofNat leaves.length
  totalAmount := Core.sumAmounts leaves

/-- The guest input of a batch on the empty accumulator. -/
def buildCertifiedGuestInputBatch : List CertifiedBurnInput → Result GuestInput
  | [] => .error (.check "certified guest input batch is empty")
  | first :: rest => do
      let burns := first :: rest
      let trustBaseHash := canonicalHash sdk first.trustBase
      let lockRefs ← verifyBurns sdk config trustBaseHash burns
      let sortedLockRefs := sortByNonce lockRefs
      let leaves := burns.map CertifiedBurnInput.leaf
      let (accumulatorWitnesses, spentRootNew) ←
        (orderedInsertWitnesses sdk.sha256 .new (burns.map CertifiedBurnInput.nullifier)).mapError
          fun err => HostError.check s!"accumulator witness build failed: {Settlement.debugError err}"
      let lockRefRoot ← (Core.lockRefRoot sdk.keccak256 sortedLockRefs).mapError
        fun err => HostError.check s!"lock ref root: {Precheck.debugError err}"
      if h : leaves.length < 2 ^ 32 then
        .ok {
          config := config
          publicValues := publicValuesOf sdk config trustBaseHash spentRootNew lockRefRoot leaves
          returnLeaves := leaves
          sortedLockRefs := sortedLockRefs
          witness := {
            accumulatorWitnesses := accumulatorWitnesses
            bridgeBurns := burns.map CertifiedBurnInput.witness }
          leaves_lt := h }
      else .error (.check "certified batch too large")

/-- A batch of one burn. -/
def buildCertifiedGuestInput (token : Token) (trustBase : RootTrustBase) (lockJustificationTag : UInt64)
    (leaf : ReturnLeaf) : Result GuestInput :=
  buildCertifiedGuestInputBatch sdk config [⟨token, trustBase, lockJustificationTag, leaf⟩]

/-- The guest input of one burn, from the token and the reason it was burned for. -/
def buildCertifiedGuestInputFromEnvelope (trustBase : RootTrustBase) (lockJustificationTag : UInt64)
    (token : Token) (reasonBytes : Bytes) : Result GuestInput := do
  let leaf ← BurnReason.envelopeLeaf sdk config token reasonBytes
  buildCertifiedGuestInput sdk config token trustBase lockJustificationTag leaf

end Build

/-- The context of the intake, set up once. -/
structure EnvelopeIntake where
  config : Core.BridgeConfig
  trustBase : RootTrustBase
  lockJustificationTag : UInt64

namespace EnvelopeIntake

/-- The configuration hash of the vault that is served. -/
def configHash (sdk : Sdk) (intake : EnvelopeIntake) : Bytes32 :=
  Core.configHash sdk.keccak256 intake.config

/-- The wire input of an envelope. `none` is the abort of a count that does not fit the wire. -/
def buildWireInput (sdk : Sdk) (codec : Wire.Codec) (intake : EnvelopeIntake)
    (tokenCbor reasonBytes : Bytes) : Result (Option Bytes) := do
  let token ← okOr (codec.tokenFromCbor tokenCbor) (HostError.check "token decode")
  let input ← buildCertifiedGuestInputFromEnvelope sdk intake.config intake.trustBase
    intake.lockJustificationTag token reasonBytes
  .ok (Wire.encodeGuestInput codec input)

end EnvelopeIntake

/-! ## What the host checks -/

section Checks

variable {sdk : Sdk} {config : Core.BridgeConfig} {burns : List CertifiedBurnInput}

/-- The obligations that the certified token stands for. -/
def Obliged (sdk : Sdk) (config : Core.BridgeConfig) (burn : CertifiedBurnInput)
    (obligations : List Bridge.BridgeLockObligation) : Prop :=
  Bridge.bridgeLockObligationsForTokenCertified sdk burn.token burn.trustBase
    burn.lockJustificationTag (Guest.sdkBridgeConfig config) = .ok obligations

/-- The locks of all burns. -/
def locksOf (obligations : List (List Bridge.BridgeLockObligation)) : List SourceLockRef :=
  obligations.flatten.map toLockRef

theorem verifyBurns_eq_ok {trustBaseHash : Bytes32} {lockRefs : List SourceLockRef} :
    verifyBurns sdk config trustBaseHash burns = .ok lockRefs ↔
      (∀ burn ∈ burns, canonicalHash sdk burn.trustBase = trustBaseHash) ∧
        ∃ obligations, List.Forall₂ (Obliged sdk config) burns obligations ∧
          lockRefs = locksOf obligations := by
  induction burns generalizing lockRefs with
  | nil =>
      simp only [verifyBurns, Except.ok.injEq, List.forall₂_nil_left_iff, exists_eq_left]
      exact ⟨fun h => ⟨fun _ hmem => absurd hmem List.not_mem_nil, h.symm⟩, fun h => h.2.symm⟩
  | cons burn rest ih =>
      simp only [verifyBurns, verifyCertifiedBurn, bind_eq_ok, ensure_eq_ok, mapError_eq_ok,
        Except.ok.injEq, ih, List.forall_mem_cons]
      constructor
      · rintro ⟨-, htrust, refs, ⟨os, hos, rfl⟩, more, ⟨hrest, obligations, hall, rfl⟩, rfl⟩
        refine ⟨⟨htrust, hrest⟩, os :: obligations, .cons hos hall, ?_⟩
        rw [locksOf, locksOf, List.flatten_cons, List.map_append]
      · rintro ⟨⟨htrust, hrest⟩, _, hall, rfl⟩
        cases hall with
        | cons hos htail =>
            refine ⟨(), htrust, _, ⟨_, hos, rfl⟩, _, ⟨hrest, _, htail, rfl⟩, ?_⟩
            rw [locksOf, locksOf, List.flatten_cons, List.map_append]

/-- What the host demands of burns: they are some, but not too many, certified under one trust base,
and no lock and no nullifier is used twice. -/
structure Buildable (sdk : Sdk) (config : Core.BridgeConfig) (burns : List CertifiedBurnInput)
    (trustBaseHash : Bytes32) (obligations : List (List Bridge.BridgeLockObligation)) : Prop where
  nonempty : burns ≠ []
  short : burns.length < 2 ^ 32
  trustBase : ∀ burn ∈ burns, canonicalHash sdk burn.trustBase = trustBaseHash
  obliged : List.Forall₂ (Obliged sdk config) burns obligations
  locks : (locksOf obligations).Pairwise fun a b => a.nonce ≠ b.nonce
  nullifiers : (burns.map CertifiedBurnInput.nullifier).Nodup

/-- What is built of such burns. -/
structure BuiltFrom (sdk : Sdk) (config : Core.BridgeConfig) (burns : List CertifiedBurnInput)
    (trustBaseHash : Bytes32) (obligations : List (List Bridge.BridgeLockObligation))
    (input : GuestInput) : Prop where
  config_eq : input.config = config
  leaves : input.returnLeaves = burns.map CertifiedBurnInput.leaf
  lockRefs : input.sortedLockRefs = sortByNonce (locksOf obligations)
  burns_eq : input.witness.bridgeBurns = burns.map CertifiedBurnInput.witness
  values : input.publicValues = publicValuesOf sdk config trustBaseHash
    input.publicValues.spentRootNew
    (sdk.keccak256 ((sortByNonce (locksOf obligations)).flatMap Core.refWords))
    (burns.map CertifiedBurnInput.leaf)
  witnesses : orderedInsertWitnesses sdk.sha256 .new (burns.map CertifiedBurnInput.nullifier) =
    .ok (input.witness.accumulatorWitnesses, input.publicValues.spentRootNew)

/-- Strictly rising nonces are distinct, and distinct ones rise once they are sorted. -/
theorem sorted_nonces_iff {lockRefs : List SourceLockRef} :
    (Core.nonces (sortByNonce lockRefs)).Pairwise (· < ·) ↔
      lockRefs.Pairwise fun a b => a.nonce ≠ b.nonce := by
  rw [Guest.nonces_pairwise_iff]
  constructor
  · intro h
    have hne : (sortByNonce lockRefs).Pairwise fun a b => a.nonce ≠ b.nonce :=
      h.imp fun hab => UInt64.ne_of_lt hab
    exact (Guest.sortByNonce_perm lockRefs).pairwise hne fun hab => Ne.symm hab
  · exact Guest.sortByNonce_pairwise

/-- **Building** takes exactly the burns that the host's checks allow. -/
theorem build_eq_ok {input : GuestInput}
    (h : buildCertifiedGuestInputBatch sdk config burns = .ok input) :
    ∃ trustBaseHash obligations, Buildable sdk config burns trustBaseHash obligations ∧
      BuiltFrom sdk config burns trustBaseHash obligations input := by
  cases burns with
  | nil => cases h
  | cons first rest =>
      simp only [buildCertifiedGuestInputBatch, bind_eq_ok, mapError_eq_ok, Prod.exists,
        Core.lockRefRoot_eq_ok] at h
      obtain ⟨lockRefs, hburns, witnesses, root, hordered, _, ⟨hnonces, rfl⟩, h⟩ := h
      obtain ⟨htrust, obligations, hall, rfl⟩ := verifyBurns_eq_ok.1 hburns
      obtain ⟨hnodup, -⟩ := (Accumulator.orderedInsertWitnesses_eq_ok sdk.sha256).1 ⟨_, hordered⟩
      split at h
      · next hshort =>
        cases h
        refine ⟨canonicalHash sdk first.trustBase, obligations, ⟨by simp, ?_, htrust, hall,
          sorted_nonces_iff.1 hnonces, ?_⟩, ⟨rfl, rfl, rfl, rfl, rfl, hordered⟩⟩
        · rwa [List.length_map] at hshort
        · exact (List.nodup_append.1 hnodup).2.1
      · cases h

theorem Buildable.build {trustBaseHash : Bytes32} {obligations : List (List Bridge.BridgeLockObligation)}
    (h : Buildable sdk config burns trustBaseHash obligations) :
    ∃ input, buildCertifiedGuestInputBatch sdk config burns = .ok input := by
  have hnodup : (NullifierTree.new.keys ++ burns.map CertifiedBurnInput.nullifier).Nodup :=
    h.nullifiers
  obtain ⟨ws, hordered⟩ := (Accumulator.orderedInsertWitnesses_eq_ok sdk.sha256).2 ⟨hnodup, rfl⟩
  cases burns with
  | nil => exact absurd rfl h.nonempty
  | cons first rest =>
      have hhash := h.trustBase first List.mem_cons_self
      have hburns := verifyBurns_eq_ok.2 ⟨h.trustBase, obligations, h.obliged, rfl⟩
      have hroot : Core.lockRefRoot sdk.keccak256 (sortByNonce (locksOf obligations)) = .ok _ :=
        (Core.lockRefRoot_eq_ok sdk.keccak256).2 ⟨sorted_nonces_iff.2 h.locks, rfl⟩
      have hshort : ((first :: rest).map CertifiedBurnInput.leaf).length < 2 ^ 32 := by
        rw [List.length_map]
        exact h.short
      simp only [buildCertifiedGuestInputBatch, bind_eq_ok, mapError_eq_ok, Prod.exists, hhash]
      exact ⟨_, _, hburns, _, _, hordered, _, hroot, dif_pos hshort⟩

end Checks

/-! ## What is left to the guest -/

section Accepted

variable {sdk : Sdk} {config : Core.BridgeConfig} {burns : List CertifiedBurnInput}

/-- The token was burned for the leaf's terms, and is worth the leaf's amount. -/
structure Passes (sdk : Sdk) (config : Core.BridgeConfig) (burn : CertifiedBurnInput) : Prop where
  terminal : Guest.validateTerminalBurn sdk config (Core.configHash sdk.keccak256 config) burn.leaf
    burn.token = .ok ()
  value : Guest.validateCurrentValue sdk config burn.leaf burn.token = .ok ()

/-- One turn of the guest's loop over certified burns. -/
theorem validateBurn_certified {trustBaseHash : Bytes32} {burn : CertifiedBurnInput}
    {obligations : List Bridge.BridgeLockObligation} {state state' : Guest.BurnsState}
    (htrust : canonicalHash sdk burn.trustBase = trustBaseHash)
    (hobliged : Obliged sdk config burn obligations) :
    Guest.validateBurn sdk config trustBaseHash state (burn.witness, burn.leaf) = .ok state' ↔
      Passes sdk config burn ∧
        state' = ⟨state.anchorRoots, state.obligations ++ obligations.map toLockRef⟩ := by
  have hburn : Guest.burnObligations sdk config burn.witness state.anchorRoots =
      .ok (obligations, state.anchorRoots) := by
    simp only [Guest.burnObligations, CertifiedBurnInput.witness, bind_eq_ok, mapError_eq_ok]
    exact ⟨obligations, hobliged, rfl⟩
  simp only [Guest.validateBurn, bind_eq_ok, ensure_eq_ok, hburn, Except.ok.injEq, exists_eq_left']
  constructor
  · rintro ⟨-, -, _, hterminal, _, hvalue, rfl⟩
    exact ⟨⟨hterminal, hvalue⟩, rfl⟩
  · rintro ⟨hpasses, rfl⟩
    exact ⟨(), htrust, (), hpasses.terminal, (), hpasses.value, rfl⟩

/-- The whole loop, by induction over the burns with their obligations. -/
theorem foldlM_validateBurn_certified {trustBaseHash : Bytes32}
    {obligations : List (List Bridge.BridgeLockObligation)}
    (htrust : ∀ burn ∈ burns, canonicalHash sdk burn.trustBase = trustBaseHash)
    (hall : List.Forall₂ (Obliged sdk config) burns obligations) {state state' : Guest.BurnsState} :
    ((burns.map CertifiedBurnInput.witness).zip (burns.map CertifiedBurnInput.leaf)).foldlM
        (Guest.validateBurn sdk config trustBaseHash) state = .ok state' ↔
      (∀ burn ∈ burns, Passes sdk config burn) ∧
        state' = ⟨state.anchorRoots, state.obligations ++ locksOf obligations⟩ := by
  induction hall generalizing state with
  | nil =>
      simp only [List.map_nil, List.zip_nil_left, List.foldlM_nil, pure_eq_ok, locksOf,
        List.flatten_nil, List.append_nil]
      exact ⟨fun h => ⟨fun _ hmem => absurd hmem List.not_mem_nil, h.symm⟩, fun h => h.2.symm⟩
  | @cons burn os rest more hos _ ih =>
      rw [List.forall_mem_cons] at htrust
      simp only [List.map_cons, List.zip_cons_cons, List.foldlM_cons, bind_eq_ok,
        validateBurn_certified htrust.1 hos, ih htrust.2, List.forall_mem_cons]
      constructor
      · rintro ⟨_, ⟨hpasses, rfl⟩, hrest, rfl⟩
        refine ⟨⟨hpasses, hrest⟩, ?_⟩
        simp [locksOf, List.append_assoc]
      · rintro ⟨⟨hpasses, hrest⟩, rfl⟩
        refine ⟨_, ⟨hpasses, rfl⟩, hrest, ?_⟩
        simp [locksOf, List.append_assoc]

/-- The public values are those of the leaves and of the locks. -/
theorem BuiltFrom.publicValues {trustBaseHash : Bytes32}
    {obligations : List (List Bridge.BridgeLockObligation)} {input : GuestInput}
    (h : BuiltFrom sdk config burns trustBaseHash obligations input)
    (hbuildable : Buildable sdk config burns trustBaseHash obligations) :
    Core.validatePublicValues sdk.keccak256 input.config input.publicValues input.returnLeaves
      input.sortedLockRefs = .ok () := by
  rw [h.config_eq, h.leaves, h.lockRefs, Core.validatePublicValues_eq_ok, h.values]
  exact ⟨rfl, rfl, rfl, sorted_nonces_iff.2 hbuildable.locks, rfl, rfl, rfl⟩

theorem BuiltFrom.execute {trustBaseHash : Bytes32}
    {obligations : List (List Bridge.BridgeLockObligation)} {input : GuestInput}
    (h : BuiltFrom sdk config burns trustBaseHash obligations input)
    (hbuildable : Buildable sdk config burns trustBaseHash obligations) :
    Guest.execute sdk input = .ok input.publicValues ↔ ∀ burn ∈ burns, Passes sdk config burn := by
  have hold : input.publicValues.spentRootOld = NullifierTree.new.root sdk.sha256 := by
    rw [h.values]
    rfl
  have htrust : input.publicValues.trustBaseHash = trustBaseHash := by
    rw [h.values]
    rfl
  have hloop := @foldlM_validateBurn_certified sdk config burns trustBaseHash obligations
    hbuildable.trustBase hbuildable.obliged ⟨[], []⟩
  rw [Guest.execute_eq_ok, hold, h.leaves, htrust, h.burns_eq, h.config_eq, h.lockRefs]
  constructor
  · rintro ⟨-, -, hburns, -⟩
    simp only [Guest.validateBridgeBurns, bind_eq_ok, hloop] at hburns
    obtain ⟨-, -, -, ⟨hpasses, -⟩, -⟩ := hburns
    exact hpasses
  · intro hpasses
    have hpublic := h.publicValues hbuildable
    rw [h.config_eq, h.leaves, h.lockRefs] at hpublic
    have hordered := h.witnesses
    have hnullifiers : burns.map CertifiedBurnInput.nullifier =
        (burns.map CertifiedBurnInput.leaf).map ReturnLeaf.nullifier := by
      rw [List.map_map]
      rfl
    rw [hnullifiers] at hordered
    refine ⟨hpublic, Guest.transition_ordered hordered, ?_, rfl⟩
    simp only [Guest.validateBridgeBurns, bind_eq_ok, ensure_eq_ok, hloop]
    refine ⟨(), ⟨?_, ?_⟩, _, ⟨hpasses, rfl⟩, rfl⟩
    · rw [ne_eq, List.map_eq_nil_iff]
      exact hbuildable.nonempty
    · rw [List.length_map, List.length_map]

/-- **The host builds what the guest proves.** Certified burns make an input exactly when they are
some, under one trust base, each verified with its locks, and use no lock and no nullifier twice. The
guest accepts this input, with the public values that the host computed, exactly when every token was
burned for its leaf and is worth its amount. -/
theorem built_accepted (sdk : Sdk) (config : Core.BridgeConfig) (burns : List CertifiedBurnInput) :
    ((∃ input, buildCertifiedGuestInputBatch sdk config burns = .ok input) ↔
      ∃ trustBaseHash obligations, Buildable sdk config burns trustBaseHash obligations) ∧
    ∀ input, buildCertifiedGuestInputBatch sdk config burns = .ok input →
      (Guest.execute sdk input = .ok input.publicValues ↔ ∀ burn ∈ burns, Passes sdk config burn) := by
  refine ⟨⟨?_, ?_⟩, ?_⟩
  · rintro ⟨input, h⟩
    obtain ⟨trustBaseHash, obligations, hbuildable, -⟩ := build_eq_ok h
    exact ⟨trustBaseHash, obligations, hbuildable⟩
  · rintro ⟨trustBaseHash, obligations, hbuildable⟩
    exact hbuildable.build
  · intro input h
    obtain ⟨trustBaseHash, obligations, hbuildable, hbuilt⟩ := build_eq_ok h
    exact hbuilt.execute hbuildable

end Accepted

/-! ## Certified burns -/

namespace Sample

open Guest.Sample (Coin sdk config trustBase)

/-- A coin that was burned to return it. -/
def burn (coin : Coin) : CertifiedBurnInput :=
  ⟨Guest.Sample.token coin, trustBase, 1330002, Guest.Sample.leaf coin⟩

theorem obliged (coin : Coin) : Obliged sdk config (burn coin) [Guest.Sample.obligation coin] := by
  rw [Obliged, Bridge.bridgeLockObligationsForTokenCertified]
  simp only [bind_eq_ok]
  exact ⟨(), Guest.Sample.verified coin, Guest.Sample.obligations coin⟩

theorem buildable : Buildable sdk config [burn .whole, burn .left] (canonicalHash sdk trustBase)
    [[Guest.Sample.obligation .whole], [Guest.Sample.obligation .left]] where
  nonempty := List.cons_ne_nil _ _
  short := by
    rw [List.length_cons, List.length_singleton]
    decide
  trustBase := by
    intro certified hmem
    rcases List.mem_pair.1 hmem with rfl | rfl <;> rfl
  obliged := .cons (obliged .whole) (.cons (obliged .left) .nil)
  locks := by
    show [toLockRef (Guest.Sample.obligation .whole),
      toLockRef (Guest.Sample.obligation .left)].Pairwise _
    rw [List.pairwise_pair]
    decide
  nullifiers := by
    show [Guest.Sample.word Coin.whole.number, Guest.Sample.word Coin.left.number].Nodup
    decide

end Sample

/-- A minted coin and an output of a split, built into one input. -/
theorem built_accepted_sample :
    ∃ input, buildCertifiedGuestInputBatch Guest.Sample.sdk Guest.Sample.config
        [Sample.burn .whole, Sample.burn .left] = .ok input ∧
      Guest.execute Guest.Sample.sdk input = .ok input.publicValues := by
  have haccepted := built_accepted Guest.Sample.sdk Guest.Sample.config
    [Sample.burn .whole, Sample.burn .left]
  obtain ⟨input, hbuilt⟩ := haccepted.1.2 ⟨_, _, Sample.buildable⟩
  refine ⟨input, hbuilt, (haccepted.2 input hbuilt).2 fun burn hmem => ?_⟩
  rcases List.mem_pair.1 hmem with rfl | rfl
  · exact ⟨Guest.Sample.terminal_burn (by decide), Guest.Sample.current_value .whole⟩
  · exact ⟨Guest.Sample.terminal_burn (by decide), Guest.Sample.current_value .left⟩

end UnicityBridge.WitnessBuild
