import UnicityBridge.GuestSound
import UnicityBridge.SdkCbor

/-!
# Sharing an anchor check

`validate_bridge_burns` of `prover/crates/guest/src/lib.rs` verifies an anchor under the trust base of
the first burn that names it and reuses the root for later burns. Every burn's trust base has the hash
that the public values publish, and that hash binds each field of a trust base
(`canonicalHash_inj`), so the reuse changes nothing: the loop gives the results of one that
verifies every burn's anchor under the burn's own trust base.
-/

set_option autoImplicit false

namespace UnicityBridge.Guest

open UnicityBridge.Lib UnicityBridge.Lib.Cbor UnicityBridge.Core UnicityBridge.TokenSdk
open UnicityBridge.Verify

variable (sdk : Sdk)

/-! ## The hash of a trust base -/

/-- A validator of the trust base as the CBOR item that is hashed. -/
def nodeItem (node : RootTrustBaseNodeInfo) : Item :=
  .array [.text (utf8 node.nodeId), .bytes node.signingKey.bytes, .uint node.stake]

/-- The document of a trust base. -/
def trustBaseItem (trustBase : RootTrustBase) : Item :=
  .array [.uint trustBase.version, .uint trustBase.networkId.id.toUInt64, .uint trustBase.epoch,
    .uint trustBase.epochStartRound, .array (trustBase.rootNodes.map nodeItem),
    .uint trustBase.quorumThreshold]

/-- The lengths in a trust base that is held in memory. -/
structure InMemory (trustBase : RootTrustBase) : Prop where
  nodes : trustBase.rootNodes.length < 2 ^ 64
  nodeId : ∀ node ∈ trustBase.rootNodes, (utf8 node.nodeId).length < 2 ^ 64
  key : ∀ node ∈ trustBase.rootNodes, node.signingKey.bytes.length < 2 ^ 64

variable {sdk}

theorem utf8_inj {s t : String} (h : utf8 s = utf8 t) : s = t := by
  apply String.toByteArray_inj.1
  apply ByteArray.ext
  exact Array.toList_inj.1 h

theorem InMemory.fits_node {trustBase : RootTrustBase} (h : InMemory trustBase) :
    ∀ item ∈ trustBase.rootNodes.map nodeItem, item.Fits := by
  intro item hitem
  obtain ⟨node, hnode, rfl⟩ := List.mem_map.1 hitem
  refine .array (by simp) ?_
  simp only [List.forall_mem_cons, List.not_mem_nil, false_implies, implies_true, and_true]
  exact ⟨.text (h.nodeId node hnode), .bytes (h.key node hnode), .uint _⟩

theorem InMemory.fits {trustBase : RootTrustBase} (h : InMemory trustBase) :
    (trustBaseItem trustBase).Fits := by
  refine .array (by simp) ?_
  simp only [List.forall_mem_cons, List.not_mem_nil, false_implies, implies_true, and_true]
  exact ⟨.uint _, .uint _, .uint _, .uint _, .array (by simpa using h.nodes) h.fits_node, .uint _⟩

theorem encode_nodeItem (hcbor : EncodesCbor sdk) {node : RootTrustBaseNodeInfo}
    (hid : (utf8 node.nodeId).length < 2 ^ 64) (hkey : node.signingKey.bytes.length < 2 ^ 64) :
    sdk.encodeArray [sdk.encodeTextString node.nodeId,
      sdk.encodeByteString node.signingKey.bytes, sdk.encodeUint node.stake] =
        (nodeItem node).encode := by
  rw [hcbor.array _ (by simp), hcbor.text _ hid, hcbor.bytes _ hkey, hcbor.uint, nodeItem]
  simp [Item.encode, encodeAll]

/-- The canonical bytes are the document's encoding. -/
theorem canonicalBytes_eq (hcbor : EncodesCbor sdk) {trustBase : RootTrustBase}
    (h : InMemory trustBase) : canonicalBytes sdk trustBase = (trustBaseItem trustBase).encode := by
  have hnodes : (trustBase.rootNodes.map fun node =>
      sdk.encodeArray [sdk.encodeTextString node.nodeId,
        sdk.encodeByteString node.signingKey.bytes, sdk.encodeUint node.stake]) =
      (trustBase.rootNodes.map nodeItem).map Item.encode := by
    rw [List.map_map]
    exact List.map_congr_left fun node hnode =>
      encode_nodeItem hcbor (h.nodeId node hnode) (h.key node hnode)
  have hlen : ((trustBase.rootNodes.map nodeItem).map Item.encode).length < 2 ^ 64 := by
    simpa using h.nodes
  rw [canonicalBytes, hcbor.array _ (by simp), hnodes, hcbor.array _ hlen]
  simp only [hcbor.uint, trustBaseItem, Item.encode, encodeAll, encodeAll_eq, List.length_map,
    List.flatten_cons, List.flatten_nil, List.append_nil, List.length_cons, List.length_nil]

theorem nodeItem_inj : Function.Injective nodeItem := by
  rintro ⟨id, ⟨key⟩, stake⟩ ⟨id', ⟨key'⟩, stake'⟩ h
  simp only [nodeItem, Item.array.injEq, List.cons.injEq, Item.text.injEq, Item.bytes.injEq,
    Item.uint.injEq, and_true] at h
  obtain ⟨hid, rfl, rfl⟩ := h
  rw [utf8_inj hid]

theorem trustBaseItem_inj : Function.Injective trustBaseItem := by
  rintro ⟨version, ⟨id⟩, epoch, start, nodes, threshold⟩
    ⟨version', ⟨id'⟩, epoch', start', nodes', threshold'⟩ h
  simp only [trustBaseItem, Item.array.injEq, List.cons.injEq, Item.uint.injEq, and_true] at h
  obtain ⟨rfl, hid, rfl, rfl, hnodes, rfl⟩ := h
  obtain rfl : id = id' := by
    apply UInt16.toNat_inj.1
    simpa using congrArg UInt64.toNat hid
  rw [nodeItem_inj.list_map hnodes]

/-- **The hash binds the trust base.** -/
theorem canonicalHash_inj (hcbor : EncodesCbor sdk) {Q : Set Bytes} (hsha : Set.InjOn sdk.sha256 Q)
    {trustBase trustBase' : RootTrustBase} (hmem : InMemory trustBase) (hmem' : InMemory trustBase')
    (hQ : canonicalBytes sdk trustBase ∈ Q) (hQ' : canonicalBytes sdk trustBase' ∈ Q)
    (h : canonicalHash sdk trustBase = canonicalHash sdk trustBase') : trustBase = trustBase' := by
  have hbytes := hsha hQ hQ' h
  rw [canonicalBytes_eq hcbor hmem, canonicalBytes_eq hcbor hmem'] at hbytes
  exact trustBaseItem_inj (encode_inj hmem.fits hmem'.fits hbytes)

/-! ## Every anchor on its own -/

section Alone

variable (sdk)

/-- The obligations of one burn, whose anchor is verified under the burn's own trust base. -/
def burnObligationsAlone (config : Core.BridgeConfig) (burn : BridgeBurnWitness) :
    Core.Result (List Bridge.BridgeLockObligation) :=
  match burn.verification with
  | .anchored anchor => do
      let root ← (verifyAnchorCertificate sdk burn.trustBase anchor).mapError
        fun _ => .tokenVerificationFailed
      (Bridge.bridgeLockObligationsForTokenAgainstRoot sdk burn.token burn.trustBase root
        burn.lockJustificationTag (sdkBridgeConfig config)).mapError
          fun _ => .tokenVerificationFailed
  | .certified =>
      (Bridge.bridgeLockObligationsForTokenCertified sdk burn.token burn.trustBase
        burn.lockJustificationTag (sdkBridgeConfig config)).mapError
          fun _ => .tokenVerificationFailed

/-- One round of the loop over the burns with an empty cache: no verdict is shared. -/
def validateBurnAlone (config : Core.BridgeConfig) (trustBaseHash : Bytes32)
    (refs : List SourceLockRef) (pair : BridgeBurnWitness × ReturnLeaf) :
    Core.Result (List SourceLockRef) := do
  let (burn, leaf) := pair
  ensure (canonicalHash sdk burn.trustBase = trustBaseHash) .wrongTrustBaseHash
  let obligations ← burnObligationsAlone sdk config burn
  validateTerminalBurn sdk config (configHash sdk.keccak256 config) leaf burn.token
  validateCurrentValue sdk config leaf burn.token
  .ok (refs ++ obligations.map fun obligation => ⟨obligation.nonce, obligation.digest⟩)

/-- `validate_bridge_burns` without the cache. -/
def validateBridgeBurnsAlone (config : Core.BridgeConfig) (trustBaseHash : Bytes32)
    (leaves : List ReturnLeaf) (sortedLockRefs : List SourceLockRef)
    (burns : List BridgeBurnWitness) : Core.Result Unit := do
  ensure (burns ≠ [] ∧ burns.length = leaves.length) .wrongBatchSize
  let refs ← (burns.zip leaves).foldlM (validateBurnAlone sdk config trustBaseHash) []
  ensure (sortByNonce refs = sortedLockRefs) .wrongLockObligation

end Alone

/-- Every root in the cache is that of its anchor under each trust base with the batch's hash. -/
def CacheShared (sdk : Sdk) (trustBaseHash : Bytes32) (bases : Set RootTrustBase)
    (cache : List (UnicityCertificate × Bytes32)) : Prop :=
  ∀ entry ∈ cache, ∀ trustBase ∈ bases, canonicalHash sdk trustBase = trustBaseHash →
    verifyAnchorCertificate sdk trustBase entry.1 = .ok entry.2

/-- Trust bases with one hash are equal. -/
def HashBinds (sdk : Sdk) (bases : Set RootTrustBase) : Prop :=
  Set.InjOn (canonicalHash sdk) bases

/-- The root of an anchor is the one that its own check gives, and it can be shared. -/
theorem anchorRoot_alone {trustBaseHash : Bytes32} {bases : Set RootTrustBase}
    {cache : List (UnicityCertificate × Bytes32)} (hbinds : HashBinds sdk bases)
    (hcache : CacheShared sdk trustBaseHash bases cache) {trustBase : RootTrustBase}
    (hbase : trustBase ∈ bases) (hhash : canonicalHash sdk trustBase = trustBaseHash)
    (anchor : UnicityCertificate) :
    (anchorRoot sdk trustBase anchor cache).map Prod.fst =
        (verifyAnchorCertificate sdk trustBase anchor).mapError (fun _ => .tokenVerificationFailed) ∧
      ∀ root cache', anchorRoot sdk trustBase anchor cache = .ok (root, cache') →
        CacheShared sdk trustBaseHash bases cache' := by
  unfold anchorRoot
  split
  · rename_i entry hfind
    have hanchor : entry.1 = anchor := by simpa using List.find?_some hfind
    have hroot := hcache entry (List.mem_of_find?_eq_some hfind) trustBase hbase hhash
    rw [hanchor] at hroot
    refine ⟨by rw [hroot]; rfl, ?_⟩
    intro root cache' h
    cases h
    exact hcache
  · cases hroot : verifyAnchorCertificate sdk trustBase anchor with
    | error e =>
        refine ⟨rfl, ?_⟩
        intro root cache' h
        cases h
    | ok root =>
        refine ⟨rfl, ?_⟩
        intro root' cache' h
        cases h
        intro entry hentry other hother hsame
        rcases List.mem_append.1 hentry with hold | hnew
        · exact hcache entry hold other hother hsame
        · -- the new entry was verified under a trust base with the same hash
          obtain rfl := List.mem_singleton.1 hnew
          rw [hbinds hother hbase (hsame.trans hhash.symm)]
          exact hroot

theorem burnObligations_alone {config : Core.BridgeConfig} {trustBaseHash : Bytes32}
    {bases : Set RootTrustBase} {cache : List (UnicityCertificate × Bytes32)}
    (hbinds : HashBinds sdk bases) (hcache : CacheShared sdk trustBaseHash bases cache)
    {burn : BridgeBurnWitness} (hbase : burn.trustBase ∈ bases)
    (hhash : canonicalHash sdk burn.trustBase = trustBaseHash) :
    (burnObligations sdk config burn cache).map Prod.fst = burnObligationsAlone sdk config burn ∧
      ∀ obligations cache', burnObligations sdk config burn cache = .ok (obligations, cache') →
        CacheShared sdk trustBaseHash bases cache' := by
  unfold burnObligations burnObligationsAlone
  cases burn.verification with
  | anchored anchor =>
      obtain ⟨halone, hshared⟩ := anchorRoot_alone hbinds hcache hbase hhash anchor
      dsimp only
      rw [← halone]
      cases hroot : anchorRoot sdk burn.trustBase anchor cache with
      | error e =>
          refine ⟨rfl, ?_⟩
          intro obligations cache' h
          cases h
      | ok found =>
          obtain ⟨root, cache'⟩ := found
          have hnext := hshared root cache' hroot
          cases hobligations : Bridge.bridgeLockObligationsForTokenAgainstRoot sdk burn.token
              burn.trustBase root burn.lockJustificationTag (sdkBridgeConfig config) with
          | error e => simp [bind, Except.bind, Except.map, Except.mapError, hobligations]
          | ok obligations =>
              simpa [bind, Except.bind, Except.map, Except.mapError, hobligations] using hnext
  | certified =>
      cases hobligations : Bridge.bridgeLockObligationsForTokenCertified sdk burn.token
          burn.trustBase burn.lockJustificationTag (sdkBridgeConfig config) with
      | error e => simp [bind, Except.bind, Except.map, Except.mapError]
      | ok obligations =>
          simpa [bind, Except.bind, Except.map, Except.mapError] using hcache

/-- **One turn of the loop.** -/
theorem validateBurn_alone {config : Core.BridgeConfig} {trustBaseHash : Bytes32}
    {bases : Set RootTrustBase} {state : BurnsState} (hbinds : HashBinds sdk bases)
    (hcache : CacheShared sdk trustBaseHash bases state.anchorRoots)
    {pair : BridgeBurnWitness × ReturnLeaf} (hbase : pair.1.trustBase ∈ bases) :
    (validateBurn sdk config trustBaseHash state pair).map BurnsState.obligations =
        validateBurnAlone sdk config trustBaseHash state.obligations pair ∧
      ∀ state', validateBurn sdk config trustBaseHash state pair = .ok state' →
        CacheShared sdk trustBaseHash bases state'.anchorRoots := by
  obtain ⟨burn, leaf⟩ := pair
  unfold validateBurn validateBurnAlone
  dsimp only
  by_cases hhash : canonicalHash sdk burn.trustBase = trustBaseHash
  · obtain ⟨halone, hshared⟩ := @burnObligations_alone sdk config trustBaseHash bases
      state.anchorRoots hbinds hcache burn hbase hhash
    rw [← halone]
    cases hfound : burnObligations sdk config burn state.anchorRoots with
    | error e => simp [hhash, ensure, bind, Except.bind, Except.map]
    | ok found =>
        obtain ⟨obligations, cache'⟩ := found
        have hnext := hshared obligations cache' hfound
        cases hterminal : validateTerminalBurn sdk config (configHash sdk.keccak256 config) leaf
            burn.token with
        | error e => simp [hhash, ensure, bind, Except.bind, Except.map]
        | ok terminal =>
            cases hvalue : validateCurrentValue sdk config leaf burn.token with
            | error e => simp [hhash, ensure, bind, Except.bind, Except.map]
            | ok value => simpa [hhash, ensure, bind, Except.bind, Except.map] using hnext
  · simp [hhash, ensure, bind, Except.bind, Except.map]

/-- **The whole loop**, by induction over the pairs. -/
theorem foldlM_validateBurn_alone {config : Core.BridgeConfig} {trustBaseHash : Bytes32}
    {bases : Set RootTrustBase} (hbinds : HashBinds sdk bases)
    {pairs : List (BridgeBurnWitness × ReturnLeaf)}
    (hbases : ∀ pair ∈ pairs, pair.1.trustBase ∈ bases) {state : BurnsState}
    (hcache : CacheShared sdk trustBaseHash bases state.anchorRoots) :
    (pairs.foldlM (validateBurn sdk config trustBaseHash) state).map BurnsState.obligations =
      pairs.foldlM (validateBurnAlone sdk config trustBaseHash) state.obligations := by
  induction pairs generalizing state with
  | nil => rfl
  | cons pair rest ih =>
      rw [List.forall_mem_cons] at hbases
      obtain ⟨halone, hshared⟩ := @validateBurn_alone sdk config trustBaseHash bases state hbinds
        hcache pair hbases.1
      rw [List.foldlM_cons, List.foldlM_cons, ← halone]
      cases hturn : validateBurn sdk config trustBaseHash state pair with
      | error e => rfl
      | ok state' => exact ih hbases.2 (hshared state' hturn)

/-- The documents of the burns' trust bases. -/
def trustBaseInputs (sdk : Sdk) (burns : List BridgeBurnWitness) : Set Bytes :=
  {bytes | ∃ burn ∈ burns, bytes = canonicalBytes sdk burn.trustBase}

theorem hashBinds (hcbor : EncodesCbor sdk) {burns : List BridgeBurnWitness}
    (hmemory : ∀ burn ∈ burns, InMemory burn.trustBase)
    (hsha : Set.InjOn sdk.sha256 (trustBaseInputs sdk burns)) :
    HashBinds sdk {trustBase | ∃ burn ∈ burns, burn.trustBase = trustBase} := by
  rintro _ ⟨burn, hburn, rfl⟩ _ ⟨burn', hburn', rfl⟩ h
  exact canonicalHash_inj hcbor hsha (hmemory burn hburn) (hmemory burn' hburn') ⟨burn, hburn, rfl⟩
    ⟨burn', hburn', rfl⟩ h

/-- **Sharing an anchor check changes nothing**: the loop with the cache ends as the one without it,
with the same obligations, and trust bases with one hash give one verdict on any certificate. -/
theorem anchor_cache (hcbor : EncodesCbor sdk) (config : Core.BridgeConfig)
    (trustBaseHash : Bytes32) (leaves : List ReturnLeaf) (sortedLockRefs : List SourceLockRef)
    (burns : List BridgeBurnWitness) (hmemory : ∀ burn ∈ burns, InMemory burn.trustBase)
    (hsha : Set.InjOn sdk.sha256 (trustBaseInputs sdk burns)) :
    validateBridgeBurns sdk config trustBaseHash leaves sortedLockRefs burns =
        validateBridgeBurnsAlone sdk config trustBaseHash leaves sortedLockRefs burns ∧
      ((burns.zip leaves).foldlM (validateBurn sdk config trustBaseHash) ⟨[], []⟩).map
          BurnsState.obligations =
        (burns.zip leaves).foldlM (validateBurnAlone sdk config trustBaseHash) [] ∧
      ∀ burn ∈ burns, ∀ burn' ∈ burns,
        canonicalHash sdk burn.trustBase = canonicalHash sdk burn'.trustBase →
          ∀ certificate, verifyAnchorCertificate sdk burn.trustBase certificate =
            verifyAnchorCertificate sdk burn'.trustBase certificate := by
  have hbinds := hashBinds hcbor hmemory hsha
  have hbases : ∀ pair ∈ burns.zip leaves,
      pair.1.trustBase ∈ {trustBase | ∃ burn ∈ burns, burn.trustBase = trustBase} :=
    fun pair hpair => ⟨pair.1, (List.of_mem_zip hpair).1, rfl⟩
  have hloop := @foldlM_validateBurn_alone sdk config trustBaseHash _ hbinds _ hbases ⟨[], []⟩
    fun entry hentry => absurd hentry List.not_mem_nil
  refine ⟨?_, hloop, fun burn hburn burn' hburn' h certificate => ?_⟩
  · rw [validateBridgeBurns, validateBridgeBurnsAlone, ← hloop]
    cases (burns.zip leaves).foldlM (validateBurn sdk config trustBaseHash) ⟨[], []⟩ <;> rfl
  · rw [hbinds ⟨burn, hburn, rfl⟩ ⟨burn', hburn', rfl⟩ h]

/-- Two burns of the sample under one anchor. -/
theorem anchor_cache_sample :
    validateBridgeBurns StrictSample.sdk Sample.config
        (canonicalHash StrictSample.sdk Sample.trustBase) [Sample.leaf .whole, Sample.leaf .left] []
        [{ Sample.witness .whole with verification := .anchored Sample.certificate },
          { Sample.witness .left with verification := .anchored Sample.certificate }] =
      validateBridgeBurnsAlone StrictSample.sdk Sample.config
        (canonicalHash StrictSample.sdk Sample.trustBase) [Sample.leaf .whole, Sample.leaf .left] []
        [{ Sample.witness .whole with verification := .anchored Sample.certificate },
          { Sample.witness .left with verification := .anchored Sample.certificate }] := by
  refine (anchor_cache StrictSample.encodesCbor _ _ _ _ _ ?_ ?_).1
  · intro burn hburn
    have hbase : burn.trustBase = Sample.trustBase := by
      simp only [List.mem_cons, List.not_mem_nil, or_false] at hburn
      rcases hburn with rfl | rfl <;> rfl
    rw [hbase]
    constructor
    · decide
    · simp only [Sample.trustBase, List.mem_singleton, forall_eq]
      decide
    · simp [Sample.trustBase]
  · rintro _ ⟨burn, hburn, rfl⟩ _ ⟨burn', hburn', rfl⟩ -
    simp only [List.mem_cons, List.not_mem_nil, or_false] at hburn hburn'
    rcases hburn with rfl | rfl <;> rcases hburn' with rfl | rfl <;> rfl

end UnicityBridge.Guest
