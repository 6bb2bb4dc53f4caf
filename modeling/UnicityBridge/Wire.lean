import UnicityBridge.Guest
import UnicityBridge.Lib.Reader

/-!
# The wire format of the guest input

`prover/crates/guest/src/wire.rs`: `encode_guest_input` writes a version, the configuration, the public
values and four vectors with 32-bit counts; `decode_guest_input` reads them back and leaves no byte
over. Writing aborts when a count does not fit, which is `none` here.

Tokens, certificates and keys are written by the SDK.
-/

set_option autoImplicit false

namespace UnicityBridge.Wire

open UnicityBridge.Lib UnicityBridge.Lib.Reader
open UnicityBridge.TokenSdk
open UnicityBridge.Core (BridgeCoreError PublicValues ReturnLeaf SourceLockRef)
open UnicityBridge.Accumulator (NonMembershipWitness NonMembershipTerminal SmtProofStep)
open UnicityBridge.Guest (GuestInput BridgeBurnWitness BurnVerification RelationWitness)

/-- The SDK's encoders and decoders that the wire uses. -/
structure Codec where
  tokenToCbor : Token → Bytes
  tokenFromCbor : Bytes → Option Token
  certificateToCbor : UnicityCertificate → Bytes
  certificateFromCbor : Bytes → Option UnicityCertificate
  publicKeyFromBytes : Bytes → Option PublicKey
  networkId : UInt16 → Option NetworkId

/-- The decoders accept only what the encoders produce. -/
structure Codec.Canonical (codec : Codec) : Prop where
  token : ∀ bytes token, codec.tokenFromCbor bytes = some token → codec.tokenToCbor token = bytes
  certificate : ∀ bytes certificate, codec.certificateFromCbor bytes = some certificate →
    codec.certificateToCbor certificate = bytes
  publicKey : ∀ bytes key, codec.publicKeyFromBytes bytes = some key → key.bytes = bytes
  networkId : ∀ id network, codec.networkId id = some network → network.id = id

/-- A reader of the wire format, with one error for all that is malformed. -/
abbrev Cursor := Reader BridgeCoreError

/-- The only version of the format. -/
def WIRE_VERSION : UInt32 := 2

/-! ## Writing -/

/-- The bytes of the configuration. -/
def putConfig (config : Core.BridgeConfig) : Bytes :=
  putU64 config.sourceChainId ++ (config.vault.toList ++ (config.asset.toList ++
    (config.tokenType.toList ++ (config.coinId.toList ++ (putU64 config.reasonTag ++
      (config.lockDomain.toList ++ config.nullifierDomain.toList))))))

/-- The bytes of the public values. -/
def putPublicValues (pv : PublicValues) : Bytes :=
  pv.domainTag.toList ++ (pv.configHash.toList ++ (pv.trustBaseHash.toList ++
    (pv.spentRootOld.toList ++ (pv.spentRootNew.toList ++ (pv.returnRoot.toList ++
      (pv.lockRefRoot.toList ++ (putU32 pv.batchSize ++ pv.totalAmount.toList)))))))

/-- The bytes of a return leaf. -/
def putReturnLeaf (leaf : ReturnLeaf) : Bytes :=
  leaf.nullifier.toList ++ (leaf.recipient.toList ++ (leaf.amount.toList ++
    (leaf.feeRecipient.toList ++ (leaf.feeAmount.toList ++ putU64 leaf.deadline))))

/-- The bytes of a lock reference. -/
def putLockRef (lockRef : SourceLockRef) : Bytes := putU64 lockRef.nonce ++ lockRef.digest.toList

/-- The bytes of the end of a path. -/
def putTerminal : NonMembershipTerminal → Bytes
  | .empty => [0]
  | .occupied key => [1] ++ key.toList

/-- The bytes of one step of a witness. -/
def putStep (step : SmtProofStep) : Bytes := [step.depth] ++ step.siblingHash.toList

/-- The bytes of a witness of absence. -/
def putAccumulatorWitness (witness : NonMembershipWitness) : Option Bytes := do
  let steps ← putVec (fun step => some (putStep step)) witness.steps
  some (putTerminal witness.terminal ++ steps)

/-- A text as its UTF-8 bytes. -/
def textBytes (text : String) : Bytes := text.toUTF8.data.toList

/-- The bytes of a validator. -/
def putNode (node : RootTrustBaseNodeInfo) : Option Bytes := do
  let id ← putBytes (textBytes node.nodeId)
  let key ← putBytes node.signingKey.bytes
  some (id ++ (key ++ putU64 node.stake))

/-- The bytes of a trust base. -/
def putTrustBase (trustBase : RootTrustBase) : Option Bytes := do
  let nodes ← putVec putNode trustBase.rootNodes
  some (putU64 trustBase.version ++ (putU16 trustBase.networkId.id ++ (putU64 trustBase.epoch ++
    (putU64 trustBase.epochStartRound ++ (nodes ++ putU64 trustBase.quorumThreshold)))))

variable (sdk : Sdk) (codec : Codec)

/-- The bytes of the kind of a verification, with its anchor. -/
def putVerification : BurnVerification → Option Bytes
  | .anchored anchor => do
      let bytes ← putBytes (codec.certificateToCbor anchor)
      some ([0] ++ bytes)
  | .certified => some [1]

/-- The bytes of a burn. -/
def putBridgeBurn (burn : BridgeBurnWitness) : Option Bytes := do
  let token ← putBytes (codec.tokenToCbor burn.token)
  let trustBase ← putTrustBase burn.trustBase
  let verification ← putVerification codec burn.verification
  some (token ++ (trustBase ++ (verification ++ putU64 burn.lockJustificationTag)))

/-- The bytes of a guest input; `none` where some length exceeds its field. -/
def encodeGuestInput (input : GuestInput) : Option Bytes := do
  let leaves ← putVec (fun leaf => some (putReturnLeaf leaf)) input.returnLeaves
  let lockRefs ← putVec (fun lockRef => some (putLockRef lockRef)) input.sortedLockRefs
  let witnesses ← putVec putAccumulatorWitness input.witness.accumulatorWitnesses
  let burns ← putVec (putBridgeBurn codec) input.witness.bridgeBurns
  some (putU32 WIRE_VERSION ++ (putConfig input.config ++ (putPublicValues input.publicValues ++
    (leaves ++ (lockRefs ++ (witnesses ++ burns))))))

/-! ## Reading -/

/-- What every reader returns on a short or wrong input. -/
abbrev bad : BridgeCoreError := .wireDecodeFailed

/-- Reads the configuration. -/
def config : Cursor Core.BridgeConfig := do
  let sourceChainId ← u64 bad
  let vault ← array bad 20
  let asset ← array bad 20
  let tokenType ← array bad 32
  let coinId ← array bad 32
  let reasonTag ← u64 bad
  let lockDomain ← array bad 32
  let nullifierDomain ← array bad 32
  pure { sourceChainId, vault, asset, tokenType, coinId, reasonTag, lockDomain, nullifierDomain }

/-- Reads the public values. -/
def publicValues : Cursor PublicValues := do
  let domainTag ← array bad 32
  let configHash ← array bad 32
  let trustBaseHash ← array bad 32
  let spentRootOld ← array bad 32
  let spentRootNew ← array bad 32
  let returnRoot ← array bad 32
  let lockRefRoot ← array bad 32
  let batchSize ← u32 bad
  let totalAmount ← array bad 32
  pure { domainTag, configHash, trustBaseHash, spentRootOld, spentRootNew, returnRoot, lockRefRoot,
         batchSize, totalAmount }

/-- Reads a return leaf. -/
def returnLeaf : Cursor ReturnLeaf := do
  let nullifier ← array bad 32
  let recipient ← array bad 20
  let amount ← array bad 32
  let feeRecipient ← array bad 20
  let feeAmount ← array bad 32
  let deadline ← u64 bad
  pure { nullifier, recipient, amount, feeRecipient, feeAmount, deadline }

/-- Reads a lock reference. -/
def lockRef : Cursor SourceLockRef := do
  let nonce ← u64 bad
  let digest ← array bad 32
  pure { nonce, digest }

/-- Reads the end of a path; other tags are refused. -/
def terminal : Cursor NonMembershipTerminal := do
  let tag ← u8 bad
  if tag = 0 then pure .empty
  else if tag = 1 then do
    let key ← array bad 32
    pure (.occupied key)
  else throw bad

/-- Reads one step of a witness. -/
def step : Cursor SmtProofStep := do
  let depth ← u8 bad
  let siblingHash ← array bad 32
  pure { depth, siblingHash }

/-- Reads a witness of absence. -/
def accumulatorWitness : Cursor NonMembershipWitness := do
  let terminal ← terminal
  let steps ← vec bad step
  pure { terminal, steps }

/-- `String::from_utf8` -/
def fromUtf8 (bytes : Bytes) : Option String := String.fromUTF8? ⟨bytes.toArray⟩

/-- Reads a validator. -/
def node : Cursor RootTrustBaseNodeInfo := do
  let idBytes ← bytes bad
  let nodeId ← accept bad (fromUtf8 idBytes)
  let keyBytes ← bytes bad
  let signingKey ← accept bad (codec.publicKeyFromBytes keyBytes)
  let stake ← u64 bad
  pure { nodeId, signingKey, stake }

/-- Reads a trust base, of a network that the SDK knows. -/
def trustBase : Cursor RootTrustBase := do
  let version ← u64 bad
  let id ← u16 bad
  let networkId ← accept bad (codec.networkId id)
  let epoch ← u64 bad
  let epochStartRound ← u64 bad
  let rootNodes ← vec bad (node codec)
  let quorumThreshold ← u64 bad
  let trustBase := { version, networkId, epoch, epochStartRound, rootNodes, quorumThreshold }
  if sdk.trustBaseValid trustBase then pure trustBase else throw bad

/-- Reads the kind of a verification, with its anchor. -/
def verification : Cursor BurnVerification := do
  let tag ← u8 bad
  if tag = 0 then do
    let anchorBytes ← bytes bad
    accept bad (sdk.finish anchorBytes)
    let anchor ← accept bad (codec.certificateFromCbor anchorBytes)
    pure (.anchored anchor)
  else if tag = 1 then pure .certified
  else throw bad

/-- Reads a burn. -/
def bridgeBurn : Cursor BridgeBurnWitness := do
  let tokenBytes ← bytes bad
  let token ← accept bad (codec.tokenFromCbor tokenBytes)
  let trustBase ← trustBase sdk codec
  let verification ← verification sdk codec
  let lockJustificationTag ← u64 bad
  pure { token, trustBase, verification, lockJustificationTag }

/-- The whole input. A vector read from the wire has a 32-bit count, as `GuestInput` asks. -/
def decodeGuestInput (input : Bytes) : Except BridgeCoreError GuestInput := do
  let (version, rest) ← u32 bad input
  ensure (version = WIRE_VERSION) bad
  let (config, rest) ← config rest
  let (publicValues, rest) ← publicValues rest
  let (returnLeaves, rest) ← vec bad returnLeaf rest
  let (sortedLockRefs, rest) ← vec bad lockRef rest
  let (accumulatorWitnesses, rest) ← vec bad accumulatorWitness rest
  let (bridgeBurns, rest) ← vec bad (bridgeBurn sdk codec) rest
  ensure (rest = []) bad
  if h : returnLeaves.length < 2 ^ 32 then
    .ok { config, publicValues, returnLeaves, sortedLockRefs,
          witness := { accumulatorWitnesses, bridgeBurns }, leaves_lt := h }
  else .error bad

/-! ## Fixed parts are read back -/

theorem reads_config (c : Core.BridgeConfig) : Reads config (putConfig c) c :=
  (reads_u64 bad _).bind <| (reads_array bad _).bind <| (reads_array bad _).bind <|
    (reads_array bad _).bind <| (reads_array bad _).bind <| (reads_u64 bad _).bind <|
      (reads_array bad _).bind <| (reads_array bad _).bind_pure

theorem reads_publicValues (pv : PublicValues) : Reads publicValues (putPublicValues pv) pv :=
  (reads_array bad _).bind <| (reads_array bad _).bind <| (reads_array bad _).bind <|
    (reads_array bad _).bind <| (reads_array bad _).bind <| (reads_array bad _).bind <|
      (reads_array bad _).bind <| (reads_u32 bad _).bind <| (reads_array bad _).bind_pure

theorem reads_returnLeaf (leaf : ReturnLeaf) : Reads returnLeaf (putReturnLeaf leaf) leaf :=
  (reads_array bad _).bind <| (reads_array bad _).bind <| (reads_array bad _).bind <|
    (reads_array bad _).bind <| (reads_array bad _).bind <| (reads_u64 bad _).bind_pure

theorem reads_lockRef (ref : SourceLockRef) : Reads lockRef (putLockRef ref) ref :=
  (reads_u64 bad _).bind <| (reads_array bad _).bind_pure

theorem reads_step (s : SmtProofStep) : Reads step (putStep s) s :=
  (reads_u8 bad _).bind <| (reads_array bad _).bind_pure

theorem reads_terminal (t : NonMembershipTerminal) : Reads terminal (putTerminal t) t := by
  cases t with
  | empty => exact (reads_u8 bad 0).bind (Reads.pure _)
  | occupied key => exact (reads_u8 bad 1).bind (reads_array bad key).bind_pure

theorem inverts_accumulatorWitness {witness : NonMembershipWitness}
    (h : witness.steps.length < 2 ^ 32) :
    Inverts accumulatorWitness putAccumulatorWitness witness := by
  obtain ⟨steps, hput, hread⟩ := inverts_vec bad h
    (fun s _ => (⟨_, rfl, reads_step s⟩ : Inverts step (fun s => some (putStep s)) s))
  refine ⟨putTerminal witness.terminal ++ steps, ?_, ?_⟩
  · rw [putAccumulatorWitness, hput]
    rfl
  · exact (reads_terminal _).bind hread.bind_pure

/-! ## Parts of the SDK are read back -/

theorem fromUtf8_textBytes (text : String) : fromUtf8 (textBytes text) = some text := by
  have hbytes : (⟨(textBytes text).toArray⟩ : ByteArray) = text.toUTF8 := by
    rw [textBytes, Array.toArray_toList]
  rw [fromUtf8, hbytes, String.fromUTF8?]
  exact dif_pos text.isValidUTF8

theorem textBytes_of_fromUtf8 {data : Bytes} {text : String} (h : fromUtf8 data = some text) :
    textBytes text = data := by
  unfold fromUtf8 String.fromUTF8? at h
  split at h
  · cases h
    rfl
  · cases h

/-- The node can be written and read back. -/
structure NodeFits (node : RootTrustBaseNodeInfo) : Prop where
  nodeId : (textBytes node.nodeId).length < 2 ^ 32
  signingKey : node.signingKey.bytes.length < 2 ^ 32
  key : codec.publicKeyFromBytes node.signingKey.bytes = some node.signingKey

/-- The trust base can be written and read back. -/
structure TrustBaseFits (trustBase : RootTrustBase) : Prop where
  networkId : codec.networkId trustBase.networkId.id = some trustBase.networkId
  rootNodes : trustBase.rootNodes.length < 2 ^ 32
  nodes : ∀ node ∈ trustBase.rootNodes, NodeFits codec node
  valid : sdk.trustBaseValid trustBase = true

/-- The certificate can be written and read back. -/
def VerificationFits : BurnVerification → Prop
  | .anchored anchor => (codec.certificateToCbor anchor).length < 2 ^ 32 ∧
      sdk.finish (codec.certificateToCbor anchor) = some () ∧
      codec.certificateFromCbor (codec.certificateToCbor anchor) = some anchor
  | .certified => True

/-- The burn can be written and read back. -/
structure BurnFits (burn : BridgeBurnWitness) : Prop where
  length : (codec.tokenToCbor burn.token).length < 2 ^ 32
  token : codec.tokenFromCbor (codec.tokenToCbor burn.token) = some burn.token
  trustBase : TrustBaseFits sdk codec burn.trustBase
  verification : VerificationFits sdk codec burn.verification

/-- Every count of the input fits the wire, and its SDK parts are read back. -/
structure InputFits (input : GuestInput) : Prop where
  lockRefs : input.sortedLockRefs.length < 2 ^ 32
  witnesses : input.witness.accumulatorWitnesses.length < 2 ^ 32
  steps : ∀ witness ∈ input.witness.accumulatorWitnesses, witness.steps.length < 2 ^ 32
  burns : input.witness.bridgeBurns.length < 2 ^ 32
  burn : ∀ burn ∈ input.witness.bridgeBurns, BurnFits sdk codec burn

section RoundTrip

variable {sdk codec}

theorem inverts_node {n : RootTrustBaseNodeInfo} (h : NodeFits codec n) :
    Inverts (node codec) putNode n := by
  obtain ⟨id, hid, hreadId⟩ := inverts_bytes bad h.nodeId
  obtain ⟨key, hkey, hreadKey⟩ := inverts_bytes bad h.signingKey
  refine ⟨id ++ (key ++ putU64 n.stake), ?_, ?_⟩
  · rw [putNode, hid, hkey]
    rfl
  · exact hreadId.bind <| Reads.accept bad (fromUtf8_textBytes _) <|
      hreadKey.bind <| Reads.accept bad h.key <| (reads_u64 bad _).bind_pure

theorem inverts_trustBase {t : RootTrustBase} (h : TrustBaseFits sdk codec t) :
    Inverts (trustBase sdk codec) putTrustBase t := by
  obtain ⟨nodes, hnodes, hread⟩ := inverts_vec bad h.rootNodes fun n hn => inverts_node (h.nodes n hn)
  refine ⟨putU64 t.version ++ (putU16 t.networkId.id ++ (putU64 t.epoch ++
    (putU64 t.epochStartRound ++ (nodes ++ putU64 t.quorumThreshold)))), ?_, ?_⟩
  · rw [putTrustBase, hnodes]
    rfl
  · refine (reads_u64 bad _).bind <| (reads_u16 bad _).bind <| Reads.accept bad h.networkId <|
      (reads_u64 bad _).bind <| (reads_u64 bad _).bind <| hread.bind <|
        (reads_u64 bad _).bind_last ?_
    show Reads (if sdk.trustBaseValid t then pure t else throw bad : Cursor RootTrustBase) [] t
    rw [if_pos h.valid]
    exact Reads.pure t

theorem inverts_verification {v : BurnVerification} (h : VerificationFits sdk codec v) :
    Inverts (verification sdk codec) (putVerification codec) v := by
  cases v with
  | anchored anchor =>
      obtain ⟨hlength, hfinish, hanchor⟩ := h
      obtain ⟨data, hdata, hread⟩ := inverts_bytes bad hlength
      refine ⟨[0] ++ data, ?_, ?_⟩
      · rw [putVerification, hdata]
        rfl
      · exact (reads_u8 bad 0).bind <| hread.bind_last <| Reads.accept bad hfinish <|
          Reads.accept bad hanchor <| Reads.pure _
  | certified => exact ⟨[1], rfl, (reads_u8 bad 1).bind (Reads.pure _)⟩

theorem inverts_bridgeBurn {burn : BridgeBurnWitness} (h : BurnFits sdk codec burn) :
    Inverts (bridgeBurn sdk codec) (putBridgeBurn codec) burn := by
  obtain ⟨token, htoken, hreadToken⟩ := inverts_bytes bad h.length
  obtain ⟨base, hbase, hreadBase⟩ := inverts_trustBase h.trustBase
  obtain ⟨mode, hmode, hreadMode⟩ := inverts_verification h.verification
  refine ⟨token ++ (base ++ (mode ++ putU64 burn.lockJustificationTag)), ?_, ?_⟩
  · rw [putBridgeBurn, htoken, hbase, hmode]
    rfl
  · exact hreadToken.bind <| Reads.accept bad h.token <| hreadBase.bind <|
      hreadMode.bind <| (reads_u64 bad _).bind_pure

/-- **What is written is read back.** -/
theorem decode_encode {input : GuestInput} (h : InputFits sdk codec input) :
    ∃ bytes, encodeGuestInput codec input = some bytes ∧
      decodeGuestInput sdk codec bytes = .ok input := by
  obtain ⟨leaves, hleaves, hreadLeaves⟩ := inverts_vec bad input.leaves_lt
    (fun l _ => (⟨_, rfl, reads_returnLeaf l⟩ : Inverts returnLeaf (fun l => some (putReturnLeaf l)) l))
  obtain ⟨refs, hrefs, hreadRefs⟩ := inverts_vec bad h.lockRefs
    (fun r _ => (⟨_, rfl, reads_lockRef r⟩ : Inverts lockRef (fun r => some (putLockRef r)) r))
  obtain ⟨witnesses, hwitnesses, hreadWitnesses⟩ := inverts_vec bad h.witnesses
    fun w hw => inverts_accumulatorWitness (h.steps w hw)
  obtain ⟨burns, hburns, hreadBurns⟩ := inverts_vec bad h.burns
    fun b hb => inverts_bridgeBurn (h.burn b hb)
  refine ⟨_, by rw [encodeGuestInput, hleaves, hrefs, hwitnesses, hburns]; rfl, ?_⟩
  have hlast := hreadBurns []
  rw [List.append_nil] at hlast
  simp only [decodeGuestInput, reads_u32 bad WIRE_VERSION _, reads_config input.config _,
    reads_publicValues input.publicValues _, hreadLeaves _, hreadRefs _, hreadWitnesses _, hlast,
    ensure, if_true, bind, Except.bind]
  rw [dif_pos input.leaves_lt]

/-- The public values stand before everything of variable length, so they are read back whatever
follows. -/
theorem publicValues_of_decode {input input' : GuestInput} {bytes : Bytes}
    (hencode : encodeGuestInput codec input = some bytes)
    (hdecode : decodeGuestInput sdk codec bytes = .ok input') :
    input'.publicValues = input.publicValues := by
  simp only [encodeGuestInput, Option.bind_eq_bind, Option.bind_eq_some_iff, Option.some.injEq] at hencode
  obtain ⟨leaves, -, refs, -, witnesses, -, burns, -, rfl⟩ := hencode
  simp only [decodeGuestInput, Lib.bind_eq_ok, Prod.exists] at hdecode
  obtain ⟨_, _, hversion, _, -, _, _, hconfig, values, _, hvalues, _, _, -, _, _, -, _, _, -, _, _, -,
    _, -, h⟩ := hdecode
  rw [reads_u32 bad WIRE_VERSION _] at hversion
  obtain ⟨-, rfl⟩ := Prod.mk.inj (Except.ok.inj hversion)
  rw [reads_config input.config _] at hconfig
  obtain ⟨-, rfl⟩ := Prod.mk.inj (Except.ok.inj hconfig)
  rw [reads_publicValues input.publicValues _] at hvalues
  obtain ⟨hsame, -⟩ := Prod.mk.inj (Except.ok.inj hvalues)
  split at h
  · obtain rfl := Except.ok.inj h
    exact hsame.symm
  · cases h

/-! ## What was read can be written -/

theorem nodeFits_of_read (hcodec : codec.Canonical) {input rest : Bytes}
    {n : RootTrustBaseNodeInfo} (h : node codec input = .ok (n, rest)) : NodeFits codec n := by
  simp only [node, run_bind, run_accept, run_pure] at h
  obtain ⟨idBytes, _, hid, nodeId, _, ⟨htext, rfl⟩, keyBytes, _, hkey, signingKey, _,
    ⟨hparse, rfl⟩, stake, _, -, rfl, -⟩ := h
  have hbytes := hcodec.publicKey _ _ hparse
  exact ⟨textBytes_of_fromUtf8 htext ▸ bytes_length_lt hid, hbytes.symm ▸ bytes_length_lt hkey,
    hbytes.symm ▸ hparse⟩

theorem trustBaseFits_of_read (hcodec : codec.Canonical) {input rest : Bytes} {t : RootTrustBase}
    (h : trustBase sdk codec input = .ok (t, rest)) : TrustBaseFits sdk codec t := by
  simp only [trustBase, run_bind, run_accept] at h
  obtain ⟨version, _, -, id, _, -, network, _, ⟨hnetwork, rfl⟩, epoch, _, -, start, _, -, nodes, _,
    hnodes, threshold, _, -, h⟩ := h
  split at h
  · obtain ⟨rfl, -⟩ := run_pure.1 h
    obtain ⟨hlength, hall⟩ := vec_eq_ok hnodes
    refine ⟨?_, hlength, fun n hn => ?_, ‹_›⟩
    · rw [hcodec.networkId _ _ hnetwork]
      exact hnetwork
    · obtain ⟨before, after, hread⟩ := hall n hn
      exact nodeFits_of_read hcodec hread
  · cases h

theorem verificationFits_of_read (hcodec : codec.Canonical) {input rest : Bytes}
    {v : BurnVerification} (h : verification sdk codec input = .ok (v, rest)) :
    VerificationFits sdk codec v := by
  simp only [verification, run_bind] at h
  obtain ⟨tag, _, -, h⟩ := h
  split at h
  · simp only [run_bind, run_accept, run_pure] at h
    obtain ⟨data, _, hdata, _, _, ⟨hfinish, rfl⟩, anchor, _, ⟨hanchor, rfl⟩, rfl, -⟩ := h
    have hbytes := hcodec.certificate _ _ hanchor
    exact ⟨hbytes.symm ▸ bytes_length_lt hdata, hbytes.symm ▸ hfinish, hbytes.symm ▸ hanchor⟩
  split at h
  · obtain ⟨rfl, -⟩ := run_pure.1 h
    trivial
  · cases h

theorem burnFits_of_read (hcodec : codec.Canonical) {input rest : Bytes} {burn : BridgeBurnWitness}
    (h : bridgeBurn sdk codec input = .ok (burn, rest)) : BurnFits sdk codec burn := by
  simp only [bridgeBurn, run_bind, run_accept, run_pure] at h
  obtain ⟨data, _, hdata, token, _, ⟨htoken, rfl⟩, base, _, hbase, mode, _, hmode, tag, _, -, rfl,
    -⟩ := h
  have hbytes := hcodec.token _ _ htoken
  exact ⟨hbytes.symm ▸ bytes_length_lt hdata, hbytes.symm ▸ htoken,
    trustBaseFits_of_read hcodec hbase, verificationFits_of_read hcodec hmode⟩

/-- **The burns of an input that was read can be written again.** -/
theorem burnFits_of_decode (hcodec : codec.Canonical) {bytes : Bytes} {input : GuestInput}
    (h : decodeGuestInput sdk codec bytes = .ok input) :
    ∀ burn ∈ input.witness.bridgeBurns, BurnFits sdk codec burn := by
  simp only [decodeGuestInput, Lib.bind_eq_ok, Prod.exists, ensure_eq_ok] at h
  obtain ⟨_, _, -, -, -, _, _, -, _, _, -, _, _, -, _, _, -, _, _, -, burns, _, hburns, -, -, h⟩ := h
  split at h
  · cases h
    intro burn hburn
    obtain ⟨before, after, hread⟩ := (vec_eq_ok hburns).2 burn hburn
    exact burnFits_of_read hcodec hread
  · cases h

end RoundTrip

/-- The number of lock references was read as 32 bits. -/
theorem lockRefs_lt_of_decode {bytes : Bytes} {input : GuestInput}
    (h : decodeGuestInput sdk codec bytes = .ok input) : input.sortedLockRefs.length < 2 ^ 32 := by
  simp only [decodeGuestInput, Lib.bind_eq_ok, Prod.exists, ensure_eq_ok] at h
  obtain ⟨_, _, -, -, -, _, _, -, _, _, -, _, _, -, refs, _, hrefs, _, _, -, _, _, -, -, -, h⟩ := h
  split at h
  · cases h
    exact (vec_eq_ok hrefs).1
  · cases h

/-! ## How long an input is -/

theorem consumes_returnLeaf : Consumes returnLeaf 144 :=
  (consumes_array bad 32).bind fun _ => (consumes_array bad 20).bind fun _ =>
    (consumes_array bad 32).bind fun _ => (consumes_array bad 20).bind fun _ =>
      (consumes_array bad 32).bind fun _ => (consumes_u64 bad).bind fun _ => Consumes.pure _

theorem consumes_lockRef : Consumes lockRef 40 :=
  (consumes_u64 bad).bind fun _ => (consumes_array bad 32).bind fun _ => Consumes.pure _

theorem consumes_config : Consumes config 184 :=
  (consumes_u64 bad).bind fun _ => (consumes_array bad 20).bind fun _ =>
    (consumes_array bad 20).bind fun _ => (consumes_array bad 32).bind fun _ =>
      (consumes_array bad 32).bind fun _ => (consumes_u64 bad).bind fun _ =>
        (consumes_array bad 32).bind fun _ => (consumes_array bad 32).bind fun _ => Consumes.pure _

theorem consumes_publicValues : Consumes publicValues 260 :=
  (consumes_array bad 32).bind fun _ => (consumes_array bad 32).bind fun _ =>
    (consumes_array bad 32).bind fun _ => (consumes_array bad 32).bind fun _ =>
      (consumes_array bad 32).bind fun _ => (consumes_array bad 32).bind fun _ =>
        (consumes_array bad 32).bind fun _ => (consumes_u32 bad).bind fun _ =>
          (consumes_array bad 32).bind fun _ => Consumes.pure _

/-- **An input holds the bytes of its leaves and lock references.** -/
theorem length_of_decode {bytes : Bytes} {input : GuestInput}
    (h : decodeGuestInput sdk codec bytes = .ok input) :
    144 * input.returnLeaves.length + 40 * input.sortedLockRefs.length ≤ bytes.length := by
  simp only [decodeGuestInput, Lib.bind_eq_ok, Prod.exists, ensure_eq_ok] at h
  obtain ⟨_, _, hversion, -, -, _, _, hconfig, _, _, hpublic, leaves, _, hleaves, refs, _, hrefs, _, _,
    -, _, _, -, -, -, h⟩ := h
  have hversion := consumes_u32 bad _ _ _ hversion
  have hconfig := consumes_config _ _ _ hconfig
  have hpublic := consumes_publicValues _ _ _ hpublic
  have hleaves := consumes_vec bad consumes_returnLeaf hleaves
  have hrefs := consumes_vec bad consumes_lockRef hrefs
  split at h
  · cases h
    simp only
    omega
  · cases h

end UnicityBridge.Wire
