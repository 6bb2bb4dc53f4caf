import UnicityBridge.GuestBatch
import UnicityBridge.Settlement
import UnicityBridge.Wire

/-!
# The wire format is a bijection

`decode_guest_input` takes exactly the bytes that `encode_guest_input` writes: every part of the input
begins with the encoding of what was read of it, so the whole is the encoding of the result, and nothing
may follow it.
-/

set_option autoImplicit false

namespace UnicityBridge.Wire

open UnicityBridge.Lib UnicityBridge.Lib.Reader
open UnicityBridge.TokenSdk
open UnicityBridge.Core (BridgeCoreError PublicValues ReturnLeaf SourceLockRef)
open UnicityBridge.Accumulator (NullifierTree NonMembershipWitness NonMembershipTerminal SmtProofStep)
open UnicityBridge.Guest (GuestInput BridgeBurnWitness BurnVerification RelationWitness)

/-! ## Fixed parts -/

theorem takes_config : Takes config fun c => some (putConfig c) := by
  intro input c rest h
  simp only [config, run_bind, run_pure] at h
  obtain ⟨chain, _, hchain, vault, _, hvault, asset, _, hasset, tokenType, _, htype, coin, _, hcoin,
    tag, _, htag, lock, _, hlock, nullifier, _, hnullifier, rfl, rfl⟩ := h
  refine ⟨_, rfl, ?_⟩
  rw [u64_eq_ok hchain, array_eq_ok hvault, array_eq_ok hasset, array_eq_ok htype,
    array_eq_ok hcoin, u64_eq_ok htag, array_eq_ok hlock, array_eq_ok hnullifier]
  simp only [putConfig, List.append_assoc]

theorem takes_publicValues : Takes publicValues fun pv => some (putPublicValues pv) := by
  intro input pv rest h
  simp only [publicValues, run_bind, run_pure] at h
  obtain ⟨tag, _, htag, config, _, hconfig, trust, _, htrust, old, _, hold, new, _, hnew, root, _,
    hroot, lock, _, hlock, size, _, hsize, total, _, htotal, rfl, rfl⟩ := h
  refine ⟨_, rfl, ?_⟩
  rw [array_eq_ok htag, array_eq_ok hconfig, array_eq_ok htrust, array_eq_ok hold, array_eq_ok hnew,
    array_eq_ok hroot, array_eq_ok hlock, u32_eq_ok hsize, array_eq_ok htotal]
  simp only [putPublicValues, List.append_assoc]

theorem takes_returnLeaf : Takes returnLeaf fun leaf => some (putReturnLeaf leaf) := by
  intro input leaf rest h
  simp only [returnLeaf, run_bind, run_pure] at h
  obtain ⟨nullifier, _, hnullifier, recipient, _, hrecipient, amount, _, hamount, fee, _, hfee,
    feeAmount, _, hfeeAmount, deadline, _, hdeadline, rfl, rfl⟩ := h
  refine ⟨_, rfl, ?_⟩
  rw [array_eq_ok hnullifier, array_eq_ok hrecipient, array_eq_ok hamount, array_eq_ok hfee,
    array_eq_ok hfeeAmount, u64_eq_ok hdeadline]
  simp only [putReturnLeaf, List.append_assoc]

theorem takes_lockRef : Takes lockRef fun ref => some (putLockRef ref) := by
  intro input ref rest h
  simp only [lockRef, run_bind, run_pure] at h
  obtain ⟨nonce, _, hnonce, digest, _, hdigest, rfl, rfl⟩ := h
  refine ⟨_, rfl, ?_⟩
  rw [u64_eq_ok hnonce, array_eq_ok hdigest, putLockRef, List.append_assoc]

theorem takes_step : Takes step fun s => some (putStep s) := by
  intro input s rest h
  simp only [step, run_bind, run_pure] at h
  obtain ⟨depth, _, hdepth, sibling, _, hsibling, rfl, rfl⟩ := h
  refine ⟨_, rfl, ?_⟩
  rw [u8_eq_ok hdepth, array_eq_ok hsibling, putStep, List.append_assoc]

theorem takes_terminal : Takes terminal fun t => some (putTerminal t) := by
  intro input t rest h
  simp only [terminal, run_bind] at h
  obtain ⟨tag, middle, htag, h⟩ := h
  refine ⟨_, rfl, ?_⟩
  split at h
  · next hzero =>
    obtain ⟨rfl, rfl⟩ := run_pure.1 h
    rw [u8_eq_ok htag, hzero]
    rfl
  · split at h
    · next hone =>
      simp only [run_bind, run_pure] at h
      obtain ⟨key, _, hkey, rfl, rfl⟩ := h
      rw [u8_eq_ok htag, array_eq_ok hkey, hone, putTerminal, List.append_assoc]
    · cases h

theorem takes_accumulatorWitness : Takes accumulatorWitness putAccumulatorWitness := by
  intro input witness rest h
  simp only [accumulatorWitness, run_bind, run_pure] at h
  obtain ⟨t, _, hterminal, steps, _, hsteps, rfl, rfl⟩ := h
  obtain ⟨front, hfront, rfl⟩ := takes_terminal _ _ _ hterminal
  obtain ⟨encoding, hput, rfl⟩ := takes_vec takes_step _ _ _ hsteps
  obtain rfl := Option.some.inj hfront
  refine ⟨putTerminal t ++ encoding, ?_, ?_⟩
  · rw [putAccumulatorWitness, hput]
    rfl
  · rw [List.append_assoc]

/-! ## Parts of the SDK -/

section Sdk

variable {sdk : Sdk} {codec : Codec}

theorem takes_node (hcodec : codec.Canonical) : Takes (node codec) putNode := by
  intro input n rest h
  simp only [node, run_bind, run_accept, run_pure] at h
  obtain ⟨idBytes, _, hid, nodeId, _, ⟨htext, rfl⟩, keyBytes, _, hkey, signingKey, _,
    ⟨hparse, rfl⟩, stake, _, hstake, rfl, rfl⟩ := h
  obtain ⟨idEncoding, hputId, rfl⟩ := takes_bytes _ _ _ hid
  obtain ⟨keyEncoding, hputKey, rfl⟩ := takes_bytes _ _ _ hkey
  refine ⟨idEncoding ++ (keyEncoding ++ putU64 stake), ?_, ?_⟩
  · rw [putNode, textBytes_of_fromUtf8 htext, hcodec.publicKey _ _ hparse, hputId, hputKey]
    rfl
  · rw [u64_eq_ok hstake, List.append_assoc, List.append_assoc]

theorem takes_trustBase (hcodec : codec.Canonical) : Takes (trustBase sdk codec) putTrustBase := by
  intro input t rest h
  simp only [trustBase, run_bind, run_accept] at h
  obtain ⟨version, _, hversion, id, _, hid, network, _, ⟨hnetwork, rfl⟩, epoch, _, hepoch, start, _,
    hstart, nodes, _, hnodes, threshold, _, hthreshold, h⟩ := h
  split at h
  · obtain ⟨rfl, rfl⟩ := run_pure.1 h
    obtain ⟨encoding, hput, rfl⟩ := takes_vec (takes_node hcodec) _ _ _ hnodes
    refine ⟨putU64 version ++ (putU16 network.id ++ (putU64 epoch ++
      (putU64 start ++ (encoding ++ putU64 threshold)))), ?_, ?_⟩
    · rw [putTrustBase, hput]
      rfl
    · rw [u64_eq_ok hversion, u16_eq_ok hid, u64_eq_ok hepoch, u64_eq_ok hstart,
        u64_eq_ok hthreshold, hcodec.networkId _ _ hnetwork]
      simp only [List.append_assoc]
  · cases h

theorem takes_verification (hcodec : codec.Canonical) :
    Takes (verification sdk codec) (putVerification codec) := by
  intro input v rest h
  simp only [verification, run_bind] at h
  obtain ⟨tag, _, htag, h⟩ := h
  split at h
  · next hzero =>
    simp only [run_bind, run_accept, run_pure] at h
    obtain ⟨data, _, hdata, _, _, ⟨-, rfl⟩, anchor, _, ⟨hanchor, rfl⟩, rfl, rfl⟩ := h
    obtain ⟨encoding, hput, rfl⟩ := takes_bytes _ _ _ hdata
    refine ⟨[0] ++ encoding, ?_, ?_⟩
    · rw [putVerification, hcodec.certificate _ _ hanchor, hput]
      rfl
    · rw [u8_eq_ok htag, hzero, List.append_assoc]
  · split at h
    · next hone =>
      obtain ⟨rfl, rfl⟩ := run_pure.1 h
      exact ⟨[1], rfl, by rw [u8_eq_ok htag, hone]⟩
    · cases h

theorem takes_bridgeBurn (hcodec : codec.Canonical) :
    Takes (bridgeBurn sdk codec) (putBridgeBurn codec) := by
  intro input burn rest h
  simp only [bridgeBurn, run_bind, run_accept, run_pure] at h
  obtain ⟨data, _, hdata, token, _, ⟨htoken, rfl⟩, base, _, hbase, mode, _, hmode, tag, _, htag, rfl,
    rfl⟩ := h
  obtain ⟨tokenEncoding, hputToken, rfl⟩ := takes_bytes _ _ _ hdata
  obtain ⟨baseEncoding, hputBase, rfl⟩ := takes_trustBase hcodec _ _ _ hbase
  obtain ⟨modeEncoding, hputMode, rfl⟩ := takes_verification hcodec _ _ _ hmode
  refine ⟨tokenEncoding ++ (baseEncoding ++ (modeEncoding ++ putU64 tag)), ?_, ?_⟩
  · rw [putBridgeBurn, hcodec.token _ _ htoken, hputToken, hputBase, hputMode]
    rfl
  · rw [u64_eq_ok htag]
    simp only [List.append_assoc]

/-! ## The whole input -/

/-- What was decoded is written as the bytes it was decoded from. -/
theorem encode_of_decode (hcodec : codec.Canonical) {bytes : Bytes} {input : GuestInput}
    (h : decodeGuestInput sdk codec bytes = .ok input) : encodeGuestInput codec input = some bytes := by
  simp only [decodeGuestInput, Lib.bind_eq_ok, Prod.exists, ensure_eq_ok] at h
  obtain ⟨version, _, hversion, _, hsame, c, _, hconfig, pv, _, hvalues, leaves, _, hleaves, refs, _,
    hrefs, witnesses, _, hwitnesses, burns, rest, hburns, _, hrest, h⟩ := h
  subst hsame hrest
  split at h
  · cases h
    obtain ⟨configBytes, hputConfig, rfl⟩ := takes_config _ _ _ hconfig
    obtain ⟨valueBytes, hputValues, rfl⟩ := takes_publicValues _ _ _ hvalues
    obtain ⟨leafBytes, hputLeaves, rfl⟩ := takes_vec takes_returnLeaf _ _ _ hleaves
    obtain ⟨refBytes, hputRefs, rfl⟩ := takes_vec takes_lockRef _ _ _ hrefs
    obtain ⟨witnessBytes, hputWitnesses, rfl⟩ :=
      takes_vec takes_accumulatorWitness _ _ _ hwitnesses
    obtain ⟨burnBytes, hputBurns, rfl⟩ := takes_vec (takes_bridgeBurn hcodec) _ _ _ hburns
    obtain rfl := Option.some.inj hputConfig
    obtain rfl := Option.some.inj hputValues
    rw [encodeGuestInput, hputLeaves, hputRefs, hputWitnesses, hputBurns, u32_eq_ok hversion]
    simp
  · cases h

/-- Every vector of the input, and every text and encoding in it, is shorter than 2^32. The number of
leaves is bounded by the type of the input. -/
structure Short (codec : Codec) (input : GuestInput) : Prop where
  lockRefs : input.sortedLockRefs.length < 2 ^ 32
  witnesses : input.witness.accumulatorWitnesses.length < 2 ^ 32
  steps : ∀ witness ∈ input.witness.accumulatorWitnesses, witness.steps.length < 2 ^ 32
  burns : input.witness.bridgeBurns.length < 2 ^ 32
  token : ∀ burn ∈ input.witness.bridgeBurns, (codec.tokenToCbor burn.token).length < 2 ^ 32
  anchor : ∀ burn ∈ input.witness.bridgeBurns, ∀ anchor, burn.verification = .anchored anchor →
    (codec.certificateToCbor anchor).length < 2 ^ 32
  nodes : ∀ burn ∈ input.witness.bridgeBurns, burn.trustBase.rootNodes.length < 2 ^ 32
  nodeId : ∀ burn ∈ input.witness.bridgeBurns, ∀ node ∈ burn.trustBase.rootNodes,
    (textBytes node.nodeId).length < 2 ^ 32
  signingKey : ∀ burn ∈ input.witness.bridgeBurns, ∀ node ∈ burn.trustBase.rootNodes,
    node.signingKey.bytes.length < 2 ^ 32

/-- The tokens, certificates, keys and network ids of the input are values of the SDK: each is what the
SDK's decoder makes of some bytes. -/
structure SdkValues (sdk : Sdk) (codec : Codec) (input : GuestInput) : Prop where
  token : ∀ burn ∈ input.witness.bridgeBurns, ∃ bytes, codec.tokenFromCbor bytes = some burn.token
  anchor : ∀ burn ∈ input.witness.bridgeBurns, ∀ anchor, burn.verification = .anchored anchor →
    ∃ bytes, sdk.finish bytes = some () ∧ codec.certificateFromCbor bytes = some anchor
  networkId : ∀ burn ∈ input.witness.bridgeBurns, ∃ id, codec.networkId id = some burn.trustBase.networkId
  signingKey : ∀ burn ∈ input.witness.bridgeBurns, ∀ node ∈ burn.trustBase.rootNodes,
    ∃ bytes, codec.publicKeyFromBytes bytes = some node.signingKey

/-- Such an input fits the wire: a canonical decoder takes back what its encoder writes of a value that
it once returned. -/
theorem inputFits_of_short (hcodec : codec.Canonical) {input : GuestInput} (hshort : Short codec input)
    (hvalues : SdkValues sdk codec input)
    (hvalid : ∀ burn ∈ input.witness.bridgeBurns, sdk.trustBaseValid burn.trustBase = true) :
    InputFits sdk codec input := by
  refine ⟨hshort.lockRefs, hshort.witnesses, hshort.steps, hshort.burns, fun burn hburn => ?_⟩
  obtain ⟨bytes, htoken⟩ := hvalues.token burn hburn
  obtain ⟨id, hid⟩ := hvalues.networkId burn hburn
  refine ⟨hshort.token burn hburn, ?_, ⟨?_, hshort.nodes burn hburn, fun node hnode => ?_,
    hvalid burn hburn⟩, ?_⟩
  · rw [hcodec.token _ _ htoken]
    exact htoken
  · rw [hcodec.networkId _ _ hid]
    exact hid
  · obtain ⟨key, hkey⟩ := hvalues.signingKey burn hburn node hnode
    refine ⟨hshort.nodeId burn hburn node hnode, hshort.signingKey burn hburn node hnode, ?_⟩
    rw [hcodec.publicKey _ _ hkey]
    exact hkey
  · cases hmode : burn.verification with
    | certified => trivial
    | anchored anchor =>
        obtain ⟨data, hfinish, hanchor⟩ := hvalues.anchor burn hburn anchor hmode
        have hbytes := hcodec.certificate _ _ hanchor
        exact ⟨hshort.anchor burn hburn anchor hmode, hbytes.symm ▸ hfinish, hbytes.symm ▸ hanchor⟩

/-- What is decoded fits the wire. -/
theorem inputFits_of_decode (hcodec : codec.Canonical) {bytes : Bytes} {input : GuestInput}
    (h : decodeGuestInput sdk codec bytes = .ok input) : InputFits sdk codec input := by
  have hburns := burnFits_of_decode hcodec h
  have hrefs := lockRefs_lt_of_decode sdk codec h
  simp only [decodeGuestInput, Lib.bind_eq_ok, Prod.exists, ensure_eq_ok] at h
  obtain ⟨_, _, -, _, -, _, _, -, _, _, -, _, _, -, _, _, -, witnesses, _, hwitnesses, burns, _, hread,
    _, -, h⟩ := h
  split at h
  · cases h
    obtain ⟨hlength, hall⟩ := vec_eq_ok hwitnesses
    refine ⟨hrefs, hlength, fun witness hwitness => ?_, (vec_eq_ok hread).1, hburns⟩
    obtain ⟨before, after, hone⟩ := hall witness hwitness
    simp only [accumulatorWitness, run_bind, run_pure] at hone
    obtain ⟨_, _, -, steps, _, hsteps, rfl, -⟩ := hone
    exact (vec_eq_ok hsteps).1
  · cases h

/-- Nothing may follow an encoding. -/
theorem decode_append {input : GuestInput} (h : InputFits sdk codec input) {bytes extra : Bytes}
    (hbytes : encodeGuestInput codec input = some bytes) (hextra : extra ≠ []) :
    decodeGuestInput sdk codec (bytes ++ extra) = .error bad := by
  obtain ⟨leaves, hleaves, hreadLeaves⟩ := inverts_vec bad input.leaves_lt
    (fun l _ => (⟨_, rfl, reads_returnLeaf l⟩ : Inverts returnLeaf (fun l => some (putReturnLeaf l)) l))
  obtain ⟨refs, hrefs, hreadRefs⟩ := inverts_vec bad h.lockRefs
    (fun r _ => (⟨_, rfl, reads_lockRef r⟩ : Inverts lockRef (fun r => some (putLockRef r)) r))
  obtain ⟨witnesses, hwitnesses, hreadWitnesses⟩ := inverts_vec bad h.witnesses
    fun w hw => inverts_accumulatorWitness (h.steps w hw)
  obtain ⟨burns, hburns, hreadBurns⟩ := inverts_vec bad h.burns
    fun b hb => inverts_bridgeBurn (h.burn b hb)
  rw [encodeGuestInput, hleaves, hrefs, hwitnesses, hburns] at hbytes
  obtain rfl := Option.some.inj hbytes
  simp only [List.append_assoc, decodeGuestInput, reads_u32 bad WIRE_VERSION _,
    reads_config input.config _, reads_publicValues input.publicValues _, hreadLeaves _, hreadRefs _,
    hreadWitnesses _, hreadBurns _, ensure, if_neg hextra, if_true, bind, Except.bind]

/-- **The wire codec.** An input of SDK values with valid trust bases and vectors shorter than 2^32 is
written, and what is written is read back; and whatever is accepted is the encoding of the result, so no
two byte strings give one input and nothing may follow an accepted one. -/
theorem wire_codec (hcodec : codec.Canonical) :
    (∀ input, Short codec input → SdkValues sdk codec input →
        (∀ burn ∈ input.witness.bridgeBurns, sdk.trustBaseValid burn.trustBase = true) →
        ∃ bytes, encodeGuestInput codec input = some bytes ∧
          decodeGuestInput sdk codec bytes = .ok input) ∧
      ∀ bytes input, decodeGuestInput sdk codec bytes = .ok input →
        encodeGuestInput codec input = some bytes ∧
          (∀ bytes', decodeGuestInput sdk codec bytes' = .ok input → bytes' = bytes) ∧
          ∀ extra, extra ≠ [] → decodeGuestInput sdk codec (bytes ++ extra) = .error bad := by
  refine ⟨fun input hshort hvalues hvalid =>
    decode_encode (inputFits_of_short hcodec hshort hvalues hvalid), fun bytes input h => ?_⟩
  have hencode := encode_of_decode hcodec h
  refine ⟨hencode, fun bytes' h' => ?_, fun extra hextra =>
    decode_append (inputFits_of_decode hcodec h) hencode hextra⟩
  exact Option.some.inj ((encode_of_decode hcodec h').symm.trans hencode)

end Sdk

/-! ## The burn of one coin -/

namespace Sample

open Guest.Sample (Coin sdk trustBaseHash part witness leaf obligation token word)

/-- The coins, in the order of their numbers. -/
def coins : List Coin := [.whole, .source, .left, .right]

/-- The coin with this token. -/
def coinOf (t : TokenSdk.Token) : Option Coin := coins.find? fun coin => token coin = t

/-- The coin with this number. -/
def coinAt (bytes : Bytes) : Option Coin := coins.find? fun coin => bytes = [coin.number]

/-- A token is written as the number of its coin, and other values have no encoding. -/
def codec : Codec where
  tokenToCbor t := ((coinOf t).map fun coin => [coin.number]).getD []
  tokenFromCbor bytes := (coinAt bytes).map token
  certificateToCbor _ := []
  certificateFromCbor _ := none
  publicKeyFromBytes bytes := some ⟨bytes⟩
  networkId id := some ⟨id⟩

/-- Tokens of different coins differ in the salt of their mint. -/
theorem token_inj {coin other : Coin} (h : token coin = token other) : coin = other := by
  have hsalt : word coin.number = word other.number :=
    congrArg (fun t : TokenSdk.Token => t.genesis.transaction.salt) h
  have hhead := congrArg (fun value : Bytes32 => value.toList.head?) hsalt
  cases coin <;> cases other <;> first | rfl | exact absurd hhead (by decide)

theorem coinOf_token (coin : Coin) : coinOf (token coin) = some coin := by
  have hmem : coin ∈ coins := by
    cases coin <;> simp [coins]
  cases hfind : coinOf (token coin) with
  | none =>
      have hnone := List.find?_eq_none.1 hfind coin hmem
      simp at hnone
  | some other =>
      have hsame : token other = token coin := by
        simpa using List.find?_some hfind
      rw [token_inj hsame]

/-- What is read of a coin's number is written as that number. -/
theorem coinAt_number (coin : Coin) : coinAt [coin.number] = some coin := by
  cases coin <;> rfl

theorem tokenToCbor_token (coin : Coin) : codec.tokenToCbor (token coin) = [coin.number] := by
  show ((coinOf (token coin)).map fun coin => [coin.number]).getD [] = _
  rw [coinOf_token]
  rfl

theorem tokenFromCbor_number (coin : Coin) :
    codec.tokenFromCbor [coin.number] = some (token coin) := by
  show (coinAt [coin.number]).map token = _
  rw [coinAt_number, Option.map_some]

theorem codec_canonical : codec.Canonical where
  token := by
    intro bytes t h
    obtain ⟨coin, hcoin, rfl⟩ := Option.map_eq_some_iff.1 h
    have hbytes : bytes = [coin.number] := by
      simpa using List.find?_some hcoin
    rw [tokenToCbor_token, hbytes]
  certificate := by
    intro bytes certificate h
    cases h
  publicKey := by
    intro bytes key h
    obtain rfl := Option.some.inj h
    rfl
  networkId := by
    intro id network h
    obtain rfl := Option.some.inj h
    rfl

/-- The burn of a coin can be written and read back. -/
theorem burnFits (coin : Coin) : BurnFits sdk codec (witness coin) where
  length := by
    show (codec.tokenToCbor (token coin)).length < _
    rw [tokenToCbor_token]
    exact (by decide : 1 < 2 ^ 32)
  token := by
    show codec.tokenFromCbor (codec.tokenToCbor (token coin)) = some (token coin)
    rw [tokenToCbor_token, tokenFromCbor_number]
  trustBase := by
    show TrustBaseFits sdk codec Guest.Sample.trustBase
    refine ⟨rfl, by decide, fun n hn => ?_, rfl⟩
    obtain rfl := List.mem_singleton.1 hn
    exact ⟨by decide, by decide, rfl⟩
  verification := trivial

/-- The batch of some coins can be written and read back, on an accumulator without them. -/
theorem batchFits {spent : NullifierTree} {coins : List Coin}
    (hshort : (coins.map part).length < 2 ^ 32)
    (hnew : (spent.keys ++ Guest.nullifiersOf (coins.map part)).Nodup) :
    InputFits sdk codec (Guest.batchOn sdk Guest.Sample.config trustBaseHash spent (coins.map part) hshort) := by
  obtain ⟨hlength, hroots, -⟩ :=
    Accumulator.orderedInsertWitnesses_ok sdk.sha256 (Guest.insertion_ok hnew)
  obtain ⟨-, hsteps⟩ := Settlement.foldlM_replayInsert sdk.sha256 hlength hroots
  rw [Guest.nullifiersOf, List.length_map] at hlength
  constructor
  · have hone : ∀ coin ∈ coins, (part coin).refs.length = 1 := fun _ _ => rfl
    show (Guest.sortByNonce ((coins.map part).flatMap Guest.Part.refs)).length < _
    rw [(Guest.sortByNonce_perm _).length_eq, List.flatMap_map, List.length_flatMap,
      List.map_congr_left hone]
    simpa using hshort
  · exact hlength ▸ hshort
  · exact fun w hw => lt_of_le_of_lt (hsteps w hw) (by decide)
  · show ((coins.map part).map Guest.Part.burn).length < _
    rw [List.length_map]
    exact hshort
  · intro b hb
    obtain ⟨p, hp, rfl⟩ := List.mem_map.1 hb
    obtain ⟨coin, -, rfl⟩ := List.mem_map.1 hp
    exact burnFits coin

/-- The locks behind one coin. -/
def refs (coin : Coin) : List SourceLockRef := [Guest.toLockRef (obligation coin)]

theorem one_lt (coin : Coin) : [part coin].length < 2 ^ 32 :=
  Nat.one_lt_two_pow (by decide)

/-- The burn of a coin in a batch of its own, on an empty vault. -/
def input (coin : Coin) : GuestInput :=
  let batch := Guest.batchOn sdk Guest.Sample.config trustBaseHash .new [part coin] (one_lt coin)
  { batch with
    sortedLockRefs := refs coin
    publicValues := { batch.publicValues with
      lockRefRoot := sdk.keccak256 ((refs coin).flatMap Core.refWords) } }

theorem input_eq (coin : Coin) :
    input coin =
      Guest.batchOn sdk Guest.Sample.config trustBaseHash .new [part coin] (one_lt coin) := by
  have hsorted : Guest.sortByNonce ([part coin].flatMap Guest.Part.refs) = refs coin :=
    List.mergeSort_singleton _
  rw [input, ← hsorted]
  rfl

/-- Every coin but the source can be returned in a batch of its own. -/
theorem input_accepted {coin : Coin} (hreturned : coin ≠ .source) :
    Guest.execute sdk (input coin) = .ok (input coin).publicValues := by
  rw [input_eq]
  refine Guest.execute_batchOn _ (List.cons_ne_nil _ _) (List.nodup_singleton _) ?_ ?_
  · intro p hp
    obtain rfl := List.mem_singleton.1 hp
    exact Guest.Sample.accepted_alone hreturned
  · exact List.pairwise_singleton _ _

theorem inputFits (coin : Coin) : InputFits sdk codec (input coin) := by
  rw [input_eq]
  exact @batchFits .new [coin] _ (List.nodup_singleton _)

/-- The stored input of a burn. -/
def wire (coin : Coin) : Bytes := (encodeGuestInput codec (input coin)).getD []

theorem encode_input (coin : Coin) :
    encodeGuestInput codec (input coin) = some (wire coin) ∧
      decodeGuestInput sdk codec (wire coin) = .ok (input coin) := by
  obtain ⟨bytes, hencode, hdecode⟩ := decode_encode (inputFits coin)
  have hwire : wire coin = bytes := by
    rw [wire, hencode]
    rfl
  exact ⟨hwire ▸ hencode, hwire ▸ hdecode⟩

end Sample

/-- A batch of two burns is written and read back, and its bytes are its only encoding. -/
theorem wire_codec_sample :
    ∃ bytes, encodeGuestInput Sample.codec (Guest.Sample.input .first) = some bytes ∧
      decodeGuestInput Guest.Sample.sdk Sample.codec bytes = .ok (Guest.Sample.input .first) ∧
      ∀ other, decodeGuestInput Guest.Sample.sdk Sample.codec other =
        .ok (Guest.Sample.input .first) → other = bytes := by
  have hfits : InputFits Guest.Sample.sdk Sample.codec (Guest.Sample.input .first) := by
    rw [Guest.Sample.input_eq]
    exact Sample.batchFits _ (Guest.Sample.input_new .first)
  obtain ⟨hwrites, hreads⟩ := @wire_codec Guest.Sample.sdk _ Sample.codec_canonical
  have hencodes := hwrites _ ?_ ?_ fun b hb => (hfits.burn b hb).trustBase.valid
  · obtain ⟨bytes, hencode, hdecode⟩ := hencodes
    exact ⟨bytes, hencode, hdecode, (hreads _ _ hdecode).2.1⟩
  · constructor
    · exact hfits.lockRefs
    · exact hfits.witnesses
    · exact hfits.steps
    · exact hfits.burns
    · exact fun b hb => (hfits.burn b hb).length
    · intro b hb anchor hanchor
      have hmode := (hfits.burn b hb).verification
      rw [hanchor] at hmode
      exact hmode.1
    · exact fun b hb => (hfits.burn b hb).trustBase.rootNodes
    · exact fun b hb n hn => ((hfits.burn b hb).trustBase.nodes n hn).nodeId
    · exact fun b hb n hn => ((hfits.burn b hb).trustBase.nodes n hn).signingKey
  · constructor
    · exact fun b hb => ⟨_, (hfits.burn b hb).token⟩
    · intro b hb anchor hanchor
      have hmode := (hfits.burn b hb).verification
      rw [hanchor] at hmode
      exact ⟨_, hmode.2⟩
    · exact fun b hb => ⟨_, (hfits.burn b hb).trustBase.networkId⟩
    · exact fun b hb n hn => ⟨_, ((hfits.burn b hb).trustBase.nodes n hn).key⟩

end UnicityBridge.Wire
