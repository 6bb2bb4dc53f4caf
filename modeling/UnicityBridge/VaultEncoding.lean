import UnicityBridge.Bridge
import UnicityBridge.Vault

/-!
# The vault and the circuit encode alike

The vault's leaves, lock references and public values against those of the circuit: the same words
under the same hashes, and `abi.decode` reads back what the circuit encodes.
-/

set_option autoImplicit false

namespace UnicityBridge.Vault

open UnicityBridge.Lib UnicityBridge.Lib.Exec
open UnicityBridge.Core (Address BridgeConfig)

/-- The circuit's leaf. -/
def toCore (l : ReturnLeaf) : Core.ReturnLeaf where
  nullifier := l.nullifier
  recipient := l.recipient
  amount := Abi.word256 l.amount
  feeRecipient := l.feeRecipient
  feeAmount := Abi.word256 l.feeAmount
  deadline := l.deadline

/-- The vault's leaf. -/
def ofCore (leaf : Core.ReturnLeaf) : ReturnLeaf where
  nullifier := leaf.nullifier
  recipient := leaf.recipient
  amount := Abi.uint256 leaf.amount
  feeRecipient := leaf.feeRecipient
  feeAmount := Abi.uint256 leaf.feeAmount
  deadline := leaf.deadline

@[simp] theorem toCore_ofCore (leaf : Core.ReturnLeaf) : toCore (ofCore leaf) = leaf := by
  simp [toCore, ofCore]

@[simp] theorem ofCore_toCore (l : ReturnLeaf) : ofCore (toCore l) = l := by
  simp [toCore, ofCore]

/-- The vault's lock reference. -/
def refOfCore (lockRef : Core.SourceLockRef) : SourceLockRef where
  nonce := BitVec.ofNat 256 lockRef.nonce.toNat
  digest := lockRef.digest

/-- The vault's public values. -/
def publicValuesOfCore (pv : Core.PublicValues) : PublicValues where
  domainTag := pv.domainTag
  configHash := pv.configHash
  trustBaseHash := pv.trustBaseHash
  spentRootOld := pv.spentRootOld
  spentRootNew := pv.spentRootNew
  returnRoot := pv.returnRoot
  lockRefRoot := pv.lockRefRoot
  batchSize := pv.batchSize
  totalAmount := Abi.uint256 pv.totalAmount

theorem encodeWords_map (values : List Core.Val) :
    BridgeEncoding.encodeWords (values.map Core.Val.word) = Core.packWords values := by
  rw [BridgeEncoding.encodeWords, List.flatMap_map, Core.packWords]

/-- A text in front of static values. -/
theorem encodeText_map (text : Bytes) {values : List Core.Val}
    (h : ∀ value ∈ values, value.isDynamic = false) :
    BridgeEncoding.encodeText text (values.map Core.Val.word) =
      Core.encode (.str text :: values) := by
  rw [BridgeEncoding.encodeText, encodeWords_map, List.length_map, Core.encode_str_cons text h,
    Core.textTail, Abi.bytesTail, List.append_assoc (Core.wordNat text.length).toList]
  rfl

/-- Behind a text, the encoding determines the words. -/
theorem encodeText_inj {text : Bytes} {words words' : List Bytes32}
    (hlen : words.length = words'.length)
    (h : BridgeEncoding.encodeText text words = BridgeEncoding.encodeText text words') :
    words = words' := by
  have hwords : ∀ ws : List Bytes32, (ws.map Core.Val.b32).map Core.Val.word = ws := by
    intro ws
    rw [List.map_map]
    exact List.map_id ws
  have hstatic : ∀ ws : List Bytes32, ∀ value ∈ ws.map Core.Val.b32, value.isDynamic = false := by
    simp [Core.Val.isDynamic]
  rw [← hwords words, ← hwords words', encodeText_map text (hstatic words),
    encodeText_map text (hstatic words')] at h
  rw [← hwords words, ← hwords words']
  exact Core.encode_str_cons_inj (hstatic words) (hstatic words') (by simpa using hlen) h

/-- **One config, one config hash.** -/
theorem configHash_eq (keccak256 : Bytes → Bytes32) (config : BridgeConfig) :
    BridgeEncoding.configHash keccak256 config = Core.configHash keccak256 config := by
  have hstatic : ∀ value ∈ ([.u64 config.sourceChainId, .addr config.vault, .addr config.asset,
      .b32 config.tokenType, .b32 config.coinId, .u64 config.reasonTag, .b32 config.lockDomain,
      .b32 config.nullifierDomain] : List Core.Val), value.isDynamic = false := by
    simp [Core.Val.isDynamic]
  have htext := encodeText_map Core.DOMAIN_CONFIG hstatic
  simp only [List.map_cons, List.map_nil, Core.Val.word, Core.wordU64, Core.wordNat] at htext
  rw [Core.configHash, ← htext]
  rfl

/-- **The digest a lock stores is the one the circuit derives from the mint.** -/
theorem lockDigest_eq (sdk : TokenSdk.Sdk) (config : Bridge.BridgeConfig) (nonce : UInt64)
    (amount : Word) (tokenId recipientCommitment : Bytes32) :
    BridgeEncoding.lockDigest sdk.keccak256 config.sourceChainId config.vault
        (BitVec.ofNat 256 nonce.toNat) config.asset config.tokenType config.coinId amount tokenId
        recipientCommitment =
      Bridge.lockDigest sdk config nonce (Abi.word256 amount) tokenId recipientCommitment := by
  have hstatic : ∀ value ∈ ([.u64 config.sourceChainId, .addr config.vault,
      .u256 (Core.u256FromU64 nonce), .addr config.asset, .b32 config.tokenType, .b32 config.coinId,
      .u256 (Abi.word256 amount), .b32 tokenId, .b32 recipientCommitment] : List Core.Val),
      value.isDynamic = false := by
    simp [Core.Val.isDynamic]
  have hnonce : Abi.word256 (BitVec.ofNat 256 nonce.toNat) = Core.u256FromU64 nonce := by
    have hlt : nonce.toNat < 2 ^ 256 := lt_of_lt_of_le nonce.toNat_lt
      (Nat.pow_le_pow_right (by decide) (by decide))
    rw [Abi.word256, BitVec.toNat_ofNat, Nat.mod_eq_of_lt hlt]
    rfl
  have htext := encodeText_map Core.DOMAIN_LOCK hstatic
  simp only [List.map_cons, List.map_nil, Core.Val.word, Core.wordU64, Core.wordNat] at htext
  rw [Bridge.lockDigest, Bridge.lockInput, ← htext, BridgeEncoding.lockDigest, hnonce]
  rfl

theorem leafWords_toCore (l : ReturnLeaf) :
    BridgeEncoding.encodeWords (BridgeEncoding.leafWords l) = Core.leafWords (toCore l) := by
  rw [Core.leafWords, ← encodeWords_map]
  rfl

theorem leavesInput_eq (leaves : List ReturnLeaf) :
    BridgeEncoding.leavesInput leaves = (leaves.map toCore).flatMap Core.leafWords := by
  rw [BridgeEncoding.leavesInput, List.flatMap_map]
  exact List.flatMap_congr fun l _ => leafWords_toCore l

/-- **Equal return roots mean equal leaves**, as far as the hash is injective on their bytes. -/
theorem leaves_of_leavesInput {leaves : List ReturnLeaf} {returnLeaves : List Core.ReturnLeaf}
    (h : BridgeEncoding.leavesInput leaves = returnLeaves.flatMap Core.leafWords) :
    leaves = returnLeaves.map ofCore := by
  rw [leavesInput_eq] at h
  rw [← Core.leaves_inj h, List.map_map]
  have hid : (ofCore ∘ toCore) = id := funext ofCore_toCore
  rw [hid, List.map_id]

/-- The words of the public values. -/
def publicWords (pv : Core.PublicValues) : List Bytes32 :=
  [pv.domainTag, pv.configHash, pv.trustBaseHash, pv.spentRootOld, pv.spentRootNew, pv.returnRoot,
    pv.lockRefRoot, ByteArr.ofNat 32 pv.batchSize.toNat, pv.totalAmount]

theorem publicValuesAbi_eq (pv : Core.PublicValues) :
    Core.publicValuesAbi pv = (publicWords pv).flatMap fun word => word.toList := by
  have hstatic : ∀ value ∈ ([.b32 pv.domainTag, .b32 pv.configHash, .b32 pv.trustBaseHash,
      .b32 pv.spentRootOld, .b32 pv.spentRootNew, .b32 pv.returnRoot, .b32 pv.lockRefRoot,
      .u32 pv.batchSize, .u256 pv.totalAmount] : List Core.Val), value.isDynamic = false := by
    simp [Core.Val.isDynamic]
  rw [Core.publicValuesAbi, Core.encode_static hstatic, ← encodeWords_map]
  rfl

theorem publicValuesAbi_length (pv : Core.PublicValues) : (Core.publicValuesAbi pv).length = 288 := by
  have hnine : (publicWords pv).length = 9 := rfl
  rw [publicValuesAbi_eq, List.flatMap_def, Abi.flatten_length fun w => List.Vector.toList_length w,
    hnine]

/-- **`abi.decode` reads back what the circuit encodes**, whatever follows it. -/
theorem decodePublicValues_abi (pv : Core.PublicValues) (suffix : Bytes) :
    decodePublicValues (Core.publicValuesAbi pv ++ suffix) = some (publicValuesOfCore pv) := by
  have hlen : ¬ (Core.publicValuesAbi pv ++ suffix).length < 288 := by
    rw [List.length_append, publicValuesAbi_length]
    omega
  have hload : ∀ (index : Nat) (word : Bytes32), (publicWords pv)[index]? = some word →
      Abi.load (Core.publicValuesAbi pv ++ suffix) (32 * index) = word := by
    intro index word hword
    rw [publicValuesAbi_eq]
    exact Abi.load_flatMap hword
  have hsize : Abi.readUint 32 (ByteArr.ofNat 32 pv.batchSize.toNat) = some pv.batchSize.toNat :=
    Abi.readUint_ofNat (by decide) pv.batchSize.toNat_lt
  rw [decodePublicValues, if_neg hlen, hload 7 _ rfl, hsize, hload 0 _ rfl, hload 1 _ rfl,
    hload 2 _ rfl, hload 3 _ rfl, hload 4 _ rfl, hload 5 _ rfl, hload 6 _ rfl, hload 8 _ rfl]
  simp [publicValuesOfCore]

/-! ## Calldata -/

/-- The calldata of `fulfillBatch` for what the circuit returned. -/
def fulfillCalldata (publicValues proof : Bytes) (leaves : List Core.ReturnLeaf)
    (lockRefs : List Core.SourceLockRef) : Bytes :=
  Abi.encodeDynamic [Abi.bytesTail publicValues, Abi.bytesTail proof,
    Abi.arrayTail (leaves.map Core.leafWords), Abi.arrayTail (lockRefs.map Core.refWords)]

/-- Reading the words of an encoding. -/
theorem load_packWords {values : List Core.Val} {index : Nat} {value : Core.Val}
    (h : values[index]? = some value) :
    Abi.load (Core.packWords values) (32 * index) = value.word := by
  have hwords : Core.packWords values =
      (values.map Core.Val.word).flatMap (fun word => word.toList) ++ [] := by
    rw [List.append_nil, ← encodeWords_map]
    rfl
  rw [hwords]
  refine Abi.load_flatMap ?_
  rw [List.getElem?_map, h]
  rfl

theorem decodeLeaf_leafWords (leaf : Core.ReturnLeaf) :
    decodeLeaf (Core.leafWords leaf) = some (ofCore leaf) := by
  have hload : ∀ (index : Nat) (value : Core.Val),
      ([.b32 leaf.nullifier, .addr leaf.recipient, .u256 leaf.amount, .addr leaf.feeRecipient,
        .u256 leaf.feeAmount, .u64 leaf.deadline] : List Core.Val)[index]? = some value →
      Abi.load (Core.leafWords leaf) (32 * index) = value.word := fun _ _ => load_packWords
  have haddress : ∀ address, Abi.readAddress (Core.Val.addr address).word = some address :=
    Abi.readAddress_wordAddress
  have hdeadline : Abi.readUint 64 (Core.Val.u64 leaf.deadline).word = some leaf.deadline.toNat :=
    Abi.readUint_ofNat (by decide) leaf.deadline.toNat_lt
  rw [decodeLeaf, hload 0 _ rfl, hload 1 _ rfl, hload 2 _ rfl, hload 3 _ rfl, hload 4 _ rfl,
    hload 5 _ rfl, haddress, haddress, hdeadline]
  simp [ofCore, Core.Val.word]

theorem decodeLockRef_refWords (lockRef : Core.SourceLockRef) :
    decodeLockRef (Core.refWords lockRef) = some (refOfCore lockRef) := by
  have hload : ∀ (index : Nat) (value : Core.Val),
      ([.u256 (Core.u256FromU64 lockRef.nonce), .b32 lockRef.digest] :
        List Core.Val)[index]? = some value →
      Abi.load (Core.refWords lockRef) (32 * index) = value.word := fun _ _ => load_packWords
  have hnonce : (Core.u256FromU64 lockRef.nonce).toNat = lockRef.nonce.toNat := by
    refine ByteArr.toNat_ofNat (lt_of_lt_of_le lockRef.nonce.toNat_lt ?_)
    rw [Abi.pow_word]
    exact Nat.pow_le_pow_right (by decide) (by decide)
  rw [decodeLockRef, hload 0 _ rfl, hload 1 _ rfl]
  simp only [Core.Val.word, Abi.uint256, hnonce, refOfCore]

theorem refWords_length (lockRef : Core.SourceLockRef) : (Core.refWords lockRef).length = 64 := by
  rw [Core.refWords, Core.packWords_length]
  rfl

theorem fulfillCalldata_length_le (publicValues proof : Bytes) (leaves : List Core.ReturnLeaf)
    (lockRefs : List Core.SourceLockRef) :
    (fulfillCalldata publicValues proof leaves lockRefs).length ≤
      publicValues.length + proof.length + leaves.length * 192 + lockRefs.length * 64 + 318 := by
  have hpublic := Abi.bytesTail_length_le publicValues
  have hproof := Abi.bytesTail_length_le proof
  rw [fulfillCalldata, Abi.encodeDynamic, List.length_append, Abi.headsFrom_length]
  simp only [List.flatten_cons, List.flatten_nil, List.length_append, List.length_cons,
    List.length_nil, Abi.arrayTail_length Core.leafWords_length, Abi.arrayTail_length refWords_length]
  omega

/-- **The vault decodes the calldata to the values it encodes.** -/
theorem decodeFulfillBatch_calldata {publicValues proof : Bytes} {leaves : List Core.ReturnLeaf}
    {lockRefs : List Core.SourceLockRef}
    (hsize : (fulfillCalldata publicValues proof leaves lockRefs).length < 2 ^ 64) :
    decodeFulfillBatch (fulfillCalldata publicValues proof leaves lockRefs) =
      some ⟨publicValues, proof, leaves.map ofCore, lockRefs.map refOfCore⟩ := by
  have hlen : ¬ (fulfillCalldata publicValues proof leaves lockRefs).length < 128 := by
    rw [fulfillCalldata, Abi.encodeDynamic, List.length_append, Abi.headsFrom_length]
    simp only [List.length_cons, List.length_nil]
    omega
  have hpublic : Abi.decodeBytes (fulfillCalldata publicValues proof leaves lockRefs) (32 * 0) =
      some publicValues := Abi.decodeBytes_encodeDynamic [] hsize
  have hproof : Abi.decodeBytes (fulfillCalldata publicValues proof leaves lockRefs) (32 * 1) =
      some proof := Abi.decodeBytes_encodeDynamic [Abi.bytesTail publicValues] hsize
  have hleaves : Abi.decodeArray 192 decodeLeaf
      (fulfillCalldata publicValues proof leaves lockRefs) (32 * 2) = some (leaves.map ofCore) :=
    Abi.decodeArray_encodeDynamic (by decide) Core.leafWords_length decodeLeaf_leafWords
      [Abi.bytesTail publicValues, Abi.bytesTail proof] hsize
  have hrefs : Abi.decodeArray 64 decodeLockRef
      (fulfillCalldata publicValues proof leaves lockRefs) (32 * 3) =
        some (lockRefs.map refOfCore) :=
    Abi.decodeArray_encodeDynamic (by decide) refWords_length decodeLockRef_refWords
      [Abi.bytesTail publicValues, Abi.bytesTail proof, Abi.arrayTail (leaves.map Core.leafWords)]
      hsize
  rw [decodeFulfillBatch, if_neg hlen, hpublic, hproof, hleaves, hrefs]
  rfl

end UnicityBridge.Vault
