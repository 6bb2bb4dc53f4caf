import UnicityBridge.BridgePlugin
import UnicityBridge.VaultPayable

/-!
# One preimage for every derived value

The prover's core, the SDK extension, the wallet package and the vault each encode the config, a lock,
the leaves, the lock references and the public values with an encoder of their own. For each kind of
value there is one function to bytes, it is injective, and it is what all of them hash
(`preimages_agree`). The host's `public_values_from_abi` inverts the encoding of the public values.
-/

set_option autoImplicit false

namespace UnicityBridge

open Lib

/-! ## The SDK extension's encoder -/

namespace Bridge

/-- `AbiValue` of `sdk-ext/src/bridge.rs`. -/
inductive AbiValue where
  | str (text : Bytes)
  | u64 (value : UInt64)
  | u256 (value : Bytes32)
  | address (value : Bytes20)
  | bytes32 (value : Bytes32)

/-- The same value of the core's encoder. -/
def AbiValue.val : AbiValue → Core.Val
  | str text => .str text
  | u64 value => .u64 value
  | u256 value => .u256 value
  | address value => .addr value
  | bytes32 value => .b32 value

theorem length_wordAddress (value : Bytes20) : (List.replicate 12 0 ++ value.toList).length = 32 := by
  simp

/-- The static word of a value. A text has none: the source panics there, and no caller asks. -/
def AbiValue.word : AbiValue → Bytes32
  | u64 value => ByteArr.ofNat 32 value.toNat
  | u256 value => value
  | bytes32 value => value
  | address value => ⟨List.replicate 12 0 ++ value.toList, length_wordAddress value⟩
  | str _ => ByteArr.zero 32

/-- Append the head and the tail of one value. -/
def abiEncodeStep (headSize : Nat) (out : Bytes × Bytes) : AbiValue → Bytes × Bytes
  | .str text =>
      (out.1 ++ (ByteArr.ofNat 32 (headSize + out.2.length)).toList,
        out.2 ++ ((ByteArr.ofNat 32 text.length).toList ++
          (text ++ List.replicate ((32 - text.length % 32) % 32) 0)))
  | value => (out.1 ++ value.word.toList, out.2)

/-- `abi.encode` in Solidity. -/
def abiEncode (values : List AbiValue) : Bytes :=
  let out := values.foldl (abiEncodeStep (values.length * 32)) ([], [])
  out.1 ++ out.2

/-- The values that `lock_digest` encodes. -/
def lockValues (config : BridgeConfig) (nonce : UInt64)
    (amount tokenId recipientCommitment : Bytes32) : List AbiValue :=
  [.str Core.DOMAIN_LOCK, .u64 config.sourceChainId, .address config.vault,
    .u256 (ByteArr.ofNat 32 nonce.toNat), .address config.asset, .bytes32 config.tokenType,
    .bytes32 config.coinId, .u256 amount, .bytes32 tokenId, .bytes32 recipientCommitment]

theorem abiEncodeStep_eq (headSize : Nat) (out : Bytes × Bytes) (value : AbiValue) :
    abiEncodeStep headSize out value = Core.encodeStep headSize out value.val := by
  cases value with
  | str text =>
      simp only [abiEncodeStep, AbiValue.val, Core.encodeStep, Core.textTail, Core.wordNat,
        List.append_assoc]
  | u64 | u256 | address | bytes32 => rfl

/-- **The SDK extension's encoder is the core's.** -/
theorem abiEncode_eq (values : List AbiValue) :
    abiEncode values = Core.encode (values.map AbiValue.val) := by
  have hstep : ∀ headSize, abiEncodeStep headSize = fun out value =>
      Core.encodeStep headSize out value.val := fun headSize =>
    funext fun out => funext fun value => abiEncodeStep_eq headSize out value
  rw [abiEncode, Core.encode, List.foldl_map, hstep, List.length_map, Nat.mul_comm]

theorem lockInput_eq (config : BridgeConfig) (nonce : UInt64)
    (amount tokenId recipientCommitment : Bytes32) :
    lockInput config nonce amount tokenId recipientCommitment =
      abiEncode (lockValues config nonce amount tokenId recipientCommitment) := by
  rw [abiEncode_eq]
  rfl

end Bridge

/-! ## The core's lock records and the host's decoder -/

namespace Core

/-- The fields of a lock that its digest covers beside the configuration. -/
structure LockRecord where
  nonce : UInt64
  amount : U256
  unicityTokenId : Bytes32
  recipientCommitment : Bytes32
  deriving DecidableEq

/-- The digest of a lock under a configuration. -/
def lockDigest (keccak256 : Bytes → Bytes32) (config : BridgeConfig) (record : LockRecord) :
    Bytes32 :=
  keccak256 (encode [.str DOMAIN_LOCK, .u64 config.sourceChainId, .addr config.vault,
    .u256 (u256FromU64 record.nonce), .addr config.asset, .b32 config.tokenType, .b32 config.coinId,
    .u256 record.amount, .b32 record.unicityTokenId, .b32 record.recipientCommitment])

/-- `public_values_from_abi` of the host: bytes after the nine words are ignored. -/
def publicValuesFromAbi (bytes : Bytes) : Option PublicValues :=
  if bytes.length < 9 * 32 then none
  else
    let word (i : Nat) : Bytes32 := Abi.load bytes (32 * i)
    let size := word 7
    if (size.toList.take 28).any (· != 0) then none
    else some {
      domainTag := word 0
      configHash := word 1
      trustBaseHash := word 2
      spentRootOld := word 3
      spentRootNew := word 4
      returnRoot := word 5
      lockRefRoot := word 6
      batchSize := UInt32.ofNat (beNat (size.toList.drop 28))
      totalAmount := word 8 }

theorem take_wordU32 (value : UInt32) :
    ((wordNat value.toNat).toList.take 28).any (· != 0) = false ∧
      beNat ((wordNat value.toNat).toList.drop 28) = value.toNat := by
  have hsplit : beBytes 32 value.toNat = List.replicate 28 0 ++ beBytes 4 value.toNat := by
    have hlt : value.toNat < 256 ^ 4 := value.toNat_lt
    apply beNat_inj
    · simp [beBytes_length]
    · rw [beNat_zeros_append, beNat_beBytes_of_lt hlt, beNat_beBytes_of_lt]
      exact lt_of_lt_of_le hlt (Nat.pow_le_pow_right (by decide) (by decide))
  have hlist : (wordNat value.toNat).toList = List.replicate 28 0 ++ beBytes 4 value.toNat := hsplit
  have hzero : (List.replicate 28 (0 : UInt8)).any (· != 0) = false := by decide
  rw [hlist, List.take_left' (List.length_replicate ..), List.drop_left' (List.length_replicate ..)]
  exact ⟨hzero, beNat_beBytes_of_lt value.toNat_lt⟩

/-- **The host's decoder inverts the encoding**, also with bytes behind it. -/
theorem publicValuesFromAbi_abi (pv : PublicValues) (suffix : Bytes) :
    publicValuesFromAbi (publicValuesAbi pv ++ suffix) = some pv := by
  have hlen : ¬ (publicValuesAbi pv ++ suffix).length < 9 * 32 := by
    rw [List.length_append, Vault.publicValuesAbi_length]
    omega
  have hload : ∀ (index : Nat) (word : Bytes32), (Vault.publicWords pv)[index]? = some word →
      Abi.load (publicValuesAbi pv ++ suffix) (32 * index) = word := by
    intro index word hword
    rw [Vault.publicValuesAbi_eq]
    exact Abi.load_flatMap hword
  obtain ⟨hclean, hsize⟩ := take_wordU32 pv.batchSize
  have hseven : Abi.load (publicValuesAbi pv ++ suffix) (32 * 7) = wordNat pv.batchSize.toNat :=
    hload 7 _ rfl
  simp only [publicValuesFromAbi, if_neg hlen, hload 0 _ rfl, hload 1 _ rfl, hload 2 _ rfl,
    hload 3 _ rfl, hload 4 _ rfl, hload 5 _ rfl, hload 6 _ rfl, hseven, hload 8 _ rfl, hclean, hsize,
    UInt32.ofNat_toNat, Bool.false_eq_true, if_false]

end Core

/-! ## One preimage for each kind -/

namespace Preimages

open UnicityBridge.Core (Val BridgeConfig)
open Vault (Word toCore refOfCore publicValuesOfCore)

/-- `f` hashes `data`, whatever the hash is. -/
def Hashes (f : (Bytes → Bytes32) → Bytes32) (data : Bytes) : Prop :=
  ∀ keccak256, f keccak256 = keccak256 data

/-- `f` succeeds and hashes `data`. -/
def HashesOk {ε : Type} (f : (Bytes → Bytes32) → Except ε Bytes32) (data : Bytes) : Prop :=
  ∀ keccak256, f keccak256 = .ok (keccak256 data)

/-! ### The config -/

/-- The values under the config hash, behind the domain. -/
def configValues (c : BridgeConfig) : List Val :=
  [.u64 c.sourceChainId, .addr c.vault, .addr c.asset, .b32 c.tokenType, .b32 c.coinId,
    .u64 c.reasonTag, .b32 c.lockDomain, .b32 c.nullifierDomain]

/-- The bytes hashed for a configuration. -/
def configInput (c : BridgeConfig) : Bytes := Core.encode (.str Core.DOMAIN_CONFIG :: configValues c)

theorem configValues_static (c : BridgeConfig) :
    ∀ value ∈ configValues c, value.isDynamic = false := by
  simp [configValues, Val.isDynamic]

theorem configInput_injective : Function.Injective configInput := by
  intro c c' h
  have hwords := Core.encode_str_cons_inj (configValues_static c) (configValues_static c')
    (by simp only [configValues, List.length_cons]) h
  simp only [configValues, List.map_cons, List.map_nil, Val.word, List.cons.injEq, and_true] at hwords
  obtain ⟨hchain, hvault, hasset, htype, hcoin, htag, hlock, hnullifier⟩ := hwords
  cases c
  cases c'
  simp only [BridgeConfig.mk.injEq]
  exact ⟨Core.wordU64_inj hchain, Core.wordAddress_inj hvault, Core.wordAddress_inj hasset, htype,
    hcoin, Core.wordU64_inj htag, hlock, hnullifier⟩

/-- The config as the wallet package writes it. -/
def pluginConfig (c : BridgeConfig) : BridgePlugin.BridgeConfig where
  sourceChainId := c.sourceChainId.toNat
  vault := c.vault.toList
  asset := c.asset.toList
  tokenType := c.tokenType.toList
  coinId := c.coinId.toList
  reasonTag := c.reasonTag.toNat
  lockDomain := c.lockDomain.toList
  nullifierDomain := c.nullifierDomain.toList

/-- **The config hash is over the same bytes in all three.** -/
theorem configHash_hashes (c : BridgeConfig) :
    Hashes (Core.configHash · c) (configInput c) ∧
      Hashes (Vault.BridgeEncoding.configHash · c) (configInput c) ∧
      HashesOk (BridgePlugin.configHash · (pluginConfig c)) (configInput c) := by
  refine ⟨fun _ => rfl, fun keccak256 => Vault.configHash_eq keccak256 c, fun keccak256 => ?_⟩
  have hencode := BridgePlugin.encode_str_ofVal BridgePlugin.DOMAIN_CONFIG (configValues_static c)
  simp only [BridgePlugin.configHash, bind_eq_ok]
  exact ⟨_, hencode, rfl⟩

/-! ### Locks -/

/-- The fields of a lock, over the widest integers any of the encoders takes. -/
structure LockFields where
  sourceChainId : UInt64
  vault : Bytes20
  nonce : Word
  asset : Bytes20
  tokenType : Bytes32
  coinId : Bytes32
  amount : Word
  unicityTokenId : Bytes32
  recipientCommitment : Bytes32

/-- The values under a lock digest, behind the domain. -/
def lockValues (l : LockFields) : List Val :=
  [.u64 l.sourceChainId, .addr l.vault, .u256 (Abi.word256 l.nonce), .addr l.asset, .b32 l.tokenType,
    .b32 l.coinId, .u256 (Abi.word256 l.amount), .b32 l.unicityTokenId, .b32 l.recipientCommitment]

/-- The bytes hashed for a lock. -/
def lockInput (l : LockFields) : Bytes := Core.encode (.str Core.DOMAIN_LOCK :: lockValues l)

theorem lockValues_static (l : LockFields) : ∀ value ∈ lockValues l, value.isDynamic = false := by
  simp [lockValues, Val.isDynamic]

theorem word256_injective : Function.Injective Abi.word256 :=
  Function.LeftInverse.injective Abi.uint256_word256

theorem lockInput_injective : Function.Injective lockInput := by
  intro l l' h
  have hwords := Core.encode_str_cons_inj (lockValues_static l) (lockValues_static l')
    (by simp only [lockValues, List.length_cons]) h
  simp only [lockValues, List.map_cons, List.map_nil, Val.word, List.cons.injEq, and_true] at hwords
  obtain ⟨hchain, hvault, hnonce, hasset, htype, hcoin, hamount, htoken, hrecipient⟩ := hwords
  cases l
  cases l'
  simp only [LockFields.mk.injEq]
  exact ⟨Core.wordU64_inj hchain, Core.wordAddress_inj hvault, word256_injective hnonce,
    Core.wordAddress_inj hasset, htype, hcoin, word256_injective hamount, htoken, hrecipient⟩

/-- The lock's parameters as the wallet package writes them. -/
def pluginLock (l : LockFields) : BridgePlugin.LockParams where
  sourceChainId := l.sourceChainId.toNat
  vault := l.vault.toList
  nonce := l.nonce.toNat
  asset := l.asset.toList
  tokenType := l.tokenType.toList
  coinId := l.coinId.toList
  amount := l.amount.toNat
  unicityTokenId := l.unicityTokenId.toList
  recipientCommitment := l.recipientCommitment.toList

/-- The lock that a record of the core stands for. -/
def recordFields (config : BridgeConfig) (record : Core.LockRecord) : LockFields where
  sourceChainId := config.sourceChainId
  vault := config.vault
  nonce := BitVec.ofNat 256 record.nonce.toNat
  asset := config.asset
  tokenType := config.tokenType
  coinId := config.coinId
  amount := Abi.uint256 record.amount
  unicityTokenId := record.unicityTokenId
  recipientCommitment := record.recipientCommitment

/-- The lock that the SDK extension derives. -/
def extensionFields (config : Bridge.BridgeConfig) (nonce : UInt64)
    (amount tokenId recipientCommitment : Bytes32) : LockFields where
  sourceChainId := config.sourceChainId
  vault := config.vault
  nonce := BitVec.ofNat 256 nonce.toNat
  asset := config.asset
  tokenType := config.tokenType
  coinId := config.coinId
  amount := Abi.uint256 amount
  unicityTokenId := tokenId
  recipientCommitment := recipientCommitment

theorem word256_toNat (value : Word) : (Abi.word256 value).toNat = value.toNat := by
  rw [Abi.word256, ByteArr.toNat_ofNat (Abi.pow_word ▸ value.isLt)]

theorem word256_nonce (nonce : UInt64) :
    Abi.word256 (BitVec.ofNat 256 nonce.toNat) = Core.u256FromU64 nonce := by
  have hlt : nonce.toNat < 2 ^ 256 :=
    lt_of_lt_of_le nonce.toNat_lt (Nat.pow_le_pow_right (by decide) (by decide))
  rw [Abi.word256, BitVec.toNat_ofNat, Nat.mod_eq_of_lt hlt]
  rfl

/-- The values of a lock as the wallet package writes them. -/
theorem lockValues_plugin (l : LockFields) :
    (lockValues l).map BridgePlugin.ofVal =
      [.u64 l.sourceChainId.toNat, .addr l.vault.toList, .u256 l.nonce.toNat, .addr l.asset.toList,
        .b32 l.tokenType.toList, .b32 l.coinId.toList, .u256 l.amount.toNat,
        .b32 l.unicityTokenId.toList, .b32 l.recipientCommitment.toList] := by
  simp only [lockValues, List.map_cons, List.map_nil, BridgePlugin.ofVal, word256_toNat]

/-- **A lock digest is over the same bytes in all four.** -/
theorem lockDigest_hashes :
    (∀ l : LockFields,
      Hashes (fun keccak256 => Vault.BridgeEncoding.lockDigest keccak256 l.sourceChainId l.vault
        l.nonce l.asset l.tokenType l.coinId l.amount l.unicityTokenId l.recipientCommitment)
        (lockInput l) ∧
      HashesOk (BridgePlugin.lockDigest · (pluginLock l)) (lockInput l)) ∧
    (∀ config record,
      Hashes (Core.lockDigest · config record) (lockInput (recordFields config record))) ∧
    ∀ (sdk : TokenSdk.Sdk) config nonce amount tokenId recipientCommitment,
      Bridge.lockDigest sdk config nonce amount tokenId recipientCommitment =
          sdk.keccak256
            (Bridge.abiEncode (Bridge.lockValues config nonce amount tokenId recipientCommitment)) ∧
        Bridge.abiEncode (Bridge.lockValues config nonce amount tokenId recipientCommitment) =
          lockInput (extensionFields config nonce amount tokenId recipientCommitment) := by
  refine ⟨fun l => ⟨fun keccak256 => ?_, fun keccak256 => ?_⟩, fun config record keccak256 => ?_, ?_⟩
  · have htext := Vault.encodeText_map Core.DOMAIN_LOCK (lockValues_static l)
    rw [lockInput, ← htext]
    rfl
  · have hencode := BridgePlugin.encode_str_ofVal BridgePlugin.DOMAIN_LOCK (lockValues_static l)
    rw [lockValues_plugin] at hencode
    simp only [BridgePlugin.lockDigest, bind_eq_ok]
    exact ⟨_, hencode, rfl⟩
  · simp only [Core.lockDigest, lockInput, lockValues, recordFields, word256_nonce,
      Abi.word256_uint256]
  · intro sdk config nonce amount tokenId recipientCommitment
    have hinput : lockInput (extensionFields config nonce amount tokenId recipientCommitment) =
        Bridge.lockInput config nonce amount tokenId recipientCommitment := by
      simp only [lockInput, lockValues, extensionFields, word256_nonce, Abi.word256_uint256,
        Bridge.lockInput]
    rw [hinput, Bridge.lockDigest, Bridge.lockInput_eq]
    exact ⟨rfl, rfl⟩

/-! ### Leaves -/

/-- A leaf as the wallet package writes it. -/
def pluginLeaf (l : Vault.ReturnLeaf) : BridgePlugin.ReturnLeaf where
  nullifier := l.nullifier.toList
  recipient := l.recipient.toList
  amount := l.amount.toNat
  feeRecipient := l.feeRecipient.toList
  feeAmount := l.feeAmount.toNat
  deadline := l.deadline.toNat

theorem packWords_pluginLeaf (l : Vault.ReturnLeaf) :
    BridgePlugin.packWords (BridgePlugin.leafWords (pluginLeaf l)) =
      .ok (Vault.BridgeEncoding.encodeWords (Vault.BridgeEncoding.leafWords l)) := by
  have hstatic : ∀ value ∈ ([.b32 l.nullifier, .addr l.recipient, .u256 (Abi.word256 l.amount),
      .addr l.feeRecipient, .u256 (Abi.word256 l.feeAmount), .u64 l.deadline] : List Val),
      value.isDynamic = false := by
    simp [Val.isDynamic]
  have hpack := BridgePlugin.packWords_ofVal hstatic
  simp only [List.map_cons, List.map_nil, BridgePlugin.ofVal, word256_toNat] at hpack
  rw [Vault.leafWords_toCore]
  exact hpack

theorem leavesInput_injective : Function.Injective Vault.BridgeEncoding.leavesInput := by
  intro leaves leaves' h
  rw [Vault.leavesInput_eq leaves'] at h
  have hid : (Vault.ofCore ∘ toCore) = id := funext Vault.ofCore_toCore
  rw [Vault.leaves_of_leavesInput h, List.map_map, hid, List.map_id]

/-- **The return root is over the same bytes in all three.** -/
theorem returnRoot_hashes (leaves : List Vault.ReturnLeaf) :
    Hashes (Core.returnRoot · (leaves.map toCore)) (Vault.BridgeEncoding.leavesInput leaves) ∧
      Hashes (Vault.BridgeEncoding.returnRoot · leaves) (Vault.BridgeEncoding.leavesInput leaves) ∧
      HashesOk (BridgePlugin.returnRoot · (leaves.map pluginLeaf))
        (Vault.BridgeEncoding.leavesInput leaves) := by
  refine ⟨fun keccak256 => ?_, fun _ => rfl, fun keccak256 => ?_⟩
  · show keccak256 ((leaves.map toCore).flatMap Core.leafWords) = _
    rw [Vault.leavesInput_eq]
  · have hparts : (leaves.map pluginLeaf).mapM
        (fun l => BridgePlugin.packWords (BridgePlugin.leafWords l)) =
        .ok (leaves.map fun l =>
          Vault.BridgeEncoding.encodeWords (Vault.BridgeEncoding.leafWords l)) := by
      rw [List.mapM_map]
      exact mapM_ok fun l _ => packWords_pluginLeaf l
    simp only [BridgePlugin.returnRoot, bind_eq_ok]
    refine ⟨_, hparts, ?_⟩
    rw [Vault.BridgeEncoding.leavesInput, List.flatMap_def]

/-! ### Lock references -/

/-- The bytes under the lock reference root. -/
def refsInput (refs : List Vault.SourceLockRef) : Bytes :=
  refs.flatMap fun r => Vault.BridgeEncoding.encodeWords (Vault.BridgeEncoding.refWords r)

theorem refsInput_injective : Function.Injective refsInput := by
  intro refs refs' h
  have hsize : 0 < 64 := by decide
  refine flatMap_inj_of_length hsize ?_ ?_ h
  · intro r
    simp [Vault.BridgeEncoding.encodeWords, Vault.BridgeEncoding.refWords]
  · intro r r' heq
    simp only [Vault.BridgeEncoding.encodeWords, Vault.BridgeEncoding.refWords, List.flatMap_cons,
      List.flatMap_nil, List.append_nil] at heq
    obtain ⟨hnonce, hdigest⟩ := List.append_inj heq (by simp)
    cases r
    cases r'
    simp only [Vault.SourceLockRef.mk.injEq]
    exact ⟨word256_injective (ByteArr.toList_inj.1 hnonce), ByteArr.toList_inj.1 hdigest⟩

/-- A lock reference as the wallet package writes it. -/
def pluginRef (r : Vault.SourceLockRef) : BridgePlugin.SourceLockRef where
  nonce := r.nonce.toNat
  digest := r.digest.toList

theorem packWords_pluginRef (r : Vault.SourceLockRef) :
    BridgePlugin.packWords [.u256 (pluginRef r).nonce, .b32 (pluginRef r).digest] =
      .ok (Vault.BridgeEncoding.encodeWords (Vault.BridgeEncoding.refWords r)) := by
  have hstatic : ∀ value ∈ ([.u256 (Abi.word256 r.nonce), .b32 r.digest] : List Val),
      value.isDynamic = false := by
    simp [Val.isDynamic]
  have hpack := BridgePlugin.packWords_ofVal hstatic
  simp only [List.map_cons, List.map_nil, BridgePlugin.ofVal, word256_toNat,
    ← Vault.encodeWords_map] at hpack
  exact hpack

theorem checkDuplicates_ok {refs : List BridgePlugin.SourceLockRef}
    (h : refs.Pairwise fun a b => a.nonce < b.nonce) :
    BridgePlugin.checkDuplicates refs = .ok () := by
  induction refs with
  | nil => rfl
  | cons previous rest ih =>
      obtain ⟨hfirst, hrest⟩ := List.pairwise_cons.1 h
      cases rest with
      | nil => rfl
      | cons next rest =>
          simp only [BridgePlugin.checkDuplicates, bind_eq_ok, ensure_eq_ok]
          exact ⟨(), (hfirst next List.mem_cons_self).ne', ih hrest⟩

/-- **The lock reference root is over the same bytes in all three**, for sorted references. -/
theorem lockRefRoot_hashes :
    (∀ refs : List Vault.SourceLockRef,
      Hashes (Vault.BridgeEncoding.lockRefRoot · refs) (refsInput refs)) ∧
    (∀ refs : List Vault.SourceLockRef, refs.Pairwise (fun a b => a.nonce < b.nonce) →
      HashesOk (BridgePlugin.lockRefRoot · (refs.map pluginRef)) (refsInput refs)) ∧
    ∀ refs : List Core.SourceLockRef, refs.Pairwise (fun a b => a.nonce < b.nonce) →
      HashesOk (Core.lockRefRoot · refs) (refsInput (refs.map refOfCore)) := by
  refine ⟨fun _ _ => rfl, fun refs hsorted keccak256 => ?_, fun refs hsorted keccak256 => ?_⟩
  · have hrising : (refs.map pluginRef).Pairwise fun a b => a.nonce < b.nonce := by
      rw [List.pairwise_map]
      exact hsorted.imp fun hlt => Int.ofNat_lt.2 (BitVec.lt_def.1 hlt)
    have hsort : (refs.map pluginRef).mergeSort (fun a b => decide (a.nonce ≤ b.nonce)) =
        refs.map pluginRef :=
      List.mergeSort_of_pairwise (hrising.imp fun hlt => decide_eq_true hlt.le)
    have hparts : (refs.map pluginRef).mapM (fun r =>
        BridgePlugin.packWords [.u256 r.nonce, .b32 r.digest]) =
        .ok (refs.map fun r =>
          Vault.BridgeEncoding.encodeWords (Vault.BridgeEncoding.refWords r)) := by
      rw [List.mapM_map]
      exact mapM_ok fun r _ => packWords_pluginRef r
    simp only [BridgePlugin.lockRefRoot, hsort, bind_eq_ok]
    refine ⟨(), checkDuplicates_ok hrising, _, hparts, ?_⟩
    rw [refsInput, List.flatMap_def]
  · refine (Core.lockRefRoot_eq_ok keccak256).2 ⟨?_, ?_⟩
    · rw [Core.nonces, List.pairwise_map]
      exact hsorted.imp fun hlt => UInt64.lt_iff_toNat_lt.1 hlt
    · exact Vault.lockRefRoot_refOfCore keccak256 refs

/-! ### Public values -/

/-- The public values as the wallet package writes them. -/
def pluginPublicValues (pv : Core.PublicValues) : BridgePlugin.PublicValues where
  domainTag := pv.domainTag.toList
  configHash := pv.configHash.toList
  trustBaseHash := pv.trustBaseHash.toList
  spentRootOld := pv.spentRootOld.toList
  spentRootNew := pv.spentRootNew.toList
  returnRoot := pv.returnRoot.toList
  lockRefRoot := pv.lockRefRoot.toList
  batchSize := pv.batchSize.toNat
  totalAmount := pv.totalAmount.toNat

theorem publicValuesAbi_injective : Function.Injective Core.publicValuesAbi := by
  intro pv pv' h
  have hback := Core.publicValuesFromAbi_abi pv []
  rw [h, Core.publicValuesFromAbi_abi] at hback
  exact (Option.some.inj hback).symm

theorem publicValuesAbi_plugin (pv : Core.PublicValues) :
    BridgePlugin.publicValuesAbi (pluginPublicValues pv) = .ok (Core.publicValuesAbi pv) := by
  have hstatic : ∀ value ∈ ([.b32 pv.domainTag, .b32 pv.configHash, .b32 pv.trustBaseHash,
      .b32 pv.spentRootOld, .b32 pv.spentRootNew, .b32 pv.returnRoot, .b32 pv.lockRefRoot,
      .u32 pv.batchSize, .u256 pv.totalAmount] : List Val), value.isDynamic = false := by
    simp [Val.isDynamic]
  have hencode := BridgePlugin.encode_ofVal hstatic
  simp only [List.map_cons, List.map_nil, BridgePlugin.ofVal] at hencode
  rw [Core.publicValuesAbi, ← hencode]
  rfl

end Preimages

/-- **The preimages agree and are injective.** For every kind of value there is one injective function
to bytes that all the encoders hash; the public values are encoded to the same bytes, which the vault
reads as the same values; and the host's decoder inverts the encoding. -/
theorem preimages_agree :
    ((∀ c, Preimages.Hashes (Core.configHash · c) (Preimages.configInput c) ∧
        Preimages.Hashes (Vault.BridgeEncoding.configHash · c) (Preimages.configInput c) ∧
        Preimages.HashesOk (BridgePlugin.configHash · (Preimages.pluginConfig c))
          (Preimages.configInput c)) ∧
      Function.Injective Preimages.configInput) ∧
    ((∀ l : Preimages.LockFields,
        Preimages.Hashes (fun keccak256 => Vault.BridgeEncoding.lockDigest keccak256 l.sourceChainId
          l.vault l.nonce l.asset l.tokenType l.coinId l.amount l.unicityTokenId
          l.recipientCommitment) (Preimages.lockInput l) ∧
        Preimages.HashesOk (BridgePlugin.lockDigest · (Preimages.pluginLock l))
          (Preimages.lockInput l)) ∧
      (∀ config record, Preimages.Hashes (Core.lockDigest · config record)
        (Preimages.lockInput (Preimages.recordFields config record))) ∧
      (∀ (sdk : TokenSdk.Sdk) config nonce amount tokenId recipientCommitment,
        Bridge.lockDigest sdk config nonce amount tokenId recipientCommitment =
            sdk.keccak256
              (Bridge.abiEncode (Bridge.lockValues config nonce amount tokenId recipientCommitment)) ∧
          Bridge.abiEncode (Bridge.lockValues config nonce amount tokenId recipientCommitment) =
            Preimages.lockInput
              (Preimages.extensionFields config nonce amount tokenId recipientCommitment)) ∧
      Function.Injective Preimages.lockInput) ∧
    ((∀ leaves : List Vault.ReturnLeaf,
        Preimages.Hashes (Core.returnRoot · (leaves.map Vault.toCore))
          (Vault.BridgeEncoding.leavesInput leaves) ∧
        Preimages.Hashes (Vault.BridgeEncoding.returnRoot · leaves)
          (Vault.BridgeEncoding.leavesInput leaves) ∧
        Preimages.HashesOk (BridgePlugin.returnRoot · (leaves.map Preimages.pluginLeaf))
          (Vault.BridgeEncoding.leavesInput leaves)) ∧
      Function.Injective Vault.BridgeEncoding.leavesInput) ∧
    ((∀ refs : List Vault.SourceLockRef,
        Preimages.Hashes (Vault.BridgeEncoding.lockRefRoot · refs) (Preimages.refsInput refs)) ∧
      (∀ refs : List Vault.SourceLockRef, refs.Pairwise (fun a b => a.nonce < b.nonce) →
        Preimages.HashesOk (BridgePlugin.lockRefRoot · (refs.map Preimages.pluginRef))
          (Preimages.refsInput refs)) ∧
      (∀ refs : List Core.SourceLockRef, refs.Pairwise (fun a b => a.nonce < b.nonce) →
        Preimages.HashesOk (Core.lockRefRoot · refs)
          (Preimages.refsInput (refs.map Vault.refOfCore))) ∧
      Function.Injective Preimages.refsInput) ∧
    (∀ pv : Core.PublicValues,
        BridgePlugin.publicValuesAbi (Preimages.pluginPublicValues pv) =
          .ok (Core.publicValuesAbi pv) ∧
        Vault.BridgeEncoding.encodeWords (Vault.publicWords pv) = Core.publicValuesAbi pv ∧
        Vault.decodePublicValues (Core.publicValuesAbi pv) = some (Vault.publicValuesOfCore pv) ∧
        Core.publicValuesFromAbi (Core.publicValuesAbi pv) = some pv) ∧
      Function.Injective Core.publicValuesAbi := by
  -- configuration, lock, leaves, references, then the public values
  refine ⟨⟨Preimages.configHash_hashes, Preimages.configInput_injective⟩, ⟨?_, ?_, ?_, ?_⟩,
    ⟨Preimages.returnRoot_hashes, Preimages.leavesInput_injective⟩, ⟨?_, ?_, ?_, ?_⟩, ?_, ?_⟩
  · exact Preimages.lockDigest_hashes.1
  · exact Preimages.lockDigest_hashes.2.1
  · exact Preimages.lockDigest_hashes.2.2
  · exact Preimages.lockInput_injective
  · exact Preimages.lockRefRoot_hashes.1
  · exact Preimages.lockRefRoot_hashes.2.1
  · exact Preimages.lockRefRoot_hashes.2.2
  · exact Preimages.refsInput_injective
  · intro pv
    have hvault := Vault.decodePublicValues_abi pv []
    have hhost := Core.publicValuesFromAbi_abi pv []
    rw [List.append_nil] at hvault hhost
    exact ⟨Preimages.publicValuesAbi_plugin pv, (Vault.publicValuesAbi_eq pv).symm, hvault, hhost⟩
  · exact Preimages.publicValuesAbi_injective

end UnicityBridge
