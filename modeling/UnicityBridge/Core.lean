import UnicityBridge.Lib.Bytes
import UnicityBridge.Lib.Result

/-!
# The bridge return contract at the byte level

`prover/crates/core/src`: the bridge config, return leaves, lock references and public values, their
ABI and CBOR encodings, the roots over them and `validate_public_values`. SHA-256 and Keccak-256
are parameters.

The last part says what the byte-wise arithmetic computes: `add_u256` is addition modulo `2 ^ 256`,
and what `validate_public_values` accepts.
-/

set_option autoImplicit false

namespace UnicityBridge.Core

open UnicityBridge.Lib

/-- The UTF-8 bytes of a text. -/
def utf8 (text : String) : Bytes := text.toUTF8.data.toList

/-- Domain of the configuration hash. -/
def DOMAIN_CONFIG : Bytes := utf8 "unicity-bridge-return-config:v1"

/-- Domain of the lock digest. -/
def DOMAIN_LOCK : Bytes := utf8 "unicity-bridge-lock:v1"

/-- The text whose hash is the domain tag of the public values. -/
def DOMAIN_RETURN : Bytes := utf8 "unicity-bridge-return:v1"

/-- Domain of the identifier of a burn. -/
def DOMAIN_BURN_TRANSITION : Bytes := utf8 "unicity-burn-transition:v1"

/-- Domain of the nullifier of a return. -/
def DOMAIN_NULLIFIER : Bytes := utf8 "unicity-bridge-return-nullifier:v1"

/-- An address of the source chain. -/
abbrev Address := Bytes20

/-- A 256-bit amount, big-endian. -/
abbrev U256 := Bytes32

/-- The configuration of a return bridge. -/
structure BridgeConfig where
  sourceChainId : UInt64
  vault : Address
  asset : Address
  tokenType : Bytes32
  coinId : Bytes32
  reasonTag : UInt64
  lockDomain : Bytes32
  nullifierDomain : Bytes32
  deriving DecidableEq

/-- The terms of a return, for the reason of its burn. -/
structure BridgeBackReason where
  version : UInt64
  recipient : Address
  amount : U256
  feeRecipient : Address
  feeAmount : U256
  deadline : UInt64
  deriving DecidableEq

/-- A return of a batch: what it releases, to whom, and the fee it concedes until the deadline. -/
structure ReturnLeaf where
  nullifier : Bytes32
  recipient : Address
  amount : U256
  feeRecipient : Address
  feeAmount : U256
  deadline : UInt64
  deriving DecidableEq

/-- A lock the batch draws on. -/
structure SourceLockRef where
  nonce : UInt64
  digest : Bytes32
  deriving DecidableEq

/-- The public values of a proof. -/
structure PublicValues where
  domainTag : Bytes32
  configHash : Bytes32
  trustBaseHash : Bytes32
  spentRootOld : Bytes32
  spentRootNew : Bytes32
  returnRoot : Bytes32
  lockRefRoot : Bytes32
  batchSize : UInt32
  totalAmount : U256
  deriving DecidableEq

/-- Why the relation refuses an input. -/
inductive BridgeCoreError where
  | duplicateLockRefNonce
  | lockRefsNotSorted
  | wrongDomainTag
  | wrongConfigHash
  | wrongTrustBaseHash
  | wrongReturnRoot
  | wrongLockRefRoot
  | wrongBatchSize
  | wrongTotalAmount
  | wrongAccumulatorWitness
  | wrongSpentRootNew
  | tokenVerificationFailed
  | wrongLockObligation
  | burnTransferMissing
  | burnReasonMissing
  | burnReasonMalformed
  | burnReasonMismatch
  | wrongBurnPredicate
  | wrongNullifier
  | wrongBurnAmount
  | wireDecodeFailed
  deriving DecidableEq

/-- A result of the relation. -/
abbrev Result := Except BridgeCoreError

/-! ## ABI encoding -/

/-- The big-endian word of a number. -/
def wordNat (value : Nat) : Bytes32 := ByteArr.ofNat 32 value

/-- A 64-bit integer as a word. -/
def wordU64 (value : UInt64) : Bytes32 := wordNat value.toNat

/-- An address in the low 20 bytes of a word. -/
def wordAddress (address : Address) : Bytes32 :=
  ⟨List.replicate 12 0 ++ address.toList, by simp⟩

/-- An ABI value. -/
inductive Val where
  | str (text : Bytes)
  | u32 (value : UInt32)
  | u64 (value : UInt64)
  | u256 (value : U256)
  | addr (value : Address)
  | b32 (value : Bytes32)

namespace Val

/-- Whether the value is encoded behind the heads. -/
def isDynamic : Val → Bool
  | str _ => true
  | _ => false

/-- The static word of a value. A text has none: the source panics there, and no caller asks. -/
def word : Val → Bytes32
  | u32 value => wordNat value.toNat
  | u64 value => wordU64 value
  | u256 value => value
  | addr value => wordAddress value
  | b32 value => value
  | str _ => ByteArr.zero 32

end Val

/-- A text as the tail of an encoding: its length, then its bytes padded to words. -/
def textTail (text : Bytes) : Bytes :=
  (wordNat text.length).toList ++ text ++ List.replicate ((32 - text.length % 32) % 32) 0

/-- Append the head word and the tail of one value. -/
def encodeStep (headSize : Nat) (out : Bytes × Bytes) (value : Val) : Bytes × Bytes :=
  match value with
  | .str text => (out.1 ++ (wordNat (headSize + out.2.length)).toList, out.2 ++ textTail text)
  | _ => (out.1 ++ value.word.toList, out.2)

/-- ABI encoding of a list of values. -/
def encode (values : List Val) : Bytes :=
  let out := values.foldl (encodeStep (32 * values.length)) ([], [])
  out.1 ++ out.2

/-- The words of the values, one behind the other. -/
def packWords (values : List Val) : Bytes := values.flatMap fun value => value.word.toList

theorem packWords_cons (value : Val) (rest : List Val) :
    packWords (value :: rest) = value.word.toList ++ packWords rest := by
  rw [packWords, packWords, List.flatMap_cons]

theorem encodeStep_static {headSize : Nat} {out : Bytes × Bytes} {value : Val}
    (h : value.isDynamic = false) :
    encodeStep headSize out value = (out.1 ++ value.word.toList, out.2) := by
  cases value with
  | str text => cases h
  | u32 | u64 | u256 | addr | b32 => simp only [encodeStep]

theorem foldl_encodeStep_static (headSize : Nat) {values : List Val}
    (h : ∀ value ∈ values, value.isDynamic = false) (out : Bytes × Bytes) :
    values.foldl (encodeStep headSize) out = (out.1 ++ packWords values, out.2) := by
  induction values generalizing out with
  | nil => simp [packWords]
  | cons value rest ih =>
      rw [List.foldl_cons, encodeStep_static (h value List.mem_cons_self),
        ih fun v hv => h v (List.mem_cons_of_mem value hv)]
      simp [packWords]

/-- Static values are encoded as their words. -/
theorem encode_static {values : List Val} (h : ∀ value ∈ values, value.isDynamic = false) :
    encode values = packWords values := by
  rw [encode, foldl_encodeStep_static _ h]
  simp

/-- A leading text is an offset word before the words of the others and a tail after them. -/
theorem encode_str_cons (text : Bytes) {values : List Val}
    (h : ∀ value ∈ values, value.isDynamic = false) :
    encode (.str text :: values) =
      (wordNat (32 * (values.length + 1))).toList ++ packWords values ++ textTail text := by
  have hfirst (headSize : Nat) : encodeStep headSize ([], []) (.str text) =
      ((wordNat headSize).toList, textTail text) := by
    simp only [encodeStep, List.nil_append, List.length_nil, Nat.add_zero]
  simp only [encode, List.length_cons, List.foldl_cons, hfirst, foldl_encodeStep_static _ h]

theorem packWords_length (values : List Val) :
    (packWords values).length = 32 * values.length := by
  induction values with
  | nil => rfl
  | cons value rest ih =>
      rw [packWords_cons, List.length_append, ih, List.Vector.toList_length, List.length_cons]
      omega

/-- Words determine the values' words. -/
theorem packWords_inj {values values' : List Val} (h : packWords values = packWords values')
    (hlen : values.length = values'.length) : values.map Val.word = values'.map Val.word := by
  induction values generalizing values' with
  | nil =>
      obtain rfl : values' = [] := List.length_eq_zero_iff.1 hlen.symm
      rfl
  | cons value rest ih =>
      cases values' with
      | nil => simp at hlen
      | cons value' rest' =>
          rw [packWords_cons, packWords_cons] at h
          have hsize : value.word.toList.length = value'.word.toList.length := by
            rw [List.Vector.toList_length, List.Vector.toList_length]
          obtain ⟨hword, hrest⟩ := List.append_inj h hsize
          rw [List.map_cons, List.map_cons, ByteArr.toList_inj.1 hword, ih hrest (by simpa using hlen)]

/-- Behind a fixed text, the encoding determines the words of static values. -/
theorem encode_str_cons_inj {text : Bytes} {values values' : List Val}
    (hstatic : ∀ value ∈ values, value.isDynamic = false)
    (hstatic' : ∀ value ∈ values', value.isDynamic = false)
    (hlen : values.length = values'.length)
    (h : encode (.str text :: values) = encode (.str text :: values')) :
    values.map Val.word = values'.map Val.word := by
  rw [encode_str_cons text hstatic, encode_str_cons text hstatic', hlen] at h
  exact packWords_inj (List.append_cancel_left (List.append_cancel_right h)) hlen

/-! ## CBOR encoding -/

/-- The head of a CBOR item of a major type. -/
def major (major : UInt8) (value : UInt64) : Bytes :=
  let lead := major <<< 5
  let n := value.toNat
  if n ≤ 23 then [lead ||| UInt8.ofNat n]
  else if n ≤ 0xff then [lead ||| 24, UInt8.ofNat n]
  else if n ≤ 0xffff then (lead ||| 25) :: beBytes 2 n
  else if n ≤ 0xffffffff then (lead ||| 26) :: beBytes 4 n
  else (lead ||| 27) :: beBytes 8 n

/-- A byte string item. -/
def cborBytes (value : Bytes) : Bytes := major 2 (UInt64.ofNat value.length) ++ value

/-- A text item. -/
def cborText (value : Bytes) : Bytes := major 3 (UInt64.ofNat value.length) ++ value

/-- The head of an array of `len` items. -/
def arrayHeader (len : UInt64) : Bytes := major 4 len

/-- An unsigned integer item. -/
def cborUint (value : UInt64) : Bytes := major 0 value

/-- The head of a tagged item. -/
def cborTag (value : UInt64) : Bytes := major 6 value

/-- The bytes of a word from the first one that is not zero. -/
def minimalBe (value : U256) : Bytes := value.toList.dropWhile fun byte => byte == 0

/-- The canonical bytes of a reason. -/
def reasonCbor (config : BridgeConfig) (reason : BridgeBackReason) : Bytes :=
  cborTag config.reasonTag ++ arrayHeader 11 ++ cborUint reason.version ++
    cborUint config.sourceChainId ++ cborBytes config.vault.toList ++
    cborBytes config.asset.toList ++ cborBytes config.tokenType.toList ++
    cborBytes config.coinId.toList ++ cborBytes reason.recipient.toList ++
    cborBytes (minimalBe reason.amount) ++ cborBytes reason.feeRecipient.toList ++
    cborBytes (minimalBe reason.feeAmount) ++ cborUint reason.deadline

section Hashing

variable (sha256 keccak256 : Bytes → Bytes32)

/-- Hash of a CBOR array of encoded items. -/
def hArray (items : List Bytes) : Bytes32 :=
  sha256 (arrayHeader (UInt64.ofNat items.length) ++ items.flatten)

/-- Hash of the configuration; the vault is part of it. -/
def configHash (config : BridgeConfig) : Bytes32 :=
  keccak256 (encode [.str DOMAIN_CONFIG, .u64 config.sourceChainId, .addr config.vault,
    .addr config.asset, .b32 config.tokenType, .b32 config.coinId, .u64 config.reasonTag,
    .b32 config.lockDomain, .b32 config.nullifierDomain])

/-- Identifier of the burn, from the state it spends and its transaction. -/
def burnTransitionId (stateId txHash : Bytes32) : Bytes32 :=
  hArray sha256 [cborText DOMAIN_BURN_TRANSITION, cborBytes stateId.toList, cborBytes txHash.toList]

/-- Nullifier of the return, bound to the vault through its configuration hash. -/
def nullifier (configHash burnTransitionId : Bytes32) : Bytes32 :=
  hArray sha256 [cborText DOMAIN_NULLIFIER, cborBytes configHash.toList,
    cborBytes burnTransitionId.toList]

/-- The domain tag of the public values. -/
def domainTag : Bytes32 := keccak256 DOMAIN_RETURN

/-- The six words of a leaf. -/
def leafWords (leaf : ReturnLeaf) : Bytes :=
  packWords [.b32 leaf.nullifier, .addr leaf.recipient, .u256 leaf.amount, .addr leaf.feeRecipient,
    .u256 leaf.feeAmount, .u64 leaf.deadline]

/-- Hash of the packed leaves, in the order of the batch. -/
def returnRoot (leaves : List ReturnLeaf) : Bytes32 := keccak256 (leaves.flatMap leafWords)

/-- A 64-bit integer as an amount. -/
def u256FromU64 (n : UInt64) : U256 := wordU64 n

/-- The two words of a lock reference. -/
def refWords (lockRef : SourceLockRef) : Bytes :=
  packWords [.u256 (u256FromU64 lockRef.nonce), .b32 lockRef.digest]

/-- The loop of `lock_ref_root`: the words of the references, whose nonces have to rise. -/
def lockRefWords : Option UInt64 → List SourceLockRef → Result Bytes
  | _, [] => .ok []
  | none, lockRef :: rest => do
      let words ← lockRefWords (some lockRef.nonce) rest
      .ok (refWords lockRef ++ words)
  | some prevNonce, lockRef :: rest => do
      ensure (lockRef.nonce ≠ prevNonce) .duplicateLockRefNonce
      ensure (¬ lockRef.nonce < prevNonce) .lockRefsNotSorted
      let words ← lockRefWords (some lockRef.nonce) rest
      .ok (refWords lockRef ++ words)

/-- Hash of the packed references, refused unless their nonces increase. -/
def lockRefRoot (refs : List SourceLockRef) : Result Bytes32 := do
  let words ← lockRefWords none refs
  .ok (keccak256 words)

/-- The ABI encoding of the public values, as the vault decodes it. -/
def publicValuesAbi (publicValues : PublicValues) : Bytes :=
  encode [.b32 publicValues.domainTag, .b32 publicValues.configHash,
    .b32 publicValues.trustBaseHash, .b32 publicValues.spentRootOld,
    .b32 publicValues.spentRootNew, .b32 publicValues.returnRoot, .b32 publicValues.lockRefRoot,
    .u32 publicValues.batchSize, .u256 publicValues.totalAmount]

/-- Hash of the encoded public values. -/
def publicValuesDigest (publicValues : PublicValues) : Bytes32 :=
  keccak256 (publicValuesAbi publicValues)

/-- One byte of the addition, from the low end. -/
def addByte (pair : UInt8 × UInt8) (out : Bytes × UInt16) : Bytes × UInt16 :=
  let sum := pair.1.toUInt16 + pair.2.toUInt16 + out.2
  (sum.toUInt8 :: out.1, sum >>> 8)

/-- Byte-wise addition that drops the carry out of the top byte. -/
def addU256 (left right : U256) : U256 :=
  ⟨((left.toList.zip right.toList).foldr addByte ([], 0)).1, by
    have hlen : ∀ pairs : List (UInt8 × UInt8),
        (pairs.foldr addByte ([], 0)).1.length = pairs.length := by
      intro pairs
      induction pairs with
      | nil => rfl
      | cons pair rest ih => simp [addByte, ih]
    simp [hlen]⟩

/-- The total of the leaves. The addition wraps around. -/
def sumAmounts (leaves : List ReturnLeaf) : U256 :=
  leaves.foldl (fun acc leaf => addU256 acc leaf.amount) (ByteArr.zero 32)

/-- The checks of the public values against the batch. -/
def validatePublicValues (config : BridgeConfig) (publicValues : PublicValues)
    (leaves : List ReturnLeaf) (sortedLockRefs : List SourceLockRef) : Result Unit := do
  ensure (publicValues.domainTag = domainTag keccak256) .wrongDomainTag
  ensure (publicValues.configHash = configHash keccak256 config) .wrongConfigHash
  ensure (publicValues.returnRoot = returnRoot keccak256 leaves) .wrongReturnRoot
  let root ← lockRefRoot keccak256 sortedLockRefs
  ensure (publicValues.lockRefRoot = root) .wrongLockRefRoot
  ensure (publicValues.batchSize = UInt32.ofNat leaves.length) .wrongBatchSize
  ensure (publicValues.totalAmount = sumAmounts leaves) .wrongTotalAmount

/-! ## Leaves and references are determined by their words -/

theorem wordNat_inj {a b : Nat} (ha : a < 2 ^ 256) (hb : b < 2 ^ 256)
    (h : wordNat a = wordNat b) : a = b := by
  have hpow : (256 : Nat) ^ 32 = 2 ^ 256 := by decide
  have hnat := congrArg ByteArr.toNat h
  rwa [wordNat, wordNat, ByteArr.toNat_ofNat (hpow ▸ ha), ByteArr.toNat_ofNat (hpow ▸ hb)] at hnat

theorem wordU64_inj {a b : UInt64} (h : wordU64 a = wordU64 b) : a = b := by
  have hlt : ∀ n : UInt64, n.toNat < 2 ^ 256 := fun n =>
    lt_of_lt_of_le n.toNat_lt (Nat.pow_le_pow_right (by decide) (by decide))
  exact UInt64.toNat_inj.1 (wordNat_inj (hlt a) (hlt b) h)

theorem wordAddress_inj {a b : Address} (h : wordAddress a = wordAddress b) : a = b := by
  have hlist : List.replicate 12 0 ++ a.toList = List.replicate 12 0 ++ b.toList :=
    congrArg List.Vector.toList h
  exact ByteArr.toList_inj.1 (List.append_cancel_left hlist)

theorem leafWords_length (leaf : ReturnLeaf) : (leafWords leaf).length = 192 := by
  rw [leafWords, packWords_length]
  rfl

theorem leafWords_inj (leaf leaf' : ReturnLeaf) (h : leafWords leaf = leafWords leaf') :
    leaf = leaf' := by
  have hwords := packWords_inj h (by simp only [List.length_cons])
  simp only [List.map_cons, List.map_nil, Val.word, List.cons.injEq, and_true] at hwords
  obtain ⟨hnullifier, hrecipient, hamount, hfeeRecipient, hfee, hdeadline⟩ := hwords
  cases leaf
  cases leaf'
  simp only [ReturnLeaf.mk.injEq]
  exact ⟨hnullifier, wordAddress_inj hrecipient, hamount, wordAddress_inj hfeeRecipient, hfee,
    wordU64_inj hdeadline⟩

/-- **The bytes under the return root determine the leaves.** -/
theorem leaves_inj {leaves leaves' : List ReturnLeaf}
    (h : leaves.flatMap leafWords = leaves'.flatMap leafWords) : leaves = leaves' :=
  flatMap_inj_of_length (by decide) leafWords_length leafWords_inj h

/-! ## What the checks accept -/

/-- The nonces of the references as numbers. -/
def nonces (refs : List SourceLockRef) : List Nat := refs.map fun lockRef => lockRef.nonce.toNat

theorem lockRefWords_eq_ok {prev : Option UInt64} {refs : List SourceLockRef} {words : Bytes} :
    lockRefWords prev refs = .ok words ↔
      (prev.toList.map UInt64.toNat ++ nonces refs).IsChain (· < ·) ∧
        words = refs.flatMap refWords := by
  induction refs generalizing prev words with
  | nil => cases prev <;> simp [lockRefWords, nonces, eq_comm]
  | cons r rest ih =>
      cases prev with
      | none =>
          simp only [lockRefWords, bind_eq_ok, ih, Except.ok.injEq]
          simp [nonces, eq_comm]
      | some p =>
          have hlt : (r.nonce ≠ p ∧ ¬ r.nonce < p) ↔ p.toNat < r.nonce.toNat := by
            rw [UInt64.lt_iff_toNat_lt, Ne, ← UInt64.toNat_inj]
            omega
          simp only [lockRefWords, bind_eq_ok, ensure_eq_ok, ih, Except.ok.injEq]
          simp [nonces, ← hlt, eq_comm, and_assoc]

/-- The root exists when the nonces rise strictly. -/
theorem lockRefRoot_eq_ok {refs : List SourceLockRef} {root : Bytes32} :
    lockRefRoot keccak256 refs = .ok root ↔
      (nonces refs).Pairwise (· < ·) ∧ root = keccak256 (refs.flatMap refWords) := by
  simp only [lockRefRoot, bind_eq_ok, lockRefWords_eq_ok, Except.ok.injEq, Option.toList_none,
    List.map_nil, List.nil_append, List.isChain_iff_pairwise]
  constructor
  · rintro ⟨words, ⟨hnonces, rfl⟩, rfl⟩
    exact ⟨hnonces, rfl⟩
  · rintro ⟨hnonces, rfl⟩
    exact ⟨_, ⟨hnonces, rfl⟩, rfl⟩

/-- **What `validate_public_values` accepts.** -/
theorem validatePublicValues_eq_ok {config : BridgeConfig} {pv : PublicValues}
    {leaves : List ReturnLeaf} {refs : List SourceLockRef} :
    validatePublicValues keccak256 config pv leaves refs = .ok () ↔
      pv.domainTag = domainTag keccak256 ∧ pv.configHash = configHash keccak256 config ∧
        pv.returnRoot = returnRoot keccak256 leaves ∧
        (nonces refs).Pairwise (· < ·) ∧ pv.lockRefRoot = keccak256 (refs.flatMap refWords) ∧
        pv.batchSize = UInt32.ofNat leaves.length ∧ pv.totalAmount = sumAmounts leaves := by
  simp only [validatePublicValues, bind_eq_ok, ensure_eq_ok, lockRefRoot_eq_ok, exists_const]
  constructor
  · rintro ⟨htag, hconfig, hreturn, root, ⟨hnonces, rfl⟩, href, hsize, htotal⟩
    exact ⟨htag, hconfig, hreturn, hnonces, href, hsize, htotal⟩
  · rintro ⟨htag, hconfig, hreturn, hnonces, href, hsize, htotal⟩
    exact ⟨htag, hconfig, hreturn, _, ⟨hnonces, rfl⟩, href, hsize, htotal⟩

end Hashing

/-! ## Arithmetic -/

theorem foldr_addByte (pairs : List (UInt8 × UInt8)) :
    (pairs.foldr addByte ([], 0)).1.length = pairs.length ∧
      (pairs.foldr addByte ([], 0)).2.toNat ≤ 1 ∧
      beNat (pairs.foldr addByte ([], 0)).1 +
          (pairs.foldr addByte ([], 0)).2.toNat * 256 ^ pairs.length =
        beNat (pairs.map Prod.fst) + beNat (pairs.map Prod.snd) := by
  induction pairs with
  | nil => exact ⟨rfl, by decide, rfl⟩
  | cons pair rest ih =>
      obtain ⟨hlen, hcarry, hsum⟩ := ih
      obtain ⟨l, r⟩ := pair
      generalize hout : rest.foldr addByte ([], 0) = out at hlen hcarry hsum
      obtain ⟨bytes, carry⟩ := out
      simp only at hlen hcarry hsum
      have hl := l.toNat_lt
      have hr := r.toNat_lt
      -- the sum of two bytes and a carry fits in 16 bits
      have hnat : (l.toUInt16 + r.toUInt16 + carry).toNat =
          l.toNat + r.toNat + carry.toNat := by
        simp only [UInt16.toNat_add, UInt8.toNat_toUInt16]
        omega
      have hhigh : ((l.toUInt16 + r.toUInt16 + carry) >>> 8).toNat =
          (l.toNat + r.toNat + carry.toNat) / 256 := by
        rw [UInt16.toNat_shiftRight, hnat]
        exact Nat.shiftRight_eq_div_pow _ 8
      have hlow : (l.toUInt16 + r.toUInt16 + carry).toUInt8.toNat =
          (l.toNat + r.toNat + carry.toNat) % 256 := by
        rw [UInt16.toNat_toUInt8, hnat]
      rw [List.foldr_cons, hout]
      simp only [addByte]
      refine ⟨by simp [hlen], by rw [hhigh]; omega, ?_⟩
      rw [beNat_cons, hlow, hhigh, List.map_cons, List.map_cons, beNat_cons, beNat_cons,
        List.length_map, List.length_map, hlen, List.length_cons, pow_succ]
      have hdm := Nat.mod_add_div (l.toNat + r.toNat + carry.toNat) 256
      generalize (l.toNat + r.toNat + carry.toNat) % 256 = low at hdm ⊢
      generalize (l.toNat + r.toNat + carry.toNat) / 256 = high at hdm ⊢
      have hscaled := congrArg (· * 256 ^ rest.length) hdm
      linarith

theorem toNat_lt_two_pow (value : U256) : value.toNat < 2 ^ 256 := by
  have h := ByteArr.toNat_lt value
  have hpow : (256 : Nat) ^ 32 = 2 ^ 256 := by decide
  rwa [hpow] at h

/-- **`add_u256` is addition modulo `2 ^ 256`.** -/
theorem addU256_toNat (left right : U256) :
    (addU256 left right).toNat = (left.toNat + right.toNat) % 2 ^ 256 := by
  have hpairs := foldr_addByte (left.toList.zip right.toList)
  have hfst : (left.toList.zip right.toList).map Prod.fst = left.toList :=
    List.map_fst_zip (by simp)
  have hsnd : (left.toList.zip right.toList).map Prod.snd = right.toList :=
    List.map_snd_zip (by simp)
  have hlen : (left.toList.zip right.toList).length = 32 := by simp
  rw [hfst, hsnd, hlen] at hpairs
  obtain ⟨-, -, hsum⟩ := hpairs
  have hlt := toNat_lt_two_pow (addU256 left right)
  have hpow : (256 : Nat) ^ 32 = 2 ^ 256 := by decide
  rw [hpow] at hsum
  show (addU256 left right).toNat = (beNat left.toList + beNat right.toList) % 2 ^ 256
  rw [← hsum, Nat.add_mul_mod_self_right]
  exact (Nat.mod_eq_of_lt hlt).symm

/-- The sum of the amounts as an integer. -/
def amountSum (leaves : List ReturnLeaf) : Nat :=
  (leaves.map fun leaf => leaf.amount.toNat).sum

theorem sumAmounts_toNat (leaves : List ReturnLeaf) :
    (sumAmounts leaves).toNat = amountSum leaves % 2 ^ 256 := by
  have hfold : ∀ (leaves : List ReturnLeaf) (acc : U256),
      (leaves.foldl (fun acc leaf => addU256 acc leaf.amount) acc).toNat =
        (acc.toNat + amountSum leaves) % 2 ^ 256 := by
    intro leaves
    induction leaves with
    | nil =>
        intro acc
        exact (Nat.mod_eq_of_lt (toNat_lt_two_pow acc)).symm
    | cons leaf rest ih =>
        intro acc
        rw [List.foldl_cons, ih, addU256_toNat, Nat.mod_add_mod]
        simp [amountSum, Nat.add_assoc]
  have hzero : (ByteArr.zero 32).toNat = 0 := by decide
  rw [sumAmounts, hfold, hzero, Nat.zero_add]

end UnicityBridge.Core
