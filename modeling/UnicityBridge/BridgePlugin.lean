import UnicityBridge.Core

/-!
# The wallet package's derivations

`packages/bridge-plugin/src/bridge-back/abi.ts` and `derivations.ts`: the ABI encoder over integers of
any size and byte arrays of any length, and the values the wallet derives for cross-checks. A byte array
of the wrong length throws. Keccak-256 is a parameter.

The last part compares the encoder with the prover's: on values that come from it, both write the same
bytes.
-/

set_option autoImplicit false

namespace UnicityBridge.BridgePlugin

open UnicityBridge.Lib

/-- A computation that may throw. -/
abbrev Result := Except String

/-! ## ABI encoding -/

/-- An ABI value of the plugin's encoder; integers are bigints or numbers. -/
inductive Val where
  | str (v : String)
  | u32 (v : Int)
  | u64 (v : Int)
  | u256 (v : Int)
  | addr (v : Bytes)
  | b32 (v : Bytes)

/-- The loop of `wordU`, with the bytes below still to write: it ends early once `n` is used up. -/
def wordUFrom : Nat → Int → Bytes → Bytes
  | 0, _, low => low
  | k + 1, n, low =>
      if 0 < n then wordUFrom k (n / 256) (UInt8.ofNat (n % 256).toNat :: low)
      else List.replicate (k + 1) 0 ++ low

/-- 32-byte big-endian word of an unsigned integer. -/
def wordU (n : Int) : Bytes := wordUFrom 32 n []

/-- The head word of a static value. -/
def staticWord : Val → Result Bytes
  | .u32 v => .ok (wordU v)
  | .u64 v => .ok (wordU v)
  | .u256 v => .ok (wordU v)
  | .addr v => do
      ensure (v.length = 20) "addr must be 20 bytes"
      .ok (List.replicate 12 0 ++ v)
  | .b32 v => do
      ensure (v.length = 32) "b32 must be 32 bytes"
      .ok v
  | .str _ => .error "dynamic value has no head word"

/-- The tail of a text: its length, then its bytes padded to words. -/
def textPiece (v : String) : Bytes :=
  let data := Core.utf8 v
  wordU data.length ++ (data ++ List.replicate ((data.length + 31) / 32 * 32 - data.length) 0)

/-- Append the head and the tail of one value. -/
def encodeStep (headSize : Nat) (out : Bytes × Bytes) (v : Val) : Result (Bytes × Bytes) :=
  match v with
  | .str text => .ok (out.1 ++ wordU (headSize + out.2.length : Nat), out.2 ++ textPiece text)
  | _ => do
      let word ← staticWord v
      .ok (out.1 ++ word, out.2)

/-- `abi.encode`: the heads of the values, then the tails of the dynamic ones. -/
def encode (vals : List Val) : Result Bytes := do
  let (heads, tails) ← vals.foldlM (encodeStep (32 * vals.length)) ([], [])
  .ok (heads ++ tails)

/-- Concatenated words, without framing. -/
def packWords : List Val → Result Bytes
  | [] => .ok []
  | v :: rest => do
      let word ← staticWord v
      let words ← packWords rest
      .ok (word ++ words)

/-! ## Derivations -/

/-- Domain of the configuration hash. -/
def DOMAIN_CONFIG : String := "unicity-bridge-return-config:v1"

/-- Domain of the lock digest. -/
def DOMAIN_LOCK : String := "unicity-bridge-lock:v1"

/-- The configuration of a return bridge, as TypeScript holds it. -/
structure BridgeConfig where
  sourceChainId : Int
  vault : Bytes
  asset : Bytes
  tokenType : Bytes
  coinId : Bytes
  reasonTag : Int
  lockDomain : Bytes
  nullifierDomain : Bytes

/-- The parameters of `lockDigest`. -/
structure LockParams where
  sourceChainId : Int
  vault : Bytes
  nonce : Int
  asset : Bytes
  tokenType : Bytes
  coinId : Bytes
  amount : Int
  unicityTokenId : Bytes
  recipientCommitment : Bytes

/-- A return of a batch. -/
structure ReturnLeaf where
  nullifier : Bytes
  recipient : Bytes
  amount : Int
  feeRecipient : Bytes
  feeAmount : Int
  deadline : Int

/-- A lock a batch draws on. -/
structure SourceLockRef where
  nonce : Int
  digest : Bytes

/-- The public values of a proof. -/
structure PublicValues where
  domainTag : Bytes
  configHash : Bytes
  trustBaseHash : Bytes
  spentRootOld : Bytes
  spentRootNew : Bytes
  returnRoot : Bytes
  lockRefRoot : Bytes
  batchSize : Int
  totalAmount : Int

section Derivations

variable (keccak256 : Bytes → Bytes32)

/-- Hash of the configuration. -/
def configHash (c : BridgeConfig) : Result Bytes32 := do
  let data ← encode [.str DOMAIN_CONFIG, .u64 c.sourceChainId, .addr c.vault, .addr c.asset,
    .b32 c.tokenType, .b32 c.coinId, .u64 c.reasonTag, .b32 c.lockDomain, .b32 c.nullifierDomain]
  .ok (keccak256 data)

/-- Digest of a lock, as the vault computes it. -/
def lockDigest (params : LockParams) : Result Bytes32 := do
  let data ← encode [.str DOMAIN_LOCK, .u64 params.sourceChainId, .addr params.vault,
    .u256 params.nonce, .addr params.asset, .b32 params.tokenType, .b32 params.coinId,
    .u256 params.amount, .b32 params.unicityTokenId, .b32 params.recipientCommitment]
  .ok (keccak256 data)

/-- The words a return leaf packs into. -/
def leafWords (l : ReturnLeaf) : List Val :=
  [.b32 l.nullifier, .addr l.recipient, .u256 l.amount, .addr l.feeRecipient, .u256 l.feeAmount,
    .u64 l.deadline]

/-- Hash of the packed leaves. -/
def returnRoot (leaves : List ReturnLeaf) : Result Bytes32 := do
  let parts ← leaves.mapM fun l => packWords (leafWords l)
  .ok (keccak256 parts.flatten)

/-- The check of neighbours in the sorted references. -/
def checkDuplicates : List SourceLockRef → Result Unit
  | previous :: next :: rest => do
      ensure (next.nonce ≠ previous.nonce) s!"lockRefRoot: duplicate nonce {next.nonce}"
      checkDuplicates (next :: rest)
  | _ => .ok ()

/-- The references are sorted by nonce first. -/
def lockRefRoot (refs : List SourceLockRef) : Result Bytes32 := do
  let sorted := refs.mergeSort fun a b => decide (a.nonce ≤ b.nonce)
  checkDuplicates sorted
  let parts ← sorted.mapM fun r => packWords [.u256 r.nonce, .b32 r.digest]
  .ok (keccak256 parts.flatten)

end Derivations

/-- The ABI encoding of the public values, as the vault decodes it. -/
def publicValuesAbi (p : PublicValues) : Result Bytes :=
  encode [.b32 p.domainTag, .b32 p.configHash, .b32 p.trustBaseHash, .b32 p.spentRootOld,
    .b32 p.spentRootNew, .b32 p.returnRoot, .b32 p.lockRefRoot, .u32 p.batchSize,
    .u256 p.totalAmount]

/-! ## Words -/

theorem beBytes_zero (k : Nat) : beBytes k 0 = List.replicate k 0 := by
  induction k with
  | zero => rfl
  | succ k ih => rw [beBytes, Nat.zero_div, ih, List.replicate_succ']; rfl

theorem wordUFrom_eq (k : Nat) (n : Int) (low : Bytes) :
    wordUFrom k n low = beBytes k n.toNat ++ low := by
  induction k generalizing n low with
  | zero => rfl
  | succ k ih =>
      rw [wordUFrom]
      split
      · next hpos =>
        obtain ⟨m, rfl⟩ := Int.eq_ofNat_of_zero_le hpos.le
        have hdiv : ((m : Int) / 256).toNat = m / 256 := by omega
        have hmod : ((m : Int) % 256).toNat = m % 256 := by omega
        have hbyte : UInt8.ofNat (m % 256) = UInt8.ofNat m := UInt8.ofNat_mod_size
        rw [ih, hdiv, hmod, hbyte, beBytes, Int.toNat_natCast, List.append_assoc]
        rfl
      · next hneg =>
        rw [Int.toNat_of_nonpos (not_lt.1 hneg), beBytes_zero]

/-- **A word is the big-endian number of 32 bytes.** -/
theorem wordU_eq (n : Nat) : wordU n = (Core.wordNat n).toList := by
  rw [wordU, wordUFrom_eq, Int.toNat_natCast, List.append_nil]
  rfl

/-! ## The two encoders -/

/-- A static value of the prover's encoder as a value of this one. -/
def ofVal : Core.Val → Val
  | .str _ => .str ""
  | .u32 value => .u32 value.toNat
  | .u64 value => .u64 value.toNat
  | .u256 value => .u256 value.toNat
  | .addr value => .addr value.toList
  | .b32 value => .b32 value.toList

theorem staticWord_ofVal {value : Core.Val} (h : value.isDynamic = false) :
    staticWord (ofVal value) = .ok value.word.toList := by
  cases value with
  | str text => cases h
  | u32 value => exact congrArg Except.ok (wordU_eq _)
  | u64 value => exact congrArg Except.ok (wordU_eq _)
  | u256 value =>
      have hword := wordU_eq value.toNat
      rw [Core.wordNat, ByteArr.ofNat_toNat] at hword
      exact congrArg Except.ok hword
  | addr value =>
      simp only [ofVal, staticWord, bind_eq_ok, ensure_eq_ok]
      exact ⟨(), value.toList_length, rfl⟩
  | b32 value =>
      simp only [ofVal, staticWord, bind_eq_ok, ensure_eq_ok]
      exact ⟨(), value.toList_length, rfl⟩

theorem encodeStep_ofVal {headSize : Nat} {out : Bytes × Bytes} {value : Core.Val}
    (h : value.isDynamic = false) :
    encodeStep headSize out (ofVal value) = .ok (out.1 ++ value.word.toList, out.2) := by
  have hword := staticWord_ofVal h
  cases value with
  | str text => cases h
  | u32 | u64 | u256 | addr | b32 =>
      simp only [ofVal, encodeStep] at hword ⊢
      rw [hword]
      rfl

theorem foldlM_encodeStep_ofVal (headSize : Nat) {values : List Core.Val}
    (h : ∀ value ∈ values, value.isDynamic = false) (out : Bytes × Bytes) :
    (values.map ofVal).foldlM (encodeStep headSize) out =
      .ok (out.1 ++ Core.packWords values, out.2) := by
  induction values generalizing out with
  | nil =>
      rw [Core.packWords, List.flatMap_nil, List.append_nil]
      rfl
  | cons value rest ih =>
      rw [List.map_cons, List.foldlM_cons, encodeStep_ofVal (h value List.mem_cons_self)]
      show (rest.map ofVal).foldlM (encodeStep headSize) _ = _
      rw [ih fun v hv => h v (List.mem_cons_of_mem value hv), Core.packWords_cons,
        List.append_assoc]

theorem textPiece_eq (text : String) : textPiece text = Core.textTail (Core.utf8 text) := by
  have hpad : ((Core.utf8 text).length + 31) / 32 * 32 - (Core.utf8 text).length =
      (32 - (Core.utf8 text).length % 32) % 32 := by
    omega
  rw [textPiece, Core.textTail, wordU_eq, hpad, List.append_assoc]

/-- **Static values are encoded to the same bytes.** -/
theorem encode_ofVal {values : List Core.Val}
    (h : ∀ value ∈ values, value.isDynamic = false) :
    encode (values.map ofVal) = .ok (Core.encode values) := by
  rw [encode, foldlM_encodeStep_ofVal _ h, Core.encode_static h]
  show Except.ok (([] ++ Core.packWords values) ++ []) = _
  rw [List.nil_append, List.append_nil]

/-- **So are static values behind a text.** -/
theorem encode_str_ofVal (text : String) {values : List Core.Val}
    (h : ∀ value ∈ values, value.isDynamic = false) :
    encode (.str text :: values.map ofVal) =
      .ok (Core.encode (.str (Core.utf8 text) :: values)) := by
  have hfirst (headSize : Nat) : encodeStep headSize ([], []) (.str text) =
      .ok (wordU headSize, textPiece text) := by
    simp only [encodeStep, List.nil_append, List.length_nil, Nat.add_zero]
  have hbind {α β : Type} (a : α) (f : α → Result β) : (Except.ok a >>= f) = f a := rfl
  rw [encode, List.foldlM_cons, hfirst, hbind, foldlM_encodeStep_ofVal _ h, hbind,
    List.length_cons, List.length_map, Core.encode_str_cons _ h, wordU_eq, textPiece_eq]

theorem packWords_ofVal {values : List Core.Val}
    (h : ∀ value ∈ values, value.isDynamic = false) :
    packWords (values.map ofVal) = .ok (Core.packWords values) := by
  induction values with
  | nil => rfl
  | cons value rest ih =>
      rw [List.map_cons, packWords, staticWord_ofVal (h value List.mem_cons_self),
        ih fun v hv => h v (List.mem_cons_of_mem value hv), Core.packWords_cons]
      rfl

end UnicityBridge.BridgePlugin
