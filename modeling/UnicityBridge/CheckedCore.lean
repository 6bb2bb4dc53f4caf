import UnicityBridge.Accumulator
import UnicityBridge.Core
import UnicityBridge.Lib.Checked

/-!
# The contract and the accumulator with their panics

The functions of `prover/crates/core/src` and of `prover/crates/sdk-ext/src/accumulator.rs` that index,
slice or subtract, with a panic where the index or the difference is out of range. Arrays are lists
here, so that nothing is in range by its type.

All of them return what the plain models compute, but `terminal_depth`: it panics on steps that go on
below depth 0 (`terminalDepth_panics`), and with it the checks of a witness that has such steps.
-/

set_option autoImplicit false

namespace UnicityBridge.CheckedCore

open UnicityBridge.Lib UnicityBridge.Lib.Checked UnicityBridge.Core

variable {ε : Type}

/-! ## Words -/

/-- `[0u8; 32]` -/
def zeroWord : Bytes := List.replicate 32 0

theorem copy_number {width value start : Nat} (hstart : start + width = 32)
    (h : value < 256 ^ width) :
    (copyFrom zeroWord start (beBytes width value) : Checked ε Bytes) =
      lift (.ok (wordNat value).toList) := by
  have hword : (wordNat value).toList = beBytes (start + width) value := by
    rw [hstart]
    rfl
  rw [copyFrom_eq (by rw [beBytes_length, zeroWord, List.length_replicate, hstart]), zeroWord,
    List.take_replicate, Nat.min_eq_left (by omega), zeros_append_beBytes start h, hword]

theorem copy_array {n start : Nat} (hstart : start + n = 32) (value : ByteArr n) :
    (copyFrom zeroWord start value.toList : Checked ε Bytes) =
      lift (.ok (List.replicate start 0 ++ value.toList)) := by
  rw [copyFrom_eq (by rw [List.Vector.toList_length, zeroWord, List.length_replicate, hstart]),
    zeroWord, List.take_replicate, Nat.min_eq_left (by omega)]

/-- The 32-byte word of a static value, by copies into a zeroed buffer. -/
def word : Val → Checked ε Bytes
  | .u32 value => copyFrom zeroWord 28 (beBytes 4 value.toNat)
  | .u64 value => copyFrom zeroWord 24 (beBytes 8 value.toNat)
  | .u256 value => copyFrom zeroWord 0 value.toList
  | .addr value => copyFrom zeroWord 12 value.toList
  | .b32 value => copyFrom zeroWord 0 value.toList
  | .str _ => panic

/-- Static values have a word. -/
theorem word_eq {value : Val} (h : value.isDynamic = false) :
    (word value : Checked ε Bytes) = lift (.ok value.word.toList) := by
  cases value with
  | str text => cases h
  | u32 value => exact copy_number rfl value.toNat_lt
  | u64 value => exact copy_number rfl value.toNat_lt
  | u256 value | addr value | b32 value => exact copy_array rfl value

/-- `word_u64` -/
def wordU64 (value : Nat) : Checked ε Bytes := copyFrom zeroWord 24 (beBytes 8 value)

/-- The words of the values, one behind the other. -/
def packWords (values : List Val) : Checked ε Bytes :=
  values.foldlM (fun out value => do
    let word ← word value
    pure (out ++ word)) []

theorem packWords_eq {values : List Val} (h : ∀ value ∈ values, value.isDynamic = false) :
    (packWords values : Checked ε Bytes) = lift (.ok (Core.packWords values)) :=
  foldlM_extend (fun value hvalue => word_eq (h value hvalue)) []

/-- One value of `abi::encode`. -/
def encodeStep (headSize : Nat) (out : Bytes × Bytes) (value : Val) : Checked ε (Bytes × Bytes) :=
  match value with
  | .str text => do
      let offset ← wordU64 (headSize + out.2.length)
      let length ← wordU64 text.length
      let rem := text.length % 32
      let padded ← if rem ≠ 0 then do
          let size ← sub (text.length + 32) rem
          pure (text ++ List.replicate (size - text.length) 0)
        else pure text
      pure (out.1 ++ offset, out.2 ++ (length ++ padded))
  | _ => do
      let word ← word value
      pure (out.1 ++ word, out.2)

/-- Heads and tails, with every slice of the source checked. -/
def encode (values : List Val) : Checked ε Bytes := do
  let out ← values.foldlM (encodeStep (32 * values.length)) ([], [])
  pure (out.1 ++ out.2)

theorem encodeStep_static {headSize : Nat} {out : Bytes × Bytes} {value : Val}
    (h : value.isDynamic = false) :
    (encodeStep headSize out value : Checked ε (Bytes × Bytes)) =
      lift (.ok (Core.encodeStep headSize out value)) := by
  rw [Core.encodeStep_static h]
  cases value with
  | str text => cases h
  | u32 | u64 | u256 | addr | b32 =>
      simp only [encodeStep]
      rw [word_eq h]
      rfl

theorem encodeStep_str {headSize : Nat} {out : Bytes × Bytes} {text : Bytes}
    (hsize : headSize + out.2.length < 2 ^ 64) (htext : text.length < 2 ^ 64) :
    (encodeStep headSize out (.str text) : Checked ε (Bytes × Bytes)) =
      lift (.ok (Core.encodeStep headSize out (.str text))) := by
  have hoffset : (wordU64 (headSize + out.2.length) : Checked ε Bytes) = _ :=
    copy_number rfl (by omega : headSize + out.2.length < 256 ^ 8)
  have hlength : (wordU64 text.length : Checked ε Bytes) = _ :=
    copy_number rfl (by omega : text.length < 256 ^ 8)
  simp only [encodeStep]
  rw [hoffset, ok_bind, hlength, ok_bind]
  split
  · next hrem =>
    have hpad : text.length + 32 - text.length % 32 - text.length = (32 - text.length % 32) % 32 := by
      omega
    rw [sub_eq (by omega), ok_bind, hpad]
    simp only [Core.encodeStep, Core.textTail]
    rw [List.append_assoc]
    rfl
  · next hrem =>
    have hpad : (32 - text.length % 32) % 32 = 0 := by omega
    simp only [Core.encodeStep, Core.textTail, hpad]
    rw [List.replicate_zero, List.append_nil]
    rfl

theorem encode_static {values : List Val} (h : ∀ value ∈ values, value.isDynamic = false) :
    (encode values : Checked ε Bytes) = lift (.ok (Core.encode values)) := by
  rw [encode, foldlM_ok fun out value hvalue => encodeStep_static (h value hvalue)]
  rfl

/-- A leading text, of which the callers pass constants. -/
theorem encode_str {text : Bytes} {values : List Val} (htext : text.length < 2 ^ 64)
    (hsize : 32 * (values.length + 1) < 2 ^ 64) (h : ∀ value ∈ values, value.isDynamic = false) :
    (encode (.str text :: values) : Checked ε Bytes) =
      lift (.ok (Core.encode (.str text :: values))) := by
  rw [encode, List.foldlM_cons, List.length_cons, encodeStep_str hsize htext, ok_bind,
    foldlM_ok fun out value hvalue => encodeStep_static (h value hvalue), ok_bind, pure_eq,
    Core.encode, List.foldl_cons, List.length_cons]

/-! ## Amounts -/

/-- `u256_from_u64`, by a copy into the last eight bytes. -/
def u256FromU64 (n : UInt64) : Checked ε U256 := do
  let out ← copyFrom zeroWord 24 (beBytes 8 n.toNat)
  asArray 32 out

theorem u256FromU64_eq (n : UInt64) :
    (u256FromU64 n : Checked ε U256) = lift (.ok (Core.u256FromU64 n)) := by
  rw [u256FromU64, copy_number rfl n.toNat_lt, ok_bind, asArray_toList]
  rfl

/-- The loop of `add_u256`, with `i` bytes left. -/
def addFrom (right : Bytes) : Nat → Bytes → UInt16 → Checked ε Bytes
  | 0, left, _ => pure left
  | i + 1, left, carry => do
      let a ← index left i
      let b ← index right i
      let sum := a.toUInt16 + b.toUInt16 + carry
      let left ← setIndex left i sum.toUInt8
      addFrom right i left (sum >>> 8)

/-- The byte-wise addition of `sum_amounts`, which wraps without an error. -/
def addU256 (left right : U256) : Checked ε U256 := do
  let out ← addFrom right.toList 32 left.toList 0
  asArray 32 out

/-- `left` still has its first `i` bytes; behind them stand the sums of the bytes from `i` on. -/
theorem addFrom_eq {left right : Bytes} (hlength : left.length = right.length) :
    ∀ i ≤ left.length, ∀ sums : Bytes × UInt16,
      sums = ((left.drop i).zip (right.drop i)).foldr addByte ([], 0) →
      (addFrom right i (left.take i ++ sums.1) sums.2 : Checked ε Bytes) =
        lift (.ok ((left.zip right).foldr addByte ([], 0)).1) := by
  intro i
  induction i with
  | zero =>
      rintro - sums rfl
      rfl
  | succ i ih =>
      rintro hi sums hsums
      have hlow : i < left.length := hi
      have hright : i < right.length := hlength ▸ hlow
      have hzip : (left.drop i).zip (right.drop i) =
          (left[i], right[i]) :: (left.drop (i + 1)).zip (right.drop (i + 1)) := by
        rw [List.drop_eq_getElem_cons hlow, List.drop_eq_getElem_cons hright, List.zip_cons_cons]
      have hfront : (left.take i).length = i := by
        rw [List.length_take]
        omega
      have htake : left.take (i + 1) ++ sums.1 = left.take i ++ (left[i] :: sums.1) := by
        rw [← List.take_concat_get' left i hlow, List.append_assoc, List.singleton_append]
      have ha : (left.take i ++ (left[i] :: sums.1))[i]? = some left[i] := by
        rw [List.getElem?_append_right (Nat.le_of_eq hfront), hfront, Nat.sub_self]
        rfl
      have hb : right[i]? = some right[i] := List.getElem?_eq_getElem hright
      have hset (b : UInt8) : (left.take i ++ (left[i] :: sums.1)).set i b =
          left.take i ++ (b :: sums.1) := by
        rw [List.set_append_right _ _ (Nat.le_of_eq hfront), hfront, Nat.sub_self]
        rfl
      simp only [addFrom]
      rw [htake, index_eq ha, ok_bind, index_eq hb, ok_bind, setIndex_eq, ok_bind, hset]
      · refine ih (Nat.le_of_lt hlow) (addByte (left[i], right[i]) sums) ?_
        rw [hzip, List.foldr_cons, hsums]
      · rw [List.length_append, hfront, List.length_cons]
        omega

theorem addU256_eq (left right : U256) :
    (addU256 left right : Checked ε U256) = lift (.ok (Core.addU256 left right)) := by
  have hleft : left.toList.length = 32 := left.toList_length
  have hright : right.toList.length = 32 := right.toList_length
  have hloop := @addFrom_eq ε _ _ (hleft.trans hright.symm) 32 hleft.ge ([], 0) (by
    rw [List.drop_of_length_le hleft.le]
    rfl)
  rw [List.append_nil, List.take_of_length_le hleft.le] at hloop
  rw [addU256, hloop, ok_bind]
  exact asArray_toList (Core.addU256 left right)

/-- The total of the leaves in the wrapping arithmetic. -/
def sumAmounts (leaves : List ReturnLeaf) : Checked ε U256 :=
  leaves.foldlM (fun acc leaf => addU256 acc leaf.amount) (ByteArr.zero 32)

theorem sumAmounts_eq (leaves : List ReturnLeaf) :
    (sumAmounts leaves : Checked ε U256) = lift (.ok (Core.sumAmounts leaves)) :=
  foldlM_ok (fun acc leaf _ => addU256_eq acc leaf.amount) _

/-! ## Roots -/

/-- The return root over checked words. -/
def returnRoot (keccak256 : Bytes → Bytes32) (leaves : List ReturnLeaf) : Checked ε Bytes32 := do
  let buf ← leaves.foldlM (fun buf leaf => do
    let words ← packWords [.b32 leaf.nullifier, .addr leaf.recipient, .u256 leaf.amount,
      .addr leaf.feeRecipient, .u256 leaf.feeAmount, .u64 leaf.deadline]
    pure (buf ++ words)) []
  pure (keccak256 buf)

theorem returnRoot_eq (keccak256 : Bytes → Bytes32) (leaves : List ReturnLeaf) :
    (returnRoot keccak256 leaves : Checked ε Bytes32) =
      lift (.ok (Core.returnRoot keccak256 leaves)) := by
  rw [returnRoot, foldlM_extend (g := leafWords) fun leaf _ => packWords_eq (by simp [Val.isDynamic])]
  rfl

/-- The two words of a lock reference. -/
def refWords (lockRef : SourceLockRef) : Checked ε Bytes := do
  let nonce ← u256FromU64 lockRef.nonce
  packWords [.u256 nonce, .b32 lockRef.digest]

theorem refWords_eq (lockRef : SourceLockRef) :
    (refWords lockRef : Checked ε Bytes) = lift (.ok (Core.refWords lockRef)) := by
  rw [refWords, u256FromU64_eq, ok_bind, packWords_eq (by simp [Val.isDynamic])]
  rfl

/-- The loop of `lock_ref_root`. -/
def lockRefWords : Option UInt64 → List SourceLockRef → Checked BridgeCoreError Bytes
  | _, [] => pure []
  | none, lockRef :: rest => do
      let head ← refWords lockRef
      let words ← lockRefWords (some lockRef.nonce) rest
      pure (head ++ words)
  | some prevNonce, lockRef :: rest => do
      ensure (lockRef.nonce ≠ prevNonce) BridgeCoreError.duplicateLockRefNonce
      ensure (¬ lockRef.nonce < prevNonce) BridgeCoreError.lockRefsNotSorted
      let head ← refWords lockRef
      let words ← lockRefWords (some lockRef.nonce) rest
      pure (head ++ words)

theorem lockRefWords_eq (prev : Option UInt64) (refs : List SourceLockRef) :
    lockRefWords prev refs = lift (Core.lockRefWords prev refs) := by
  induction refs generalizing prev with
  | nil => cases prev with
    | none | some => rfl
  | cons lockRef rest ih =>
      cases prev with
      | none =>
          rw [lockRefWords, Core.lockRefWords, refWords_eq, ok_bind, ih]
          exact bind_eq rfl fun _ _ => rfl
      | some prevNonce =>
          rw [lockRefWords, Core.lockRefWords]
          refine bind_eq rfl fun _ _ => bind_eq rfl fun _ _ => ?_
          rw [refWords_eq, ok_bind, ih]
          exact bind_eq rfl fun _ _ => rfl

/-- The lock reference root, with the order of the references checked on the way. -/
def lockRefRoot (keccak256 : Bytes → Bytes32) (refs : List SourceLockRef) :
    Checked BridgeCoreError Bytes32 := do
  let words ← lockRefWords none refs
  pure (keccak256 words)

theorem lockRefRoot_eq (keccak256 : Bytes → Bytes32) (refs : List SourceLockRef) :
    lockRefRoot keccak256 refs = lift (Core.lockRefRoot keccak256 refs) :=
  bind_eq (lockRefWords_eq none refs) fun _ _ => rfl

/-- The configuration hash over checked words. -/
def configHash (keccak256 : Bytes → Bytes32) (config : BridgeConfig) : Checked ε Bytes32 := do
  let encoded ← encode [.str DOMAIN_CONFIG, .u64 config.sourceChainId, .addr config.vault,
    .addr config.asset, .b32 config.tokenType, .b32 config.coinId, .u64 config.reasonTag,
    .b32 config.lockDomain, .b32 config.nullifierDomain]
  pure (keccak256 encoded)

theorem configHash_eq (keccak256 : Bytes → Bytes32) (config : BridgeConfig) :
    (configHash keccak256 config : Checked ε Bytes32) =
      lift (.ok (Core.configHash keccak256 config)) := by
  rw [configHash, encode_str (by decide) (by simp) (by simp [Val.isDynamic])]
  rfl

/-- The encoding of the public values over checked words. -/
def publicValuesAbi (publicValues : PublicValues) : Checked ε Bytes :=
  encode [.b32 publicValues.domainTag, .b32 publicValues.configHash,
    .b32 publicValues.trustBaseHash, .b32 publicValues.spentRootOld,
    .b32 publicValues.spentRootNew, .b32 publicValues.returnRoot, .b32 publicValues.lockRefRoot,
    .u32 publicValues.batchSize, .u256 publicValues.totalAmount]

/-- The checks of the public values, each over the checked functions. -/
def validatePublicValues (keccak256 : Bytes → Bytes32) (config : BridgeConfig)
    (publicValues : PublicValues) (leaves : List ReturnLeaf) (sortedLockRefs : List SourceLockRef) :
    Checked BridgeCoreError Unit := do
  ensure (publicValues.domainTag = domainTag keccak256) BridgeCoreError.wrongDomainTag
  let cfgHash ← configHash keccak256 config
  ensure (publicValues.configHash = cfgHash) BridgeCoreError.wrongConfigHash
  let leavesRoot ← returnRoot keccak256 leaves
  ensure (publicValues.returnRoot = leavesRoot) BridgeCoreError.wrongReturnRoot
  let root ← lockRefRoot keccak256 sortedLockRefs
  ensure (publicValues.lockRefRoot = root) BridgeCoreError.wrongLockRefRoot
  ensure (publicValues.batchSize = UInt32.ofNat leaves.length) BridgeCoreError.wrongBatchSize
  let total ← sumAmounts leaves
  ensure (publicValues.totalAmount = total) BridgeCoreError.wrongTotalAmount

/-- **The checks of the public values return** on every input. -/
theorem validatePublicValues_eq (keccak256 : Bytes → Bytes32) (config : BridgeConfig)
    (publicValues : PublicValues) (leaves : List ReturnLeaf) (sortedLockRefs : List SourceLockRef) :
    validatePublicValues keccak256 config publicValues leaves sortedLockRefs =
      lift (Core.validatePublicValues keccak256 config publicValues leaves sortedLockRefs) := by
  refine bind_eq rfl fun _ _ => ?_
  rw [configHash_eq, ok_bind]
  refine bind_eq rfl fun _ _ => ?_
  rw [returnRoot_eq, ok_bind]
  refine bind_eq rfl fun _ _ => bind_eq (lockRefRoot_eq keccak256 sortedLockRefs) fun _ _ =>
    bind_eq rfl fun _ _ => bind_eq rfl fun _ _ => ?_
  rw [sumAmounts_eq, ok_bind]
  rfl

/-! ## The accumulator -/

section Accumulator

open UnicityBridge.Accumulator (Key SmtProofStep NonMembershipWitness EMPTY_TREE_ROOT DEPTH MAX_STEPS
  nodeHash leafHash)

/-- A bit of a key. -/
def bitAt (data : Bytes) (i : Nat) : Checked ε Bool := do
  let byte ← index data (i / 8)
  pure ((byte >>> UInt8.ofNat (i % 8)) &&& 1 == 1)

theorem bitAt_eq (key : Key) {i : Nat} (h : i < DEPTH) :
    (bitAt key.toList i : Checked ε Bool) = lift (.ok (Lib.bitAt key.toList i)) := by
  have hbyte : key.toList[i / 8]? = some (key.toList.getD (i / 8) 0) := by
    have hi : i / 8 < key.toList.length := by
      rw [key.toList_length]
      unfold DEPTH at h
      omega
    rw [List.getD_eq_getElem?_getD, List.getElem?_eq_getElem hi, Option.getD_some]
  rw [bitAt, index_eq hbyte]
  rfl

/-- The loop of `terminal_depth`, from step `i` on. -/
def checkDepths (top : Nat) : Nat → List SmtProofStep → Checked Unit Unit
  | _, [] => pure ()
  | i, step :: rest => do
      let expected ← sub top i
      ensure (step.depth.toNat = expected) ()
      checkDepths top (i + 1) rest

/-- The depth of the terminal, with the subtractions of the source checked. -/
def terminalDepth (steps : List SmtProofStep) : Checked Unit Nat := do
  let first ← (okOr steps.head? () : Except Unit SmtProofStep)
  let top := first.depth.toNat
  checkDepths top 0 steps
  let last ← (okOr steps.getLast? () : Except Unit SmtProofStep)
  ensure (last.depth = 0) ()
  pure (top + 1)

/-- The steps from the `i`th on descend to depth 0 one level at a time, and go on. -/
def RunsOver (top i : Nat) (steps : List SmtProofStep) : Prop :=
  top + 1 < i + steps.length ∧
    ∀ j, i + j ≤ top → ∀ step, steps[j]? = some step → step.depth.toNat = top - (i + j)

/-- The condition that the loop checks of all steps. -/
def Contiguous (top i : Nat) (steps : List SmtProofStep) : Prop :=
  ∀ pair ∈ steps.zipIdx i, pair.2 ≤ top ∧ pair.1.depth.toNat = top - pair.2

instance (top i : Nat) (steps : List SmtProofStep) : Decidable (Contiguous top i steps) :=
  inferInstanceAs (Decidable (∀ pair ∈ steps.zipIdx i, pair.2 ≤ top ∧ pair.1.depth.toNat = top - pair.2))

theorem contiguous_cons {top i : Nat} {step : SmtProofStep} {rest : List SmtProofStep} :
    Contiguous top i (step :: rest) ↔
      (i ≤ top ∧ step.depth.toNat = top - i) ∧ Contiguous top (i + 1) rest := by
  rw [Contiguous, List.zipIdx_cons, List.forall_mem_cons]
  exact Iff.rfl

theorem runsOver_cons {top i : Nat} {step : SmtProofStep} {rest : List SmtProofStep} (hi : i ≤ top) :
    RunsOver top i (step :: rest) ↔ step.depth.toNat = top - i ∧ RunsOver top (i + 1) rest := by
  constructor
  · rintro ⟨hlength, hdepths⟩
    rw [List.length_cons] at hlength
    refine ⟨hdepths 0 hi step rfl, by omega, fun j hj other hother => ?_⟩
    have hdepth := hdepths (j + 1) (by omega) other (by rwa [List.getElem?_cons_succ])
    rw [hdepth]
    omega
  · rintro ⟨hstep, hlength, hdepths⟩
    refine ⟨by rw [List.length_cons]; omega, fun j hj other hother => ?_⟩
    cases j with
    | zero =>
        obtain rfl := Option.some.inj hother
        exact hstep
    | succ j =>
        rw [List.getElem?_cons_succ] at hother
        rw [hdepths j (by omega) other hother]
        omega

/-- The loop panics on the step behind depth 0. -/
theorem checkDepths_panics (top : Nat) (steps : List SmtProofStep) (i : Nat) (hi : i ≤ top + 1) :
    PanicsIff (RunsOver top i steps) (checkDepths top i steps) (ensure (Contiguous top i steps) ()) := by
  induction steps generalizing i with
  | nil =>
      have hall : Contiguous top i [] := fun pair hpair => absurd hpair List.not_mem_nil
      have hnot : ¬ RunsOver top i [] := fun h => by
        have hlength := h.1
        rw [List.length_nil] at hlength
        omega
      refine (PanicsIff.of_eq ?_).congr (iff_of_false id hnot)
      rw [ensure, if_pos hall]
      rfl
  | cons step rest ih =>
      by_cases hlast : i = top + 1
      · have hsub : (sub top i : Checked Unit Nat) = panic := if_neg (by omega)
        have hover : RunsOver top i (step :: rest) :=
          ⟨by rw [List.length_cons]; omega, fun j hj => absurd hj (by omega)⟩
        refine ⟨fun _ => ?_, fun hnot => absurd hover hnot⟩
        rw [checkDepths, hsub, panic_bind]
      · have hle : i ≤ top := by omega
        rw [checkDepths, sub_eq hle, ok_bind]
        by_cases hstep : step.depth.toNat = top - i
        · have hrest := ih (i + 1) (by omega)
          have hcontiguous : Contiguous top i (step :: rest) ↔ Contiguous top (i + 1) rest := by
            rw [contiguous_cons, and_iff_right ⟨hle, hstep⟩]
          have hensure : (ensure (step.depth.toNat = top - i) () : Except Unit Unit) = .ok () :=
            if_pos hstep
          simp only [hensure, hcontiguous]
          exact hrest.congr (by rw [runsOver_cons hle, and_iff_right hstep])
        · have hensure : (ensure (step.depth.toNat = top - i) () : Except Unit Unit) = .error () :=
            if_neg hstep
          have hcontiguous : ¬ Contiguous top i (step :: rest) := fun h =>
            hstep (contiguous_cons.1 h).1.2
          refine (PanicsIff.of_eq ?_).congr (iff_of_false id fun h => hstep ((runsOver_cons hle).1 h).1)
          rw [hensure, ensure, if_neg hcontiguous]
          rfl

/-- Steps that go on below depth 0: the first is so deep that the steps come down to 0 before they
end. -/
def Overrun (steps : List SmtProofStep) : Prop :=
  ∃ first, steps.head? = some first ∧ RunsOver first.depth.toNat 0 steps

/-- **The terminal depth panics** exactly on steps that go on below depth 0. -/
theorem terminalDepth_panics (steps : List SmtProofStep) :
    PanicsIff (Overrun steps) (terminalDepth steps) (okOr (Accumulator.terminalDepth steps) ()) := by
  cases steps with
  | nil =>
      refine (PanicsIff.of_eq rfl).congr (iff_of_false id ?_)
      rintro ⟨first, h, -⟩
      cases h
  | cons first rest =>
      -- both sides are a walk over the steps and then this
      let tail : Except Unit Nat := do
        let last ← okOr (first :: rest).getLast? ()
        ensure (last.depth = 0) ()
        .ok (first.depth.toNat + 1)
      have hchecked : terminalDepth (first :: rest) =
          checkDepths first.depth.toNat 0 (first :: rest) >>= fun _ => lift tail :=
        congrArg (checkDepths first.depth.toNat 0 (first :: rest) >>= ·)
          (funext fun _ => bind_eq rfl fun _ _ => bind_eq rfl fun _ _ => rfl)
      have hplain : okOr (Accumulator.terminalDepth (first :: rest)) () =
          ensure (Contiguous first.depth.toNat 0 (first :: rest)) () >>= fun _ => tail := by
        obtain ⟨last, hlast⟩ : ∃ last, (first :: rest).getLast? = some last :=
          ⟨_, List.getLast?_eq_getLast_of_ne_nil (List.cons_ne_nil first rest)⟩
        -- the source checks each step's depth against the first one's; the walk does the same
        have hall (check : SmtProofStep × Nat → Bool) (hcheck : ∀ pair, check pair =
              (decide (pair.2 ≤ first.depth.toNat) &&
                pair.1.depth.toNat == first.depth.toNat - pair.2)) :
            (first :: rest).zipIdx.all check =
              decide (Contiguous first.depth.toNat 0 (first :: rest)) := by
          rw [Bool.eq_iff_iff, decide_eq_true_iff, Contiguous, List.all_eq_true]
          simp only [hcheck, Bool.and_eq_true, decide_eq_true_iff, beq_iff_eq]
        simp only [Accumulator.terminalDepth, List.head?_cons, Option.bind_eq_bind, Option.bind_some,
          hlast, tail]
        rw [hall _ fun _ => rfl]
        by_cases hcontiguous : Contiguous first.depth.toNat 0 (first :: rest)
        · have hsteps : ensure (Contiguous first.depth.toNat 0 (first :: rest)) () = .ok () :=
            if_pos hcontiguous
          rw [hsteps, if_pos (decide_eq_true hcontiguous)]
          show _ = ensure (last.depth = 0) () >>= fun _ => Except.ok (first.depth.toNat + 1)
          by_cases hzero : last.depth = 0
          · have hend : ensure (last.depth = 0) () = .ok () := if_pos hzero
            rw [hend, if_neg (not_not.2 hzero)]
            rfl
          · have hend : ensure (last.depth = 0) () = .error () := if_neg hzero
            rw [hend, if_pos hzero]
            rfl
        · have hsteps : ensure (Contiguous first.depth.toNat 0 (first :: rest)) () = .error () :=
            if_neg hcontiguous
          rw [hsteps, if_neg (by simpa using hcontiguous)]
          rfl
      rw [hchecked, hplain]
      refine ((checkDepths_panics _ _ 0 (Nat.zero_le _)).before fun _ _ _ => rfl).congr
        ⟨fun h => ⟨first, rfl, h⟩, ?_⟩
      rintro ⟨_, ⟨⟩, h⟩
      exact h

variable (sha256 : Bytes → Bytes32)

/-- One level of a fold. -/
def foldLevel (key : Key) (depth : Nat) (hash sibling : Bytes32) : Checked ε Bytes32 := do
  let right ← bitAt key.toList depth
  pure (if right then nodeHash sha256 (UInt8.ofNat depth) sibling hash
    else nodeHash sha256 (UInt8.ofNat depth) hash sibling)

theorem foldLevel_eq (key : Key) {depth : Nat} (h : depth < DEPTH) (hash sibling : Bytes32) :
    (foldLevel sha256 key depth hash sibling : Checked ε Bytes32) =
      lift (.ok (Accumulator.foldLevel sha256 key depth hash sibling)) := by
  rw [foldLevel, bitAt_eq key h]
  rfl

/-- The fold of the steps from a digest below `previousDepth`, with bit accesses checked. -/
def foldStepsFrom (key : Key) : Nat → Bytes32 → List SmtProofStep → Checked Unit Bytes32
  | _, hash, [] => pure hash
  | previousDepth, hash, step :: rest => do
      ensure (step.depth.toNat < previousDepth) ()
      let hash ← foldLevel sha256 key step.depth.toNat hash step.siblingHash
      foldStepsFrom key step.depth.toNat hash rest

/-- The fold of the steps from the bottom of the tree. -/
def foldSteps (key : Key) (hash : Bytes32) (steps : List SmtProofStep) : Checked Unit Bytes32 :=
  foldStepsFrom sha256 key (DEPTH + 1) hash steps

/-- A depth of eight bits is a bit of the key. -/
theorem foldSteps_eq (key : Key) (hash : Bytes32) (steps : List SmtProofStep) :
    foldSteps sha256 key hash steps = lift (okOr (Accumulator.foldSteps sha256 key hash steps) ()) := by
  rw [foldSteps, Accumulator.foldSteps]
  generalize DEPTH + 1 = previousDepth
  induction steps generalizing previousDepth hash with
  | nil => rfl
  | cons step rest ih =>
      rw [foldStepsFrom, Accumulator.foldStepsFrom]
      by_cases hdepth : step.depth.toNat < previousDepth
      · have hensure : (ensure (step.depth.toNat < previousDepth) () : Except Unit Unit) = .ok () :=
          if_pos hdepth
        rw [hensure, if_neg (Nat.not_le.2 hdepth)]
        show foldLevel sha256 key step.depth.toNat hash step.siblingHash >>= _ = _
        rw [foldLevel_eq sha256 key step.depth.toNat_lt, ok_bind]
        exact ih _ _
      · have hensure : (ensure (step.depth.toNat < previousDepth) () : Except Unit Unit) = .error () :=
          if_neg hdepth
        rw [hensure, if_pos (Nat.not_lt.1 hdepth)]
        rfl

/-- The table of default digests. -/
def table : List Bytes32 := (List.range (DEPTH + 1)).map (Accumulator.emptyHashes sha256)

theorem table_get {depth : Nat} (h : depth ≤ DEPTH) :
    (table sha256)[depth]? = some (Accumulator.emptyHashes sha256 depth) := by
  rw [table, List.getElem?_map, List.getElem?_range (Nat.lt_succ_of_le h)]
  rfl

/-- The loop of `empty_hashes`, with so many levels left. -/
def emptiesFrom : Nat → List Bytes32 → Checked ε (List Bytes32)
  | 0, table => pure table
  | depth + 1, table => do
      let below ← index table (depth + 1)
      let table ← setIndex table depth (nodeHash sha256 (UInt8.ofNat depth) below below)
      emptiesFrom depth table

/-- The table of the digests of empty subtrees, filled upwards by index. -/
def emptyHashes : Checked ε (List Bytes32) := do
  let table ← setIndex (List.replicate (DEPTH + 1) (ByteArr.zero 32)) DEPTH EMPTY_TREE_ROOT
  emptiesFrom sha256 DEPTH table

theorem emptyHashes_step {depth : Nat} (h : depth < DEPTH) :
    Accumulator.emptyHashes sha256 depth = nodeHash sha256 (UInt8.ofNat depth)
      (Accumulator.emptyHashes sha256 (depth + 1)) (Accumulator.emptyHashes sha256 (depth + 1)) := by
  have hlevels : DEPTH - depth = DEPTH - (depth + 1) + 1 := by omega
  have hdepth : DEPTH - (DEPTH - (depth + 1) + 1) = depth := by omega
  simp only [Accumulator.emptyHashes, hlevels, Accumulator.emptyHashesFrom, hdepth]

/-- Behind the first `depth` entries the table is filled in. -/
theorem emptiesFrom_eq (depth : Nat) (h : depth ≤ DEPTH) :
    (emptiesFrom sha256 depth (List.replicate depth (ByteArr.zero 32) ++
      (List.range' depth (DEPTH + 1 - depth)).map (Accumulator.emptyHashes sha256)) :
        Checked ε (List Bytes32)) = lift (.ok (table sha256)) := by
  induction depth with
  | zero =>
      rw [List.replicate_zero, List.nil_append, table, List.range_eq_range']
      rfl
  | succ depth ih =>
      have hfilled : (List.range' (depth + 1) (DEPTH + 1 - (depth + 1))).map
          (Accumulator.emptyHashes sha256) = Accumulator.emptyHashes sha256 (depth + 1) ::
            (List.range' (depth + 2) (DEPTH - (depth + 1))).map (Accumulator.emptyHashes sha256) := by
        rw [show DEPTH + 1 - (depth + 1) = DEPTH - (depth + 1) + 1 by omega, List.range'_succ]
        rfl
      have hbelow : (List.replicate (depth + 1) (ByteArr.zero 32) ++
          (List.range' (depth + 1) (DEPTH + 1 - (depth + 1))).map
            (Accumulator.emptyHashes sha256))[depth + 1]? =
              some (Accumulator.emptyHashes sha256 (depth + 1)) := by
        rw [hfilled, List.getElem?_append_right (by rw [List.length_replicate]),
          List.length_replicate, Nat.sub_self]
        rfl
      have hset (x : Bytes32) : (List.replicate (depth + 1) (ByteArr.zero 32) ++
          (List.range' (depth + 1) (DEPTH + 1 - (depth + 1))).map
            (Accumulator.emptyHashes sha256)).set depth x = List.replicate depth (ByteArr.zero 32) ++
              (x :: (List.range' (depth + 1) (DEPTH + 1 - (depth + 1))).map
                (Accumulator.emptyHashes sha256)) := by
        rw [List.replicate_succ', List.append_assoc,
          List.set_append_right _ _ (by rw [List.length_replicate]), List.length_replicate,
          Nat.sub_self]
        rfl
      rw [emptiesFrom, index_eq hbelow, ok_bind, setIndex_eq, ok_bind, hset,
        ← emptyHashes_step sha256 (by omega)]
      · have hnext := ih (by omega)
        rwa [show DEPTH + 1 - depth = DEPTH + 1 - (depth + 1) + 1 by omega, List.range'_succ,
          List.map_cons] at hnext
      · rw [List.length_append, List.length_replicate]
        omega

theorem emptyHashes_eq : (emptyHashes sha256 : Checked ε (List Bytes32)) = lift (.ok (table sha256)) := by
  have hset : (List.replicate (DEPTH + 1) (ByteArr.zero 32)).set DEPTH EMPTY_TREE_ROOT =
      List.replicate DEPTH (ByteArr.zero 32) ++
        (List.range' DEPTH (DEPTH + 1 - DEPTH)).map (Accumulator.emptyHashes sha256) := by
    rw [List.replicate_succ', List.set_append_right _ _ (by rw [List.length_replicate]),
      List.length_replicate, Nat.sub_self]
    rfl
  rw [emptyHashes, setIndex_eq (by rw [List.length_replicate]; omega), ok_bind, hset]
  exact emptiesFrom_eq sha256 DEPTH (Nat.le_refl _)

/-- The digest of a subtree with one key, over the table of empty digests. -/
def singleKeyHash (key : Key) (depth : Nat) (empties : List Bytes32) : Checked ε Bytes32 :=
  (List.range' depth (DEPTH - depth)).reverse.foldlM (fun hash level => do
    let sibling ← index empties (level + 1)
    foldLevel sha256 key level hash sibling) (leafHash sha256 key)

theorem singleKeyHash_eq (key : Key) (depth : Nat) :
    (singleKeyHash sha256 key depth (table sha256) : Checked ε Bytes32) =
      lift (.ok (Accumulator.singleKeyHash sha256 key depth)) := by
  have hturn (hash : Bytes32) : ∀ level ∈ (List.range' depth (DEPTH - depth)).reverse,
      (do
        let sibling ← index (table sha256) (level + 1)
        foldLevel sha256 key level hash sibling : Checked ε Bytes32) =
      lift (.ok (Accumulator.foldLevel sha256 key level hash
        (Accumulator.emptyHashes sha256 (level + 1)))) := by
    intro level hlevel
    rw [List.mem_reverse, List.mem_range'_1] at hlevel
    rw [index_eq (table_get sha256 (by omega)), ok_bind, foldLevel_eq sha256 key (by omega)]
  rw [singleKeyHash, foldlM_ok hturn, List.foldl_reverse]
  rfl

/-- The root a witness ending in an empty subtree proves. -/
def rebuildAbsentRoot (key : Key) (witness : NonMembershipWitness) (empties : List Bytes32) :
    Checked Unit Bytes32 :=
  if witness.terminal ≠ .empty then lift (.error ())
  else if witness.steps.isEmpty then pure EMPTY_TREE_ROOT
  else if witness.steps.length > MAX_STEPS then lift (.error ())
  else do
    let td ← terminalDepth witness.steps
    let bottom ← index empties td
    foldSteps sha256 key bottom witness.steps

/-- The root after the insertion, from the witness alone. -/
def insert (root : Bytes32) (key : Key) (witness : NonMembershipWitness) : Checked Unit Bytes32 := do
  let empties ← emptyHashes sha256
  let rebuilt ← rebuildAbsentRoot sha256 key witness empties
  ensure (rebuilt = root) ()
  if witness.steps.isEmpty then singleKeyHash sha256 key 0 empties
  else do
    let td ← terminalDepth witness.steps
    let terminal ← singleKeyHash sha256 key td empties
    foldSteps sha256 key terminal witness.steps

/-- A witness that passes the checks before the walk over its steps, which go on below depth 0. -/
structure Overruns (witness : NonMembershipWitness) : Prop where
  terminal : witness.terminal = .empty
  length : witness.steps.length ≤ MAX_STEPS
  steps : Overrun witness.steps

theorem rebuildAbsentRoot_panics (key : Key) (witness : NonMembershipWitness) :
    PanicsIff (Overruns witness) (rebuildAbsentRoot sha256 key witness (table sha256))
      (okOr (Accumulator.rebuildAbsentRoot sha256 key witness) ()) := by
  rw [rebuildAbsentRoot, Accumulator.rebuildAbsentRoot]
  by_cases hterminal : witness.terminal ≠ .empty
  · rw [if_pos hterminal, if_pos hterminal]
    exact (PanicsIff.of_eq rfl).congr (iff_of_false id fun h => hterminal h.terminal)
  rw [if_neg hterminal, if_neg hterminal]
  by_cases hempty : witness.steps.isEmpty = true
  · rw [if_pos hempty, if_pos hempty]
    refine (PanicsIff.of_eq rfl).congr (iff_of_false id fun h => ?_)
    obtain ⟨first, hfirst, -⟩ := h.steps
    rw [List.isEmpty_iff.1 hempty] at hfirst
    cases hfirst
  rw [if_neg hempty, if_neg hempty]
  by_cases hlength : witness.steps.length > MAX_STEPS
  · rw [if_pos hlength, if_pos hlength]
    exact (PanicsIff.of_eq rfl).congr (iff_of_false id fun h => Nat.not_le.2 hlength h.length)
  rw [if_neg hlength, if_neg hlength]
  have hwalk := (terminalDepth_panics witness.steps).before
    (f := fun td => do
      let bottom ← index (table sha256) td
      foldSteps sha256 key bottom witness.steps)
    (g := fun td => okOr (Accumulator.foldSteps sha256 key (Accumulator.emptyHashes sha256 td)
      witness.steps) ())
    fun td _ htd => by
      have hle : td ≤ DEPTH := by
        obtain ⟨-, hdescending, rfl⟩ := Accumulator.terminalDepth_eq_some.1 (okOr_eq_ok.1 htd)
        exact hdescending.length_le
      rw [index_eq (table_get sha256 hle), ok_bind, foldSteps_eq]
  rw [okOr_bind]
  exact hwalk.congr ⟨fun h => ⟨not_not.1 hterminal, Nat.not_lt.1 hlength, h⟩, fun h => h.steps⟩

/-- A witness whose root was rebuilt has passed the walk. -/
theorem terminalDepth_of_rebuilt {key : Key} {witness : NonMembershipWitness} {rebuilt : Bytes32}
    (hno : ¬ Overruns witness) (hsteps : ¬ witness.steps.isEmpty = true)
    (h : Accumulator.rebuildAbsentRoot sha256 key witness = some rebuilt) :
    terminalDepth witness.steps = lift (okOr (Accumulator.terminalDepth witness.steps) ()) := by
  rw [Accumulator.rebuildAbsentRoot, if_neg hsteps] at h
  by_cases hterminal : witness.terminal ≠ .empty
  · rw [if_pos hterminal] at h
    cases h
  by_cases hlength : witness.steps.length > MAX_STEPS
  · rw [if_neg hterminal, if_pos hlength] at h
    cases h
  exact (terminalDepth_panics witness.steps).returns fun hover =>
    hno ⟨not_not.1 hterminal, Nat.not_lt.1 hlength, hover⟩

/-- **An insertion panics** exactly on a witness whose steps go on below depth 0. -/
theorem insert_panics (root : Bytes32) (key : Key) (witness : NonMembershipWitness) :
    PanicsIff (Overruns witness) (insert sha256 root key witness)
      (okOr (Accumulator.insert sha256 root key witness) ()) := by
  rw [insert, emptyHashes_eq, ok_bind, Accumulator.insert, okOr_bind]
  refine (rebuildAbsentRoot_panics sha256 key witness).before fun rebuilt hno hrebuilt => ?_
  by_cases hroot : rebuilt = root
  · have hensure : (ensure (rebuilt = root) () : Except Unit Unit) = .ok () := if_pos hroot
    rw [hensure, if_neg (not_not.2 hroot)]
    show (if witness.steps.isEmpty then singleKeyHash sha256 key 0 (table sha256) else _) = _
    by_cases hempty : witness.steps.isEmpty = true
    · rw [if_pos hempty, if_pos hempty, singleKeyHash_eq]
      rfl
    · rw [if_neg hempty, if_neg hempty, okOr_bind]
      refine bind_eq (terminalDepth_of_rebuilt sha256 hno hempty (okOr_eq_ok.1 hrebuilt))
        fun td _ => ?_
      rw [singleKeyHash_eq, ok_bind, foldSteps_eq]
  · have hensure : (ensure (rebuilt = root) () : Except Unit Unit) = .error () := if_neg hroot
    rw [hensure, if_pos hroot]
    rfl

end Accumulator

end UnicityBridge.CheckedCore
