import UnicityBridge.GuestTotals
import UnicityBridge.VaultCustody
import UnicityBridge.VaultEncoding

/-!
# What the circuit accepts, the vault pays

The checks of `fulfillBatch` against those of the guest. The circuit adds amounts modulo `2 ^ 256`
and the vault with a check; they agree since the total of an accepted batch is exact. What is left are
the reverts of `RevertCause`.
-/

set_option autoImplicit false

namespace UnicityBridge.Vault

open UnicityBridge.Lib UnicityBridge.Lib.Exec
open UnicityBridge.TokenSdk
open UnicityBridge.Guest (GuestInput EncodesAmounts AllocatesWithin leaf_accepted sumAmounts_eq)
open UnicityBridge.Core (Address)

/-! ## The checks -/

variable {σ : Type}

theorem refOfCore_nonce (lockRef : Core.SourceLockRef) :
    (refOfCore lockRef).nonce.toNat = lockRef.nonce.toNat := by
  refine (BitVec.toNat_ofNat _ _).trans (Nat.mod_eq_of_lt ?_)
  exact lt_of_lt_of_le lockRef.nonce.toNat_lt (Nat.pow_le_pow_right (by decide) (by decide))

/-- The nonces rise in the vault as they do in the circuit. -/
theorem refNonces_isChain {lockRefs : List Core.SourceLockRef}
    (h : (Core.nonces lockRefs).Pairwise (· < ·)) :
    ((lockRefs.map refOfCore).map SourceLockRef.nonce).IsChain (· < ·) := by
  rw [List.isChain_iff_pairwise, List.map_map, List.pairwise_map]
  rw [Core.nonces, List.pairwise_map] at h
  refine h.imp fun {a b} hab => ?_
  rw [Function.comp_apply, Function.comp_apply, BitVec.lt_def, refOfCore_nonce, refOfCore_nonce]
  exact hab

theorem refWords_refOfCore (lockRef : Core.SourceLockRef) :
    BridgeEncoding.encodeWords (BridgeEncoding.refWords (refOfCore lockRef)) =
      Core.refWords lockRef := by
  rw [Core.refWords, ← encodeWords_map, BridgeEncoding.refWords, Abi.word256, refOfCore_nonce]
  rfl

theorem lockRefRoot_refOfCore (keccak256 : Bytes → Bytes32) (lockRefs : List Core.SourceLockRef) :
    BridgeEncoding.lockRefRoot keccak256 (lockRefs.map refOfCore) =
      keccak256 (lockRefs.flatMap Core.refWords) := by
  rw [BridgeEncoding.lockRefRoot, List.flatMap_map]
  exact congrArg keccak256 (List.flatMap_congr fun lockRef _ => refWords_refOfCore lockRef)

theorem returnRoot_ofCore (keccak256 : Bytes → Bytes32) (leaves : List Core.ReturnLeaf) :
    BridgeEncoding.returnRoot keccak256 (leaves.map ofCore) = Core.returnRoot keccak256 leaves := by
  have hid : (toCore ∘ ofCore) = id := funext toCore_ofCore
  rw [BridgeEncoding.returnRoot, leavesInput_eq, List.map_map, hid, List.map_id]
  rfl

theorem amountSum_ofCore (leaves : List Core.ReturnLeaf) :
    amountSum (leaves.map ofCore) = Core.amountSum leaves := by
  rw [amountSum, List.map_map, Core.amountSum]
  refine congrArg List.sum (List.map_congr_left fun leaf _ => ?_)
  exact Abi.uint256_toNat leaf.amount

/-- **Every check of the vault holds of a batch the circuit accepts.** -/
theorem batchChecks_of_execute {sdk : Sdk} (hamounts : EncodesAmounts sdk)
    (halloc : AllocatesWithin sdk) {input : GuestInput} {pv : Core.PublicValues}
    (h : Guest.execute sdk input = .ok pv) {d : Deployment σ} (hkeccak : d.keccak256 = sdk.keccak256)
    (hdomain : d.domainTag = pv.domainTag) (hconfig : d.configHash = pv.configHash)
    {storage : Storage} (hallowed : storage.trustBaseAllowed pv.trustBaseHash = true)
    (hroot : storage.spentRoot = pv.spentRootOld)
    (hdigests : ∀ lockRef ∈ input.sortedLockRefs,
      storage.lockDigest (refOfCore lockRef).nonce = lockRef.digest) :
    BatchChecks d storage (publicValuesOfCore pv) (input.returnLeaves.map ofCore)
      (input.sortedLockRefs.map refOfCore) := by
  obtain ⟨hpublic, -, hburns, rfl⟩ := (Guest.execute_eq_ok sdk).1 h
  obtain ⟨-, -, hreturn, hnonces, href, hsize, htotal⟩ :=
    (Core.validatePublicValues_eq_ok sdk.keccak256).1 hpublic
  obtain ⟨hne, hlen, -⟩ := Guest.validateBridgeBurns_ok sdk hburns
  have haccepted := leaf_accepted hburns
  have hpos : 0 < input.returnLeaves.length := hlen ▸ List.length_pos_of_ne_nil hne
  -- the vault's checks, each from the circuit's of the same fields or from the deployment
  constructor
  case domainTag => exact hdomain.symm
  case configHash => exact hconfig.symm
  case trustBase => exact hallowed
  case spentRootOld => exact hroot.symm
  case nonempty => rwa [List.length_map]
  case batchSize =>
    rw [List.length_map]
    show input.publicValues.batchSize.toNat = _
    rw [hsize, UInt32.toNat_ofNat']
    exact Nat.mod_eq_of_lt input.leaves_lt
  case returnRoot =>
    rw [hkeccak, returnRoot_ofCore]
    exact hreturn
  case lockRefRoot =>
    rw [hkeccak, lockRefRoot_refOfCore]
    exact href
  case sorted => exact refNonces_isChain hnonces
  case digests =>
    intro r hr
    obtain ⟨lockRef, hmem, rfl⟩ := List.mem_map.1 hr
    exact hdigests lockRef hmem
  case fees =>
    intro l hl
    obtain ⟨leaf, hmem, rfl⟩ := List.mem_map.1 hl
    obtain ⟨burn, obligations, hburn⟩ := haccepted leaf hmem
    have hle := (hburn.paysBurn sdk hamounts).fee_le
    rw [BitVec.le_def]
    show (Abi.uint256 leaf.feeAmount).toNat ≤ (Abi.uint256 leaf.amount).toNat
    rwa [Abi.uint256_toNat, Abi.uint256_toNat]
  case total =>
    have hsum := sumAmounts_eq input.leaves_lt (Guest.amounts_lt hamounts halloc hburns)
    rw [amountSum_ofCore, ← hsum, ← htotal]
    exact Abi.uint256_toNat _

/-! ## The reverts that are left -/

section Reverts

variable {d : Deployment σ} {timestamp : Word} {reenter : Address → Call → Tx σ Returned}

theorem nonReentrant_error {α : Type} {body : Tx σ α} {w : World σ} {e : Revert}
    (hentered : w.storage.entered = 0) :
    nonReentrant body w = .error e ↔
      body (w.setStorage fun s => { s with entered := 1 }) = .error e := by
  rw [nonReentrant, read_bind, bind_of_ok (require_of hentered), update_bind, bind_error]
  constructor
  · rintro (hbody | ⟨_, _, -, hleave⟩)
    · exact hbody
    · cases hleave
  · exact .inl

/-- The world in which the payouts of a batch start. -/
def settling (pv : PublicValues) (w : World σ) : World σ :=
  (w.setStorage fun s => { s with spentRoot := pv.spentRootNew }).emit
    (.batchFulfilled pv.spentRootOld pv.spentRootNew pv.batchSize pv.totalAmount)

/-- Once proof and checks pass, a batch is its payouts. -/
theorem fulfillBatch_eq {publicValues proof : Bytes} {leaves : List ReturnLeaf}
    {lockRefs : List SourceLockRef} {pv : PublicValues} {w : World σ}
    (hproof : d.verifyProof d.vkey publicValues proof = true)
    (hdecode : decodePublicValues publicValues = some pv)
    (hchecks : BatchChecks d w.storage pv leaves lockRefs) :
    fulfillBatch d timestamp reenter publicValues proof leaves lockRefs w =
      leaves.forM (settleLeaf d timestamp reenter) (settling pv w) := by
  have hexpect : expect (decodePublicValues publicValues) Revert.malformed w = .ok (pv, w) :=
    expect_ok.2 ⟨hdecode, rfl⟩
  have hcheck : checkBatch d pv leaves lockRefs w = .ok ((), w) :=
    checkBatch_ok.2 ⟨hchecks, rfl⟩
  rw [fulfillBatch, bind_of_ok (require_of hproof), bind_of_ok hexpect, bind_of_ok hcheck,
    update_bind, update_bind]
  rfl

/-- A leaf whose fee is at most its amount fails in one of its payouts. -/
theorem settleLeaf_error {l : ReturnLeaf} (hfee : l.feeAmount ≤ l.amount) {w : World σ} {e : Revert}
    (h : settleLeaf d timestamp reenter l w = .error e) :
    payOut d reenter l.recipient (l.amount - feeDue timestamp l) w = .error e ∨
      ∃ mid, payOut d reenter l.recipient (l.amount - feeDue timestamp l) w = .ok ((), mid) ∧
        0 < feeDue timestamp l ∧
        payOut d reenter l.feeRecipient (feeDue timestamp l) mid = .error e := by
  have hsub : checkedSub l.amount (feeDue timestamp l) w =
      .ok (l.amount - feeDue timestamp l, w) := by
    rw [checkedSub, if_pos (feeDue_le hfee)]
    rfl
  simp only [settleLeaf] at h
  rw [bind_of_ok hsub] at h
  rcases bind_error.1 h with hfirst | ⟨_, mid, hfirst, h⟩
  · exact .inl hfirst
  · refine .inr ⟨mid, hfirst, ?_⟩
    rcases bind_error.1 h with hsecond | ⟨_, _, -, hemit⟩
    · split at hsecond
      · next hpos => exact ⟨hpos, hsecond⟩
      · cases hsecond
    · cases hemit

theorem credit_error {account : Address} {value : Word} {w : World σ} {e : Revert}
    (h : credit account value w = .error e) :
    e = .panic ∧ 2 ^ 256 ≤ (w.storage.owed account).toNat + value.toNat := by
  rw [credit, read_bind] at h
  rcases bind_error.1 h with hadd | ⟨_, _, -, hwrite⟩
  · unfold checkedAdd at hadd
    split at hadd
    · cases hadd
    · next hroom =>
      cases hadd
      exact ⟨rfl, not_lt.1 hroom⟩
  · cases hwrite

/-- An asset transfer of a batch fails with `e`: the payouts of the leaves in front succeed, and the
transfer to the recipient of a leaf fails, or the one of its fee behind it. -/
def TransferFails (d : Deployment σ) (timestamp : Word)
    (reenter : Address → Call → Tx σ Returned) (leaves : List ReturnLeaf) (w : World σ)
    (e : Revert) : Prop :=
  ∃ before l after mid, leaves = before ++ l :: after ∧
    before.forM (settleLeaf d timestamp reenter) w = .ok (⟨⟩, mid) ∧
    (sendExactly d reenter l.recipient (l.amount - feeDue timestamp l) mid = .error e ∨
      ∃ mid', sendExactly d reenter l.recipient (l.amount - feeDue timestamp l) mid =
          .ok ((), mid') ∧
        sendExactly d reenter l.feeRecipient (feeDue timestamp l) mid' = .error e)

/-- Why a batch that passes all checks reverts. -/
inductive RevertCause (d : Deployment σ) (timestamp : Word)
    (reenter : Address → Call → Tx σ Returned) (publicValues proof : Bytes)
    (leaves : List ReturnLeaf) (pv : PublicValues) (w : World σ) : Revert → Prop where
  | verifier (h : d.verifyProof d.vkey publicValues proof = false) :
      RevertCause d timestamp reenter publicValues proof leaves pv w .proofRejected
  | transfer (e : Revert) (hmode : d.pullPayments = false)
      (h : TransferFails d timestamp reenter leaves
        (settling pv (w.setStorage fun s => { s with entered := 1 })) e) :
      RevertCause d timestamp reenter publicValues proof leaves pv w e
  /-- In pull mode, some balance has no room for what the batch credits to it. -/
  | owed (hmode : d.pullPayments = true) (account : Address)
      (h : 2 ^ 256 ≤ (w.storage.owed account).toNat +
        creditedTo account (payouts timestamp leaves)) :
      RevertCause d timestamp reenter publicValues proof leaves pv w .panic

theorem creditedTo_self (account : Address) (value : Word) (rest : List (Address × Word)) :
    creditedTo account ((account, value) :: rest) = value.toNat + creditedTo account rest := by
  rw [creditedTo_cons, if_pos rfl]

/-- In pull mode the loop fails for want of room in a balance. -/
theorem settleLeaves_pull_error (hguard : Guarded reenter) {leaves : List ReturnLeaf}
    (hfees : ∀ l ∈ leaves, l.feeAmount ≤ l.amount) (hmode : d.pullPayments = true) {w : World σ}
    (hentered : w.storage.entered = 1) {e : Revert}
    (h : leaves.forM (settleLeaf d timestamp reenter) w = .error e) :
    e = .panic ∧ ∃ account, 2 ^ 256 ≤ (w.storage.owed account).toNat +
      creditedTo account (payouts timestamp leaves) := by
  obtain ⟨before, l, after, mid, rfl, hbefore, hleaf⟩ := forM_error h
  have hpaid := settleLeaves_ok hguard hentered hbefore
  have hmid := hpaid.entered.trans hentered
  have howed := (hpaid.pull hmode).2.2
  have hsplit : ∀ account, creditedTo account (payouts timestamp (before ++ l :: after)) =
      creditedTo account (payouts timestamp before) +
        (creditedTo account (leafPayouts timestamp l) +
          creditedTo account (payouts timestamp after)) := by
    intro account
    rw [payouts, List.flatMap_append, List.flatMap_cons, creditedTo_append, creditedTo_append]
    rfl
  have hcredit : ∀ recipient value, payOut d reenter recipient value =
      (credit recipient value : Tx σ Unit) := by
    intro recipient value
    rw [payOut, hmode]
    rfl
  have hfee := hfees l (List.mem_append_right before List.mem_cons_self)
  rcases settleLeaf_error hfee hleaf with hfirst | ⟨mid', hfirst, hpos, hsecond⟩
  · obtain ⟨rfl, hroom⟩ := credit_error (hcredit _ _ ▸ hfirst)
    refine ⟨rfl, l.recipient, ?_⟩
    rw [howed] at hroom
    rw [hsplit, leafPayouts, creditedTo_self]
    omega
  · obtain ⟨rfl, hroom⟩ := credit_error (hcredit _ _ ▸ hsecond)
    have howed' := ((payOut_ok hguard hmid hfirst).pull hmode).2.2
    refine ⟨rfl, l.feeRecipient, ?_⟩
    have hleafPayouts : leafPayouts timestamp l =
        [(l.recipient, l.amount - feeDue timestamp l)] ++
          [(l.feeRecipient, feeDue timestamp l)] := by
      rw [leafPayouts, if_pos hpos]
      rfl
    rw [howed', howed] at hroom
    rw [hsplit, hleafPayouts, creditedTo_append, creditedTo_self]
    omega

theorem settleLeaves_push_error {leaves : List ReturnLeaf}
    (hfees : ∀ l ∈ leaves, l.feeAmount ≤ l.amount) (hmode : d.pullPayments = false) {w : World σ}
    {e : Revert} (h : leaves.forM (settleLeaf d timestamp reenter) w = .error e) :
    TransferFails d timestamp reenter leaves w e := by
  obtain ⟨before, l, after, mid, rfl, hbefore, hleaf⟩ := forM_error h
  have hsend : ∀ recipient value, payOut d reenter recipient value =
      sendExactly d reenter recipient value := by
    intro recipient value
    rw [payOut, hmode]
    rfl
  have hfee := hfees l (List.mem_append_right before List.mem_cons_self)
  refine ⟨before, l, after, mid, rfl, hbefore, ?_⟩
  rcases settleLeaf_error hfee hleaf with hfirst | ⟨mid', hfirst, -, hsecond⟩
  · exact .inl (hsend _ _ ▸ hfirst)
  · exact .inr ⟨mid', hsend _ _ ▸ hfirst, hsend _ _ ▸ hsecond⟩

/-- **A batch that passes all checks reverts for one of the causes.** -/
theorem execute_fulfillBatch_error {depth : Nat} {sender : Address} {publicValues proof : Bytes}
    {leaves : List ReturnLeaf} {lockRefs : List SourceLockRef} {pv : PublicValues} {w : World σ}
    (hentered : w.storage.entered = 0) (hdecode : decodePublicValues publicValues = some pv)
    (hchecks : BatchChecks d w.storage pv leaves lockRefs) {e : Revert}
    (h : execute d timestamp (depth + 1) sender
      (.fulfillBatch publicValues proof leaves lockRefs) w = .error e) :
    RevertCause d timestamp (execute d timestamp depth) publicValues proof leaves pv w e := by
  have hbody : fulfillBatch d timestamp (execute d timestamp depth) publicValues proof leaves
      lockRefs (w.setStorage fun s => { s with entered := 1 }) = .error e := by
    rw [execute, callVault] at h
    rcases bind_error.1 h with hcall | ⟨_, _, -, hpure⟩
    · exact (nonReentrant_error hentered).1 hcall
    · cases hpure
  cases hproof : d.verifyProof d.vkey publicValues proof with
  | false =>
      have hfail : require (d.verifyProof d.vkey publicValues proof = true) Revert.proofRejected
          (w.setStorage fun s => { s with entered := 1 }) = .error .proofRejected := by
        rw [require, if_neg (by rw [hproof]; decide)]
        rfl
      rw [fulfillBatch, bind_of_error hfail] at hbody
      cases hbody
      exact .verifier hproof
  | true =>
      have hchecks' : BatchChecks d (w.setStorage fun s => { s with entered := 1 }).storage pv
          leaves lockRefs := by
        cases hchecks
        constructor <;> assumption
      rw [fulfillBatch_eq hproof hdecode hchecks'] at hbody
      cases hmode : d.pullPayments with
      | false => exact .transfer e hmode (settleLeaves_push_error hchecks.fees hmode hbody)
      | true =>
          obtain ⟨rfl, account, hroom⟩ := settleLeaves_pull_error
            (execute_guarded d timestamp depth) hchecks.fees hmode rfl hbody
          exact .owed hmode account hroom

end Reverts

/-- **Circuit and vault agree on what is payable.** A vault that no call is inside of decodes the
calldata of an accepted batch to the values of the circuit, and every check holds. The call reverts
only in the verifier, in a transfer of the asset or, in pull mode, where a balance has no room. -/
theorem payable {sdk : Sdk} (hamounts : EncodesAmounts sdk) (halloc : AllocatesWithin sdk)
    {input : GuestInput} {pv : Core.PublicValues} (h : Guest.execute sdk input = .ok pv)
    {d : Deployment σ} (hkeccak : d.keccak256 = sdk.keccak256)
    (hdomain : d.domainTag = pv.domainTag) (hconfig : d.configHash = pv.configHash) {w : World σ}
    (hentered : w.storage.entered = 0) (hallowed : w.storage.trustBaseAllowed pv.trustBaseHash = true)
    (hroot : w.storage.spentRoot = pv.spentRootOld)
    (hdigests : ∀ lockRef ∈ input.sortedLockRefs,
      w.storage.lockDigest (refOfCore lockRef).nonce = lockRef.digest)
    {suffix proof : Bytes}
    (hsize : (fulfillCalldata (Core.publicValuesAbi pv ++ suffix) proof input.returnLeaves
      input.sortedLockRefs).length < 2 ^ 64) :
    decodeFulfillBatch (fulfillCalldata (Core.publicValuesAbi pv ++ suffix) proof
        input.returnLeaves input.sortedLockRefs) =
      some ⟨Core.publicValuesAbi pv ++ suffix, proof, input.returnLeaves.map ofCore,
        input.sortedLockRefs.map refOfCore⟩ ∧
    decodePublicValues (Core.publicValuesAbi pv ++ suffix) = some (publicValuesOfCore pv) ∧
    BatchChecks d w.storage (publicValuesOfCore pv) (input.returnLeaves.map ofCore)
      (input.sortedLockRefs.map refOfCore) ∧
    ∀ timestamp depth sender e, execute d timestamp (depth + 1) sender
        (.fulfillBatch (Core.publicValuesAbi pv ++ suffix) proof (input.returnLeaves.map ofCore)
          (input.sortedLockRefs.map refOfCore)) w = .error e →
      RevertCause d timestamp (execute d timestamp depth) (Core.publicValuesAbi pv ++ suffix) proof
        (input.returnLeaves.map ofCore) (publicValuesOfCore pv) w e := by
  have hdecode := decodePublicValues_abi pv suffix
  have hchecks := batchChecks_of_execute hamounts halloc h hkeccak hdomain hconfig hallowed hroot
    hdigests
  exact ⟨decodeFulfillBatch_calldata hsize, hdecode, hchecks, fun _ _ _ _ herror =>
    execute_fulfillBatch_error hentered hdecode hchecks herror⟩

/-! ## The sample batches -/

namespace Sample

open UnicityBridge.Guest.Sample (sdk input leaf Coin Turn owner word)

/-- What the circuit commits to for a batch of the sample. -/
def committed (turn : Turn) : Bytes := Guest.committedOutput sdk (input turn).publicValues

/-- A verifier that accepts the batches of the sample only. -/
def accepts (publicValues : Bytes) : Bool :=
  [Turn.first, .second].any fun turn => committed turn == publicValues

/-- The vault of the sample. -/
def bridgeVault (pullPayments : Bool) : Deployment Word :=
  deployment sdk.keccak256 Guest.Sample.config pullPayments accepts

/-- The call that settles a batch. -/
def fulfillCall (turn : Turn) : Call :=
  .fulfillBatch (committed turn) [] ((input turn).returnLeaves.map ofCore)
    ((input turn).sortedLockRefs.map refOfCore)

/-- The lock that a mint is made for. -/
def lockFor (coin : Coin) : Call :=
  .lock (BitVec.ofNat 256 coin.amount.toNat) (word coin.number) (sdk.sha256 owner.toCbor)

/-- The trust base is allowed, and both locks are made. -/
def locking : List (Transaction Word) :=
  [.call 0 1 admin (.setTrustBaseAllowed Guest.Sample.trustBaseHash true),
    .call 0 1 admin (lockFor .whole), .call 0 1 admin (lockFor .source)]

/-- The vault after that. -/
def locked (pullPayments : Bool) : World Word := run (bridgeVault pullPayments) world locking

theorem deployment_verifyProof (keccak256 : Bytes → Bytes32) (cfg : Core.BridgeConfig)
    (pullPayments : Bool) (accepts : Bytes → Bool) (vkey : Bytes32) (publicValues proof : Bytes) :
    (deployment keccak256 cfg pullPayments accepts).verifyProof vkey publicValues proof =
      accepts publicValues := rfl

theorem accepts_committed (turn : Turn) : accepts (committed turn) = true :=
  List.any_eq_true.2 ⟨turn, by cases turn <;> decide, beq_self_eq_true _⟩

theorem proof_accepted (pullPayments : Bool) (turn : Turn) :
    (bridgeVault pullPayments).verifyProof (bridgeVault pullPayments).vkey (committed turn) [] =
      true :=
  (deployment_verifyProof _ _ _ _ _ _ _).trans (accepts_committed turn)

theorem config_eq (pullPayments : Bool) (turn : Turn) :
    (bridgeVault pullPayments).configHash = (input turn).publicValues.configHash := by
  show BridgeEncoding.configHash sdk.keccak256 Guest.Sample.config =
    Core.configHash sdk.keccak256 Guest.Sample.config
  rw [configHash_eq]

theorem domain_eq (pullPayments : Bool) (turn : Turn) :
    (bridgeVault pullPayments).domainTag = (input turn).publicValues.domainTag := rfl

theorem locked_allowed (pullPayments : Bool) (turn : Turn) :
    (locked pullPayments).storage.trustBaseAllowed (input turn).publicValues.trustBaseHash =
      true := by
  cases turn <;> cases pullPayments <;> decide +kernel

theorem locked_entered : (locked false).storage.entered = 0 := by decide +kernel

theorem locked_root (pullPayments : Bool) :
    (locked pullPayments).storage.spentRoot = (input .first).publicValues.spentRootOld := by
  cases pullPayments <;> decide +kernel

/-- The locks of both batches are registered. -/
theorem locked_digests (pullPayments : Bool) (turn : Turn) :
    ∀ lockRef ∈ (input turn).sortedLockRefs,
      (locked pullPayments).storage.lockDigest (refOfCore lockRef).nonce = lockRef.digest := by
  cases turn <;> cases pullPayments <;> decide +kernel

/-- A world with the given debt to every account and the given reentrancy flag. -/
def indebted (w : World Word) (owed entered : Word) : World Word :=
  w.setStorage fun s => { s with owed := fun _ => owed, entered := entered }

theorem indebted_entered (w : World Word) (owed entered : Word) :
    (indebted w owed entered).storage.entered = entered := rfl

theorem settling_indebted (pv : PublicValues) (w : World Word) (owed entered : Word)
    (account : Address) : (settling pv (indebted w owed entered)).storage.owed account = owed := rfl

/-- A debt is nothing that a batch is checked against. -/
theorem indebted_checks {d : Deployment Word} {w : World Word} {pv : PublicValues}
    {leaves : List ReturnLeaf} {lockRefs : List SourceLockRef}
    (h : BatchChecks d w.storage pv leaves lockRefs) (owed entered : Word) :
    BatchChecks d (indebted w owed entered).storage pv leaves lockRefs := by
  cases h
  constructor <;> assumption

/-! Over a plain token -/

section Plain

variable {keccak256 : Bytes → Bytes32} {cfg : Core.BridgeConfig} {accepts : Bytes → Bool}
  {reenter : Address → Call → Tx Word Returned} {timestamp : Word}

/-- The vault gets from `w` to `w'` by paying at most `amount` out of its balance. -/
structure Spends (amount : Nat) (events : List Event) (w w' : World Word) : Prop where
  storage : w'.storage = w.storage
  log : w'.log = w.log ++ events
  covered : w.asset.toNat ≤ w'.asset.toNat + amount

theorem Spends.trans {amount amount' : Nat} {events events' : List Event} {w mid w' : World Word}
    (h : Spends amount events w mid) (h' : Spends amount' events' mid w') :
    Spends (amount + amount') (events ++ events') w w' where
  storage := h'.storage.trans h.storage
  log := by rw [h'.log, h.log, List.append_assoc]
  covered := by
    have := h.covered
    have := h'.covered
    omega

/-- The plain token pays what the vault has. -/
theorem payOut_plain (recipient : Address) {value : Word} {w : World Word}
    (h : value.toNat ≤ w.asset.toNat) :
    ∃ w', payOut (deployment keccak256 cfg false accepts) reenter recipient value w = .ok ((), w') ∧
      Spends value.toNat [] w w' := by
  have hpush : payOut (deployment keccak256 cfg false accepts) reenter recipient value w =
      sendExactly (deployment keccak256 cfg false accepts) reenter recipient value w := rfl
  have hsub := BitVec.toNat_sub_of_le (BitVec.le_def.2 h)
  rw [hpush, sendExactly]
  by_cases hnothing : recipient = (deployment keccak256 cfg false accepts).self ∨ value = 0
  · rw [if_pos hnothing]
    exact ⟨w, rfl, rfl, (List.append_nil _).symm, Nat.le_add_right _ _⟩
  · refine ⟨(w.setAsset (w.asset - value)).addTransfer recipient value, ?_, rfl,
      (List.append_nil _).symm, ?_⟩
    · have hsent : checkedSub w.asset (w.asset - value)
          ((w.setAsset (w.asset - value)).addTransfer recipient value) =
            .ok (value, (w.setAsset (w.asset - value)).addTransfer recipient value) :=
        checkedSub_ok.2 ⟨by omega, rfl⟩
      rw [if_neg hnothing]
      show (checkedSub w.asset (w.asset - value) >>= fun sent =>
        require (sent = value) (.reason "vault: amount not sent")) _ = _
      rw [bind_of_ok hsent, require_of rfl]
    · show w.asset.toNat ≤ (w.asset - value).toNat + value.toNat
      omega

theorem settleLeaf_plain {l : ReturnLeaf} (hfee : l.feeAmount ≤ l.amount) {w : World Word}
    (hcovered : l.amount.toNat ≤ w.asset.toNat) :
    ∃ w', settleLeaf (deployment keccak256 cfg false accepts) timestamp reenter l w = .ok ((), w') ∧
      Spends l.amount.toNat [released timestamp l] w w' := by
  have hdue : feeDue timestamp l ≤ l.amount := feeDue_le hfee
  have hprincipal := BitVec.toNat_sub_of_le hdue
  have hle := BitVec.le_def.1 hdue
  have hsub : checkedSub l.amount (feeDue timestamp l) w =
      .ok (l.amount - feeDue timestamp l, w) := checkedSub_ok.2 ⟨by omega, rfl⟩
  have htotal : (l.amount - feeDue timestamp l).toNat + (feeDue timestamp l).toNat =
      l.amount.toNat := by omega
  obtain ⟨mid, hfirst, hmid⟩ := @payOut_plain keccak256 cfg accepts reenter l.recipient
    (l.amount - feeDue timestamp l) w (by omega)
  have hcovers := hmid.covered
  obtain ⟨mid', hsecond, hmid'⟩ := @payOut_plain keccak256 cfg accepts reenter l.feeRecipient
    (feeDue timestamp l) mid (by omega)
  have hboth := hmid.trans hmid'
  rw [htotal] at hboth
  rw [settleLeaf, bind_of_ok hsub, bind_of_ok hfirst]
  by_cases hpos : 0 < feeDue timestamp l
  · rw [if_pos hpos, bind_of_ok hsecond]
    exact ⟨_, rfl, hboth.storage, congrArg (· ++ _) (hboth.log.trans (List.append_nil _)),
      hboth.covered⟩
  · rw [if_neg hpos]
    refine ⟨_, rfl, hmid.storage, congrArg (· ++ _) (hmid.log.trans (List.append_nil _)), ?_⟩
    show _ ≤ mid.asset.toNat + _
    omega

theorem settleLeaves_plain {leaves : List ReturnLeaf} (hfees : ∀ l ∈ leaves, l.feeAmount ≤ l.amount)
    {w : World Word} (hcovered : amountSum leaves ≤ w.asset.toNat) :
    ∃ w', leaves.forM (settleLeaf (deployment keccak256 cfg false accepts) timestamp reenter) w =
        .ok (⟨⟩, w') ∧ Spends (amountSum leaves) (leaves.map (released timestamp)) w w' := by
  induction leaves generalizing w with
  | nil => exact ⟨w, rfl, rfl, (List.append_nil _).symm, Nat.le_add_right _ _⟩
  | cons l rest ih =>
      rw [List.forall_mem_cons] at hfees
      have hsum : amountSum (l :: rest) = l.amount.toNat + amountSum rest := rfl
      obtain ⟨mid, hleaf, hmid⟩ := @settleLeaf_plain keccak256 cfg accepts reenter timestamp l hfees.1 w
        (by omega)
      have hcovers := hmid.covered
      obtain ⟨w', hrest, hw'⟩ := ih hfees.2 (w := mid) (by omega)
      rw [hsum]
      exact ⟨w', (bind_of_ok hleaf).trans hrest, hmid.trans hw'⟩

/-- A storage with another root. -/
def withRoot (s : Storage) (root : Bytes32) : Storage := { s with spentRoot := root }

theorem withRoot_spentRoot (s : Storage) (root : Bytes32) : (withRoot s root).spentRoot = root := rfl

theorem withRoot_entered (s : Storage) (root : Bytes32) :
    (withRoot s root).entered = s.entered := rfl

theorem withRoot_trustBaseAllowed (s : Storage) (root : Bytes32) :
    (withRoot s root).trustBaseAllowed = s.trustBaseAllowed := rfl

theorem withRoot_lockDigest (s : Storage) (root : Bytes32) :
    (withRoot s root).lockDigest = s.lockDigest := rfl

/-- **Over a plain token a payable batch is paid** by a vault that holds enough. -/
theorem fulfillBatch_plain {depth : Nat} {sender : Address} {publicValues proof : Bytes}
    {leaves : List ReturnLeaf} {lockRefs : List SourceLockRef} {pv : PublicValues} {w : World Word}
    (hentered : w.storage.entered = 0) (hproof : accepts publicValues = true)
    (hdecode : decodePublicValues publicValues = some pv)
    (hchecks : BatchChecks (deployment keccak256 cfg false accepts) w.storage pv leaves lockRefs)
    (hcovered : amountSum leaves ≤ w.asset.toNat) :
    ∃ w', execute (deployment keccak256 cfg false accepts) timestamp (depth + 1) sender
        (.fulfillBatch publicValues proof leaves lockRefs) w = .ok (none, w') ∧
      w'.storage = withRoot w.storage pv.spentRootNew ∧
      w'.log = w.log ++ .batchFulfilled pv.spentRootOld pv.spentRootNew pv.batchSize
        pv.totalAmount :: leaves.map (released timestamp) ∧
      w.asset.toNat ≤ w'.asset.toNat + amountSum leaves := by
  have hchecks' : BatchChecks (deployment keccak256 cfg false accepts)
      (w.setStorage fun s => { s with entered := 1 }).storage pv leaves lockRefs := by
    cases hchecks
    constructor <;> assumption
  obtain ⟨mid, hloop, hmid⟩ := @settleLeaves_plain keccak256 cfg accepts
    (execute (deployment keccak256 cfg false accepts) timestamp depth) timestamp leaves hchecks.fees
    (settling pv (w.setStorage fun s => { s with entered := 1 })) hcovered
  have hbody : fulfillBatch (deployment keccak256 cfg false accepts) timestamp
      (execute (deployment keccak256 cfg false accepts) timestamp depth) publicValues proof leaves
      lockRefs (w.setStorage fun s => { s with entered := 1 }) = .ok (⟨⟩, mid) := by
    rw [fulfillBatch_eq hproof hdecode hchecks', hloop]
  refine ⟨mid.setStorage fun s => { s with entered := 0 }, ?_, ?_, ?_, hmid.covered⟩
  · exact bind_of_ok (nonReentrant_ok.2 ⟨hentered, mid, hbody, rfl⟩)
  · show { mid.storage with entered := 0 } = _
    rw [hmid.storage, ← hentered]
    rfl
  · exact hmid.log.trans (List.append_assoc ..)

end Plain

/-- The checks of the first batch pass. -/
theorem locked_checks (pullPayments : Bool) :
    BatchChecks (bridgeVault pullPayments) (locked pullPayments).storage
      (publicValuesOfCore (input .first).publicValues) ((input .first).returnLeaves.map ofCore)
      ((input .first).sortedLockRefs.map refOfCore) := by
  apply batchChecks_of_execute Guest.Sample.encodeAmount_beNat Guest.Sample.allocatesWithin
    (Guest.Sample.input_accepted .first)
  · rfl
  · exact domain_eq pullPayments .first
  · exact config_eq pullPayments .first
  · exact locked_allowed pullPayments .first
  · exact locked_root pullPayments
  · exact locked_digests pullPayments .first

/-- The settlement events of a turn. -/
def settlement (turn : Turn) : List Event :=
  .batchFulfilled (input turn).publicValues.spentRootOld (input turn).publicValues.spentRootNew
      (publicValuesOfCore (input turn).publicValues).batchSize
      (publicValuesOfCore (input turn).publicValues).totalAmount ::
    ((input turn).returnLeaves.map ofCore).map (released 0)

/-- Where the locks and the root of a turn are in place, its batch is paid. -/
theorem turn_settles {turn : Turn} {w : World Word} (hentered : w.storage.entered = 0)
    (hallowed : w.storage.trustBaseAllowed (input turn).publicValues.trustBaseHash = true)
    (hroot : w.storage.spentRoot = (input turn).publicValues.spentRootOld)
    (hdigests : ∀ lockRef ∈ (input turn).sortedLockRefs,
      w.storage.lockDigest (refOfCore lockRef).nonce = lockRef.digest)
    (hcovered : amountSum ((input turn).returnLeaves.map ofCore) ≤ w.asset.toNat) :
    ∃ w', execute (bridgeVault false) 0 1 admin (fulfillCall turn) w = .ok (none, w') ∧
      w'.storage = withRoot w.storage (input turn).publicValues.spentRootNew ∧
      w'.log = w.log ++ settlement turn ∧
      w.asset.toNat ≤ w'.asset.toNat + amountSum ((input turn).returnLeaves.map ofCore) := by
  apply fulfillBatch_plain hentered (accepts_committed turn) (decodePublicValues_abi _ _) _ hcovered
  apply batchChecks_of_execute Guest.Sample.encodeAmount_beNat Guest.Sample.allocatesWithin
    (Guest.Sample.input_accepted turn)
  · rfl
  · exact domain_eq false turn
  · exact config_eq false turn
  · exact hallowed
  · exact hroot
  · exact hdigests

theorem locked_covered : amountSum ((input .first).returnLeaves.map ofCore) +
    amountSum ((input .second).returnLeaves.map ofCore) = (locked false).asset.toNat := by
  decide +kernel

/-- The first batch is paid after the locks. -/
theorem first_settles : ∃ w',
    execute (bridgeVault false) 0 1 admin (fulfillCall .first) (locked false) = .ok (none, w') ∧
      w'.storage = withRoot (locked false).storage (input .first).publicValues.spentRootNew ∧
      w'.log = (locked false).log ++ settlement .first ∧
      amountSum ((input .second).returnLeaves.map ofCore) ≤ w'.asset.toNat := by
  have hcovered := locked_covered
  obtain ⟨w', hok, hstorage, hlog, hleft⟩ := turn_settles locked_entered (locked_allowed false .first)
    (locked_root false) (locked_digests false .first) (by omega)
  exact ⟨w', hok, hstorage, hlog, by omega⟩

theorem calldata_length : (fulfillCalldata (Guest.committedOutput sdk (input .first).publicValues) []
    (input .first).returnLeaves (input .first).sortedLockRefs).length < 2 ^ 64 := by
  have hle := fulfillCalldata_length_le (Guest.committedOutput sdk (input .first).publicValues) []
    (input .first).returnLeaves (input .first).sortedLockRefs
  have hpublic : (Guest.committedOutput sdk (input .first).publicValues).length = 320 := by
    rw [Guest.committedOutput, List.length_append, publicValuesAbi_length,
      List.Vector.toList_length]
  have hleaves : (input .first).returnLeaves.length = 2 := rfl
  have hrefs : (input .first).sortedLockRefs.length = 2 := rfl
  rw [hpublic, hleaves, hrefs, List.length_nil] at hle
  omega

theorem leaf_fee : feeDue 0 (ofCore (leaf .whole)) = 1 := by decide

theorem leaf_amount : (ofCore (leaf .whole)).amount = 5 := by decide

/-- The first payout of the first batch finds no room. -/
theorem settleLeaf_full {w : World Word}
    (h : w.storage.owed (ofCore (leaf .whole)).recipient = -1) :
    settleLeaf (bridgeVault true) 0 (execute (bridgeVault true) 0 0) (ofCore (leaf .whole)) w =
      .error .panic := by
  have hsub : checkedSub 5 1 w = .ok (4, w) := rfl
  have hadd : checkedAdd (-1) 4 w = .error .panic := rfl
  have hcredit : payOut (bridgeVault true) (execute (bridgeVault true) 0 0)
      (ofCore (leaf .whole)).recipient 4 w = .error .panic := by
    show credit (ofCore (leaf .whole)).recipient 4 w = _
    rw [credit, read_bind, h]
    exact bind_of_error hadd
  rw [settleLeaf, leaf_fee, leaf_amount]
  exact (bind_of_ok hsub).trans (bind_of_error hcredit)

theorem full_panics : execute (bridgeVault true) 0 1 admin (fulfillCall .first)
    (indebted (locked true) (-1) 0) = .error .panic := by
  have hloop : fulfillBatch (bridgeVault true) 0 (execute (bridgeVault true) 0 0)
      (committed .first) [] ((input .first).returnLeaves.map ofCore)
      ((input .first).sortedLockRefs.map refOfCore) (indebted (locked true) (-1) 1) =
        .error .panic := by
    rw [fulfillBatch_eq (proof_accepted true .first) (decodePublicValues_abi _ _)
      (indebted_checks (locked_checks true) (-1) 1)]
    have hleaves : (input .first).returnLeaves.map ofCore =
        [ofCore (leaf .whole), ofCore (leaf .left)] := rfl
    rw [hleaves]
    exact bind_of_error (settleLeaf_full (settling_indebted _ _ _ _ _))
  exact bind_of_error ((nonReentrant_error (indebted_entered _ _ _)).2 hloop)

/-- An entered vault settles nothing. -/
theorem fulfillCall_reentered {w : World Word} (hentered : w.storage.entered = 1) :
    execute (bridgeVault true) 0 1 admin (fulfillCall .first) w =
      .error (.reason "vault: reentrancy") := by
  have hguard : require (w.storage.entered = 0) (Revert.reason "vault: reentrancy") w =
      .error (.reason "vault: reentrancy") := by
    rw [require, if_neg (by rw [hentered]; decide)]
    rfl
  refine bind_of_error ?_
  rw [nonReentrant, read_bind]
  exact bind_of_error hguard

end Sample

open Guest.Sample (sdk input) in
/-- A batch of two burns in a vault that is free to pay it. -/
theorem payable_sample :
    BatchChecks (Sample.bridgeVault false) (Sample.locked false).storage
      (publicValuesOfCore (input .first).publicValues) ((input .first).returnLeaves.map ofCore)
      ((input .first).sortedLockRefs.map refOfCore) ∧
    (input .first).returnLeaves = [Guest.Sample.leaf .whole, Guest.Sample.leaf .left] := by
  have haccepted := Guest.Sample.input_accepted .first
  refine ⟨?_, rfl⟩
  apply (payable Guest.Sample.encodeAmount_beNat Guest.Sample.allocatesWithin haccepted _ _ _ _ _ _ _
    Sample.calldata_length).2.2.1
  · rfl
  · exact Sample.domain_eq false .first
  · exact Sample.config_eq false .first
  · exact Sample.locked_entered
  · exact Sample.locked_allowed false .first
  · exact Sample.locked_root false
  · exact Sample.locked_digests false .first

open Guest.Sample (sdk input) in
/-- The sample batch in pull mode, where no asset transfer is made. The vault reverts behind its
checks when it owes the recipient too much, and before them when it is being called already. -/
theorem payable_owed_full :
    Guest.execute sdk (input .first) = .ok (input .first).publicValues ∧
    (Sample.bridgeVault true).domainTag = (input .first).publicValues.domainTag ∧
    (Sample.bridgeVault true).configHash = (input .first).publicValues.configHash ∧
    (∀ owed entered,
      (Sample.indebted (Sample.locked true) owed entered).storage.trustBaseAllowed
          (input .first).publicValues.trustBaseHash = true ∧
      (Sample.indebted (Sample.locked true) owed entered).storage.spentRoot =
        (input .first).publicValues.spentRootOld ∧
      ∀ lockRef ∈ (input .first).sortedLockRefs,
        (Sample.indebted (Sample.locked true) owed entered).storage.lockDigest (refOfCore lockRef).nonce =
          lockRef.digest) ∧
    (Sample.bridgeVault true).pullPayments = true ∧
    (Sample.bridgeVault true).verifyProof (Sample.bridgeVault true).vkey
      (Sample.committed .first) [] = true ∧
    execute (Sample.bridgeVault true) 0 1 Sample.admin (Sample.fulfillCall .first)
      (Sample.indebted (Sample.locked true) (-1) 0) = .error .panic ∧
    execute (Sample.bridgeVault true) 0 1 Sample.admin (Sample.fulfillCall .first)
      (Sample.indebted (Sample.locked true) 0 1) = .error (.reason "vault: reentrancy") := by
  have hreentered := Sample.fulfillCall_reentered (Sample.indebted_entered (Sample.locked true) 0 1)
  exact ⟨Guest.Sample.input_accepted .first, Sample.domain_eq true .first, Sample.config_eq true .first,
    fun _ _ => ⟨Sample.locked_allowed true .first, Sample.locked_root true,
      Sample.locked_digests true .first⟩, rfl, Sample.proof_accepted true .first, Sample.full_panics,
    hreentered⟩

end UnicityBridge.Vault
