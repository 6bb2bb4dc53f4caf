import UnicityBridge.Core
import UnicityBridge.Lib.Abi
import UnicityBridge.Lib.Exec

/-!
# The vault contract

`contracts/tron/contracts/UnicityBridgeVault.sol` and `BridgeEncoding.sol`. A call runs over a world:
the vault's storage, the state of the asset contract, the event log and the asset transfers the vault
has made. A call that reverts leaves no world, which is the rollback.

The asset is a parameter. What it does when the vault calls it is an `Interaction`: it may read the
vault, call it back from any sender, and in the end succeed or fail. A call back runs the same code at
one less of call depth.
-/

set_option autoImplicit false

namespace UnicityBridge.Vault

open UnicityBridge.Lib UnicityBridge.Lib.Exec
open UnicityBridge.Core (Address BridgeConfig utf8)

/-- `uint256` -/
abbrev Word := BitVec 256

/-- A return of a batch: what it releases, to whom, and the fee it concedes until the deadline. -/
structure ReturnLeaf where
  nullifier : Bytes32
  recipient : Address
  amount : Word
  feeRecipient : Address
  feeAmount : Word
  deadline : UInt64
  deriving DecidableEq

/-- A lock the batch draws on. -/
structure SourceLockRef where
  nonce : Word
  digest : Bytes32
  deriving DecidableEq

/-- The public values of a proof. -/
structure PublicValues where
  domainTag : Bytes32
  configHash : Bytes32
  trustBaseHash : Bytes32
  spentRootOld : Bytes32
  spentRootNew : Bytes32
  returnRoot : Bytes32
  lockRefRoot : Bytes32
  batchSize : UInt32
  totalAmount : Word
  deriving DecidableEq

/-! ## Encodings -/

namespace BridgeEncoding

/-- Domain of the configuration hash. -/
def DOMAIN_CONFIG : Bytes := utf8 "unicity-bridge-return-config:v1"

/-- Domain of the lock digest. -/
def DOMAIN_LOCK : Bytes := utf8 "unicity-bridge-lock:v1"

/-- The text whose hash is the domain tag of the public values. -/
def DOMAIN_RETURN : Bytes := utf8 "unicity-bridge-return:v1"

/-- `abi.encode` of static values. -/
def encodeWords (words : List Bytes32) : Bytes := words.flatMap fun word => word.toList

/-- `abi.encode` of a text and static values. -/
def encodeText (text : Bytes) (words : List Bytes32) : Bytes :=
  (ByteArr.ofNat 32 (32 * (words.length + 1))).toList ++ encodeWords words ++ Abi.bytesTail text

variable (keccak256 : Bytes → Bytes32)

/-- Hash of the configuration. -/
def configHash (c : BridgeConfig) : Bytes32 :=
  keccak256 (encodeText DOMAIN_CONFIG [ByteArr.ofNat 32 c.sourceChainId.toNat,
    Abi.wordAddress c.vault, Abi.wordAddress c.asset, c.tokenType, c.coinId,
    ByteArr.ofNat 32 c.reasonTag.toNat, c.lockDomain, c.nullifierDomain])

/-- What the vault stores of a lock. -/
def lockDigest (sourceChainId : UInt64) (vault : Address) (nonce : Word) (asset : Address)
    (tokenType coinId : Bytes32) (amount : Word) (unicityTokenId recipientCommitment : Bytes32) :
    Bytes32 :=
  keccak256 (encodeText DOMAIN_LOCK [ByteArr.ofNat 32 sourceChainId.toNat, Abi.wordAddress vault,
    Abi.word256 nonce, Abi.wordAddress asset, tokenType, coinId, Abi.word256 amount, unicityTokenId,
    recipientCommitment])

/-- The domain tag of the public values. -/
def domainTag : Bytes32 := keccak256 DOMAIN_RETURN

/-- The words of a leaf. -/
def leafWords (l : ReturnLeaf) : List Bytes32 :=
  [l.nullifier, Abi.wordAddress l.recipient, Abi.word256 l.amount, Abi.wordAddress l.feeRecipient,
    Abi.word256 l.feeAmount, ByteArr.ofNat 32 l.deadline.toNat]

/-- The bytes under the return root. -/
def leavesInput (leaves : List ReturnLeaf) : Bytes :=
  leaves.flatMap fun l => encodeWords (leafWords l)

/-- Hash of the packed leaves. -/
def returnRoot (leaves : List ReturnLeaf) : Bytes32 := keccak256 (leavesInput leaves)

/-- The words of a lock reference. -/
def refWords (r : SourceLockRef) : List Bytes32 := [Abi.word256 r.nonce, r.digest]

/-- Hash of the packed references. -/
def lockRefRoot (refs : List SourceLockRef) : Bytes32 :=
  keccak256 (refs.flatMap fun r => encodeWords (refWords r))

end BridgeEncoding

/-- `abi.decode(publicValues, (PublicValues))`: bytes after the nine words are ignored. -/
def decodePublicValues (data : Bytes) : Option PublicValues :=
  if data.length < 288 then none
  else do
    let batchSize ← Abi.readUint 32 (Abi.load data (32 * 7))
    some {
      domainTag := Abi.load data (32 * 0)
      configHash := Abi.load data (32 * 1)
      trustBaseHash := Abi.load data (32 * 2)
      spentRootOld := Abi.load data (32 * 3)
      spentRootNew := Abi.load data (32 * 4)
      returnRoot := Abi.load data (32 * 5)
      lockRefRoot := Abi.load data (32 * 6)
      batchSize := UInt32.ofNat batchSize
      totalAmount := Abi.uint256 (Abi.load data (32 * 8)) }

/-- A leaf in calldata. Fields narrower than a word have to be clean. -/
def decodeLeaf (data : Bytes) : Option ReturnLeaf := do
  let recipient ← Abi.readAddress (Abi.load data (32 * 1))
  let feeRecipient ← Abi.readAddress (Abi.load data (32 * 3))
  let deadline ← Abi.readUint 64 (Abi.load data (32 * 5))
  some {
    nullifier := Abi.load data (32 * 0)
    recipient := recipient
    amount := Abi.uint256 (Abi.load data (32 * 2))
    feeRecipient := feeRecipient
    feeAmount := Abi.uint256 (Abi.load data (32 * 4))
    deadline := UInt64.ofNat deadline }

/-- A lock reference in calldata. -/
def decodeLockRef (data : Bytes) : Option SourceLockRef :=
  some {
    nonce := Abi.uint256 (Abi.load data (32 * 0))
    digest := Abi.load data (32 * 1) }

/-- The arguments of `fulfillBatch`. -/
structure FulfillArguments where
  publicValues : Bytes
  proof : Bytes
  leaves : List ReturnLeaf
  lockRefs : List SourceLockRef

/-- The calldata of `fulfillBatch` behind its selector. -/
def decodeFulfillBatch (data : Bytes) : Option FulfillArguments :=
  if data.length < 128 then none
  else do
    let publicValues ← Abi.decodeBytes data (32 * 0)
    let proof ← Abi.decodeBytes data (32 * 1)
    let leaves ← Abi.decodeArray 192 decodeLeaf data (32 * 2)
    let lockRefs ← Abi.decodeArray 64 decodeLockRef data (32 * 3)
    some { publicValues, proof, leaves, lockRefs }

/-! ## State -/

/-- The events of the vault. -/
inductive Event where
  | lock (nonce : Word) (sender : Address) (amount : Word)
      (unicityTokenId recipientCommitment : Bytes32)
  | batchFulfilled (spentRootOld spentRootNew : Bytes32) (batchSize : UInt32) (totalAmount : Word)
  | released (nullifier : Bytes32) (recipient : Address) (amount : Word) (feeRecipient : Address)
      (feeAmount : Word) (deadline : UInt64)
  | trustBaseAllowedUpdated (trustBaseHash : Bytes32) (allowed : Bool)
  | adminTransferred (previousAdmin newAdmin : Address)
  | withdrawn (account : Address) (amount : Word)
  deriving DecidableEq

/-- What the constructor fixes. -/
structure Immutables where
  /-- `address(this)` -/
  self : Address
  vkey : Bytes32
  domainTag : Bytes32
  configHash : Bytes32
  sourceChainId : UInt64
  assetAddr : Address
  tokenType : Bytes32
  coinId : Bytes32
  pullPayments : Bool

/-- The storage of the vault. -/
structure Storage where
  admin : Address
  lockDigest : Word → Bytes32
  nextNonce : Word
  tokenIdUsed : Bytes32 → Bool
  trustBaseAllowed : Bytes32 → Bool
  spentRoot : Bytes32
  owed : Address → Word
  entered : Word

/-- The spent root of a new vault. -/
def EMPTY_TREE_ROOT : Bytes32 := ByteArr.zero 32

/-- Why a call reverts. -/
inductive Revert where
  /-- `require` with a reason. -/
  | reason (text : String)
  /-- Checked arithmetic. -/
  | panic
  /-- The proof verifier reverted. -/
  | proofRejected
  /-- Calldata that does not decode. -/
  | malformed
  /-- `balanceOf` failed. -/
  | balanceUnavailable
  /-- No call depth left. -/
  | depth
  deriving DecidableEq

/-- The external functions that change the state. -/
inductive Call where
  | lock (amount : Word) (unicityTokenId recipientCommitment : Bytes32)
  | fulfillBatch (publicValues proof : Bytes) (leaves : List ReturnLeaf)
      (lockRefs : List SourceLockRef)
  | withdraw
  | setTrustBaseAllowed (trustBaseHash : Bytes32) (allowed : Bool)
  | transferAdmin (newAdmin : Address)

/-- What a call returns: a number or nothing. -/
abbrev Returned := Option Word

/-- What the asset does while the vault calls it. -/
inductive Interaction (σ : Type) where
  | finish (state : σ) (success : Bool)
  | view (next : Storage → Interaction σ)
  | reenter (state : σ) (sender : Address) (call : Call)
      (next : Except Revert Returned → σ → Interaction σ)

/-- The asset contract, over its own state. Its balances change only in its two transfers, whose
callers are the vault; the value they return is not looked at. -/
structure Asset (σ : Type) where
  balanceOf : σ → Address → Option Word
  transferFrom : σ → Address → Address → Word → Interaction σ
  transfer : σ → Address → Word → Interaction σ

/-- A deployed vault with the contracts it calls. -/
structure Deployment (σ : Type) extends Immutables where
  verifyProof : Bytes32 → Bytes → Bytes → Bool
  asset : Asset σ
  keccak256 : Bytes → Bytes32

/-- The vault and the asset, with the log of the vault. -/
structure World (σ : Type) where
  storage : Storage
  asset : σ
  log : List Event
  /-- The transfers of the asset that the vault made, in order. -/
  transfers : List (Address × Word)

/-- A part of a transaction. -/
abbrev Tx (σ : Type) := Exec (World σ) Revert

namespace World

variable {σ : Type}

/-- The world with the storage changed. -/
def setStorage (f : Storage → Storage) (w : World σ) : World σ :=
  { w with storage := f w.storage }

/-- The world with another state of the asset. -/
def setAsset (state : σ) (w : World σ) : World σ := { w with asset := state }

/-- The world after one more event. -/
def emit (event : Event) (w : World σ) : World σ := { w with log := w.log ++ [event] }

/-- The world after one more transfer by the vault. -/
def addTransfer (recipient : Address) (value : Word) (w : World σ) : World σ :=
  { w with transfers := w.transfers ++ [(recipient, value)] }

end World

/-- `constructor`. The vault's own address replaces the one in the config. -/
def construct (keccak256 : Bytes → Bytes32) (self : Address) (cfg : BridgeConfig)
    (verifier : Address) (vkey : Bytes32) (admin : Address) (pullPayments : Bool) :
    Except Revert (Immutables × Storage) := do
  let cfg := { cfg with vault := self }
  ensure (cfg.asset ≠ ByteArr.zero 20) (.reason "vault: zero asset")
  ensure (verifier ≠ ByteArr.zero 20) (.reason "vault: zero verifier")
  ensure (admin ≠ ByteArr.zero 20) (.reason "vault: zero admin")
  .ok ({
    self := self
    vkey := vkey
    domainTag := BridgeEncoding.domainTag keccak256
    configHash := BridgeEncoding.configHash keccak256 cfg
    sourceChainId := cfg.sourceChainId
    assetAddr := cfg.asset
    tokenType := cfg.tokenType
    coinId := cfg.coinId
    pullPayments := pullPayments }, {
    admin := admin
    lockDigest := fun _ => ByteArr.zero 32
    nextNonce := 0
    tokenIdUsed := fun _ => false
    trustBaseAllowed := fun _ => false
    spentRoot := EMPTY_TREE_ROOT
    owed := fun _ => 0
    entered := 0 })

/-! ## Calls -/

section Calls

variable {σ : Type}

/-- `a + b`; an overflow reverts. -/
def checkedAdd (a b : Word) : Tx σ Word :=
  if a.toNat + b.toNat < 2 ^ 256 then pure (a + b) else fail .panic

/-- `a - b`; an underflow reverts. -/
def checkedSub (a b : Word) : Tx σ Word :=
  if b ≤ a then pure (a - b) else fail .panic

/-- The modifier `onlyAdmin`. -/
def onlyAdmin (sender : Address) : Tx σ Unit := do
  let admin ← read fun w => w.storage.admin
  require (sender = admin) (.reason "vault: not admin")

/-- The modifier `nonReentrant`. A call back into a guarded function reverts. -/
def nonReentrant {α : Type} (body : Tx σ α) : Tx σ α := do
  let entered ← read fun w => w.storage.entered
  require (entered = 0) (.reason "vault: reentrancy")
  update (World.setStorage fun s => { s with entered := 1 })
  let result ← body
  update (World.setStorage fun s => { s with entered := 0 })
  pure result

/-- Run what the asset does; `reenter` runs its calls back. -/
def interact (reenter : Address → Call → Tx σ Returned) : Interaction σ → Tx σ Bool
  | .finish state success => do
      update (World.setAsset state)
      pure success
  | .view next => do
      let storage ← read World.storage
      interact reenter (next storage)
  | .reenter state sender call next => do
      update (World.setAsset state)
      let result ← attempt (reenter sender call)
      let state' ← read World.asset
      interact reenter (next result state')

variable (d : Deployment σ) (timestamp : Word) (reenter : Address → Call → Tx σ Returned)

/-- The vault's balance. -/
def held : Tx σ Word := do
  let balance ← read fun w => d.asset.balanceOf w.asset d.self
  expect balance .balanceUnavailable

/-- A transfer that reverts or answers `false` ends the call. -/
def callAsset (interaction : Interaction σ) (failure : String) : Tx σ Unit := do
  let ok ← interact reenter interaction
  require (ok = true) (.reason failure)

/-- The balance has to grow by exactly `value`. -/
def receiveExactly (sender : Address) (value : Word) : Tx σ Unit := do
  let before ← held d
  let state ← read World.asset
  callAsset reenter (d.asset.transferFrom state sender d.self value) "vault: transferFrom failed"
  let after ← held d
  let received ← checkedSub after before
  require (received = value) (.reason "vault: amount not received")

/-- A payout to the vault itself moves nothing. -/
def sendExactly (recipient : Address) (value : Word) : Tx σ Unit :=
  if recipient = d.self ∨ value = 0 then pure ()
  else do
    let before ← held d
    let state ← read World.asset
    callAsset reenter (d.asset.transfer state recipient value) "vault: transfer failed"
    update (World.addTransfer recipient value)
    let after ← held d
    let sent ← checkedSub before after
    require (sent = value) (.reason "vault: amount not sent")

/-- `lock`. Everything is recorded before the asset is called. -/
def lock (sender : Address) (amount : Word) (unicityTokenId recipientCommitment : Bytes32) :
    Tx σ Word := do
  require (0 < amount) (.reason "vault: zero amount")
  require (amount.toNat ≤ 2 ^ 64 - 1) (.reason "vault: amount exceeds uint64")
  require (unicityTokenId ≠ ByteArr.zero 32) (.reason "vault: zero tokenId")
  require (recipientCommitment ≠ ByteArr.zero 32) (.reason "vault: zero recipient")
  let used ← read fun w => w.storage.tokenIdUsed unicityTokenId
  require (used = false) (.reason "vault: tokenId already locked")
  update (World.setStorage fun s =>
    { s with tokenIdUsed := Function.update s.tokenIdUsed unicityTokenId true })
  let nonce ← read fun w => w.storage.nextNonce
  let next ← checkedAdd nonce 1
  update (World.setStorage fun s => { s with nextNonce := next })
  let digest := BridgeEncoding.lockDigest d.keccak256 d.sourceChainId d.self nonce d.assetAddr
    d.tokenType d.coinId amount unicityTokenId recipientCommitment
  update (World.setStorage fun s =>
    { s with lockDigest := Function.update s.lockDigest nonce digest })
  update (World.emit (.lock nonce sender amount unicityTokenId recipientCommitment))
  receiveExactly d reenter sender amount
  pure nonce

/-- Step 3 of `fulfillBatch`: the references rise strictly and match the stored digests. -/
def checkLockRefs : Option Word → List SourceLockRef → Tx σ Unit
  | _, [] => pure ()
  | previous, lockRef :: rest => do
      require (∀ nonce ∈ previous, nonce < lockRef.nonce) (.reason "vault: lock refs unsorted")
      let stored ← read fun w => w.storage.lockDigest lockRef.nonce
      require (stored = lockRef.digest) (.reason "vault: lock digest mismatch")
      checkLockRefs (some lockRef.nonce) rest

/-- Step 4 of `fulfillBatch`, on one leaf. -/
def addLeaf (total : Word) (l : ReturnLeaf) : Tx σ Word := do
  require (l.feeAmount ≤ l.amount) (.reason "vault: fee exceeds amount")
  checkedAdd total l.amount

/-- `owed[account] += value` -/
def credit (account : Address) (value : Word) : Tx σ Unit := do
  let before ← read fun w => w.storage.owed account
  let after ← checkedAdd before value
  update (World.setStorage fun s => { s with owed := Function.update s.owed account after })

/-- One payout of a leaf: credited in pull mode, sent in push mode. -/
def payOut (recipient : Address) (value : Word) : Tx σ Unit :=
  if d.pullPayments then credit recipient value else sendExactly d reenter recipient value

/-- The fee that is due: none without a fee recipient or after the deadline. -/
def feeDue (l : ReturnLeaf) : Word :=
  if l.feeRecipient ≠ ByteArr.zero 20 ∧ timestamp.toNat ≤ l.deadline.toNat then l.feeAmount else 0

/-- Step 6 of `fulfillBatch`, on one leaf. -/
def settleLeaf (l : ReturnLeaf) : Tx σ Unit := do
  let fee := feeDue timestamp l
  let principal ← checkedSub l.amount fee
  payOut d reenter l.recipient principal
  (if 0 < fee then payOut d reenter l.feeRecipient fee else pure ())
  update (World.emit (.released l.nullifier l.recipient l.amount l.feeRecipient fee l.deadline))

/-- Steps 2 to 4 of `fulfillBatch`: every check of the statement before anything is written. -/
def checkBatch (pv : PublicValues) (leaves : List ReturnLeaf) (lockRefs : List SourceLockRef) :
    Tx σ Unit := do
  require (pv.domainTag = d.domainTag) (.reason "vault: bad domain")
  require (pv.configHash = d.configHash) (.reason "vault: bad config")
  let allowed ← read fun w => w.storage.trustBaseAllowed pv.trustBaseHash
  require (allowed = true) (.reason "vault: trust base not allowed")
  let spentRoot ← read fun w => w.storage.spentRoot
  require (pv.spentRootOld = spentRoot) (.reason "vault: stale root")
  require (leaves.length > 0) (.reason "vault: empty batch")
  require (pv.batchSize.toNat = leaves.length) (.reason "vault: batch size mismatch")
  require (pv.returnRoot = BridgeEncoding.returnRoot d.keccak256 leaves)
    (.reason "vault: return root mismatch")
  require (pv.lockRefRoot = BridgeEncoding.lockRefRoot d.keccak256 lockRefs)
    (.reason "vault: lock ref root mismatch")
  checkLockRefs none lockRefs
  let total ← leaves.foldlM addLeaf 0
  require (total = pv.totalAmount) (.reason "vault: total amount mismatch")

/-- `fulfillBatch`. The root has moved before the first payout. -/
def fulfillBatch (publicValues proof : Bytes) (leaves : List ReturnLeaf)
    (lockRefs : List SourceLockRef) : Tx σ Unit := do
  require (d.verifyProof d.vkey publicValues proof = true) .proofRejected
  let pv ← expect (decodePublicValues publicValues) .malformed
  checkBatch d pv leaves lockRefs
  update (World.setStorage fun s => { s with spentRoot := pv.spentRootNew })
  update (World.emit (.batchFulfilled pv.spentRootOld pv.spentRootNew pv.batchSize pv.totalAmount))
  leaves.forM (settleLeaf d timestamp reenter)

/-- `withdraw`. The debt is gone before the payout. -/
def withdraw (sender : Address) : Tx σ Word := do
  let amount ← read fun w => w.storage.owed sender
  require (0 < amount) (.reason "vault: nothing owed")
  update (World.setStorage fun s => { s with owed := Function.update s.owed sender 0 })
  update (World.emit (.withdrawn sender amount))
  sendExactly d reenter sender amount
  pure amount

/-- The admin allows a trust base, or withdraws it. -/
def setTrustBaseAllowed (sender : Address) (trustBaseHash : Bytes32) (allowed : Bool) :
    Tx σ Unit := do
  onlyAdmin sender
  update (World.setStorage fun s =>
    { s with trustBaseAllowed := Function.update s.trustBaseAllowed trustBaseHash allowed })
  update (World.emit (.trustBaseAllowedUpdated trustBaseHash allowed))

/-- The admin names the next one. -/
def transferAdmin (sender newAdmin : Address) : Tx σ Unit := do
  onlyAdmin sender
  require (newAdmin ≠ ByteArr.zero 20) (.reason "vault: zero admin")
  let admin ← read fun w => w.storage.admin
  update (World.emit (.adminTransferred admin newAdmin))
  update (World.setStorage fun s => { s with admin := newAdmin })

/-- An external call, with the calls back left open. -/
def callVault (sender : Address) : Call → Tx σ Returned
  | .lock amount unicityTokenId recipientCommitment => do
      let nonce ← nonReentrant
        (lock d reenter sender amount unicityTokenId recipientCommitment)
      pure (some nonce)
  | .fulfillBatch publicValues proof leaves lockRefs => do
      nonReentrant (fulfillBatch d timestamp reenter publicValues proof leaves lockRefs)
      pure none
  | .withdraw => do
      let amount ← nonReentrant (withdraw d reenter sender)
      pure (some amount)
  | .setTrustBaseAllowed trustBaseHash allowed => do
      setTrustBaseAllowed sender trustBaseHash allowed
      pure none
  | .transferAdmin newAdmin => do
      transferAdmin sender newAdmin
      pure none

end Calls

variable {σ : Type}

/-- An external call at a call depth. -/
def execute (d : Deployment σ) (timestamp : Word) : Nat → Address → Call → Tx σ Returned
  | 0, _, _ => fail .depth
  | depth + 1, sender, call => callVault d timestamp (execute d timestamp depth) sender call

/-! ## Runs -/

/-- What happens on the chain: a call of the vault in a block, or anything that moves the asset. -/
inductive Transaction (σ : Type) where
  | call (timestamp : Word) (depth : Nat) (sender : Address) (call : Call)
  | asset (state : σ)

/-- A call that reverts changes nothing. -/
def apply (d : Deployment σ) (w : World σ) : Transaction σ → World σ
  | .call timestamp depth sender call =>
      match execute d timestamp depth sender call w with
      | .ok (_, w') => w'
      | .error _ => w
  | .asset state => w.setAsset state

/-- The chain after these transactions. -/
def run (d : Deployment σ) (w : World σ) (transactions : List (Transaction σ)) : World σ :=
  transactions.foldl (apply d) w

/-- The leaves a transaction settles: those of a `fulfillBatch` that succeeds. -/
def settledBy (d : Deployment σ) (w : World σ) : Transaction σ → List ReturnLeaf
  | .call timestamp depth sender (.fulfillBatch publicValues proof leaves lockRefs) =>
      match execute d timestamp depth sender (.fulfillBatch publicValues proof leaves lockRefs) w with
      | .ok _ => leaves
      | .error _ => []
  | _ => []

/-- The leaves of all successful batches of a run, in order. -/
def settled (d : Deployment σ) : World σ → List (Transaction σ) → List ReturnLeaf
  | _, [] => []
  | w, transaction :: rest => settledBy d w transaction ++ settled d (apply d w transaction) rest

/-- The vault after its constructor, over an asset in any state. -/
structure Fresh (d : Deployment σ) (w : World σ) : Prop where
  constructed : ∃ cfg verifier admin, construct d.keccak256 d.self cfg verifier d.vkey admin
    d.pullPayments = .ok (d.toImmutables, w.storage)
  log : w.log = []
  transfers : w.transfers = []

end UnicityBridge.Vault
