import UnicityBridge.Backing
import UnicityBridge.BurnReason
import UnicityBridge.VaultLocks

/-!
# The wallet's check of a lock

`packages/bridge-plugin/src/LockMintJustificationVerifier.ts` and `lock-event.ts`: before a wallet
accepts a bridged mint it asks a node of the source chain for the lock transaction and compares the
`Lock` event with the justification and the mint. The circuit has no node; it recomputes the digest
that the vault stored.

With a truthful node the two agree on every mint whose justification carries the vault's own chain id
(`returnable_iff`). The wallet compares chain ids as numbers, so other ids can pass for the vault's when
that is `2 ^ 53` or more.
-/

set_option autoImplicit false

namespace UnicityBridge.Vault

open UnicityBridge.Lib

/-! ## Logs of the vault -/

namespace Event

/-- The signature that is hashed for the first topic. -/
def signature : Event → String
  | .lock .. => "Lock(uint256,address,uint256,bytes32,bytes32)"
  | .batchFulfilled .. => "BatchFulfilled(bytes32,bytes32,uint32,uint256)"
  | .released .. => "Released(bytes32,address,uint256,address,uint256,uint64)"
  | .trustBaseAllowedUpdated .. => "TrustBaseAllowedUpdated(bytes32,bool)"
  | .adminTransferred .. => "AdminTransferred(address,address)"
  | .withdrawn .. => "Withdrawn(address,uint256)"

/-- The indexed fields. -/
def indexed : Event → List Bytes32
  | .lock nonce sender _ _ _ => [Abi.word256 nonce, Abi.wordAddress sender]
  | .batchFulfilled spentRootOld spentRootNew _ _ => [spentRootOld, spentRootNew]
  | .released nullifier recipient _ _ _ _ => [nullifier, Abi.wordAddress recipient]
  | .trustBaseAllowedUpdated trustBaseHash _ => [trustBaseHash]
  | .adminTransferred previousAdmin newAdmin =>
      [Abi.wordAddress previousAdmin, Abi.wordAddress newAdmin]
  | .withdrawn account _ => [Abi.wordAddress account]

/-- The other fields. -/
def fields : Event → List Bytes32
  | .lock _ _ amount unicityTokenId recipientCommitment =>
      [Abi.word256 amount, unicityTokenId, recipientCommitment]
  | .batchFulfilled _ _ batchSize totalAmount =>
      [ByteArr.ofNat 32 batchSize.toNat, Abi.word256 totalAmount]
  | .released _ _ amount feeRecipient feeAmount deadline =>
      [Abi.word256 amount, Abi.wordAddress feeRecipient, Abi.word256 feeAmount,
        ByteArr.ofNat 32 deadline.toNat]
  | .trustBaseAllowedUpdated _ allowed => [ByteArr.ofNat 32 allowed.toNat]
  | .adminTransferred _ _ => []
  | .withdrawn _ amount => [Abi.word256 amount]

/-- The topics of an event's log: its signature and its indexed fields. -/
def topics (keccak256 : Bytes → Bytes32) (event : Event) : List Bytes32 :=
  keccak256 (Core.utf8 event.signature) :: event.indexed

/-- The data of an event's log. -/
def data (event : Event) : Bytes := BridgeEncoding.encodeWords event.fields

end Event

end UnicityBridge.Vault

namespace UnicityBridge.BridgePlugin

open UnicityBridge.Lib UnicityBridge.TokenSdk

/-! ## The source chain -/

/-- A log of a transaction, in hex. -/
structure SourceLog where
  address : String
  topics : List String
  data : String

/-- A transaction as the node reports it. -/
structure SourceTxInfo where
  blockNumber : Int
  success : Bool
  logs : List SourceLog

/-- A node's answers while a mint is checked. -/
structure SourceChainRpc where
  getTransactionInfo : String → Result (Option SourceTxInfo)
  getNowBlockNumber : Result Int

/-- The text without a `0x` prefix. -/
def strip0x (h : String) : String :=
  match h.toList with
  | '0' :: 'x' :: rest => String.ofList rest
  | '0' :: 'X' :: rest => String.ofList rest
  | _ => h

/-- Hex with or without prefix to bytes. -/
def fromHex (hex : String) : Result Bytes := do
  let h := strip0x hex
  ensure (h.length % 2 = 0) s!"Invalid hex length: {hex}"
  okOr (hexDecode h) s!"Invalid hex: {hex}"

/-! ## Lock events -/

section Event

variable (keccak256 : Bytes → Bytes32)

/-- The signature of the vault's event. -/
def LOCK_EVENT_SIGNATURE : String := "Lock(uint256,address,uint256,bytes32,bytes32)"

/-- The first topic of a lock's log. -/
def LOCK_EVENT_TOPIC0 : String := hexEncode (keccak256 (Core.utf8 LOCK_EVENT_SIGNATURE)).toList

/-- The fields of a lock's log. -/
structure DecodedLockEvent where
  nonce : Nat
  sender : String
  amount : Nat
  unicityTokenId : Bytes
  recipientCommitment : Bytes

/-- The number a word stands for. -/
def wordToBigInt (word : Bytes) : Nat := beNat word

/-- `none` is the source's `null`: not a well-formed `Lock` event. -/
def decodeLockEvent (log : SourceLog) : Result (Option DecodedLockEvent) :=
  match log.topics.map fun topic => toLowerCase (strip0x topic) with
  | [topic, nonce, sender] =>
      if topic ≠ LOCK_EVENT_TOPIC0 keccak256 then .ok none
      else do
        let data ← fromHex (strip0x log.data)
        if data.length < 96 then .ok none
        else do
          let nonce ← fromHex nonce
          .ok (some {
            nonce := wordToBigInt nonce
            sender := String.ofList (sender.toList.drop 24)
            amount := wordToBigInt (data.take 32)
            unicityTokenId := (data.drop 32).take 32
            recipientCommitment := (data.drop 64).take 32 })
  | _ => .ok none

end Event

/-! ## The verifier -/

/-- The verdict of a rule. -/
inductive VerificationStatus where
  | OK
  | FAIL
  deriving DecidableEq

/-- The verdict with the rule and its message. -/
structure VerificationResult where
  rule : String
  status : VerificationStatus
  message : String
  deriving DecidableEq

/-- The name of the rule. -/
def RULE : String := "LockMintJustificationVerifier"

/-- How a check ends early: the mint is refused, or the recipient can retry. -/
inductive Stop where
  | fail (message : String)
  | throw (message : String)

/-- The checks of `verify`, in order. -/
def verifySteps (sdk : Sdk) (ts : CborDeserializer) (config : ResolvedBridgeConfig)
    (rpc : SourceChainRpc) (transaction : CertifiedMintTransaction) : Except Stop Unit := do
  let mint := transaction.transaction
  let bytes ← okOr mint.justification (.fail "Transaction has no justification.")
  let justification ← (BridgeLockJustification.fromCBOR ts bytes).mapError fun message =>
    Stop.fail s!"Malformed justification: {message}"
  let j := justification.data
  -- the chain, the contract and the asset
  ensure (j.chainId = config.chainId)
    (.fail s!"Chain id mismatch: proof {j.chainId.value}, expected {config.chainId.value}.")
  ensure (toLowerCase (hexEncode j.lockContract) = config.lockContractHex)
    (.fail "Lock contract is not the canonical bridge contract.")
  ensure (toLowerCase (hexEncode j.assetContract) = config.assetContractHex)
    (.fail "Asset contract is not the canonical bridged asset.")
  ensure (mint.tokenType = config.tokenType) (.fail "Token type does not match this bridged asset.")
  -- the lock transaction, its success and its finality
  let found ← (rpc.getTransactionInfo (hexEncode j.txid)).mapError Stop.throw
  let txInfo ← okOr found (.throw s!"Lock transaction not found: {hexEncode j.txid}.")
  ensure (txInfo.success = true) (.fail "Lock transaction did not succeed.")
  let tip ← rpc.getNowBlockNumber.mapError Stop.throw
  let confirmations := tip - txInfo.blockNumber
  ensure (¬ confirmations < config.confirmations)
    (.throw s!"Insufficient confirmations: {confirmations} < {config.confirmations} (awaiting source finality).")
  -- the event
  let log ← okOr txInfo.logs[j.logIndex.value]? (.fail s!"No log at index {j.logIndex.value}.")
  ensure (toLowerCase log.address = config.lockContractHex)
    (.fail "Log was not emitted by the canonical lock contract.")
  let decoded ← (decodeLockEvent sdk.keccak256 log).mapError Stop.throw
  let event ← okOr decoded (.fail s!"Log at index {j.logIndex.value} is not a Lock event.")
  -- the amount
  ensure (event.amount = j.amount)
    (.fail s!"Amount mismatch: event {event.amount}, justification {j.amount}.")
  let declared ← okOr (decodeBridgePaymentData ts mint.data config.coinId)
    (.fail "Token declares no bridged-asset value.")
  ensure (declared = event.amount)
    (.fail s!"Token value {declared} does not match locked amount {event.amount}.")
  -- the nonce, the token id and the recipient
  ensure (event.nonce = j.nonce)
    (.fail s!"Nonce mismatch: event {event.nonce}, justification {j.nonce}.")
  ensure (event.unicityTokenId = (mint.tokenId sdk).toList)
    (.fail "Lock is bound to a different token id (replay/forgery).")
  let expectedRecipient := sdk.sha256 mint.recipient.toCbor
  ensure (event.recipientCommitment = expectedRecipient.toList)
    (.fail "Lock is bound to a different recipient (theft/front-run).")

/-- The verifier with the wallet's value format. -/
def verify (sdk : Sdk) (ts : CborDeserializer) (config : ResolvedBridgeConfig)
    (rpc : SourceChainRpc) (transaction : CertifiedMintTransaction) : Result VerificationResult :=
  match verifySteps sdk ts config rpc transaction with
  | .ok () => .ok ⟨RULE, .OK, ""⟩
  | .error (.fail message) => .ok ⟨RULE, .FAIL, message⟩
  | .error (.throw message) => .error message

/-! ## What is read of hex texts -/

theorem hexDecode_toLowerCase {text : String} {bytes : Bytes} (h : hexDecode text = some bytes) :
    hexDecode (toLowerCase text) = some bytes := by
  rw [hexDecode, toLowerCase, String.toList_ofList, hexDecodeChars_toLower (hexDecodeChars_some h).1]
  exact h

theorem strip0x_of_digits {text : String} (h : ∀ c ∈ text.toList, c ∈ hexAlphabet) :
    strip0x text = text := by
  have hx : 'x' ∉ hexAlphabet ∧ 'X' ∉ hexAlphabet := by decide
  unfold strip0x
  split
  · next rest heq =>
    rw [heq] at h
    exact absurd (h _ (List.mem_cons_of_mem _ List.mem_cons_self)) hx.1
  · next rest heq =>
    rw [heq] at h
    exact absurd (h _ (List.mem_cons_of_mem _ List.mem_cons_self)) hx.2
  · rfl

/-- A text of digits is read as what it encodes. -/
theorem fromHex_eq_ok {text : String} {bytes bytes' : Bytes} (h : hexDecode text = some bytes) :
    fromHex text = .ok bytes' ↔ bytes = bytes' := by
  have hdigits := hexDecodeChars_some h
  have heven : text.length % 2 = 0 := by
    rw [← String.length_toList, hdigits.2]
    omega
  simp only [fromHex, strip0x_of_digits hdigits.1, bind_eq_ok, ensure_eq_ok, okOr_eq_ok, h,
    Option.some.injEq]
  constructor
  · rintro ⟨-, -, heq⟩
    exact heq
  · intro heq
    exact ⟨(), heven, heq⟩

/-! ## A truthful node -/

section Truthful

variable {keccak256 : Bytes → Bytes32}

/-- The log is the vault's event: its topics and its data, as hex texts. -/
structure Shows (keccak256 : Bytes → Bytes32) (event : Vault.Event) (log : SourceLog) : Prop where
  topics : log.topics.map (fun topic => hexDecode (strip0x topic)) =
    (event.topics keccak256).map fun word => some word.toList
  data : hexDecode (strip0x log.data) = some event.data

/-- The node answers only for 32-byte transaction ids, and what it reports of the vault's address are
events of the vault. -/
structure Truthful (keccak256 : Bytes → Bytes32) {σ : Type} (d : Vault.Deployment σ)
    (w : Vault.World σ) (rpc : SourceChainRpc) : Prop where
  txid : ∀ txid info, rpc.getTransactionInfo (hexEncode txid) = .ok (some info) → txid.length = 32
  logs : ∀ txid info, rpc.getTransactionInfo (hexEncode txid) = .ok (some info) →
    ∀ log ∈ info.logs, toLowerCase log.address = hexEncode d.self.toList →
      ∃ event ∈ w.log, Shows keccak256 event log

/-- No other event of the vault has the topic of a `Lock`. -/
def LockTopic (keccak256 : Bytes → Bytes32) : Prop :=
  ∀ event : Vault.Event, keccak256 (Core.utf8 event.signature) =
    keccak256 (Core.utf8 LOCK_EVENT_SIGNATURE) → event.signature = LOCK_EVENT_SIGNATURE

/-- Three words one after the other. -/
theorem three_words (a b c : Bytes32) :
    (a.toList ++ (b.toList ++ c.toList)).length = 96 ∧
      (a.toList ++ (b.toList ++ c.toList)).take 32 = a.toList ∧
      ((a.toList ++ (b.toList ++ c.toList)).drop 32).take 32 = b.toList ∧
      ((a.toList ++ (b.toList ++ c.toList)).drop 64).take 32 = c.toList := by
  have ha := a.toList_length
  have hb := b.toList_length
  have hc := c.toList_length
  refine ⟨by simp [ha, hb, hc], List.take_left' ha, ?_, ?_⟩
  · rw [List.drop_left' ha, List.take_left' hb]
  · rw [← List.append_assoc, List.drop_left' (by simp [ha, hb]), List.take_of_length_le hc.le]

theorem wordToBigInt_word256 (value : Vault.Word) :
    wordToBigInt (Abi.word256 value).toList = value.toNat :=
  ByteArr.toNat_ofNat (Abi.pow_word ▸ value.isLt)

/-- The data of a `Lock` event. -/
theorem data_lock (nonce : Vault.Word) (sender : Core.Address) (amount : Vault.Word)
    (tokenId recipient : Bytes32) :
    (Vault.Event.lock nonce sender amount tokenId recipient).data =
      (Abi.word256 amount).toList ++ (tokenId.toList ++ recipient.toList) := by
  simp only [Vault.Event.data, Vault.Event.fields, Vault.BridgeEncoding.encodeWords,
    List.flatMap_cons, List.flatMap_nil, List.append_nil]

/-- **What decodes as a `Lock` event is one.** -/
theorem Shows.lock (htopic : LockTopic keccak256) {event : Vault.Event} {log : SourceLog}
    (h : Shows keccak256 event log) {decoded : DecodedLockEvent}
    (hdecoded : decodeLockEvent keccak256 log = .ok (some decoded)) :
    ∃ record : Vault.LockRecord, event.lockRecord = some record ∧
      decoded.nonce = record.nonce.toNat ∧ decoded.amount = record.amount.toNat ∧
      decoded.unicityTokenId = record.unicityTokenId.toList ∧
      decoded.recipientCommitment = record.recipientCommitment.toList := by
  have htopics := h.topics
  unfold decodeLockEvent at hdecoded
  split at hdecoded
  · next topic nonceTopic senderTopic hmap =>
    simp only [List.map_eq_cons_iff, List.map_eq_nil_iff] at hmap
    obtain ⟨t₀, _, hlog, rfl, t₁, _, rfl, rfl, t₂, _, rfl, -, rfl⟩ := hmap
    rw [hlog, Vault.Event.topics] at htopics
    simp only [List.map_cons, List.cons.injEq] at htopics
    split at hdecoded
    · cases hdecoded
    next heq =>
    have hsignature : event.signature = LOCK_EVENT_SIGNATURE := by
      apply htopic
      have hlower := hexDecode_toLowerCase htopics.1
      rw [not_not.1 heq, LOCK_EVENT_TOPIC0, hexDecode_hexEncode, Option.some.injEq] at hlower
      exact (List.Vector.toList_injective hlower).symm
    cases event with
    | lock nonce sender amount tokenId recipient =>
        have hshows := h.data
        rw [data_lock] at hshows
        obtain ⟨hlength, hamount, htokenId, hrecipient⟩ :=
          three_words (Abi.word256 amount) tokenId recipient
        simp only [Vault.Event.indexed, List.map_cons, List.cons.injEq] at htopics
        have hnonce := hexDecode_toLowerCase htopics.2.1
        simp only [bind_eq_ok, fromHex_eq_ok hshows, fromHex_eq_ok hnonce, exists_eq_left', hlength,
          lt_self_iff_false, if_false, hamount, htokenId, hrecipient, wordToBigInt_word256, Except.ok.injEq,
          Option.some.injEq] at hdecoded
        subst hdecoded
        exact ⟨⟨nonce, sender, amount, tokenId, recipient⟩, rfl, rfl, rfl, rfl, rfl⟩
    | _ => simp [Vault.Event.signature, LOCK_EVENT_SIGNATURE] at hsignature
  · cases hdecoded

end Truthful

/-! ## What the wallet accepts -/

section Evidence

variable {sdk : Sdk} {ts : CborDeserializer} {cfg : ResolvedBridgeConfig} {rpc : SourceChainRpc}
  {genesis : CertifiedMintTransaction}

/-- The log of the lock that the justification points at, as the node reports it. -/
structure Reported (cfg : ResolvedBridgeConfig) (rpc : SourceChainRpc) (f : LockFields)
    (log : SourceLog) : Prop where
  found : ∃ info tip, rpc.getTransactionInfo (hexEncode f.txid) = .ok (some info) ∧
    info.success = true ∧ rpc.getNowBlockNumber = .ok tip ∧
    ¬ tip - info.blockNumber < cfg.confirmations ∧
    info.logs[(Number f.logIndex.toNat).value]? = some log
  address : toLowerCase log.address = cfg.lockContractHex

/-- What the wallet checks, on the mint, its justification's fields and the node's answers. -/
structure Evidence (sdk : Sdk) (cfg : ResolvedBridgeConfig) (rpc : SourceChainRpc)
    (mint : MintTransaction) (f : LockFields) : Prop where
  justification : ∃ bytes, mint.justification = some bytes ∧
    Carries sdk Bridge.TRON_USDT_LOCK_JUSTIFICATION_TAG bytes f
  positive : f.amount ≠ 0
  chainId : Number f.sourceChainId.toNat = cfg.chainId
  lockContract : hexEncode f.vault = cfg.lockContractHex
  assetContract : hexEncode f.asset = cfg.assetContractHex
  tokenType : mint.tokenType = cfg.tokenType
  value : ∃ data assets asset, mint.data = some data ∧
    Bridge.decodeBridgedPaymentData sdk data = some assets ∧ assets.get cfg.coinId = some asset ∧
    asset.value = f.amount.toNat
  event : ∃ log event, Reported cfg rpc f log ∧
    decodeLockEvent sdk.keccak256 log = .ok (some event) ∧ event.amount = f.amount.toNat ∧
    event.nonce = f.nonce.toNat ∧ event.unicityTokenId = (mint.tokenId sdk).toList ∧
    event.recipientCommitment = (sdk.sha256 mint.recipient.toCbor).toList

/-- **When `verify` accepts.** -/
theorem verify_ok_iff (halike : DecodesAlike sdk ts) :
    (∃ result, verify sdk ts cfg rpc genesis = .ok result ∧ result.status = .OK) ↔
      ∃ f, Evidence sdk cfg rpc genesis.transaction f := by
  have hsteps : (∃ result, verify sdk ts cfg rpc genesis = .ok result ∧ result.status = .OK) ↔
      verifySteps sdk ts cfg rpc genesis = .ok () := by
    unfold verify
    cases verifySteps sdk ts cfg rpc genesis with
    | ok => simp
    | error stop => cases stop <;> simp
  rw [hsteps]
  simp only [verifySteps, bind_eq_ok, okOr_eq_ok, ensure_eq_ok, mapError_eq_ok,
    fromCBOR_eq_ok halike]
  constructor
  · rintro ⟨bytes, hbytes, justification, ⟨f, hf, hdata⟩, h⟩
    have hpositive := LockFields.checked_iff.1 (hdata ▸ justification.checked)
    rw [hdata] at h
    obtain ⟨_, hchain, _, hcontract, _, hasset, _, htype, found, hfound, info, rfl, _, hsuccess, tip,
      htip, _, hfinal, log, hlog, _, haddress, decoded, hdecoded, event, rfl, _, hamount, declared,
      hdeclared, _, hvalue, _, hnonce, _, htokenId, hrecipient⟩ := h
    rw [toLowerCase_hexEncode] at hcontract hasset
    obtain ⟨data, assets, asset, hmintData, hassets, hget, rfl⟩ :=
      (decodeBridgePaymentData_eq_some halike).1 hdeclared
    exact ⟨f, ⟨bytes, hbytes, hf⟩, hpositive, hchain, hcontract, hasset, htype,
      ⟨data, assets, asset, hmintData, hassets, hget, hvalue.trans (Int.ofNat.inj hamount)⟩,
      log, event, ⟨⟨info, tip, hfound, hsuccess, htip, hfinal, hlog⟩, haddress⟩, hdecoded,
      Int.ofNat.inj hamount, Int.ofNat.inj hnonce, htokenId, hrecipient⟩
  · rintro ⟨f, hf⟩
    obtain ⟨bytes, hbytes, hcarries⟩ := hf.justification
    obtain ⟨data, assets, asset, hmintData, hassets, hget, hvalue⟩ := hf.value
    obtain ⟨log, event, ⟨⟨info, tip, hfound, hsuccess, htip, hfinal, hlog⟩, haddress⟩, hdecoded,
      hamount, hnonce, htokenId, hrecipient⟩ := hf.event
    have hdeclared := (decodeBridgePaymentData_eq_some halike).2
      ⟨data, assets, asset, hmintData, hassets, hget, rfl⟩
    refine ⟨bytes, hbytes, ⟨f.data, LockFields.checked_iff.2 hf.positive⟩, ⟨f, hcarries, rfl⟩, (),
      hf.chainId, (), ?_, (), ?_, (), hf.tokenType, _, hfound, info, rfl, (), hsuccess, tip, htip, (),
      hfinal, log, hlog, (), haddress, _, hdecoded, event, rfl, (), congrArg Int.ofNat hamount, _,
      hdeclared, (), hvalue.trans hamount.symm, (), congrArg Int.ofNat hnonce, (), htokenId,
      hrecipient⟩
    · rw [toLowerCase_hexEncode]
      exact hf.lockContract
    · rw [toLowerCase_hexEncode]
      exact hf.assetContract

end Evidence

/-! ## What the circuit makes of it -/

section Returnable

variable {σ : Type} {sdk : Sdk} {ts : CborDeserializer} {cfg : ResolvedBridgeConfig}
  {rpc : SourceChainRpc} {d : Vault.Deployment σ} {w₀ : Vault.World σ}
  {transactions : List (Vault.Transaction σ)} {genesis : CertifiedMintTransaction}

/-- The bridge of a vault. -/
def vaultConfig (d : Vault.Deployment σ) : Bridge.BridgeConfig :=
  ⟨d.sourceChainId, d.self, d.assetAddr, d.tokenType, d.coinId⟩

/-- If the wallet accepts the mint, the circuit finds its obligation, and the vault has the digest. -/
def Returnable (sdk : Sdk) (ts : CborDeserializer) (cfg : ResolvedBridgeConfig)
    (rpc : SourceChainRpc) (d : Vault.Deployment σ) (w : Vault.World σ)
    (genesis : CertifiedMintTransaction) : Prop :=
  (∃ result, verify sdk ts cfg rpc genesis = .ok result ∧ result.status = .OK) →
    ∃ obligation, Bridge.bridgeLockObligation sdk genesis Bridge.TRON_USDT_LOCK_JUSTIFICATION_TAG
        (vaultConfig d) = .ok obligation ∧
      w.storage.lockDigest (BitVec.ofNat 256 obligation.nonce.toNat) = obligation.digest

theorem u256FromBiguint_eq (hamounts : Guest.EncodesAmounts sdk) (hfit : BurnReason.AmountsFit sdk)
    {value : Nat} (h : value < 2 ^ 256) :
    Bridge.u256FromBiguint sdk value = some (ByteArr.ofNat 32 value) := by
  have hlength := hfit value h
  rw [Bridge.u256FromBiguint, if_neg (not_lt.2 hlength), toByteArr_eq_some,
    ← beBytes_beNat_minimal hlength, hamounts]
  rfl

/-- The lock that a truthful node reports is one of the vault's. -/
theorem exists_lock (htruthful : Truthful sdk.keccak256 d w₀ rpc) (htopic : LockTopic sdk.keccak256)
    (hcfg : cfg.Describes (vaultConfig d)) {mint : MintTransaction} {f : LockFields}
    (hf : Evidence sdk cfg rpc mint f) :
    f.txid.length = 32 ∧ ∃ record ∈ Vault.locks w₀, record.nonce.toNat = f.nonce.toNat ∧
      record.amount.toNat = f.amount.toNat ∧ record.unicityTokenId = mint.tokenId sdk ∧
      record.recipientCommitment = sdk.sha256 mint.recipient.toCbor := by
  obtain ⟨log, decoded, ⟨⟨info, _, hfound, -, -, -, hlog⟩, haddress⟩, hdecoded, hamount, hnonce,
    htokenId, hrecipient⟩ := hf.event
  rw [hcfg.lockContract] at haddress
  obtain ⟨event, hevent, hshows⟩ := htruthful.logs f.txid info hfound log
    (List.mem_of_getElem? hlog) haddress
  obtain ⟨record, hrecord, h1, h2, h3, h4⟩ := hshows.lock htopic hdecoded
  refine ⟨htruthful.txid f.txid info hfound, record, List.mem_filterMap.2 ⟨event, hevent, hrecord⟩,
    h1.symm.trans hnonce, h2.symm.trans hamount, ?_, ?_⟩
  · exact List.Vector.toList_injective (h3.symm.trans htokenId)
  · exact List.Vector.toList_injective (h4.symm.trans hrecipient)

/-- **The circuit finds the lock that the wallet saw.** -/
theorem obligation_of_evidence (hamounts : Guest.EncodesAmounts sdk)
    (hfit : BurnReason.AmountsFit sdk) (hkeccak : d.keccak256 = sdk.keccak256)
    (htopic : LockTopic sdk.keccak256) (hcfg : cfg.Describes (vaultConfig d))
    (hfresh : Vault.Fresh d w₀)
    (htruthful : Truthful sdk.keccak256 d (Vault.run d w₀ transactions) rpc) {f : LockFields}
    (hf : Evidence sdk cfg rpc genesis.transaction f) (hchain : f.sourceChainId = d.sourceChainId) :
    ∃ obligation, Bridge.bridgeLockObligation sdk genesis Bridge.TRON_USDT_LOCK_JUSTIFICATION_TAG
        (vaultConfig d) = .ok obligation ∧
      (Vault.run d w₀ transactions).storage.lockDigest (BitVec.ofNat 256 obligation.nonce.toNat) =
        obligation.digest := by
  -- the evidence names a lock of the vault with the same nonce, amount, token id and recipient
  obtain ⟨htxid, record, hrecord, hnonce, hamount, htokenId, hrecipient⟩ :=
    exists_lock htruthful htopic hcfg hf
  obtain ⟨bytes, hbytes, hcarries⟩ := hf.justification
  -- its vault and asset are the configured ones
  have hvault : f.vault = d.self.toList := by
    apply hexEncode_inj
    rw [hf.lockContract]
    exact hcfg.lockContract
  have hasset : f.asset = d.assetAddr.toList := by
    apply hexEncode_inj
    rw [hf.assetContract]
    exact hcfg.assetContract
  obtain ⟨j, rfl⟩ := @LockFields.exists_core f (by rw [hvault, List.Vector.toList_length])
    (by rw [hasset, List.Vector.toList_length]) htxid
  obtain ⟨data, assets, asset, hdata, hassets, hget, hvalue⟩ := hf.value
  have hlt : asset.value < 2 ^ 256 := by
    rw [hvalue]
    exact j.amount.toNat_lt.trans (by decide)
  -- the asset's value is the word that the digest hashes
  have hword := u256FromBiguint_eq hamounts hfit hlt
  refine ⟨⟨j.nonce, Bridge.lockDigest sdk (vaultConfig d) j.nonce (ByteArr.ofNat 32 asset.value)
    (genesis.transaction.tokenId sdk) (sdk.sha256 genesis.transaction.recipient.toCbor)⟩, ?_, ?_⟩
  · simp only [Bridge.bridgeLockObligation, bind_eq_ok, okOr_eq_ok, ensure_eq_ok]
    refine ⟨(), hf.tokenType.trans hcfg.tokenType, bytes, hbytes, j, fromCborBytes_eq_ok.2 hcarries,
      (), ⟨hchain, List.Vector.toList_injective hvault, List.Vector.toList_injective hasset⟩, data,
      hdata, assets, hassets, asset, ?_, (), hvalue, _, hword, rfl⟩
    rw [← hcfg.coinId]
    exact hget
  -- the digest at the nonce is that of the recorded lock, field by field the same
  · have hregistered := (Vault.registered hfresh transactions).digests record hrecord
    have hrecordNonce : record.nonce = BitVec.ofNat 256 j.nonce.toNat := by
      have hsame : j.nonce.toNat = record.nonce.toNat := hnonce.symm
      rw [hsame, BitVec.ofNat_toNat, BitVec.setWidth_eq]
    have hrecordWord : Abi.word256 record.amount = ByteArr.ofNat 32 asset.value := by
      rw [Abi.word256, hamount, hvalue]
    rw [← hrecordNonce, hregistered, ← hrecordWord, ← htokenId, ← hrecipient,
      ← Vault.lockDigest_eq, ← hrecordNonce, ← hkeccak]
    rfl

/-- **When a mint that the wallet accepts is returnable**: exactly when its justification carries the
vault's own chain id, or the mint fails some other check of the wallet. -/
theorem returnable_iff (halike : DecodesAlike sdk ts) (hamounts : Guest.EncodesAmounts sdk)
    (hfit : BurnReason.AmountsFit sdk) (hkeccak : d.keccak256 = sdk.keccak256)
    (htopic : LockTopic sdk.keccak256) (hcfg : cfg.Describes (vaultConfig d))
    (hfresh : Vault.Fresh d w₀)
    (htruthful : Truthful sdk.keccak256 d (Vault.run d w₀ transactions) rpc) :
    Returnable sdk ts cfg rpc d (Vault.run d w₀ transactions) genesis ↔
      ∀ f, Evidence sdk cfg rpc genesis.transaction f → f.sourceChainId = d.sourceChainId := by
  constructor
  · intro h f hf
    obtain ⟨obligation, hobligation, -⟩ := h ((verify_ok_iff halike).2 ⟨f, hf⟩)
    obtain ⟨bytes, j, hbytes, hj, hchain, -⟩ :=
      Backing.bridgeLockObligation_justification hobligation
    obtain ⟨bytes', hbytes', hcarries⟩ := hf.justification
    obtain rfl : bytes = bytes' := Option.some.inj (hbytes.symm.trans hbytes')
    rw [hcarries.unique (fromCborBytes_eq_ok.1 hj)]
    exact hchain
  · intro h haccepted
    obtain ⟨f, hf⟩ := (verify_ok_iff halike).1 haccepted
    exact obligation_of_evidence hamounts hfit hkeccak htopic hcfg hfresh htruthful hf (h f hf)

/-- Below `2 ^ 53` no other chain id passes for the vault's, and every accepted mint is returnable. -/
theorem returnable_of_lt (halike : DecodesAlike sdk ts) (hamounts : Guest.EncodesAmounts sdk)
    (hfit : BurnReason.AmountsFit sdk) (hkeccak : d.keccak256 = sdk.keccak256)
    (htopic : LockTopic sdk.keccak256) (hcfg : cfg.Describes (vaultConfig d))
    (hfresh : Vault.Fresh d w₀)
    (htruthful : Truthful sdk.keccak256 d (Vault.run d w₀ transactions) rpc)
    (hlt : d.sourceChainId.toNat < 2 ^ 53) :
    Returnable sdk ts cfg rpc d (Vault.run d w₀ transactions) genesis := by
  intro haccepted
  obtain ⟨f, hf⟩ := (verify_ok_iff halike).1 haccepted
  have hchain : cfg.chainId.value = d.sourceChainId.toNat := hcfg.chainId
  have hsame : f.sourceChainId.toNat = cfg.chainId.value :=
    (Number_eq_of_lt (by rw [hchain]; exact hlt)).1 hf.chainId
  exact obligation_of_evidence hamounts hfit hkeccak htopic hcfg hfresh htruthful hf
    (UInt64.toNat_inj.1 (hsame.trans hchain))

end Returnable

/-! ## A vault on a chain with a large id -/

section Print

variable (keccak256 : Bytes → Bytes32)

/-- A log of an event, in lower-case hex without a prefix. -/
def printLog (address : Bytes) (event : Vault.Event) : SourceLog where
  address := hexEncode address
  topics := (event.topics keccak256).map fun word => hexEncode word.toList
  data := hexEncode event.data

theorem strip0x_hexEncode (bytes : Bytes) : strip0x (hexEncode bytes) = hexEncode bytes := by
  apply strip0x_of_digits
  intro c hc
  rw [hexEncode, String.toList_ofList] at hc
  exact @of_mem_of_all (fun d => d ∈ hexAlphabet) _ hexDigits _ (by decide) (mem_hexChars hc)

theorem shows_printLog (address : Bytes) (event : Vault.Event) :
    Shows keccak256 event (printLog keccak256 address event) where
  topics := by
    rw [printLog, List.map_map]
    apply List.map_congr_left
    intro word _
    rw [Function.comp_apply, strip0x_hexEncode, hexDecode_hexEncode]
  data := by
    rw [printLog, strip0x_hexEncode, hexDecode_hexEncode]

/-- A printed `Lock` event decodes. -/
theorem decodeLockEvent_printLog (address : Bytes) (nonce amount : Vault.Word)
    (sender : Core.Address) (tokenId recipient : Bytes32) :
    ∃ sender', decodeLockEvent keccak256
        (printLog keccak256 address (.lock nonce sender amount tokenId recipient)) =
      .ok (some ⟨nonce.toNat, sender', amount.toNat, tokenId.toList, recipient.toList⟩) := by
  obtain ⟨hlength, hamount, htokenId, hrecipient⟩ :=
    three_words (Abi.word256 amount) tokenId recipient
  have hdata := data_lock nonce sender amount tokenId recipient
  have hhex (bytes : Bytes) : fromHex (hexEncode bytes) = .ok bytes :=
    (fromHex_eq_ok (hexDecode_hexEncode bytes)).2 rfl
  have hsignature : LOCK_EVENT_TOPIC0 keccak256 = hexEncode (keccak256 (Core.utf8
      (Vault.Event.lock nonce sender amount tokenId recipient).signature)).toList := rfl
  have hbind {α β : Type} (a : α) (f : α → Result β) : (Except.ok a >>= f) = f a := rfl
  refine ⟨String.ofList ((hexEncode (Abi.wordAddress sender).toList).toList.drop 24), ?_⟩
  simp only [decodeLockEvent, printLog, Vault.Event.topics, Vault.Event.indexed, List.map_cons,
    List.map_nil, strip0x_hexEncode, toLowerCase_hexEncode, hsignature, ne_eq, not_true_eq_false,
    if_false, hhex, hdata, hbind, hlength, lt_self_iff_false, hamount, htokenId, hrecipient,
    wordToBigInt_word256]

end Print

namespace LockSample

open UnicityBridge.Backing.Sample (sdk deserializer alike)

/-- The least chain id after which `Number` skips one. -/
def chain : UInt64 := 9007199254740992

/-- The vault on that chain. -/
def config : Core.BridgeConfig := { Guest.Sample.config with sourceChainId := chain }

/-- A deployment under this configuration. -/
def vault : Vault.Deployment Vault.Word :=
  Vault.Sample.deployment sdk.keccak256 config false fun _ => true

/-- The token that the wallet mints. -/
def tokenId : Bytes32 := Guest.Sample.word Guest.Sample.Coin.whole.number

/-- The commitment to the owner of the token. -/
def recipient : Bytes32 := sdk.sha256 Guest.Sample.owner.toCbor

/-- One deposit. -/
def transactions : List (Vault.Transaction Vault.Word) :=
  [.call 0 1 Vault.Sample.admin (.lock 5 tokenId recipient)]

/-- The chain after the deposit. -/
def world : Vault.World Vault.Word := Vault.run vault Vault.Sample.world transactions

theorem log_world : world.log = [.lock 0 Vault.Sample.admin 5 tokenId recipient] := by rfl

/-- `1330002([1, chain, vault, asset, txid, 3, 5, 0])` -/
def lockBytes (chain : UInt64) : Bytes :=
  [0xda, 0x00, 0x14, 0x4b, 0x52, 0x88, 0x01, 0x1b] ++ beBytes 8 chain.toNat ++ [0x54] ++
    config.vault.toList ++ [0x54] ++ config.asset.toList ++ [0x58, 0x20] ++
    List.replicate 32 0x77 ++ [0x03, 0x05, 0x00]

/-- What the justification for a chain carries. -/
def fields (chain : UInt64) : LockFields :=
  ⟨chain, config.vault.toList, config.asset.toList, List.replicate 32 0x77, 3, 5, 0⟩

theorem carries_chain : Carries sdk Bridge.TRON_USDT_LOCK_JUSTIFICATION_TAG (lockBytes chain)
    (fields chain) :=
  @fromCborBytes_eq_ok _ _ _
    ⟨chain, config.vault, config.asset, List.Vector.replicate 32 0x77, 3, 5, 0⟩ |>.1 rfl

theorem carries_next : Carries sdk Bridge.TRON_USDT_LOCK_JUSTIFICATION_TAG (lockBytes (chain + 1))
    (fields (chain + 1)) :=
  @fromCborBytes_eq_ok _ _ _
    ⟨chain + 1, config.vault, config.asset, List.Vector.replicate 32 0x77, 3, 5, 0⟩ |>.1 rfl

/-- The mint of the token with that justification. -/
def genesis (chain : UInt64) : CertifiedMintTransaction where
  transaction := { Guest.Sample.mint .whole with justification := some (lockBytes chain) }
  inclusionProof := (Guest.Sample.token .whole).genesis.inclusionProof

/-- The wallet's configuration of the vault, with its chain id rounded. -/
def bridge : ResolvedBridgeConfig where
  chainId := Number chain.toNat
  lockContractHex := hexEncode config.vault.toList
  assetContractHex := hexEncode config.asset.toList
  confirmations := 20
  tokenType := config.tokenType.toList
  coinId := config.coinId.toList

theorem describes : bridge.Describes (vaultConfig vault) where
  chainId := by decide
  lockContract := rfl
  assetContract := rfl
  tokenType := rfl
  coinId := rfl

/-- A log of some other contract. -/
def otherLog : SourceLog := ⟨"", [], ""⟩

/-- The log of the deposit. -/
def lockLog : SourceLog := printLog sdk.keccak256 config.vault.toList
  (.lock 0 Vault.Sample.admin 5 tokenId recipient)

/-- The transaction of the deposit, with its log in the fourth place. -/
def info : SourceTxInfo := ⟨100, true, [otherLog, otherLog, otherLog, lockLog]⟩

/-- A node that knows the lock transaction. -/
def rpc : SourceChainRpc where
  getTransactionInfo txid := .ok (if txid = hexEncode (List.replicate 32 0x77) then info else none)
  getNowBlockNumber := .ok 200

theorem truthful : Truthful sdk.keccak256 vault world rpc := by
  have hanswer {txid : Bytes} {found : SourceTxInfo}
      (h : rpc.getTransactionInfo (hexEncode txid) = .ok (some found)) :
      txid = List.replicate 32 0x77 ∧ found = info := by
    have hsome := Except.ok.inj h
    split at hsome
    · next heq => exact ⟨hexEncode_inj heq, (Option.some.inj hsome).symm⟩
    · cases hsome
  constructor
  · intro txid found h
    rw [(hanswer h).1, List.length_replicate]
  · intro txid found h log hlog haddress
    rw [(hanswer h).2] at hlog
    have hother : log ≠ otherLog := by
      rintro rfl
      exact absurd haddress (by decide)
    have hlock : log = lockLog := by simpa [info, hother] using hlog
    rw [log_world, hlock]
    exact ⟨_, List.mem_singleton_self _, shows_printLog ..⟩

theorem lockTopic : LockTopic sdk.keccak256 := by
  intro event
  have hall : ∀ signature ∈ [LOCK_EVENT_SIGNATURE, "BatchFulfilled(bytes32,bytes32,uint32,uint256)",
      "Released(bytes32,address,uint256,address,uint256,uint64)",
      "TrustBaseAllowedUpdated(bytes32,bool)", "AdminTransferred(address,address)",
      "Withdrawn(address,uint256)"], sdk.keccak256 (Core.utf8 signature) =
        sdk.keccak256 (Core.utf8 LOCK_EVENT_SIGNATURE) → signature = LOCK_EVENT_SIGNATURE := by
    decide +kernel
  apply hall
  cases event <;> simp [Vault.Event.signature, LOCK_EVENT_SIGNATURE]

theorem keccak_eq : vault.keccak256 = sdk.keccak256 := rfl

theorem fresh : Vault.Fresh vault Vault.Sample.world := Vault.Sample.fresh _ config _ _ (by decide)

/-- Both mints pass the wallet's checks: their chain ids are one number. -/
theorem evidence {id : UInt64} (hid : Number id.toNat = Number chain.toNat)
    (hcarries : Carries sdk Bridge.TRON_USDT_LOCK_JUSTIFICATION_TAG (lockBytes id) (fields id)) :
    Evidence sdk bridge rpc (genesis id).transaction (fields id) where
  justification := ⟨_, rfl, hcarries⟩
  positive := by
    have hfive : (5 : UInt64) ≠ 0 := by decide
    exact hfive
  chainId := hid
  lockContract := rfl
  assetContract := rfl
  tokenType := rfl
  value := ⟨_, _, ⟨config.coinId.toList, 5⟩, rfl, Backing.Sample.payment, rfl, rfl⟩
  event := by
    obtain ⟨sender, hdecode⟩ := decodeLockEvent_printLog sdk.keccak256 config.vault.toList 0 5
      Vault.Sample.admin tokenId recipient
    have hanswer : rpc.getTransactionInfo (hexEncode (List.replicate 32 0x77)) = .ok (some info) :=
      congrArg (fun found => (Except.ok found : Result _)) (if_pos rfl)
    have hfive : (5 : Vault.Word).toNat = (5 : UInt64).toNat := by decide
    have hzero : (0 : Vault.Word).toNat = (0 : UInt64).toNat := by decide
    have hindex : (Number (3 : UInt64).toNat).value = 3 := by decide
    have hlog : info.logs[(Number (3 : UInt64).toNat).value]? = some lockLog := by
      rw [hindex]
      rfl
    exact ⟨lockLog, _, ⟨⟨info, 200, hanswer, rfl, rfl, by decide, hlog⟩, toLowerCase_hexEncode _⟩,
      hdecode, hfive, hzero, rfl, rfl⟩

end LockSample

/-- A mint with the vault's own chain id. -/
theorem returnable_iff_sample : Returnable Backing.Sample.sdk Backing.Sample.deserializer
    LockSample.bridge LockSample.rpc LockSample.vault LockSample.world
    (LockSample.genesis LockSample.chain) := by
  refine (returnable_iff Backing.Sample.alike Guest.Sample.encodeAmount_beNat
    BurnReason.Sample.amountsFit LockSample.keccak_eq LockSample.lockTopic LockSample.describes LockSample.fresh
    LockSample.truthful).2 fun f hf => ?_
  obtain ⟨bytes, hbytes, hcarries⟩ := hf.justification
  obtain rfl : LockSample.lockBytes LockSample.chain = bytes := Option.some.inj hbytes
  rw [hcarries.unique LockSample.carries_chain]
  rfl

/-- The next chain id is the same number. The wallet accepts it for the vault's lock, and the circuit
refuses it. -/
theorem returnable_counterexample : ¬ Returnable Backing.Sample.sdk Backing.Sample.deserializer
    LockSample.bridge LockSample.rpc LockSample.vault LockSample.world
    (LockSample.genesis (LockSample.chain + 1)) := by
  intro h
  have hevidence := LockSample.evidence (by decide) LockSample.carries_next
  obtain ⟨obligation, hobligation, -⟩ := h ((verify_ok_iff Backing.Sample.alike).2 ⟨_, hevidence⟩)
  obtain ⟨bytes, j, hbytes, hj, hchain, -⟩ :=
    Backing.bridgeLockObligation_justification hobligation
  obtain rfl : LockSample.lockBytes (LockSample.chain + 1) = bytes := Option.some.inj hbytes
  have hfields := LockSample.carries_next.unique (fromCborBytes_eq_ok.1 hj)
  have hnext : LockSample.chain + 1 = j.sourceChainId := congrArg LockFields.sourceChainId hfields
  rw [hchain] at hnext
  exact absurd hnext (by decide)

end UnicityBridge.BridgePlugin
