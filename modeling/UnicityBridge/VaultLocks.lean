import UnicityBridge.Lib.SparseMerkle
import UnicityBridge.VaultPayable

/-!
# The lock registry

What the vault keeps about locks: one digest for each nonce below the next one, one mark for each
token id. `lock` writes both before it pulls the asset; a pull that fails or brings the wrong amount
reverts them with the rest, and a call back finds the vault entered.

Between calls every stored digest belongs to exactly one `Lock` event, whose amount arrived in full
(`lock_registry`). The digest hash is collision free and never zero on what the run's locks hash.
-/

set_option autoImplicit false

namespace UnicityBridge.Vault

open UnicityBridge.Lib UnicityBridge.Lib.Exec
open UnicityBridge.Core (Address)

variable {σ : Type}

/-! ## Lock events -/

/-- The fields of a `Lock` event. -/
structure LockRecord where
  nonce : Word
  sender : Address
  amount : Word
  unicityTokenId : Bytes32
  recipientCommitment : Bytes32
  deriving DecidableEq

/-- The lock that the event records. -/
def Event.lockRecord : Event → Option LockRecord
  | .lock nonce sender amount unicityTokenId recipientCommitment =>
      some ⟨nonce, sender, amount, unicityTokenId, recipientCommitment⟩
  | _ => none

/-- The `Lock` events of a log, in order. -/
def lockRecords (log : List Event) : List LockRecord := log.filterMap Event.lockRecord

/-- The locks of the vault so far. -/
def locks (w : World σ) : List LockRecord := lockRecords w.log

theorem locks_eq (w : World σ) : locks w = lockRecords w.ledger := by
  unfold World.ledger locks lockRecords
  rw [List.filterMap_filter]
  refine List.filterMap_congr fun event _ => ?_
  cases event <;> rfl

theorem lockRecords_append (log log' : List Event) :
    lockRecords (log ++ log') = lockRecords log ++ lockRecords log' :=
  List.filterMap_append

theorem lockRecords_released (timestamp : Word) (leaves : List ReturnLeaf) :
    lockRecords (leaves.map (released timestamp)) = [] := by
  rw [lockRecords, List.filterMap_eq_nil_iff]
  intro event hevent
  obtain ⟨l, -, rfl⟩ := List.mem_map.1 hevent
  rfl

/-- The bytes hashed for a lock. -/
def lockInput (d : Deployment σ) (nonce amount : Word)
    (unicityTokenId recipientCommitment : Bytes32) : Bytes :=
  BridgeEncoding.encodeText BridgeEncoding.DOMAIN_LOCK [ByteArr.ofNat 32 d.sourceChainId.toNat,
    Abi.wordAddress d.self, Abi.word256 nonce, Abi.wordAddress d.assetAddr, d.tokenType, d.coinId,
    Abi.word256 amount, unicityTokenId, recipientCommitment]

/-- The digest of a lock with these fields. -/
def LockRecord.digest (d : Deployment σ) (record : LockRecord) : Bytes32 :=
  BridgeEncoding.lockDigest d.keccak256 d.sourceChainId d.self record.nonce d.assetAddr d.tokenType
    d.coinId record.amount record.unicityTokenId record.recipientCommitment

theorem LockRecord.digest_eq (d : Deployment σ) (record : LockRecord) :
    record.digest d = d.keccak256 (lockInput d record.nonce record.amount record.unicityTokenId
      record.recipientCommitment) := rfl

theorem lockInput_nonce {d : Deployment σ} {nonce nonce' amount amount' : Word}
    {tokenId tokenId' recipient recipient' : Bytes32}
    (h : lockInput d nonce amount tokenId recipient =
      lockInput d nonce' amount' tokenId' recipient') : nonce = nonce' := by
  unfold lockInput at h
  have hwords := encodeText_inj (by simp only [List.length_cons]) h
  simp only [List.cons.injEq] at hwords
  rw [← Abi.uint256_word256 nonce, hwords.2.2.1, Abi.uint256_word256]

/-! ## The registry -/

/-- The lock behind a record: a call of the run that asked for it and brought its amount in full. -/
def Funded (d : Deployment σ) (w₀ : World σ) (transactions : List (Transaction σ))
    (record : LockRecord) : Prop :=
  ∃ done timestamp depth rest, transactions = done ++ .call timestamp depth record.sender
      (.lock record.amount record.unicityTokenId record.recipientCommitment) :: rest ∧
    (run d w₀ done).storage.nextNonce = record.nonce ∧
    ∃ before after, balance d (run d w₀ done) = some before ∧
      balance d (apply d (run d w₀ done) (.call timestamp depth record.sender
        (.lock record.amount record.unicityTokenId record.recipientCommitment))) = some after ∧
      after.toNat = before.toNat + record.amount.toNat

theorem Funded.later {d : Deployment σ} {w₀ : World σ} {transactions : List (Transaction σ)}
    {record : LockRecord} (h : Funded d w₀ transactions record) (more : List (Transaction σ)) :
    Funded d w₀ (transactions ++ more) record := by
  obtain ⟨done, timestamp, depth, rest, rfl, hfunded⟩ := h
  refine ⟨done, timestamp, depth, rest ++ more, ?_, hfunded⟩
  rw [List.append_assoc, List.cons_append]

/-- What every transaction of a run keeps of the registry. -/
structure Registered (d : Deployment σ) (w₀ : World σ) (done : List (Transaction σ)) (w : World σ) :
    Prop where
  count : (locks w).length = w.storage.nextNonce.toNat
  bounded : w.storage.nextNonce.toNat ≤ done.length
  nonces : (locks w).map (fun record => record.nonce.toNat) = List.range (locks w).length
  digests : ∀ record ∈ locks w, w.storage.lockDigest record.nonce = record.digest d
  vacant : ∀ n, w.storage.nextNonce ≤ n → w.storage.lockDigest n = ByteArr.zero 32
  tokenIds : ((locks w).map LockRecord.unicityTokenId).Nodup
  marked : ∀ tokenId, w.storage.tokenIdUsed tokenId = true ↔
    tokenId ∈ (locks w).map LockRecord.unicityTokenId
  amounts : ∀ record ∈ locks w, 1 ≤ record.amount.toNat ∧ record.amount.toNat ≤ 2 ^ 64 - 1
  funded : ∀ record ∈ locks w, Funded d w₀ done record

section Steps

variable {d : Deployment σ} {w₀ w w' : World σ} {done : List (Transaction σ)}

/-- A transaction that touches no lock keeps the registry. -/
theorem Registered.frame (h : Registered d w₀ done w) (transaction : Transaction σ)
    (hlocks : locks w' = locks w) (hnonce : w'.storage.nextNonce = w.storage.nextNonce)
    (hdigest : w'.storage.lockDigest = w.storage.lockDigest)
    (hmark : w'.storage.tokenIdUsed = w.storage.tokenIdUsed) :
    Registered d w₀ (done ++ [transaction]) w' where
  count := by rw [hlocks, hnonce, h.count]
  bounded := by
    rw [hnonce, List.length_append]
    exact h.bounded.trans (Nat.le_add_right _ _)
  nonces := by rw [hlocks, h.nonces]
  digests := by rw [hlocks, hdigest]; exact h.digests
  vacant := by rw [hnonce, hdigest]; exact h.vacant
  tokenIds := by rw [hlocks]; exact h.tokenIds
  marked := by rw [hlocks, hmark]; exact h.marked
  amounts := by rw [hlocks]; exact h.amounts
  funded := by
    rw [hlocks]
    exact fun record hrecord => (h.funded record hrecord).later [transaction]

theorem Registered.nonce_lt (h : Registered d w₀ done w) {record : LockRecord}
    (hrecord : record ∈ locks w) : record.nonce < w.storage.nextNonce := by
  have hmem : record.nonce.toNat ∈ List.range (locks w).length := by
    rw [← h.nonces]
    exact List.mem_map_of_mem hrecord
  rw [BitVec.lt_def, ← h.count]
  exact List.mem_range.1 hmem

/-- A lock adds the record of its nonce. -/
theorem Registered.locked (h : Registered d w₀ done w) (hw : w = run d w₀ done)
    {timestamp : Word} {depth : Nat} {sender : Address} {amount : Word}
    {tokenId recipient : Bytes32}
    (happly : apply d w (.call timestamp depth sender (.lock amount tokenId recipient)) = w')
    (hlock : Locked d sender amount tokenId recipient w w') :
    Registered d w₀ (done ++ [.call timestamp depth sender (.lock amount tokenId recipient)]) w' := by
  obtain ⟨admin, allowed, next, hnext, hstorage⟩ := hlock.storage
  have hlocks : locks w' =
      locks w ++ [⟨w.storage.nextNonce, sender, amount, tokenId, recipient⟩] := by
    rw [locks_eq, hlock.ledger, lockRecords_append, ← locks_eq]
    rfl
  have hlt := next.isLt
  -- the token id is new: the vault marks all it has locked
  have hfresh : tokenId ∉ (locks w).map LockRecord.unicityTokenId := by
    intro hmem
    have hused := (h.marked tokenId).2 hmem
    rw [hlock.unused] at hused
    cases hused
  constructor
  · rw [hlocks, hstorage, List.length_append, h.count, hnext]
    rfl
  · rw [hstorage, List.length_append, hnext]
    exact Nat.succ_le_succ h.bounded
  · rw [hlocks, List.map_append, List.length_append, h.nonces, List.length_singleton,
      List.range_succ, h.count]
    rfl
  -- the digest at the new nonce; those before it are not overwritten
  · rw [hlocks, hstorage, List.forall_mem_append]
    constructor
    · intro record hrecord
      have hne := BitVec.ne_of_lt (h.nonce_lt hrecord)
      show Function.update _ _ _ record.nonce = _
      rw [Function.update_of_ne hne]
      exact h.digests record hrecord
    · intro record hrecord
      obtain rfl := List.mem_singleton.1 hrecord
      exact Function.update_self ..
  -- nonces not given out yet hold no digest still
  · intro n hn
    rw [hstorage] at hn ⊢
    rw [BitVec.le_def, hnext] at hn
    have hne : n ≠ w.storage.nextNonce := by
      rintro rfl
      omega
    show Function.update _ _ _ n = _
    rw [Function.update_of_ne hne]
    exact h.vacant n (BitVec.le_def.2 (by omega))
  · rw [hlocks, List.map_append, List.map_singleton]
    refine List.Nodup.append h.tokenIds (List.nodup_singleton _) fun key hkey hkey' => ?_
    obtain rfl := List.mem_singleton.1 hkey'
    exact hfresh hkey
  · intro key
    rw [hlocks, hstorage, List.map_append, List.map_singleton, List.mem_append,
      List.mem_singleton, ← h.marked]
    show Function.update w.storage.tokenIdUsed tokenId true key = true ↔ _
    by_cases hkey : key = tokenId
    · simp [hkey]
    · rw [Function.update_of_ne hkey]
      simp [hkey]
  · rw [hlocks, List.forall_mem_append]
    refine ⟨h.amounts, fun record hrecord => ?_⟩
    obtain rfl := List.mem_singleton.1 hrecord
    exact ⟨BitVec.lt_def.1 hlock.positive, hlock.bounded⟩
  · rw [hlocks, List.forall_mem_append]
    refine ⟨fun record hrecord => (h.funded record hrecord).later _, fun record hrecord => ?_⟩
    obtain rfl := List.mem_singleton.1 hrecord
    -- the funding of the new lock is what the call received
    obtain ⟨before, after, hbefore, hafter, hsum⟩ := hlock.received
    refine ⟨done, timestamp, depth, [], rfl, by rw [← hw], before, after, ?_, ?_, hsum⟩
    · rw [← hw]
      exact hbefore
    · rw [← hw, happly]
      exact hafter

theorem Registered.step (h : Registered d w₀ done w) (hw : w = run d w₀ done)
    (transaction : Transaction σ) :
    Registered d w₀ (done ++ [transaction]) (apply d w transaction) := by
  cases transaction with
  | asset state => exact h.frame _ rfl rfl rfl rfl
  | call timestamp depth sender call =>
      rcases apply_call (d := d) (w := w) with ⟨result, w', hok, heq⟩ | ⟨-, heq⟩
      · rw [heq]
        cases execute_cases hok with
        | lock amount tokenId recipient hlock => exact h.locked hw heq hlock
        | fulfillBatch publicValues proof leaves lockRefs pv hfulfilled =>
            obtain ⟨_, _, _, hstorage⟩ := hfulfilled.paid.storage
            refine h.frame _ ?_ (by rw [hstorage]; rfl) (by rw [hstorage]; rfl)
              (by rw [hstorage]; rfl)
            rw [locks_eq, hfulfilled.paid.ledger, lockRecords_append, locks_eq w]
            have hnone : lockRecords (.batchFulfilled pv.spentRootOld pv.spentRootNew pv.batchSize
                pv.totalAmount :: leaves.map (released timestamp)) = [] :=
              lockRecords_released timestamp leaves
            rw [hnone, List.append_nil]
            rfl
        | withdraw hwithdraw =>
            obtain ⟨_, _, hstorage⟩ := hwithdraw.storage
            refine h.frame _ ?_ (by rw [hstorage]) (by rw [hstorage]) (by rw [hstorage])
            rw [locks_eq, hwithdraw.ledger, lockRecords_append, locks_eq w]
            exact List.append_nil _
        | setTrustBaseAllowed trustBaseHash allowed hout _ =>
            obtain ⟨_, _, hstorage⟩ := hout.storage
            refine h.frame _ ?_ (by rw [hstorage]) (by rw [hstorage]) (by rw [hstorage])
            rw [locks_eq, hout.ledger, locks_eq w]
        | transferAdmin newAdmin hout _ =>
            obtain ⟨_, _, hstorage⟩ := hout.storage
            refine h.frame _ ?_ (by rw [hstorage]) (by rw [hstorage]) (by rw [hstorage])
            rw [locks_eq, hout.ledger, locks_eq w]
      · rw [heq]
        exact h.frame _ rfl rfl rfl rfl

theorem Registered.fresh (hfresh : Fresh d w₀) : Registered d w₀ [] w₀ := by
  obtain ⟨_, hstorage⟩ := hfresh.storage_eq
  have hnone : locks w₀ = [] := by rw [locks, hfresh.log]; rfl
  constructor <;> simp [hnone, hstorage]

/-- **Every run keeps the registry.** -/
theorem registered (hfresh : Fresh d w₀) (transactions : List (Transaction σ)) :
    Registered d w₀ transactions (run d w₀ transactions) := by
  induction transactions using List.reverseRecOn with
  | nil => exact .fresh hfresh
  | append_singleton done transaction ih =>
      rw [run_append]
      exact ih.step rfl transaction

/-- A stored digest stays. -/
theorem lockDigest_run {n : Word} (h : n < w.storage.nextNonce) (more : List (Transaction σ)) :
    (run d w more).storage.lockDigest n = w.storage.lockDigest n := by
  refine (@run_invariant _ d (fun v => n < v.storage.nextNonce ∧
    v.storage.lockDigest n = w.storage.lockDigest n) ?_ (fun _ hv => hv) w ⟨h, rfl⟩ more).2
  intro timestamp sender call v v' hv heffect
  cases heffect with
  | lock amount tokenId recipient hlock =>
      obtain ⟨_, _, next, hnext, hstorage⟩ := hlock.storage
      rw [hstorage]
      refine ⟨BitVec.lt_def.2 ?_, ?_⟩
      · have hlt := BitVec.lt_def.1 hv.1
        show n.toNat < next.toNat
        omega
      · show Function.update _ _ _ n = _
        rw [Function.update_of_ne (BitVec.ne_of_lt hv.1)]
        exact hv.2
  | fulfillBatch publicValues proof leaves lockRefs pv hfulfilled =>
      obtain ⟨_, _, _, hstorage⟩ := hfulfilled.paid.storage
      rw [hstorage]
      exact hv
  | withdraw hwithdraw =>
      obtain ⟨_, _, hstorage⟩ := hwithdraw.storage
      rw [hstorage]
      exact hv
  | setTrustBaseAllowed trustBaseHash allowed hout _ =>
      obtain ⟨_, _, hstorage⟩ := hout.storage
      rw [hstorage]
      exact hv
  | transferAdmin newAdmin hout _ =>
      obtain ⟨_, _, hstorage⟩ := hout.storage
      rw [hstorage]
      exact hv

end Steps

/-! ## The registry between calls -/

/-- What the locks of a run hash. -/
def lockInputs (d : Deployment σ) (transactions : List (Transaction σ)) : Set Bytes :=
  {data | ∃ timestamp depth sender amount tokenId recipient nonce,
    Transaction.call timestamp depth sender (.lock amount tokenId recipient) ∈ transactions ∧
      nonce.toNat < transactions.length ∧ data = lockInput d nonce amount tokenId recipient}

/-- The registry of a vault: the stored digests are those of the nonces below the next one, each is
the digest of one `Lock` event only, no token id is locked twice, and amounts fit in 64 bits. -/
structure LockRegistry (d : Deployment σ) (w : World σ) : Prop where
  occupied : ∀ n, w.storage.lockDigest n ≠ ByteArr.zero 32 ↔ n < w.storage.nextNonce
  nonces : ∀ record ∈ locks w, record.nonce < w.storage.nextNonce
  stored : ∀ n, n < w.storage.nextNonce → ∃ record,
    (locks w).filter (fun other => other.nonce = n) = [record] ∧
      (locks w).filter (fun other => other.digest d = w.storage.lockDigest n) = [record] ∧
      w.storage.lockDigest n = record.digest d
  tokenIds : ((locks w).map LockRecord.unicityTokenId).Nodup
  marked : ∀ tokenId, w.storage.tokenIdUsed tokenId = true ↔
    tokenId ∈ (locks w).map LockRecord.unicityTokenId
  amounts : ∀ record ∈ locks w, 1 ≤ record.amount.toNat ∧ record.amount.toNat ≤ 2 ^ 64 - 1

section Registry

variable {d : Deployment σ} {w₀ w : World σ} {transactions : List (Transaction σ)}

theorem Registered.input_mem (h : Registered d w₀ transactions w) {record : LockRecord}
    (hrecord : record ∈ locks w) :
    lockInput d record.nonce record.amount record.unicityTokenId record.recipientCommitment ∈
      lockInputs d transactions := by
  obtain ⟨done, timestamp, depth, rest, heq, -⟩ := h.funded record hrecord
  refine ⟨timestamp, depth, record.sender, _, _, _, record.nonce, ?_, ?_, rfl⟩
  · rw [heq]
    exact List.mem_append_right _ List.mem_cons_self
  · exact lt_of_lt_of_le (BitVec.lt_def.1 (h.nonce_lt hrecord)) h.bounded

theorem Registered.nonce_inj (h : Registered d w₀ transactions w) {record other : LockRecord}
    (hrecord : record ∈ locks w) (hother : other ∈ locks w) (heq : other.nonce = record.nonce) :
    other = record := by
  have hnodup : ((locks w).map fun other => other.nonce.toNat).Nodup := by
    rw [h.nonces]
    exact List.nodup_range
  exact List.inj_on_of_nodup_map hnodup hother hrecord (congrArg BitVec.toNat heq)

/-- A property that picks one record of the registry picks it once. -/
theorem Registered.filter_eq (h : Registered d w₀ transactions w) {p : LockRecord → Bool}
    {record : LockRecord} (hrecord : record ∈ locks w)
    (hp : ∀ other ∈ locks w, p other = true ↔ other = record) : (locks w).filter p = [record] := by
  have hcongr : (locks w).filter p = (locks w).filter (· == record) := by
    apply List.filter_congr
    intro other hother
    rw [Bool.eq_iff_iff, hp other hother, beq_iff_eq]
  rw [hcongr, List.filter_beq, List.count_eq_one_of_mem h.tokenIds.of_map hrecord]
  rfl

/-- Every nonce below the next one has a record. -/
theorem Registered.exists_record (h : Registered d w₀ transactions w) {n : Word}
    (hn : n < w.storage.nextNonce) : ∃ record ∈ locks w, record.nonce = n := by
  have hmem : n.toNat ∈ (locks w).map fun record => record.nonce.toNat := by
    rw [h.nonces, List.mem_range, h.count]
    exact BitVec.lt_def.1 hn
  obtain ⟨record, hrecord, heq⟩ := List.mem_map.1 hmem
  exact ⟨record, hrecord, BitVec.eq_of_toNat_eq heq⟩

theorem Registered.registry (h : Registered d w₀ transactions w)
    (hkeccak : SparseMerkle.CollisionFree d.keccak256 (ByteArr.zero 32)
      (lockInputs d transactions)) : LockRegistry d w where
  occupied n := by
    constructor
    · intro hne
      by_contra hlt
      exact hne (h.vacant n (BitVec.not_lt.1 hlt))
    · intro hlt
      obtain ⟨record, hrecord, rfl⟩ := h.exists_record hlt
      rw [h.digests record hrecord, record.digest_eq]
      exact hkeccak.ne_zero _ (h.input_mem hrecord)
  nonces record hrecord := h.nonce_lt hrecord
  stored n hn := by
    obtain ⟨record, hrecord, rfl⟩ := h.exists_record hn
    have hdigest := h.digests record hrecord
    refine ⟨record, h.filter_eq hrecord ?_, h.filter_eq hrecord ?_, hdigest⟩
    · intro other hother
      rw [decide_eq_true_eq]
      exact ⟨h.nonce_inj hrecord hother, fun heq => by rw [heq]⟩
    · intro other hother
      rw [decide_eq_true_eq, hdigest]
      constructor
      · intro heq
        rw [other.digest_eq, record.digest_eq] at heq
        exact h.nonce_inj hrecord hother (lockInput_nonce
          (hkeccak.inj (h.input_mem hother) (h.input_mem hrecord) heq))
      · rintro rfl
        rfl
  tokenIds := h.tokenIds
  marked := h.marked
  amounts := h.amounts

end Registry

/-- **The lock registry.** Between any two calls of any run: the registry holds, every lock in it was
brought in full by its own call, a non-zero lock reference that a batch is accepted with names one of
these locks, and a stored digest never changes. -/
theorem lock_registry {d : Deployment σ} {w₀ : World σ} (hfresh : Fresh d w₀)
    (transactions : List (Transaction σ))
    (hkeccak : SparseMerkle.CollisionFree d.keccak256 (ByteArr.zero 32)
      (lockInputs d transactions)) :
    LockRegistry d (run d w₀ transactions) ∧
      (∀ record ∈ locks (run d w₀ transactions), Funded d w₀ transactions record) ∧
      (∀ timestamp depth sender publicValues proof leaves lockRefs result w',
        execute d timestamp depth sender (.fulfillBatch publicValues proof leaves lockRefs)
            (run d w₀ transactions) = .ok (result, w') →
          ∀ lockRef ∈ lockRefs, lockRef.digest ≠ ByteArr.zero 32 →
            ∃ record ∈ locks (run d w₀ transactions), record.nonce = lockRef.nonce ∧
              record.digest d = lockRef.digest ∧ Funded d w₀ transactions record) ∧
      ∀ n more, (run d w₀ transactions).storage.lockDigest n ≠ ByteArr.zero 32 →
        (run d w₀ (transactions ++ more)).storage.lockDigest n =
          (run d w₀ transactions).storage.lockDigest n := by
  have h := registered hfresh transactions
  have hregistry := h.registry hkeccak
  refine ⟨hregistry, h.funded, ?_, ?_⟩
  · intro timestamp depth sender publicValues proof leaves lockRefs result w' hok lockRef href hne
    cases execute_cases hok with
    | fulfillBatch _ _ _ _ pv hfulfilled =>
        have hdigest := hfulfilled.checks.digests lockRef href
        rw [← hdigest] at hne ⊢
        obtain ⟨record, hrecord, hnonce⟩ := h.exists_record ((hregistry.occupied _).1 hne)
        refine ⟨record, hrecord, hnonce, ?_, h.funded record hrecord⟩
        rw [← hnonce]
        exact (h.digests record hrecord).symm
  · intro n more hne
    rw [run_append]
    exact lockDigest_run ((hregistry.occupied n).1 hne) more

/-! ## The registry of the sample -/

namespace Sample

open UnicityBridge.Guest.Sample (sdk input owner word Coin)

/-- What the locks of the sample hash at a nonce. -/
def inputAt (coin : Coin) (nonce : Nat) : Bytes :=
  lockInput (bridgeVault false) (BitVec.ofNat 256 nonce) (BitVec.ofNat 256 coin.amount.toNat)
    (word coin.number) (sdk.sha256 owner.toCbor)

/-- That for both locks at all nonces of a run that is as long. -/
def inputs : List Bytes :=
  [Coin.whole, .source].flatMap fun coin => (List.range 3).map (inputAt coin)

theorem lockInputs_subset : ∀ data ∈ lockInputs (bridgeVault false) locking, data ∈ inputs := by
  rintro data ⟨timestamp, depth, sender, amount, tokenId, recipient, nonce, hmem, hlt, hdata⟩
  obtain ⟨coin, hcoin, hamount, htoken, hrecipient⟩ : ∃ coin ∈ [Coin.whole, .source],
      amount = BitVec.ofNat 256 coin.amount.toNat ∧ tokenId = word coin.number ∧
        recipient = sdk.sha256 owner.toCbor := by
    simp only [locking, lockFor, List.mem_cons, List.not_mem_nil, or_false, Transaction.call.injEq,
      reduceCtorEq, and_false, false_or, Call.lock.injEq] at hmem
    rcases hmem with h | h
    · exact ⟨.whole, List.mem_cons_self, h.2.2.2⟩
    · exact ⟨.source, List.mem_cons_of_mem _ List.mem_cons_self, h.2.2.2⟩
  have hlt' : nonce.toNat < 3 := hlt
  have hat : data = inputAt coin nonce.toNat := by
    rw [hdata, hamount, htoken, hrecipient, inputAt, BitVec.ofNat_toNat, BitVec.setWidth_eq]
  rw [hat]
  exact List.mem_flatMap_of_mem hcoin (List.mem_map_of_mem (List.mem_range.2 hlt'))

theorem lockInputs_collisionFree : SparseMerkle.CollisionFree (bridgeVault false).keccak256
    (ByteArr.zero 32) (lockInputs (bridgeVault false) locking) where
  inj x hx y hy h := by
    have hdistinct : ∀ x ∈ inputs, ∀ y ∈ inputs, sdk.keccak256 x = sdk.keccak256 y → x = y := by
      decide +kernel
    exact hdistinct x (lockInputs_subset x hx) y (lockInputs_subset y hy) h
  ne_zero x hx := by
    have hne : ∀ x ∈ inputs, sdk.keccak256 x ≠ ByteArr.zero 32 := by decide +kernel
    exact hne x (lockInputs_subset x hx)

theorem digests_ne_zero : ∀ lockRef ∈ (input .first).sortedLockRefs.map refOfCore,
    lockRef.digest ≠ ByteArr.zero 32 := by
  decide +kernel

end Sample

open Guest.Sample (sdk input) in
/-- Two locks are registered. A batch that refers to both is paid, and the digests stay. -/
theorem lock_registry_sample :
    LockRegistry (Sample.bridgeVault false) (Sample.locked false) ∧
    (locks (Sample.locked false)).map LockRecord.nonce = [0, 1] ∧
    (∃ w', execute (Sample.bridgeVault false) 0 1 Sample.admin (Sample.fulfillCall .first)
        (Sample.locked false) = .ok (none, w')) ∧
    (∀ lockRef ∈ (input .first).sortedLockRefs.map refOfCore, ∃ record ∈ locks (Sample.locked false),
      record.nonce = lockRef.nonce ∧ record.digest (Sample.bridgeVault false) = lockRef.digest ∧
        Funded (Sample.bridgeVault false) Sample.world Sample.locking record) ∧
    ∀ n, (Sample.locked false).storage.lockDigest n ≠ ByteArr.zero 32 →
      (run (Sample.bridgeVault false) Sample.world (Sample.locking ++
          [.call 0 1 Sample.admin (Sample.fulfillCall .first)])).storage.lockDigest n =
        (Sample.locked false).storage.lockDigest n := by
  have hfresh : Fresh (Sample.bridgeVault false) Sample.world := Sample.fresh _ _ _ _ (by decide)
  obtain ⟨hregistry, -, hrefs, hstays⟩ :=
    lock_registry hfresh Sample.locking Sample.lockInputs_collisionFree
  obtain ⟨w', hpaid, -⟩ := Sample.first_settles
  exact ⟨hregistry, by decide +kernel, ⟨w', hpaid⟩, fun lockRef href =>
    hrefs _ _ _ _ _ _ _ _ _ hpaid lockRef href (Sample.digests_ne_zero lockRef href),
    fun n => hstays n _⟩

end UnicityBridge.Vault
