import UnicityBridge.VaultCustody

/-!
# The storage from the event log

A reader of the chain sees the vault's events, not its storage. `record` takes one event to the storage
it leaves and refuses an event that does not fit: a nonce out of turn, a root that is not the stored
one, a withdrawal of another amount than what is owed.

The vault writes nothing that it does not say in an event. So after every run, with any calls back of
the asset in it, the reader accepts the whole log and has exactly the storage of the vault
(`storage_recorded`).
-/

set_option autoImplicit false

namespace UnicityBridge.Vault

open UnicityBridge.Lib UnicityBridge.Lib.Exec
open UnicityBridge.Core (Address)

variable {σ : Type}

/-! ## A reader of the log -/

/-- `owed[account] += value`, read off an event. -/
def Storage.credited (s : Storage) (account : Address) (value : Word) : Option Storage :=
  if (s.owed account).toNat + value.toNat < 2 ^ 256 then
    some { s with owed := Function.update s.owed account (s.owed account + value) }
  else none

/-- The storage after an event. None for an event that does not fit the storage. -/
def record (d : Deployment σ) (s : Storage) : Event → Option Storage
  | .lock nonce _ amount unicityTokenId recipientCommitment =>
      if (nonce = s.nextNonce ∧ nonce.toNat + 1 < 2 ^ 256 ∧ s.tokenIdUsed unicityTokenId = false) ∧
          0 < amount ∧ amount.toNat ≤ 2 ^ 64 - 1 ∧ unicityTokenId ≠ ByteArr.zero 32 ∧
          recipientCommitment ≠ ByteArr.zero 32 then
        some { s with
          tokenIdUsed := Function.update s.tokenIdUsed unicityTokenId true
          nextNonce := nonce + 1
          lockDigest := Function.update s.lockDigest nonce
            (BridgeEncoding.lockDigest d.keccak256 d.sourceChainId d.self nonce d.assetAddr
              d.tokenType d.coinId amount unicityTokenId recipientCommitment) }
      else none
  | .batchFulfilled spentRootOld spentRootNew _ _ =>
      if spentRootOld = s.spentRoot then some { s with spentRoot := spentRootNew } else none
  | .released _ recipient amount feeRecipient feeAmount _ =>
      if feeAmount ≤ amount then
        -- a push payment owes nobody anything
        if d.pullPayments then do
          let s ← s.credited recipient (amount - feeAmount)
          if 0 < feeAmount then s.credited feeRecipient feeAmount else some s
        else some s
      else none
  | .trustBaseAllowedUpdated trustBaseHash allowed =>
      some { s with trustBaseAllowed := Function.update s.trustBaseAllowed trustBaseHash allowed }
  | .adminTransferred previousAdmin newAdmin =>
      if previousAdmin = s.admin ∧ newAdmin ≠ ByteArr.zero 20 then
        some { s with admin := newAdmin }
      else none
  | .withdrawn account amount =>
      if s.owed account = amount ∧ 0 < amount then
        some { s with owed := Function.update s.owed account 0 }
      else none

/-- The storage after a log. -/
def replay (d : Deployment σ) (s : Storage) (log : List Event) : Option Storage :=
  log.foldlM (record d) s

/-- The storage as it stands outside of a call. -/
def Storage.left (s : Storage) : Storage := { s with entered := 0 }

theorem Storage.left_eq {s : Storage} (h : s.entered = 0) : s.left = s := by
  cases s
  cases h
  rfl

theorem Storage.credited_left (s : Storage) (account : Address) (value : Word) :
    s.left.credited account value = (s.credited account value).map Storage.left := by
  simp only [Storage.credited, Storage.left, apply_ite (Option.map _), Option.map_some,
    Option.map_none]
  rfl

/-- No event is about the entry flag. -/
theorem record_left (d : Deployment σ) (s : Storage) (event : Event) :
    record d s.left event = (record d s event).map Storage.left := by
  cases event with
  | released nullifier recipient amount feeRecipient feeAmount deadline =>
      simp only [record, Storage.credited_left]
      split
      · split
        · cases s.credited recipient (amount - feeAmount) with
          | none => rfl
          | some s =>
              show (if 0 < feeAmount then s.left.credited feeRecipient feeAmount else some s.left) =
                Option.map Storage.left (if 0 < feeAmount then s.credited feeRecipient feeAmount else some s)
              rw [Storage.credited_left]
              split <;> rfl
        · rfl
      · rfl
  | trustBaseAllowedUpdated trustBaseHash allowed => rfl
  | lock nonce sender amount unicityTokenId recipientCommitment =>
      simp only [record, Storage.left, apply_ite (Option.map _), Option.map_some, Option.map_none]
      rfl
  | batchFulfilled spentRootOld spentRootNew batchSize totalAmount =>
      simp only [record, Storage.left, apply_ite (Option.map _), Option.map_some, Option.map_none]
      rfl
  | adminTransferred previousAdmin newAdmin =>
      simp only [record, Storage.left, apply_ite (Option.map _), Option.map_some, Option.map_none]
      rfl
  | withdrawn account amount =>
      simp only [record, Storage.left, apply_ite (Option.map _), Option.map_some, Option.map_none]
      rfl

/-- The reader that starts from `s₀` has the storage of the vault, but for the entry flag. -/
def Recorded (d : Deployment σ) (s₀ : Storage) (w : World σ) : Prop :=
  replay d s₀ w.log = some w.storage.left

/-- **An event that fits takes the reader along.** -/
theorem Recorded.event {d : Deployment σ} {s₀ : Storage} {w w' : World σ} {event : Event}
    (h : Recorded d s₀ w) (hlog : w'.log = w.log ++ [event])
    (hrecord : record d w.storage event = some w'.storage) : Recorded d s₀ w' := by
  show replay d s₀ w'.log = _
  have hreplay : replay d s₀ w.log = some w.storage.left := h
  rw [hlog, replay, List.foldlM_append]
  rw [replay] at hreplay
  rw [hreplay]
  show (record d w.storage.left event >>= pure) = _
  rw [bind_pure, record_left, hrecord]
  rfl

/-! ## What every part of a call keeps -/

section Keeping

variable {d : Deployment σ} {s₀ : Storage} {timestamp : Word}
  {reenter : Address → Call → Tx σ Returned}

/-- Entering and leaving a call changes nothing the reader sees. -/
theorem recorded_nonReentrant {α : Type} {body : Tx σ α} (h : Keeps (Recorded d s₀) body) :
    Keeps (Recorded d s₀) (nonReentrant body) := by
  intro w result w' hw hok
  obtain ⟨-, mid, hbody, rfl⟩ := nonReentrant_ok.1 hok
  have hentered : Recorded d s₀ (w.setStorage fun s => { s with entered := 1 }) := hw
  have hmid : Recorded d s₀ mid := h _ result mid hentered hbody
  exact hmid

theorem recorded_setTrustBaseAllowed (sender : Address) (trustBaseHash : Bytes32) (allowed : Bool) :
    Keeps (Recorded d s₀) (setTrustBaseAllowed sender trustBaseHash allowed) := by
  intro w _ w' hw hok
  simp only [setTrustBaseAllowed, onlyAdmin, bind_ok, read_ok, require_ok, update_ok] at hok
  obtain ⟨-, _, ⟨_, _, ⟨rfl, rfl⟩, -, rfl⟩, -, _, rfl, rfl⟩ := hok
  exact hw.event rfl rfl

theorem recorded_transferAdmin (sender newAdmin : Address) :
    Keeps (Recorded d s₀) (transferAdmin sender newAdmin) := by
  intro w _ w' hw hok
  simp only [transferAdmin, onlyAdmin, bind_ok, read_ok, require_ok, update_ok] at hok
  obtain ⟨-, _, ⟨_, _, ⟨rfl, rfl⟩, -, rfl⟩, -, _, ⟨hadmin, rfl⟩, _, _, ⟨rfl, rfl⟩, -, _, rfl, rfl⟩ :=
    hok
  exact hw.event rfl (if_pos ⟨rfl, hadmin⟩)

/-- By induction on what the asset does: it touches its own state, and its calls back keep the
record. -/
theorem recorded_interact (hreenter : ∀ sender call, Keeps (Recorded d s₀) (reenter sender call))
    (interaction : Interaction σ) : Keeps (Recorded d s₀) (interact reenter interaction) := by
  induction interaction with
  | finish state success => exact .bind (.update fun _ hw => hw) fun _ => .pure _
  | view next ih => exact .bind (.read _) fun storage => ih storage
  | reenter state sender call next ih =>
      exact .bind (.update fun _ hw => hw) fun _ =>
        .bind (.attempt (hreenter sender call)) fun result =>
          .bind (.read _) fun state' => ih result state'

theorem recorded_held : Keeps (Recorded d s₀) (held d) :=
  .bind (.read _) fun _ => .expect _ _

theorem recorded_checkedSub (a b : Word) : Keeps (Recorded d s₀) (checkedSub a b : Tx σ Word) := by
  intro w result w' hw hok
  obtain ⟨-, rfl⟩ := checkedSub_ok.1 hok
  exact hw

theorem recorded_callAsset (hreenter : ∀ sender call, Keeps (Recorded d s₀) (reenter sender call))
    (interaction : Interaction σ) (failure : String) :
    Keeps (Recorded d s₀) (callAsset reenter interaction failure) :=
  .bind (recorded_interact hreenter interaction) fun _ => .require _ _

theorem recorded_receiveExactly
    (hreenter : ∀ sender call, Keeps (Recorded d s₀) (reenter sender call))
    (sender : Address) (value : Word) :
    Keeps (Recorded d s₀) (receiveExactly d reenter sender value) :=
  .bind recorded_held fun _ => .bind (.read _) fun _ =>
    .bind (recorded_callAsset hreenter _ _) fun _ => .bind recorded_held fun _ =>
      .bind (recorded_checkedSub _ _) fun _ => .require _ _

theorem recorded_sendExactly (hreenter : ∀ sender call, Keeps (Recorded d s₀) (reenter sender call))
    (recipient : Address) (value : Word) :
    Keeps (Recorded d s₀) (sendExactly d reenter recipient value) := by
  rw [sendExactly]
  split
  · exact .pure _
  · exact .bind recorded_held fun _ => .bind (.read _) fun _ =>
      .bind (recorded_callAsset hreenter _ _) fun _ => .bind (.update fun _ hw => hw) fun _ =>
        .bind recorded_held fun _ => .bind (recorded_checkedSub _ _) fun _ => .require _ _

/-- The nonce, the token id and the digest are written before the event, and the asset is called after
it: at no call back is the log behind. -/
theorem recorded_lock (hreenter : ∀ sender call, Keeps (Recorded d s₀) (reenter sender call))
    (sender : Address) (amount : Word) (unicityTokenId recipientCommitment : Bytes32) :
    Keeps (Recorded d s₀) (lock d reenter sender amount unicityTokenId recipientCommitment) := by
  intro w result w' hw hok
  simp only [lock, require_bind, read_bind, update_bind] at hok
  obtain ⟨hpos, hamount, htokenId, hrecipient, hunused, hok⟩ := hok
  obtain ⟨next, mid, hnext, hok⟩ := bind_ok.1 hok
  obtain ⟨hadd, rfl⟩ := checkedAdd_ok.1 hnext
  have hadd : next.toNat = w.storage.nextNonce.toNat + 1 := hadd
  have hlt : w.storage.nextNonce.toNat + 1 < 2 ^ 256 := hadd ▸ next.isLt
  have hnext : next = w.storage.nextNonce + 1 := by
    apply BitVec.eq_of_toNat_eq
    rw [BitVec.toNat_add, hadd]
    exact (Nat.mod_eq_of_lt hlt).symm
  rw [update_bind, update_bind, update_bind] at hok
  obtain ⟨⟨⟩, last, hreceive, hok⟩ := bind_ok.1 hok
  obtain ⟨-, rfl⟩ := pure_ok.1 hok
  refine recorded_receiveExactly hreenter sender amount _ _ _ ?_ hreceive
  refine hw.event rfl ?_
  rw [hnext]
  exact if_pos ⟨⟨rfl, hlt, hunused⟩, hpos, hamount, htokenId, hrecipient⟩

theorem credited_of_credit {account : Address} {value : Word} {w w' : World σ} {u : Unit}
    (h : credit account value w = .ok (u, w')) :
    w.storage.credited account value = some w'.storage ∧ w'.log = w.log := by
  obtain ⟨after, hafter, rfl⟩ := credit_ok.1 h
  have hlt : (w.storage.owed account).toNat + value.toNat < 2 ^ 256 := hafter ▸ after.isLt
  have hadd : after = w.storage.owed account + value := by
    apply BitVec.eq_of_toNat_eq
    rw [BitVec.toNat_add, hafter, Nat.mod_eq_of_lt hlt]
  rw [hadd]
  exact ⟨if_pos hlt, rfl⟩

/-- A credit comes before its event and a transfer leaves the storage alone, so here the two modes of
payment part. -/
theorem recorded_settleLeaf (hreenter : ∀ sender call, Keeps (Recorded d s₀) (reenter sender call))
    (l : ReturnLeaf) : Keeps (Recorded d s₀) (settleLeaf d timestamp reenter l) := by
  intro w _ w' hw hok
  obtain ⟨principal, mid, hsub, hok⟩ := bind_ok.1 hok
  obtain ⟨hprincipal, rfl⟩ := checkedSub_ok.1 hsub
  -- the principal is the difference itself, since no fee exceeds the amount
  have hfee : feeDue timestamp l ≤ l.amount := by
    rw [BitVec.le_def]
    omega
  have hprincipal : principal = l.amount - feeDue timestamp l := by
    apply BitVec.eq_of_toNat_eq
    rw [BitVec.toNat_sub_of_le hfee]
    omega
  subst hprincipal
  obtain ⟨⟨⟩, first, hfirst, hok⟩ := bind_ok.1 hok
  obtain ⟨⟨⟩, second, hsecond, hemit⟩ := bind_ok.1 hok
  rw [update_ok] at hemit
  subst hemit
  -- pull mode: the event records both credits
  by_cases hpull : d.pullPayments = true
  · rw [payOut, if_pos hpull] at hfirst
    obtain ⟨hcredit, hlog⟩ := credited_of_credit hfirst
    by_cases hpos : 0 < feeDue timestamp l
    · rw [if_pos hpos, payOut, if_pos hpull] at hsecond
      obtain ⟨hcreditFee, hlogFee⟩ := credited_of_credit hsecond
      have hlogged : second.log ++ [released timestamp l] = w.log ++ [released timestamp l] := by
        rw [hlogFee, hlog]
      refine hw.event hlogged ?_
      show record d w.storage (released timestamp l) = some second.storage
      simp only [record, released, if_pos hfee, if_pos hpull, hcredit, if_pos hpos]
      exact hcreditFee
    · rw [if_neg hpos] at hsecond
      obtain ⟨-, rfl⟩ := pure_ok.1 hsecond
      have hlogged : first.log ++ [released timestamp l] = w.log ++ [released timestamp l] := by
        rw [hlog]
      refine hw.event hlogged ?_
      show record d w.storage (released timestamp l) = some first.storage
      simp only [record, released, if_pos hfee, if_pos hpull, hcredit, if_neg hpos]
      rfl
  -- push mode: transfers change no storage, whatever the asset calls back
  · rw [payOut, if_neg hpull] at hfirst
    have hmid : Recorded d s₀ first := recorded_sendExactly hreenter _ _ _ _ _ hw hfirst
    have hlast : Recorded d s₀ second := by
      by_cases hpos : 0 < feeDue timestamp l
      · rw [if_pos hpos, payOut, if_neg hpull] at hsecond
        exact recorded_sendExactly hreenter _ _ _ _ _ hmid hsecond
      · rw [if_neg hpos] at hsecond
        obtain ⟨-, rfl⟩ := pure_ok.1 hsecond
        exact hmid
    refine hlast.event rfl ?_
    show record d second.storage (released timestamp l) = some second.storage
    simp only [record, released, if_pos hfee, if_neg hpull]

theorem recorded_fulfillBatch
    (hreenter : ∀ sender call, Keeps (Recorded d s₀) (reenter sender call))
    (publicValues proof : Bytes) (leaves : List ReturnLeaf) (lockRefs : List SourceLockRef) :
    Keeps (Recorded d s₀) (fulfillBatch d timestamp reenter publicValues proof leaves lockRefs) := by
  intro w _ w' hw hok
  simp only [fulfillBatch, require_bind] at hok
  obtain ⟨-, hok⟩ := hok
  obtain ⟨pv, -, hok⟩ := expect_bind.1 hok
  obtain ⟨⟨⟩, mid, hcheck, hok⟩ := bind_ok.1 hok
  obtain ⟨hchecks, rfl⟩ := checkBatch_ok.1 hcheck
  rw [update_bind, update_bind] at hok
  refine Keeps.forM (recorded_settleLeaf hreenter) leaves _ _ _ ?_ hok
  exact hw.event rfl (if_pos hchecks.spentRootOld)

theorem recorded_withdraw (hreenter : ∀ sender call, Keeps (Recorded d s₀) (reenter sender call))
    (sender : Address) : Keeps (Recorded d s₀) (withdraw d reenter sender) := by
  intro w result w' hw hok
  simp only [withdraw, read_bind, require_bind, update_bind] at hok
  obtain ⟨hpos, hok⟩ := hok
  obtain ⟨⟨⟩, mid, hsend, hok⟩ := bind_ok.1 hok
  obtain ⟨-, rfl⟩ := pure_ok.1 hok
  refine recorded_sendExactly hreenter _ _ _ _ _ ?_ hsend
  exact hw.event rfl (if_pos ⟨rfl, hpos⟩)

/-- **A call keeps the record**, by induction on the call depth. -/
theorem recorded_execute (d : Deployment σ) (s₀ : Storage) (timestamp : Word) (depth : Nat)
    (sender : Address) (call : Call) :
    Keeps (Recorded d s₀) (execute d timestamp depth sender call) := by
  induction depth generalizing sender call with
  | zero => exact .fail _
  | succ depth ih =>
      cases call with
      | lock amount unicityTokenId recipientCommitment =>
          exact .bind (recorded_nonReentrant (recorded_lock ih _ _ _ _)) fun _ => .pure _
      | fulfillBatch publicValues proof leaves lockRefs =>
          exact .bind (recorded_nonReentrant (recorded_fulfillBatch ih _ _ _ _)) fun _ => .pure _
      | withdraw =>
          exact .bind (recorded_nonReentrant (recorded_withdraw ih _)) fun _ => .pure _
      | setTrustBaseAllowed trustBaseHash allowed =>
          exact .bind (recorded_setTrustBaseAllowed _ _ _) fun _ => .pure _
      | transferAdmin newAdmin => exact .bind (recorded_transferAdmin _ _) fun _ => .pure _

/-- A call that succeeds ends with the vault left. -/
theorem left_execute (d : Deployment σ) (timestamp : Word) (depth : Nat) (sender : Address)
    (call : Call) :
    Keeps (fun w : World σ => w.storage.entered = 0) (execute d timestamp depth sender call) := by
  have hguarded : ∀ {α : Type} (body : Tx σ α),
      Keeps (fun w : World σ => w.storage.entered = 0) (nonReentrant body) := by
    intro α body w result w' _ hok
    obtain ⟨-, mid, -, rfl⟩ := nonReentrant_ok.1 hok
    rfl
  cases depth with
  | zero => exact .fail _
  | succ depth =>
      cases call with
      | lock amount unicityTokenId recipientCommitment =>
          exact .bind (hguarded _) fun _ => .pure _
      | fulfillBatch publicValues proof leaves lockRefs =>
          exact .bind (hguarded _) fun _ => .pure _
      | withdraw => exact .bind (hguarded _) fun _ => .pure _
      | setTrustBaseAllowed trustBaseHash allowed =>
          refine .bind (fun w _ w' hw hok => ?_) fun _ => .pure _
          exact (setTrustBaseAllowed_ok hok).1.entered.trans hw
      | transferAdmin newAdmin =>
          refine .bind (fun w _ w' hw hok => ?_) fun _ => .pure _
          exact (transferAdmin_ok hok).1.entered.trans hw

end Keeping

/-! ## Runs -/

/-- A reader that is up to date stays so over any further transactions. -/
theorem replay_run {d : Deployment σ} {s₀ : Storage} {w : World σ}
    (hreplay : replay d s₀ w.log = some w.storage) (hleft : w.storage.entered = 0)
    (transactions : List (Transaction σ)) :
    replay d s₀ (run d w transactions).log = some (run d w transactions).storage ∧
      (run d w transactions).storage.entered = 0 := by
  induction transactions generalizing w with
  | nil => exact ⟨hreplay, hleft⟩
  | cons transaction rest ih =>
      have hstep : replay d s₀ (apply d w transaction).log =
          some (apply d w transaction).storage ∧ (apply d w transaction).storage.entered = 0 := by
        cases transaction with
        | asset state => exact ⟨hreplay, hleft⟩
        | call timestamp depth sender call =>
            rcases apply_call (d := d) (w := w) with ⟨result, w', hok, heq⟩ | ⟨-, heq⟩
            · have hrecorded : Recorded d s₀ w := hreplay.trans (by rw [Storage.left_eq hleft])
              have hafter := recorded_execute d s₀ timestamp depth sender call w result w'
                hrecorded hok
              have hleftAfter := left_execute d timestamp depth sender call w result w' hleft hok
              rw [heq]
              refine ⟨?_, hleftAfter⟩
              rw [Recorded, Storage.left_eq hleftAfter] at hafter
              exact hafter
            · rw [heq]
              exact ⟨hreplay, hleft⟩
      exact ih hstep.1 hstep.2

/-- **The log says everything the vault knows.** After every run a reader that starts from what the
constructor left accepts each event in its turn and has exactly the vault's storage. -/
theorem storage_recorded {d : Deployment σ} {w₀ : World σ} (hfresh : Fresh d w₀)
    (transactions : List (Transaction σ)) :
    replay d w₀.storage (run d w₀ transactions).log =
      some (run d w₀ transactions).storage := by
  have hentered : w₀.storage.entered = 0 := by
    obtain ⟨admin, hstorage⟩ := hfresh.storage_eq
    rw [hstorage]
  refine (replay_run ?_ hentered transactions).1
  rw [hfresh.log]
  rfl

/-! ## The result on a run -/

namespace Sample

/-- A batch in pull mode and a withdrawal, and then the admin hands over. -/
def recordedRun : List (Transaction Word) :=
  batchRun ++ [.call 60 1 late.recipient .withdraw,
    .call 60 1 admin (.transferAdmin (List.Vector.replicate 20 4))]

theorem storage_recorded_sample : (run (vault true) world recordedRun).log.length = 7 ∧
    replay (vault true) world.storage (run (vault true) world recordedRun).log =
      some (run (vault true) world recordedRun).storage :=
  ⟨by decide +kernel, storage_recorded (fresh _ config true _ (by decide)) recordedRun⟩

end Sample

end UnicityBridge.Vault
