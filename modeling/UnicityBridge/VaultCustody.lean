import UnicityBridge.VaultSpec
import Mathlib.Algebra.BigOperators.Group.Finset.Piecewise
import Mathlib.Algebra.BigOperators.Group.Finset.Basic
import Mathlib.Data.FinEnum

/-!
# Custody conservation

Over any run of the vault, in both payout modes and for any asset: a lock is received in full, a batch
disposes of exactly its total, a withdrawal pays what is owed, and what is owed, withdrawn, sent and
kept adds up to the totals of all batches (`custody_conserved`).

The sums over a run are taken over the event log and the vault's own transfers. Admin events count for
nothing, so a sum over the log is the sum over the ledger.
-/

set_option autoImplicit false

namespace UnicityBridge.Vault

open UnicityBridge.Lib UnicityBridge.Lib.Exec
open UnicityBridge.Core (Address BridgeConfig)

variable {σ : Type}

/-! ## Payouts to the vault itself -/

theorem totalOf_cons (payout : Address × Word) (rest : List (Address × Word)) :
    totalOf (payout :: rest) = payout.2.toNat + totalOf rest := rfl

theorem creditedTo_cons (account : Address) (payout : Address × Word)
    (rest : List (Address × Word)) :
    creditedTo account (payout :: rest) =
      (if payout.1 = account then payout.2.toNat else 0) + creditedTo account rest := by
  unfold creditedTo
  by_cases h : payout.1 = account
  · simp [h, totalOf_cons]
  · simp [h]

/-- What leaves the vault and what is addressed to it make up all payouts. -/
theorem totalOf_paid (self : Address) (payouts : List (Address × Word)) :
    totalOf (paid self payouts) + creditedTo self payouts = totalOf payouts := by
  induction payouts with
  | nil => rfl
  | cons payout rest ih =>
      rw [creditedTo_cons, totalOf_cons, ← ih]
      by_cases hself : payout.1 = self
      · simp [paid, hself]
        omega
      · by_cases hzero : payout.2 = 0
        · simp [paid, hself, hzero]
        · have hkept : paid self (payout :: rest) = payout :: paid self rest :=
            List.filter_cons_of_pos (decide_eq_true ⟨hself, hzero⟩)
          rw [hkept, totalOf_cons, if_neg hself]
          omega

theorem paid_self {self : Address} {payouts : List (Address × Word)}
    (h : ∀ payout ∈ payouts, payout.1 ≠ self ∧ payout.2 ≠ 0) : paid self payouts = payouts :=
  List.filter_eq_self.2 fun payout hpayout => decide_eq_true (h payout hpayout)

/-! ## Sums over a run -/

/-- The sum of a number over the events of a log. -/
def eventSum (f : Event → Nat) (log : List Event) : Nat := (log.map f).sum

theorem eventSum_cons (f : Event → Nat) (event : Event) (log : List Event) :
    eventSum f (event :: log) = f event + eventSum f log := rfl

theorem eventSum_append (f : Event → Nat) (log log' : List Event) :
    eventSum f (log ++ log') = eventSum f log + eventSum f log' := by
  simp [eventSum]

theorem eventSum_ledger {f : Event → Nat} (h : ∀ event, event.isAdmin = true → f event = 0)
    (w : World σ) : eventSum f w.log = eventSum f w.ledger := by
  unfold World.ledger eventSum
  induction w.log with
  | nil => rfl
  | cons event rest ih =>
      cases hadmin : event.isAdmin with
      | true => simp [hadmin, h event hadmin, ih]
      | false => simp [hadmin, ih]

/-- `totalAmount` of a successful batch. -/
def batchAmount : Event → Nat
  | .batchFulfilled _ _ _ totalAmount => totalAmount.toNat
  | _ => 0

/-- The amount of a withdrawal. -/
def withdrawnAmount : Event → Nat
  | .withdrawn _ amount => amount.toNat
  | _ => 0

/-- What a settled leaf pays to the vault itself. -/
def selfAmount (self : Address) : Event → Nat
  | .released _ recipient amount feeRecipient feeAmount _ =>
      (if recipient = self then amount.toNat - feeAmount.toNat else 0) +
        if feeRecipient = self then feeAmount.toNat else 0
  | _ => 0

theorem selfAmount_released {self : Address} {timestamp : Word} {l : ReturnLeaf}
    (h : l.feeAmount ≤ l.amount) :
    selfAmount self (released timestamp l) = creditedTo self (leafPayouts timestamp l) := by
  have hfee : feeDue timestamp l ≤ l.amount := feeDue_le h
  rw [leafPayouts, creditedTo_cons, BitVec.toNat_sub_of_le hfee]
  show (if l.recipient = self then l.amount.toNat - (feeDue timestamp l).toNat else 0) +
    (if l.feeRecipient = self then (feeDue timestamp l).toNat else 0) = _
  congr 1
  split
  · next hself =>
    split
    · simp [creditedTo, totalOf, hself]
    · next hzero =>
      have h0 : (feeDue timestamp l).toNat = 0 := by
        simpa using mt BitVec.lt_def.2 hzero
      rw [h0]
      rfl
  · next hother =>
    split
    · simp [creditedTo, totalOf, hother]
    · rfl

theorem selfAmount_releases {self : Address} {timestamp : Word} {leaves : List ReturnLeaf}
    (h : ∀ l ∈ leaves, l.feeAmount ≤ l.amount) :
    eventSum (selfAmount self) (leaves.map (released timestamp)) =
      creditedTo self (payouts timestamp leaves) := by
  induction leaves with
  | nil => rfl
  | cons l rest ih =>
      have hcons : payouts timestamp (l :: rest) =
          leafPayouts timestamp l ++ payouts timestamp rest := rfl
      rw [hcons, creditedTo_append, ← selfAmount_released (h l List.mem_cons_self),
        ← ih fun l' hl' => h l' (List.mem_cons_of_mem l hl')]
      rfl

theorem releases_zero {f : Event → Nat} {timestamp : Word}
    (h : ∀ l, f (released timestamp l) = 0) (leaves : List ReturnLeaf) :
    eventSum f (leaves.map (released timestamp)) = 0 := by
  unfold eventSum
  rw [List.map_map, List.sum_eq_zero]
  intro n hn
  obtain ⟨l, -, rfl⟩ := List.mem_map.1 hn
  exact h l

/-- Everything the vault owes. -/
def owedTotal (storage : Storage) : Nat := ∑ account : Address, (storage.owed account).toNat

theorem sum_creditedTo (payouts : List (Address × Word)) :
    ∑ account : Address, creditedTo account payouts = totalOf payouts := by
  induction payouts with
  | nil => exact Finset.sum_const_zero
  | cons payout rest ih =>
      simp only [creditedTo_cons, Finset.sum_add_distrib, ih, totalOf_cons]
      rw [Finset.sum_ite_eq, if_pos (Finset.mem_univ _)]

/-- Zeroing what one account is owed. -/
theorem owedTotal_clear (storage : Storage) (account : Address) :
    ∑ a : Address, (Function.update storage.owed account 0 a).toNat +
      (storage.owed account).toNat = owedTotal storage := by
  have hcongr : ∀ a, (Function.update storage.owed account 0 a).toNat =
      Function.update (fun a => (storage.owed a).toNat) account 0 a := by
    intro a
    by_cases h : a = account
    · subst h
      simp
    · rw [Function.update_of_ne h, Function.update_of_ne h]
  have hsplit := Finset.add_sum_erase Finset.univ (fun a => (storage.owed a).toNat)
    (Finset.mem_univ account)
  rw [Finset.sum_congr rfl fun a _ => hcongr a,
    Finset.sum_update_of_mem (Finset.mem_univ account), Nat.zero_add, ← Finset.erase_eq, owedTotal,
    ← hsplit, Nat.add_comm]

/-! ## Reachable states -/

/-- What is owed, withdrawn, sent and kept adds up to the batches settled so far. -/
structure Balanced (d : Deployment σ) (w : World σ) : Prop where
  pull : d.pullPayments = true →
    owedTotal w.storage + eventSum withdrawnAmount w.log = eventSum batchAmount w.log
  push : d.pullPayments = false → (∀ account, w.storage.owed account = 0) ∧
    totalOf w.transfers + eventSum (selfAmount d.self) w.log = eventSum batchAmount w.log

theorem withdrawnAmount_admin (event : Event) (h : event.isAdmin = true) :
    withdrawnAmount event = 0 := by
  cases event <;> first | rfl | cases h

theorem batchAmount_admin (event : Event) (h : event.isAdmin = true) : batchAmount event = 0 := by
  cases event <;> first | rfl | cases h

theorem selfAmount_admin (self : Address) (event : Event) (h : event.isAdmin = true) :
    selfAmount self event = 0 := by
  cases event <;> first | rfl | cases h

/-- The sums of `Balanced` can be taken over the ledger. -/
theorem balanced_iff {d : Deployment σ} {w : World σ} :
    Balanced d w ↔
      (d.pullPayments = true →
        owedTotal w.storage + eventSum withdrawnAmount w.ledger = eventSum batchAmount w.ledger) ∧
      (d.pullPayments = false → (∀ account, w.storage.owed account = 0) ∧
        totalOf w.transfers + eventSum (selfAmount d.self) w.ledger =
          eventSum batchAmount w.ledger) := by
  rw [← eventSum_ledger withdrawnAmount_admin, ← eventSum_ledger batchAmount_admin,
    ← eventSum_ledger (selfAmount_admin d.self)]
  exact ⟨fun h => ⟨h.pull, h.push⟩, fun h => ⟨h.1, h.2⟩⟩

/-- A call that only reaches the admin functions keeps the balance. -/
theorem Balanced.callsOut {d : Deployment σ} {w w' : World σ} (h : Balanced d w)
    (hout : CallsOut w w' []) : Balanced d w' := by
  obtain ⟨_, _, hstorage⟩ := hout.storage
  have howed : w'.storage.owed = w.storage.owed := by rw [hstorage]
  have htransfers : w'.transfers = w.transfers := by rw [hout.transfers, List.append_nil]
  obtain ⟨hpull, hpush⟩ := balanced_iff.1 h
  rw [balanced_iff, hout.ledger, htransfers, owedTotal, howed]
  exact ⟨hpull, hpush⟩

theorem Balanced.locked {d : Deployment σ} {sender : Address} {amount : Word}
    {unicityTokenId recipientCommitment : Bytes32} {w w' : World σ} (h : Balanced d w)
    (hlock : Locked d sender amount unicityTokenId recipientCommitment w w') : Balanced d w' := by
  obtain ⟨_, _, _, -, hstorage⟩ := hlock.storage
  have howed : w'.storage.owed = w.storage.owed := by rw [hstorage]
  obtain ⟨hpull, hpush⟩ := balanced_iff.1 h
  rw [balanced_iff, hlock.ledger, hlock.transfers, owedTotal, howed, eventSum_append,
    eventSum_append, eventSum_append]
  exact ⟨hpull, hpush⟩

theorem Balanced.fulfilled {d : Deployment σ} {timestamp : Word} {publicValues proof : Bytes}
    {leaves : List ReturnLeaf} {lockRefs : List SourceLockRef} {pv : PublicValues}
    {w w' : World σ} (h : Balanced d w)
    (hbatch : Fulfilled d timestamp publicValues proof leaves lockRefs pv w w') :
    Balanced d w' := by
  obtain ⟨hpull, hpush⟩ := balanced_iff.1 h
  have hledger : w'.ledger = w.ledger ++ (.batchFulfilled pv.spentRootOld pv.spentRootNew
      pv.batchSize pv.totalAmount :: leaves.map (released timestamp)) := hbatch.paid.ledger
  -- the batch adds its total to what was settled; the releases themselves add nothing
  have hbatchSum : eventSum batchAmount w'.ledger =
      eventSum batchAmount w.ledger + pv.totalAmount.toNat := by
    rw [hledger, eventSum_append, eventSum_cons, releases_zero fun _ => rfl]
    rfl
  have htotal : totalOf (payouts timestamp leaves) = pv.totalAmount.toNat := by
    rw [totalOf_payouts hbatch.checks.fees, hbatch.checks.total]
  rw [balanced_iff, hbatchSum]
  refine ⟨fun hmode => ?_, fun hmode => ?_⟩
  · -- pull mode: what is owed grows by the payouts
    obtain ⟨-, -, howed⟩ := hbatch.paid.pull hmode
    have hwithdrawn : eventSum withdrawnAmount w'.ledger = eventSum withdrawnAmount w.ledger := by
      rw [hledger, eventSum_append, eventSum_cons, releases_zero fun _ => rfl]
      rfl
    have hgrows : owedTotal w'.storage = owedTotal w.storage + pv.totalAmount.toNat := by
      rw [owedTotal, Finset.sum_congr rfl fun account _ => howed account, Finset.sum_add_distrib,
        sum_creditedTo, htotal]
      rfl
    have := hpull hmode
    omega
  · -- push mode: the payouts are sent or stay
    obtain ⟨howed, htransfers, -⟩ := hbatch.paid.push hmode
    obtain ⟨hzero, hsum⟩ := hpush hmode
    have hself : eventSum (selfAmount d.self) w'.ledger = eventSum (selfAmount d.self) w.ledger +
        creditedTo d.self (payouts timestamp leaves) := by
      have hbatchEvent : selfAmount d.self (.batchFulfilled pv.spentRootOld pv.spentRootNew
          pv.batchSize pv.totalAmount) = 0 := rfl
      rw [hledger, eventSum_append, eventSum_cons, hbatchEvent,
        selfAmount_releases hbatch.checks.fees, Nat.zero_add]
    have hpaid := totalOf_paid d.self (payouts timestamp leaves)
    refine ⟨fun account => by rw [howed]; exact hzero account, ?_⟩
    have hsent : totalOf w'.transfers =
        totalOf w.transfers + totalOf (paid d.self (payouts timestamp leaves)) := by
      rw [htransfers, totalOf_append]
      rfl
    omega

theorem Balanced.withdrew {d : Deployment σ} {sender : Address} {w w' : World σ}
    (h : Balanced d w) (hwithdraw : Withdrew d sender w w') : Balanced d w' := by
  obtain ⟨hpull, hpush⟩ := balanced_iff.1 h
  obtain ⟨_, _, hstorage⟩ := hwithdraw.storage
  rw [balanced_iff, hwithdraw.ledger, eventSum_append, eventSum_append, eventSum_append]
  refine ⟨fun hmode => ?_, fun hmode => ?_⟩
  · have hclear := owedTotal_clear w.storage sender
    have howed : owedTotal w'.storage =
        ∑ a : Address, (Function.update w.storage.owed sender 0 a).toNat := by
      rw [owedTotal, hstorage]
    have hevents : eventSum withdrawnAmount [.withdrawn sender (w.storage.owed sender)] =
        (w.storage.owed sender).toNat := rfl
    have hbatches : eventSum batchAmount [.withdrawn sender (w.storage.owed sender)] = 0 := rfl
    have := hpull hmode
    omega
  · -- in push mode nobody is owed anything
    have hpos := hwithdraw.positive
    rw [(hpush hmode).1 sender] at hpos
    exact absurd hpos (by decide)

theorem Balanced.effect {d : Deployment σ} {timestamp : Word} {sender : Address} {call : Call}
    {w w' : World σ} (h : Balanced d w) (heffect : Effect d timestamp sender w w' call) :
    Balanced d w' := by
  cases heffect with
  | lock _ _ _ hlock => exact h.locked hlock
  | fulfillBatch _ _ _ _ _ hbatch => exact h.fulfilled hbatch
  | withdraw hwithdraw => exact h.withdrew hwithdraw
  | setTrustBaseAllowed _ _ hout _ => exact h.callsOut hout
  | transferAdmin _ hout _ => exact h.callsOut hout

theorem Balanced.fresh {d : Deployment σ} {w : World σ} (h : Fresh d w) : Balanced d w := by
  obtain ⟨_, hstorage⟩ := h.storage_eq
  refine ⟨fun _ => ?_, fun _ => ⟨fun account => ?_, ?_⟩⟩
  · simp [owedTotal, hstorage, h.log, eventSum]
  · rw [hstorage]
  · rw [h.transfers, h.log]
    rfl

/-- What a leaf pays: the fee is `feeAmount` when there is a fee recipient and the deadline has not
passed, and nothing otherwise; the principal is the rest of the amount. -/
structure Pays (timestamp : Word) (l : ReturnLeaf) (principal fee : Word) : Prop where
  due : l.feeRecipient ≠ ByteArr.zero 20 ∧ timestamp.toNat ≤ l.deadline.toNat → fee = l.feeAmount
  free : ¬ (l.feeRecipient ≠ ByteArr.zero 20 ∧ timestamp.toNat ≤ l.deadline.toNat) → fee = 0
  rest : principal.toNat + fee.toNat = l.amount.toNat

/-- Principals to the recipients and fees to the fee recipients, in the order of the leaves. -/
def payoutsOf (leaves : List ReturnLeaf) (amounts : List (Word × Word)) : List (Address × Word) :=
  (leaves.zip amounts).flatMap fun pair =>
    [(pair.1.recipient, pair.2.1), (pair.1.feeRecipient, pair.2.2)]

/-- The releases of some leaves with the fees that were paid. -/
def releasesOf (leaves : List ReturnLeaf) (amounts : List (Word × Word)) : List Event :=
  (leaves.zip amounts).map fun pair => .released pair.1.nullifier pair.1.recipient pair.1.amount
    pair.1.feeRecipient pair.2.2 pair.1.deadline

/-- What a successful call does to the custody of the vault. A payout addressed to the vault stays in
custody, the rest of a batch's total is sent, or in pull mode credited. -/
def CallCustody (d : Deployment σ) (timestamp : Word) (sender : Address) (w w' : World σ) :
    Call → Prop
  | .lock amount _ _ => ∃ before after, balance d w = some before ∧ balance d w' = some after ∧
      after.toNat = before.toNat + amount.toNat
  | .fulfillBatch publicValues _ leaves _ => ∃ pv, decodePublicValues publicValues = some pv ∧
      -- a principal and a fee for each leaf
      ∃ amounts, List.Forall₂ (fun l amount => Pays timestamp l amount.1 amount.2) leaves amounts ∧
      w'.ledger = w.ledger ++ .batchFulfilled pv.spentRootOld pv.spentRootNew pv.batchSize
        pv.totalAmount :: releasesOf leaves amounts ∧
      totalOf (paid d.self (payoutsOf leaves amounts)) +
        creditedTo d.self (payoutsOf leaves amounts) = pv.totalAmount.toNat ∧
      (d.pullPayments = true → w'.asset = w.asset ∧ w'.transfers = w.transfers ∧
        ∀ account, (w'.storage.owed account).toNat =
          (w.storage.owed account).toNat + creditedTo account (payoutsOf leaves amounts)) ∧
      (d.pullPayments = false → w'.storage.owed = w.storage.owed ∧
        w'.transfers = w.transfers ++ paid d.self (payoutsOf leaves amounts) ∧
        Fell d w w' (totalOf (paid d.self (payoutsOf leaves amounts))))
  | .withdraw => w'.storage.owed = Function.update w.storage.owed sender 0 ∧
      -- the vault never calls itself
      (sender ≠ d.self → w'.transfers = w.transfers ++ [(sender, w.storage.owed sender)] ∧
        Fell d w w' (w.storage.owed sender).toNat)
  | _ => balance d w' = balance d w ∧ w'.storage.owed = w.storage.owed ∧
      w'.transfers = w.transfers

/-- The amounts that the settlement loop computes. -/
def amountsDue (timestamp : Word) (l : ReturnLeaf) : Word × Word :=
  (l.amount - feeDue timestamp l, feeDue timestamp l)

theorem pays_amountsDue {timestamp : Word} {l : ReturnLeaf} (h : l.feeAmount ≤ l.amount) :
    Pays timestamp l (amountsDue timestamp l).1 (amountsDue timestamp l).2 where
  due hdue := if_pos hdue
  free hfree := if_neg hfree
  rest := by
    have hfee : feeDue timestamp l ≤ l.amount := feeDue_le h
    have hle := BitVec.le_def.1 hfee
    show (l.amount - feeDue timestamp l).toNat + (feeDue timestamp l).toNat = _
    rw [BitVec.toNat_sub_of_le hfee]
    omega

theorem forall₂_amountsDue {timestamp : Word} {leaves : List ReturnLeaf}
    (h : ∀ l ∈ leaves, l.feeAmount ≤ l.amount) :
    List.Forall₂ (fun l amount => Pays timestamp l amount.1 amount.2) leaves
      (leaves.map (amountsDue timestamp)) := by
  rw [List.forall₂_map_right_iff, List.forall₂_same]
  intro l hl
  exact pays_amountsDue (h l hl)

theorem releasesOf_amountsDue (timestamp : Word) (leaves : List ReturnLeaf) :
    releasesOf leaves (leaves.map (amountsDue timestamp)) = leaves.map (released timestamp) := by
  induction leaves with
  | nil => rfl
  | cons l rest ih => exact congrArg (released timestamp l :: ·) ih

theorem payoutsOf_amountsDue (timestamp : Word) (l : ReturnLeaf) (rest : List ReturnLeaf) :
    payoutsOf (l :: rest) ((l :: rest).map (amountsDue timestamp)) =
      [(l.recipient, l.amount - feeDue timestamp l), (l.feeRecipient, feeDue timestamp l)] ++
        payoutsOf rest (rest.map (amountsDue timestamp)) := rfl

theorem not_pos_iff {value : Word} : ¬ 0 < value ↔ value = 0 := by
  rw [BitVec.lt_def, ← BitVec.toNat_inj]
  exact Nat.not_lt.trans Nat.le_zero

/-- The loop skips a fee that is zero. Nothing of it would leave the vault. -/
theorem paid_amountsDue (self : Address) (timestamp : Word) (leaves : List ReturnLeaf) :
    paid self (payoutsOf leaves (leaves.map (amountsDue timestamp))) =
      paid self (payouts timestamp leaves) := by
  induction leaves with
  | nil => rfl
  | cons l rest ih =>
      have hcons : payouts timestamp (l :: rest) =
          leafPayouts timestamp l ++ payouts timestamp rest := rfl
      rw [payoutsOf_amountsDue, paid_append, ih, hcons, paid_append]
      congr 1
      by_cases hfee : 0 < feeDue timestamp l
      · rw [leafPayouts, if_pos hfee]
      · have hnothing : paid self [(l.feeRecipient, (0 : Word))] = [] := by simp [paid]
        rw [leafPayouts, if_neg hfee, not_pos_iff.1 hfee, ← List.singleton_append, paid_append,
          hnothing, List.append_nil]

/-- And no account would get anything of it. -/
theorem creditedTo_amountsDue (account : Address) (timestamp : Word) (leaves : List ReturnLeaf) :
    creditedTo account (payoutsOf leaves (leaves.map (amountsDue timestamp))) =
      creditedTo account (payouts timestamp leaves) := by
  induction leaves with
  | nil => rfl
  | cons l rest ih =>
      have hcons : payouts timestamp (l :: rest) =
          leafPayouts timestamp l ++ payouts timestamp rest := rfl
      rw [payoutsOf_amountsDue, creditedTo_append, ih, hcons, creditedTo_append]
      congr 1
      by_cases hfee : 0 < feeDue timestamp l
      · rw [leafPayouts, if_pos hfee]
      · rw [leafPayouts, if_neg hfee, not_pos_iff.1 hfee, creditedTo_cons, creditedTo_cons,
          creditedTo_cons]
        simp

theorem callCustody {d : Deployment σ} {timestamp : Word} {sender : Address} {call : Call}
    {w w' : World σ} (h : Effect d timestamp sender w w' call) :
    CallCustody d timestamp sender w w' call := by
  have hadmin : CallsOut w w' [] → w'.asset = w.asset →
      balance d w' = balance d w ∧ w'.storage.owed = w.storage.owed ∧
        w'.transfers = w.transfers := by
    intro hout hasset
    obtain ⟨_, _, hstorage⟩ := hout.storage
    refine ⟨by rw [balance, balance, hasset], by rw [hstorage], ?_⟩
    rw [hout.transfers, List.append_nil]
  cases h with
  | lock _ _ _ hlock => exact hlock.received
  | fulfillBatch _ _ leaves _ pv hbatch =>
      refine ⟨pv, hbatch.decoded, _, forall₂_amountsDue hbatch.checks.fees, ?_, ?_, ?_, ?_⟩
      · rw [releasesOf_amountsDue]
        exact hbatch.paid.ledger
      · rw [paid_amountsDue, creditedTo_amountsDue, totalOf_paid, totalOf_payouts hbatch.checks.fees,
          hbatch.checks.total]
      · simp only [creditedTo_amountsDue]
        exact hbatch.paid.pull
      · simp only [paid_amountsDue]
        exact hbatch.paid.push
  | withdraw hwithdraw =>
      obtain ⟨_, _, hstorage⟩ := hwithdraw.storage
      refine ⟨by rw [hstorage], fun hsender => ?_⟩
      have hpaid : paid d.self [(sender, w.storage.owed sender)] =
          [(sender, w.storage.owed sender)] := by
        refine paid_self fun payout hpayout => ?_
        obtain rfl := List.mem_singleton.1 hpayout
        exact ⟨hsender, (BitVec.ne_of_lt hwithdraw.positive).symm⟩
      have htransfers := hwithdraw.transfers
      have hfell := hwithdraw.fell
      rw [hpaid] at htransfers hfell
      exact ⟨htransfers, hfell⟩
  | setTrustBaseAllowed _ _ hout hasset => exact hadmin hout hasset
  | transferAdmin _ hout hasset => exact hadmin hout hasset

/-- **Custody is conserved over every run.** In every state a run reaches the sums balance, a call
that succeeds there moves exactly its amounts, and one that reverts changes nothing. -/
theorem custody_conserved {d : Deployment σ} {w₀ : World σ} (hfresh : Fresh d w₀)
    (transactions : List (Transaction σ)) :
    Balanced d (run d w₀ transactions) ∧ ∀ timestamp depth sender call,
      (∀ result w', execute d timestamp depth sender call (run d w₀ transactions) =
          .ok (result, w') →
        CallCustody d timestamp sender (run d w₀ transactions) w' call) ∧
      ∀ e, execute d timestamp depth sender call (run d w₀ transactions) = .error e →
        apply d (run d w₀ transactions) (.call timestamp depth sender call) =
          run d w₀ transactions := by
  refine ⟨run_invariant (fun hinv heffect => hinv.effect heffect)
    (fun state hinv => ⟨hinv.pull, hinv.push⟩) (.fresh hfresh) transactions, ?_⟩
  intro timestamp depth sender call
  refine ⟨fun result w' hok => callCustody (execute_cases hok), fun e herror => ?_⟩
  simp only [apply, herror]

/-! ## A vault over a plain token -/

namespace Sample

/-- A plain token as the vault sees it: its state is the vault's balance. -/
def token : Asset Word where
  balanceOf state _ := some state
  transferFrom state _ _ value := .finish (state + value) true
  transfer state _ value := .finish (state - value) true

/-- The admin of the sample, who also deposits. -/
def admin : Address := List.Vector.replicate 20 0xad

/-- A vault for a config, with a verifier that looks at the public values only. -/
def deployment (keccak256 : Bytes → Bytes32) (cfg : BridgeConfig) (pullPayments : Bool)
    (accepts : Bytes → Bool) : Deployment Word where
  self := cfg.vault
  vkey := ByteArr.zero 32
  domainTag := BridgeEncoding.domainTag keccak256
  configHash := BridgeEncoding.configHash keccak256 cfg
  sourceChainId := cfg.sourceChainId
  assetAddr := cfg.asset
  tokenType := cfg.tokenType
  coinId := cfg.coinId
  pullPayments := pullPayments
  verifyProof _ publicValues _ := accepts publicValues
  asset := token
  keccak256 := keccak256

/-- The vault right after deployment. -/
def world : World Word where
  storage := {
    admin := admin
    lockDigest := fun _ => ByteArr.zero 32
    nextNonce := 0
    tokenIdUsed := fun _ => false
    trustBaseAllowed := fun _ => false
    spentRoot := EMPTY_TREE_ROOT
    owed := fun _ => 0
    entered := 0 }
  asset := 0
  log := []
  transfers := []

theorem fresh (keccak256 : Bytes → Bytes32) (cfg : BridgeConfig) (pullPayments : Bool)
    (accepts : Bytes → Bool) (hasset : cfg.asset ≠ ByteArr.zero 20) :
    Fresh (deployment keccak256 cfg pullPayments accepts) world where
  constructed := by
    have hadmin : admin ≠ ByteArr.zero 20 := by decide
    refine ⟨cfg, admin, admin, ?_⟩
    simp only [construct, bind_eq_ok, ensure_eq_ok]
    exact ⟨(), hasset, (), hadmin, (), hadmin, rfl⟩
  log := rfl
  transfers := rfl

/-- The vault of the sample. -/
def config : BridgeConfig where
  sourceChainId := 1
  vault := List.Vector.replicate 20 0x11
  asset := List.Vector.replicate 20 0x22
  tokenType := ByteArr.zero 32
  coinId := ByteArr.zero 32
  reasonTag := 39048
  lockDomain := ByteArr.zero 32
  nullifierDomain := ByteArr.zero 32

/-- A vault whose digests are all zero and whose proofs are all good. -/
def vault (pullPayments : Bool) : Deployment Word :=
  deployment (fun _ => ByteArr.zero 32) config pullPayments fun _ => true

/-- A lock of twelve. -/
def lockCall : Call := .lock 12 (List.Vector.replicate 32 1) (List.Vector.replicate 32 2)

/-- A leaf that pays its fee up to time 100. -/
def early : ReturnLeaf where
  nullifier := List.Vector.replicate 32 3
  recipient := List.Vector.replicate 20 0x91
  amount := 7
  feeRecipient := List.Vector.replicate 20 0x92
  feeAmount := 2
  deadline := 100

/-- A leaf whose fee is for its recipient and was due up to time 10. -/
def late : ReturnLeaf where
  nullifier := List.Vector.replicate 32 4
  recipient := List.Vector.replicate 20 0x92
  amount := 5
  feeRecipient := List.Vector.replicate 20 0x92
  feeAmount := 1
  deadline := 10

/-- A batch of both leaves. -/
def batchCall : Call :=
  .fulfillBatch (BridgeEncoding.encodeWords [ByteArr.zero 32, ByteArr.zero 32, ByteArr.zero 32,
    EMPTY_TREE_ROOT, List.Vector.replicate 32 5, ByteArr.zero 32, ByteArr.zero 32,
    ByteArr.ofNat 32 2, ByteArr.ofNat 32 12]) [] [early, late] []

/-- What goes before the batch. -/
def prelude : List (Transaction Word) :=
  [.call 0 1 admin (.setTrustBaseAllowed (ByteArr.zero 32) true), .call 0 1 admin lockCall]

/-- A batch at time 50. -/
def batchRun : List (Transaction Word) := prelude ++ [.call 50 1 admin batchCall]

theorem exists_of_toBool {α : Type} {result : Except Revert (α × World Word)}
    (h : result.toBool = true) : ∃ value w', result = .ok (value, w') := by
  cases result with
  | ok pair => exact ⟨pair.1, pair.2, rfl⟩
  | error err => cases h

theorem batch_settles (pullPayments : Bool) : ∃ value w',
    execute (vault pullPayments) 50 1 admin batchCall (run (vault pullPayments) world prelude) =
      .ok (value, w') :=
  exists_of_toBool (by cases pullPayments <;> decide +kernel)

theorem late_withdraws : ∃ value w', execute (vault true) 60 1 late.recipient .withdraw
    (run (vault true) world batchRun) = .ok (value, w') :=
  exists_of_toBool (by decide +kernel)

end Sample

/-- In both modes the batch settles. In pull mode the fee recipient of one leaf, who is the recipient
of the other, then withdraws both. -/
theorem custody_conserved_sample :
    (∀ pullPayments, ∃ value w', execute (Sample.vault pullPayments) 50 1 Sample.admin
          Sample.batchCall (run (Sample.vault pullPayments) Sample.world Sample.prelude) =
        .ok (value, w') ∧
      CallCustody (Sample.vault pullPayments) 50 Sample.admin
        (run (Sample.vault pullPayments) Sample.world Sample.prelude) w' Sample.batchCall) ∧
    (run (Sample.vault false) Sample.world Sample.batchRun).transfers =
      [(Sample.early.recipient, 5), (Sample.late.recipient, 2), (Sample.late.recipient, 5)] ∧
    (run (Sample.vault true) Sample.world Sample.batchRun).storage.owed Sample.late.recipient = 7 ∧
    (∃ value w', execute (Sample.vault true) 60 1 Sample.late.recipient .withdraw
          (run (Sample.vault true) Sample.world Sample.batchRun) = .ok (value, w') ∧
      CallCustody (Sample.vault true) 60 Sample.late.recipient
        (run (Sample.vault true) Sample.world Sample.batchRun) w' .withdraw) ∧
    Balanced (Sample.vault true) (run (Sample.vault true) Sample.world
      (Sample.batchRun ++ [.call 60 1 Sample.late.recipient .withdraw])) := by
  have hfresh (pullPayments : Bool) : Fresh (Sample.vault pullPayments) Sample.world :=
    Sample.fresh _ _ _ _ (by decide)
  refine ⟨fun pullPayments => ?_, by decide +kernel, by decide +kernel, ?_,
    (custody_conserved (hfresh true) _).1⟩
  · obtain ⟨value, w', hok⟩ := Sample.batch_settles pullPayments
    exact ⟨value, w', hok, ((custody_conserved (hfresh pullPayments) _).2 _ _ _ _).1 _ _ hok⟩
  · obtain ⟨value, w', hok⟩ := Sample.late_withdraws
    exact ⟨value, w', hok, ((custody_conserved (hfresh true) _).2 _ _ _ _).1 _ _ hok⟩

end UnicityBridge.Vault
