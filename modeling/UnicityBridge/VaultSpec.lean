import UnicityBridge.Vault
import Mathlib.Algebra.BigOperators.Group.List.Basic
import Mathlib.Data.Fintype.Vector

/-!
# What a call of the vault does

One structure for each call says what the call did if it succeeded: `Locked`, `Fulfilled`,
`PaidOut` and `Administered`, collected in `execute_cases`.

While the vault is entered the asset can call back only into the admin functions, so across any
interaction the storage keeps everything but the admin and the allow-list (`CallsOut`). Admin events
may appear anywhere in the log. `ledger` is the log without them.
-/

set_option autoImplicit false

namespace UnicityBridge.Vault

open UnicityBridge.Lib UnicityBridge.Lib.Exec
open UnicityBridge.Core (Address BridgeConfig)

variable {σ : Type}

/-- An event of the admin's functions, which run also while a guarded call is open. -/
def Event.isAdmin : Event → Bool
  | .trustBaseAllowedUpdated _ _ => true
  | .adminTransferred _ _ => true
  | _ => false

/-- The log without the admin events. -/
def World.ledger (w : World σ) : List Event := w.log.filter fun event => !event.isAdmin

/-! ## Calls back -/

/-- The vault made the transfers `sent`; of its storage only the admin and the allow-list may have
changed. -/
structure CallsOut (w w' : World σ) (sent : List (Address × Word)) : Prop where
  storage : ∃ admin allowed,
    w'.storage = { w.storage with admin := admin, trustBaseAllowed := allowed }
  ledger : w'.ledger = w.ledger
  transfers : w'.transfers = w.transfers ++ sent

theorem CallsOut.refl (w : World σ) : CallsOut w w [] :=
  ⟨⟨w.storage.admin, w.storage.trustBaseAllowed, rfl⟩, rfl, (List.append_nil _).symm⟩

theorem CallsOut.setAsset (w : World σ) (state : σ) : CallsOut w (w.setAsset state) [] :=
  ⟨⟨w.storage.admin, w.storage.trustBaseAllowed, rfl⟩, rfl, (List.append_nil _).symm⟩

theorem CallsOut.trans {w w' w'' : World σ} {sent sent' : List (Address × Word)}
    (h : CallsOut w w' sent) (h' : CallsOut w' w'' sent') : CallsOut w w'' (sent ++ sent') := by
  obtain ⟨admin, allowed, hstorage⟩ := h.storage
  obtain ⟨admin', allowed', hstorage'⟩ := h'.storage
  refine ⟨⟨admin', allowed', ?_⟩, h'.ledger.trans h.ledger, ?_⟩
  · rw [hstorage', hstorage]
  · rw [h'.transfers, h.transfers, List.append_assoc]

theorem CallsOut.entered {w w' : World σ} {sent : List (Address × Word)} (h : CallsOut w w' sent) :
    w'.storage.entered = w.storage.entered := by
  obtain ⟨_, _, hstorage⟩ := h.storage
  rw [hstorage]

/-- Calls back made while the vault is entered only reach the admin functions. -/
def Guarded (reenter : Address → Call → Tx σ Returned) : Prop :=
  ∀ sender call w result w', w.storage.entered = 1 →
    reenter sender call w = .ok (result, w') → CallsOut w w' []

/-- By induction on the interaction: the asset may do anything to its own state. -/
theorem interact_ok {reenter : Address → Call → Tx σ Returned} (hguard : Guarded reenter)
    {interaction : Interaction σ} :
    ∀ {w w' : World σ} {ok : Bool}, w.storage.entered = 1 →
      interact reenter interaction w = .ok (ok, w') → CallsOut w w' [] := by
  induction interaction with
  | finish state success =>
      intro w w' ok _ h
      simp only [interact, bind_ok, update_ok, pure_ok] at h
      obtain ⟨-, _, rfl, -, rfl⟩ := h
      exact .setAsset w state
  | view next ih =>
      intro w w' ok hentered h
      simp only [interact, bind_ok, read_ok] at h
      obtain ⟨_, _, ⟨rfl, rfl⟩, h⟩ := h
      exact ih _ hentered h
  | reenter state sender call next ih =>
      intro w w' ok hentered h
      simp only [interact, bind_ok, update_ok, read_ok] at h
      obtain ⟨-, _, rfl, result, mid, hattempt, _, _, ⟨rfl, rfl⟩, h⟩ := h
      have hset := CallsOut.setAsset w state
      have hback : CallsOut (w.setAsset state) mid [] := by
        rcases attempt_ok hattempt with ⟨returned, -, hcall⟩ | ⟨-, rfl⟩
        · exact hguard sender call _ returned mid hentered hcall
        · exact .refl _
      have hmid := hset.trans hback
      exact hmid.trans (ih _ _ (hmid.entered.trans hentered) h)

theorem nonReentrant_ok {α : Type} {body : Tx σ α} {w w' : World σ} {result : α} :
    nonReentrant body w = .ok (result, w') ↔
      w.storage.entered = 0 ∧ ∃ mid,
        body (w.setStorage fun s => { s with entered := 1 }) = .ok (result, mid) ∧
          w' = mid.setStorage fun s => { s with entered := 0 } := by
  simp only [nonReentrant, bind_ok, read_ok, require_ok, update_ok, pure_ok]
  constructor
  · rintro ⟨_, _, ⟨rfl, rfl⟩, -, _, ⟨h0, rfl⟩, -, _, rfl, _, mid, hbody, -, _, rfl, rfl, rfl⟩
    exact ⟨h0, mid, hbody, rfl⟩
  · rintro ⟨h0, mid, hbody, rfl⟩
    exact ⟨_, _, ⟨rfl, rfl⟩, (), _, ⟨h0, rfl⟩, (), _, rfl, _, _, hbody, (), _, rfl, rfl, rfl⟩

theorem nonReentrant_entered {α : Type} {body : Tx σ α} {w w' : World σ} {result : α}
    (hentered : w.storage.entered = 1) : nonReentrant body w ≠ .ok (result, w') := by
  intro h
  have h0 := (nonReentrant_ok.1 h).1
  rw [hentered] at h0
  exact absurd h0 (by decide)

section Admin

theorem setTrustBaseAllowed_ok {sender : Address} {trustBaseHash : Bytes32} {allowed : Bool}
    {w w' : World σ} {u : Unit}
    (h : setTrustBaseAllowed sender trustBaseHash allowed w = .ok (u, w')) :
    CallsOut w w' [] ∧ w'.asset = w.asset := by
  simp only [setTrustBaseAllowed, onlyAdmin, bind_ok, read_ok, require_ok, update_ok] at h
  obtain ⟨-, _, ⟨_, _, ⟨rfl, rfl⟩, -, rfl⟩, -, _, rfl, rfl⟩ := h
  refine ⟨⟨⟨_, _, rfl⟩, ?_, (List.append_nil _).symm⟩, rfl⟩
  simp [World.ledger, World.emit, World.setStorage, Event.isAdmin]

theorem transferAdmin_ok {sender newAdmin : Address} {w w' : World σ} {u : Unit}
    (h : transferAdmin sender newAdmin w = .ok (u, w')) :
    CallsOut w w' [] ∧ w'.asset = w.asset := by
  simp only [transferAdmin, onlyAdmin, bind_ok, read_ok, require_ok, update_ok] at h
  obtain ⟨-, _, ⟨_, _, ⟨rfl, rfl⟩, -, rfl⟩, -, _, ⟨-, rfl⟩, _, _, ⟨rfl, rfl⟩, -, _, rfl, rfl⟩ := h
  refine ⟨⟨⟨_, _, rfl⟩, ?_, (List.append_nil _).symm⟩, rfl⟩
  simp [World.ledger, World.emit, World.setStorage, Event.isAdmin]

end Admin

/-- **While the vault is entered, only the admin functions can be called.** -/
theorem execute_guarded (d : Deployment σ) (timestamp : Word) (depth : Nat) :
    Guarded (execute d timestamp depth) := by
  intro sender call w result w' hentered h
  cases depth with
  | zero => exact absurd h fail_ok
  | succ depth =>
      cases call with
      | lock amount unicityTokenId recipientCommitment =>
          obtain ⟨_, _, hbody, -⟩ := bind_ok.1 h
          exact absurd hbody (nonReentrant_entered hentered)
      | fulfillBatch publicValues proof leaves lockRefs =>
          obtain ⟨_, _, hbody, -⟩ := bind_ok.1 h
          exact absurd hbody (nonReentrant_entered hentered)
      | withdraw =>
          obtain ⟨_, _, hbody, -⟩ := bind_ok.1 h
          exact absurd hbody (nonReentrant_entered hentered)
      | setTrustBaseAllowed trustBaseHash allowed =>
          obtain ⟨_, _, hbody, hpure⟩ := bind_ok.1 h
          obtain ⟨-, rfl⟩ := pure_ok.1 hpure
          exact (setTrustBaseAllowed_ok hbody).1
      | transferAdmin newAdmin =>
          obtain ⟨_, _, hbody, hpure⟩ := bind_ok.1 h
          obtain ⟨-, rfl⟩ := pure_ok.1 hpure
          exact (transferAdmin_ok hbody).1

/-! ## Moving the asset -/

/-- The balance the asset reports for the vault. -/
def balance (d : Deployment σ) (w : World σ) : Option Word := d.asset.balanceOf w.asset d.self

theorem held_ok {d : Deployment σ} {w w' : World σ} {b : Word} :
    held d w = .ok (b, w') ↔ balance d w = some b ∧ w = w' := by
  simp only [held, balance, bind_ok, read_ok, expect_ok]
  constructor
  · rintro ⟨_, _, ⟨rfl, rfl⟩, hb, rfl⟩
    exact ⟨hb, rfl⟩
  · rintro ⟨hb, rfl⟩
    exact ⟨_, _, ⟨rfl, rfl⟩, hb, rfl⟩

theorem checkedAdd_ok {a b c : Word} {w w' : World σ} :
    checkedAdd a b w = .ok (c, w') ↔ c.toNat = a.toNat + b.toNat ∧ w = w' := by
  unfold checkedAdd
  split
  · next hlt =>
    have hadd : (a + b).toNat = a.toNat + b.toNat := by
      rw [BitVec.toNat_add, Nat.mod_eq_of_lt hlt]
    rw [pure_ok, ← BitVec.toNat_inj, hadd, eq_comm]
  · next hge =>
    constructor
    · intro h
      exact absurd h fail_ok
    · rintro ⟨hc, -⟩
      have := c.isLt
      omega

theorem checkedSub_ok {a b c : Word} {w w' : World σ} :
    checkedSub a b w = .ok (c, w') ↔ c.toNat + b.toNat = a.toNat ∧ w = w' := by
  unfold checkedSub
  split
  · next hle =>
    have hsub : (a - b).toNat + b.toNat = a.toNat := by
      rw [BitVec.toNat_sub_of_le hle, Nat.sub_add_cancel hle]
    rw [pure_ok, ← BitVec.toNat_inj]
    constructor
    · rintro ⟨hc, rfl⟩
      exact ⟨hc ▸ hsub, rfl⟩
    · rintro ⟨hc, rfl⟩
      exact ⟨by omega, rfl⟩
  · next hlt =>
    constructor
    · intro h
      exact absurd h fail_ok
    · rintro ⟨hc, -⟩
      exact absurd (BitVec.le_def.2 (by omega)) hlt

theorem callAsset_ok {reenter : Address → Call → Tx σ Returned} (hguard : Guarded reenter)
    {interaction : Interaction σ} {failure : String} {w w' : World σ} {u : Unit}
    (hentered : w.storage.entered = 1)
    (h : callAsset reenter interaction failure w = .ok (u, w')) : CallsOut w w' [] := by
  simp only [callAsset, bind_ok, require_ok] at h
  obtain ⟨_, _, hinteract, -, rfl⟩ := h
  exact interact_ok hguard hentered hinteract

theorem receiveExactly_ok {d : Deployment σ} {reenter : Address → Call → Tx σ Returned}
    (hguard : Guarded reenter) {sender : Address} {value : Word} {w w' : World σ} {u : Unit}
    (hentered : w.storage.entered = 1)
    (h : receiveExactly d reenter sender value w = .ok (u, w')) :
    CallsOut w w' [] ∧ ∃ before after, balance d w = some before ∧ balance d w' = some after ∧
      after.toNat = before.toNat + value.toNat := by
  simp only [receiveExactly, bind_ok, held_ok, read_ok, checkedSub_ok, require_ok] at h
  obtain ⟨before, _, ⟨hbefore, rfl⟩, _, _, ⟨rfl, rfl⟩, _, _, hcall, after, _, ⟨hafter, rfl⟩, _, _,
    ⟨hsub, rfl⟩, rfl, rfl⟩ := h
  exact ⟨callAsset_ok hguard hentered hcall, before, after, hbefore, hafter, by omega⟩

/-- What of some payouts leaves the vault: not what is addressed to itself, and not nothing. -/
def paid (self : Address) (payouts : List (Address × Word)) : List (Address × Word) :=
  payouts.filter fun payout => payout.1 ≠ self ∧ payout.2 ≠ 0

/-- The sum of the payouts. -/
def totalOf (payouts : List (Address × Word)) : Nat :=
  (payouts.map fun payout => payout.2.toNat).sum

/-- The balance of the vault fell by `amount`. -/
def Fell (d : Deployment σ) (w w' : World σ) (amount : Nat) : Prop :=
  ∀ before, balance d w = some before →
    ∃ after, balance d w' = some after ∧ after.toNat + amount = before.toNat

theorem Fell.trans {d : Deployment σ} {w w' w'' : World σ} {amount amount' : Nat}
    (h : Fell d w w' amount) (h' : Fell d w' w'' amount') : Fell d w w'' (amount + amount') := by
  intro before hbefore
  obtain ⟨mid, hmid, hsum⟩ := h before hbefore
  obtain ⟨after, hafter, hsum'⟩ := h' mid hmid
  exact ⟨after, hafter, by omega⟩

theorem totalOf_append (xs ys : List (Address × Word)) :
    totalOf (xs ++ ys) = totalOf xs + totalOf ys := by
  simp [totalOf]

theorem paid_append (self : Address) (xs ys : List (Address × Word)) :
    paid self (xs ++ ys) = paid self xs ++ paid self ys :=
  List.filter_append ..

theorem sendExactly_ok {d : Deployment σ} {reenter : Address → Call → Tx σ Returned}
    (hguard : Guarded reenter) {recipient : Address} {value : Word} {w w' : World σ} {u : Unit}
    (hentered : w.storage.entered = 1)
    (h : sendExactly d reenter recipient value w = .ok (u, w')) :
    CallsOut w w' (paid d.self [(recipient, value)]) ∧
      Fell d w w' (totalOf (paid d.self [(recipient, value)])) := by
  unfold sendExactly at h
  split at h
  · next hself =>
    obtain ⟨-, rfl⟩ := pure_ok.1 h
    have hpaid : paid d.self [(recipient, value)] = [] := by
      rw [paid, List.filter_eq_nil_iff]
      intro payout hpayout hkept
      obtain rfl := List.mem_singleton.1 hpayout
      exact not_or.2 (of_decide_eq_true hkept) hself
    rw [hpaid]
    exact ⟨.refl w, fun before hbefore => ⟨before, hbefore, rfl⟩⟩
  · next hother =>
    rw [not_or] at hother
    simp only [bind_ok, held_ok, read_ok, update_ok, checkedSub_ok, require_ok] at h
    obtain ⟨before, _, ⟨hbefore, rfl⟩, _, _, ⟨rfl, rfl⟩, _, mid, hcall, _, _, rfl, after, _,
      ⟨hafter, rfl⟩, sent, _, ⟨hsub, rfl⟩, hsent, rfl⟩ := h
    have hpaid : paid d.self [(recipient, value)] = [(recipient, value)] := by
      rw [paid, List.filter_eq_self]
      intro payout hpayout
      obtain rfl := List.mem_singleton.1 hpayout
      exact decide_eq_true hother
    have hout := callAsset_ok hguard hentered hcall
    have hadd : CallsOut mid (mid.addTransfer recipient value) [(recipient, value)] :=
      ⟨⟨_, _, rfl⟩, rfl, rfl⟩
    rw [hpaid]
    refine ⟨hout.trans hadd, fun b hb => ⟨after, hafter, ?_⟩⟩
    obtain rfl : before = b := Option.some.inj (hbefore.symm.trans hb)
    rw [hsent] at hsub
    simp only [totalOf, List.map_cons, List.map_nil, List.sum_singleton]
    omega

/-! ## Paying out -/

/-- The part of some payouts that is addressed to `account`. -/
def creditedTo (account : Address) (payouts : List (Address × Word)) : Nat :=
  totalOf (payouts.filter fun payout => payout.1 = account)

theorem creditedTo_append (account : Address) (xs ys : List (Address × Word)) :
    creditedTo account (xs ++ ys) = creditedTo account xs + creditedTo account ys := by
  rw [creditedTo, List.filter_append, totalOf_append, creditedTo, creditedTo]

/-- The vault paid `payouts` and logged `events`: in pull mode it credited the payouts, in push mode
it sent what is not addressed to itself. -/
structure PaidOut (d : Deployment σ) (payouts : List (Address × Word)) (events : List Event)
    (w w' : World σ) : Prop where
  storage : ∃ admin allowed owed, w'.storage =
    { w.storage with admin := admin, trustBaseAllowed := allowed, owed := owed }
  ledger : w'.ledger = w.ledger ++ events
  pull : d.pullPayments = true → w'.asset = w.asset ∧ w'.transfers = w.transfers ∧
    ∀ account, (w'.storage.owed account).toNat =
      (w.storage.owed account).toNat + creditedTo account payouts
  push : d.pullPayments = false → w'.storage.owed = w.storage.owed ∧
    w'.transfers = w.transfers ++ paid d.self payouts ∧
      Fell d w w' (totalOf (paid d.self payouts))

namespace PaidOut

variable {d : Deployment σ} {payouts payouts' : List (Address × Word)} {events events' : List Event}
  {w w' w'' : World σ}

theorem entered (h : PaidOut d payouts events w w') : w'.storage.entered = w.storage.entered := by
  obtain ⟨_, _, _, hstorage⟩ := h.storage
  rw [hstorage]

theorem refl (d : Deployment σ) (w : World σ) : PaidOut d [] [] w w where
  storage := ⟨_, _, _, rfl⟩
  ledger := (List.append_nil _).symm
  pull _ := ⟨rfl, rfl, fun _ => rfl⟩
  push _ := ⟨rfl, (List.append_nil _).symm, fun before hbefore => ⟨before, hbefore, rfl⟩⟩

theorem trans (h : PaidOut d payouts events w w') (h' : PaidOut d payouts' events' w' w'') :
    PaidOut d (payouts ++ payouts') (events ++ events') w w'' where
  storage := by
    obtain ⟨_, _, _, hstorage⟩ := h.storage
    obtain ⟨admin, allowed, owed, hstorage'⟩ := h'.storage
    exact ⟨admin, allowed, owed, by rw [hstorage', hstorage]⟩
  ledger := by rw [h'.ledger, h.ledger, List.append_assoc]
  pull hmode := by
    obtain ⟨hasset, htransfers, howed⟩ := h.pull hmode
    obtain ⟨hasset', htransfers', howed'⟩ := h'.pull hmode
    refine ⟨hasset'.trans hasset, htransfers'.trans htransfers, fun account => ?_⟩
    rw [howed', howed, creditedTo_append, Nat.add_assoc]
  push hmode := by
    obtain ⟨howed, htransfers, hfell⟩ := h.push hmode
    obtain ⟨howed', htransfers', hfell'⟩ := h'.push hmode
    refine ⟨howed'.trans howed, ?_, ?_⟩
    · rw [htransfers', htransfers, paid_append, List.append_assoc]
    · rw [paid_append, totalOf_append]
      exact hfell.trans hfell'

/-- An event that is no admin event. -/
theorem emit (d : Deployment σ) (w : World σ) {event : Event} (hevent : event.isAdmin = false) :
    PaidOut d [] [event] w (w.emit event) where
  storage := ⟨_, _, _, rfl⟩
  ledger := by simp [World.ledger, World.emit, hevent]
  pull _ := ⟨rfl, rfl, fun _ => rfl⟩
  push _ := ⟨rfl, (List.append_nil _).symm, fun before hbefore => ⟨before, hbefore, rfl⟩⟩

end PaidOut

theorem credit_ok {account : Address} {value : Word} {w w' : World σ} {u : Unit} :
    credit account value w = .ok (u, w') ↔
      ∃ after : Word, after.toNat = (w.storage.owed account).toNat + value.toNat ∧
        w' = w.setStorage fun s => { s with owed := Function.update s.owed account after } := by
  simp only [credit, bind_ok, read_ok, checkedAdd_ok, update_ok]
  constructor
  · rintro ⟨_, _, ⟨rfl, rfl⟩, after, _, ⟨hafter, rfl⟩, rfl⟩
    exact ⟨after, hafter, rfl⟩
  · rintro ⟨after, hafter, rfl⟩
    exact ⟨_, _, ⟨rfl, rfl⟩, after, _, ⟨hafter, rfl⟩, rfl⟩

theorem payOut_ok {d : Deployment σ} {reenter : Address → Call → Tx σ Returned}
    (hguard : Guarded reenter) {recipient : Address} {value : Word} {w w' : World σ} {u : Unit}
    (hentered : w.storage.entered = 1) (h : payOut d reenter recipient value w = .ok (u, w')) :
    PaidOut d [(recipient, value)] [] w w' := by
  unfold payOut at h
  split at h
  · next hmode =>
    obtain ⟨after, hafter, rfl⟩ := credit_ok.1 h
    refine ⟨⟨_, _, _, rfl⟩, (List.append_nil _).symm, fun _ => ⟨rfl, rfl, fun account => ?_⟩, ?_⟩
    · by_cases haccount : recipient = account
      · subst haccount
        simp [World.setStorage, hafter, creditedTo, totalOf]
      · simp [World.setStorage, Function.update_of_ne (Ne.symm haccount), haccount, creditedTo,
          totalOf]
    · intro hpush
      rw [hpush] at hmode
      cases hmode
  · next hmode =>
    obtain ⟨hout, hfell⟩ := sendExactly_ok hguard hentered h
    obtain ⟨admin, allowed, hstorage⟩ := hout.storage
    refine ⟨⟨admin, allowed, w.storage.owed, by rw [hstorage]⟩, by rw [hout.ledger, List.append_nil],
      fun hpull => absurd hpull hmode, fun _ => ⟨by rw [hstorage], hout.transfers, hfell⟩⟩

/-- The payouts of a leaf. -/
def leafPayouts (timestamp : Word) (l : ReturnLeaf) : List (Address × Word) :=
  (l.recipient, l.amount - feeDue timestamp l) ::
    if 0 < feeDue timestamp l then [(l.feeRecipient, feeDue timestamp l)] else []

/-- The event of a settled leaf. -/
def released (timestamp : Word) (l : ReturnLeaf) : Event :=
  .released l.nullifier l.recipient l.amount l.feeRecipient (feeDue timestamp l) l.deadline

theorem settleLeaf_ok {d : Deployment σ} {timestamp : Word}
    {reenter : Address → Call → Tx σ Returned} (hguard : Guarded reenter) {l : ReturnLeaf}
    {w w' : World σ} {u : Unit} (hentered : w.storage.entered = 1)
    (h : settleLeaf d timestamp reenter l w = .ok (u, w')) :
    PaidOut d (leafPayouts timestamp l) [released timestamp l] w w' := by
  simp only [settleLeaf, bind_ok, checkedSub_ok, update_ok] at h
  obtain ⟨principal, _, ⟨hprincipal, rfl⟩, _, mid, hfirst, _, mid', hfee, rfl⟩ := h
  have hvalue : principal = l.amount - feeDue timestamp l := by
    have hle : feeDue timestamp l ≤ l.amount := BitVec.le_def.2 (by omega)
    rw [← BitVec.toNat_inj, BitVec.toNat_sub_of_le hle]
    omega
  have hpaid := payOut_ok hguard hentered hfirst
  have hemit : PaidOut d [] [released timestamp l] mid' (mid'.emit (released timestamp l)) :=
    .emit d mid' rfl
  rw [hvalue] at hpaid
  unfold leafPayouts
  split at hfee
  · next hpos =>
    rw [if_pos hpos]
    have hfeePaid := payOut_ok hguard (hpaid.entered.trans hentered) hfee
    exact (hpaid.trans hfeePaid).trans hemit
  · next hzero =>
    obtain ⟨-, rfl⟩ := pure_ok.1 hfee
    rw [if_neg hzero]
    exact hpaid.trans hemit

/-- All payouts of a batch, in order. -/
def payouts (timestamp : Word) (leaves : List ReturnLeaf) : List (Address × Word) :=
  leaves.flatMap (leafPayouts timestamp)

/-- **The settlement loop pays every leaf.** -/
theorem settleLeaves_ok {d : Deployment σ} {timestamp : Word}
    {reenter : Address → Call → Tx σ Returned} (hguard : Guarded reenter)
    {leaves : List ReturnLeaf} {w w' : World σ} (hentered : w.storage.entered = 1)
    (h : leaves.forM (settleLeaf d timestamp reenter) w = .ok (⟨⟩, w')) :
    PaidOut d (payouts timestamp leaves) (leaves.map (released timestamp)) w w' := by
  refine forM_invariant (fun done s =>
    PaidOut d (payouts timestamp done) (done.map (released timestamp)) w s) ?_ (.refl d w) h
  intro done l s s' hdone hbody
  have hboth := hdone.trans (settleLeaf_ok hguard (hdone.entered.trans hentered) hbody)
  simpa [payouts] using hboth

/-- The sum of the amounts of some leaves. -/
def amountSum (leaves : List ReturnLeaf) : Nat := (leaves.map fun l => l.amount.toNat).sum

theorem feeDue_le {timestamp : Word} {l : ReturnLeaf} (h : l.feeAmount ≤ l.amount) :
    feeDue timestamp l ≤ l.amount := by
  unfold feeDue
  split
  · exact h
  · exact BitVec.le_def.2 (Nat.zero_le _)

/-- **A leaf's payouts are its amount.** -/
theorem totalOf_leafPayouts {timestamp : Word} {l : ReturnLeaf} (h : l.feeAmount ≤ l.amount) :
    totalOf (leafPayouts timestamp l) = l.amount.toNat := by
  have hfee : feeDue timestamp l ≤ l.amount := feeDue_le h
  have hle := BitVec.le_def.1 hfee
  unfold leafPayouts
  split
  · simp only [totalOf, List.map_cons, List.map_nil, List.sum_cons, List.sum_nil,
      BitVec.toNat_sub_of_le hfee]
    omega
  · next hzero =>
    have h0 : (feeDue timestamp l).toNat = 0 := by
      have := mt BitVec.lt_def.2 hzero
      simpa using this
    simp only [totalOf, List.map_cons, List.map_nil, List.sum_cons, List.sum_nil,
      BitVec.toNat_sub_of_le hfee]
    omega

/-! ## The checks of a batch -/

theorem checkLockRefs_ok {previous : Option Word} {lockRefs : List SourceLockRef}
    {w w' : World σ} {u : Unit} :
    checkLockRefs previous lockRefs w = .ok (u, w') ↔
      (previous.toList ++ lockRefs.map SourceLockRef.nonce).IsChain (· < ·) ∧
        (∀ r ∈ lockRefs, w.storage.lockDigest r.nonce = r.digest) ∧ w = w' := by
  induction lockRefs generalizing previous w with
  | nil =>
      rw [checkLockRefs, pure_ok]
      cases previous <;> simp
  | cons r rest ih =>
      simp only [checkLockRefs, bind_ok, require_ok, read_ok, ih]
      have hprevious : (previous.toList ++ (r :: rest).map SourceLockRef.nonce).IsChain (· < ·) ↔
          (∀ nonce ∈ previous, nonce < r.nonce) ∧
            ((some r.nonce).toList ++ rest.map SourceLockRef.nonce).IsChain (· < ·) := by
        cases previous <;> simp
      rw [hprevious, List.forall_mem_cons]
      constructor
      · rintro ⟨_, _, ⟨hlt, rfl⟩, _, _, ⟨rfl, rfl⟩, _, _, ⟨hdigest, rfl⟩, hchain, hdigests, rfl⟩
        exact ⟨⟨hlt, hchain⟩, ⟨hdigest, hdigests⟩, rfl⟩
      · rintro ⟨⟨hlt, hchain⟩, ⟨hdigest, hdigests⟩, rfl⟩
        exact ⟨(), _, ⟨hlt, rfl⟩, _, _, ⟨rfl, rfl⟩, (), _, ⟨hdigest, rfl⟩, hchain, hdigests, rfl⟩

theorem foldlM_addLeaf_ok {leaves : List ReturnLeaf} {start total : Word} {w w' : World σ} :
    leaves.foldlM addLeaf start w = .ok (total, w') ↔
      (∀ l ∈ leaves, l.feeAmount ≤ l.amount) ∧
        total.toNat = start.toNat + amountSum leaves ∧ w = w' := by
  induction leaves generalizing start w with
  | nil =>
      rw [List.foldlM_nil, pure_ok, ← BitVec.toNat_inj]
      simp [amountSum, eq_comm]
  | cons l rest ih =>
      have hsum : amountSum (l :: rest) = l.amount.toNat + amountSum rest := rfl
      rw [List.foldlM_cons, bind_ok, List.forall_mem_cons, hsum]
      simp only [addLeaf, bind_ok, require_ok, checkedAdd_ok, ih]
      constructor
      · rintro ⟨mid, _, ⟨_, _, ⟨hfee, rfl⟩, hmid, rfl⟩, hfees, htotal, rfl⟩
        exact ⟨⟨hfee, hfees⟩, by omega, rfl⟩
      · rintro ⟨⟨hfee, hfees⟩, htotal, rfl⟩
        have hlt := total.isLt
        have hmid : (start + l.amount).toNat = start.toNat + l.amount.toNat := by
          rw [BitVec.toNat_add, Nat.mod_eq_of_lt (by omega)]
        exact ⟨start + l.amount, w, ⟨(), w, ⟨hfee, rfl⟩, hmid, rfl⟩, hfees, by omega, rfl⟩

/-- What the checks of `fulfillBatch` establish. -/
structure BatchChecks (d : Deployment σ) (storage : Storage) (pv : PublicValues)
    (leaves : List ReturnLeaf) (lockRefs : List SourceLockRef) : Prop where
  domainTag : pv.domainTag = d.domainTag
  configHash : pv.configHash = d.configHash
  trustBase : storage.trustBaseAllowed pv.trustBaseHash = true
  spentRootOld : pv.spentRootOld = storage.spentRoot
  nonempty : 0 < leaves.length
  batchSize : pv.batchSize.toNat = leaves.length
  returnRoot : pv.returnRoot = BridgeEncoding.returnRoot d.keccak256 leaves
  lockRefRoot : pv.lockRefRoot = BridgeEncoding.lockRefRoot d.keccak256 lockRefs
  sorted : (lockRefs.map SourceLockRef.nonce).IsChain (· < ·)
  digests : ∀ r ∈ lockRefs, storage.lockDigest r.nonce = r.digest
  fees : ∀ l ∈ leaves, l.feeAmount ≤ l.amount
  total : pv.totalAmount.toNat = amountSum leaves

theorem checkBatch_ok {d : Deployment σ} {pv : PublicValues} {leaves : List ReturnLeaf}
    {lockRefs : List SourceLockRef} {w w' : World σ} {u : Unit} :
    checkBatch d pv leaves lockRefs w = .ok (u, w') ↔
      BatchChecks d w.storage pv leaves lockRefs ∧ w = w' := by
  simp only [checkBatch, require_bind, read_bind, gt_iff_lt]
  constructor
  · rintro ⟨htag, hconfig, htrust, hold, hne, hsize, hreturn, href, h⟩
    obtain ⟨_, _, hrefs, h⟩ := bind_ok.1 h
    obtain ⟨hsorted, hdigests, rfl⟩ := checkLockRefs_ok.1 hrefs
    obtain ⟨total, _, hsum, h⟩ := bind_ok.1 h
    obtain ⟨hfees, htotal, rfl⟩ := foldlM_addLeaf_ok.1 hsum
    obtain ⟨hpv, rfl⟩ := require_ok.1 h
    refine ⟨⟨htag, hconfig, htrust, hold, hne, hsize, hreturn, href, hsorted, hdigests, hfees, ?_⟩,
      rfl⟩
    rw [← hpv, htotal]
    simp
  · rintro ⟨h, rfl⟩
    have hrefs : checkLockRefs none lockRefs w = .ok ((), w) :=
      checkLockRefs_ok.2 ⟨h.sorted, h.digests, rfl⟩
    have hsum : leaves.foldlM addLeaf 0 w = .ok (pv.totalAmount, w) :=
      foldlM_addLeaf_ok.2 ⟨h.fees, by simp [h.total], rfl⟩
    refine ⟨h.domainTag, h.configHash, h.trustBase, h.spentRootOld, h.nonempty, h.batchSize,
      h.returnRoot, h.lockRefRoot, ?_⟩
    rw [bind_of_ok hrefs, bind_of_ok hsum, require_ok]
    exact ⟨rfl, rfl⟩

theorem totalOf_payouts {timestamp : Word} {leaves : List ReturnLeaf}
    (h : ∀ l ∈ leaves, l.feeAmount ≤ l.amount) :
    totalOf (payouts timestamp leaves) = amountSum leaves := by
  induction leaves with
  | nil => rfl
  | cons l rest ih =>
      have hcons : payouts timestamp (l :: rest) =
          leafPayouts timestamp l ++ payouts timestamp rest := rfl
      rw [hcons, totalOf_append, totalOf_leafPayouts (h l List.mem_cons_self),
        ih fun l' hl' => h l' (List.mem_cons_of_mem l hl')]
      rfl

/-! ## Calls -/

/-- A successful `lock`. -/
structure Locked (d : Deployment σ) (sender : Address) (amount : Word)
    (unicityTokenId recipientCommitment : Bytes32) (w w' : World σ) : Prop where
  entered : w.storage.entered = 0
  positive : 0 < amount
  bounded : amount.toNat ≤ 2 ^ 64 - 1
  tokenId : unicityTokenId ≠ ByteArr.zero 32
  recipient : recipientCommitment ≠ ByteArr.zero 32
  unused : w.storage.tokenIdUsed unicityTokenId = false
  storage : ∃ admin allowed next, next.toNat = w.storage.nextNonce.toNat + 1 ∧
    w'.storage = { w.storage with
      admin := admin
      trustBaseAllowed := allowed
      tokenIdUsed := Function.update w.storage.tokenIdUsed unicityTokenId true
      nextNonce := next
      lockDigest := Function.update w.storage.lockDigest w.storage.nextNonce
        (BridgeEncoding.lockDigest d.keccak256 d.sourceChainId d.self w.storage.nextNonce
          d.assetAddr d.tokenType d.coinId amount unicityTokenId recipientCommitment) }
  ledger : w'.ledger = w.ledger ++
    [.lock w.storage.nextNonce sender amount unicityTokenId recipientCommitment]
  transfers : w'.transfers = w.transfers
  received : ∃ before after, balance d w = some before ∧ balance d w' = some after ∧
    after.toNat = before.toNat + amount.toNat

/-- A successful `fulfillBatch`. -/
structure Fulfilled (d : Deployment σ) (timestamp : Word) (publicValues proof : Bytes)
    (leaves : List ReturnLeaf) (lockRefs : List SourceLockRef) (pv : PublicValues)
    (w w' : World σ) : Prop where
  entered : w.storage.entered = 0
  proven : d.verifyProof d.vkey publicValues proof = true
  decoded : decodePublicValues publicValues = some pv
  checks : BatchChecks d w.storage pv leaves lockRefs
  paid : PaidOut d (payouts timestamp leaves)
    (.batchFulfilled pv.spentRootOld pv.spentRootNew pv.batchSize pv.totalAmount ::
      leaves.map (released timestamp))
    (w.setStorage fun s => { s with spentRoot := pv.spentRootNew }) w'

/-- A successful `withdraw`. -/
structure Withdrew (d : Deployment σ) (sender : Address) (w w' : World σ) : Prop where
  entered : w.storage.entered = 0
  positive : 0 < w.storage.owed sender
  storage : ∃ admin allowed, w'.storage = { w.storage with
    admin := admin
    trustBaseAllowed := allowed
    owed := Function.update w.storage.owed sender 0 }
  ledger : w'.ledger = w.ledger ++ [.withdrawn sender (w.storage.owed sender)]
  transfers : w'.transfers = w.transfers ++ paid d.self [(sender, w.storage.owed sender)]
  fell : Fell d w w' (totalOf (paid d.self [(sender, w.storage.owed sender)]))

/-- Leaving the vault undoes entering it. -/
theorem PaidOut.leave {d : Deployment σ} {payouts : List (Address × Word)} {events : List Event}
    {w mid : World σ} (hentered : w.storage.entered = 0)
    (h : PaidOut d payouts events (w.setStorage fun s => { s with entered := 1 }) mid) :
    PaidOut d payouts events w (mid.setStorage fun s => { s with entered := 0 }) := by
  obtain ⟨admin, allowed, owed, hstorage⟩ := h.storage
  refine ⟨⟨admin, allowed, owed, ?_⟩, h.ledger, h.pull, h.push⟩
  simp only [World.setStorage] at hstorage ⊢
  rw [hstorage, ← hentered]

theorem lock_ok {d : Deployment σ} {reenter : Address → Call → Tx σ Returned}
    (hguard : Guarded reenter) {sender : Address} {amount : Word}
    {unicityTokenId recipientCommitment : Bytes32} {w w' : World σ} {nonce : Word}
    (h : nonReentrant (lock d reenter sender amount unicityTokenId recipientCommitment) w =
      .ok (nonce, w')) :
    nonce = w.storage.nextNonce ∧
      Locked d sender amount unicityTokenId recipientCommitment w w' := by
  obtain ⟨h0, mid, hbody, rfl⟩ := nonReentrant_ok.1 h
  simp only [lock, require_bind, read_bind, update_bind] at hbody
  obtain ⟨hpos, hbound, htoken, hrecipient, hunused, hbody⟩ := hbody
  obtain ⟨next, _, hadd, hbody⟩ := bind_ok.1 hbody
  obtain ⟨hnext, rfl⟩ := checkedAdd_ok.1 hadd
  simp only [update_bind] at hbody
  obtain ⟨_, _, hreceive, hpure⟩ := bind_ok.1 hbody
  obtain ⟨rfl, rfl⟩ := pure_ok.1 hpure
  obtain ⟨hout, before, after, hbefore, hafter, hsum⟩ := receiveExactly_ok hguard rfl hreceive
  obtain ⟨admin, allowed, hstorage⟩ := hout.storage
  refine ⟨rfl, ⟨h0, hpos, hbound, htoken, hrecipient, hunused, ⟨admin, allowed, next, hnext, ?_⟩, ?_,
    ?_, before, after, hbefore, hafter, hsum⟩⟩
  · simp only [World.setStorage, World.emit] at hstorage ⊢
    rw [hstorage, ← h0]
  · have hledger := hout.ledger
    simp only [World.ledger, World.setStorage, World.emit, List.filter_append] at hledger ⊢
    rw [hledger]
    rfl
  · rw [← List.append_nil w.transfers]
    exact hout.transfers

theorem fulfillBatch_ok {d : Deployment σ} {timestamp : Word}
    {reenter : Address → Call → Tx σ Returned} (hguard : Guarded reenter)
    {publicValues proof : Bytes} {leaves : List ReturnLeaf} {lockRefs : List SourceLockRef}
    {w w' : World σ} {u : Unit}
    (h : nonReentrant (fulfillBatch d timestamp reenter publicValues proof leaves lockRefs) w =
      .ok (u, w')) :
    ∃ pv, Fulfilled d timestamp publicValues proof leaves lockRefs pv w w' := by
  obtain ⟨h0, mid, hbody, rfl⟩ := nonReentrant_ok.1 h
  simp only [fulfillBatch, require_bind, expect_bind] at hbody
  obtain ⟨hproof, pv, hdecode, hbody⟩ := hbody
  obtain ⟨_, _, hcheck, hloop⟩ := bind_ok.1 hbody
  obtain ⟨hchecks, rfl⟩ := checkBatch_ok.1 hcheck
  simp only [update_bind] at hloop
  have hpaid := settleLeaves_ok hguard rfl hloop
  have hchecks' : BatchChecks d w.storage pv leaves lockRefs := by
    cases hchecks
    constructor <;> assumption
  have hemit : PaidOut d []
      [.batchFulfilled pv.spentRootOld pv.spentRootNew pv.batchSize pv.totalAmount] _ _ :=
    .emit d ((w.setStorage fun s => { s with spentRoot := pv.spentRootNew }).setStorage
      fun s => { s with entered := 1 }) rfl
  exact ⟨pv, h0, hproof, hdecode, hchecks', (hemit.trans hpaid).leave h0⟩

theorem withdraw_ok {d : Deployment σ} {reenter : Address → Call → Tx σ Returned}
    (hguard : Guarded reenter) {sender : Address} {w w' : World σ} {amount : Word}
    (h : nonReentrant (withdraw d reenter sender) w = .ok (amount, w')) :
    amount = w.storage.owed sender ∧ Withdrew d sender w w' := by
  obtain ⟨h0, mid, hbody, rfl⟩ := nonReentrant_ok.1 h
  simp only [withdraw, require_bind, read_bind, update_bind] at hbody
  obtain ⟨hpos, hbody⟩ := hbody
  obtain ⟨_, _, hsend, hpure⟩ := bind_ok.1 hbody
  obtain ⟨rfl, rfl⟩ := pure_ok.1 hpure
  obtain ⟨hout, hfell⟩ := sendExactly_ok hguard rfl hsend
  obtain ⟨admin, allowed, hstorage⟩ := hout.storage
  refine ⟨rfl, ⟨h0, hpos, ⟨admin, allowed, ?_⟩, ?_, hout.transfers, hfell⟩⟩
  · simp only [World.setStorage, World.emit] at hstorage ⊢
    rw [hstorage, ← h0]
  · have hledger := hout.ledger
    simp only [World.ledger, World.setStorage, World.emit, List.filter_append] at hledger ⊢
    rw [hledger]
    rfl

/-- What a successful call did. -/
inductive Effect (d : Deployment σ) (timestamp : Word) (sender : Address) (w w' : World σ) :
    Call → Prop where
  | lock (amount : Word) (unicityTokenId recipientCommitment : Bytes32)
      (h : Locked d sender amount unicityTokenId recipientCommitment w w') :
      Effect d timestamp sender w w' (.lock amount unicityTokenId recipientCommitment)
  | fulfillBatch (publicValues proof : Bytes) (leaves : List ReturnLeaf)
      (lockRefs : List SourceLockRef) (pv : PublicValues)
      (h : Fulfilled d timestamp publicValues proof leaves lockRefs pv w w') :
      Effect d timestamp sender w w' (.fulfillBatch publicValues proof leaves lockRefs)
  | withdraw (h : Withdrew d sender w w') : Effect d timestamp sender w w' .withdraw
  | setTrustBaseAllowed (trustBaseHash : Bytes32) (allowed : Bool) (h : CallsOut w w' [])
      (hasset : w'.asset = w.asset) :
      Effect d timestamp sender w w' (.setTrustBaseAllowed trustBaseHash allowed)
  | transferAdmin (newAdmin : Address) (h : CallsOut w w' []) (hasset : w'.asset = w.asset) :
      Effect d timestamp sender w w' (.transferAdmin newAdmin)

/-- **What a call does if it succeeds**, whatever the asset does in between. -/
theorem execute_cases {d : Deployment σ} {timestamp : Word} {depth : Nat} {sender : Address}
    {call : Call} {w w' : World σ} {result : Returned}
    (h : execute d timestamp depth sender call w = .ok (result, w')) :
    Effect d timestamp sender w w' call := by
  cases depth with
  | zero => exact absurd h fail_ok
  | succ depth =>
      have hguard := execute_guarded d timestamp depth
      cases call with
      | lock amount unicityTokenId recipientCommitment =>
          obtain ⟨_, _, hbody, hpure⟩ := bind_ok.1 h
          obtain ⟨-, rfl⟩ := pure_ok.1 hpure
          exact .lock _ _ _ (lock_ok hguard hbody).2
      | fulfillBatch publicValues proof leaves lockRefs =>
          obtain ⟨_, _, hbody, hpure⟩ := bind_ok.1 h
          obtain ⟨-, rfl⟩ := pure_ok.1 hpure
          obtain ⟨pv, hfulfilled⟩ := fulfillBatch_ok hguard hbody
          exact .fulfillBatch _ _ _ _ pv hfulfilled
      | withdraw =>
          obtain ⟨_, _, hbody, hpure⟩ := bind_ok.1 h
          obtain ⟨-, rfl⟩ := pure_ok.1 hpure
          exact .withdraw (withdraw_ok hguard hbody).2
      | setTrustBaseAllowed trustBaseHash allowed =>
          obtain ⟨_, _, hbody, hpure⟩ := bind_ok.1 h
          obtain ⟨-, rfl⟩ := pure_ok.1 hpure
          obtain ⟨hout, hasset⟩ := setTrustBaseAllowed_ok hbody
          exact .setTrustBaseAllowed _ _ hout hasset
      | transferAdmin newAdmin =>
          obtain ⟨_, _, hbody, hpure⟩ := bind_ok.1 h
          obtain ⟨-, rfl⟩ := pure_ok.1 hpure
          obtain ⟨hout, hasset⟩ := transferAdmin_ok hbody
          exact .transferAdmin _ hout hasset

/-! ## The first state -/

/-- What the constructor leaves in the storage. -/
theorem Fresh.storage_eq {d : Deployment σ} {w : World σ} (h : Fresh d w) :
    ∃ admin, w.storage = {
      admin := admin
      lockDigest := fun _ => ByteArr.zero 32
      nextNonce := 0
      tokenIdUsed := fun _ => false
      trustBaseAllowed := fun _ => false
      spentRoot := EMPTY_TREE_ROOT
      owed := fun _ => 0
      entered := 0 } := by
  obtain ⟨cfg, verifier, admin, hconstruct⟩ := h.constructed
  simp only [construct, bind_eq_ok, ensure_eq_ok, Except.ok.injEq, Prod.mk.injEq] at hconstruct
  obtain ⟨-, -, -, -, -, -, -, hstorage⟩ := hconstruct
  exact ⟨admin, hstorage.symm⟩

/-- A call changes the world to that of its success or leaves it. -/
theorem apply_call {d : Deployment σ} {w : World σ} {timestamp : Word} {depth : Nat}
    {sender : Address} {call : Call} :
    (∃ result w', execute d timestamp depth sender call w = .ok (result, w') ∧
        apply d w (.call timestamp depth sender call) = w') ∨
      ((∃ e, execute d timestamp depth sender call w = .error e) ∧
        apply d w (.call timestamp depth sender call) = w) := by
  simp only [apply]
  cases hcall : execute d timestamp depth sender call w with
  | ok p => exact .inl ⟨p.1, p.2, rfl, rfl⟩
  | error e => exact .inr ⟨⟨e, rfl⟩, rfl⟩

theorem run_append (d : Deployment σ) (w : World σ) (transactions more : List (Transaction σ)) :
    run d w (transactions ++ more) = run d (run d w transactions) more :=
  List.foldl_append ..

theorem settled_append (d : Deployment σ) (w : World σ) (transactions more : List (Transaction σ)) :
    settled d w (transactions ++ more) =
      settled d w transactions ++ settled d (run d w transactions) more := by
  induction transactions generalizing w with
  | nil => rfl
  | cons transaction rest ih =>
      show _ ++ settled d _ (rest ++ more) = _
      rw [ih, settled, List.append_assoc]
      rfl

section Settled

variable {d : Deployment σ} {w : World σ} {timestamp : Word} {depth : Nat} {sender : Address}
  {publicValues proof : Bytes} {leaves : List ReturnLeaf} {lockRefs : List SourceLockRef}

end Settled

/-- **What every transaction keeps, every run keeps.** A transaction is a call that succeeds or a move
of the asset. -/
theorem run_invariant {d : Deployment σ} {Inv : World σ → Prop}
    (hcall : ∀ {timestamp sender call w w'}, Inv w → Effect d timestamp sender w w' call → Inv w')
    (hasset : ∀ {w} state, Inv w → Inv (w.setAsset state)) {w : World σ} (h : Inv w)
    (transactions : List (Transaction σ)) : Inv (run d w transactions) := by
  induction transactions generalizing w with
  | nil => exact h
  | cons transaction rest ih =>
      refine ih ?_
      cases transaction with
      | asset state => exact hasset state h
      | call timestamp depth sender call =>
          rcases apply_call (d := d) (w := w) with ⟨result, w', hok, heq⟩ | ⟨-, heq⟩
          · rw [heq]
            exact hcall h (execute_cases hok)
          · rw [heq]
            exact h

end UnicityBridge.Vault
