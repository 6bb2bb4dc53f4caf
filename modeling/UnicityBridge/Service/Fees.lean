import UnicityBridge.Service.Records
import UnicityBridge.Lib.Numerals

/-!
# The fee policy

`domain/fee.rs`: what a service asks for a return, how it quotes that to wallets, and why it refuses a
burn. Times are in seconds of 64 bits and sums of them stop at the last one.
-/

set_option autoImplicit false

namespace UnicityBridge.Service

open UnicityBridge.Lib
open UnicityBridge.Core (Address ReturnLeaf U256)

/-- `u128` -/
abbrev UInt128 := BitVec 128

/-- How long a wallet has to submit a burn after the quote. -/
def SUBMIT_ALLOWANCE : UInt64 := 7 * 24 * 3600

/-- The fee an operator asks and the least fee that it settles for. -/
structure FeePolicy where
  recipient : Address
  amount : UInt128
  floor : UInt128
  settleWindow : UInt64
  deriving DecidableEq

/-- What `GET /fees` answers. -/
structure FeeQuote where
  feeRecipient : String
  feeAmount : String
  deadline : UInt64
  deriving DecidableEq

/-- Why a burn is refused for its fee. -/
inductive FeeRefusal where
  | unpaid (why : String)
  | late (why : String)
  deriving DecidableEq

/-- `u64::saturating_add` -/
def saturatingAdd (a b : UInt64) : UInt64 :=
  if a.toNat + b.toNat < 2 ^ 64 then a + b else UInt64.ofNat (2 ^ 64 - 1)

theorem saturatingAdd_toNat (a b : UInt64) :
    (saturatingAdd a b).toNat = min (a.toNat + b.toNat) (2 ^ 64 - 1) := by
  unfold saturatingAdd
  split
  · next h =>
    rw [UInt64.toNat_add, Nat.mod_eq_of_lt h]
    omega
  · next h =>
    rw [UInt64.toNat_ofNat_of_lt' (by decide)]
    omega

/-- A number of 128 bits as a big-endian word. -/
def word (amount : UInt128) : U256 :=
  ⟨List.replicate 16 0 ++ beBytes 16 amount.toNat, by rw [List.length_append, List.length_replicate,
    beBytes_length]⟩

theorem word_toNat (amount : UInt128) : (word amount).toNat = amount.toNat := by
  have hlt : amount.toNat < 256 ^ 16 := lt_of_lt_of_eq amount.isLt (by norm_num)
  show beNat (List.replicate 16 0 ++ beBytes 16 amount.toNat) = _
  rw [beNat_zeros_append, beNat_beBytes_of_lt hlt]

namespace FeePolicy

/-- The policy of a service that was given none. -/
def default : FeePolicy where
  recipient := ByteArr.zero 20
  amount := 0
  floor := 0
  settleWindow := 24 * 3600

variable (policy : FeePolicy)

/-- Whether any burn is refused for its fee. -/
def isEnforced : Bool := 0 < policy.floor

/-- Whether the fee has somebody to go to. -/
def isCollectable : Bool := policy.amount = 0 || policy.recipient ≠ ByteArr.zero 20

/-- Whether a burn that pays the quoted fee passes the floor. -/
def floorWithinAmount : Bool := policy.floor ≤ policy.amount

/-- The earliest deadline that leaves the time to settle. -/
def earliestDeadline (nowSecs : UInt64) : UInt64 := saturatingAdd nowSecs policy.settleWindow

/-- The recipient as it is printed. -/
def recipientHex : String := hexText policy.recipient.toList

/-- What the service asks of a burn, in words. -/
def demand (nowSecs : UInt64) : String :=
  s!"this service settles a burn that pays at least {policy.floor.toNat} to {policy.recipientHex} with a deadline of {policy.earliestDeadline nowSecs} or later"

/-- Why the policy refuses a burn: its leaf pays less or another account, or leaves too little time. -/
def refusal (leaf : ReturnLeaf) (nowSecs : UInt64) : Option FeeRefusal :=
  if ¬ policy.isEnforced then none
  else if leaf.feeRecipient ≠ policy.recipient ∨ leaf.feeAmount.toList < (word policy.floor).toList then
    some (.unpaid (policy.demand nowSecs))
  else if leaf.deadline < policy.earliestDeadline nowSecs then
    some (.late s!"the burn's fee deadline {leaf.deadline} leaves less than the {policy.settleWindow} seconds this service wants to settle; an operator can take it by lowering the floor")
  else none

/-- Whether the policy takes the burn. -/
def isPaidBy (leaf : ReturnLeaf) (nowSecs : UInt64) : Bool := (policy.refusal leaf nowSecs).isNone

/-- The fee that a wallet is quoted. -/
def quote (nowSecs : UInt64) : FeeQuote where
  feeRecipient := policy.recipientHex
  feeAmount := policy.amount.toNat.repr
  deadline := saturatingAdd (policy.earliestDeadline nowSecs) SUBMIT_ALLOWANCE

/-- What `from_env` demands of a policy before the service starts. -/
structure Valid : Prop where
  collectable : policy.isCollectable = true
  floorWithin : policy.floorWithinAmount = true

/-- The leaf pays the floor to the service, with a deadline at the end of its window or later. -/
structure Pays (leaf : ReturnLeaf) (nowSecs : UInt64) : Prop where
  recipient : leaf.feeRecipient = policy.recipient
  amount : policy.floor.toNat ≤ leaf.feeAmount.toNat
  deadline : min (nowSecs.toNat + policy.settleWindow.toNat) (2 ^ 64 - 1) ≤ leaf.deadline.toNat

variable {policy}

theorem isEnforced_iff : policy.isEnforced = true ↔ 0 < policy.floor.toNat := by
  rw [isEnforced, decide_eq_true_iff, BitVec.lt_def]
  rfl

/-- The bytes compare as the numbers do. -/
theorem underpaid_iff {leaf : ReturnLeaf} :
    leaf.feeAmount.toList < (word policy.floor).toList ↔ leaf.feeAmount.toNat < policy.floor.toNat := by
  rw [lt_iff_beNat_lt ((List.Vector.toList_length _).trans (List.Vector.toList_length _).symm)]
  show leaf.feeAmount.toNat < (word policy.floor).toNat ↔ _
  rw [word_toNat]

/-- **A burn is refused unless it pays.** -/
theorem refusal_eq_none {leaf : ReturnLeaf} {nowSecs : UInt64} :
    policy.refusal leaf nowSecs = none ↔ policy.isEnforced = false ∨ policy.Pays leaf nowSecs := by
  have hearliest : policy.earliestDeadline nowSecs ≤ leaf.deadline ↔
      min (nowSecs.toNat + policy.settleWindow.toNat) (2 ^ 64 - 1) ≤ leaf.deadline.toNat := by
    rw [UInt64.le_iff_toNat_le, earliestDeadline, saturatingAdd_toNat]
  unfold refusal
  constructor
  · intro h
    by_cases henforced : policy.isEnforced = true
    · rw [if_neg (not_not.2 henforced)] at h
      split at h
      · cases h
      · next hpaid =>
        rw [not_or, not_not, underpaid_iff, not_lt] at hpaid
        split at h
        · cases h
        · next hdeadline => exact .inr ⟨hpaid.1, hpaid.2, hearliest.1 (UInt64.not_lt.1 hdeadline)⟩
    · exact .inl (by simpa using henforced)
  · rintro (hfree | hpays)
    · rw [if_pos (by simp [hfree])]
    · split
      · rfl
      · rw [if_neg, if_neg]
        · exact UInt64.not_lt.2 (hearliest.2 hpays.deadline)
        · rw [not_or, not_not, underpaid_iff, not_lt]
          exact ⟨hpays.recipient, hpays.amount⟩

end FeePolicy

end UnicityBridge.Service
