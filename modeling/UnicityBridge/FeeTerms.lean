import UnicityBridge.LockVerifier
import UnicityBridge.Service.Fees

/-!
# Fee quotes in the wallet

`packages/bridge-plugin/src/wallet/fees.ts`: the wallet reads a service's fee quote, checks it against
what its user allows, and takes the fee terms of the burn from it.

The main result is `quoted_burn_accepted`: of a service that was set up as the source demands, the
wallet refuses a quote only for the limits of its user and for its own clock, and a burn that pays the
quoted terms is refused by this service exactly from the end of the submit allowance on.
-/

set_option autoImplicit false

namespace UnicityBridge.BridgePlugin

open UnicityBridge.Lib

/-- A field of the quote, as JSON gives it. -/
inductive QuoteField where
  | text (s : String)
  | integer (n : Int)
  | other
  deriving DecidableEq

/-- The service's answer to a request for a fee, before any field is checked. -/
structure FeeQuote where
  feeRecipient : QuoteField
  feeAmount : QuoteField
  deadline : QuoteField

/-- What the wallet allows: the amount returned, the largest fee and the time. -/
structure FeeLimits where
  amount : Int
  maxFee : Int
  nowMs : Int

/-- The fee a wallet agrees to. -/
structure FeeTerms where
  feeRecipient : Bytes
  feeAmount : Int
  deadline : Int
  deriving DecidableEq

/-- `Number.MAX_SAFE_INTEGER` -/
def MAX_SAFE_INTEGER : Int := 2 ^ 53 - 1

/-- `0x` and forty digits of either case. -/
def isAddress : List Char → Bool
  | '0' :: 'x' :: digits => digits.length = 40 && digits.all fun c => c ∈ hexAlphabet
  | _ => false

/-- The fee, a decimal number. -/
def quotedAmount (quote : FeeQuote) : Result Int :=
  match quote.feeAmount with
  | .text s => do
      ensure (isWholeNumber s.toList = true)
        "The return service quoted a fee that is not a whole number."
      .ok (Nat.ofDigitChars 10 s.toList 0)
  | _ => .error "The return service quoted a fee that is not a whole number."

/-- The recipient, which may be the zero address only when no fee is asked. -/
def quotedRecipient (quote : FeeQuote) (feeAmount : Int) : Result Bytes :=
  match quote.feeRecipient with
  | .text s => do
      ensure (isAddress s.toList = true)
        "The return service quoted a fee recipient that is not a 20-byte address."
      let recipient ← fromHex s
      ensure (¬ (0 < feeAmount ∧ recipient.all (· == 0) = true))
        "The return service quoted a fee with no recipient."
      .ok recipient
  | _ => .error "The return service quoted a fee recipient that is not a 20-byte address."

/-- The deadline, which must lie ahead. -/
def quotedDeadline (quote : FeeQuote) (nowMs : Int) : Result Int :=
  match quote.deadline with
  | .integer n => do
      ensure (n.natAbs ≤ MAX_SAFE_INTEGER ∧ nowMs < n * 1000)
        "The return service quoted a fee deadline that is not in the future."
      .ok n
  | _ => .error "The return service quoted a fee deadline that is not in the future."

/-- The checks of the quote alone. -/
def parseFeeQuote (quote : FeeQuote) (nowMs : Int) : Result FeeTerms := do
  let feeAmount ← quotedAmount quote
  let feeRecipient ← quotedRecipient quote feeAmount
  let deadline ← quotedDeadline quote nowMs
  .ok { feeRecipient, feeAmount, deadline }

/-- The quote within the wallet's limits. -/
def feeTerms (quote : FeeQuote) (limits : FeeLimits) : Result FeeTerms := do
  let terms ← parseFeeQuote quote limits.nowMs
  ensure (terms.feeAmount ≤ limits.maxFee)
    s!"The return service asks a fee of {terms.feeAmount}, above the {limits.maxFee} allowed for this burn."
  ensure (terms.feeAmount < limits.amount)
    s!"A fee of {terms.feeAmount} leaves nothing of the {limits.amount} being returned."
  .ok terms

end UnicityBridge.BridgePlugin

namespace UnicityBridge.FeeTerms

open UnicityBridge.Lib
open UnicityBridge.Core (ReturnLeaf)
open UnicityBridge.Service (FeePolicy SUBMIT_ALLOWANCE hexText)
open UnicityBridge.BridgePlugin (FeeQuote FeeLimits feeTerms MAX_SAFE_INTEGER fromHex_eq_ok)

/-- A service's quote as the wallet gets it. -/
def received (quote : Service.FeeQuote) : FeeQuote where
  feeRecipient := .text quote.feeRecipient
  feeAmount := .text quote.feeAmount
  deadline := .integer quote.deadline.toNat

/-- The terms that a quote of the policy means. -/
def termsOf (policy : FeePolicy) (nowSecs : UInt64) : BridgePlugin.FeeTerms where
  feeRecipient := policy.recipient.toList
  feeAmount := policy.amount.toNat
  deadline := (policy.quote nowSecs).deadline.toNat

theorem termsOf_deadline (policy : FeePolicy) (nowSecs : UInt64) :
    (termsOf policy nowSecs).deadline = ((policy.quote nowSecs).deadline.toNat : Int) :=
  rfl

/-- The leaf pays these terms. -/
structure PaysTerms (leaf : ReturnLeaf) (terms : BridgePlugin.FeeTerms) : Prop where
  feeRecipient : leaf.feeRecipient.toList = terms.feeRecipient
  feeAmount : (leaf.feeAmount.toNat : Int) = terms.feeAmount
  deadline : (leaf.deadline.toNat : Int) = terms.deadline

section Quotes

variable {policy : FeePolicy} {nowSecs : UInt64}

theorem quotedAmount_quote :
    BridgePlugin.quotedAmount (received (policy.quote nowSecs)) = .ok policy.amount.toNat := by
  have hwhole := isWholeNumber_toDigits policy.amount.toNat
  have hvalue := @Nat.ofDigitChars_ten_toDigits policy.amount.toNat
  simp only [BridgePlugin.quotedAmount, received, FeePolicy.quote, Nat.toList_repr, bind_eq_ok,
    ensure_eq_ok, hwhole, hvalue, exists_const, true_and]

theorem isAddress_hexText (recipient : Core.Address) :
    BridgePlugin.isAddress (hexText recipient.toList).toList = true := by
  have hlength : (hexChars recipient.toList).length = 40 := by
    rw [hexChars_length, recipient.toList_length]
  have hdigits : (hexChars recipient.toList).all (fun c => c ∈ hexAlphabet) = true := by
    rw [List.all_eq_true]
    intro c hc
    exact decide_eq_true ((hexDecodeChars_some (hexDecodeChars_hexChars _)).1 c hc)
  rw [hexText, String.toList_ofList, BridgePlugin.isAddress, hlength, hdigits]
  rfl

theorem fromHex_hexText (recipient : Core.Address) :
    BridgePlugin.fromHex (hexText recipient.toList) = .ok recipient.toList := by
  have hdecode := hexDecode_hexEncode recipient.toList
  have hstrip : BridgePlugin.strip0x (hexText recipient.toList) = hexEncode recipient.toList := by
    rw [BridgePlugin.strip0x, hexText, String.toList_ofList]
    rfl
  have hlength : (hexEncode recipient.toList).length % 2 = 0 := by
    rw [hexEncode, ← String.length_toList, String.toList_ofList, hexChars_length]
    omega
  simp only [BridgePlugin.fromHex, hstrip, bind_eq_ok, ensure_eq_ok, hlength, okOr_eq_ok, hdecode,
    exists_const, true_and]

/-- Twenty bytes that are all zero are the zero address. -/
theorem all_zero_iff (recipient : Core.Address) :
    recipient.toList.all (· == 0) = true ↔ recipient = ByteArr.zero 20 := by
  rw [List.all_eq_true, ← ByteArr.toList_inj]
  constructor
  · intro h
    have hall : ∀ byte ∈ recipient.toList, byte = 0 := fun byte hbyte => by simpa using h byte hbyte
    have hreplicate := List.eq_replicate_of_mem hall
    rw [recipient.toList_length] at hreplicate
    exact hreplicate
  · intro h byte hbyte
    rw [h] at hbyte
    simpa using List.eq_of_mem_replicate hbyte

theorem quotedDeadline_integer {quote : FeeQuote} {n nowMs deadline : Int}
    (hquote : quote.deadline = .integer n) :
    BridgePlugin.quotedDeadline quote nowMs = .ok deadline ↔
      (n.natAbs ≤ MAX_SAFE_INTEGER ∧ nowMs < n * 1000) ∧ n = deadline := by
  rw [BridgePlugin.quotedDeadline, hquote]
  simp only [bind_eq_ok, ensure_eq_ok, Except.ok.injEq, exists_const]

/-- **The wallet reads a quote as it was meant**, while its deadline is a safe integer in the future. -/
theorem parseFeeQuote_quote (hvalid : policy.Valid) {nowMs : Int} {terms : BridgePlugin.FeeTerms} :
    BridgePlugin.parseFeeQuote (received (policy.quote nowSecs)) nowMs = .ok terms ↔
      terms = termsOf policy nowSecs ∧ (termsOf policy nowSecs).deadline ≤ MAX_SAFE_INTEGER ∧
        nowMs < (termsOf policy nowSecs).deadline * 1000 := by
  have hrecipient : BridgePlugin.quotedRecipient (received (policy.quote nowSecs))
      policy.amount.toNat = .ok policy.recipient.toList := by
    have hcollect : ¬ (0 < (policy.amount.toNat : Int) ∧
        policy.recipient.toList.all (· == 0) = true) := by
      rintro ⟨hpos, hzero⟩
      have hvalid := hvalid.collectable
      rw [all_zero_iff] at hzero
      simp only [FeePolicy.isCollectable, hzero, ne_eq, not_true_eq_false, decide_false,
        Bool.or_false, decide_eq_true_eq] at hvalid
      rw [hvalid] at hpos
      exact absurd hpos (by decide)
    simp only [BridgePlugin.quotedRecipient, received, FeePolicy.quote, FeePolicy.recipientHex,
      bind_eq_ok, ensure_eq_ok, isAddress_hexText, fromHex_hexText, Except.ok.injEq, exists_const,
      exists_eq_left', true_and]
    exact ⟨hcollect, trivial⟩
  have hdeadline : ∀ {n : Int}, BridgePlugin.quotedDeadline (received (policy.quote nowSecs)) nowMs =
      .ok n ↔ ((termsOf policy nowSecs).deadline ≤ MAX_SAFE_INTEGER ∧
        nowMs < (termsOf policy nowSecs).deadline * 1000) ∧ (termsOf policy nowSecs).deadline = n := by
    intro n
    rw [quotedDeadline_integer rfl, termsOf_deadline, Int.natAbs_natCast]
  simp only [BridgePlugin.parseFeeQuote, quotedAmount_quote, bind_eq_ok, Except.ok.injEq,
    exists_eq_left', hrecipient, hdeadline]
  constructor
  · rintro ⟨_, ⟨hfuture, rfl⟩, rfl⟩
    exact ⟨rfl, hfuture⟩
  · rintro ⟨rfl, hfuture⟩
    exact ⟨_, ⟨hfuture, rfl⟩, rfl⟩

/-- A safe deadline did not stop at the last second. -/
theorem deadline_eq (hsafe : (termsOf policy nowSecs).deadline ≤ MAX_SAFE_INTEGER) :
    (policy.quote nowSecs).deadline.toNat =
      nowSecs.toNat + policy.settleWindow.toNat + SUBMIT_ALLOWANCE.toNat := by
  have hsum : (policy.quote nowSecs).deadline.toNat =
      min (min (nowSecs.toNat + policy.settleWindow.toNat) (2 ^ 64 - 1) + SUBMIT_ALLOWANCE.toNat)
        (2 ^ 64 - 1) := by
    rw [FeePolicy.quote, Service.saturatingAdd_toNat, FeePolicy.earliestDeadline,
      Service.saturatingAdd_toNat]
  have hbound : ((policy.quote nowSecs).deadline.toNat : Int) ≤ 2 ^ 53 - 1 := hsafe
  have hallowance : SUBMIT_ALLOWANCE.toNat = 604800 := by decide
  omega

/-- **A burn that pays the quote** is refused when what is left of the deadline is below the window. -/
theorem refusal_quoted (hvalid : policy.Valid) {leaf : ReturnLeaf}
    (hpays : PaysTerms leaf (termsOf policy nowSecs))
    (hsafe : (termsOf policy nowSecs).deadline ≤ MAX_SAFE_INTEGER) {later : UInt64} :
    policy.refusal leaf later = none ↔ policy.isEnforced = false ∨
      later.toNat ≤ nowSecs.toNat + SUBMIT_ALLOWANCE.toNat := by
  have hdeadline : leaf.deadline.toNat =
      nowSecs.toNat + policy.settleWindow.toNat + SUBMIT_ALLOWANCE.toNat := by
    have hpaid : (leaf.deadline.toNat : Int) = ((policy.quote nowSecs).deadline.toNat : Int) :=
      hpays.deadline
    rw [← deadline_eq hsafe]
    exact Int.ofNat_inj.1 hpaid
  have hbound : (leaf.deadline.toNat : Int) ≤ 2 ^ 53 - 1 := by
    rw [hpays.deadline]
    exact hsafe
  have hamount : policy.floor.toNat ≤ leaf.feeAmount.toNat := by
    have hfloor : policy.floor ≤ policy.amount := by
      simpa [FeePolicy.floorWithinAmount] using hvalid.floorWithin
    have hpaid : (leaf.feeAmount.toNat : Int) = policy.amount.toNat := hpays.feeAmount
    rw [Int.ofNat_inj.1 hpaid]
    exact BitVec.le_def.1 hfloor
  rw [FeePolicy.refusal_eq_none]
  refine or_congr_right ⟨fun h => ?_, fun hlater => ⟨?_, hamount, ?_⟩⟩
  · have hleft := h.deadline
    omega
  · exact ByteArr.toList_inj.1 hpays.feeRecipient
  · omega

/-- **A quote of the service is good for a burn.** The wallet takes it exactly when the fee is within
what its user allows and below what is returned, and the deadline is a safe integer that its clock has
not reached. A burn that pays the terms it took is refused, by a policy that charges at all, exactly
once the submit allowance after the quote is over. -/
theorem quoted_burn_accepted (hvalid : policy.Valid) {limits : FeeLimits} :
    (∀ terms, feeTerms (received (policy.quote nowSecs)) limits = .ok terms ↔
      terms = termsOf policy nowSecs ∧ (policy.amount.toNat : Int) ≤ limits.maxFee ∧
        (policy.amount.toNat : Int) < limits.amount ∧ terms.deadline ≤ MAX_SAFE_INTEGER ∧
          limits.nowMs < terms.deadline * 1000) ∧
      ∀ terms, feeTerms (received (policy.quote nowSecs)) limits = .ok terms →
        ∀ (leaf : ReturnLeaf) (later : UInt64), PaysTerms leaf terms →
          (policy.refusal leaf later = none ↔ policy.isEnforced = false ∨
            later.toNat ≤ nowSecs.toNat + SUBMIT_ALLOWANCE.toNat) := by
  have hterms : ∀ terms, feeTerms (received (policy.quote nowSecs)) limits = .ok terms ↔
      terms = termsOf policy nowSecs ∧ (policy.amount.toNat : Int) ≤ limits.maxFee ∧
        (policy.amount.toNat : Int) < limits.amount ∧ terms.deadline ≤ MAX_SAFE_INTEGER ∧
          limits.nowMs < terms.deadline * 1000 := by
    intro terms
    simp only [feeTerms, bind_eq_ok, ensure_eq_ok, Except.ok.injEq, parseFeeQuote_quote hvalid]
    constructor
    · rintro ⟨_, ⟨rfl, hsafe, hfuture⟩, -, hmax, -, hleft, rfl⟩
      exact ⟨rfl, hmax, hleft, hsafe, hfuture⟩
    · rintro ⟨rfl, hmax, hleft, hsafe, hfuture⟩
      exact ⟨_, ⟨rfl, hsafe, hfuture⟩, (), hmax, (), hleft, rfl⟩
  refine ⟨hterms, fun terms h leaf later hpays => ?_⟩
  obtain ⟨rfl, -, -, hsafe, -⟩ := (hterms terms).1 h
  exact refusal_quoted hvalid hpays hsafe

end Quotes

/-! ## A policy that charges -/

namespace Sample

/-- A fee of 1000, all of it demanded, with a day to settle. -/
def policy : FeePolicy where
  recipient := List.Vector.replicate 20 0xc3
  amount := 1000
  floor := 1000
  settleWindow := 24 * 3600

theorem valid : policy.Valid := ⟨by decide, by decide⟩

/-- The time of the sample. -/
def nowSecs : UInt64 := 1800000000

/-- Limits that allow the sample's fee. -/
def limits : FeeLimits where
  amount := 1000000
  maxFee := 2000
  nowMs := 1800000000000

/-- A leaf that pays the quoted terms. -/
def leaf : ReturnLeaf where
  nullifier := List.Vector.replicate 32 0x11
  recipient := List.Vector.replicate 20 0xb2
  amount := Service.word 1000000
  feeRecipient := policy.recipient
  feeAmount := Service.word 1000
  deadline := 1800691200

end Sample

theorem quoted_burn_accepted_sample :
    feeTerms (received (Sample.policy.quote Sample.nowSecs)) Sample.limits =
        .ok (termsOf Sample.policy Sample.nowSecs) ∧
      Sample.policy.refusal Sample.leaf (Sample.nowSecs + SUBMIT_ALLOWANCE) = none ∧
        Sample.policy.refusal Sample.leaf (Sample.nowSecs + SUBMIT_ALLOWANCE + 1) ≠ none := by
  have haccepts := @quoted_burn_accepted _ Sample.nowSecs Sample.valid Sample.limits
  have hterms := (haccepts.1 (termsOf Sample.policy Sample.nowSecs)).2 (by decide)
  have hpays : PaysTerms Sample.leaf (termsOf Sample.policy Sample.nowSecs) := by
    refine ⟨rfl, ?_, by decide⟩
    exact congrArg Int.ofNat (Service.word_toNat 1000)
  refine ⟨hterms, (haccepts.2 _ hterms _ _ hpays).2 (.inr (by decide)), ?_⟩
  rw [ne_eq, haccepts.2 _ hterms _ _ hpays]
  decide

end UnicityBridge.FeeTerms
