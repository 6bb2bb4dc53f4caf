import UnicityBridge.GuestBatch
import UnicityBridge.LockJustification

/-!
# The lock behind a token

`packages/bridge-plugin/src/wallet/backing.ts`: the wallet follows split justifications back to a lock,
at most `MAX_SPLIT_DEPTH` of them, and asks whether the lock is one of a bridge's vault. The circuit
follows them without a bound.

`recognised_iff` says of which tokens the two agree: those that the circuit accepts behind at most eight
splits and with a positive amount, and those whose lineage does not end at bytes that only the wallet
takes for a lock of the vault.
-/

set_option autoImplicit false

namespace UnicityBridge.BridgePlugin

open UnicityBridge.Lib UnicityBridge.TokenSdk

/-- How many splits the wallet looks behind before it gives up. -/
def MAX_SPLIT_DEPTH : Nat := 8

/-- The source justification of a split, `none` also where reading it fails. -/
abbrev SplitSourceReader := Bytes → Option Bytes

section Wallet

variable (ts : CborDeserializer)

/-- The justification of the token a split came from, `none` where the bytes are no split. -/
def splitSourceJustification : SplitSourceReader := fun justification =>
  match ts.splitFromCBOR justification with
  | .ok split => split.token.genesis.transaction.justification
  | .error _ => none

/-- The lock a justification carries, with every decoding error turned into `none`. -/
def asLock (bytes : Bytes) : Option BridgeLockJustification :=
  (BridgeLockJustification.fromCBOR ts bytes).toOption

/-- The turns of the loop that are left. -/
def lockBehindFrom (readSplit : SplitSourceReader) : Nat → Option Bytes →
    Option BridgeLockJustification
  | 0, _ => none
  | _ + 1, none => none
  | turns + 1, some bytes =>
      match asLock ts bytes with
      | some lock => some lock
      | none => lockBehindFrom readSplit turns (readSplit bytes)

/-- The lock behind a justification, at most `MAX_SPLIT_DEPTH` splits away. -/
def lockBehind (justification : Option Bytes) (readSplit : SplitSourceReader) :
    Option BridgeLockJustification :=
  lockBehindFrom ts readSplit (MAX_SPLIT_DEPTH + 1) justification

/-- Whether the lock behind the token is one of the configured vault. -/
def mintedAgainst (cfg : ResolvedBridgeConfig) (justification : Option Bytes)
    (readSplit : SplitSourceReader) : Bool :=
  match lockBehind ts justification readSplit with
  | none => false
  | some lock => lock.data.chainId == cfg.chainId &&
      toLowerCase (hexEncode lock.data.lockContract) == cfg.lockContractHex

end Wallet

end UnicityBridge.BridgePlugin

namespace UnicityBridge.Backing

open UnicityBridge.Lib UnicityBridge.TokenSdk UnicityBridge.Bridge
open UnicityBridge.BridgePlugin (CborDeserializer DecodesAlike ResolvedBridgeConfig Carries
  LockFields Number MAX_SPLIT_DEPTH asLock lockBehind lockBehindFrom mintedAgainst
  splitSourceJustification)

/-! ## Lineages -/

section Lineage

variable (sdk : Sdk)

/-- The number of splits behind a justification, and the justification in which they end. -/
def lineage (justification : Option Bytes) : Nat × Option Bytes :=
  match justification with
  | none => (0, none)
  | some bytes =>
      match hsplit : sdk.splitFromCbor bytes with
      | none => (0, some bytes)
      | some split =>
          have : split.token.genesis.transaction.justification.elim 0 (fun b => b.length + 1) <
              bytes.length + 1 := by
            cases hinner : split.token.genesis.transaction.justification with
            | none => exact Nat.succ_pos _
            | some inner => exact Nat.succ_lt_succ (sdk.split_nested bytes split hsplit inner hinner)
          let (splits, last) := lineage split.token.genesis.transaction.justification
          (splits + 1, last)
  termination_by justification.elim 0 fun bytes => bytes.length + 1

variable {sdk}

theorem lineage_none : lineage sdk none = (0, none) := by
  rw [lineage]

theorem lineage_last {bytes : Bytes} (h : sdk.splitFromCbor bytes = none) :
    lineage sdk (some bytes) = (0, some bytes) := by
  rw [lineage]
  split
  · rfl
  · next split hsplit =>
    rw [h] at hsplit
    cases hsplit

theorem lineage_split {bytes : Bytes} {split : SplitMintJustification}
    (h : sdk.splitFromCbor bytes = some split) :
    lineage sdk (some bytes) =
      ((lineage sdk split.token.genesis.transaction.justification).1 + 1,
        (lineage sdk split.token.genesis.transaction.justification).2) := by
  rw [lineage]
  split
  · next hsplit =>
    rw [h] at hsplit
    cases hsplit
  · next other hsplit =>
    rw [h] at hsplit
    cases hsplit
    rfl

end Lineage

/-- Splits carry a tag of their own. -/
def SplitTagged (sdk : Sdk) : Prop :=
  ∀ bytes split, sdk.splitFromCbor bytes = some split →
    sdk.expectTag bytes TRON_USDT_LOCK_JUSTIFICATION_TAG = none

section Wallet

variable {sdk : Sdk} {ts : CborDeserializer}

theorem SplitTagged.not_carries (htagged : SplitTagged sdk) {bytes : Bytes}
    {split : SplitMintJustification} (h : sdk.splitFromCbor bytes = some split) (f : LockFields) :
    ¬ Carries sdk TRON_USDT_LOCK_JUSTIFICATION_TAG bytes f := by
  intro hf
  obtain ⟨inner, _, _, _, _, _, _, _, _, htag, -⟩ := hf.items
  rw [htagged bytes split h] at htag
  cases htag

theorem asLock_eq_some (halike : DecodesAlike sdk ts) {bytes : Bytes}
    {lock : BridgePlugin.BridgeLockJustification} :
    asLock ts bytes = some lock ↔
      ∃ f, Carries sdk TRON_USDT_LOCK_JUSTIFICATION_TAG bytes f ∧ lock.data = f.data := by
  rw [← BridgePlugin.fromCBOR_eq_ok halike, asLock]
  cases BridgePlugin.BridgeLockJustification.fromCBOR ts bytes <;> simp [Except.toOption]

theorem splitSourceJustification_eq (halike : DecodesAlike sdk ts) (bytes : Bytes) :
    splitSourceJustification ts bytes =
      (sdk.splitFromCbor bytes).bind fun split => split.token.genesis.transaction.justification := by
  unfold splitSourceJustification
  split
  · next split h => rw [(halike.split _ _).1 h, Option.bind_some]
  · next message h =>
    cases hsplit : sdk.splitFromCbor bytes with
    | none => rfl
    | some split =>
        rw [(halike.split _ _).2 hsplit] at h
        cases h

/-- **The wallet's lock**: what its decoder reads of the last justification, if the loop gets there. -/
theorem lockBehindFrom_eq (halike : DecodesAlike sdk ts) (htagged : SplitTagged sdk) (turns : Nat)
    (justification : Option Bytes) :
    lockBehindFrom ts (splitSourceJustification ts) turns justification =
      if (lineage sdk justification).1 < turns then
        (lineage sdk justification).2.bind (asLock ts)
      else none := by
  induction turns generalizing justification with
  | zero => rfl
  | succ turns ih =>
      cases justification with
      | none =>
          rw [lineage_none]
          rfl
      | some bytes =>
          rw [lockBehindFrom, ih, splitSourceJustification_eq halike]
          cases hsplit : sdk.splitFromCbor bytes with
          | none =>
              -- the loop ends behind these bytes, lock or not
              rw [lineage_last hsplit, if_pos (Nat.succ_pos turns), Option.bind_none, lineage_none,
                Option.bind_none, ite_self, Option.bind_some]
              cases asLock ts bytes <;> rfl
          | some split =>
              have hnone : asLock ts bytes = none := by
                rw [Option.eq_none_iff_forall_ne_some]
                intro lock hlock
                obtain ⟨f, hf, -⟩ := (asLock_eq_some halike).1 hlock
                exact htagged.not_carries hsplit f hf
              rw [lineage_split hsplit, hnone, Option.bind_some]
              simp only [Nat.add_lt_add_iff_right]

end Wallet

/-! ## What the circuit returns -/

section Circuit

variable {sdk : Sdk} {config : BridgeConfig}

/-- The circuit's lock of the bridge at the end of a lineage. -/
def EndsAt (sdk : Sdk) (config : BridgeConfig) (justification : Option Bytes)
    (j : BridgeLockJustification) : Prop :=
  ∃ bytes, (lineage sdk justification).2 = some bytes ∧
    BridgeLockJustification.fromCborBytes sdk bytes TRON_USDT_LOCK_JUSTIFICATION_TAG = .ok j ∧
    j.sourceChainId = config.sourceChainId ∧ j.vault = config.vault

/-- The obligation of a direct mint is that of its justification. -/
theorem bridgeLockObligation_justification {genesis : CertifiedMintTransaction}
    {obligation : BridgeLockObligation}
    (h : bridgeLockObligation sdk genesis TRON_USDT_LOCK_JUSTIFICATION_TAG config =
      .ok obligation) :
    ∃ bytes j, genesis.transaction.justification = some bytes ∧
      BridgeLockJustification.fromCborBytes sdk bytes TRON_USDT_LOCK_JUSTIFICATION_TAG = .ok j ∧
      j.sourceChainId = config.sourceChainId ∧ j.vault = config.vault ∧
      obligation.nonce = j.nonce := by
  simp only [bridgeLockObligation, bind_eq_ok, okOr_eq_ok, ensure_eq_ok, Except.ok.injEq] at h
  obtain ⟨-, -, bytes, hbytes, j, hj, -, ⟨hchain, hvault, -⟩, -, -, -, -, -, -, -, -, -, -, rfl⟩ := h
  exact ⟨bytes, j, hbytes, hj, hchain, hvault, rfl⟩

/-- **What the circuit accepts ends at a lock of the bridge**, by induction on the lineage: a split
output passes on the obligations of its source. -/
theorem accepted_endsAt (htagged : SplitTagged sdk) {token : Token} {trustBase : RootTrustBase}
    {obligations : List BridgeLockObligation}
    (h : bridgeLockObligationsForVerifiedToken sdk token trustBase TRON_USDT_LOCK_JUSTIFICATION_TAG
      config = .ok obligations) :
    ∃ j digest, EndsAt sdk config token.genesis.transaction.justification j ∧
      obligations = [⟨j.nonce, digest⟩] := by
  induction hsize : justificationSize token using Nat.strong_induction_on generalizing token with
  | _ size ih =>
      rcases (obligationsForVerifiedToken_eq_ok sdk).1 h with
        ⟨obligation, hdirect, rfl⟩ | ⟨_, bytes, split, -, hbytes, hsplit, hverify⟩
      · obtain ⟨bytes, j, hbytes, hj, hchain, hvault, hnonce⟩ :=
          bridgeLockObligation_justification hdirect
        have hlast : sdk.splitFromCbor bytes = none := by
          rw [Option.eq_none_iff_forall_ne_some]
          intro split hsplit
          exact htagged.not_carries hsplit _ (BridgePlugin.fromCborBytes_eq_ok.1 hj)
        refine ⟨j, obligation.digest, ⟨bytes, ?_, hj, hchain, hvault⟩, by rw [← hnonce]⟩
        rw [hbytes, lineage_last hlast]
      · obtain ⟨hsource, -⟩ := verifySplitMint_ok sdk hverify
        simp only [bridgeLockObligationsForTokenCertified, bind_eq_ok] at hsource
        obtain ⟨_, -, hsource⟩ := hsource
        obtain ⟨j, digest, ⟨last, hlast, hj⟩, hobligations⟩ :=
          ih _ (hsize ▸ justificationSize_lt sdk hbytes hsplit) hsource rfl
        refine ⟨j, digest, ⟨last, ?_, hj⟩, hobligations⟩
        rw [hbytes, lineage_split hsplit]
        exact hlast

end Circuit

/-! ## Agreement -/

section Agreement

variable {sdk : Sdk} {ts : CborDeserializer} {cfg : ResolvedBridgeConfig} {config : BridgeConfig}
  {trustBase : RootTrustBase} {token : Token}

/-- The wallet recognises the token as the circuit does: it finds the lock of a token that the circuit
accepts, and refuses a token whose lineage ends at no lock of the bridge's vault and chain. -/
structure Recognised (sdk : Sdk) (ts : CborDeserializer) (cfg : ResolvedBridgeConfig)
    (config : BridgeConfig) (trustBase : RootTrustBase) (token : Token) : Prop where
  accepted : ∀ obligations, bridgeLockObligationsForVerifiedToken sdk token trustBase
      TRON_USDT_LOCK_JUSTIFICATION_TAG config = .ok obligations →
    mintedAgainst ts cfg token.genesis.transaction.justification (splitSourceJustification ts) = true ∧
    ∃ lock obligation, lockBehind ts token.genesis.transaction.justification
        (splitSourceJustification ts) = some lock ∧
      obligations = [obligation] ∧ lock.data.nonce = obligation.nonce.toNat
  foreign : (¬ ∃ j, EndsAt sdk config token.genesis.transaction.justification j) →
    mintedAgainst ts cfg token.genesis.transaction.justification (splitSourceJustification ts) = false

/-- The tokens of which wallet and circuit agree. -/
structure WithinReach (sdk : Sdk) (cfg : ResolvedBridgeConfig) (config : BridgeConfig)
    (trustBase : RootTrustBase) (token : Token) : Prop where
  depth : ∀ obligations, bridgeLockObligationsForVerifiedToken sdk token trustBase
      TRON_USDT_LOCK_JUSTIFICATION_TAG config = .ok obligations →
    (lineage sdk token.genesis.transaction.justification).1 ≤ MAX_SPLIT_DEPTH ∧
    ∀ j, EndsAt sdk config token.genesis.transaction.justification j → j.amount ≠ 0
  last : (lineage sdk token.genesis.transaction.justification).1 ≤ MAX_SPLIT_DEPTH →
    ∀ bytes f, (lineage sdk token.genesis.transaction.justification).2 = some bytes →
      Carries sdk TRON_USDT_LOCK_JUSTIFICATION_TAG bytes f → f.amount ≠ 0 →
      f.vault = config.vault.toList → Number f.sourceChainId.toNat = cfg.chainId →
      f.sourceChainId = config.sourceChainId ∧ f.asset.length = 20 ∧ f.txid.length = 32

theorem lockBehind_eq_some (halike : DecodesAlike sdk ts) (htagged : SplitTagged sdk)
    {justification : Option Bytes} {lock : BridgePlugin.BridgeLockJustification} :
    lockBehind ts justification (splitSourceJustification ts) = some lock ↔
      (lineage sdk justification).1 ≤ MAX_SPLIT_DEPTH ∧ ∃ bytes f,
        (lineage sdk justification).2 = some bytes ∧
        Carries sdk TRON_USDT_LOCK_JUSTIFICATION_TAG bytes f ∧ lock.data = f.data := by
  rw [lockBehind, lockBehindFrom_eq halike htagged, ← Nat.lt_succ_iff]
  split
  · next hlt =>
    simp only [Option.bind_eq_some_iff, asLock_eq_some halike, hlt, true_and, exists_and_left]
  · next hlt => simp [hlt]

/-- **When the wallet calls a token minted against the bridge.** -/
theorem mintedAgainst_eq_true (halike : DecodesAlike sdk ts) (htagged : SplitTagged sdk)
    (hcfg : cfg.Describes config) {justification : Option Bytes} :
    mintedAgainst ts cfg justification (splitSourceJustification ts) = true ↔
      (lineage sdk justification).1 ≤ MAX_SPLIT_DEPTH ∧ ∃ bytes f,
        (lineage sdk justification).2 = some bytes ∧
        Carries sdk TRON_USDT_LOCK_JUSTIFICATION_TAG bytes f ∧ f.amount ≠ 0 ∧
        f.vault = config.vault.toList ∧ Number f.sourceChainId.toNat = cfg.chainId := by
  have hcontract {f : LockFields} : BridgePlugin.toLowerCase (hexEncode f.data.lockContract) =
      cfg.lockContractHex ↔ f.vault = config.vault.toList := by
    rw [BridgePlugin.toLowerCase_hexEncode, hcfg.lockContract]
    exact ⟨hexEncode_inj, congrArg hexEncode⟩
  unfold mintedAgainst
  constructor
  · intro h
    split at h
    · cases h
    · next lock hlock =>
      obtain ⟨hdepth, bytes, f, hlast, hf, hdata⟩ := (lockBehind_eq_some halike htagged).1 hlock
      rw [Bool.and_eq_true, beq_iff_eq, beq_iff_eq, hdata, hcontract] at h
      exact ⟨hdepth, bytes, f, hlast, hf, LockFields.checked_iff.1 (hdata ▸ lock.checked), h.2, h.1⟩
  · rintro ⟨hdepth, bytes, f, hlast, hf, hamount, hvault, hchain⟩
    have hlock : lockBehind ts justification (splitSourceJustification ts) =
        some ⟨f.data, LockFields.checked_iff.2 hamount⟩ :=
      (lockBehind_eq_some halike htagged).2 ⟨hdepth, bytes, f, hlast, hf, rfl⟩
    rw [hlock]
    dsimp only
    rw [Bool.and_eq_true, beq_iff_eq, beq_iff_eq, hcontract]
    exact ⟨hchain, hvault⟩

/-- What ends at a lock of the bridge carries its fields. -/
theorem EndsAt.carries {justification : Option Bytes} {j : BridgeLockJustification}
    (h : EndsAt sdk config justification j) {bytes : Bytes} {f : LockFields}
    (hlast : (lineage sdk justification).2 = some bytes)
    (hf : Carries sdk TRON_USDT_LOCK_JUSTIFICATION_TAG bytes f) : f = .ofCore j := by
  obtain ⟨bytes', hlast', hj, -⟩ := h
  obtain rfl : bytes = bytes' := Option.some.inj (hlast.symm.trans hlast')
  exact hf.unique (BridgePlugin.fromCborBytes_eq_ok.1 hj)

/-- **When the wallet recognises a token**: exactly when it is within reach. -/
theorem recognised_iff (halike : DecodesAlike sdk ts) (htagged : SplitTagged sdk)
    (hcfg : cfg.Describes config) :
    Recognised sdk ts cfg config trustBase token ↔
      WithinReach sdk cfg config trustBase token := by
  have hminted := @mintedAgainst_eq_true _ _ _ _ halike htagged hcfg
    token.genesis.transaction.justification
  constructor
  -- what the circuit accepts has its lock within reach, and what is within reach but foreign is a
  -- defect
  · intro h
    constructor
    · intro obligations hok
      obtain ⟨hdepth, bytes, f, hlast, hf, hamount, -⟩ := hminted.1 (h.accepted obligations hok).1
      refine ⟨hdepth, fun j hj => ?_⟩
      rw [hj.carries hlast hf] at hamount
      exact hamount
    · intro hdepth bytes f hlast hf hamount hvault hchain
      have htrue := hminted.2 ⟨hdepth, bytes, f, hlast, hf, hamount, hvault, hchain⟩
      by_contra hne
      rw [h.foreign ?_] at htrue
      · cases htrue
      · rintro ⟨j, hj⟩
        apply hne
        rw [hj.carries hlast hf]
        obtain ⟨_, _, _, hsource, _⟩ := hj
        exact ⟨hsource, j.asset.toList_length, j.txid.toList_length⟩
  -- conversely the last justification is the same lock for both readers
  · intro h
    constructor
    · intro obligations hok
      obtain ⟨j, digest, hj, rfl⟩ := accepted_endsAt htagged hok
      obtain ⟨hdepth, hamount⟩ := h.depth _ hok
      have hpositive := hamount j hj
      obtain ⟨bytes, hlast, hbytes, hsource, hvault⟩ := hj
      have hf := BridgePlugin.fromCborBytes_eq_ok.1 hbytes
      have hchain : Number j.sourceChainId.toNat = cfg.chainId := by
        rw [hsource, ← hcfg.chainId, BridgePlugin.Number_value]
      refine ⟨hminted.2 ⟨hdepth, bytes, _, hlast, hf, hpositive, by rw [← hvault]; rfl, hchain⟩,
        ⟨(LockFields.ofCore j).data, LockFields.checked_iff.2 hpositive⟩, _, ?_, rfl, rfl⟩
      exact (lockBehind_eq_some halike htagged).2 ⟨hdepth, bytes, _, hlast, hf, rfl⟩
    · intro hforeign
      rw [Bool.eq_false_iff]
      intro htrue
      obtain ⟨hdepth, bytes, f, hlast, hf, hamount, hvault, hchain⟩ := hminted.1 htrue
      obtain ⟨hsource, hasset, htxid⟩ := h.last hdepth bytes f hlast hf hamount hvault hchain
      have hwidth : f.vault.length = 20 := by
        rw [hvault]
        exact config.vault.toList_length
      obtain ⟨j, rfl⟩ := LockFields.exists_core hwidth hasset htxid
      exact hforeign ⟨j, bytes, hlast, BridgePlugin.fromCborBytes_eq_ok.2 hf, hsource,
        List.Vector.toList_injective hvault⟩

end Agreement

/-! ## A token behind nine splits -/

namespace Sample

open UnicityBridge.Guest.Sample (Coin lockBytes paymentBytes minter owner spentState burnPredicate
  inclusionProof trustBase readHead splitOf word)
open UnicityBridge.Verify

/-- The configuration of the sample as the SDK sees it. -/
def config : BridgeConfig := Guest.sdkBridgeConfig Guest.Sample.config

/-- The lock behind every token of the sample. -/
def lock : Bytes := lockBytes 5 0

/-- A mint of five units against a justification. -/
def mintOf (justification : Bytes) : MintTransaction :=
  { Guest.Sample.mint .whole with justification := some justification }

/-- The burn of a token that is split. -/
def splitBurn : TransferTransaction :=
  { Guest.Sample.burn .whole with recipient := burnPredicate [], data := some [] }

/-- A token minted against a justification and then split. -/
def tokenOf (justification : Bytes) : Token where
  genesis := ⟨mintOf justification, inclusionProof minter (spentState (.mint (mintOf justification)))⟩
  transactions := [⟨splitBurn, inclusionProof owner (spentState (.transfer splitBurn))⟩]

/-- The token of a split is minted against what stands behind the tag. -/
def splitFromCbor : Bytes → Option SplitMintJustification
  | 0xd9 :: 0x98 :: 0x84 :: justification => some ⟨tokenOf justification, [⟨[]⟩]⟩
  | _ => none

theorem splitFromCbor_eq_some {bytes : Bytes} {split : SplitMintJustification}
    (h : splitFromCbor bytes = some split) :
    ∃ justification, bytes = splitOf justification ∧ split = ⟨tokenOf justification, [⟨[]⟩]⟩ := by
  unfold splitFromCbor at h
  split at h
  · next justification =>
    cases h
    exact ⟨justification, rfl, rfl⟩
  · cases h

/-- The guest's sample with every token certified, and with splits of splits. -/
def sdk : Sdk :=
  { Guest.Sample.sdk with
    transactionHash := spentState
    splitFromCbor
    manifestFromCbor := fun _ => some ⟨[[]]⟩
    verifyAllocation := fun _ _ _ amount _ => some amount
    split_nested := by
      intro bytes split h inner hinner
      obtain ⟨justification, rfl, rfl⟩ := splitFromCbor_eq_some h
      obtain rfl : justification = inner := Option.some.inj hinner
      exact Nat.lt_add_of_pos_right (by decide : 0 < 3) }

/-- The TypeScript decoders over the same slices. -/
def deserializer : CborDeserializer where
  decodeTag bytes :=
    match sdk.finish bytes, readHead bytes with
    | some (), some (major, argument, rest) =>
        if major = 6 ∧ argument < 2 ^ 64 then .ok (argument, rest) else .error "not a tag"
    | _, _ => .error "malformed"
  decodeArray bytes count := okOr (sdk.array bytes count) "not an array"
  decodeUnsignedInteger bytes := okOr ((sdk.uint bytes).map UInt64.toNat) "not an integer"
  decodeByteString bytes := okOr (sdk.bytesValue bytes) "not a byte string"
  isNull := sdk.isNull
  paymentFromCBOR bytes := okOr (sdk.paymentFromCbor bytes) "not a payment"
  splitFromCBOR bytes := okOr (sdk.splitFromCbor bytes) "not a split"

theorem alike : DecodesAlike sdk deserializer where
  tag bytes number inner := by
    show (match sdk.finish bytes, readHead bytes with
      | some (), some (major, argument, rest) =>
          if major = 6 ∧ argument < 2 ^ 64 then .ok (argument, rest) else .error "not a tag"
      | _, _ => .error "malformed") = Except.ok (number, inner) ↔
        _ ∧ ∃ tag : UInt64, tag.toNat = number ∧ Guest.Sample.readTag bytes tag = some inner
    cases sdk.finish bytes with
    | none => simp
    | some =>
        cases hhead : readHead bytes with
        | none => simp [Guest.Sample.readTag, hhead]
        | some item =>
            obtain ⟨major, argument, rest⟩ := item
            simp only [Guest.Sample.readTag, hhead, Option.bind_eq_bind, Option.bind_some, true_and]
            constructor
            · intro h
              split at h
              · next hmajor =>
                cases h
                exact ⟨UInt64.ofNat number, UInt64.toNat_ofNat_of_lt' hmajor.2,
                  by rw [UInt64.toNat_ofNat_of_lt' hmajor.2, if_pos ⟨hmajor.1, rfl⟩]⟩
              · cases h
            · rintro ⟨tag, rfl, h⟩
              split at h
              · next hmajor =>
                obtain ⟨rfl, rfl⟩ := hmajor
                cases h
                rw [if_pos ⟨rfl, tag.toNat_lt⟩]
              · cases h
  array _ _ _ := okOr_eq_ok
  uint bytes value := by
    show okOr ((sdk.uint bytes).map UInt64.toNat) "not an integer" = .ok value ↔ _
    rw [okOr_eq_ok, Option.map_eq_some_iff]
    exact exists_congr fun n => and_comm
  bytes _ _ := okOr_eq_ok
  null _ := rfl
  payment _ _ := okOr_eq_ok
  split _ _ := okOr_eq_ok

theorem splitTagged : SplitTagged sdk := by
  intro bytes split h
  obtain ⟨justification, rfl, -⟩ := splitFromCbor_eq_some h
  rfl

/-- The lock's justification behind a number of splits. -/
def splits : Nat → Bytes
  | 0 => lock
  | depth + 1 => splitOf (splits depth)

theorem lineage_splits (depth : Nat) : lineage sdk (some (splits depth)) = (depth, some lock) := by
  induction depth with
  | zero => exact lineage_last rfl
  | succ depth ih =>
      have hsplit : sdk.splitFromCbor (splits (depth + 1)) =
          some ⟨tokenOf (splits depth), [⟨[]⟩]⟩ := rfl
      have hinner : (tokenOf (splits depth)).genesis.transaction.justification =
          some (splits depth) := rfl
      rw [lineage_split hsplit, hinner, ih]

theorem decode_lock : BridgeLockJustification.fromCborBytes sdk lock
    TRON_USDT_LOCK_JUSTIFICATION_TAG =
      .ok ⟨1, config.vault, config.asset, word 0x77, 3, 5, 0⟩ := by rfl

/-- What the sample's lock obliges the vault to. -/
def obligation : BridgeLockObligation where
  nonce := 0
  digest := lockDigest sdk config 0 (ByteArr.ofNat 32 5) (word Coin.whole.number)
    (sdk.sha256 owner.toCbor)

theorem payment : decodeBridgedPaymentData sdk (paymentBytes 5) =
    some ⟨[⟨config.coinId.toList, 5⟩]⟩ := by rfl

theorem direct : bridgeLockObligation sdk (tokenOf lock).genesis
    TRON_USDT_LOCK_JUSTIFICATION_TAG config = .ok obligation := by
  have hword : u256FromBiguint sdk 5 = some (ByteArr.ofNat 32 5) := by
    rw [u256FromBiguint]
    have hfive : sdk.encodeAmount 5 = [5] := Guest.Sample.encodeAmount_coin .whole
    rw [hfive]
    rfl
  have hasset : PaymentAssetCollection.get ⟨[⟨config.coinId.toList, 5⟩]⟩ config.coinId.toList =
      some ⟨config.coinId.toList, 5⟩ := by rfl
  simp only [bridgeLockObligation, bind_eq_ok, okOr_eq_ok, ensure_eq_ok]
  exact ⟨(), rfl, lock, rfl, _, decode_lock, (), ⟨rfl, rfl, rfl⟩, paymentBytes 5, rfl, _, payment,
    _, hasset, (), rfl, _, hword, rfl⟩

theorem certified_root : verifyUnicityCertificate sdk trustBase Guest.Sample.certificate =
    .ok (word 0xc0) := by
  simp only [verifyUnicityCertificate, bind_eq_ok, okOr_eq_ok, ensure_eq_ok]
  exact ⟨(), rfl, _, rfl, (), rfl, (), by decide, rfl⟩

/-- Every transaction of the sample is included with the state that it spends. -/
theorem included (transaction : Transaction) (state : Bytes32)
    (hlock : sdk.signatureKey (transaction.lockScript sdk) = some ⟨(transaction.lockScript sdk).toCbor⟩)
    (hsource : transaction.sourceStateHash sdk = DataHash.sha256 state)
    (hexpires : transaction.expiresAt = none)
    (hhash : spentState transaction = DataHash.sha256 state) :
    verifyInclusionAgainstRoot sdk (word 0xc0)
      (inclusionProof (transaction.lockScript sdk) (DataHash.sha256 state)) transaction = .ok () := by
  have hstate : (transaction.stateId sdk).toList = state.toList := by
    rw [Transaction.stateId, hsource]
    exact congrArg List.Vector.toList (Accumulator.lastBytes_toList state)
  have htransaction : sdk.transactionHash transaction = DataHash.sha256 state := hhash
  simp only [verifyInclusionAgainstRoot, verifyPredicate, bind_eq_ok, okOr_eq_ok, ensure_eq_ok,
    htransaction]
  refine ⟨(), ⟨rfl, hsource.symm, hexpires.symm⟩, (), rfl, (), fun _ h => (by cases h), (), ?_, (),
    .inl rfl, ⟨_, hlock, rfl⟩⟩
  exact beq_iff_eq.2 hstate

theorem included_mint (justification : Bytes) : verifyInclusionAgainstRoot sdk (word 0xc0)
    (tokenOf justification).genesis.inclusionProof (.mint (mintOf justification)) = .ok () :=
  included (.mint (mintOf justification)) _ rfl rfl rfl rfl

theorem included_burn : verifyInclusionAgainstRoot sdk (word 0xc0)
    (inclusionProof owner (spentState (.transfer splitBurn))) (.transfer splitBurn) = .ok () :=
  included (.transfer splitBurn) _ rfl rfl rfl rfl

theorem verified (justification : Bytes) :
    verifyTokenCertified sdk (tokenOf justification) trustBase = .ok () := by
  have hmint : verifyGenesisWithOwnCertificate sdk (tokenOf justification) trustBase = .ok () := by
    simp only [verifyGenesisWithOwnCertificate, checkMintLockScript,
      verifyInclusionWithOwnCertificate, bind_eq_ok, okOr_eq_ok, ensure_eq_ok, mapError_eq_ok]
    exact ⟨(), rfl, (), ⟨_, rfl, rfl⟩, _, certified_root, included_mint justification⟩
  simp only [verifyTokenCertified, bind_eq_ok, ensure_eq_ok, forM_eq_ok, mapError_eq_ok,
    verifyInclusionWithOwnCertificate]
  refine ⟨(), rfl, (), hmint, fun transfer htransfer => ?_⟩
  obtain rfl := List.mem_singleton.1 htransfer
  exact ⟨_, certified_root, included_burn⟩

/-- The circuit accepts the token at every depth. -/
theorem accepted (depth : Nat) : bridgeLockObligationsForVerifiedToken sdk (tokenOf (splits depth))
    trustBase TRON_USDT_LOCK_JUSTIFICATION_TAG config = .ok [obligation] := by
  induction depth with
  | zero => exact (obligationsForVerifiedToken_eq_ok sdk).2 (.inl ⟨_, direct, rfl⟩)
  | succ depth ih =>
      have hsplit : sdk.splitFromCbor (splits (depth + 1)) =
          some ⟨tokenOf (splits depth), [⟨[]⟩]⟩ := rfl
      have hsource : bridgeLockObligationsForTokenCertified sdk (tokenOf (splits depth)) trustBase
          TRON_USDT_LOCK_JUSTIFICATION_TAG config = .ok [obligation] := by
        simp only [bridgeLockObligationsForTokenCertified, bind_eq_ok]
        exact ⟨(), verified _, ih⟩
      cases hdirect : bridgeLockObligation sdk (tokenOf (splits (depth + 1))).genesis
          TRON_USDT_LOCK_JUSTIFICATION_TAG config with
      | ok other =>
          obtain ⟨bytes, j, hbytes, hj, -⟩ := bridgeLockObligation_justification hdirect
          obtain rfl : splits (depth + 1) = bytes := Option.some.inj hbytes
          exact absurd (BridgePlugin.fromCborBytes_eq_ok.1 hj) (splitTagged.not_carries hsplit _)
      | error directErr =>
          refine (obligationsForVerifiedToken_eq_ok sdk).2
            (.inr ⟨directErr, _, _, hdirect, rfl, hsplit, ?_⟩)
          simp only [verifySplitMint, bind_eq_ok, okOr_eq_ok, ensure_eq_ok, forM_eq_ok]
          refine ⟨_, rfl, _, payment, (), rfl, _, hsource, _, rfl, _, rfl, _, rfl, (), rfl, (), rfl, _,
            rfl, _, payment, (), rfl, (), rfl, (), ?_, rfl⟩
          intro pair hpair
          obtain rfl := List.mem_singleton.1 hpair
          rfl

/-- The wallet's configuration of the same vault. -/
def bridge : ResolvedBridgeConfig where
  chainId := Number 1
  lockContractHex := hexEncode config.vault.toList
  assetContractHex := hexEncode config.asset.toList
  confirmations := 20
  tokenType := config.tokenType.toList
  coinId := config.coinId.toList

theorem describes : bridge.Describes config := by
  constructor <;> rfl

theorem withinReach {depth : Nat} (h : depth ≤ MAX_SPLIT_DEPTH) :
    WithinReach sdk bridge config trustBase (tokenOf (splits depth)) := by
  have hlineage : lineage sdk (tokenOf (splits depth)).genesis.transaction.justification =
      (depth, some lock) := lineage_splits depth
  have hlock := BridgePlugin.fromCborBytes_eq_ok.1 decode_lock
  constructor
  · intro obligations _
    rw [hlineage]
    refine ⟨h, fun j hj => ?_⟩
    have hfields := hj.carries (by rw [hlineage]) hlock
    have hamount : (5 : UInt64) = j.amount := congrArg LockFields.amount hfields
    rw [← hamount]
    decide
  · intro _ bytes f hlast hf _ _ _
    rw [hlineage] at hlast
    cases hlast
    rw [hf.unique hlock]
    exact ⟨rfl, by decide, by decide⟩

end Sample

/-- The sample token at the bound. -/
theorem recognised_iff_sample : Recognised Sample.sdk Sample.deserializer Sample.bridge Sample.config
    Guest.Sample.trustBase (Sample.tokenOf (Sample.splits 8)) :=
  (recognised_iff Sample.alike Sample.splitTagged Sample.describes).2
    (Sample.withinReach (by decide))

/-- One payment further the circuit still returns the token, and the wallet does not know it. -/
theorem recognised_counterexample : ¬ Recognised Sample.sdk Sample.deserializer Sample.bridge
    Sample.config Guest.Sample.trustBase (Sample.tokenOf (Sample.splits 9)) := by
  intro h
  have hminted := (h.accepted _ (Sample.accepted 9)).1
  obtain ⟨hdepth, -⟩ := (mintedAgainst_eq_true Sample.alike Sample.splitTagged Sample.describes).1
    hminted
  have hlineage : lineage Sample.sdk
      (Sample.tokenOf (Sample.splits 9)).genesis.transaction.justification =
        (9, some Sample.lock) := Sample.lineage_splits 9
  rw [hlineage] at hdepth
  exact absurd hdepth (by decide)

end UnicityBridge.Backing
