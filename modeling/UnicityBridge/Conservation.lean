import UnicityBridge.GuestSound
import UnicityBridge.Lib.ConservingForest

/-!
# Value conservation per lock

The burned tokens that trace to one lock, through transfers and splits, are worth at most the lock.

Mints form a forest: a split output is a child of the mint whose token was burned for the split
(`Child`). A mint has one burn, since the aggregator certifies one transaction for each state and
nobody unlocks a burn predicate (`BurnedBy.unique`). So all children of a mint prove their values
against one manifest root, which makes the forest conserve value (`child_conserves`), and no mint is
both split and returned (`returned_antichain`). The sum over the returned tokens is then bounded by
the direct mint at the root, whose value is hashed in the lock digest (`value_conserved`).

What the SDK and the aggregator provide is in `SdkLaws`.
-/

set_option autoImplicit false

namespace UnicityBridge.Conservation

open UnicityBridge.Lib UnicityBridge.TokenSdk UnicityBridge.Verify UnicityBridge.Bridge
open UnicityBridge.Guest UnicityBridge.Lib.ConservingForest
open UnicityBridge.Core (ReturnLeaf)

/-! ## Assumptions -/

/-- Each transfer spends the state that the transaction before it created. -/
def Chained (sdk : Sdk) : Transaction → List CertifiedTransferTransaction → Prop
  | _, [] => True
  | previous, transfer :: rest =>
      transfer.transaction.lockScript = previous.recipient ∧
        transfer.transaction.sourceStateHash = sdk.stateHash previous ∧
        Chained sdk (.transfer transfer.transaction) rest

/-- What `Token::from_cbor` enforces about the transfers of a token. -/
def StateChained (sdk : Sdk) (token : Token) : Prop :=
  Chained sdk (.mint token.genesis.transaction) token.transactions

/-- What the bridge relies on outside its own code. `admitted` holds of the hashes of the trust bases
in use. -/
structure SdkLaws (sdk : Sdk) (config : Core.BridgeConfig) (admitted : Bytes32 → Prop) : Prop where
  /-- The aggregator certifies at most one transaction for each state id. -/
  unique : ∀ t t', Certified sdk admitted t → Certified sdk admitted t' →
    t.stateId sdk = t'.stateId sdk → t = t'
  /-- Entries at different keys of a sum tree add up to at most the sum in its root. -/
  splitSum : ∀ (root : Bytes) (sum : Nat) (outputs : Finset MintTransaction)
    (proof : MintTransaction → AllocationProof) (commitment : MintTransaction → Bytes)
    (value : MintTransaction → Nat),
    (∀ o ∈ outputs, ∀ o' ∈ outputs, o.tokenId sdk = o'.tokenId sdk → o = o') →
    (∀ output ∈ outputs, sdk.verifyAllocation (proof output) (output.tokenId sdk)
      (commitment output) (value output) root = some sum) →
    ∑ output ∈ outputs, value output ≤ sum
  /-- The source token of a split justification is decoded by `Token::from_cbor`. -/
  chained : ∀ bytes split, sdk.splitFromCbor bytes = some split → StateChained sdk split.token
  /-- No bytes decode both as a manifest and as a bridge-back reason. -/
  disjoint : ∀ bytes manifest reason, sdk.manifestFromCbor bytes = some manifest →
    decodeBridgeBackReason sdk config.reasonTag bytes ≠ .ok reason
  /-- A burn predicate is no signature predicate. -/
  burn_locked : ∀ reason, sdk.signatureKey (sdk.burnPredicate reason) = none
  /-- The state a mint spends is derived from its token id. -/
  mint_state : ∀ m m' : MintTransaction, m.tokenId sdk = m'.tokenId sdk →
    sdk.mintSourceStateHash m = sdk.mintSourceStateHash m'
  /-- Amounts are written big-endian. -/
  amounts : EncodesAmounts sdk

section Conservation

variable {sdk : Sdk} {config : Core.BridgeConfig} {admitted : Bytes32 → Prop}

/-! ## One mint for each token id, one burn for each mint -/

/-- A mint that is locked to the minter key of its token id and certified. -/
structure CertifiedMint (sdk : Sdk) (admitted : Bytes32 → Prop) (mint : MintTransaction) :
    Prop where
  minter : ∃ key, sdk.minterKey (mint.tokenId sdk) = some key ∧
    sdk.mintLockScript mint = sdk.signaturePredicate key
  certified : Certified sdk admitted (.mint mint)

theorem certifiedMint_of_verified {token : Token} (h : VerifiedToken sdk admitted token) :
    CertifiedMint sdk admitted token.genesis.transaction :=
  ⟨h.minter, h.genesis⟩

theorem CertifiedMint.unique (laws : SdkLaws sdk config admitted) {m m' : MintTransaction}
    (h : CertifiedMint sdk admitted m) (h' : CertifiedMint sdk admitted m')
    (hid : m.tokenId sdk = m'.tokenId sdk) : m = m' := by
  obtain ⟨key, hkey, hlock⟩ := h.minter
  obtain ⟨key', hkey', hlock'⟩ := h'.minter
  obtain rfl : key = key' := by
    rw [hid, hkey'] at hkey
    exact Option.some.inj hkey.symm
  have hstate : (Transaction.mint m).stateId sdk = (Transaction.mint m').stateId sdk := by
    simp only [Transaction.stateId, Transaction.lockScript, Transaction.sourceStateHash]
    rw [hlock, hlock', laws.mint_state m m' hid]
  exact Transaction.mint.inj (laws.unique _ _ h.certified h'.certified hstate)

/-- Certified transactions that follow the same transaction are the same. -/
theorem next_unique (laws : SdkLaws sdk config admitted) {previous : Transaction}
    {t t' : CertifiedTransferTransaction} {rest rest' : List CertifiedTransferTransaction}
    (h : Chained sdk previous (t :: rest)) (h' : Chained sdk previous (t' :: rest'))
    (ht : Certified sdk admitted (.transfer t.transaction))
    (ht' : Certified sdk admitted (.transfer t'.transaction)) : t.transaction = t'.transaction := by
  obtain ⟨hlock, hsource, -⟩ := h
  obtain ⟨hlock', hsource', -⟩ := h'
  have hstate : (Transaction.transfer t.transaction).stateId sdk =
      (Transaction.transfer t'.transaction).stateId sdk := by
    simp only [Transaction.stateId, Transaction.lockScript, Transaction.sourceStateHash]
    rw [hlock, hlock', hsource, hsource']
  exact Transaction.transfer.inj (laws.unique _ _ ht ht' hstate)

/-- Nothing certified follows a burn. -/
theorem chained_burn (laws : SdkLaws sdk config admitted) {burn : TransferTransaction}
    {reason : Bytes} (hburn : burn.recipient = sdk.burnPredicate reason)
    {rest : List CertifiedTransferTransaction} (h : Chained sdk (.transfer burn) rest)
    (hc : ∀ t ∈ rest, Certified sdk admitted (.transfer t.transaction)) : rest = [] := by
  cases rest with
  | nil => rfl
  | cons next rest =>
      obtain ⟨hlock, -, -⟩ := h
      obtain ⟨key, hkey⟩ := (hc next List.mem_cons_self).signatureKey
      simp only [Transaction.lockScript, hlock, Transaction.recipient, hburn,
        laws.burn_locked] at hkey
      cases hkey

/-- Two certified chains from one transaction that both end in a burn end in the same one, by
induction along the chains. -/
theorem chained_last_unique (laws : SdkLaws sdk config admitted)
    {ts ts' : List CertifiedTransferTransaction} {last last' : CertifiedTransferTransaction}
    {reason reason' : Bytes} :
    ∀ {previous : Transaction}, Chained sdk previous ts → Chained sdk previous ts' →
      (∀ t ∈ ts, Certified sdk admitted (.transfer t.transaction)) →
      (∀ t ∈ ts', Certified sdk admitted (.transfer t.transaction)) →
      ts.getLast? = some last → ts'.getLast? = some last' →
      last.transaction.recipient = sdk.burnPredicate reason →
      last'.transaction.recipient = sdk.burnPredicate reason' →
      last.transaction = last'.transaction := by
  -- by induction along the first chain: one state has one certified successor
  induction ts generalizing ts' with
  | nil =>
      intro previous _ _ _ _ hlast
      cases hlast
  | cons t rest ih =>
      intro previous h h' hc hc' hlast hlast' hburn hburn'
      cases ts' with
      | nil => cases hlast'
      | cons t' rest' =>
          have heq := next_unique laws h h' (hc t List.mem_cons_self) (hc' t' List.mem_cons_self)
          have hrest : ∀ u ∈ rest, Certified sdk admitted (.transfer u.transaction) :=
            fun u hu => hc u (List.mem_cons_of_mem t hu)
          have hrest' : ∀ u ∈ rest', Certified sdk admitted (.transfer u.transaction) :=
            fun u hu => hc' u (List.mem_cons_of_mem t' hu)
          obtain ⟨-, -, hchain⟩ := h
          obtain ⟨-, -, hchain'⟩ := h'
          cases rest with
          | nil =>
              -- the first chain ends here, so the second one does
              obtain rfl : t = last := by simpa using hlast
              obtain rfl := chained_burn laws (heq ▸ hburn) hchain' hrest'
              obtain rfl : t' = last' := by simpa using hlast'
              exact heq
          | cons u rest =>
              cases rest' with
              | nil =>
                  obtain rfl : t' = last' := by simpa using hlast'
                  have hnil := chained_burn laws (heq ▸ hburn') hchain hrest
                  cases hnil
              | cons u' rest' =>
                  rw [List.getLast?_cons_cons] at hlast hlast'
                  exact ih hchain (heq ▸ hchain') hrest hrest' hlast hlast' hburn hburn'

/-- A verified token of the mint ends in the burn. -/
structure BurnedBy (sdk : Sdk) (admitted : Bytes32 → Prop) (mint : MintTransaction)
    (burn : TransferTransaction) (token : Token) : Prop where
  genesis_eq : token.genesis.transaction = mint
  verified : VerifiedToken sdk admitted token
  chained : StateChained sdk token
  last : ∃ transfer, token.transactions.getLast? = some transfer ∧ transfer.transaction = burn
  locked : ∃ reason, burn.recipient = sdk.burnPredicate reason

/-- **A mint is burned once**, whatever tokens are shown for it. -/
theorem BurnedBy.unique (laws : SdkLaws sdk config admitted) {mint : MintTransaction}
    {burn burn' : TransferTransaction} {token token' : Token}
    (h : BurnedBy sdk admitted mint burn token) (h' : BurnedBy sdk admitted mint burn' token') :
    burn = burn' := by
  obtain ⟨last, hlast, rfl⟩ := h.last
  obtain ⟨last', hlast', rfl⟩ := h'.last
  obtain ⟨_, hlocked⟩ := h.locked
  obtain ⟨_, hlocked'⟩ := h'.locked
  have hchain := h.chained
  have hchain' := h'.chained
  rw [StateChained, h.genesis_eq] at hchain
  rw [StateChained, h'.genesis_eq] at hchain'
  exact chained_last_unique laws hchain hchain' h.verified.transfers h'.verified.transfers hlast
    hlast' hlocked hlocked'

/-! ## The forest of split outputs -/

/-- Output `child` was split off the burned token of `parent`. -/
def Child (sdk : Sdk) (admitted : Bytes32 → Prop) (child parent : MintTransaction) : Prop :=
  ∃ (output : Token) (split : SplitMintJustification)
    (outputAssets sourceAssets : PaymentAssetCollection) (manifest : SplitManifest)
    (transfer : CertifiedTransferTransaction),
    output.genesis.transaction = child ∧ CertifiedMint sdk admitted child ∧
      SplitChecks sdk output split outputAssets sourceAssets manifest transfer ∧
      BurnedBy sdk admitted parent transfer.transaction split.token

/-- The value of the bridged coin that a mint creates. -/
def coinValue (sdk : Sdk) (config : Core.BridgeConfig) (mint : MintTransaction) : Nat :=
  ((coinAsset sdk (sdkBridgeConfig config) mint).map Asset.value).getD 0

/-- The root of the bridged coin in a manifest: at the index of the coin among the source assets. -/
def coinRoot (sdk : Sdk) (config : Core.BridgeConfig) (source : MintTransaction)
    (manifest : SplitManifest) : Option Bytes := do
  let assets ← source.data.bind (decodeBridgedPaymentData sdk)
  let index ← assets.assets.findIdx? fun asset => asset.id == config.coinId.toList
  manifest.roots[index]?

theorem splitChecks_burnedBy (laws : SdkLaws sdk config admitted) {output : Token}
    {split : SplitMintJustification} {outputAssets sourceAssets : PaymentAssetCollection}
    {manifest : SplitManifest} {transfer : CertifiedTransferTransaction} {bytes : Bytes}
    (h : SplitChecks sdk output split outputAssets sourceAssets manifest transfer)
    (hsplit : sdk.splitFromCbor bytes = some split)
    (hverified : VerifiedToken sdk admitted split.token) :
    BurnedBy sdk admitted split.token.genesis.transaction transfer.transaction split.token where
  genesis_eq := rfl
  verified := hverified
  chained := laws.chained bytes split hsplit
  last := ⟨transfer, h.burn_eq, rfl⟩
  locked := ⟨_, h.predicate_eq⟩

/-- The coin of a split output is an entry of the sum tree whose root stands in the manifest, and the
sum in that root is the coin of the source. -/
theorem splitChecks_coin {output : Token} {split : SplitMintJustification}
    {outputAssets sourceAssets : PaymentAssetCollection} {manifest : SplitManifest}
    {transfer : CertifiedTransferTransaction} {asset : Asset}
    (h : SplitChecks sdk output split outputAssets sourceAssets manifest transfer)
    (hcoin : coinAsset sdk (sdkBridgeConfig config) output.genesis.transaction = some asset) :
    ∃ root source proof commitment,
      coinRoot sdk config split.token.genesis.transaction manifest = some root ∧
        coinAsset sdk (sdkBridgeConfig config) split.token.genesis.transaction = some source ∧
        sdk.verifyAllocation proof (output.genesis.transaction.tokenId sdk) commitment asset.value
          root = some source.value := by
  obtain ⟨data, hdata, hdecode⟩ := Option.bind_eq_some_iff.1 h.output_eq
  have hget : outputAssets.get config.coinId.toList = some asset := by
    rw [coinAsset, h.output_eq, Option.bind_some] at hcoin
    exact hcoin
  have hid : asset.id = config.coinId.toList := by simpa using List.find?_some hget
  -- the coin stands at some index of the output, and the proof at that index is its own
  obtain ⟨i, hi, hasset⟩ := List.getElem_of_mem (List.mem_of_find?_eq_some hget)
  have hi' : i < (outputAssets.assets.zip split.proofs).length := by
    rw [List.length_zip, h.proofs_length, min_self]
    exact hi
  have hpair := h.allocations data hdata _ (List.getElem_mem hi')
  rw [List.getElem_zip] at hpair
  simp only [verifyAllocations, hasset, hid, bind_eq_ok, okOr_eq_ok] at hpair
  obtain ⟨index, hindex, hmatch⟩ := hpair
  split at hmatch
  · next root source hroot hsource =>
    simp only [bind_eq_ok, okOr_eq_ok, ensure_eq_ok] at hmatch
    obtain ⟨sum, hproof, rfl⟩ := hmatch
    refine ⟨root, source, _, _, ?_, ?_, hproof⟩
    · simp only [coinRoot, h.source_eq, Option.bind_eq_bind, Option.bind_some, hindex, hroot]
    · rw [coinAsset, h.source_eq, Option.bind_some, PaymentAssetCollection.get,
        List.find?_eq_bind_findIdx?_getElem?]
      exact Option.bind_eq_some_iff.2 ⟨index, hindex, hsource⟩
  · cases hmatch

theorem coinValue_eq {mint : MintTransaction} {asset : Asset}
    (h : coinAsset sdk (sdkBridgeConfig config) mint = some asset) :
    coinValue sdk config mint = asset.value := by
  rw [coinValue, h]
  rfl

/-- **Splitting conserves value**: any outputs of one mint are worth at most the mint. All of them
prove their coin against one root, since the mint was burned once. -/
theorem child_conserves (laws : SdkLaws sdk config admitted) :
    Conserves (Child sdk admitted) (coinValue sdk config) := by
  intro p C hchild
  -- outputs without the coin add nothing
  have hfilter : ∑ c ∈ C, coinValue sdk config c =
      ∑ c ∈ C with (coinAsset sdk (sdkBridgeConfig config) c).isSome, coinValue sdk config c := by
    refine (Finset.sum_filter_of_ne fun c _ hne => ?_).symm
    by_contra hnone
    rw [coinValue, Option.not_isSome_iff_eq_none.1 hnone] at hne
    exact hne rfl
  rw [hfilter]
  generalize hD : {c ∈ C | (coinAsset sdk (sdkBridgeConfig config) c).isSome} = D
  have hcoin : ∀ c ∈ D, Child sdk admitted c p ∧
      ∃ asset, coinAsset sdk (sdkBridgeConfig config) c = some asset := by
    intro c hc
    rw [← hD, Finset.mem_filter] at hc
    exact ⟨hchild c hc.1, Option.isSome_iff_exists.1 hc.2⟩
  rcases D.eq_empty_or_nonempty with rfl | ⟨d, hd⟩
  · exact Nat.zero_le _
  -- the manifest of one output is the manifest of all
  obtain ⟨⟨output, split, oa, sa, manifest, transfer, rfl, -, hchecks, hburned⟩, asset, hasset⟩ :=
    hcoin d hd
  obtain ⟨root, source, -, -, hroot, hsource, -⟩ := splitChecks_coin hchecks hasset
  rw [hburned.genesis_eq] at hroot hsource
  have hentry : ∀ c ∈ D, ∃ proof commitment,
      sdk.verifyAllocation proof (c.tokenId sdk) commitment (coinValue sdk config c) root =
        some (coinValue sdk config p) := by
    intro c hc
    obtain ⟨⟨output', split', oa', sa', manifest', transfer', rfl, -, hchecks', hburned'⟩, asset',
      hasset'⟩ := hcoin c hc
    obtain ⟨root', source', proof, commitment, hroot', hsource', hproof⟩ :=
      splitChecks_coin hchecks' hasset'
    rw [hburned'.genesis_eq] at hroot' hsource'
    have hburn := hburned.unique laws hburned'
    obtain rfl : manifest = manifest' := by
      have hmanifest := hchecks'.manifest_eq
      rw [← hburn, hchecks.manifest_eq] at hmanifest
      exact Option.some.inj hmanifest
    obtain rfl : root = root' := Option.some.inj (hroot.symm.trans hroot')
    rw [coinValue_eq hasset', coinValue_eq hsource']
    exact ⟨proof, commitment, hproof⟩
  have : Nonempty AllocationProof := ⟨⟨[]⟩⟩
  choose! proof commitment hproof using hentry
  refine laws.splitSum root _ D proof commitment _ (fun c hc c' hc' hid => ?_) hproof
  obtain ⟨⟨_, _, _, _, _, _, -, hc, -⟩, -⟩ := hcoin c hc
  obtain ⟨⟨_, _, _, _, _, _, -, hc', -⟩, -⟩ := hcoin c' hc'
  exact hc.unique laws hc' hid

/-- The token of `burn` was burned to be returned: its last transfer carries a bridge-back reason. -/
def Returned (sdk : Sdk) (config : Core.BridgeConfig) (admitted : Bytes32 → Prop)
    (mint : MintTransaction) (transfer : TransferTransaction) (token : Token) : Prop :=
  BurnedBy sdk admitted mint transfer token ∧ ∃ bytes reason, transfer.data = some bytes ∧
    decodeBridgeBackReason sdk config.reasonTag bytes = .ok reason

/-- A mint that was split is not returned. -/
theorem not_returned_of_child (laws : SdkLaws sdk config admitted) {child parent : MintTransaction}
    {transfer : TransferTransaction} {token : Token} (hchild : Child sdk admitted child parent)
    (hreturned : Returned sdk config admitted parent transfer token) : False := by
  obtain ⟨_, _, _, _, manifest, burn, -, -, hchecks, hburned⟩ := hchild
  obtain ⟨hreturned, bytes, reason, hdata, hreason⟩ := hreturned
  have hmanifest := hchecks.manifest_eq
  rw [hburned.unique laws hreturned, hdata, Option.bind_some] at hmanifest
  exact laws.disjoint bytes manifest reason hmanifest hreason

theorem returned_antichain (laws : SdkLaws sdk config admitted) {L : Finset MintTransaction}
    (h : ∀ mint ∈ L, ∃ transfer token, Returned sdk config admitted mint transfer token) :
    Antichain (Child sdk admitted) L := by
  intro v _ w hw n hbelow
  cases hbelow with
  | here => rfl
  | step hchild _ =>
      obtain ⟨transfer, token, hreturned⟩ := h w hw
      exact absurd hreturned (not_returned_of_child laws hchild)

/-! ## From a token to the lock behind it -/

/-- The collected obligation belongs to a direct mint that the token descends from, by induction on
how far the justifications nest. -/
theorem lineage (laws : SdkLaws sdk config admitted) {trustBase : RootTrustBase} {tag : UInt64}
    (hadmitted : admitted (canonicalHash sdk trustBase)) :
    ∀ {token : Token} {obligations : List BridgeLockObligation}, VerifiedToken sdk admitted token →
      bridgeLockObligationsForVerifiedToken sdk token trustBase tag (sdkBridgeConfig config) =
        .ok obligations →
      ∃ n root obligation, Below (Child sdk admitted) n token.genesis.transaction root.transaction ∧
        CertifiedMint sdk admitted root.transaction ∧
        bridgeLockObligation sdk root tag (sdkBridgeConfig config) = .ok obligation ∧
        obligations = [obligation] := by
  intro token
  induction hsize : justificationSize token using Nat.strong_induction_on generalizing token with
  | _ size ih =>
      intro obligations hverified h
      rcases (obligationsForVerifiedToken_eq_ok sdk).1 h with
        ⟨obligation, hdirect, rfl⟩ | ⟨_, bytes, split, -, hbytes, hsplit, hchecked⟩
      · exact ⟨0, token.genesis, obligation, .here _, certifiedMint_of_verified hverified, hdirect,
          rfl⟩
      · obtain ⟨hsource, oa, sa, manifest, transfer, hchecks⟩ := verifySplitMint_ok sdk hchecked
        simp only [bridgeLockObligationsForTokenCertified, bind_eq_ok] at hsource
        obtain ⟨_, hcertified, hsource⟩ := hsource
        have hsourceVerified := verifiedToken_of_certified hadmitted hcertified
        have hlt : justificationSize split.token < size :=
          hsize ▸ justificationSize_lt sdk hbytes hsplit
        obtain ⟨n, root, obligation, hbelow, hroot⟩ := ih _ hlt rfl hsourceVerified hsource
        have hchild : Child sdk admitted token.genesis.transaction
            split.token.genesis.transaction :=
          ⟨token, split, oa, sa, manifest, transfer, rfl, certifiedMint_of_verified hverified,
            hchecks, splitChecks_burnedBy laws hchecks hsplit hsourceVerified⟩
        exact ⟨n + 1, root, obligation, hbelow.snoc hchild, hroot⟩

theorem u256FromBiguint_toNat (hamounts : EncodesAmounts sdk) {value : Nat} {amount : Bytes32}
    (h : u256FromBiguint sdk value = some amount) : amount.toNat = value := by
  rw [u256FromBiguint] at h
  split at h
  · cases h
  · rw [toByteArr_eq_some] at h
    rw [ByteArr.toNat, h, beNat_zeros_append, hamounts]

/-- The bytes hashed for the locks behind the certified direct mints. -/
def directInputs (sdk : Sdk) (config : Core.BridgeConfig) (admitted : Bytes32 → Prop) : Set Bytes :=
  {input | ∃ (genesis : CertifiedMintTransaction) (tag : UInt64)
    (obligation : BridgeLockObligation) (asset : Asset) (amount : Bytes32),
    CertifiedMint sdk admitted genesis.transaction ∧
      bridgeLockObligation sdk genesis tag (sdkBridgeConfig config) = .ok obligation ∧
      coinAsset sdk (sdkBridgeConfig config) genesis.transaction = some asset ∧
      u256FromBiguint sdk asset.value = some amount ∧
      input = lockInput (sdkBridgeConfig config) obligation.nonce amount
        (genesis.transaction.tokenId sdk) (sdk.sha256 genesis.transaction.recipient.toCbor)}

/-- A direct mint with the digest of a lock has the lock's token id and amount. -/
theorem direct_mint_of_digest (laws : SdkLaws sdk config admitted) {nonce : UInt64}
    {amount tokenId recipient : Bytes32}
    (hkeccak : Set.InjOn sdk.keccak256 (insert (lockInput (sdkBridgeConfig config) nonce amount
      tokenId recipient) (directInputs sdk config admitted)))
    {root : CertifiedMintTransaction} {tag : UInt64} {obligation : BridgeLockObligation}
    (hroot : CertifiedMint sdk admitted root.transaction)
    (hdirect : bridgeLockObligation sdk root tag (sdkBridgeConfig config) = .ok obligation)
    (hdigest : obligation.digest =
      lockDigest sdk (sdkBridgeConfig config) nonce amount tokenId recipient) :
    root.transaction.tokenId sdk = tokenId ∧
      coinValue sdk config root.transaction = amount.toNat := by
  obtain ⟨asset, word, hasset, hword, -, hhash⟩ := bridgeLockObligation_ok sdk hdirect
  have hinput := hkeccak
    (Set.mem_insert_of_mem _ ⟨root, tag, obligation, asset, word, hroot, hdirect, hasset, hword, rfl⟩)
    (Set.mem_insert _ _) (hhash.symm.trans hdigest)
  obtain ⟨rfl, rfl, -⟩ := lockInput_inj hinput
  rw [coinValue_eq hasset, u256FromBiguint_toNat laws.amounts hword]
  exact ⟨rfl, rfl⟩

/-! ## Conservation -/

/-- Some batch of burns that `validate_bridge_burns` accepts has this burn with this leaf. -/
def Accepted (sdk : Sdk) (config : Core.BridgeConfig) (admitted : Bytes32 → Prop)
    (pair : BridgeBurnWitness × ReturnLeaf) : Prop :=
  ∃ trustBaseHash leaves refs burns, admitted trustBaseHash ∧
    validateBridgeBurns sdk config trustBaseHash leaves refs burns = .ok () ∧
    pair ∈ burns.zip leaves

/-- The burned token has an obligation with the digest. -/
def TracesTo (sdk : Sdk) (config : Core.BridgeConfig) (burn : BridgeBurnWitness)
    (digest : Bytes32) : Prop :=
  ∃ obligations, bridgeLockObligationsForVerifiedToken sdk burn.token burn.trustBase
    burn.lockJustificationTag (sdkBridgeConfig config) = .ok obligations ∧
      ∃ obligation ∈ obligations, obligation.digest = digest

theorem verifiedToken_of_verifiedBurn {trustBaseHash : Bytes32} {burn : BridgeBurnWitness}
    (hadmitted : admitted trustBaseHash) (htrust : canonicalHash sdk burn.trustBase = trustBaseHash)
    (h : VerifiedBurn sdk trustBaseHash burn) : VerifiedToken sdk admitted burn.token := by
  unfold VerifiedBurn at h
  split at h
  · obtain ⟨trustBase, root, hhash, hanchor, hverified⟩ := h
    exact verifiedToken_of_root (hhash ▸ hadmitted) hanchor hverified
  · exact verifiedToken_of_certified (htrust ▸ hadmitted) h

/-- What acceptance says about one burn: its token was returned by the transfer whose nullifier is the
leaf's, and the leaf's amount is the value of the mint. -/
theorem accepted_returned (laws : SdkLaws sdk config admitted)
    {pair : BridgeBurnWitness × ReturnLeaf} (h : Accepted sdk config admitted pair)
    (hchained : StateChained sdk pair.1.token) :
    admitted (canonicalHash sdk pair.1.trustBase) ∧ VerifiedToken sdk admitted pair.1.token ∧
      pair.2.amount.toNat = coinValue sdk config pair.1.token.genesis.transaction ∧
      ∃ transfer, Returned sdk config admitted pair.1.token.genesis.transaction transfer
          pair.1.token ∧
        burnNullifier sdk (Core.configHash sdk.keccak256 config) transfer = .ok pair.2.nullifier := by
  obtain ⟨trustBaseHash, leaves, refs, burns, hadmitted, hvalid, hpair⟩ := h
  obtain ⟨-, -, obligations, hall, -⟩ := validateBridgeBurns_ok sdk hvalid
  obtain ⟨os, hburn⟩ := exists_of_forall₂ hall pair hpair
  have hverified := verifiedToken_of_verifiedBurn hadmitted hburn.trustBase hburn.verified
  obtain ⟨transfer, bytes, reason, hlast, hdata, hrecipient, hreason, -, -, -, -, -, -, hnullifier⟩ :=
    validateTerminalBurn_ok sdk hburn.terminal
  obtain ⟨data, payment, asset, hmintData, hpayment, hasset, hamount⟩ :=
    validateCurrentValue_ok sdk laws.amounts hburn.value
  have hcoin : coinAsset sdk (sdkBridgeConfig config) pair.1.token.genesis.transaction =
      some asset := by
    rw [coinAsset, hmintData, Option.bind_some, hpayment, Option.bind_some]
    exact hasset
  refine ⟨hburn.trustBase ▸ hadmitted, hverified, by rw [hamount, coinValue_eq hcoin],
    transfer.transaction, ⟨?_, bytes, reason, hdata, hreason⟩, hnullifier⟩
  exact ⟨rfl, hverified, hchained, ⟨transfer, hlast, rfl⟩, ⟨_, hrecipient⟩⟩

/-- **Value is conserved for each lock.** Accepted burns with distinct nullifiers that trace to one
lock return at most the amount of the lock. -/
theorem value_conserved (laws : SdkLaws sdk config admitted) {nonce : UInt64}
    {amount tokenId recipient : Bytes32}
    (hkeccak : Set.InjOn sdk.keccak256 (insert (lockInput (sdkBridgeConfig config) nonce amount
      tokenId recipient) (directInputs sdk config admitted)))
    {returns : List (BridgeBurnWitness × ReturnLeaf)}
    (hnullifiers : (returns.map fun pair => pair.2.nullifier).Nodup)
    (haccepted : ∀ pair ∈ returns, Accepted sdk config admitted pair)
    (hchained : ∀ pair ∈ returns, StateChained sdk pair.1.token)
    (htraces : ∀ pair ∈ returns, TracesTo sdk config pair.1
      (lockDigest sdk (sdkBridgeConfig config) nonce amount tokenId recipient)) :
    Core.amountSum (returns.map Prod.snd) ≤ amount.toNat := by
  have hfacts := fun pair hpair =>
    accepted_returned laws (haccepted pair hpair) (hchained pair hpair)
  -- every return descends from a direct mint of the lock
  have hroots : ∀ pair ∈ returns, ∃ n root,
      Below (Child sdk admitted) n pair.1.token.genesis.transaction root ∧
        CertifiedMint sdk admitted root ∧ root.tokenId sdk = tokenId ∧
        coinValue sdk config root = amount.toNat := by
    intro pair hpair
    obtain ⟨hadmitted, hverified, -⟩ := hfacts pair hpair
    obtain ⟨obligations, hobligations, obligation, hmem, hdigest⟩ := htraces pair hpair
    obtain ⟨n, root, o, hbelow, hroot, hdirect, rfl⟩ :=
      lineage laws hadmitted hverified hobligations
    obtain rfl := List.mem_singleton.1 hmem
    obtain ⟨hid, hvalue⟩ := direct_mint_of_digest laws hkeccak hroot hdirect hdigest
    exact ⟨n, root.transaction, hbelow, hroot, hid, hvalue⟩
  -- different returns burn different mints
  have hmints : (returns.map fun pair => pair.1.token.genesis.transaction).Nodup := by
    refine List.Nodup.map_on (fun pair hpair pair' hpair' heq => ?_) hnullifiers.of_map
    obtain ⟨-, -, -, transfer, ⟨hburned, -⟩, hnullifier⟩ := hfacts pair hpair
    obtain ⟨-, -, -, transfer', ⟨hburned', -⟩, hnullifier'⟩ := hfacts pair' hpair'
    rw [heq] at hburned
    rw [hburned.unique laws hburned', hnullifier'] at hnullifier
    exact List.inj_on_of_nodup_map hnullifiers hpair hpair' (Except.ok.inj hnullifier).symm
  have hsum : Core.amountSum (returns.map Prod.snd) =
      ∑ mint ∈ (returns.map fun pair => pair.1.token.genesis.transaction).toFinset,
        coinValue sdk config mint := by
    rw [List.sum_toFinset _ hmints, Core.amountSum, List.map_map, List.map_map]
    exact congrArg List.sum (List.map_congr_left fun pair hpair => (hfacts pair hpair).2.2.1)
  rw [hsum]
  cases returns with
  | nil => exact Nat.zero_le _
  | cons first rest =>
      obtain ⟨_, root, -, hroot, hid, hvalue⟩ := hroots first List.mem_cons_self
      rw [← hvalue]
      refine sum_le_of_antichain (child_conserves laws) (fun mint hmint => ?_)
        (returned_antichain laws fun mint hmint => ?_)
      · obtain ⟨pair, hpair, rfl⟩ := List.mem_map.1 (List.mem_toFinset.1 hmint)
        obtain ⟨n, root', hbelow, hroot', hid', -⟩ := hroots pair hpair
        obtain rfl := hroot'.unique laws hroot (hid'.trans hid.symm)
        exact ⟨n, hbelow⟩
      · obtain ⟨pair, hpair, rfl⟩ := List.mem_map.1 (List.mem_toFinset.1 hmint)
        obtain ⟨-, -, -, transfer, hreturned, -⟩ := hfacts pair hpair
        exact ⟨transfer, pair.1.token, hreturned⟩

end Conservation

/-! ## A split whose outputs are returned -/

namespace Sample

open UnicityBridge.Guest.Sample

/-- The sample's trust base is the only one in use. -/
def admitted (hash : Bytes32) : Prop := hash = trustBaseHash

/-- The sample's aggregator certified the mints and burns of the coins. -/
theorem mem_of_certified {transaction : Transaction} (h : Certified sdk admitted transaction) :
    transaction ∈ transactions := by
  by_contra hnot
  obtain ⟨_, _, _, _, -, -, hinclusion⟩ := h
  simp only [verifyInclusionAgainstRoot, bind_eq_ok, ensure_eq_ok] at hinclusion
  obtain ⟨-, -, -, -, -, -, -, hincluded, -⟩ := hinclusion
  have hhash : sdk.transactionHash transaction = ⟨.sha256, []⟩ := if_neg hnot
  rw [hhash] at hincluded
  have hempty : (transaction.stateId sdk).toList = [] := eq_of_beq hincluded
  have hlength := congrArg List.length hempty
  rw [List.Vector.toList_length] at hlength
  cases hlength

/-- A certified mint is the mint of a coin. -/
theorem coin_of_certified {mint' : MintTransaction} (h : Certified sdk admitted (.mint mint')) :
    ∃ coin, mint' = mint coin := by
  have hmem := mem_of_certified h
  simp only [transactions, List.mem_cons, Transaction.mint.injEq, reduceCtorEq, List.not_mem_nil,
    or_false, false_or] at hmem
  rcases hmem with rfl | rfl | rfl | rfl
  · exact ⟨.whole, rfl⟩
  · exact ⟨.source, rfl⟩
  · exact ⟨.left, rfl⟩
  · exact ⟨.right, rfl⟩

theorem states_nodup : (transactions.map fun t => t.stateId sdk).Nodup := by decide +kernel

/-- What an entry of the sum tree adds. -/
def share (tokenId : Bytes32) : Nat :=
  if tokenId = word Coin.left.number then 3 else if tokenId = word Coin.right.number then 4 else 0

theorem share_of_entry {tokenId : Bytes32} {value : Nat} (h : (tokenId, value) ∈ entries) :
    tokenId ∈ ({word Coin.left.number, word Coin.right.number} : Finset Bytes32) ∧
      value = share tokenId := by
  rcases List.mem_pair.1 h with heq | heq
  · obtain ⟨rfl, rfl⟩ := Prod.mk.inj heq
    decide
  · obtain ⟨rfl, rfl⟩ := Prod.mk.inj heq
    decide

theorem entry_of_verified {proof : AllocationProof} {tokenId : Bytes32} {commitment root : Bytes}
    {value sum : Nat} (h : sdk.verifyAllocation proof tokenId commitment value root = some sum) :
    (tokenId, value) ∈ entries ∧ sum = 7 := by
  have hverify : (if root = [7] ∧ (tokenId, value) ∈ entries then some 7 else none) = some sum := h
  split at hverify
  · next hentry => exact ⟨hentry.2, (Option.some.inj hverify).symm⟩
  · cases hverify

theorem laws : SdkLaws sdk config admitted where
  unique t t' h h' heq :=
    List.inj_on_of_nodup_map states_nodup (mem_of_certified h) (mem_of_certified h') heq
  splitSum := by
    intro root sum outputs proof commitment value hids hproof
    have hentry := fun output houtput => entry_of_verified (hproof output houtput)
    rcases outputs.eq_empty_or_nonempty with rfl | ⟨output, houtput⟩
    · exact Nat.zero_le _
    · obtain ⟨-, rfl⟩ := hentry output houtput
      -- the outputs stand at different keys of the tree, which has two
      have hinj : Set.InjOn (fun o : MintTransaction => o.tokenId sdk) (outputs : Set MintTransaction) :=
        fun o ho o' ho' => hids o ho o' ho'
      calc ∑ o ∈ outputs, value o
          = ∑ o ∈ outputs, share (o.tokenId sdk) :=
            Finset.sum_congr rfl fun o ho => (share_of_entry (hentry o ho).1).2
        _ = ∑ tokenId ∈ outputs.image fun o => o.tokenId sdk, share tokenId :=
            (Finset.sum_image hinj).symm
        _ ≤ ∑ tokenId ∈ {word Coin.left.number, word Coin.right.number}, share tokenId := by
            refine Finset.sum_le_sum_of_subset fun tokenId hmem => ?_
            obtain ⟨o, ho, rfl⟩ := Finset.mem_image.1 hmem
            exact (share_of_entry (hentry o ho).1).1
        _ = 7 := by decide
  chained := by
    intro bytes split h
    obtain ⟨-, rfl⟩ := splitFromCbor_eq_some h
    exact ⟨rfl, rfl, trivial⟩
  disjoint := by
    intro bytes manifest reason h hreason
    have hmanifest : (if bytes = manifestBytes then some (⟨[[7]]⟩ : SplitManifest) else none) =
        some manifest := h
    split at hmanifest
    · next hbytes =>
      rw [hbytes] at hreason
      cases hreason
    · cases hmanifest
  burn_locked _ := rfl
  mint_state := by
    intro m m' (hid : m.salt = m'.salt)
    show DataHash.sha256 _ = DataHash.sha256 _
    rw [hid]
  amounts := encodeAmount_beNat

/-- The lock that a coin of its own lock was minted against. -/
def lockOf (coin : Coin) : Bytes :=
  lockInput (sdkBridgeConfig config) coin.nonce.toUInt64 (ByteArr.ofNat 32 coin.amount.toNat)
    (word coin.number) (sdk.sha256 owner.toCbor)

theorem coin_mint (coin : Coin) : coinAsset sdk (sdkBridgeConfig config) (mint coin) =
    some ⟨config.coinId.toList, coin.amount.toNat⟩ := by
  have hdata : (mint coin).data = some (paymentBytes coin.amount) := rfl
  rw [coinAsset, hdata, Option.bind_some, decode_payment]
  rfl

/-- A lock decodes under its own tag only. -/
theorem tag_of_lock {coin : Coin} (hroot : coin.root = coin) {tag : UInt64}
    {lock : BridgeLockJustification}
    (h : BridgeLockJustification.fromCborBytes sdk (justification coin) tag = .ok lock) :
    tag = 1330002 := by
  simp only [BridgeLockJustification.fromCborBytes, bind_eq_ok, okOr_eq_ok] at h
  obtain ⟨-, -, inner, hinner, -⟩ := h
  have hread : readTag (justification coin) tag = some inner := hinner
  have hhead : readHead (justification coin) = some (6, 1330002, (justification coin).drop 5) := by
    cases coin with
    | whole => rfl
    | source => rfl
    | left => cases hroot
    | right => cases hroot
  simp only [readTag, hhead, Option.bind_eq_bind, Option.bind_some] at hread
  split at hread
  · next heq => exact UInt64.toNat_inj.1 heq.2.symm
  · cases hread

/-- A split is no lock under any tag: what it tags is no array. -/
theorem split_no_lock {coin : Coin} (hroot : coin.root ≠ coin) {tag : UInt64}
    {lock : BridgeLockJustification} :
    BridgeLockJustification.fromCborBytes sdk (justification coin) tag ≠ .ok lock := by
  intro h
  simp only [BridgeLockJustification.fromCborBytes, bind_eq_ok, okOr_eq_ok] at h
  obtain ⟨-, -, inner, hinner, items, hitems, -⟩ := h
  have hread : readTag (justification coin) tag = some inner := hinner
  have hhead : readHead (justification coin) = some (6, 39044, lockBytes 7 1) := by
    cases coin with
    | whole => exact absurd rfl hroot
    | source => exact absurd rfl hroot
    | left => rfl
    | right => rfl
  simp only [readTag, hhead, Option.bind_eq_bind, Option.bind_some] at hread
  split at hread
  · obtain rfl := Option.some.inj hread
    cases hitems
  · cases hread

/-- Only the coins of their own locks are direct mints. -/
theorem direct_root {coin : Coin} {proof : InclusionProof} {tag : UInt64}
    {obligation : BridgeLockObligation}
    (h : bridgeLockObligation sdk ⟨mint coin, proof⟩ tag (sdkBridgeConfig config) = .ok obligation) :
    coin.root = coin ∧ obligation.nonce = coin.nonce.toUInt64 := by
  simp only [bridgeLockObligation, bind_eq_ok, okOr_eq_ok, Except.ok.injEq] at h
  obtain ⟨-, -, bytes, hbytes, lock, hdecoded, -, -, _, -, _, -, _, -, -, -, _, -, rfl⟩ := h
  obtain rfl : justification coin = bytes := Option.some.inj hbytes
  by_cases hroot : coin.root = coin
  · have htag : tag = 1330002 := tag_of_lock hroot hdecoded
    rw [htag, decode_lock hroot] at hdecoded
    cases hdecoded
    exact ⟨hroot, rfl⟩
  · exact absurd hdecoded (split_no_lock hroot)

/-- Two locks are hashed for the sample. -/
theorem directInputs_subset : directInputs sdk config admitted ⊆ {lockOf .whole, lockOf .source} := by
  intro input hinput
  obtain ⟨⟨transaction, proof⟩, tag, obligation, asset, amount, hminted, hdirect, hasset, hword,
    hinput⟩ := hinput
  obtain ⟨coin, rfl⟩ := coin_of_certified hminted.certified
  obtain ⟨hroot, hnonce⟩ := direct_root hdirect
  obtain rfl := Option.some.inj ((coin_mint coin).symm.trans hasset)
  obtain rfl := Option.some.inj ((word_amount coin).symm.trans hword)
  have howner : (mint coin).recipient = owner := rfl
  have hid : (mint coin).tokenId sdk = word coin.number := rfl
  have hlock : input = lockOf coin := by
    rw [hinput, hnonce, howner, hid]
    rfl
  rw [hlock]
  cases coin with
  | whole => exact Set.mem_insert _ _
  | source => exact Set.mem_insert_of_mem _ (Set.mem_singleton _)
  | left => cases hroot
  | right => cases hroot

/-- Both outputs trace to the lock of the source. -/
theorem traces {coin : Coin} (hroot : coin.root = .source) : TracesTo sdk config (witness coin)
    (lockDigest sdk (sdkBridgeConfig config) Coin.source.nonce.toUInt64
      (ByteArr.ofNat 32 Coin.source.amount.toNat) (word Coin.source.number)
      (sdk.sha256 owner.toCbor)) := by
  refine ⟨_, obligations coin, _, List.mem_cons_self, ?_⟩
  have hsource : Coin.source.root = .source := rfl
  rw [← obligation_root, hroot, obligation, hsource]

theorem locks_ne : sdk.keccak256 (lockOf .whole) ≠ sdk.keccak256 (lockOf .source) := by decide +kernel

end Sample

open UnicityBridge.Guest.Sample in
/-- The outputs of the split of a lock of 7 are returned in two batches: 3 and 4. -/
theorem value_conserved_sample : Core.amountSum [leaf .left, leaf .right] = 7 ∧
    Core.amountSum [leaf .left, leaf .right] ≤ (ByteArr.ofNat 32 7).toNat := by
  have hkeccak : Set.InjOn sdk.keccak256 (insert (lockInput (sdkBridgeConfig config)
      Coin.source.nonce.toUInt64 (ByteArr.ofNat 32 Coin.source.amount.toNat) (word Coin.source.number)
      (sdk.sha256 owner.toCbor)) (directInputs sdk config Sample.admitted)) := by
    have hpair : Set.InjOn sdk.keccak256 {Sample.lockOf .whole, Sample.lockOf .source} :=
      Set.injOn_pair.2 fun h => absurd h Sample.locks_ne
    exact hpair.mono (Set.insert_subset (.inr rfl) Sample.directInputs_subset)
  have haccepted : ∀ turn, ∀ pair ∈ (input turn).witness.bridgeBurns.zip (input turn).returnLeaves,
      Accepted sdk config Sample.admitted pair := fun turn pair hpair =>
    ⟨_, _, _, _, rfl, ((execute_eq_ok sdk).1 (input_accepted turn)).2.2.1, hpair⟩
  have hreturns : [leaf .left, leaf .right] =
      [(witness .left, leaf .left), (witness .right, leaf .right)].map Prod.snd := rfl
  refine ⟨by decide +kernel, ?_⟩
  rw [hreturns]
  refine value_conserved Sample.laws hkeccak (by decide) ?_ ?_ ?_
  · intro pair hpair
    rcases List.mem_pair.1 hpair with rfl | rfl
    · exact haccepted .first _ (List.mem_cons_of_mem _ List.mem_cons_self)
    · exact haccepted .second _ List.mem_cons_self
  · intro pair hpair
    rcases List.mem_pair.1 hpair with rfl | rfl <;> exact ⟨rfl, rfl, trivial⟩
  · intro pair hpair
    rcases List.mem_pair.1 hpair with rfl | rfl <;> exact Sample.traces rfl

end UnicityBridge.Conservation
