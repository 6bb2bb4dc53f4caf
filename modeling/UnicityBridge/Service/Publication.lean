import UnicityBridge.Service.Posting
import UnicityBridge.Service.Reuse
import UnicityBridge.VaultEncoding

/-!
# What the service lets out, and what it is paid

Whoever has the bundle of a batch can settle it, and pays himself nothing: the vault sends the fees to
the service only while their deadlines last. A service that submits its batches itself therefore keeps a
bundle back until no fee is due on it any more (`publication`), and admits only burns that pay it if it
settles them within its window (`bundles_pay`).
-/

set_option autoImplicit false

namespace UnicityBridge.Service

open UnicityBridge.Lib
open UnicityBridge.Core (ReturnLeaf)

section Bundles

variable {sdk : TokenSdk.Sdk} {codec : Wire.Codec} {retry : RetryPolicy} {policy : BatchPolicy}

/-! ## Bundles show returns -/

/-- The leaf is the one that a burn of the ledger returns. -/
def Ledger.Returns (sdk : TokenSdk.Sdk) (codec : Wire.Codec) (ledger : Ledger) (leaf : ReturnLeaf) :
    Prop :=
  ∃ id r, ledger.returns.get id = some r ∧ r.burn.returnLeaves sdk codec = [leaf]

/-- The bundle shows these leaves, which are of returns. -/
structure BatchBundle.Shows (sdk : TokenSdk.Sdk) (codec : Wire.Codec) (ledger : Ledger)
    (bundle : BatchBundle) (leaves : List ReturnLeaf) : Prop where
  shown : bundle.leaves = leaves.map LeafHex.from
  nonempty : leaves ≠ []
  returns : ∀ leaf ∈ leaves, ledger.Returns sdk codec leaf

/-- Every bundle of the ledger shows returns of the ledger. -/
def Ledger.Drawn (sdk : TokenSdk.Sdk) (codec : Wire.Codec) (ledger : Ledger) : Prop :=
  ∀ b batch bundle, ledger.batches.get b = some batch → batch.bundle = some bundle →
    ∃ leaves, bundle.Shows sdk codec ledger leaves

theorem Ledger.Returns.apply {ledger : Ledger} {leaf : ReturnLeaf} (h : ledger.Returns sdk codec leaf)
    (retry : RetryPolicy) {e : Event} (he : e.Admissible sdk codec ledger) :
    (ledger.apply sdk.sha256 retry e).Returns sdk codec leaf := by
  obtain ⟨id, r, hr, hleaf⟩ := h
  obtain ⟨r', hr', hburn⟩ := @Ledger.burn_apply _ _ retry _ _ he _ _ hr
  exact ⟨id, r', hr', hburn ▸ hleaf⟩

theorem BatchBundle.Shows.apply {ledger : Ledger} {bundle : BatchBundle} {leaves : List ReturnLeaf}
    (h : bundle.Shows sdk codec ledger leaves) (retry : RetryPolicy) {e : Event}
    (he : e.Admissible sdk codec ledger) :
    bundle.Shows sdk codec (ledger.apply sdk.sha256 retry e) leaves :=
  ⟨h.shown, h.nonempty, fun leaf hleaf => (h.returns leaf hleaf).apply retry he⟩

/-- **Where a bundle comes from**: it is proven, or it is the bundle that the batch had before. -/
theorem Ledger.bundle_cases {ledger : Ledger} {e : Event} (he : e.Admissible sdk codec ledger)
    {b : String} {batch' : Batch} {bundle : BatchBundle}
    (hbatch : (ledger.apply sdk.sha256 retry e).batches.get b = some batch')
    (hbundle : batch'.bundle = some bundle) :
    (∃ batch old, ledger.batches.get b = some batch ∧ batch.bundle = some old ∧
        bundle.leaves = old.leaves) ∨
      ∃ root atMs, e = .batchProven b bundle root atMs := by
  rcases Ledger.batches_cases he.ne_snapshot hbatch with ⟨batch, hget, rfl⟩ | ⟨members, atMs, rfl, rfl, -⟩
  · have hkept : batch.bundle = some bundle → ∃ batch old, ledger.batches.get b = some batch ∧
        batch.bundle = some old ∧ bundle.leaves = old.leaves :=
      fun hsame => ⟨batch, bundle, hget, hsame, rfl⟩
    cases e with
    | batchProven b' new root atMs =>
        by_cases hb : b = b'
        · simp only [Event.batchAfter, if_pos hb, Option.some.injEq] at hbundle
          subst hb hbundle
          exact .inr ⟨root, atMs, rfl⟩
        · simp only [Event.batchAfter, if_neg hb] at hbundle
          exact .inl (hkept hbundle)
    | batchSettled b' txid atMs =>
        by_cases hb : b = b'
        · simp only [Event.batchAfter, if_pos hb, Option.map_eq_some_iff] at hbundle
          obtain ⟨old, hold, rfl⟩ := hbundle
          exact .inl ⟨batch, old, hget, hold, rfl⟩
        · simp only [Event.batchAfter, if_neg hb] at hbundle
          exact .inl (hkept hbundle)
    | batchRebased b' atMs =>
        by_cases hb : b = b'
        · simp only [Event.batchAfter, if_pos hb] at hbundle
          cases hbundle
        · simp only [Event.batchAfter, if_neg hb] at hbundle
          exact .inl (hkept hbundle)
    | batchFailed b' | batchInterrupted b' =>
        by_cases hb : b = b'
        · simp only [Event.batchAfter, if_pos hb] at hbundle
          exact .inl (hkept hbundle)
        · simp only [Event.batchAfter, if_neg hb] at hbundle
          exact .inl (hkept hbundle)
    | snapshot | accepted | requeued | batchFormed | returnExcluded => exact .inl (hkept hbundle)
  · cases hbundle

/-- A new proof shows the burns that were assembled, and an earlier one shows what it did. -/
theorem Proves.shows {w : History} (hs : Sound sdk codec retry policy w)
    (hdrawn : w.state.Drawn sdk codec) {b : String} {bundle : BatchBundle} {root : String}
    {assembled : Assembled} (h : Proves sdk codec b w bundle root assembled) :
    ∃ leaves, bundle.Shows sdk codec w.state leaves := by
  rcases h.proof with ⟨reused, hreused, rfl⟩ | ⟨ledger, proof, -, rfl⟩
  · obtain ⟨b', batch, hget, hbundle, -⟩ := Ledger.proofFor_eq_some hreused
    obtain ⟨leaves, hshows⟩ := hdrawn b' batch reused hget hbundle
    exact ⟨leaves, hshows.shown, hshows.nonempty, hshows.returns⟩
  · obtain ⟨ledger', burns, acc, rejected, hheard, hburns, hassemble⟩ := h.made
    -- the burns that were assembled are the ledger's still
    have hholds : ∀ burn ∈ burns, ∃ id r, w.state.returns.get id = some r ∧ r.burn = burn := by
      intro burn hburn
      obtain ⟨id, r, hr, rfl⟩ := hburns burn hburn
      obtain ⟨r', hr', hsame⟩ := hs.burn_of_past hheard hr
      exact ⟨id, r', hr', hsame⟩
    have hchecked : ∀ burn ∈ burns, burn.Checked sdk codec := by
      intro burn hburn
      obtain ⟨id, r, hr, rfl⟩ := hholds burn hburn
      exact (Sound.ledger hs).1.prechecked id r hr
    obtain ⟨taken, hsub, hstated⟩ := says_of_assemble hchecked hassemble
    have hleaf : ∀ burn ∈ taken, ∃ leaf : ReturnLeaf, burn.returnLeaves sdk codec = [leaf] := by
      intro burn hburn
      obtain ⟨leaf, hleaves, -⟩ := (hchecked burn (hsub hburn)).returnLeaves
      exact ⟨leaf, hleaves⟩
    refine ⟨assembled.leaves, rfl, ?_, fun leaf hmem => ?_⟩
    · obtain ⟨burn, hburn, -⟩ := hstated.values
      obtain ⟨leaf, hleaves⟩ := hleaf burn hburn
      have hmem : leaf ∈ assembled.leaves := by
        rw [hstated.leaves]
        exact List.mem_flatMap.2 ⟨burn, hburn, hleaves ▸ List.mem_singleton_self leaf⟩
      exact List.ne_nil_of_mem hmem
    · rw [hstated.leaves] at hmem
      obtain ⟨burn, hburn, hin⟩ := List.mem_flatMap.1 hmem
      obtain ⟨own, hleaves⟩ := hleaf burn hburn
      obtain ⟨id, r, hr, rfl⟩ := hholds burn (hsub hburn)
      rw [hleaves, List.mem_singleton] at hin
      exact ⟨id, r, hr, hin ▸ hleaves⟩

/-- **In a sound history every bundle shows returns of the ledger.** -/
theorem Sound.drawn {w : History} (h : Sound sdk codec retry policy w) : w.state.Drawn sdk codec := by
  refine System.Guarded.invariant (I := fun w => w.state.Drawn sdk codec) ?_ ?_ ?_ ?_ h
  · intro b batch bundle hget
    cases hget
  · intro w e hs ih hallowed hadmits b batch' bundle hget hbundle
    rcases Ledger.bundle_cases hadmits hget hbundle with
      ⟨batch, old, hbatch, hold, hsame⟩ | ⟨root, atMs, rfl⟩
    · obtain ⟨leaves, hshows⟩ := ih b batch old hbatch hold
      have hnow : bundle.Shows sdk codec w.state leaves :=
        ⟨hsame.trans hshows.shown, hshows.nonempty, hshows.returns⟩
      exact ⟨leaves, hnow.apply retry hadmits⟩
    · cases hallowed with
      | run hrun =>
          cases hrun with
          | prove _ proves =>
              obtain ⟨leaves, hshows⟩ := proves.shows hs ih
              have hadmissible : Event.Admissible sdk codec w.state (.batchProven b bundle root atMs) :=
                hadmits
              exact ⟨leaves, hshows.apply retry hadmissible⟩
  · intro w e hs ih hother b batch' bundle hget hbundle
    have hintake : Intake sdk codec w.state e := hother
    have haside := @Intake.aside sdk codec retry _ (Sound.ledger hs).1 _ hintake
    have hsame : w.state.batches.get b = some batch' := by
      rw [← haside.batches]
      exact hget
    obtain ⟨leaves, hshows⟩ := ih b batch' bundle hsame hbundle
    exact ⟨leaves, hshows.apply retry hintake.admissible⟩
  · exact fun w moment hs ih _ _ => ih

/-! ## What the service is paid -/

section Runs

variable {hexError : String → String} {deployed : AppState → Prop} {p p' : Hosting}

/-- A handler let the leaf in when the clock said `readMs`, and the vault pays the service its floor for
it until the service's window is over. -/
structure LetIn (sdk : TokenSdk.Sdk) (codec : Wire.Codec) (deployed : AppState → Prop)
    (c : Handled Ledger Event Query Query.Answer (AppState × Request)) (leaf : ReturnLeaf)
    (readMs : Nat) : Prop where
  deployed : deployed c.request.1
  accepted : ∃ burn record, c.event = .accepted burn record ∧ burn.returnLeaves sdk codec = [leaf]
  said : Clock.Said c.heard readMs
  paid : c.request.1.fee.isEnforced = true → c.request.1.fee.Valid →
    leaf.feeRecipient = c.request.1.fee.recipient ∧ ∀ timestamp : Vault.Word,
      timestamp.toNat ≤ min ((UInt64.ofNat (readMs / 1000)).toNat + c.request.1.fee.settleWindow.toNat)
        (2 ^ 64 - 1) →
      c.request.1.fee.floor.toNat ≤ (Vault.feeDue timestamp (Vault.ofCore leaf)).toNat

/-- The return of a burn was accepted by a handler. -/
theorem Sound.accepted {w : History} (h : Sound sdk codec retry policy w) {id : String} {r : Return}
    (hr : w.state.returns.get id = some r) :
    ∃ ledger record, (ledger, Label.other (.accepted r.burn record)) ∈ w.past := by
  have hcases : ∀ {w : History} {e : Event} {id : String} {r' : Return},
      e.Admissible sdk codec w.state →
        (w.state.apply sdk.sha256 retry e).returns.get id = some r' →
          (∃ r, w.state.returns.get id = some r ∧ r'.burn = r.burn) ∨
            ∃ record, e = .accepted r'.burn record := by
    intro w e id r' hadmits hr'
    rcases Ledger.returns_cases hadmits.ne_snapshot hr' with ⟨r, hr, rfl⟩ | ⟨burn, record, rfl, -, -, rfl⟩
    · exact .inl ⟨r, hr, rfl⟩
    · exact .inr ⟨record, rfl⟩
  induction h generalizing r with
  | initial => cases hr
  | @own w e hbefore hallowed hadmits ih =>
      rcases hcases hadmits hr with ⟨r₀, hr₀, hsame⟩ | ⟨record, rfl⟩
      · obtain ⟨ledger, record, hmem⟩ := ih hr₀
        exact ⟨ledger, record, List.mem_cons_of_mem _ (hsame ▸ hmem)⟩
      · -- the orchestrator accepts no burns
        cases hallowed with
        | run hrun => cases hrun
  | @other w e hbefore hother ih =>
      have hintake : Intake sdk codec w.state e := hother
      rcases hcases hintake.admissible hr with ⟨r₀, hr₀, hsame⟩ | ⟨record, rfl⟩
      · obtain ⟨ledger, record, hmem⟩ := ih hr₀
        exact ⟨ledger, record, List.mem_cons_of_mem _ (hsame ▸ hmem)⟩
      · exact ⟨w.state, record, List.mem_cons_self⟩
  | heard _ _ _ ih | outside _ _ ih | started _ ih =>
      obtain ⟨ledger, record, hmem⟩ := ih hr
      exact ⟨ledger, record, List.mem_cons_of_mem _ hmem⟩

/-- A burn that pays the policy pays it at the vault. -/
theorem FeePolicy.Pays.due {fee : FeePolicy} {leaf : ReturnLeaf} {nowSecs : UInt64}
    (h : fee.Pays leaf nowSecs) (henforced : fee.isEnforced = true) (hvalid : fee.Valid)
    {timestamp : Vault.Word}
    (htime : timestamp.toNat ≤ min (nowSecs.toNat + fee.settleWindow.toNat) (2 ^ 64 - 1)) :
    fee.floor.toNat ≤ (Vault.feeDue timestamp (Vault.ofCore leaf)).toNat := by
  have hfloor : 0 < fee.floor.toNat := FeePolicy.isEnforced_iff.1 henforced
  have hwithin : fee.floor.toNat ≤ fee.amount.toNat := by
    have hle := of_decide_eq_true hvalid.floorWithin
    exact BitVec.le_def.1 hle
  -- a positive fee is collected by an account
  have hcollected : fee.recipient ≠ ByteArr.zero 20 := by
    have hcollectable := hvalid.collectable
    simp only [FeePolicy.isCollectable, Bool.or_eq_true, decide_eq_true_eq] at hcollectable
    refine hcollectable.resolve_left fun hzero => ?_
    rw [hzero] at hwithin
    have hnone : (0 : UInt128).toNat = 0 := rfl
    omega
  have hrecipient : (Vault.ofCore leaf).feeRecipient ≠ ByteArr.zero 20 := by
    show leaf.feeRecipient ≠ _
    rwa [h.recipient]
  have hdue : Vault.feeDue timestamp (Vault.ofCore leaf) = Abi.uint256 leaf.feeAmount :=
    if_pos ⟨hrecipient, htime.trans h.deadline⟩
  rw [hdue, Abi.uint256_toNat]
  exact h.amount

theorem Submission.returnLeaves {request : AppState × Request} {s : Submission}
    (h : Submitted sdk codec hexError deployed request s) :
    (s.burn sdk).returnLeaves sdk codec = [s.leaf] := by
  obtain ⟨-, req, -, hsubmission⟩ := h
  obtain ⟨-, -, hdecode, hleaf, -⟩ := submission_eq_ok hsubmission
  have hwire : (s.burn sdk).wireInput = s.wireInput := rfl
  rw [Burn.returnLeaves, hwire, hdecode]
  exact hleaf

/-- **Every return was let in.** -/
theorem Hosted.letIn (h : Hosted sdk codec retry policy hexError deployed p) {leaf : ReturnLeaf}
    (hleaf : p.state.Returns sdk codec leaf) :
    ∃ c ∈ p.commits, ∃ readMs, LetIn sdk codec deployed c leaf readMs := by
  obtain ⟨hreach, hcommits, hpast⟩ := hosted_reach h
  obtain ⟨id, r, hr, hleaves⟩ := hleaf
  obtain ⟨ledger, record, hmem⟩ := Sound.accepted (reach_sound hreach) hr
  obtain ⟨c, hc, -, hevent⟩ := hpast _ _ hmem
  obtain ⟨s, -, -, hsubmitted, -, hpaid⟩ := hcommits c hc
  obtain ⟨hburn, readMs, hsaid, hfree⟩ := hpaid r.burn record hevent
  have hsame : leaf = s.leaf := by
    rw [hburn, Submission.returnLeaves hsubmitted] at hleaves
    exact (List.cons.inj hleaves).1.symm
  refine ⟨c, hc, readMs, hsubmitted.deployed, ⟨r.burn, record, hevent, hleaves⟩, hsaid, ?_⟩
  intro henforced hvalid
  rcases FeePolicy.refusal_eq_none.1 hfree with hnone | hpays
  · rw [henforced] at hnone
    cases hnone
  · rw [hsame]
    exact ⟨hpays.recipient, fun timestamp htime => hpays.due henforced hvalid htime⟩

/-- **What is settled in time is paid for.** Each leaf of each bundle that the service holds, whatever
became of its batch, was let in by a handler under a policy that the vault pays in full until the end of
its window. -/
theorem bundles_pay (h : Hosted sdk codec retry policy hexError deployed p) {b : String} {batch : Batch}
    {bundle : BatchBundle} (hbatch : p.state.batches.get b = some batch)
    (hbundle : batch.bundle = some bundle) :
    ∃ leaves : List ReturnLeaf, bundle.leaves = leaves.map LeafHex.from ∧
      ∀ leaf ∈ leaves, ∃ c ∈ p.commits, ∃ readMs, LetIn sdk codec deployed c leaf readMs := by
  have hs := reach_sound (hosted_reach h).1
  obtain ⟨leaves, hshows⟩ := Sound.drawn hs b batch bundle hbatch hbundle
  exact ⟨leaves, hshows.shown, fun leaf hleaf => Hosted.letIn h (hshows.returns leaf hleaf)⟩

end Runs

/-! ## What the service lets out -/

/-- The latest deadline of the leaves. -/
def lastDeadline (leaves : List ReturnLeaf) : UInt64 :=
  leaves.foldl (fun latest leaf => max latest leaf.deadline) 0

/-- **The deadlines of a bundle always parse.** -/
theorem selfSettleFromSecs_eq {bundle : BatchBundle} {leaves : List ReturnLeaf}
    (h : bundle.leaves = leaves.map LeafHex.from) :
    bundle.selfSettleFromSecs = some (lastDeadline leaves) := by
  have hread : ∀ leaf : ReturnLeaf, fromStrRadix hexValue 16 (2 ^ 64)
      (Settlement.dropHexPrefix (LeafHex.from leaf).deadline.toList) = some leaf.deadline.toNat := by
    intro leaf
    have hdigits : (LeafHex.from leaf).deadline.toList =
        '0' :: 'x' :: Nat.toDigits 16 leaf.deadline.toNat := by
      rw [LeafHex.from, hexNat, String.toList_ofList]
    rw [hdigits]
    exact fromStrRadix_hex leaf.deadline.toNat_lt
  have hfold : ∀ (leaves : List ReturnLeaf) (latest : UInt64),
      (leaves.map LeafHex.from).foldlM (fun latest leaf =>
        (fromStrRadix hexValue 16 (2 ^ 64) (Settlement.dropHexPrefix leaf.deadline.toList)).map
          fun deadline => max latest (UInt64.ofNat deadline)) latest =
        some (leaves.foldl (fun latest leaf => max latest leaf.deadline) latest) := by
    intro leaves
    induction leaves with
    | nil => exact fun _ => rfl
    | cons first rest ih =>
        intro latest
        rw [List.map_cons, List.foldlM_cons, hread, Option.map_some, UInt64.ofNat_toNat]
        exact ih _
  rw [BatchBundle.selfSettleFromSecs, h]
  exact hfold leaves 0

/-- The batch is settled, and this is its bundle. -/
def Ledger.SettledAs (id : String) (bundle : BatchBundle) (ledger : Ledger) : Prop :=
  ∃ batch, ledger.batches.get id = some batch ∧ batch.status = .settled ∧ batch.bundle = some bundle

/-- **A settled batch keeps its bundle.** -/
theorem Ledger.SettledAs.apply {ledger : Ledger} {id : String} {bundle : BatchBundle}
    (h : ledger.SettledAs id bundle) (retry : RetryPolicy) {e : Event}
    (he : e.Admissible sdk codec ledger) (hpermitted : e.Permitted ledger) :
    (ledger.apply sdk.sha256 retry e).SettledAs id bundle := by
  obtain ⟨batch, hget, hstatus, hbundle⟩ := h
  -- no event about a batch in flight is about this one
  have hother : ∀ {b : String}, ledger.Proving b ∨ ledger.Proven b → id ≠ b := by
    rintro b (⟨batch', hget', hstatus'⟩ | ⟨batch', hget', hstatus'⟩) rfl
    all_goals
      rw [hget] at hget'
      obtain rfl := Option.some.inj hget'
      rw [hstatus] at hstatus'
      cases hstatus'
  by_cases hformed : ∃ members atMs, e = .batchFormed members atMs
  · obtain ⟨members, atMs, rfl⟩ := hformed
    have hnew : ledger.batches.get (ledger.nextBatch sdk.sha256 members atMs).id = none := he
    refine ⟨batch, ?_, hstatus, hbundle⟩
    rw [Ledger.apply, Ledger.batches_form, if_neg]
    · exact hget
    · rintro rfl
      rw [hget] at hnew
      cases hnew
  · refine ⟨e.batchAfter id batch, ?_, ?_⟩
    · rw [Ledger.batches_apply e he.ne_snapshot fun members atMs heq => hformed ⟨members, atMs, heq⟩, hget]
      rfl
    · have hsame : e.batchAfter id batch = batch := by
        cases e with
        | batchProven b => exact if_neg (hother (.inl hpermitted.1))
        | batchSettled b => exact if_neg (hother (.inr hpermitted))
        | batchFailed b => exact if_neg (hother hpermitted)
        | batchRebased b => exact if_neg (hother (.inr hpermitted.1))
        | batchInterrupted b => exact if_neg (hother (.inl hpermitted))
        | snapshot | accepted | requeued | batchFormed | returnExcluded => rfl
      rw [hsame]
      exact ⟨hstatus, hbundle⟩

/-- The events that can follow a sound history. -/
abbrev SoundLaw (sdk : TokenSdk.Sdk) (codec : Wire.Codec) (retry : RetryPolicy) (policy : BatchPolicy) :
    Ledger → Event → Prop :=
  (service sdk codec retry policy).lawOf (X := Settlement.SettledBatch) (Allowed sdk codec retry)

section Answers

variable {hexError : String → String} {deployed : AppState → Prop} {w w' : History}

theorem SoundLaw.permitted {ledger : Ledger} {e : Event}
    (h : SoundLaw sdk codec retry policy ledger e) : e.Permitted ledger := by
  obtain ⟨w₀, -, rfl, hallowed | hintake⟩ := h
  · exact hallowed.permitted
  · exact Intake.permitted hintake

theorem Guarded.drawn {guard : History → Event → Prop}
    (h : (Beside sdk codec retry policy (SoundLaw sdk codec retry policy)).Guarded guard w) :
    w.state.Drawn sdk codec := by
  obtain ⟨w₀, hsound, hstate⟩ := h.of_seen
  rw [← hstate]
  exact Sound.drawn hsound

theorem Rely.shows {bundle : BatchBundle} {leaves : List ReturnLeaf}
    (h : (Beside sdk codec retry policy (SoundLaw sdk codec retry policy)).Rely w w')
    (hshows : bundle.Shows sdk codec w.state leaves) : bundle.Shows sdk codec w'.state leaves :=
  System.Rely.given (fun ledger => bundle.Shows sdk codec ledger leaves)
    (fun _ _ hadmits _ hshows => hshows.apply retry hadmits) h hshows

theorem keepsBack_iff {state : AppState} {settled : Bool} {last nowSecs : UInt64} :
    state.keepsBack settled (some last) nowSecs = true ↔
      state.submits = true ∧ settled = false ∧ nowSecs ≤ last := by
  simp [AppState.keepsBack, and_assoc]

end Answers

section Runs

variable {hexError : String → String} {deployed : AppState → Prop} {p p' : Hosting}

end Runs

end Bundles

/-! ## A bundle that is asked for -/

namespace Sample

open Guest.Sample (Coin sdk leaf)
open Wire.Sample (codec)

/-- A batch without submission: its bundle is not settled. -/
theorem bundleOf_skipped (assembled : Assembled) :
    Api.bundleOf (skipped ⟨1, 1, 1⟩ assembled).state batch.id =
      some (bundleOf batch.id assembled, false) := by
  have hget := (@keeps_skipped ⟨1, 1, 1⟩ assembled).batch
  have hstatus : (batch.provenWith assembled (proofOf assembled) 0).status ≠ .settled := by
    simp [Batch.provenWith]
  have hbundle : (batch.provenWith assembled (proofOf assembled) 0).bundle =
      some (bundleOf batch.id assembled) := rfl
  have hid : (batch.provenWith assembled (proofOf assembled) 0).id = batch.id := rfl
  rw [hid] at hget
  simp [Api.bundleOf, hget, hbundle, hstatus]

/-- A bundle that the ledger has is handed out or kept back by the time of the second question. -/
theorem getBatch_eq (state : AppState) (b : String) :
    Api.getBatch state b = (do
      let found ← ReturnStore.read fun ledger => Api.bundleOf ledger b
      found.elim (pure (some (.error (.notFound b)))) (fun found => do
        let nowSecs ← Clock.nowSecs
        if state.keepsBack found.2 found.1.selfSettleFromSecs nowSecs then
          pure (some (.error (.notPublished b found.1.selfSettleFromSecs)))
        else pure (some (.ok (.bundle found.1))))) := by
  refine congrArg (ReturnStore.read (fun ledger => Api.bundleOf ledger b) >>= ·) (funext fun found => ?_)
  cases found with
  | none => rfl
  | some found => rfl

/-- At the start of the epoch the bundle of a batch that has not settled is refused. -/
theorem getBatch_can {retry : RetryPolicy} {w : History} {b : String} {bundle : BatchBundle}
    {last : UInt64} (hfound : Api.bundleOf w.state b = some (bundle, false))
    (hlast : bundle.selfSettleFromSecs = some last) :
    (Api.getBatch settings b).CanEnd (service sdk codec retry policy)
      (fun _ answer => answer = some (.error (.notPublished b (some last)))) w := by
  have hkept : settings.keepsBack false (some last) (UInt64.ofNat (0 / 1000)) = true :=
    keepsBack_iff.2 ⟨rfl, rfl, UInt64.zero_le⟩
  rw [getBatch_eq]
  show Prog.CanEnd _ _ (Option.elim (Api.bundleOf w.state b) _ _) w
  rw [hfound]
  refine ⟨(0 : Nat), ?_⟩
  show Prog.CanEnd _ _ (if settings.keepsBack false bundle.selfSettleFromSecs
    (UInt64.ofNat (0 / 1000)) = true then _ else _) _
  rw [hlast, if_pos hkept]
  rfl

/-- **A bundle that is asked for while its fees last** is refused. -/
theorem hosted_asked (hexError : String → String) :
    ∃ (p p' : Hosting) (current : Batch) (bundle : BatchBundle),
      Hosted sdk codec ⟨1, 1, 1⟩ policy hexError (fun _ => True) p ∧
        Relation.ReflTransGen (Hosts sdk codec ⟨1, 1, 1⟩ policy hexError fun _ => True) p p' ∧
          p.state.batches.get batch.id = some current ∧ current.bundle = some bundle ∧
            bundle.leaves.length = 2 ∧ ∃ i heard, p'.Answered i (settings, .getBatch batch.id) heard
              (.error (.notPublished batch.id (some 100))) := by
  obtain ⟨assembled, hassembles⟩ := assembles_clean
  have hreach := @reach_skipped ⟨1, 1, 1⟩ _ hassembles
  have hfound := bundleOf_skipped assembled
  have hget := (@keeps_skipped ⟨1, 1, 1⟩ assembled).batch
  have hleaves : (bundleOf batch.id assembled).leaves = [leaf .whole, leaf .left].map LeafHex.from := by
    show assembled.leaves.map LeafHex.from = _
    rw [hassembles.leaves]
    rfl
  generalize skipped ⟨1, 1, 1⟩ assembled = w at hreach hfound hget
  obtain ⟨p, hp, hconfig⟩ := @reach_hosted _ _ _ _ hexError (fun _ => True) (fun _ => trivial) _ hreach
  have hopen : (bundleOf batch.id assembled).selfSettleFromSecs = some 100 :=
    selfSettleFromSecs_eq hleaves
  have hcan := @getBatch_can ⟨1, 1, 1⟩ w _ _ _ hfound hopen
  obtain ⟨p', w', seen, value, heard, hrun, rfl, -, -, hanswered⟩ := @asked ⟨1, 1, 1⟩ policy hexError
    (fun _ => True) settings (.getBatch batch.id) _ _ w w p _ trivial rfl hcan hconfig rfl
  have hstate : p.state = w.state := by rw [Serving.state, hconfig]
  refine ⟨p, p', _, bundleOf batch.id assembled, hp, hrun, hstate ▸ hget, rfl, ?_, p.arrived, heard,
    hanswered⟩
  rw [hleaves]
  rfl

end Sample

theorem bundles_pay_sample :
    ∃ (p : Hosting) (leaves : List ReturnLeaf), leaves.length = 2 ∧
      ∀ leaf ∈ leaves, ∃ c ∈ p.commits, ∃ readMs,
        LetIn Guest.Sample.sdk Wire.Sample.codec (fun _ => True) c leaf readMs := by
  obtain ⟨p, p', current, bundle, hp, -, hget, hbundle, htwo, -⟩ := Sample.hosted_asked id
  obtain ⟨leaves, hleaves, hletIn⟩ := bundles_pay hp hget hbundle
  rw [hleaves, List.length_map] at htwo
  exact ⟨p, leaves, htwo, hletIn⟩

end UnicityBridge.Service
