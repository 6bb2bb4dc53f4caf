import UnicityBridge.Settlement
import UnicityBridge.VaultReplay

/-!
# The event log of a run

A call only appends to the log, also through calls back. So a run's log is made of what each
transaction emits, in order (`log_eq_emissions`).

The batches of a run are the accumulator steps of its successful `fulfillBatch` calls. They form one
chain from the empty tree that ends in the stored root (`chained`), and each of them writes one
`BatchFulfilled` event and then its releases in leaf order (`emissions_written`).
-/

set_option autoImplicit false

namespace UnicityBridge.Vault

open UnicityBridge.Lib UnicityBridge.Lib.Exec
open UnicityBridge.Core (Address)
open UnicityBridge.TokenSdk (Sdk)
open UnicityBridge.Guest (GuestInput)
open UnicityBridge.Settlement (Transition SingleChain LinkedFrom spent lastRoot)

variable {σ : Type}

/-! ## Calls append to the log -/

/-- The log starts with `log`. -/
def Extends (log : List Event) (w : World σ) : Prop := log <+: w.log

section Appends

variable {log : List Event}

theorem Extends.emit (event : Event) (w : World σ) (h : Extends log w) :
    Extends log (w.emit event) :=
  h.trans (List.prefix_append _ _)

theorem Extends.setStorage (f : Storage → Storage) (w : World σ) (h : Extends log w) :
    Extends log (w.setStorage f) := h

theorem Extends.setAsset (state : σ) (w : World σ) (h : Extends log w) :
    Extends log (w.setAsset state) := h

theorem Extends.addTransfer (recipient : Address) (value : Word) (w : World σ)
    (h : Extends log w) : Extends log (w.addTransfer recipient value) := h

theorem keeps_checkedAdd (a b : Word) : Keeps (Extends log) (checkedAdd a b : Tx σ Word) := by
  unfold checkedAdd
  split
  · exact .pure _
  · exact .fail _

theorem keeps_checkedSub (a b : Word) : Keeps (Extends log) (checkedSub a b : Tx σ Word) := by
  unfold checkedSub
  split
  · exact .pure _
  · exact .fail _

theorem keeps_onlyAdmin (sender : Address) :
    Keeps (Extends log) (onlyAdmin sender : Tx σ Unit) :=
  .bind (.read _) fun _ => .require _ _

theorem keeps_nonReentrant {α : Type} {body : Tx σ α} (h : Keeps (Extends log) body) :
    Keeps (Extends log) (nonReentrant body) := by
  refine .bind (.read _) fun _ => .bind (.require _ _) fun _ => .bind (.update ?_) fun _ =>
    .bind h fun _ => .bind (.update ?_) fun _ => .pure _
  · exact Extends.setStorage _
  · exact Extends.setStorage _

variable {d : Deployment σ} {timestamp : Word} {reenter : Address → Call → Tx σ Returned}

theorem keeps_interact (hreenter : ∀ sender call, Keeps (Extends log) (reenter sender call))
    (interaction : Interaction σ) : Keeps (Extends log) (interact reenter interaction) := by
  induction interaction with
  | finish state success => exact .bind (.update (Extends.setAsset state)) fun _ => .pure _
  | view next ih => exact .bind (.read _) fun storage => ih storage
  | reenter state sender call next ih =>
      exact .bind (.update (Extends.setAsset state)) fun _ =>
        .bind (.attempt (hreenter sender call)) fun result =>
          .bind (.read _) fun state' => ih result state'

theorem keeps_held : Keeps (Extends log) (held d) :=
  .bind (.read _) fun _ => .expect _ _

theorem keeps_callAsset (hreenter : ∀ sender call, Keeps (Extends log) (reenter sender call))
    (interaction : Interaction σ) (failure : String) :
    Keeps (Extends log) (callAsset reenter interaction failure) :=
  .bind (keeps_interact hreenter interaction) fun _ => .require _ _

theorem keeps_receiveExactly (hreenter : ∀ sender call, Keeps (Extends log) (reenter sender call))
    (sender : Address) (value : Word) :
    Keeps (Extends log) (receiveExactly d reenter sender value) :=
  .bind keeps_held fun _ => .bind (.read _) fun _ => .bind (keeps_callAsset hreenter _ _) fun _ =>
    .bind keeps_held fun _ => .bind (keeps_checkedSub _ _) fun _ => .require _ _

theorem keeps_sendExactly (hreenter : ∀ sender call, Keeps (Extends log) (reenter sender call))
    (recipient : Address) (value : Word) :
    Keeps (Extends log) (sendExactly d reenter recipient value) := by
  unfold sendExactly
  split
  · exact .pure _
  · exact .bind keeps_held fun _ => .bind (.read _) fun _ =>
      .bind (keeps_callAsset hreenter _ _) fun _ =>
        .bind (.update (Extends.addTransfer recipient value)) fun _ => .bind keeps_held fun _ =>
          .bind (keeps_checkedSub _ _) fun _ => .require _ _

theorem keeps_lock (hreenter : ∀ sender call, Keeps (Extends log) (reenter sender call))
    (sender : Address) (amount : Word) (tokenId recipient : Bytes32) :
    Keeps (Extends log) (lock d reenter sender amount tokenId recipient) := by
  refine .bind (.require _ _) fun _ => .bind (.require _ _) fun _ => .bind (.require _ _) fun _ =>
    .bind (.require _ _) fun _ => .bind (.read _) fun _ => .bind (.require _ _) fun _ =>
      .bind (.update (Extends.setStorage _)) fun _ => .bind (.read _) fun _ =>
        .bind (keeps_checkedAdd _ _) fun _ => .bind (.update (Extends.setStorage _)) fun _ =>
          .bind (.update (Extends.setStorage _)) fun _ => .bind (.update (Extends.emit _)) fun _ =>
            .bind (keeps_receiveExactly hreenter _ _) fun _ => .pure _

theorem keeps_checkLockRefs (lockRefs : List SourceLockRef) (previous : Option Word) :
    Keeps (Extends log) (checkLockRefs previous lockRefs : Tx σ Unit) := by
  induction lockRefs generalizing previous with
  | nil => exact .pure _
  | cons lockRef rest ih =>
      exact .bind (.require _ _) fun _ => .bind (.read _) fun _ => .bind (.require _ _) fun _ =>
        ih (some lockRef.nonce)

theorem keeps_checkBatch (pv : PublicValues) (leaves : List ReturnLeaf)
    (lockRefs : List SourceLockRef) : Keeps (Extends log) (checkBatch d pv leaves lockRefs) :=
  .bind (.require _ _) fun _ => .bind (.require _ _) fun _ => .bind (.read _) fun _ =>
    .bind (.require _ _) fun _ => .bind (.read _) fun _ => .bind (.require _ _) fun _ =>
      .bind (.require _ _) fun _ => .bind (.require _ _) fun _ => .bind (.require _ _) fun _ =>
        .bind (.require _ _) fun _ => .bind (keeps_checkLockRefs lockRefs none) fun _ =>
          .bind (.foldlM (fun _ _ => .bind (.require _ _) fun _ => keeps_checkedAdd _ _) leaves 0)
            fun _ => .require _ _

theorem keeps_payOut (hreenter : ∀ sender call, Keeps (Extends log) (reenter sender call))
    (recipient : Address) (value : Word) :
    Keeps (Extends log) (payOut d reenter recipient value) := by
  unfold payOut
  split
  · exact .bind (.read _) fun _ => .bind (keeps_checkedAdd _ _) fun _ =>
      .update (Extends.setStorage _)
  · exact keeps_sendExactly hreenter recipient value

theorem keeps_settleLeaf (hreenter : ∀ sender call, Keeps (Extends log) (reenter sender call))
    (l : ReturnLeaf) : Keeps (Extends log) (settleLeaf d timestamp reenter l) := by
  refine .bind (keeps_checkedSub _ _) fun _ => .bind (keeps_payOut hreenter _ _) fun _ =>
    .bind ?_ fun _ => .update (Extends.emit _)
  split
  · exact keeps_payOut hreenter _ _
  · exact .pure _

theorem keeps_fulfillBatch (hreenter : ∀ sender call, Keeps (Extends log) (reenter sender call))
    (publicValues proof : Bytes) (leaves : List ReturnLeaf) (lockRefs : List SourceLockRef) :
    Keeps (Extends log)
      (fulfillBatch d timestamp reenter publicValues proof leaves lockRefs) :=
  .bind (.require _ _) fun _ => .bind (.expect _ _) fun pv =>
    .bind (keeps_checkBatch pv leaves lockRefs) fun _ =>
      .bind (.update (Extends.setStorage _)) fun _ => .bind (.update (Extends.emit _)) fun _ =>
        .forM (keeps_settleLeaf hreenter) leaves

theorem keeps_withdraw (hreenter : ∀ sender call, Keeps (Extends log) (reenter sender call))
    (sender : Address) : Keeps (Extends log) (withdraw d reenter sender) :=
  .bind (.read _) fun _ => .bind (.require _ _) fun _ =>
    .bind (.update (Extends.setStorage _)) fun _ => .bind (.update (Extends.emit _)) fun _ =>
      .bind (keeps_sendExactly hreenter _ _) fun _ => .pure _

theorem keeps_callVault (hreenter : ∀ sender call, Keeps (Extends log) (reenter sender call))
    (sender : Address) (call : Call) :
    Keeps (Extends log) (callVault d timestamp reenter sender call) := by
  cases call with
  | lock amount tokenId recipient =>
      exact .bind (keeps_nonReentrant (keeps_lock hreenter _ _ _ _)) fun _ => .pure _
  | fulfillBatch publicValues proof leaves lockRefs =>
      exact .bind (keeps_nonReentrant (keeps_fulfillBatch hreenter _ _ _ _)) fun _ => .pure _
  | withdraw => exact .bind (keeps_nonReentrant (keeps_withdraw hreenter _)) fun _ => .pure _
  | setTrustBaseAllowed trustBaseHash allowed =>
      exact .bind (.bind (keeps_onlyAdmin _) fun _ => .bind (.update (Extends.setStorage _)) fun _ =>
        .update (Extends.emit _)) fun _ => .pure _
  | transferAdmin newAdmin =>
      exact .bind (.bind (keeps_onlyAdmin _) fun _ => .bind (.require _ _) fun _ =>
        .bind (.read _) fun _ => .bind (.update (Extends.emit _)) fun _ =>
          .update (Extends.setStorage _)) fun _ => .pure _

/-- **A call only appends to the log**, by induction on the call depth. -/
theorem keeps_execute (d : Deployment σ) (timestamp : Word) (depth : Nat) (sender : Address)
    (call : Call) : Keeps (Extends log) (execute d timestamp depth sender call) := by
  induction depth generalizing sender call with
  | zero => exact .fail _
  | succ depth ih => exact keeps_callVault ih sender call

end Appends

theorem log_prefix_apply (d : Deployment σ) (w : World σ) (transaction : Transaction σ) :
    w.log <+: (apply d w transaction).log := by
  cases transaction with
  | asset state => exact List.prefix_refl _
  | call timestamp depth sender call =>
      rcases apply_call (d := d) (w := w) with ⟨result, w', hok, heq⟩ | ⟨-, heq⟩
      · rw [heq]
        exact keeps_execute d timestamp depth sender call w result w' (List.prefix_refl _) hok
      · rw [heq]

/-- The events of one transaction. -/
def emitted (d : Deployment σ) (w : World σ) (transaction : Transaction σ) : List Event :=
  (apply d w transaction).log.drop w.log.length

/-- The events of each transaction of a run. -/
def emissions (d : Deployment σ) : World σ → List (Transaction σ) → List (List Event)
  | _, [] => []
  | w, transaction :: rest => emitted d w transaction :: emissions d (apply d w transaction) rest

theorem log_apply (d : Deployment σ) (w : World σ) (transaction : Transaction σ) :
    (apply d w transaction).log = w.log ++ emitted d w transaction := by
  obtain ⟨events, hlog⟩ := log_prefix_apply d w transaction
  rw [emitted, ← hlog, List.drop_left]

/-- **The log of a run is what its transactions emit.** -/
theorem log_eq_emissions (d : Deployment σ) (w : World σ) (transactions : List (Transaction σ)) :
    (run d w transactions).log = w.log ++ (emissions d w transactions).flatten := by
  induction transactions generalizing w with
  | nil => exact (List.append_nil _).symm
  | cons transaction rest ih =>
      show (run d (apply d w transaction) rest).log = _
      rw [ih, log_apply, emissions, List.flatten_cons, List.append_assoc]

/-- The events of a settlement. -/
def Event.isSettlement : Event → Bool
  | .batchFulfilled _ _ _ _ => true
  | .released _ _ _ _ _ _ => true
  | _ => false

/-- The accumulator step of a transaction: that of a `fulfillBatch` that succeeds. -/
def batchBy (d : Deployment σ) (w : World σ) : Transaction σ → List Transition
  | .call timestamp depth sender (.fulfillBatch publicValues proof leaves lockRefs) =>
      match execute d timestamp depth sender (.fulfillBatch publicValues proof leaves lockRefs) w,
        decodePublicValues publicValues with
      | .ok _, some pv => [⟨leaves.map ReturnLeaf.nullifier, pv.spentRootOld, pv.spentRootNew⟩]
      | _, _ => []
  | _ => []

/-- The accumulator steps of a run, in order. -/
def batches (d : Deployment σ) : World σ → List (Transaction σ) → List Transition
  | _, [] => []
  | w, transaction :: rest => batchBy d w transaction ++ batches d (apply d w transaction) rest

theorem batches_append (d : Deployment σ) (w : World σ) (transactions more : List (Transaction σ)) :
    batches d w (transactions ++ more) =
      batches d w transactions ++ batches d (run d w transactions) more := by
  induction transactions generalizing w with
  | nil => rfl
  | cons transaction rest ih =>
      show _ ++ batches d _ (rest ++ more) = _
      rw [ih, batches, List.append_assoc]
      rfl

/-- What a transaction emits for the ledger. -/
theorem emitted_ledger {d : Deployment σ} {w : World σ} {transaction : Transaction σ}
    {events : List Event} (h : (apply d w transaction).ledger = w.ledger ++ events) :
    (emitted d w transaction).filter Event.isSettlement = events.filter Event.isSettlement := by
  have hevents : (emitted d w transaction).filter (fun event => !event.isAdmin) = events := by
    rw [World.ledger, log_apply, List.filter_append] at h
    exact List.append_cancel_left h
  rw [← hevents, List.filter_filter]
  refine List.filter_congr fun event _ => ?_
  cases event <;> rfl

/-- The transaction is a batch with these arguments, and it succeeded. -/
structure IsBatch (d : Deployment σ) (w : World σ) (transaction : Transaction σ)
    (leaves : List ReturnLeaf) (pv : PublicValues) : Prop where
  call : ∃ timestamp depth sender publicValues proof lockRefs, transaction = .call timestamp depth
      sender (.fulfillBatch publicValues proof leaves lockRefs) ∧
    Fulfilled d timestamp publicValues proof leaves lockRefs pv w (apply d w transaction)
  batch : batchBy d w transaction =
    [⟨leaves.map ReturnLeaf.nullifier, pv.spentRootOld, pv.spentRootNew⟩]
  settled : settledBy d w transaction = leaves

/-- The transaction settles nothing. -/
structure IsOther (d : Deployment σ) (w : World σ) (transaction : Transaction σ) : Prop where
  batch : batchBy d w transaction = []
  settled : settledBy d w transaction = []
  spentRoot : (apply d w transaction).storage.spentRoot = w.storage.spentRoot
  events : (emitted d w transaction).filter Event.isSettlement = []

/-- **A transaction settles a batch or nothing.** -/
theorem transaction_cases (d : Deployment σ) (w : World σ) (transaction : Transaction σ) :
    (∃ leaves pv, IsBatch d w transaction leaves pv) ∨ IsOther d w transaction := by
  have hquiet : ∀ {w' : World σ} {events : List Event}, apply d w transaction = w' →
      w'.ledger = w.ledger ++ events → events.filter Event.isSettlement = [] →
      (emitted d w transaction).filter Event.isSettlement = [] := by
    intro w' events heq hledger hnone
    have hsplit : (apply d w transaction).ledger = w.ledger ++ events := by
      rw [heq, hledger]
    rw [emitted_ledger hsplit, hnone]
  cases transaction with
  | asset state => exact .inr ⟨rfl, rfl, rfl, hquiet rfl (List.append_nil _).symm rfl⟩
  | call timestamp depth sender call =>
      rcases @apply_call σ d w timestamp depth sender call with
        ⟨result, w', hok, heq⟩ | ⟨⟨e, herror⟩, heq⟩
      · cases execute_cases hok with
        | fulfillBatch publicValues proof leaves lockRefs pv hfulfilled =>
            refine .inl ⟨leaves, pv, ⟨timestamp, depth, sender, publicValues, proof, lockRefs, rfl,
              heq ▸ hfulfilled⟩, ?_, ?_⟩
            · simp only [batchBy, hok, hfulfilled.decoded]
            · simp only [settledBy, hok]
        | lock amount tokenId recipient hlock =>
            obtain ⟨_, _, _, -, hstorage⟩ := hlock.storage
            exact .inr ⟨rfl, rfl, by rw [heq, hstorage], hquiet heq hlock.ledger rfl⟩
        | withdraw hwithdraw =>
            obtain ⟨_, _, hstorage⟩ := hwithdraw.storage
            exact .inr ⟨rfl, rfl, by rw [heq, hstorage], hquiet heq hwithdraw.ledger rfl⟩
        | setTrustBaseAllowed trustBaseHash allowed hout _ =>
            obtain ⟨_, _, hstorage⟩ := hout.storage
            exact .inr ⟨rfl, rfl, by rw [heq, hstorage],
              hquiet heq (by rw [hout.ledger, List.append_nil]) rfl⟩
        | transferAdmin newAdmin hout _ =>
            obtain ⟨_, _, hstorage⟩ := hout.storage
            exact .inr ⟨rfl, rfl, by rw [heq, hstorage],
              hquiet heq (by rw [hout.ledger, List.append_nil]) rfl⟩
      · refine .inr ⟨?_, ?_, by rw [heq], hquiet heq (List.append_nil _).symm rfl⟩
        · cases call <;> simp [batchBy, herror]
        · cases call <;> simp [settledBy, herror]

/-- The events that a batch writes: the step, then one release for each of its nullifiers. -/
def Writes (t : Transition) (events : List Event) : Prop :=
  ∃ batchSize totalAmount releases, events =
      .batchFulfilled t.spentRootOld t.spentRootNew batchSize totalAmount :: releases ∧
    batchSize.toNat = t.nullifiers.length ∧
    releases.map Event.nullifier = t.nullifiers.map some

theorem IsBatch.writes {d : Deployment σ} {w : World σ} {transaction : Transaction σ}
    {leaves : List ReturnLeaf} {pv : PublicValues} (h : IsBatch d w transaction leaves pv) :
    Writes ⟨leaves.map ReturnLeaf.nullifier, pv.spentRootOld, pv.spentRootNew⟩
      ((emitted d w transaction).filter Event.isSettlement) := by
  obtain ⟨timestamp, depth, sender, publicValues, proof, lockRefs, -, hfulfilled⟩ := h.call
  have hall : ∀ event ∈ Event.batchFulfilled pv.spentRootOld pv.spentRootNew pv.batchSize
      pv.totalAmount :: leaves.map (released timestamp), event.isSettlement = true := by
    intro event hevent
    rcases List.mem_cons.1 hevent with rfl | hrelease
    · rfl
    · obtain ⟨l, -, rfl⟩ := List.mem_map.1 hrelease
      rfl
  refine ⟨pv.batchSize, pv.totalAmount, leaves.map (released timestamp), ?_, ?_, ?_⟩
  · rw [emitted_ledger hfulfilled.paid.ledger]
    exact List.filter_eq_self.2 hall
  · rw [hfulfilled.checks.batchSize, List.length_map]
  · rw [List.map_map, List.map_map]
    rfl

/-- What the transactions of a run write, for each the step it made if any. -/
theorem emissions_written (d : Deployment σ) (w : World σ) (transactions : List (Transaction σ)) :
    ∃ steps : List (Option Transition), steps.flatMap Option.toList = batches d w transactions ∧
      List.Forall₂ (fun step events => match step with
        | some t => Writes t (events.filter Event.isSettlement)
        | none => events.filter Event.isSettlement = []) steps (emissions d w transactions) := by
  induction transactions generalizing w with
  | nil => exact ⟨[], rfl, .nil⟩
  | cons transaction rest ih =>
      obtain ⟨steps, hsteps, hwritten⟩ := ih (apply d w transaction)
      rcases transaction_cases d w transaction with ⟨leaves, pv, hbatch⟩ | hother
      · refine ⟨some _ :: steps, ?_, .cons hbatch.writes hwritten⟩
        rw [batches, hbatch.batch, ← hsteps]
        rfl
      · refine ⟨none :: steps, ?_, .cons hother.events hwritten⟩
        rw [batches, hother.batch, ← hsteps]
        rfl

/-! ## The batches form one chain -/

/-- What the batches of a run so far establish. -/
structure Chained (sdk : Sdk) (proven : Set GuestInput) (d : Deployment σ) (w₀ : World σ)
    (transactions : List (Transaction σ)) : Prop where
  committed : Committed sdk proven (run d w₀ transactions) (settled d w₀ transactions)
  chain : SingleChain sdk.sha256 (batches d w₀ transactions)
  spent : spent (batches d w₀ transactions) =
    (settled d w₀ transactions).map ReturnLeaf.nullifier

section Chain

variable {sdk : Sdk} {d : Deployment σ} {w₀ : World σ} {proven : Set GuestInput}
  {transactions done : List (Transaction σ)}

theorem Chained.fresh (hfresh : Fresh d w₀) : Chained sdk proven d w₀ [] where
  committed := .fresh hfresh
  chain := Settlement.linkedFrom_nil List.nodup_nil
  spent := rfl

/-- The trees over spent nullifiers are among the trees hashed. -/
theorem Chained.treeInputs_subset (h : Chained sdk proven d w₀ done) {keys : List Bytes32}
    (hkeys : ∀ key ∈ keys, key ∈ Settlement.spent (batches d w₀ done)) :
    Accumulator.treeInputs sdk.sha256 (Accumulator.ofFinset keys.toFinset) ⊆
      replayInputs sdk proven := by
  intro data hdata
  refine .inr ⟨keys.toFinset, fun key hkey => ?_, hdata⟩
  have hspent := hkeys key (List.mem_toFinset.1 hkey)
  rw [h.spent] at hspent
  obtain ⟨l, hl, rfl⟩ := List.mem_map.1 hspent
  exact h.committed.proven l hl

/-- One more batch continues the chain: its old root is the last one, and no earlier batch started
from it, since every batch spends something new. -/
theorem Chained.batch (h : Chained sdk proven d w₀ done) (hverifier : VerifierSound sdk d proven)
    (hkeccak : d.keccak256 = sdk.keccak256)
    (hreturn : Set.InjOn sdk.keccak256 (returnInputs proven transactions))
    (hsha : SparseMerkle.CollisionFree sdk.sha256 EMPTY_TREE_ROOT (replayInputs sdk proven))
    {transaction : Transaction σ} (hmem : transaction ∈ transactions) {leaves : List ReturnLeaf}
    {pv : PublicValues} (hbatch : IsBatch d (run d w₀ done) transaction leaves pv) :
    Chained sdk proven d w₀ (done ++ [transaction]) := by
  obtain ⟨timestamp, depth, sender, publicValues, proof, lockRefs, hcall, hfulfilled⟩ := hbatch.call
  have hrun : run d w₀ (done ++ [transaction]) = apply d (run d w₀ done) transaction := by
    rw [run, List.foldl_append]
    rfl
  have hbatches : batches d w₀ (done ++ [transaction]) = batches d w₀ done ++
      [⟨leaves.map ReturnLeaf.nullifier, pv.spentRootOld, pv.spentRootNew⟩] := by
    rw [batches_append, batches, batches, List.append_nil, hbatch.batch]
  have hsettled : settled d w₀ (done ++ [transaction]) = settled d w₀ done ++ leaves := by
    rw [settled_append, settled, settled, List.append_nil, hbatch.settled]
  have hcommitted := h.committed.fulfilled hverifier hkeccak hreturn hsha (hcall ▸ hmem) hfulfilled
  have hspent : Settlement.spent (batches d w₀ (done ++ [transaction])) =
      (settled d w₀ (done ++ [transaction])).map ReturnLeaf.nullifier := by
    rw [hbatches, hsettled, Settlement.spent_append, h.spent, List.map_append]
    simp only [Settlement.spent_cons, Settlement.spent_nil, List.append_nil]
  rw [← hsettled] at hcommitted
  -- the batch starts from the last root of the chain
  have hlast := LinkedFrom.last_root h.chain (Settlement.empty_root sdk.sha256)
  rw [List.nil_append] at hlast
  have hold : pv.spentRootOld = lastRoot EMPTY_TREE_ROOT (batches d w₀ done) := by
    rw [hfulfilled.checks.spentRootOld, h.committed.root, ← h.spent]
    exact hlast.symm
  refine ⟨hrun ▸ hcommitted, ?_, hspent⟩
  rw [hbatches] at hspent ⊢
  refine LinkedFrom.concat h.chain ?_ hold ?_ ?_ ?_
  · have hne := hfulfilled.checks.nonempty
    simpa using List.ne_nil_of_length_pos hne
  -- no earlier batch starts from the same root: equal roots mean equal sets, but `u` added a key
  · intro u hu heq
    obtain ⟨before, after, hsplit⟩ := List.append_of_mem hu
    have huroot := LinkedFrom.old_root h.chain (Settlement.empty_root sdk.sha256) hsplit
    rw [List.nil_append, heq, hold] at huroot
    have hfront : ∀ key ∈ Settlement.spent before, key ∈ Settlement.spent (batches d w₀ done) := by
      intro key hkey
      rw [hsplit, Settlement.spent_append]
      exact List.mem_append_left _ hkey
    have hsets := Accumulator.setRoot_inj hsha (h.treeInputs_subset hfront)
      (h.treeInputs_subset fun _ hkey => hkey) (huroot.symm.trans hlast)
    -- a nullifier of `u` is spent, but not before `u`
    obtain ⟨key, hkey⟩ := List.exists_mem_of_ne_nil _ (h.chain.nonempty u hu)
    have hnodup := h.chain.fresh
    rw [List.nil_append, hsplit, Settlement.spent_append, Settlement.spent_cons] at hnodup
    have hmemAll : key ∈ Settlement.spent (batches d w₀ done) := by
      rw [hsplit, Settlement.spent_append, Settlement.spent_cons]
      exact List.mem_append_right _ (List.mem_append_left _ hkey)
    have hmemFront : key ∈ Settlement.spent before := by
      rw [← List.mem_toFinset, hsets, List.mem_toFinset]
      exact hmemAll
    exact (List.nodup_append.1 hnodup).2.2 key hmemFront key (List.mem_append_left _ hkey) rfl
  · rw [List.nil_append, hspent]
    exact hcommitted.nodup
  · rw [List.nil_append, hspent, ← hcommitted.root]
    obtain ⟨_, _, _, hstorage⟩ := hfulfilled.paid.storage
    rw [hstorage]
    rfl

theorem Chained.other (h : Chained sdk proven d w₀ done) {transaction : Transaction σ}
    (hother : IsOther d (run d w₀ done) transaction) :
    Chained sdk proven d w₀ (done ++ [transaction]) := by
  have hrun : run d w₀ (done ++ [transaction]) = apply d (run d w₀ done) transaction := by
    rw [run, List.foldl_append]
    rfl
  have hbatches : batches d w₀ (done ++ [transaction]) = batches d w₀ done := by
    rw [batches_append, batches, batches, List.append_nil, hother.batch, List.append_nil]
  have hsettled : settled d w₀ (done ++ [transaction]) = settled d w₀ done := by
    rw [settled_append, settled, settled, List.append_nil, hother.settled, List.append_nil]
  have hreleased : releasedNullifiers (apply d (run d w₀ done) transaction).log =
      releasedNullifiers (run d w₀ done).log := by
    have hnone : releasedNullifiers (emitted d (run d w₀ done) transaction) = [] := by
      rw [releasedNullifiers, List.filterMap_eq_nil_iff]
      intro event hevent
      have hkind : event.isSettlement = false := by
        have hall := List.filter_eq_nil_iff.1 hother.events event hevent
        simpa using hall
      cases event <;> first | rfl | cases hkind
    rw [log_apply, releasedNullifiers_append, hnone, List.append_nil]
  refine ⟨?_, hbatches ▸ h.chain, by rw [hbatches, hsettled, h.spent]⟩
  rw [hrun, hsettled]
  exact ⟨h.committed.nodup, hother.spentRoot.trans h.committed.root, h.committed.proven,
    hreleased.trans h.committed.log⟩

/-- **The batches of a run form one chain** from the empty tree over the nullifiers of the settled
leaves, and the stored root is its last. -/
theorem chained (hfresh : Fresh d w₀) (hverifier : VerifierSound sdk d proven)
    (hkeccak : d.keccak256 = sdk.keccak256)
    (hreturn : Set.InjOn sdk.keccak256 (returnInputs proven transactions))
    (hsha : SparseMerkle.CollisionFree sdk.sha256 EMPTY_TREE_ROOT (replayInputs sdk proven)) :
    Chained sdk proven d w₀ transactions := by
  have hfront : ∀ done, done ⊆ transactions → Chained sdk proven d w₀ done := by
    intro done
    induction done using List.reverseRecOn with
    | nil => exact fun _ => .fresh hfresh
    | append_singleton done transaction ih =>
        intro hsub
        have hdone := ih (List.Subset.trans (List.subset_append_left _ _) hsub)
        rcases transaction_cases d (run d w₀ done) transaction with
          ⟨leaves, pv, hbatch⟩ | hother
        · exact hdone.batch hverifier hkeccak hreturn hsha
            (hsub (List.mem_append_right _ List.mem_cons_self)) hbatch
        · exact hdone.other hother
  exact hfront transactions (List.Subset.refl _)

end Chain

end UnicityBridge.Vault
