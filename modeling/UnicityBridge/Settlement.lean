import UnicityBridge.AccumulatorComplete
import UnicityBridge.AccumulatorSound
import UnicityBridge.Lib.Hex
import UnicityBridge.Lib.Result

/-!
# Rebuilding the accumulator from settled batches

The replay of settled batches of `prover/crates/host/src/s2.rs`: `parse_settled_log` reads them,
`rebuild` follows the root links from the empty tree, `next_link` finds the batch that continues a
root.

`SingleChain` says what a list of transitions has to be for the replay to succeed.
-/

set_option autoImplicit false

namespace UnicityBridge.Settlement

open Lib Accumulator

/-- One settled batch, as read from the vault's events. -/
structure SettledBatch where
  nullifiers : List Key
  spentRootOld : Bytes32
  spentRootNew : Bytes32
  txid : Option String
  deriving DecidableEq

/-- The same accumulator step, whatever the transactions are named. -/
def SettledBatch.sameTransition (batch other : SettledBatch) : Bool :=
  batch.nullifiers == other.nullifiers && batch.spentRootOld == other.spentRootOld &&
    batch.spentRootNew == other.spentRootNew

/-- The decoded settlement log: the batches and the vault's current root, if it was reported. -/
structure SettledLog where
  batches : List SettledBatch
  onChainSpentRoot : Option Bytes32
  deriving DecidableEq

/-- The variants of the host's error that these functions return. What is wrong with a hex text is left
out. -/
inductive HostError where
  | hex
  | check (text : String)
  deriving DecidableEq

/-- A result of the settlement host. -/
abbrev Result := Except HostError

/-- The accumulator after replaying the log; `txids` is the map from each nullifier to the
transaction that spent it. -/
structure RebuiltAccumulator where
  tree : NullifierTree
  spentRoot : Bytes32
  spentCount : Nat
  txids : Key → Option String

/-- A batch of the log's JSON, with its texts. -/
structure BatchJson where
  nullifiers : List String
  spentRootOld : String
  spentRootNew : String
  txid : Option String
  deriving DecidableEq

/-- The log's JSON. Fields of another JSON type are left out: they are an error. -/
structure LogJson where
  batches : List BatchJson
  spentRoot : Option String
  deriving DecidableEq

/-- A text without its `0x`. -/
def dropHexPrefix : List Char → List Char
  | '0' :: 'x' :: rest => rest
  | text => text

/-- The 32 bytes of a hex text. -/
def parseBytes32 (text : String) : Result Bytes32 := do
  let bytes ← okOr (hexDecodeChars (dropHexPrefix text.toList)) .hex
  if h : bytes.length = 32 then .ok ⟨bytes, h⟩ else .error (.check "expected 32 bytes")

/-- A batch of the printed log, from its texts. -/
def parseBatch (json : BatchJson) : Result SettledBatch := do
  let nullifiers ← json.nullifiers.mapM parseBytes32
  let spentRootOld ← parseBytes32 json.spentRootOld
  let spentRootNew ← parseBytes32 json.spentRootNew
  .ok { nullifiers, spentRootOld, spentRootNew, txid := json.txid.filter fun t => t ≠ "" }

/-- Parse the settlement log that a chain watcher emits. -/
def parseSettledLog (json : LogJson) : Result SettledLog := do
  let batches ← json.batches.mapM parseBatch
  let onChainSpentRoot ← match json.spentRoot with
    | some text => do
        let root ← parseBytes32 text
        .ok (some root)
    | none => .ok none
  .ok { batches, onChainSpentRoot }

/-- A batch of the list with its `used` mark. -/
structure Entry where
  batch : SettledBatch
  used : Bool

/-- The variables of the loop of `rebuild`. -/
structure RebuildState where
  entries : List Entry
  tree : NullifierTree
  root : Bytes32
  spentCount : Nat
  txids : Key → Option String

/-- The derived debug text of the SDK's error. -/
def debugError : Accumulator.Error → String
  | .unexpectedValue text => "UnexpectedValue(\"" ++ text ++ "\")"

/-- The digits of 32 bytes, without prefix. -/
def hex32 (value : Bytes32) : String := hexEncode value.toList

/-- One batch of the scan of `next_link`. -/
def linkStep (root : Bytes32) (found : Option (Nat × SettledBatch)) (item : Entry × Nat) :
    Result (Option (Nat × SettledBatch)) :=
  let ⟨⟨batch, used⟩, i⟩ := item
  if used || batch.spentRootOld != root then .ok found
  else match found with
    | none => .ok (some (i, batch))
    | some (f, first) =>
        if first.sameTransition batch then .ok found
        else .error (.check
          s!"S2 batches {f} and {i} both continue root 0x{hex32 root} with different contents")

/-- The index of the batch that continues `root`, with the batch. -/
def nextLink (entries : List Entry) (root : Bytes32) : Result (Option (Nat × SettledBatch)) :=
  entries.zipIdx.foldlM (linkStep root) none

/-- The first transaction that a copy of `batch` names. -/
def firstTxid (entries : List Entry) (batch : SettledBatch) : Option String :=
  entries.findSome? fun entry => if entry.batch.sameTransition batch then entry.batch.txid else none

/-- Mark every copy of `batch` as used. -/
def markUsed (entries : List Entry) (batch : SettledBatch) : List Entry :=
  entries.map fun entry => ⟨entry.batch, entry.used || entry.batch.sameTransition batch⟩

section Txids

/-- Keys are compared as they are. -/
local instance lawfulBEqKey : LawfulBEq Key := inferInstance

/-- The batch's transaction is noted for its nullifiers. A batch without one changes nothing. -/
def recordTxid (txids : Key → Option String) (nullifiers : List Key) (txid : Option String) :
    Key → Option String :=
  fun key => if key ∈ nullifiers then txid.or (txids key) else txids key

end Txids

section Rebuild

variable (sha256 : Bytes → Bytes32)

/-- One turn of the loop of `rebuild`; `none` when no batch continues the root. -/
def rebuildStep (state : RebuildState) : Result (Option RebuildState) := do
  match ← nextLink state.entries state.root with
  | none => .ok none
  | some (i, batch) => do
      ensure (batch.nullifiers ≠ []) (.check s!"S2 batch {i}: empty batch")
      let (_, newRoot) ← (orderedInsertWitnesses sha256 state.tree batch.nullifiers).mapError
        fun e => HostError.check s!"S2 batch {i}: insert failed: {debugError e}"
      ensure (newRoot = batch.spentRootNew) (.check
        s!"S2 batch {i}: recomputed spentRootNew 0x{hex32 newRoot} != chain 0x{hex32 batch.spentRootNew}")
      let tree ← (batch.nullifiers.foldlM NullifierTree.insert state.tree).mapError
        fun e => HostError.check s!"S2 batch {i}: duplicate nullifier replayed: {debugError e}"
      .ok (some {
        entries := markUsed state.entries batch
        tree := tree
        root := newRoot
        spentCount := state.spentCount + batch.nullifiers.length
        txids := recordTxid state.txids batch.nullifiers (firstTxid state.entries batch) })

/-- The batches without a `used` mark. -/
def RebuildState.unused (state : RebuildState) : List SettledBatch :=
  (state.entries.filter fun entry => !entry.used).map Entry.batch

end Rebuild

/-! ## The scan for the next link -/

/-- The accumulator step of a batch. -/
structure Transition where
  nullifiers : List Key
  spentRootOld : Bytes32
  spentRootNew : Bytes32
  deriving DecidableEq

/-- The batch as a transition of the accumulator. -/
def SettledBatch.transition (batch : SettledBatch) : Transition :=
  ⟨batch.nullifiers, batch.spentRootOld, batch.spentRootNew⟩

theorem sameTransition_iff {batch other : SettledBatch} :
    batch.sameTransition other = true ↔ batch.transition = other.transition := by
  simp [SettledBatch.sameTransition, SettledBatch.transition, and_assoc]

/-- The entry is not used and continues `root`. -/
def Entry.Continues (root : Bytes32) (entry : Entry) : Prop :=
  entry.used = false ∧ entry.batch.spentRootOld = root

theorem linkStep_skip {root : Bytes32} {found : Option (Nat × SettledBatch)} {entry : Entry}
    {i : Nat} (h : ¬ entry.Continues root) : linkStep root found (entry, i) = .ok found := by
  obtain ⟨batch, used⟩ := entry
  have hskip : (used || batch.spentRootOld != root) = true := by
    cases used <;> simp_all [Entry.Continues]
  simp only [linkStep, hskip, if_true]

theorem linkStep_first {root : Bytes32} {entry : Entry} {i : Nat} (h : entry.Continues root) :
    linkStep root none (entry, i) = .ok (some (i, entry.batch)) := by
  obtain ⟨batch, used⟩ := entry
  obtain ⟨rfl, rfl⟩ := h
  simp [linkStep]

theorem linkStep_again {root : Bytes32} {entry : Entry} {i f : Nat} {first : SettledBatch}
    {r : Option (Nat × SettledBatch)} (h : entry.Continues root) :
    linkStep root (some (f, first)) (entry, i) = .ok r ↔
      r = some (f, first) ∧ entry.batch.transition = first.transition := by
  obtain ⟨batch, used⟩ := entry
  obtain ⟨rfl, rfl⟩ := h
  rw [eq_comm (a := batch.transition), ← sameTransition_iff]
  cases hsame : first.sameTransition batch <;> simp [linkStep, hsame, eq_comm]

/-- Once a link is found, the scan checks that the others which continue the root are copies. -/
theorem foldlM_linkStep_some {root : Bytes32} {items : List (Entry × Nat)} {f : Nat}
    {first : SettledBatch} {r : Option (Nat × SettledBatch)} :
    items.foldlM (linkStep root) (some (f, first)) = .ok r ↔
      r = some (f, first) ∧ ∀ item ∈ items, item.1.Continues root →
        item.1.batch.transition = first.transition := by
  induction items with
  | nil =>
      show (.ok (some (f, first)) : Result (Option (Nat × SettledBatch))) = .ok r ↔ _
      simp [eq_comm]
  | cons item rest ih =>
      rw [List.foldlM_cons, bind_eq_ok, List.forall_mem_cons]
      by_cases h : item.1.Continues root
      · constructor
        · rintro ⟨found, hfound, hrest⟩
          obtain ⟨rfl, hsame⟩ := (linkStep_again h).1 hfound
          obtain ⟨hr, hall⟩ := ih.1 hrest
          exact ⟨hr, fun _ => hsame, hall⟩
        · rintro ⟨hr, hsame, hall⟩
          exact ⟨_, (linkStep_again h).2 ⟨rfl, hsame h⟩, ih.2 ⟨hr, hall⟩⟩
      · constructor
        · rintro ⟨found, hfound, hrest⟩
          rw [linkStep_skip h] at hfound
          cases hfound
          obtain ⟨hr, hall⟩ := ih.1 hrest
          exact ⟨hr, fun hc => absurd hc h, hall⟩
        · rintro ⟨hr, -, hall⟩
          exact ⟨_, linkStep_skip h, ih.2 ⟨hr, hall⟩⟩

/-- The scan finds a link when some batch continues the root and all that do are copies of it. -/
theorem foldlM_linkStep_none {root : Bytes32} {items : List (Entry × Nat)}
    {r : Option (Nat × SettledBatch)} (h : items.foldlM (linkStep root) none = .ok r) :
    match r with
    | none => ∀ item ∈ items, ¬ item.1.Continues root
    | some (i, batch) => (∃ entry, (entry, i) ∈ items ∧ entry.Continues root ∧
        entry.batch = batch) ∧ ∀ item ∈ items, item.1.Continues root →
          item.1.batch.transition = batch.transition := by
  induction items with
  | nil =>
      obtain rfl : none = r := Except.ok.inj h
      simp
  | cons item rest ih =>
      rw [List.foldlM_cons] at h
      by_cases hc : item.1.Continues root
      · rw [linkStep_first hc] at h
        obtain ⟨rfl, hall⟩ := foldlM_linkStep_some.1 h
        refine ⟨⟨item.1, List.mem_cons_self, hc, rfl⟩, ?_⟩
        rw [List.forall_mem_cons]
        exact ⟨fun _ => rfl, hall⟩
      · rw [linkStep_skip hc] at h
        have hrest := ih h
        cases r with
        | none =>
            rw [List.forall_mem_cons]
            exact ⟨hc, hrest⟩
        | some found =>
            obtain ⟨⟨entry, hmem, hentry⟩, hall⟩ := hrest
            refine ⟨⟨entry, List.mem_cons_of_mem _ hmem, hentry⟩, ?_⟩
            rw [List.forall_mem_cons]
            exact ⟨fun hc' => absurd hc' hc, hall⟩

theorem foldlM_linkStep_ok {root : Bytes32} {items : List (Entry × Nat)}
    (h : ∀ x ∈ items, ∀ y ∈ items, x.1.Continues root → y.1.Continues root →
      x.1.batch.transition = y.1.batch.transition) :
    ∃ r, items.foldlM (linkStep root) none = .ok r := by
  induction items with
  | nil => exact ⟨none, rfl⟩
  | cons item rest ih =>
      rw [List.foldlM_cons]
      by_cases hc : item.1.Continues root
      · rw [linkStep_first hc]
        refine ⟨_, foldlM_linkStep_some.2 ⟨rfl, fun other hother hother' => ?_⟩⟩
        exact h other (List.mem_cons_of_mem _ hother) item List.mem_cons_self hother' hc
      · rw [linkStep_skip hc]
        exact ih fun x hx y hy =>
          h x (List.mem_cons_of_mem _ hx) y (List.mem_cons_of_mem _ hy)

/-- An entry of the list is an item of the scan. -/
theorem exists_mem_zipIdx {entries : List Entry} {entry : Entry} :
    entry ∈ entries ↔ ∃ i, (entry, i) ∈ entries.zipIdx := by
  constructor
  · intro h
    obtain ⟨i, hi, rfl⟩ := List.mem_iff_getElem.1 h
    exact ⟨i, List.mk_mem_zipIdx_iff_getElem?.2 (List.getElem?_eq_getElem hi)⟩
  · rintro ⟨i, h⟩
    exact List.fst_mem_of_mem_zipIdx h

theorem mem_unused {state : RebuildState} {batch : SettledBatch} :
    batch ∈ state.unused ↔ ∃ entry ∈ state.entries, entry.used = false ∧ entry.batch = batch := by
  simp [RebuildState.unused, and_assoc]

/-- **What the scan finds**: no unused batch continues the root, or the one found does and every
other that does is a copy of it. -/
theorem nextLink_eq_ok {state : RebuildState} {r : Option (Nat × SettledBatch)}
    (h : nextLink state.entries state.root = .ok r) :
    match r with
    | none => ∀ batch ∈ state.unused, batch.spentRootOld ≠ state.root
    | some (_, batch) => batch ∈ state.unused ∧ batch.spentRootOld = state.root ∧
        ∀ other ∈ state.unused, other.spentRootOld = state.root →
          other.transition = batch.transition := by
  have hscan := foldlM_linkStep_none h
  cases r with
  | none =>
      intro batch hbatch hroot
      obtain ⟨entry, hentry, hused, rfl⟩ := mem_unused.1 hbatch
      obtain ⟨i, hi⟩ := exists_mem_zipIdx.1 hentry
      exact hscan (entry, i) hi ⟨hused, hroot⟩
  | some found =>
      obtain ⟨i, batch⟩ := found
      obtain ⟨⟨entry, hmem, hc, rfl⟩, hall⟩ := hscan
      refine ⟨mem_unused.2 ⟨entry, exists_mem_zipIdx.2 ⟨i, hmem⟩, hc.1, rfl⟩, hc.2, ?_⟩
      intro other hother hroot
      obtain ⟨entry', hentry', hused', rfl⟩ := mem_unused.1 hother
      obtain ⟨j, hj⟩ := exists_mem_zipIdx.1 hentry'
      exact hall (entry', j) hj ⟨hused', hroot⟩

theorem nextLink_ok {state : RebuildState}
    (h : ∀ x ∈ state.unused, ∀ y ∈ state.unused, x.spentRootOld = state.root →
      y.spentRootOld = state.root → x.transition = y.transition) :
    ∃ r, nextLink state.entries state.root = .ok r := by
  apply foldlM_linkStep_ok
  rintro ⟨x, i⟩ hx ⟨y, j⟩ hy ⟨hxu, hxr⟩ ⟨hyu, hyr⟩
  exact h _ (mem_unused.2 ⟨x, exists_mem_zipIdx.2 ⟨i, hx⟩, hxu, rfl⟩) _
    (mem_unused.2 ⟨y, exists_mem_zipIdx.2 ⟨j, hy⟩, hyu, rfl⟩) hxr hyr

/-! ## One turn of the loop -/

/-- Marking a batch leaves the unused ones with another transition. -/
theorem mem_unused_markUsed {state next : RebuildState} {batch other : SettledBatch}
    (h : next.entries = markUsed state.entries batch) :
    other ∈ next.unused ↔ other ∈ state.unused ∧ other.transition ≠ batch.transition := by
  rw [mem_unused, mem_unused, h, markUsed]
  simp only [List.mem_map, exists_exists_and_eq_and, Bool.or_eq_false_iff]
  constructor
  · rintro ⟨entry, hentry, ⟨hused, hother⟩, rfl⟩
    refine ⟨⟨entry, hentry, hused, rfl⟩, fun hsame => ?_⟩
    rw [sameTransition_iff.2 hsame] at hother
    cases hother
  · rintro ⟨⟨entry, hentry, hused, rfl⟩, hne⟩
    refine ⟨entry, hentry, ⟨hused, ?_⟩, rfl⟩
    rw [← Bool.not_eq_true, sameTransition_iff]
    exact hne

theorem unused_length (state : RebuildState) :
    state.unused.length = state.entries.countP fun entry => !entry.used := by
  rw [RebuildState.unused, List.length_map, List.countP_eq_length_filter]

theorem unused_length_lt {state next : RebuildState} {batch : SettledBatch}
    (h : next.entries = markUsed state.entries batch) (hbatch : batch ∈ state.unused) :
    next.unused.length < state.unused.length := by
  obtain ⟨entry, hentry, hused, rfl⟩ := mem_unused.1 hbatch
  rw [unused_length, unused_length, h, markUsed, List.countP_map]
  have hmono : ∀ entries : List Entry,
      entries.countP ((fun e : Entry => !e.used) ∘ fun e : Entry =>
        ⟨e.batch, e.used || e.batch.sameTransition entry.batch⟩) ≤
        entries.countP fun e => !e.used := by
    intro entries
    apply List.countP_mono_left
    intro other _ hother
    simp only [Function.comp_apply, Bool.not_or, Bool.and_eq_true] at hother
    exact hother.1
  obtain ⟨before, after, hsplit⟩ := List.append_of_mem hentry
  have hself : entry.batch.sameTransition entry.batch = true := sameTransition_iff.2 rfl
  have hb := hmono before
  have ha := hmono after
  rw [hsplit, List.countP_append, List.countP_append, List.countP_cons_of_neg (by simp [hself]),
    List.countP_cons_of_pos (by simp [hused])]
  omega

section Rebuild

variable (sha256 : Bytes → Bytes32)

/-- **One turn of the loop**: it ends when no unused batch continues the root; otherwise the batch
that does is the only one up to its transaction, spends new nullifiers and records the root of the
set with them. -/
theorem rebuildStep_eq_ok {state : RebuildState} {r : Option RebuildState}
    (h : rebuildStep sha256 state = .ok r) :
    match r with
    | none => ∀ batch ∈ state.unused, batch.spentRootOld ≠ state.root
    | some next => ∃ batch ∈ state.unused, batch.spentRootOld = state.root ∧
        (∀ other ∈ state.unused, other.spentRootOld = state.root →
          other.transition = batch.transition) ∧
        batch.nullifiers ≠ [] ∧ next.tree.keys = state.tree.keys ++ batch.nullifiers ∧
        next.root = setRoot sha256 next.tree.keys.toFinset ∧ next.root = batch.spentRootNew ∧
        next.spentCount = state.spentCount + batch.nullifiers.length ∧
        next.entries = markUsed state.entries batch := by
  rw [rebuildStep, bind_eq_ok] at h
  obtain ⟨found, hfound, h⟩ := h
  have hlink := nextLink_eq_ok hfound
  cases found with
  | none =>
      obtain rfl : none = r := Except.ok.inj h
      exact hlink
  | some item =>
      obtain ⟨i, batch⟩ := item
      simp only [bind_eq_ok, ensure_eq_ok, mapError_eq_ok, Except.ok.injEq] at h
      obtain ⟨-, hne, ⟨ws, newRoot⟩, hws, -, hroot, tree, htree, rfl⟩ := h
      obtain ⟨-, hset⟩ := (orderedInsertWitnesses_eq_ok sha256).1 ⟨ws, hws⟩
      have hkeys := foldlM_insert_keys htree
      refine ⟨batch, hlink.1, hlink.2.1, hlink.2.2, hne, hkeys, ?_, hroot, rfl, rfl⟩
      rw [hkeys]
      exact hset

theorem rebuildStep_unused_lt {state next : RebuildState}
    (h : rebuildStep sha256 state = .ok (some next)) :
    next.unused.length < state.unused.length := by
  obtain ⟨batch, hmem, -, -, -, -, -, -, -, hentries⟩ := rebuildStep_eq_ok sha256 h
  exact unused_length_lt hentries hmem

/-- The `while` loop of `rebuild`. Every turn uses up at least one batch. -/
def rebuildLoop (state : RebuildState) : Result RebuildState :=
  match _h : rebuildStep sha256 state with
  | .error e => .error e
  | .ok none => .ok state
  | .ok (some next) => rebuildLoop next
termination_by state.unused.length
decreasing_by exact rebuildStep_unused_lt sha256 _h

/-- Before the first batch is taken: the empty tree. -/
def initialState (batches : List SettledBatch) : RebuildState where
  entries := batches.map fun batch => ⟨batch, false⟩
  tree := .new
  root := EMPTY_TREE_ROOT
  spentCount := 0
  txids := fun _ => none

/-- Replay `batches` by following the root links from the empty tree. -/
def rebuild (batches : List SettledBatch) : Result RebuiltAccumulator := do
  let state ← rebuildLoop sha256 (initialState batches)
  match state.entries.zipIdx.find? fun (entry, _) => !entry.used with
  | some (entry, i) =>
      .error (.check (s!"S2 batch {i}: spentRootOld 0x{hex32 entry.batch.spentRootOld} " ++
        s!"does not chain from any settled root (rebuild stopped at 0x{hex32 state.root})"))
  | none => .ok ⟨state.tree, state.root, state.spentCount, state.txids⟩

/-- Rebuild, and check the result against the vault's reported root. -/
def rebuildVerified (log : SettledLog) : Result RebuiltAccumulator := do
  let acc ← rebuild sha256 log.batches
  match log.onChainSpentRoot with
  | none => .ok acc
  | some onChain => do
      ensure (acc.spentRoot = onChain) (.check
        (s!"accumulator diverged from chain: rebuilt spentRoot 0x{hex32 acc.spentRoot} " ++
          s!"!= on-chain 0x{hex32 onChain} ({log.batches.length} batch(es), " ++
          s!"{acc.spentCount} nullifier(s) replayed) — event log incomplete or stale"))
      .ok acc

end Rebuild

/-! ## Chains of transitions -/

/-- The nullifiers of a list of transitions, in order. -/
def spent (chain : List Transition) : List Key := chain.flatMap Transition.nullifiers

/-- The root after a chain that starts at `root`. -/
def lastRoot (root : Bytes32) (chain : List Transition) : Bytes32 :=
  chain.foldl (fun _ t => t.spentRootNew) root

@[simp] theorem spent_nil : spent [] = [] := rfl

@[simp] theorem spent_cons (t : Transition) (rest : List Transition) :
    spent (t :: rest) = t.nullifiers ++ spent rest := rfl

/-- The transitions form one chain on top of the accumulator with `keys` and `root`: none is empty,
each old root is the new root of the one before, no root is continued twice, no nullifier is
repeated, and each new root commits to what is spent so far. -/
structure LinkedFrom (sha256 : Bytes → Bytes32) (keys : List Key) (root : Bytes32)
    (chain : List Transition) : Prop where
  nonempty : ∀ t ∈ chain, t.nullifiers ≠ []
  linked : ∀ before t after, chain = before ++ t :: after → t.spentRootOld = lastRoot root before
  forkless : (chain.map Transition.spentRootOld).Nodup
  fresh : (keys ++ spent chain).Nodup
  recomputed : ∀ before t after, chain = before ++ t :: after →
    t.spentRootNew = setRoot sha256 (keys ++ spent (before ++ [t])).toFinset

/-- The empty root commits to nothing. -/
theorem empty_root (sha256 : Bytes → Bytes32) :
    EMPTY_TREE_ROOT = setRoot sha256 ([] : List Key).toFinset :=
  root_eq_setRoot sha256 .new

/-- One chain from the empty tree. -/
def SingleChain (sha256 : Bytes → Bytes32) (chain : List Transition) : Prop :=
  LinkedFrom sha256 [] EMPTY_TREE_ROOT chain

section Chains

variable {sha256 : Bytes → Bytes32} {keys : List Key} {root : Bytes32}

theorem linkedFrom_nil (h : keys.Nodup) : LinkedFrom sha256 keys root [] where
  nonempty := by simp
  linked := by simp
  forkless := by simp
  fresh := by simpa using h
  recomputed := by simp

theorem linkedFrom_cons {t : Transition} {rest : List Transition} :
    LinkedFrom sha256 keys root (t :: rest) ↔
      t.nullifiers ≠ [] ∧ t.spentRootOld = root ∧ (∀ u ∈ rest, u.spentRootOld ≠ root) ∧
        t.spentRootNew = setRoot sha256 (keys ++ t.nullifiers).toFinset ∧
        LinkedFrom sha256 (keys ++ t.nullifiers) t.spentRootNew rest := by
  constructor
  -- each field at the head, and the same field for what follows
  · intro h
    have hold : t.spentRootOld = root := h.linked [] t rest rfl
    have hforkless := h.forkless
    rw [List.map_cons, List.nodup_cons, hold] at hforkless
    refine ⟨h.nonempty t List.mem_cons_self, hold, ?_, ?_, ?_⟩
    · intro u hu hroot
      exact hforkless.1 (hroot ▸ List.mem_map_of_mem hu)
    · simpa using h.recomputed [] t rest rfl
    · constructor
      · exact fun u hu => h.nonempty u (List.mem_cons_of_mem _ hu)
      · rintro before u after rfl
        exact h.linked (t :: before) u after rfl
      · exact hforkless.2
      · simpa using h.fresh
      · rintro before u after rfl
        simpa using h.recomputed (t :: before) u after rfl
  · rintro ⟨hne, hold, hfork, hnew, hrest⟩
    constructor
    · rw [List.forall_mem_cons]
      exact ⟨hne, hrest.nonempty⟩
    -- the split is at the head or behind it
    · intro before u after hsplit
      cases before with
      | nil =>
          obtain ⟨rfl, rfl⟩ := List.cons.inj hsplit
          exact hold
      | cons v before =>
          obtain ⟨rfl, hafter⟩ := List.cons.inj hsplit
          exact hrest.linked before u after hafter
    · rw [List.map_cons, List.nodup_cons, hold]
      refine ⟨fun hmem => ?_, hrest.forkless⟩
      obtain ⟨u, hu, hroot⟩ := List.mem_map.1 hmem
      exact hfork u hu hroot
    · simpa using hrest.fresh
    · intro before u after hsplit
      cases before with
      | nil =>
          obtain ⟨rfl, rfl⟩ := List.cons.inj hsplit
          simpa using hnew
      | cons v before =>
          obtain ⟨rfl, hafter⟩ := List.cons.inj hsplit
          simpa using hrest.recomputed before u after hafter

theorem spent_append (chain chain' : List Transition) :
    spent (chain ++ chain') = spent chain ++ spent chain' :=
  List.flatMap_append

theorem lastRoot_concat (root : Bytes32) (chain : List Transition) (t : Transition) :
    lastRoot root (chain ++ [t]) = t.spentRootNew := by
  rw [lastRoot, List.foldl_append]
  rfl

/-- Where a transition stands in a chain with one more at the end. -/
theorem concat_eq_split {chain before after : List Transition} {t u : Transition}
    (h : chain ++ [t] = before ++ u :: after) :
    chain = before ∧ u = t ∧ after = [] ∨
      ∃ after', after = after' ++ [t] ∧ chain = before ++ u :: after' := by
  rcases List.eq_nil_or_concat' after with rfl | ⟨after', v, rfl⟩
  · obtain ⟨rfl, hlast⟩ := List.append_inj' h rfl
    obtain ⟨rfl, -⟩ := List.cons.inj hlast
    exact .inl ⟨rfl, rfl, rfl⟩
  · have hsplit : chain ++ [t] = (before ++ u :: after') ++ [v] := by
      rw [h, List.append_assoc]
      rfl
    obtain ⟨rfl, hlast⟩ := List.append_inj' hsplit rfl
    obtain ⟨rfl, -⟩ := List.cons.inj hlast
    exact .inr ⟨after', rfl, rfl⟩

/-- A transition can be added at the end of a chain. -/
theorem LinkedFrom.concat {chain : List Transition} {t : Transition}
    (h : LinkedFrom sha256 keys root chain) (hne : t.nullifiers ≠ [])
    (hold : t.spentRootOld = lastRoot root chain)
    (hfork : ∀ u ∈ chain, u.spentRootOld ≠ t.spentRootOld)
    (hfresh : (keys ++ spent (chain ++ [t])).Nodup)
    (hnew : t.spentRootNew = setRoot sha256 (keys ++ spent (chain ++ [t])).toFinset) :
    LinkedFrom sha256 keys root (chain ++ [t]) where
  nonempty := by
    rw [List.forall_mem_append]
    exact ⟨h.nonempty, by simpa using hne⟩
  linked := by
    intro before u after hsplit
    rcases concat_eq_split hsplit with ⟨rfl, rfl, -⟩ | ⟨after', -, hchain⟩
    · exact hold
    · exact h.linked before u after' hchain
  forkless := by
    rw [List.map_append, List.map_singleton]
    refine List.Nodup.append h.forkless (List.nodup_singleton _) fun old hmem hlast => ?_
    obtain rfl := List.mem_singleton.1 hlast
    obtain ⟨u, hu, heq⟩ := List.mem_map.1 hmem
    exact hfork u hu heq
  fresh := hfresh
  recomputed := by
    intro before u after hsplit
    rcases concat_eq_split hsplit with ⟨rfl, rfl, -⟩ | ⟨after', -, hchain⟩
    · exact hnew
    · exact h.recomputed before u after' hchain

/-- Every old root of a chain commits to what is spent before. -/
theorem LinkedFrom.old_root {chain before after : List Transition} {t : Transition}
    (h : LinkedFrom sha256 keys root chain) (hroot : root = setRoot sha256 keys.toFinset)
    (hsplit : chain = before ++ t :: after) :
    t.spentRootOld = setRoot sha256 (keys ++ spent before).toFinset := by
  rw [h.linked before t after hsplit]
  rcases List.eq_nil_or_concat' before with rfl | ⟨front, u, rfl⟩
  · rw [spent_nil, List.append_nil]
    exact hroot
  · rw [lastRoot_concat]
    exact h.recomputed front u (t :: after) (by rw [hsplit, List.append_assoc]; rfl)

/-- The last root of a chain commits to everything spent. -/
theorem LinkedFrom.last_root {chain : List Transition} (h : LinkedFrom sha256 keys root chain)
    (hroot : root = setRoot sha256 keys.toFinset) :
    lastRoot root chain = setRoot sha256 (keys ++ spent chain).toFinset := by
  rcases List.eq_nil_or_concat' chain with rfl | ⟨front, u, rfl⟩
  · rw [spent_nil, List.append_nil]
    exact hroot
  · rw [lastRoot_concat]
    exact h.recomputed front u [] rfl

/-- **A set of transitions is a chain in one order only**: the next one is the only one that
continues the root. -/
theorem LinkedFrom.unique {chain chain' : List Transition} (h : LinkedFrom sha256 keys root chain)
    (h' : LinkedFrom sha256 keys root chain') (hmem : ∀ t, t ∈ chain ↔ t ∈ chain') :
    chain = chain' := by
  induction chain generalizing keys root chain' with
  | nil => exact (List.eq_nil_iff_forall_not_mem.2 fun t ht => by simpa using (hmem t).2 ht).symm
  | cons t rest ih =>
      obtain ⟨-, hold, hfork, -, hrest⟩ := linkedFrom_cons.1 h
      cases chain' with
      | nil => exact absurd ((hmem t).1 List.mem_cons_self) List.not_mem_nil
      | cons t' rest' =>
          obtain ⟨-, hold', hfork', -, hrest'⟩ := linkedFrom_cons.1 h'
          obtain rfl : t = t' := by
            rcases List.mem_cons.1 ((hmem t).1 List.mem_cons_self) with heq | hlater
            · exact heq
            · exact absurd hold (hfork' t hlater)
          rw [ih hrest hrest' fun u => ?_]
          constructor
          · intro hu
            rcases List.mem_cons.1 ((hmem u).1 (List.mem_cons_of_mem _ hu)) with rfl | hu'
            · exact absurd hold (hfork u hu)
            · exact hu'
          · intro hu
            rcases List.mem_cons.1 ((hmem u).2 (List.mem_cons_of_mem _ hu)) with rfl | hu'
            · exact absurd hold (hfork' u hu)
            · exact hu'

end Chains

/-! ## The loop follows the chain -/

section Loop

variable (sha256 : Bytes → Bytes32)

/-- The chain lists the transitions of the batches that are still unused. -/
def RebuildState.Lists (state : RebuildState) (chain : List Transition) : Prop :=
  ∀ t, t ∈ chain ↔ ∃ batch ∈ state.unused, batch.transition = t

theorem rebuildStep_none {state : RebuildState} (h : state.unused = []) :
    rebuildStep sha256 state = .ok none := by
  have hsame : ∀ x ∈ state.unused, ∀ y ∈ state.unused, x.spentRootOld = state.root →
      y.spentRootOld = state.root → x.transition = y.transition := by simp [h]
  obtain ⟨r, hr⟩ := nextLink_ok hsame
  have hlink := nextLink_eq_ok hr
  cases r with
  | none =>
      rw [rebuildStep, hr]
      rfl
  | some found =>
      rw [h] at hlink
      exact absurd hlink.1 List.not_mem_nil

/-- A chain's first transition is taken, and the rest of the chain lists what is left. -/
theorem rebuildStep_cons {state : RebuildState} {t : Transition} {rest : List Transition}
    (hlink : LinkedFrom sha256 state.tree.keys state.root (t :: rest))
    (hlists : state.Lists (t :: rest)) :
    ∃ next, rebuildStep sha256 state = .ok (some next) ∧
      next.tree.keys = state.tree.keys ++ t.nullifiers ∧ next.root = t.spentRootNew ∧
      next.Lists rest := by
  obtain ⟨hne, hold, hfork, hnew, hrest⟩ := linkedFrom_cons.1 hlink
  obtain ⟨batch, hbatch, rfl⟩ := (hlists t).1 List.mem_cons_self
  -- every unused batch that continues the root is a copy of the head of the chain
  have honly : ∀ other ∈ state.unused, other.spentRootOld = state.root →
      other.transition = batch.transition := by
    intro other hother hroot
    rcases List.mem_cons.1 ((hlists other.transition).2 ⟨other, hother, rfl⟩) with heq | hlater
    · exact heq
    · exact absurd hroot (hfork _ hlater)
  -- so the scan finds no ambiguity, and it finds one since the head is listed
  obtain ⟨found, hfound⟩ := nextLink_ok fun x hx y hy hxr hyr =>
    (honly x hx hxr).trans (honly y hy hyr).symm
  have hscan := nextLink_eq_ok hfound
  cases found with
  | none => exact absurd hold (hscan batch hbatch)
  | some item =>
      obtain ⟨i, copy⟩ := item
      obtain ⟨hcopy, hcopyRoot, -⟩ := hscan
      have hsame := honly copy hcopy hcopyRoot
      obtain ⟨hnull, -, hrootNew⟩ := Transition.mk.inj hsame
      have hnodup : (state.tree.keys ++ copy.nullifiers).Nodup := by
        have hfresh := hrest.fresh
        rw [List.nodup_append] at hfresh
        rw [hnull]
        exact hfresh.1
      -- its nullifiers are fresh, so the tree takes them and the witnesses fold to the stated root
      obtain ⟨ws, hws⟩ := (orderedInsertWitnesses_eq_ok sha256).2 ⟨hnodup, rfl⟩
      obtain ⟨tree, htree⟩ := foldlM_insert_ok hnodup
      have hcopyNew : setRoot sha256 (state.tree.keys ++ copy.nullifiers).toFinset =
          copy.spentRootNew := by
        rw [hnull, hrootNew]
        exact hnew.symm
      have hcopyNe : copy.nullifiers ≠ [] := hnull ▸ hne
      have hstep : ∃ next, rebuildStep sha256 state = .ok (some next) := by
        rw [rebuildStep]
        simp only [bind_eq_ok, hfound, Except.ok.injEq, exists_eq_left', ensure_eq_ok,
          mapError_eq_ok]
        exact ⟨_, (), hcopyNe, _, hws, (), hcopyNew, tree, htree, rfl⟩
      obtain ⟨next, hnext⟩ := hstep
      obtain ⟨taken, htaken, htakenRoot, -, -, hkeys, -, hroot, -, hentries⟩ :=
        rebuildStep_eq_ok sha256 hnext
      have htakenSame := honly taken htaken htakenRoot
      obtain ⟨hnull', -, hrootNew'⟩ := Transition.mk.inj htakenSame
      refine ⟨next, hnext, by rw [hkeys, hnull']; rfl, by rw [hroot, hrootNew']; rfl, fun u => ?_⟩
      -- what is unused afterwards is the rest of the chain
      constructor
      · intro hu
        obtain ⟨other, hother, rfl⟩ := (hlists u).1 (List.mem_cons_of_mem _ hu)
        refine ⟨other, (mem_unused_markUsed hentries).2 ⟨hother, fun heq => ?_⟩, rfl⟩
        apply hfork _ hu
        rw [heq, htakenSame]
        exact hold
      · rintro ⟨other, hother, rfl⟩
        obtain ⟨hmem, hdiff⟩ := (mem_unused_markUsed hentries).1 hother
        rcases List.mem_cons.1 ((hlists other.transition).2 ⟨other, hmem, rfl⟩) with heq | hlater
        · exact absurd (heq.trans htakenSame.symm) hdiff
        · exact hlater

/-- **The loop uses every batch of a chain.** -/
theorem rebuildLoop_of_linked {state : RebuildState} {chain : List Transition}
    (hlink : LinkedFrom sha256 state.tree.keys state.root chain) (hlists : state.Lists chain) :
    ∃ final, rebuildLoop sha256 state = .ok final ∧ final.unused = [] := by
  induction chain generalizing state with
  | nil =>
      have hunused : state.unused = [] := List.eq_nil_iff_forall_not_mem.2 fun batch hbatch =>
        List.not_mem_nil ((hlists batch.transition).2 ⟨batch, hbatch, rfl⟩)
      refine ⟨state, ?_, hunused⟩
      rw [rebuildLoop, rebuildStep_none sha256 hunused]
  | cons t rest ih =>
      obtain ⟨next, hnext, hkeys, hroot, hrest⟩ := rebuildStep_cons sha256 hlink hlists
      have hlinked : LinkedFrom sha256 next.tree.keys next.root rest := by
        rw [hkeys, hroot]
        exact (linkedFrom_cons.1 hlink).2.2.2.2
      obtain ⟨final, hfinal, hdone⟩ := ih hlinked hrest
      refine ⟨final, ?_, hdone⟩
      rw [rebuildLoop, hnext]
      exact hfinal

/-- **A loop that uses every batch followed a chain.** -/
theorem linked_of_rebuildLoop {state final : RebuildState}
    (h : rebuildLoop sha256 state = .ok final) (hdone : final.unused = []) :
    ∃ chain, LinkedFrom sha256 state.tree.keys state.root chain ∧ state.Lists chain ∧
      final.tree.keys = state.tree.keys ++ spent chain ∧ final.root = lastRoot state.root chain ∧
      final.spentCount = state.spentCount + (spent chain).length := by
  -- by induction on the loop: each turn takes one batch of the list
  induction state using rebuildLoop.induct sha256 with
  | case1 state e hstep =>
      rw [rebuildLoop, hstep] at h
      cases h
  -- no batch continues the root: the chain ends here
  | case2 state hstep =>
      rw [rebuildLoop, hstep] at h
      cases h
      refine ⟨[], linkedFrom_nil final.tree.nodup, fun t => ?_, by simp, rfl, rfl⟩
      simp [hdone]
  | case3 state next hstep ih =>
      rw [rebuildLoop, hstep] at h
      obtain ⟨batch, hbatch, hold, honly, hne, hkeys, hset, hroot, hcount, hentries⟩ :=
        rebuildStep_eq_ok sha256 hstep
      obtain ⟨rest, hlink, hlists, hfinalKeys, hfinalRoot, hfinalCount⟩ := ih h
      rw [hkeys, hroot] at hlink
      have hnew : batch.spentRootNew =
          setRoot sha256 (state.tree.keys ++ batch.nullifiers).toFinset := by
        rw [← hkeys, ← hroot]
        exact hset
      refine ⟨batch.transition :: rest, linkedFrom_cons.2 ⟨hne, hold, ?_, hnew, hlink⟩,
        ?_, ?_, ?_, ?_⟩
      -- no other transition starts from this root, for the step found no second one
      · intro u hu hroot'
        obtain ⟨other, hother, rfl⟩ := (hlists u).1 hu
        obtain ⟨hmem, hdiff⟩ := (mem_unused_markUsed hentries).1 hother
        exact hdiff (honly other hmem hroot')
      · intro u
        rw [List.mem_cons, hlists u]
        constructor
        · rintro (rfl | ⟨other, hother, rfl⟩)
          · exact ⟨batch, hbatch, rfl⟩
          · exact ⟨other, ((mem_unused_markUsed hentries).1 hother).1, rfl⟩
        · rintro ⟨other, hother, rfl⟩
          by_cases hsame : other.transition = batch.transition
          · exact .inl hsame
          · exact .inr ⟨other, (mem_unused_markUsed hentries).2 ⟨hother, hsame⟩, rfl⟩
      · rw [hfinalKeys, hkeys, spent_cons, List.append_assoc]
        rfl
      · rw [hfinalRoot, hroot]
        rfl
      · rw [hfinalCount, hcount, spent_cons, List.length_append, Nat.add_assoc]
        rfl

/-- The loop's root commits to its tree. -/
theorem rebuildLoop_root {state final : RebuildState}
    (hstate : state.root = setRoot sha256 state.tree.keys.toFinset)
    (h : rebuildLoop sha256 state = .ok final) :
    final.root = setRoot sha256 final.tree.keys.toFinset := by
  induction state using rebuildLoop.induct sha256 with
  | case1 state e hstep =>
      rw [rebuildLoop, hstep] at h
      cases h
  | case2 state hstep =>
      rw [rebuildLoop, hstep] at h
      cases h
      exact hstate
  | case3 state next hstep ih =>
      rw [rebuildLoop, hstep] at h
      obtain ⟨_, -, -, -, -, -, hset, -⟩ := rebuildStep_eq_ok sha256 hstep
      exact ih hset h

/-- The rebuild succeeds when the loop uses every batch. -/
theorem rebuild_eq_ok {batches : List SettledBatch} {acc : RebuiltAccumulator} :
    rebuild sha256 batches = .ok acc ↔
      ∃ final, rebuildLoop sha256 (initialState batches) = .ok final ∧ final.unused = [] ∧
        acc = ⟨final.tree, final.root, final.spentCount, final.txids⟩ := by
  rw [rebuild, bind_eq_ok]
  refine exists_congr fun final => and_congr_right fun _ => ?_
  cases hfind : final.entries.zipIdx.find? fun (entry, _) => !entry.used with
  | none =>
      rw [List.find?_eq_none] at hfind
      have hdone : final.unused = [] := by
        refine List.eq_nil_iff_forall_not_mem.2 fun batch hbatch => ?_
        obtain ⟨entry, hentry, hused, -⟩ := mem_unused.1 hbatch
        obtain ⟨i, hi⟩ := exists_mem_zipIdx.1 hentry
        exact hfind (entry, i) hi (by simp [hused])
      simp [hdone, eq_comm]
  | some item =>
      have hopen : item.1.batch ∈ final.unused := by
        refine mem_unused.2 ⟨item.1, exists_mem_zipIdx.2 ⟨item.2, List.mem_of_find?_eq_some hfind⟩,
          ?_, rfl⟩
        simpa using List.find?_some hfind
      constructor
      · intro h
        cases h
      · rintro ⟨hdone, -⟩
        rw [hdone] at hopen
        exact absurd hopen List.not_mem_nil

theorem initialState_lists {batches : List SettledBatch} {chain : List Transition} :
    (initialState batches).Lists chain ↔ ∀ t, t ∈ chain ↔ t ∈ batches.map SettledBatch.transition := by
  refine forall_congr' fun t => iff_congr Iff.rfl ?_
  rw [List.mem_map]
  refine exists_congr fun batch => and_congr_left fun _ => ?_
  simp [mem_unused, initialState]

/-- The transitions of the batches form one chain once the copies are dropped. -/
def FormsChain (batches : List SettledBatch) (chain : List Transition) : Prop :=
  SingleChain sha256 chain ∧ ∀ t, t ∈ chain ↔ t ∈ batches.map SettledBatch.transition

/-- **The accumulator that a chain rebuilds.** -/
theorem rebuild_of_chain {batches : List SettledBatch} {chain : List Transition}
    (h : FormsChain sha256 batches chain) :
    ∃ acc, rebuild sha256 batches = .ok acc ∧ acc.tree.keys = spent chain ∧
      acc.spentRoot = lastRoot EMPTY_TREE_ROOT chain ∧ acc.spentCount = (spent chain).length := by
  obtain ⟨hchain, hmem⟩ := h
  obtain ⟨final, hfinal, hdone⟩ := @rebuildLoop_of_linked sha256 (initialState batches) _ hchain
    (initialState_lists.2 hmem)
  obtain ⟨chain', hlink, hlists, hkeys, hroot, hcount⟩ := linked_of_rebuildLoop sha256 hfinal hdone
  obtain rfl : chain = chain' := hchain.unique hlink fun t => by
    rw [hmem t, initialState_lists.1 hlists t]
  refine ⟨_, (rebuild_eq_ok sha256).2 ⟨final, hfinal, hdone, rfl⟩, ?_, hroot, ?_⟩
  · rw [hkeys]
    rfl
  · rw [hcount]
    exact Nat.zero_add _

theorem chain_of_rebuild {batches : List SettledBatch} {acc : RebuiltAccumulator}
    (h : rebuild sha256 batches = .ok acc) : ∃ chain, FormsChain sha256 batches chain := by
  obtain ⟨final, hfinal, hdone, -⟩ := (rebuild_eq_ok sha256).1 h
  obtain ⟨chain, hlink, hlists, -⟩ := linked_of_rebuildLoop sha256 hfinal hdone
  exact ⟨chain, hlink, initialState_lists.1 hlists⟩

end Loop

/-- The same roots. -/
def Transition.SameRoots (t u : Transition) : Prop :=
  t.spentRootOld = u.spentRootOld ∧ t.spentRootNew = u.spentRootNew

/-- **A rebuilt list has no gap.** Take a chain whose roots are all distinct and a list of batches with
roots from it, the last ones among them. If the list rebuilds, it has the roots of the whole chain. -/
theorem gapless_of_rebuild {sha256 : Bytes → Bytes32} {chain : List Transition}
    (hchain : SingleChain sha256 chain)
    (hroots : (EMPTY_TREE_ROOT :: chain.map Transition.spentRootNew).Nodup)
    {batches : List SettledBatch} {acc : RebuiltAccumulator}
    (hrebuild : rebuild sha256 batches = .ok acc)
    (hfrom : ∀ batch ∈ batches, ∃ t ∈ chain, t.SameRoots batch.transition)
    (hlast : ∀ before t, chain = before ++ [t] → ∃ batch ∈ batches, t.SameRoots batch.transition) :
    ∀ t ∈ chain, ∃ batch ∈ batches, t.SameRoots batch.transition := by
  obtain ⟨rebuilt, hrebuilt, hmem⟩ := chain_of_rebuild sha256 hrebuild
  rw [List.nodup_cons] at hroots
  -- from the last transition to the first: each needs the one before it
  have hsplit : ∀ after before t, chain = before ++ t :: after →
      ∃ batch ∈ batches, t.SameRoots batch.transition := by
    intro after
    induction after with
    | nil => exact hlast
    | cons u after ih =>
        intro before t heq
        have heq' : chain = (before ++ [t]) ++ u :: after := by
          rw [heq, List.append_assoc]
          rfl
        have ht : t ∈ chain := by
          rw [heq]
          exact List.mem_append_right _ List.mem_cons_self
        obtain ⟨batch, hbatch, hold, -⟩ := ih (before ++ [t]) u heq'
        have hlink : batch.transition.spentRootOld = t.spentRootNew := by
          rw [← hold, hchain.linked (before ++ [t]) u after heq', lastRoot_concat]
        -- the transition that was found starts from the root of `t`, so the rebuilt chain has one
        -- ending there
        obtain ⟨front, back, hfront⟩ :=
          List.append_of_mem ((hmem batch.transition).2 (List.mem_map_of_mem hbatch))
        have hprevious := hrebuilt.linked front batch.transition back hfront
        rw [hlink] at hprevious
        rcases List.eq_nil_or_concat' front with rfl | ⟨front, v, rfl⟩
        · exact absurd (List.mem_map.2 ⟨t, ht, hprevious⟩) hroots.1
        · rw [lastRoot_concat] at hprevious
          have hv : v ∈ rebuilt := by
            rw [hfront]
            exact List.mem_append_left _ (List.mem_append_right _ List.mem_cons_self)
          obtain ⟨other, hother, rfl⟩ := List.mem_map.1 ((hmem v).1 hv)
          -- and the roots of the chain are distinct, so that one is `t`
          obtain ⟨t', ht', hsame⟩ := hfrom other hother
          obtain rfl : t' = t :=
            List.inj_on_of_nodup_map hroots.2 ht' ht (hsame.2.trans hprevious.symm)
          exact ⟨other, hother, hsame⟩
  intro t ht
  obtain ⟨before, after, heq⟩ := List.append_of_mem ht
  exact hsplit after before t heq

/-- What a rebuild finds, the transactions aside. A failure's text names positions in the list. -/
def outcome : Result RebuiltAccumulator → Option (NullifierTree × Bytes32 × Nat)
  | .ok acc => some (acc.tree, acc.spentRoot, acc.spentCount)
  | .error _ => none

/-- Lists with the same transitions rebuild the same accumulator. -/
theorem outcome_congr (sha256 : Bytes → Bytes32) {batches batches' : List SettledBatch}
    (h : ∀ t, t ∈ batches.map SettledBatch.transition ↔ t ∈ batches'.map SettledBatch.transition) :
    outcome (rebuild sha256 batches) = outcome (rebuild sha256 batches') := by
  have hchain : ∀ chain, FormsChain sha256 batches chain ↔ FormsChain sha256 batches' chain := by
    intro chain
    simp only [FormsChain, h]
  cases hrun : rebuild sha256 batches with
  | ok acc =>
      obtain ⟨chain, hforms⟩ := chain_of_rebuild sha256 hrun
      obtain ⟨found, hfound, hkeys, hroot, hcount⟩ := rebuild_of_chain sha256 hforms
      obtain ⟨acc', hrun', hkeys', hroot', hcount'⟩ :=
        rebuild_of_chain sha256 ((hchain chain).1 hforms)
      obtain rfl : acc = found := Except.ok.inj (hrun.symm.trans hfound)
      have htree : acc.tree = acc'.tree := by
        obtain ⟨⟨k, _⟩, _, _, _⟩ := acc
        obtain ⟨⟨k', _⟩, _, _, _⟩ := acc'
        obtain rfl : k = spent chain := hkeys
        obtain rfl : k' = spent chain := hkeys'
        rfl
      rw [hrun', outcome, outcome, htree, hroot, hroot', hcount, hcount']
  | error e =>
      cases hrun' : rebuild sha256 batches' with
      | error e' => rfl
      | ok acc' =>
          obtain ⟨chain, hforms⟩ := chain_of_rebuild sha256 hrun'
          obtain ⟨acc, hrun'', -⟩ := rebuild_of_chain sha256 ((hchain chain).2 hforms)
          rw [hrun] at hrun''
          cases hrun''

/-- **The rebuild is exact.** It succeeds exactly on lists whose distinct transitions form one chain
from the empty tree; it then holds the union of the nullifiers, their root and their number. Order
and repetition in the list do not matter, and every turn of the loop uses up at least one batch. -/
theorem rebuild_exact (sha256 : Bytes → Bytes32) (batches : List SettledBatch) :
    ((∃ acc, rebuild sha256 batches = .ok acc) ↔ ∃ chain : List Transition, chain.Nodup ∧
        (∀ t, t ∈ chain ↔ t ∈ batches.map SettledBatch.transition) ∧ SingleChain sha256 chain) ∧
      (∀ acc, rebuild sha256 batches = .ok acc →
        (∀ key, key ∈ acc.tree.keys ↔ ∃ batch ∈ batches, key ∈ batch.nullifiers) ∧
          acc.spentRoot = acc.tree.root sha256 ∧ acc.spentCount = acc.tree.keys.length) ∧
      (∀ batches' : List SettledBatch, batches ⊆ batches' → batches' ⊆ batches →
        outcome (rebuild sha256 batches) = outcome (rebuild sha256 batches')) ∧
      ∀ state next, rebuildStep sha256 state = .ok (some next) →
        next.unused.length < state.unused.length := by
  refine ⟨⟨?_, ?_⟩, ?_, ?_, ?_⟩
  · rintro ⟨acc, h⟩
    obtain ⟨chain, hchain, hmem⟩ := chain_of_rebuild sha256 h
    exact ⟨chain, hchain.forkless.of_map _, hmem, hchain⟩
  · rintro ⟨chain, -, hmem, hchain⟩
    obtain ⟨acc, h, -⟩ := rebuild_of_chain sha256 ⟨hchain, hmem⟩
    exact ⟨acc, h⟩
  · intro acc h
    obtain ⟨chain, hchain, hmem⟩ := chain_of_rebuild sha256 h
    obtain ⟨found, hfound, hkeys, -, hcount⟩ := rebuild_of_chain sha256 ⟨hchain, hmem⟩
    obtain rfl : acc = found := Except.ok.inj (h.symm.trans hfound)
    refine ⟨fun key => ?_, ?_, by rw [hcount, hkeys]⟩
    · rw [hkeys, spent, List.mem_flatMap]
      simp only [hmem, List.mem_map, exists_exists_and_eq_and]
      rfl
    · obtain ⟨final, hfinal, -, rfl⟩ := (rebuild_eq_ok sha256).1 h
      rw [root_eq_setRoot]
      exact rebuildLoop_root sha256 (empty_root sha256) hfinal
  · intro batches' hsub hsub'
    refine outcome_congr sha256 fun t => ?_
    exact ⟨fun ht => List.map_subset _ hsub ht, fun ht => List.map_subset _ hsub' ht⟩
  · intro state next h
    exact rebuildStep_unused_lt sha256 h

/-! ## The next batch -/

/-- The accumulator inputs of a new batch on top of a rebuilt accumulator. -/
structure NextBatch where
  spentRootOld : Bytes32
  witnesses : List NonMembershipWitness
  spentRootNew : Bytes32

section NextBatch

variable (sha256 : Bytes → Bytes32)

/-- One insertion of the replay, as the guest does it. -/
def replayInsert (running : Bytes32) (pair : NonMembershipWitness × Key) : Result Bytes32 :=
  okOr (Accumulator.insert sha256 running pair.2 pair.1)
    (.check "S2 next batch: produced a witness that does not verify")

/-- The witnesses for a new batch on the rebuilt tree, replayed as the guest does. -/
def nextBatch (acc : RebuiltAccumulator) (newNullifiers : List Key) : Result NextBatch := do
  ensure (newNullifiers ≠ []) (.check "S2 next batch: empty")
  let spentRootOld := acc.tree.root sha256
  let (witnesses, spentRootNew) ← (orderedInsertWitnesses sha256 acc.tree newNullifiers).mapError
    fun e => HostError.check s!"S2 next batch: {debugError e} (already spent?)"
  let running ← (witnesses.zip newNullifiers).foldlM (replayInsert sha256) spentRootOld
  ensure (running = spentRootNew) (.check "S2 next batch: folded root != spent_root_new")
  .ok { spentRootOld, witnesses, spentRootNew }

/-- Insertion accepts witnesses of at most 256 steps. -/
theorem steps_length_le {root r : Bytes32} {key : Key} {witness : NonMembershipWitness}
    (h : Accumulator.insert sha256 root key witness = some r) : witness.steps.length ≤ 256 := by
  obtain ⟨habsent, -⟩ := (insert_eq_some sha256).1 h
  rcases (rebuildAbsentRoot_eq_some sha256).1 habsent with ⟨-, ⟨hnil, -⟩ | ⟨-, hdesc, -⟩⟩
  · rw [hnil]
    exact Nat.zero_le _
  · exact hdesc.length_le

/-- The replay follows the chain of insertions, and each of its witnesses is short. -/
theorem foldlM_replayInsert {keys : List Key} {witnesses : List NonMembershipWitness}
    (hlength : witnesses.length = keys.length) {root r : Bytes32}
    (h : (keys.zip witnesses).foldlM (fun root p => Accumulator.insert sha256 root p.1 p.2) root =
      some r) :
    (witnesses.zip keys).foldlM (replayInsert sha256) root = .ok r ∧
      ∀ witness ∈ witnesses, witness.steps.length ≤ 256 := by
  induction keys generalizing witnesses root with
  | nil =>
      obtain rfl := List.length_eq_zero_iff.1 hlength
      obtain rfl : root = r := Option.some.inj h
      exact ⟨rfl, fun _ hmem => absurd hmem List.not_mem_nil⟩
  | cons key rest ih =>
      cases witnesses with
      | nil => simp at hlength
      | cons witness more =>
          rw [List.zip_cons_cons, List.foldlM_cons] at h
          obtain ⟨mid, hmid, hrest⟩ := Option.bind_eq_some_iff.1 h
          obtain ⟨hfold, hsteps⟩ := ih (by simpa using hlength) hrest
          refine ⟨?_, List.forall_mem_cons.2 ⟨steps_length_le sha256 hmid, hsteps⟩⟩
          rw [List.zip_cons_cons, List.foldlM_cons, bind_eq_ok]
          exact ⟨mid, okOr_eq_ok.2 hmid, hfold⟩

/-- **New nullifiers can be inserted**, in order, with witnesses that the guest accepts. -/
theorem nextBatch_ok {acc : RebuiltAccumulator} {newNullifiers : List Key}
    (hne : newNullifiers ≠ []) (hnodup : newNullifiers.Nodup)
    (hnew : ∀ key ∈ newNullifiers, key ∉ acc.tree.keys) :
    ∃ next, nextBatch sha256 acc newNullifiers = .ok next ∧
      next.spentRootOld = acc.tree.root sha256 ∧
      next.witnesses.length = newNullifiers.length ∧
      (∀ witness ∈ next.witnesses, witness.steps.length ≤ 256) ∧
      (newNullifiers.zip next.witnesses).foldlM
        (fun root p => Accumulator.insert sha256 root p.1 p.2) next.spentRootOld =
          some next.spentRootNew := by
  obtain ⟨witnesses, tree, hfold, hlength, -, hroots, -⟩ :=
    foldlM_insertWitness sha256 [] acc.tree hnodup hnew
  have hordered : orderedInsertWitnesses sha256 acc.tree newNullifiers =
      .ok (witnesses, tree.root sha256) := by
    rw [orderedInsertWitnesses, hfold]
    rfl
  obtain ⟨hreplay, hsteps⟩ := foldlM_replayInsert sha256 hlength hroots
  refine ⟨⟨acc.tree.root sha256, witnesses, tree.root sha256⟩, ?_, rfl, hlength, hsteps, hroots⟩
  simp only [nextBatch, bind_eq_ok, ensure_eq_ok, mapError_eq_ok]
  exact ⟨(), hne, _, hordered, _, hreplay, (), rfl, rfl⟩

end NextBatch

end UnicityBridge.Settlement
