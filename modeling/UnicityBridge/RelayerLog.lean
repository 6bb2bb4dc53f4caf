import UnicityBridge.Relayer
import UnicityBridge.VaultLog

/-!
# The event log reconstructs the vault

The chain API reports the events of a run, in any order. `groupBatches` then finds the batches of the
run and the rebuild ends in the vault's root. If the report lacks settlement events before the last
batch, either the grouping throws or the rebuild fails (`log_reconstructs`).
-/

set_option autoImplicit false

namespace UnicityBridge.Vault

open UnicityBridge.Lib
open UnicityBridge.TokenSdk (Sdk)
open UnicityBridge.Guest (GuestInput)
open UnicityBridge.Settlement (Transition SettledBatch BatchJson parseBatch parseBytes32 rebuild)
open UnicityBridge.Relayer (RawEvent JsValue normalizeEvent groupBatches groupFrom claimReleased
  ReadsBytes ReadsNumber Agree)

variable {σ : Type}

/-! ## What the chain reports -/

/-- The name of an event in the vault's interface. -/
def Event.eventName : Event → String
  | .lock _ _ _ _ _ => "Lock"
  | .batchFulfilled _ _ _ _ => "BatchFulfilled"
  | .released _ _ _ _ _ _ => "Released"
  | .trustBaseAllowedUpdated _ _ => "TrustBaseAllowedUpdated"
  | .adminTransferred _ _ => "AdminTransferred"
  | .withdrawn _ _ => "Withdrawn"

/-- A field of a report, under its name or else its position. -/
def fieldOf (raw : RawEvent) (name index : String) : Option JsValue :=
  (raw.result name).or (raw.result index)

/-- The report shows the event: its name, and the fields that the relayer reads. -/
structure Reports (event : Event) (raw : RawEvent) : Prop where
  eventName : raw.eventName = event.eventName
  fields : match event with
    | .batchFulfilled spentRootOld spentRootNew batchSize _ =>
        ReadsBytes spentRootOld (fieldOf raw "spentRootOld" "0") ∧
          ReadsBytes spentRootNew (fieldOf raw "spentRootNew" "1") ∧
          ReadsNumber batchSize.toNat (fieldOf raw "batchSize" "2")
    | .released nullifier _ _ _ _ _ => ReadsBytes nullifier (fieldOf raw "nullifier" "0")
    | _ => True

/-- A report of all events of a run, one group for each transaction. Positions follow the order of the
log, across transactions too, and events of one transaction do not name two. -/
structure ReportedLog (d : Deployment σ) (w : World σ) (transactions : List (Transaction σ))
    (reported : List (List (Event × RawEvent))) : Prop where
  events : reported.map (List.map Prod.fst) = emissions d w transactions
  reports : ∀ group ∈ reported, ∀ item ∈ group, Reports item.1 item.2
  ordered : ((reported.flatten.map Prod.snd).map normalizeEvent).Pairwise Relayer.Event.before
  agree : ∀ group ∈ reported, ∀ item ∈ group, ∀ other ∈ group,
    Agree (normalizeEvent item.2) (normalizeEvent other.2)

/-- The report is about a settlement. -/
def settles (raw : RawEvent) : Bool := (normalizeEvent raw).detail.isSettlement

theorem settles_iff {raw : RawEvent} :
    settles raw = true ↔ raw.eventName = "BatchFulfilled" ∨ raw.eventName = "Released" := by
  rw [settles, normalizeEvent]
  by_cases hbatch : raw.eventName = "BatchFulfilled"
  · simp [hbatch, Relayer.Detail.isSettlement]
  · by_cases hreleased : raw.eventName = "Released"
    · simp [hreleased, Relayer.Detail.isSettlement]
    · simp [hbatch, hreleased, Relayer.Detail.isSettlement]

theorem Reports.settles {event : Event} {raw : RawEvent} (h : Reports event raw) :
    settles raw = event.isSettlement := by
  rw [Bool.eq_iff_iff, settles_iff, h.eventName]
  cases event <;> simp [Event.eventName, Event.isSettlement]

/-! ## Blocks of reports -/

/-- The reports of one batch. -/
structure Block where
  step : Transition
  head : RawEvent
  releases : List RawEvent

/-- The batch event, then the releases. -/
def Block.events (b : Block) : List RawEvent := b.head :: b.releases

/-- The reports read as the batch. -/
structure Block.Shows (b : Block) : Prop where
  head : ∃ spentRootOld spentRootNew, (normalizeEvent b.head).detail =
      .batchFulfilled spentRootOld spentRootNew (some (b.step.nullifiers.length : Int)) ∧
    parseBytes32 spentRootOld = .ok b.step.spentRootOld ∧
    parseBytes32 spentRootNew = .ok b.step.spentRootNew
  releases : List.Forall₂ (fun raw key => ∃ text, (normalizeEvent raw).detail = .released text ∧
    parseBytes32 text = .ok key) b.releases b.step.nullifiers
  agree : ∀ raw ∈ b.releases, Agree (normalizeEvent b.head) (normalizeEvent raw)

theorem Reports.batchFulfilled {spentRootOld spentRootNew : Bytes32} {batchSize : UInt32}
    {totalAmount : Word} {raw : RawEvent}
    (h : Reports (.batchFulfilled spentRootOld spentRootNew batchSize totalAmount) raw) :
    ∃ old new, (normalizeEvent raw).detail =
        .batchFulfilled old new (some (batchSize.toNat : Int)) ∧
      parseBytes32 old = .ok spentRootOld ∧ parseBytes32 new = .ok spentRootNew := by
  obtain ⟨hold, hnew, hsize⟩ := h.fields
  refine ⟨_, _, ?_, Relayer.parseBytes32_hex32 hold, Relayer.parseBytes32_hex32 hnew⟩
  have hname : raw.eventName = "BatchFulfilled" := h.eventName
  rw [← Relayer.toNumber_of_reads hsize, normalizeEvent, if_pos hname]
  rfl

theorem Reports.released {event : Event} {nullifier : Bytes32} {raw : RawEvent}
    (h : Reports event raw) (hevent : event.nullifier = some nullifier) :
    ∃ text, (normalizeEvent raw).detail = .released text ∧ parseBytes32 text = .ok nullifier := by
  cases event with
  | released key recipient amount feeRecipient feeAmount deadline =>
      obtain rfl : key = nullifier := Option.some.inj hevent
      refine ⟨_, ?_, Relayer.parseBytes32_hex32 h.fields⟩
      have hname : raw.eventName = "Released" := h.eventName
      rw [normalizeEvent, if_neg (by rw [hname]; decide), if_pos hname]
      rfl
  | _ => cases hevent

/-- The reports of a transaction that writes a batch are a block. -/
theorem block_of_writes {group : List (Event × RawEvent)}
    (hreports : ∀ item ∈ group, Reports item.1 item.2)
    (hagree : ∀ item ∈ group, ∀ other ∈ group,
      Agree (normalizeEvent item.2) (normalizeEvent other.2))
    {t : Transition} (h : Writes t ((group.map Prod.fst).filter Event.isSettlement)) :
    ∃ block : Block, block.step = t ∧ (group.map Prod.snd).filter settles = block.events ∧
      block.Shows := by
  obtain ⟨batchSize, totalAmount, releases, hevents, hsize, hkeys⟩ := h
  have hfilter : (group.map Prod.snd).filter settles =
      (group.filter fun item => item.1.isSettlement).map Prod.snd := by
    rw [List.filter_map]
    refine congrArg _ (List.filter_congr fun item hitem => ?_)
    exact (hreports item hitem).settles
  have hsub : ∀ item ∈ group.filter fun item => item.1.isSettlement, item ∈ group :=
    fun item hitem => (List.mem_filter.1 hitem).1
  rw [List.filter_map] at hevents
  change ((group.filter fun item => item.1.isSettlement).map Prod.fst) = _ at hevents
  -- the settlement items: the batch, then its releases
  cases hitems : group.filter fun item => item.1.isSettlement with
  | nil =>
      rw [hitems] at hevents
      cases hevents
  | cons first items =>
      rw [hitems, List.map_cons] at hevents
      obtain ⟨hfirst, hrest⟩ := List.cons.inj hevents
      rw [hitems, List.forall_mem_cons] at hsub
      refine ⟨⟨t, first.2, items.map Prod.snd⟩, rfl, by rw [hfilter, hitems]; rfl, ?_, ?_, ?_⟩
      · obtain ⟨old, new, hdetail, hold, hnew⟩ :=
          Reports.batchFulfilled (hfirst ▸ hreports first hsub.1)
        rw [hsize] at hdetail
        exact ⟨old, new, hdetail, hold, hnew⟩
      · show List.Forall₂ _ (items.map Prod.snd) t.nullifiers
        have hitemKeys : items.map (fun item => item.1.nullifier) = t.nullifiers.map some := by
          rw [← hkeys, ← hrest, List.map_map]
          rfl
        -- the releases name the batch's nullifiers one by one
        have hpairs : List.Forall₂ (fun (item : Event × RawEvent) key => item.1.nullifier = some key)
            items t.nullifiers := by
          rw [← List.forall₂_map_left_iff (f := fun item : Event × RawEvent => item.1.nullifier)
            (R := fun found key => found = some key), hitemKeys, List.forall₂_map_left_iff]
          exact List.forall₂_same.2 fun _ _ => rfl
        rw [List.forall₂_map_left_iff]
        refine ((List.forall₂_and_left _ _).2 ⟨hsub.2, hpairs⟩).imp ?_
        rintro item key ⟨hitem, hkey⟩
        exact (hreports item hitem).released hkey
      · intro raw hraw
        obtain ⟨item, hitem, rfl⟩ := List.mem_map.1 hraw
        exact hagree first hsub.1 item (hsub.2 item hitem)

/-- **The settlement reports of a run are the blocks of its batches.** -/
theorem ReportedLog.blocks {d : Deployment σ} {w : World σ} {transactions : List (Transaction σ)}
    {reported : List (List (Event × RawEvent))} (h : ReportedLog d w transactions reported) :
    ∃ blocks : List Block, blocks.map Block.step = batches d w transactions ∧
      (reported.flatten.map Prod.snd).filter settles = blocks.flatMap Block.events ∧
      ∀ block ∈ blocks, block.Shows := by
  obtain ⟨steps, hsteps, hwritten⟩ := emissions_written d w transactions
  rw [← h.events, List.forall₂_map_right_iff] at hwritten
  have hreports := h.reports
  have hagree := h.agree
  rw [← hsteps]
  clear hsteps h
  induction hwritten with
  | nil => exact ⟨[], rfl, rfl, fun block hblock => absurd hblock List.not_mem_nil⟩
  | @cons step group steps reported hgroup _ ih =>
      rw [List.forall_mem_cons] at hreports hagree
      obtain ⟨blocks, hblocks, hevents, hshows⟩ := ih hreports.2 hagree.2
      rw [List.flatten_cons, List.map_append, List.filter_append, hevents]
      cases step with
      | none =>
          have hnone : (group.map Prod.snd).filter settles = [] := by
            rw [List.filter_eq_nil_iff]
            intro raw hraw
            obtain ⟨item, hitem, rfl⟩ := List.mem_map.1 hraw
            rw [(hreports.1 item hitem).settles]
            exact List.filter_eq_nil_iff.1 hgroup item.1 (List.mem_map_of_mem hitem)
          exact ⟨blocks, hblocks, by rw [hnone, List.nil_append], hshows⟩
      | some t =>
          obtain ⟨block, rfl, hblock, hshow⟩ := block_of_writes hreports.1 hagree.1 hgroup
          refine ⟨block :: blocks, ?_, ?_, ?_⟩
          · rw [List.map_cons, hblocks]
            rfl
          · rw [hblock, List.flatMap_cons]
          · rw [List.forall_mem_cons]
            exact ⟨hshow, hshows⟩

/-! ## Grouping blocks -/

/-- The step's roots and nullifiers, with a transaction. -/
def settledBatch (t : Transition) (txid : Option String) : SettledBatch :=
  ⟨t.nullifiers, t.spentRootOld, t.spentRootNew, txid⟩

theorem Block.Shows.texts {b : Block} (h : b.Shows) :
    ∃ texts, List.Forall₂ (fun x text => x.detail = Relayer.Detail.released text)
        (b.releases.map normalizeEvent) texts ∧
      texts.mapM parseBytes32 = .ok b.step.nullifiers := by
  have hreleases := h.releases
  generalize b.releases = releases, b.step.nullifiers = keys at hreleases
  simp only [mapM_eq_ok]
  induction hreleases with
  | nil => exact ⟨[], .nil, .nil⟩
  | cons hx _ ih =>
      obtain ⟨text, hdetail, hparse⟩ := hx
      obtain ⟨texts, htexts, hkeys⟩ := ih
      exact ⟨text :: texts, .cons hdetail htexts, .cons hparse hkeys⟩

theorem Block.Shows.released {b : Block} (h : b.Shows) :
    ∀ raw ∈ b.releases, ∃ text key, (normalizeEvent raw).detail = .released text ∧
      parseBytes32 text = .ok key := by
  intro raw hraw
  obtain ⟨i, hi, rfl⟩ := List.mem_iff_getElem.1 hraw
  obtain ⟨hlength, hall⟩ := List.forall₂_iff_get.1 h.releases
  obtain ⟨text, hdetail, hparse⟩ := hall i hi (hlength ▸ hi)
  exact ⟨text, _, hdetail, hparse⟩

section Missing

variable {blocks : List Block} {keep : RawEvent → Bool}

/-- The relayer's events for what is kept of the blocks. -/
def keptEvents (keep : RawEvent → Bool) (blocks : List Block) : List Relayer.Event :=
  ((blocks.flatMap Block.events).filter keep).map normalizeEvent

theorem keptEvents_cons (keep : RawEvent → Bool) (b : Block) (rest : List Block) :
    keptEvents keep (b :: rest) =
      ((b.events.filter keep).map normalizeEvent) ++ keptEvents keep rest := by
  rw [keptEvents, List.flatMap_cons, List.filter_append, List.map_append]
  rfl

theorem Block.Shows.parse_released {b : Block} (h : b.Shows) {x : Relayer.Event}
    (hx : x ∈ b.events.map normalizeEvent) {text : String} (htext : x.detail = .released text) :
    ∃ key, parseBytes32 text = .ok key := by
  obtain ⟨raw, hraw, rfl⟩ := List.mem_map.1 hx
  rcases List.mem_cons.1 hraw with rfl | hraw
  · obtain ⟨old, new, hdetail, -⟩ := h.head
    rw [hdetail] at htext
    cases htext
  · obtain ⟨text', key, hdetail, hparse⟩ := h.released raw hraw
    rw [hdetail] at htext
    cases htext
    exact ⟨key, hparse⟩

/-- The batch events that are kept, in order. -/
theorem roots_keptEvents (h : ∀ b ∈ blocks, b.Shows) :
    List.Forall₂ (fun (roots : String × String) b =>
        parseBytes32 roots.1 = .ok b.step.spentRootOld ∧
          parseBytes32 roots.2 = .ok b.step.spentRootNew)
      ((keptEvents keep blocks).filterMap Relayer.Event.roots)
      (blocks.filter fun b => keep b.head) := by
  induction blocks with
  | nil => exact .nil
  | cons b rest ih =>
      rw [List.forall_mem_cons] at h
      have hreleases : ((b.releases.filter keep).map normalizeEvent).filterMap Relayer.Event.roots =
          [] := by
        rw [List.filterMap_eq_nil_iff]
        intro x hx
        obtain ⟨raw, hraw, rfl⟩ := List.mem_map.1 hx
        obtain ⟨text, -, hdetail, -⟩ := h.1.released raw (List.mem_filter.1 hraw).1
        rw [Relayer.Event.roots, hdetail]
      obtain ⟨old, new, hdetail, hold, hnew⟩ := h.1.head
      have hroots : (normalizeEvent b.head).roots = some (old, new) := by
        rw [Relayer.Event.roots, hdetail]
      rw [keptEvents_cons, List.filterMap_append, Block.events]
      cases hkeep : keep b.head with
      | false =>
          rw [List.filter_cons_of_neg (by simp [hkeep]), hreleases, List.nil_append,
            List.filter_cons_of_neg (by simp [hkeep])]
          exact ih h.2
      | true =>
          rw [List.filter_cons_of_pos hkeep, List.map_cons, List.filterMap_cons_some hroots, hreleases,
            List.filter_cons_of_pos (by simp [hkeep])]
          exact .cons ⟨hold, hnew⟩ (ih h.2)

/-- **What a grouping of kept reports parses to**: batches with the roots of the kept batch events. -/
theorem parse_keptEvents (h : ∀ b ∈ blocks, b.Shows) {found : List BatchJson}
    (hfound : groupFrom (keptEvents keep blocks) = .ok found) :
    ∃ settled, found.mapM parseBatch = .ok settled ∧
      List.Forall₂ (fun batch b => b.step.SameRoots (SettledBatch.transition batch)) settled
        (blocks.filter fun b => keep b.head) := by
  obtain ⟨hroots, htexts⟩ := Relayer.groupFrom_eq_ok hfound
  have hparse : ∀ json ∈ found, ∃ keys, json.nullifiers.mapM parseBytes32 = .ok keys := by
    intro json hjson
    refine exists_mapM_eq_ok fun text htext => ?_
    obtain ⟨x, hx, hdetail⟩ := htexts json hjson text htext
    obtain ⟨raw, hraw, rfl⟩ := List.mem_map.1 hx
    obtain ⟨b, hb, hmem⟩ := List.mem_flatMap.1 (List.mem_filter.1 hraw).1
    exact (h b hb).parse_released (List.mem_map_of_mem hmem) hdetail
  have hheads := @roots_keptEvents _ keep h
  rw [← hroots, List.forall₂_map_left_iff] at hheads
  simp only [mapM_eq_ok]
  clear hroots htexts hfound
  generalize blocks.filter (fun b => keep b.head) = heads at hheads
  induction hheads with
  | nil => exact ⟨[], .nil, .nil⟩
  | @cons json b found heads hroots _ ih =>
      rw [List.forall_mem_cons] at hparse
      obtain ⟨keys, hkeys⟩ := hparse.1
      obtain ⟨settled, hsettled, hsame⟩ := ih hparse.2
      refine ⟨⟨keys, b.step.spentRootOld, b.step.spentRootNew, json.txid.filter fun t => t ≠ ""⟩ ::
        settled, .cons ?_ hsettled, .cons ⟨rfl, rfl⟩ hsame⟩
      simp only [parseBatch, hkeys, hroots.1, hroots.2]
      rfl

/-- **With every batch event kept, no release before the last batch can be missing.** -/
theorem releases_kept {front : List Block} {last : Block} (h : ∀ b ∈ front ++ [last], b.Shows)
    (hheads : ∀ b ∈ front ++ [last], keep b.head = true) {found : List BatchJson}
    (hfound : groupFrom (keptEvents keep (front ++ [last])) = .ok found) :
    ∀ b ∈ front, ∀ raw ∈ b.releases, keep raw = true := by
  induction front generalizing found with
  | nil => exact fun b hb => absurd hb List.not_mem_nil
  | cons b front ih =>
      rw [List.cons_append, List.forall_mem_cons] at h hheads
      obtain ⟨old, new, hdetail, -⟩ := h.1.head
      -- the next block starts with a batch event
      obtain ⟨next, tail, size, nextOld, nextNew, hnext, hnextDetail⟩ : ∃ next tail size nextOld nextNew,
          keptEvents keep (front ++ [last]) = next :: tail ∧
            next.detail = .batchFulfilled nextOld nextNew size := by
        obtain ⟨b', more, hmore⟩ := List.exists_cons_of_ne_nil (l := front ++ [last]) (by simp)
        have hb' : b' ∈ front ++ [last] := by
          rw [hmore]
          exact List.mem_cons_self
        obtain ⟨old', new', hdetail', -⟩ := (h.2 b' hb').head
        rw [hmore, keptEvents_cons, Block.events, List.filter_cons_of_pos (hheads.2 b' hb'),
          List.map_cons, List.cons_append]
        exact ⟨_, _, _, old', new', rfl, hdetail'⟩
      have hreleased : ∀ y ∈ (b.releases.filter keep).map normalizeEvent,
          ∃ text, y.detail = .released text := by
        intro y hy
        obtain ⟨raw, hraw, rfl⟩ := List.mem_map.1 hy
        obtain ⟨text, -, hdetail, -⟩ := h.1.released raw (List.mem_filter.1 hraw).1
        exact ⟨text, hdetail⟩
      rw [List.cons_append, keptEvents_cons, Block.events, List.filter_cons_of_pos hheads.1,
        List.map_cons, List.cons_append] at hfound
      obtain ⟨claimed, more, hclaim, hsize, hmore, -⟩ :=
        (Relayer.groupFrom_batch hdetail).1 hfound
      rw [Relayer.groupFrom_releases hreleased] at hmore
      rw [List.forall_mem_cons]
      refine ⟨?_, ih h.2 hheads.2 hmore⟩
      -- the claim takes no more than the releases that were kept, and needs all that the batch
      -- announces
      rw [hnext] at hclaim
      have hle := Relayer.claimReleased_le hnextDetail hreleased hclaim
      have hlength : b.step.nullifiers.length = claimed.length := by
        simpa using hsize
      have hall : b.releases.length = b.step.nullifiers.length := h.1.releases.length_eq
      have hfilter := List.length_filter_le keep b.releases
      rw [List.length_nil, List.length_map] at hle
      exact List.length_filter_eq_length_iff.1 (by omega)

theorem exists_mem_of_forall₂ {α β : Type} {R : α → β → Prop} {xs : List α} {ys : List β}
    (h : List.Forall₂ R xs ys) {x : α} (hx : x ∈ xs) : ∃ y ∈ ys, R x y := by
  induction h with
  | nil => exact absurd hx List.not_mem_nil
  | cons hxy _ ih =>
      rcases List.mem_cons.1 hx with rfl | hx
      · exact ⟨_, List.mem_cons_self, hxy⟩
      · obtain ⟨y, hy, hxy⟩ := ih hx
        exact ⟨y, List.mem_cons_of_mem _ hy, hxy⟩

/-- Where a list is split at its last element of a kind, it is split in one place only. -/
theorem split_last_unique {α : Type} {p : α → Prop} {l l' m m' : List α} {a b : α}
    (h : l ++ a :: l' = m ++ b :: m') (ha : p a) (hb : p b) (hl : ∀ x ∈ l', ¬ p x)
    (hm : ∀ x ∈ m', ¬ p x) : l = m ∧ a :: l' = b :: m' := by
  rcases List.append_eq_append_iff.1 h with ⟨mid, rfl, hmid⟩ | ⟨mid, rfl, hmid⟩
  · cases mid with
    | nil => exact ⟨(List.append_nil _).symm, hmid⟩
    | cons c mid =>
        obtain ⟨-, rfl⟩ := List.cons.inj hmid
        exact absurd hb (hl b (List.mem_append_right _ List.mem_cons_self))
  · cases mid with
    | nil => exact ⟨List.append_nil _, hmid.symm⟩
    | cons c mid =>
        obtain ⟨-, rfl⟩ := List.cons.inj hmid
        exact absurd ha (hm a (List.mem_append_right _ List.mem_cons_self))

theorem detail_batchFulfilled {raw : RawEvent} {old new : String} {size : Option Int}
    (h : (normalizeEvent raw).detail = .batchFulfilled old new size) :
    raw.eventName = "BatchFulfilled" := by
  by_contra hne
  rw [normalizeEvent, if_neg hne] at h
  split at h <;> cases h

theorem detail_released {raw : RawEvent} {text : String}
    (h : (normalizeEvent raw).detail = .released text) : raw.eventName ≠ "BatchFulfilled" := by
  intro hname
  rw [normalizeEvent, if_pos hname] at h
  cases h

/-- The last batch event of the report is the head of the last block. -/
theorem blocks_split (h : ∀ b ∈ blocks, b.Shows) {front back : List RawEvent} {head : RawEvent}
    (hevents : (front ++ head :: back).filter settles = blocks.flatMap Block.events)
    (hhead : head.eventName = "BatchFulfilled")
    (hback : ∀ raw ∈ back, raw.eventName ≠ "BatchFulfilled") :
    ∃ frontBlocks last, blocks = frontBlocks ++ [last] ∧
      front.filter settles = frontBlocks.flatMap Block.events ∧
      (head :: back).filter settles = last.events := by
  have hsettles : settles head = true := settles_iff.2 (.inl hhead)
  rcases List.eq_nil_or_concat' blocks with rfl | ⟨frontBlocks, last, rfl⟩
  · have hmem : head ∈ (front ++ head :: back).filter settles :=
      List.mem_filter.2 ⟨List.mem_append_right _ List.mem_cons_self, hsettles⟩
    rw [hevents] at hmem
    exact absurd hmem List.not_mem_nil
  · have hlast := h last (List.mem_append_right _ List.mem_cons_self)
    obtain ⟨old, new, hdetail, -⟩ := hlast.head
    rw [List.filter_append, List.filter_cons_of_pos hsettles, List.flatMap_append,
      List.flatMap_singleton, Block.events] at hevents
    obtain ⟨hfront, hrest⟩ := split_last_unique (p := fun raw => raw.eventName = "BatchFulfilled")
      hevents hhead (detail_batchFulfilled hdetail)
      (fun raw hraw => hback raw (List.mem_filter.1 hraw).1)
      (fun raw hraw => by
        obtain ⟨text, key, hdetail, -⟩ := hlast.released raw hraw
        exact detail_released hdetail)
    refine ⟨frontBlocks, last, rfl, hfront, ?_⟩
    rw [List.filter_cons_of_pos hsettles, hrest, Block.events]

/-- **If the batches of a grouping rebuild, no batch event is missing.** -/
theorem heads_kept {sha256 : Bytes → Bytes32} {chain : List Transition}
    (hchain : Settlement.SingleChain sha256 chain)
    (hroots : (Accumulator.EMPTY_TREE_ROOT :: chain.map Transition.spentRootNew).Nodup)
    {front : List Block} {last : Block} (hsteps : (front ++ [last]).map Block.step = chain)
    {settled : List SettledBatch} {acc : Settlement.RebuiltAccumulator}
    (hsame : List.Forall₂ (fun batch b => b.step.SameRoots (SettledBatch.transition batch)) settled
      ((front ++ [last]).filter fun b => keep b.head))
    (hrebuild : rebuild sha256 settled = .ok acc) (hlast : keep last.head = true) :
    ∀ b ∈ front ++ [last], keep b.head = true := by
  have hfound : ∀ batch ∈ settled, ∃ b ∈ front ++ [last], keep b.head = true ∧
      b.step.SameRoots batch.transition := by
    intro batch hbatch
    obtain ⟨b, hb, hsame⟩ := exists_mem_of_forall₂ hsame hbatch
    rw [List.mem_filter] at hb
    exact ⟨b, hb.1, hb.2, hsame⟩
  have hall := Settlement.gapless_of_rebuild hchain hroots hrebuild
    (by
      intro batch hbatch
      obtain ⟨b, hb, -, hsame⟩ := hfound batch hbatch
      exact ⟨b.step, hsteps ▸ List.mem_map_of_mem hb, hsame⟩)
    (by
      intro before t hbefore
      rw [← hsteps, List.map_append, List.map_singleton] at hbefore
      obtain rfl : last.step = t := (List.cons.inj (List.append_inj' hbefore rfl).2).1
      exact exists_mem_of_forall₂ hsame.flip
        (List.mem_filter.2 ⟨List.mem_append_right _ List.mem_cons_self, hlast⟩))
  intro b hb
  obtain ⟨batch, hbatch, hsameb⟩ := hall b.step (hsteps ▸ List.mem_map_of_mem hb)
  obtain ⟨b', hb', hkeep, hsame'⟩ := hfound batch hbatch
  rw [← hsteps, List.map_map, List.nodup_cons] at hroots
  obtain rfl : b' = b :=
    List.inj_on_of_nodup_map hroots.2 hb' hb (hsame'.2.trans hsameb.2.symm)
  exact hkeep

end Missing

/-! ## The main result -/

section Report

variable {sdk : Sdk} {d : Deployment σ} {w₀ : World σ} {proven : Set GuestInput}
  {transactions : List (Transaction σ)} {reported : List (List (Event × RawEvent))}

/-- What is handed over of a report is sorted and grouped as the report is. -/
theorem ReportedLog.groupBatches_eq (h : ReportedLog d w₀ transactions reported)
    {keep : RawEvent → Bool} {handed : List RawEvent}
    (hhanded : handed.Perm ((reported.flatten.map Prod.snd).filter keep)) {blocks : List Block}
    (hblocks : (reported.flatten.map Prod.snd).filter settles = blocks.flatMap Block.events) :
    groupBatches (handed.map normalizeEvent) = groupFrom (keptEvents keep blocks) := by
  have hsorted : (((reported.flatten.map Prod.snd).filter keep).map normalizeEvent).Pairwise
      Relayer.Event.before :=
    h.ordered.sublist (List.filter_sublist.map normalizeEvent)
  rw [groupBatches, Relayer.mergeSort_eq (hhanded.map normalizeEvent) hsorted,
    ← Relayer.groupFrom_filter, List.filter_map]
  change groupFrom ((((reported.flatten.map Prod.snd).filter keep).filter settles).map
    normalizeEvent) = _
  rw [List.filter_comm, hblocks]
  rfl

/-- **A report that lacks settlement events before the last batch is refused**, by the grouping or by
the rebuild. -/
theorem ReportedLog.refused (h : ReportedLog d w₀ transactions reported)
    (hchained : Chained sdk proven d w₀ transactions)
    (hroots : (Accumulator.EMPTY_TREE_ROOT ::
      (batches d w₀ transactions).map Transition.spentRootNew).Nodup)
    {keep : RawEvent → Bool} {front back : List RawEvent} {head : RawEvent}
    (hsplit : reported.flatten.map Prod.snd = front ++ head :: back)
    (hhead : head.eventName = "BatchFulfilled")
    (hback : ∀ raw ∈ back, raw.eventName ≠ "BatchFulfilled")
    (hkept : ∀ raw ∈ head :: back, settles raw = true → keep raw = true)
    (hmissing : ∃ raw ∈ front, settles raw = true ∧ keep raw = false) {handed : List RawEvent}
    (hhanded : handed.Perm ((reported.flatten.map Prod.snd).filter keep)) :
    (∃ e, groupBatches (handed.map normalizeEvent) = .error e) ∨
      ∃ found settled e, groupBatches (handed.map normalizeEvent) = .ok found ∧
        found.mapM parseBatch = .ok settled ∧ rebuild sdk.sha256 settled = .error e := by
  obtain ⟨blocks, hsteps, hevents, hshows⟩ := h.blocks
  rw [h.groupBatches_eq hhanded hevents]
  cases hgroup : groupFrom (keptEvents keep blocks) with
  | error e => exact .inl ⟨e, rfl⟩
  | ok found =>
      refine .inr ?_
      obtain ⟨settled, hparse, hsame⟩ := parse_keptEvents hshows hgroup
      cases hrebuild : rebuild sdk.sha256 settled with
      | error e => exact ⟨found, settled, e, rfl, hparse, hrebuild⟩
      -- suppose it were rebuilt: the last batch is there, so no batch event is missing
      | ok acc =>
          exfalso
          obtain ⟨raw, hraw, hsettles, hlost⟩ := hmissing
          obtain ⟨frontBlocks, last, rfl, hfront, hlast⟩ :=
            blocks_split hshows (by rw [← hevents, hsplit]) hhead hback
          have hlastHead : keep last.head = true := by
            have hmem : last.head ∈ (head :: back).filter settles := by
              rw [hlast]
              exact List.mem_cons_self
            exact hkept last.head (List.mem_filter.1 hmem).1 (List.mem_filter.1 hmem).2
          have hheads := heads_kept hchained.chain hroots hsteps hsame hrebuild hlastHead
          have hmem : raw ∈ frontBlocks.flatMap Block.events := by
            rw [← hfront]
            exact List.mem_filter.2 ⟨hraw, hsettles⟩
          obtain ⟨b, hb, hevent⟩ := List.mem_flatMap.1 hmem
          -- and no release is, for each batch claims as many as it announces
          have hkeep : keep raw = true := by
            rcases List.mem_cons.1 hevent with rfl | hrelease
            · exact hheads b (List.mem_append_left _ hb)
            · exact releases_kept hshows hheads hgroup b hb raw hrelease
          rw [hkeep] at hlost
          cases hlost

end Report

/-! ## Every run has a report -/

/-- A field of the event as the chain API prints it. -/
def printField (event : Event) (name : String) : Option JsValue :=
  match event with
  | .batchFulfilled spentRootOld spentRootNew batchSize _ =>
      if name = "spentRootOld" then some (.text (hexEncode spentRootOld.toList))
      else if name = "spentRootNew" then some (.text (hexEncode spentRootNew.toList))
      else if name = "batchSize" then some (.number batchSize.toNat)
      else none
  | .released nullifier _ _ _ _ _ =>
      if name = "nullifier" then some (.text (hexEncode nullifier.toList)) else none
  | _ => none

/-- The event's report at a position. -/
def printEvent (blockNumber eventIndex : Nat) (event : Event) : RawEvent where
  eventName := event.eventName
  result := printField event
  blockNumber := (some blockNumber, none)
  eventIndex := (some eventIndex, none)
  transactionId := (some (toString blockNumber), none)

/-- The reports of a transaction, from an index on. -/
def printGroup (blockNumber : Nat) : Nat → List Event → List (Event × RawEvent)
  | _, [] => []
  | eventIndex, event :: rest =>
      (event, printEvent blockNumber eventIndex event) ::
        printGroup blockNumber (eventIndex + 1) rest

/-- The reports of a run, one block for each transaction. -/
def printLog : Nat → List (List Event) → List (List (Event × RawEvent))
  | _, [] => []
  | blockNumber, group :: rest => printGroup blockNumber 0 group :: printLog (blockNumber + 1) rest

namespace Sample

open UnicityBridge.Guest.Sample (sdk input leaf Turn)

/-- What the transactions before the batches emit. -/
def lockEmissions : List (List Event) := emissions (bridgeVault false) world locking

/-- The report of the run. -/
def report : List RawEvent :=
  (printLog 0 (emissions (bridgeVault false) world transactions)).flatten.map Prod.snd

/-- The batch event of a turn. -/
def batchEvent (turn : Turn) : Event :=
  .batchFulfilled (input turn).publicValues.spentRootOld (input turn).publicValues.spentRootNew
    (publicValuesOfCore (input turn).publicValues).batchSize
    (publicValuesOfCore (input turn).publicValues).totalAmount

/-- The report of everything before the second batch. -/
def front : List RawEvent :=
  (printLog 0 lockEmissions).flatten.map Prod.snd ++ [printEvent 3 0 (batchEvent .first),
    printEvent 3 1 (released 0 (ofCore (leaf .whole))),
    printEvent 3 2 (released 0 (ofCore (leaf .left)))]

/-- All events but one: the last release of the first batch, in the fourth block. -/
def keep (raw : RawEvent) : Bool :=
  !(raw.blockNumber == (some 3, none) && raw.eventIndex == (some 2, none))

end Sample

end UnicityBridge.Vault
