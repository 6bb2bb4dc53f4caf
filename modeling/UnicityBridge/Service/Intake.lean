import UnicityBridge.Service.LedgerSteps

/-!
# Intake

`create_return` of `api.rs`: a posted wire input is prechecked and becomes a burn with one leaf and its
record. The fee policy and the expected configuration only refuse more; they are left out.

The ledger of the service is built by events whose burns come from intake (`Ledger.Built`). Ids are
SHA-256 digests: an event that would reuse one is left out.
-/

set_option autoImplicit false

namespace UnicityBridge.Service

open UnicityBridge.Lib
open UnicityBridge.Core (ReturnLeaf)
open UnicityBridge.Guest (GuestInput)

/-- The id of a return. -/
def returnId (sha256 : Bytes → Bytes32) (publicValuesDigest nullifier : Bytes32) : String :=
  hex32 (sha256 (Core.utf8 "bridge-return-service:return-id:v1" ++ publicValuesDigest.toList ++
    nullifier.toList))

variable (sdk : TokenSdk.Sdk) (codec : Wire.Codec)

/-- What a posted wire input becomes, unless it is refused. -/
def createReturn (wireInput : Bytes) (nowMs : Nat) : Option (Burn × ReturnRecord) :=
  match Precheck.precheckWire sdk codec wireInput, Wire.decodeGuestInput sdk codec wireInput with
  | some (.ok report), .ok input =>
      match input.returnLeaves with
      | [leaf] =>
          let id := returnId sdk.sha256 report.publicValuesDigest leaf.nullifier
          some (Burn.fromInput id input leaf wireInput, ReturnRecord.queued id leaf.nullifier nowMs)
      | _ => none
  | _, _ => none

/-- The burn's input decodes, has one leaf and is accepted by the guest, and the burn repeats what the
input says. -/
structure Prechecked (burn : Burn) (input : GuestInput) (leaf : ReturnLeaf) : Prop where
  decodes : Wire.decodeGuestInput sdk codec burn.wireInput = .ok input
  leaves : input.returnLeaves = [leaf]
  accepted : Guest.execute sdk input = .ok input.publicValues
  summary : burn = Burn.fromInput burn.id input leaf burn.wireInput

variable {sdk codec}

theorem Prechecked.nullifier {burn : Burn} {input : GuestInput} {leaf : ReturnLeaf}
    (h : Prechecked sdk codec burn input leaf) : burn.nullifier = hex32 leaf.nullifier := by
  rw [h.summary]
  rfl

/-- **What intake takes has passed the precheck alone.** -/
theorem prechecked_of_createReturn {wireInput : Bytes} {nowMs : Nat} {burn : Burn}
    {record : ReturnRecord} (h : createReturn sdk codec wireInput nowMs = some (burn, record)) :
    (∃ input leaf, Prechecked sdk codec burn input leaf) ∧
      ∃ leaf : ReturnLeaf, burn.nullifier = hex32 leaf.nullifier ∧
        record = ReturnRecord.queued burn.id leaf.nullifier nowMs := by
  unfold createReturn at h
  split at h
  · next report input hprecheck hdecode =>
    split at h
    · next leaf hleaf =>
      obtain ⟨rfl, rfl⟩ := Prod.mk.inj (Option.some.inj h)
      have hrun : Precheck.precheck sdk codec input = some (.ok report) := by
        rw [Precheck.precheckWire, hdecode] at hprecheck
        exact hprecheck
      exact ⟨⟨input, leaf, hdecode, hleaf, (Precheck.execute_of_precheck hrun).1, rfl⟩,
        leaf, rfl, rfl⟩
    · cases h
  · cases h

variable (sdk codec)

/-- An event that the service can write: accepted burns come from intake under new ids, and a formed
batch has a new id. Snapshots are only written over a ledger of the service, which they repeat. -/
def Event.Admissible (ledger : Ledger) : Event → Prop
  | .snapshot _ => False
  | .accepted burn record =>
      (∃ wireInput nowMs, createReturn sdk codec wireInput nowMs = some (burn, record)) ∧
        ledger.returns.get burn.id = none
  | .batchFormed members atMs =>
      ledger.batches.get (ledger.nextBatch sdk.sha256 members atMs).id = none
  | _ => True

theorem Event.Admissible.ne_snapshot {ledger : Ledger} {e : Event} (h : e.Admissible sdk codec ledger)
    (l : Ledger) : e ≠ .snapshot l := by
  rintro rfl
  exact h

/-- Entries are kept under their ids, every burn has passed its precheck, and each nullifier leads to
its return. -/
structure Ledger.Indexed (ledger : Ledger) : Prop where
  id_eq : ∀ id r, ledger.returns.get id = some r → r.burn.id = id
  prechecked : ∀ id r, ledger.returns.get id = some r →
    ∃ input leaf, Prechecked sdk codec r.burn input leaf
  nullifier_eq : ∀ id r, ledger.returns.get id = some r → r.record.nullifier = r.burn.nullifier
  byNullifier : ∀ id r, ledger.returns.get id = some r →
    ledger.byNullifier.get r.burn.nullifier = some id
  owner : ∀ nullifier id, ledger.byNullifier.get nullifier = some id →
    ∃ r, ledger.returns.get id = some r ∧ r.burn.nullifier = nullifier
  batch_id : ∀ id batch, ledger.batches.get id = some batch → batch.id = id

theorem Ledger.indexed_empty : Ledger.Indexed sdk codec Ledger.empty where
  id_eq := fun _ _ h => by cases h
  prechecked := fun _ _ h => by cases h
  nullifier_eq := fun _ _ h => by cases h
  byNullifier := fun _ _ h => by cases h
  owner := fun _ _ h => by cases h
  batch_id := fun _ _ h => by cases h

variable {sdk codec} {retry : RetryPolicy} {ledger : Ledger}

/-- A nullifier belongs to one return. -/
theorem Ledger.Indexed.id_of_nullifier (h : ledger.Indexed sdk codec) {id id' : String}
    {r r' : Return} (hr : ledger.returns.get id = some r) (hr' : ledger.returns.get id' = some r')
    (hnullifier : r.burn.nullifier = r'.burn.nullifier) : id = id' := by
  have hid := h.byNullifier id r hr
  rw [hnullifier, h.byNullifier id' r' hr'] at hid
  exact (Option.some.inj hid).symm

/-- The nullifier's index after an acceptance under a nullifier that is not known. -/
theorem Ledger.byNullifier_accept {burn : Burn} {record : ReturnRecord} {nullifier id : String}
    (hknown : ledger.byNullifier.get nullifier = some id) :
    (ledger.accept burn record).byNullifier.get nullifier = some id := by
  simp only [accept]
  split
  · exact hknown
  · next hcontains =>
    by_cases hsame : nullifier = toLowercase record.nullifier
    · rw [hsame] at hknown
      simp [Dict.contains, hknown] at hcontains
    · exact (Dict.get_insert_of_ne _ _ hsame).trans hknown

/-- An event keeps the burn of every return. -/
theorem Ledger.burn_apply {e : Event} (he : e.Admissible sdk codec ledger) {id : String} {r : Return}
    (hr : ledger.returns.get id = some r) :
    ∃ r', (ledger.apply sdk.sha256 retry e).returns.get id = some r' ∧ r'.burn = r.burn := by
  by_cases haccepted : ∃ burn record, e = .accepted burn record
  · obtain ⟨burn, record, rfl⟩ := haccepted
    rw [Ledger.apply, get_accept, if_neg]
    · exact ⟨r, hr, rfl⟩
    · rintro ⟨-, rfl⟩
      rw [he.2] at hr
      cases hr
  · rw [get_apply e he.ne_snapshot fun burn record heq => haccepted ⟨burn, record, heq⟩, hr]
    exact ⟨_, rfl, rfl⟩

/-- **Every event keeps the index.** -/
theorem Ledger.Indexed.apply (h : ledger.Indexed sdk codec) {e : Event}
    (he : e.Admissible sdk codec ledger) :
    (ledger.apply sdk.sha256 retry e).Indexed sdk codec := by
  have hsnapshot := he.ne_snapshot
  constructor
  · intro id r' hr'
    rcases returns_cases hsnapshot hr' with ⟨r, hr, rfl⟩ | ⟨burn, record, -, rfl, -, rfl⟩
    · exact h.id_eq id r hr
    · rfl
  · intro id r' hr'
    rcases returns_cases hsnapshot hr' with ⟨r, hr, rfl⟩ | ⟨burn, record, rfl, rfl, -, rfl⟩
    · exact h.prechecked id r hr
    · obtain ⟨wireInput, nowMs, hcreate⟩ := he.1
      exact (prechecked_of_createReturn hcreate).1
  · intro id r' hr'
    rcases returns_cases hsnapshot hr' with ⟨r, hr, rfl⟩ | ⟨burn, record, rfl, rfl, -, rfl⟩
    · exact (Event.recordAfter_nullifier _ _ _ _ _ _).trans (h.nullifier_eq id r hr)
    · obtain ⟨wireInput, nowMs, hcreate⟩ := he.1
      obtain ⟨-, leaf, hnullifier, rfl⟩ := prechecked_of_createReturn hcreate
      exact hnullifier.symm
  · intro id r' hr'
    rcases returns_cases hsnapshot hr' with ⟨r, hr, rfl⟩ | ⟨burn, record, rfl, rfl, hnew, rfl⟩
    · have hknown := h.byNullifier id r hr
      by_cases haccepted : ∃ burn record, e = .accepted burn record
      · obtain ⟨burn, record, rfl⟩ := haccepted
        exact byNullifier_accept hknown
      · rw [byNullifier_apply e hsnapshot fun burn record heq => haccepted ⟨burn, record, heq⟩]
        exact hknown
    -- the index of a new return: its record names the burn's nullifier, in lower case already
    · obtain ⟨wireInput, nowMs, hcreate⟩ := he.1
      obtain ⟨⟨input, leaf, hburn⟩, leaf', hnullifier, rfl⟩ := prechecked_of_createReturn hcreate
      have hlower : toLowercase (ReturnRecord.queued burn.id leaf'.nullifier nowMs).nullifier =
          burn.nullifier := by
        rw [hnullifier]
        exact toLowercase_hex32 _
      rw [hlower] at hnew
      simp only [Ledger.apply, accept, hlower, hnew, Bool.false_eq_true, if_false]
      exact Dict.get_insert_self _ _ _
  · intro nullifier id hid
    -- a nullifier that was taken stays with its return
    have hold : ledger.byNullifier.get nullifier = some id →
        ∃ r, (ledger.apply sdk.sha256 retry e).returns.get id = some r ∧
          r.burn.nullifier = nullifier := by
      intro hknown
      obtain ⟨r, hr, hnullifier⟩ := h.owner nullifier id hknown
      obtain ⟨r', hr', hburn⟩ := @burn_apply _ _ retry _ _ he _ _ hr
      exact ⟨r', hr', hburn ▸ hnullifier⟩
    by_cases haccepted : ∃ burn record, e = .accepted burn record
    · obtain ⟨burn, record, rfl⟩ := haccepted
      by_cases hknown : ledger.byNullifier.get nullifier = some id
      · exact hold hknown
      · -- the new burn's own nullifier
        obtain ⟨⟨wireInput, nowMs, hcreate⟩, -⟩ := he
        obtain ⟨-, leaf, hnullifier, rfl⟩ := prechecked_of_createReturn hcreate
        have hlower : toLowercase (ReturnRecord.queued burn.id leaf.nullifier nowMs).nullifier =
            burn.nullifier := by
          rw [hnullifier]
          exact toLowercase_hex32 _
        simp only [Ledger.apply, accept, hlower] at hid ⊢
        split at hid
        · exact absurd hid hknown
        · rename_i hnew
          rw [if_neg hnew]
          by_cases hsame : nullifier = burn.nullifier
          · subst hsame
            rw [Dict.get_insert_self, Option.some.injEq] at hid
            subst hid
            exact ⟨_, Dict.get_insert_self _ _ _, rfl⟩
          · rw [Dict.get_insert_of_ne _ _ hsame] at hid
            exact absurd hid hknown
    · rw [byNullifier_apply e hsnapshot fun burn record heq => haccepted ⟨burn, record, heq⟩] at hid
      exact hold hid
  -- a batch keeps its id, or is the one that was formed under it
  · intro id batch' hbatch'
    rcases batches_cases hsnapshot hbatch' with ⟨batch, hbatch, rfl⟩ | ⟨members, atMs, rfl, -, hid⟩
    · rw [Event.batchAfter_id]
      exact h.batch_id id batch hbatch
    · exact hid.symm

/-! ## Ledgers of the service -/

variable (sdk codec retry)

/-- A ledger that the service's events build. -/
inductive Ledger.Built : Ledger → Prop where
  | empty : Built Ledger.empty
  | apply {ledger : Ledger} {e : Event} (built : Built ledger)
      (admissible : e.Admissible sdk codec ledger) : Built (ledger.apply sdk.sha256 retry e)

variable {sdk codec retry}

theorem Ledger.Built.indexed (h : Ledger.Built sdk codec retry ledger) :
    ledger.Indexed sdk codec := by
  induction h with
  | empty => exact Ledger.indexed_empty sdk codec
  | apply _ he ih => exact ih.apply he

end UnicityBridge.Service
