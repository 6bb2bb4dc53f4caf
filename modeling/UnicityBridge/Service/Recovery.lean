import UnicityBridge.Service.JournalReplay

/-!
# What a restart charges

A restart records an interruption for every batch that is proving. `Charged base now` says that `now`
comes from `base` by such interruptions: a member of an interrupted batch was charged one attempt, and
nothing else changed. A restart that is cut off and made again stays within it.
-/

set_option autoImplicit false

namespace UnicityBridge.Service

open UnicityBridge.Lib

section Restarts

variable {json : Json} {sha256 : Bytes → Bytes32} {retry : RetryPolicy}

namespace Ledger

/-- Every batch is kept under its id. -/
def Keyed (ledger : Ledger) : Prop :=
  ∀ id batch, ledger.batches.get id = some batch → batch.id = id

theorem Keyed.apply {ledger : Ledger} (h : ledger.Keyed) {e : Event} (he : e.isSnapshot = false) :
    (ledger.apply sha256 retry e).Keyed := by
  intro id batch' hbatch'
  have hsnapshot : ∀ l, e ≠ .snapshot l := by
    rintro l rfl
    cases he
  rcases batches_cases hsnapshot hbatch' with ⟨batch, hbatch, rfl⟩ | ⟨members, atMs, rfl, -, hid⟩
  · rw [Event.batchAfter_id]
    exact h id batch hbatch
  · exact hid.symm

theorem keyed_empty : Ledger.empty.Keyed := fun _ _ h => by cases h

/-- The batch is proving. -/
def Proving (ledger : Ledger) (id : String) : Prop :=
  ∃ batch, ledger.batches.get id = some batch ∧ batch.status = .proving

/-- A crash now would cost the return an attempt. -/
def Interruptible (ledger : Ledger) (r : Return) : Prop :=
  ∃ id, ledger.Proving id ∧ ledger.isMember id r = true ∧ r.record.status = .proving

/-- Interruptions of these batches, each of which is proving, and no other is. -/
def Covers (ledger : Ledger) (recovery : List Event) : Prop :=
  ∃ (ids : List String) (atMs : Nat), ids.Nodup ∧
    recovery = ids.map (fun id => Event.batchInterrupted id atMs false) ∧
    ∀ id, id ∈ ids ↔ ledger.Proving id

/-- **The recovery of a ledger covers its proving batches.** -/
theorem Keyed.covers_recover {ledger : Ledger} (h : ledger.Keyed) (atMs : Nat) :
    ledger.Covers (ledger.recover atMs) := by
  have hkeys : ledger.batches.values.map Batch.id = ledger.batches.keys := by
    rw [Dict.values, Dict.keys, List.map_map]
    refine List.map_congr_left fun entry hentry => ?_
    exact h entry.1 entry.2 (Dict.get_eq_some.2 hentry)
  refine ⟨(byFormation (ledger.batches.values.filter fun batch => batch.status = .proving)).map
    Batch.id, atMs, ?_, ?_, ?_⟩
  · have hperm := (List.mergeSort_perm (ledger.batches.values.filter fun batch =>
      batch.status = .proving) fun a b => a.formedAtMs ≤ b.formedAtMs).map Batch.id
    refine hperm.nodup_iff.2 (List.Nodup.sublist (List.filter_sublist.map _) ?_)
    exact hkeys ▸ ledger.batches.unique
  · rw [recover, interruptions, List.map_map]
    rfl
  · intro id
    rw [List.mem_map]
    constructor
    · rintro ⟨batch, hbatch, rfl⟩
      rw [byFormation, List.mem_mergeSort, List.mem_filter, Dict.mem_values, decide_eq_true_iff] at hbatch
      obtain ⟨⟨key, hkey⟩, hstatus⟩ := hbatch
      exact ⟨batch, h key batch hkey ▸ hkey, hstatus⟩
    · rintro ⟨batch, hbatch, hstatus⟩
      refine ⟨batch, ?_, h id batch hbatch⟩
      rw [byFormation, List.mem_mergeSort, List.mem_filter, Dict.mem_values, decide_eq_true_iff]
      exact ⟨⟨id, hbatch⟩, hstatus⟩

section Interrupted

variable {ledger : Ledger} {b : String} {atMs : Nat}

theorem batches_interrupted (id : String) :
    (ledger.apply sha256 retry (.batchInterrupted b atMs false)).batches.get id =
      (ledger.batches.get id).map fun batch =>
        if id = b then { batch with status := .interrupted } else batch :=
  batches_apply _ (fun _ h => by cases h) (fun _ _ h => by cases h) id

/-- An interruption ends its batch, and leaves the others. -/
theorem proving_interrupted (id : String) :
    (ledger.apply sha256 retry (.batchInterrupted b atMs false)).Proving id ↔
      id ≠ b ∧ ledger.Proving id := by
  simp only [Proving, batches_interrupted, Option.map_eq_some_iff]
  by_cases hid : id = b
  · simp [hid]
  · simp [hid]

theorem Covers.tail {recovery : List Event} {e : Event} (h : ledger.Covers (e :: recovery)) :
    (∃ id t, e = .batchInterrupted id t false ∧ ledger.Proving id) ∧
      (ledger.apply sha256 retry e).Covers recovery := by
  obtain ⟨ids, t, hnodup, hrecovery, hids⟩ := h
  cases ids with
  | nil => cases hrecovery
  | cons id rest =>
      obtain ⟨rfl, rfl⟩ := List.cons.inj hrecovery
      obtain ⟨hnew, hrest⟩ := List.nodup_cons.1 hnodup
      refine ⟨⟨id, t, rfl, (hids id).1 List.mem_cons_self⟩, rest, t, hrest, rfl, fun other => ?_⟩
      rw [proving_interrupted, ← hids other, List.mem_cons]
      constructor
      · intro hother
        exact ⟨fun heq => hnew (heq ▸ hother), .inr hother⟩
      · rintro ⟨hne, heq | hother⟩
        · exact absurd heq hne
        · exact hother

end Interrupted

/-- `now` is `base` with some of its proving batches interrupted. -/
structure Charged (base now : Ledger) : Prop where
  proving : ∀ id batch, now.batches.get id = some batch → batch.status = .proving →
    base.batches.get id = some batch
  members : ∀ id, (now.batches.get id).map Batch.members = (base.batches.get id).map Batch.members
  returns : ∀ id r, base.returns.get id = some r → ∃ r', now.returns.get id = some r' ∧
    ((r' = r ∧ ∀ b, base.Proving b → base.isMember b r = true → r.record.status = .proving →
        now.Proving b) ∨
      (base.Interruptible r ∧ r'.record.attempts = r.record.attempts + 1 ∧
        (r'.record.status = .queued ∨ r'.record.status = .failed)))

theorem Charged.refl (ledger : Ledger) : Charged ledger ledger where
  proving := fun _ _ h _ => h
  members := fun _ => rfl
  returns := fun _ r hr => ⟨r, hr, .inl ⟨rfl, fun _ hproving _ _ => hproving⟩⟩

/-- Membership only reads the members of the batch and the record. -/
theorem Charged.isMember_eq {base now : Ledger} (h : Charged base now) (b : String) (r : Return) :
    now.isMember b r = base.isMember b r := by
  have hmembers := h.members b
  simp only [isMember]
  cases hnow : now.batches.get b with
  | none =>
      rw [hnow] at hmembers
      rw [Option.map_eq_none_iff.1 hmembers.symm]
  | some batch =>
      rw [hnow] at hmembers
      obtain ⟨batch', hbase, hsame⟩ := Option.map_eq_some_iff.1 hmembers.symm
      rw [hbase]
      simp [hsame]

theorem attempts_interrupt (record : ReturnRecord) (t : Nat) (h : record.status = .proving) :
    (record.interrupt t false retry).attempts = record.attempts + 1 := by
  rw [ReturnRecord.interrupt, if_neg (not_not.2 h)]
  simp only [Bool.false_eq_true, if_false, ReturnRecord.scheduleAfterInterruption]
  split <;> simp

/-- **One interruption charges the members of its batch once.** -/
theorem Charged.interrupt {base now : Ledger} (h : Charged base now) {b : String} {t : Nat}
    (hb : now.Proving b) :
    Charged base (now.apply sha256 retry (.batchInterrupted b t false)) where
  proving := by
    intro id batch hget hstatus
    rw [batches_interrupted] at hget
    obtain ⟨old, hold, rfl⟩ := Option.map_eq_some_iff.1 hget
    split at hstatus
    · cases hstatus
    · next hid =>
      rw [if_neg hid]
      exact h.proving id old hold hstatus
  members := by
    intro id
    rw [← h.members id, batches_interrupted, Option.map_map]
    congr 1
    funext batch
    simp only [Function.comp_apply]
    split <;> rfl
  returns := by
    intro id r hr
    obtain ⟨r', hr', hcase⟩ := h.returns id r hr
    have hnext : (now.apply sha256 retry (.batchInterrupted b t false)).returns.get id =
        some { r' with record := if now.isMember b r' then r'.record.interrupt t false retry
          else r'.record } := by
      rw [get_apply _ (fun _ h => by cases h) (fun _ _ h => by cases h), hr']
      rfl
    refine ⟨_, hnext, ?_⟩
    -- a return that was not charged yet, or one that was charged in an earlier round
    rcases hcase with ⟨rfl, hstill⟩ | ⟨hinterruptible, hattempts, hstatus⟩
    · by_cases hcharged : now.isMember b r' = true ∧ r'.record.status = .proving
      · -- the return loses its attempt here
        obtain ⟨hmember, hproving⟩ := hcharged
        obtain ⟨batch, hbatch, hbatchStatus⟩ := hb
        refine .inr ⟨⟨b, ⟨batch, h.proving b batch hbatch hbatchStatus, hbatchStatus⟩,
          h.isMember_eq b r' ▸ hmember, hproving⟩, ?_, ?_⟩
        · rw [if_pos hmember]
          exact attempts_interrupt r'.record t hproving
        · rw [if_pos hmember]
          exact r'.record.interrupt_status t retry false hproving
      · refine .inl ⟨?_, ?_⟩
        · by_cases hmember : now.isMember b r' = true
          · have hne : r'.record.status ≠ .proving := fun hproving => hcharged ⟨hmember, hproving⟩
            rw [if_pos hmember, ReturnRecord.interrupt, if_pos hne]
          · rw [if_neg hmember]
        · intro b' hb' hmember hproving
          rw [proving_interrupted]
          refine ⟨?_, hstill b' hb' hmember hproving⟩
          rintro rfl
          exact hcharged ⟨(h.isMember_eq b' r').trans hmember, hproving⟩
    · -- it was charged before, and is in no batch
      have hnone : now.isMember b r' = false := by
        rcases hstatus with hstatus | hstatus <;> simp [isMember, Return.inBatch, hstatus]
      refine .inr ⟨hinterruptible, ?_, ?_⟩
      · rw [if_neg (by simp [hnone])]
        exact hattempts
      · rw [if_neg (by simp [hnone])]
        exact hstatus

/-- When no batch is proving any more, every member was charged once. -/
theorem Charged.done {base now : Ledger} (h : Charged base now) (hdone : now.Covers []) {id : String}
    {r : Return} (hr : base.returns.get id = some r) :
    ∃ r', now.returns.get id = some r' ∧
      (base.Interruptible r → r'.record.attempts = r.record.attempts + 1) ∧
      (¬ base.Interruptible r → r' = r) := by
  obtain ⟨r', hr', hcase⟩ := h.returns id r hr
  refine ⟨r', hr', ?_, ?_⟩
  · rintro ⟨b, hb, hmember, hproving⟩
    rcases hcase with ⟨-, hstill⟩ | ⟨-, hattempts, -⟩
    · obtain ⟨ids, _, -, hnil, hids⟩ := hdone
      obtain rfl := List.map_eq_nil_iff.1 hnil.symm
      cases (hids b).2 (hstill b hb hmember hproving)
    · exact hattempts
  · intro hnot
    rcases hcase with ⟨hsame, -⟩ | ⟨hinterruptible, -⟩
    · exact hsame
    · exact absurd hinterruptible hnot

end Ledger

/-! ## Runs -/

/-- The ledgers of a run keep their batches under their ids, and only compaction writes a snapshot. -/
structure State.Regular (sha256 : Bytes → Bytes32) (retry : RetryPolicy) (s : State) : Prop where
  keyed : (replay sha256 retry s.log).Keyed
  inFlight : ∀ e ∈ s.inFlight, e.isSnapshot = false
  recovery : ∀ ledger rest, s.phase = .opening ledger rest → ∀ e ∈ rest, e.isSnapshot = false

theorem regular_fresh : State.Regular sha256 retry State.fresh where
  keyed := Ledger.keyed_empty
  inFlight := fun _ h => by cases h
  recovery := fun _ _ h => by cases h

theorem isSnapshot_recover (ledger : Ledger) (atMs : Nat) :
    ∀ e ∈ ledger.recover atMs, e.isSnapshot = false := by
  intro e he
  obtain ⟨batch, -, rfl⟩ := List.mem_map.1 he
  rfl

theorem State.Regular.keyed_of_expects {s : State} (h : s.Regular sha256 retry) {events : List Event}
    (hevents : s.Expects events) : (replay sha256 retry events).Keyed := by
  rcases hevents with rfl | ⟨e, hflight, rfl⟩
  · exact h.keyed
  · rw [replay_append]
    exact h.keyed.apply (h.inFlight e hflight)

theorem State.Regular.step {s s' : State} {a : Action} (h : s.Regular sha256 retry)
    (hsound : s.Sound json sha256 retry) (hstep : step json sha256 retry s a = some s') :
    s'.Regular sha256 retry := by
  cases a with
  | start nowMs =>
      simp only [Service.step] at hstep
      split at hstep
      · next hdown =>
        -- replaying what is read gives the ledger of the log, and recovery only interrupts
        obtain ⟨events, hread, hevents⟩ := hsound.read hdown
        rw [hread] at hstep
        obtain rfl := Option.some.inj hstep
        refine ⟨h.keyed_of_expects hevents, fun _ hflight => (by cases hflight), ?_⟩
        intro ledger rest hphase
        obtain ⟨-, rfl⟩ := Phase.opening.inj hphase
        exact isSnapshot_recover _ _
      · cases hstep
  | recover e =>
      simp only [Service.step] at hstep
      split at hstep
      · next ledger next rest hphase =>
        split at hstep
        · next hsame =>
          obtain rfl := Option.some.inj hstep
          -- recovery events are no snapshots, so they keep the keys
          have hall := h.recovery ledger (next :: rest) hphase
          refine ⟨?_, fun _ hflight => (by cases hflight), ?_⟩
          · show (replay sha256 retry (s.log ++ [e])).Keyed
            rw [replay_append]
            exact h.keyed.apply (hall e (hsame ▸ List.mem_cons_self))
          · intro l more hopening
            obtain ⟨-, rfl⟩ := Phase.opening.inj hopening
            exact fun e' he' => hall e' (List.mem_cons_of_mem next he')
        · cases hstep
      · cases hstep
  | compact l =>
      simp only [Service.step] at hstep
      split at hstep
      · next ledger hphase =>
        split at hstep
        · obtain rfl := Option.some.inj hstep
          refine ⟨?_, fun _ hflight => (by cases hflight),
            fun _ _ hopening => by cases hopening⟩
          -- the compacted log replays to the ledger it was taken from
          show ledger.Keyed
          rw [hsound.opening ledger [] hphase]
          exact h.keyed
        · cases hstep
      · cases hstep
  | commit e =>
      simp only [Service.step] at hstep
      split at hstep
      · split at hstep
        · cases hstep
        · next hevent =>
          obtain rfl := Option.some.inj hstep
          refine ⟨?_, fun _ hflight => (by cases hflight),
            fun _ _ hopening => by cases hopening⟩
          show (replay sha256 retry (s.log ++ [e])).Keyed
          rw [replay_append]
          exact h.keyed.apply (by simpa using hevent)
      · cases hstep
  | cut e written =>
      have hcut (hevent : e.isSnapshot = false) : (s.cut json e written).Regular sha256 retry := by
        refine ⟨h.keyed, fun e' hflight => ?_, fun _ _ hopening => by cases hopening⟩
        obtain rfl : e = e' := by simpa [State.cut] using hflight
        exact hevent
      simp only [Service.step] at hstep
      split at hstep
      · next ledger next rest hphase =>
        split at hstep
        · next hsame =>
          obtain rfl := Option.some.inj hstep
          exact hcut (h.recovery ledger (next :: rest) hphase e (hsame ▸ List.mem_cons_self))
        · cases hstep
      · split at hstep
        · cases hstep
        · next hevent =>
          obtain rfl := Option.some.inj hstep
          exact hcut (by simpa using hevent)
      · cases hstep
  | crash =>
      simp only [Service.step] at hstep
      split at hstep
      · cases hstep
      · obtain rfl := Option.some.inj hstep
        exact ⟨h.keyed, h.inFlight, fun _ _ hopening => by cases hopening⟩

/-- What a restart is made of, before its compaction. -/
def Action.isRestart : Action → Bool
  | .start _ | .recover _ | .cut _ _ | .crash => true
  | .compact _ | .commit _ => false

/-- Where a restart of a service that held `base` can be. -/
def State.Restarting (json : Json) (sha256 : Bytes → Bytes32) (retry : RetryPolicy) (base : Ledger)
    (s : State) : Prop :=
  match s.phase with
  | .down => ∃ events, readEvents json s.bytes = .ok events ∧
      base.Charged (replay sha256 retry events)
  | .opening ledger recovery => base.Charged ledger ∧ ledger.Covers recovery
  | .running _ => False

/-- A crash while nothing is appended: the next start finds the ledger as it was. -/
theorem State.Sound.crash_read {s : State} (h : s.Sound json sha256 retry) (hup : s.phase ≠ .down)
    (hbehind : s.behind = false) : readEvents json s.bytes = .ok s.log :=
  read_of_holds (h.holds_log hup hbehind) fun e he => h.writes e (List.mem_append_left _ he)

/-- **A restart stays within the charges**, whatever its next step is. -/
theorem State.Restarting.step {base : Ledger} {s s' : State} {a : Action}
    (h : s.Restarting json sha256 retry base) (hsound : s.Sound json sha256 retry)
    (hregular : s.Regular sha256 retry) (hsound' : s'.Sound json sha256 retry)
    (hrestart : a.isRestart = true) (hclean : a.Clean json s)
    (hstep : Service.step json sha256 retry s a = some s') :
    s'.Restarting json sha256 retry base := by
  cases a with
  | start nowMs =>
      simp only [Service.step] at hstep
      split at hstep
      · next hdown =>
        obtain ⟨events, hread, hevents⟩ := hsound.read hdown
        simp only [State.Restarting, hdown] at h
        obtain ⟨events', hread', hcharged⟩ := h
        obtain rfl : events = events' := Except.ok.inj (hread.symm.trans hread')
        rw [hread] at hstep
        obtain rfl := Option.some.inj hstep
        exact ⟨hcharged, (hregular.keyed_of_expects hevents).covers_recover nowMs⟩
      · cases hstep
  | recover e =>
      simp only [Service.step] at hstep
      split at hstep
      · next ledger next rest hphase =>
        split at hstep
        · next hsame =>
          obtain rfl := Option.some.inj hstep
          simp only [State.Restarting, hphase] at h
          obtain ⟨hcharged, hcovers⟩ := h
          -- the event written is the first one owed: it interrupts a batch that still proves
          obtain ⟨⟨id, t, hevent, hproving⟩, hrest⟩ := @Ledger.Covers.tail sha256 retry _ _ _ hcovers
          subst hsame
          refine ⟨?_, hrest⟩
          rw [hevent]
          exact hcharged.interrupt hproving
        · cases hstep
      · cases hstep
  | compact l => cases hrestart
  | commit e => cases hrestart
  | cut e written =>
      simp only [Service.step] at hstep
      split at hstep
      · next ledger next rest hphase =>
        split at hstep
        · next hsame =>
          obtain rfl := Option.some.inj hstep
          simp only [State.Restarting, hphase] at h
          obtain ⟨hcharged, hcovers⟩ := h
          obtain ⟨⟨id, t, hevent, hproving⟩, -⟩ := @Ledger.Covers.tail sha256 retry _ _ _ hcovers
          have hledger := hsound.opening ledger (next :: rest) hphase
          obtain ⟨events, hread, hevents⟩ := hsound'.read rfl
          refine ⟨events, hread, ?_⟩
          -- a reader finds the event or does not; the charge is the one owed in both cases
          rcases hevents with rfl | ⟨e', hflight, rfl⟩
          · exact hledger ▸ hcharged
          · obtain rfl : e = e' := by simpa [State.cut] using hflight
            show base.Charged (replay sha256 retry (s.log ++ [e]))
            rw [replay_append, ← hledger, hsame, hevent]
            exact hcharged.interrupt hproving
        · cases hstep
      · next ledger hphase =>
        simp only [State.Restarting, hphase] at h
      · cases hstep
  | crash =>
      simp only [Service.step] at hstep
      split at hstep
      · cases hstep
      · next hup =>
        obtain rfl := Option.some.inj hstep
        refine ⟨s.log, hsound.crash_read hup hclean, ?_⟩
        cases hphase : s.phase with
        | down => exact absurd hphase hup
        | opening ledger recovery =>
            simp only [State.Restarting, hphase] at h
            exact hsound.opening ledger recovery hphase ▸ h.1
        | running ledger => simp only [State.Restarting, hphase] at h

theorem runActions_append {s : State} {first second : List Action} {s'' : State}
    (h : runActions json sha256 retry s (first ++ second) = some s'') :
    ∃ s', runActions json sha256 retry s first = some s' ∧
      runActions json sha256 retry s' second = some s'' := by
  rw [runActions, List.foldlM_append] at h
  exact Option.bind_eq_some_iff.1 h

theorem runActions_cons {s s'' : State} {a : Action} {rest : List Action}
    (h : runActions json sha256 retry s (a :: rest) = some s'') :
    ∃ s', step json sha256 retry s a = some s' ∧
      runActions json sha256 retry s' rest = some s'' := by
  rw [runActions, List.foldlM_cons] at h
  exact Option.bind_eq_some_iff.1 h

theorem CleanRun.append {s s' : State} {first second : List Action}
    (h : CleanRun json sha256 retry s (first ++ second))
    (hrun : runActions json sha256 retry s first = some s') :
    CleanRun json sha256 retry s first ∧ CleanRun json sha256 retry s' second := by
  induction first generalizing s with
  | nil =>
      obtain rfl := Option.some.inj hrun
      exact ⟨trivial, h⟩
  | cons a rest ih =>
      obtain ⟨middle, hstep, hrest⟩ := runActions_cons hrun
      obtain ⟨hfirst, hlater⟩ := h
      refine ⟨⟨hfirst, fun s₁ hs₁ => ?_⟩, (ih (hlater middle hstep) hrest).2⟩
      obtain rfl := Option.some.inj (hstep.symm.trans hs₁)
      exact (ih (hlater middle hstep) hrest).1

/-- Sound states with regular ledgers, along a clean run. -/
theorem State.Regular.run {s s' : State} {actions : List Action} (h : s.Regular sha256 retry)
    (hsound : s.Sound json sha256 retry) (hwrites : ∀ a ∈ actions, ∀ e ∈ a.event, json.Writes e)
    (hclean : CleanRun json sha256 retry s actions)
    (hrun : runActions json sha256 retry s actions = some s') : s'.Regular sha256 retry := by
  induction actions generalizing s with
  | nil =>
      obtain rfl := Option.some.inj hrun
      exact h
  | cons a rest ih =>
      obtain ⟨middle, hstep, hrest⟩ := runActions_cons hrun
      obtain ⟨hfirst, hlater⟩ := hclean
      exact ih (h.step hsound hstep) (hsound.step (hwrites a List.mem_cons_self) hfirst hstep)
        (fun a' ha' => hwrites a' (List.mem_cons_of_mem a ha')) (hlater middle hstep) hrest

/-- The restart as a whole, by induction over its steps. -/
theorem State.Restarting.run {base : Ledger} {s s' : State} {body : List Action}
    (h : s.Restarting json sha256 retry base) (hsound : s.Sound json sha256 retry)
    (hregular : s.Regular sha256 retry) (hrestart : ∀ a ∈ body, a.isRestart = true)
    (hwrites : ∀ a ∈ body, ∀ e ∈ a.event, json.Writes e)
    (hclean : CleanRun json sha256 retry s body)
    (hrun : runActions json sha256 retry s body = some s') :
    s'.Restarting json sha256 retry base := by
  induction body generalizing s with
  | nil =>
      obtain rfl := Option.some.inj hrun
      exact h
  | cons a rest ih =>
      obtain ⟨middle, hstep, hrest⟩ := runActions_cons hrun
      obtain ⟨hfirst, hlater⟩ := hclean
      have hmiddle := hsound.step (hwrites a List.mem_cons_self) hfirst hstep
      exact ih (h.step hsound hregular hmiddle (hrestart a List.mem_cons_self) hfirst hstep) hmiddle
        (hregular.step hsound hstep) (fun a' ha' => hrestart a' (List.mem_cons_of_mem a ha'))
        (fun a' ha' => hwrites a' (List.mem_cons_of_mem a ha')) (hlater middle hstep) hrest

/-- A crash, while an event is appended or not. -/
def Action.isCrash : Action → Bool
  | .cut _ _ | .crash => true
  | _ => false

theorem run_step {s s' : State} {a : Action} (hstep : step json sha256 retry s a = some s')
    (rest : List Action) :
    runActions json sha256 retry s (a :: rest) = runActions json sha256 retry s' rest := by
  rw [runActions, List.foldlM_cons, hstep]
  rfl

theorem CleanRun.cons {s s' : State} {a : Action} {rest : List Action}
    (hstep : step json sha256 retry s a = some s') (ha : a.Clean json s)
    (hrest : CleanRun json sha256 retry s' rest) : CleanRun json sha256 retry s (a :: rest) := by
  refine ⟨ha, fun s₁ hs₁ => ?_⟩
  obtain rfl := Option.some.inj (hstep.symm.trans hs₁)
  exact hrest

theorem step_start {s : State} {events : List Event} (hdown : s.phase = .down)
    (hread : readEvents json s.bytes = .ok events) (nowMs : Nat) :
    step json sha256 retry s (.start nowMs) = some ⟨some s.bytes,
      .opening (replay sha256 retry events) ((replay sha256 retry events).recover nowMs), events, none,
      s.behind⟩ := by
  simp only [step, if_pos hdown, hread]

theorem step_crash {s : State} (hup : s.phase ≠ .down) :
    step json sha256 retry s .crash = some { s with phase := .down } := by
  simp only [step, if_neg hup]

/-- A process over a file with the lines of these events. -/
def State.written (json : Json) (events : List Event) (phase : Phase) : State :=
  ⟨some (eventLines json events), phase, events, none, false⟩

section Opening

variable {s : State} {ledger : Ledger} {next : Event} {rest : List Event}

theorem step_recover (h : s.phase = .opening ledger (next :: rest)) :
    step json sha256 retry s (.recover next) =
      some (s.append json next (.opening (ledger.apply sha256 retry next) rest)) := by
  simp only [step, h, if_true]

theorem step_cut_recover (h : s.phase = .opening ledger (next :: rest)) (written : Nat) :
    step json sha256 retry s (.cut next written) = some (s.cut json next written) := by
  simp only [step, h, if_true]

theorem step_compact (h : s.phase = .opening ledger []) :
    step json sha256 retry s (.compact ledger) =
      some (.written json [.snapshot ledger] (.running ledger)) := by
  simp only [step, h, if_true, State.written, eventLines, List.flatMap_singleton]

end Opening

theorem State.written_append (events : List Event) (e : Event) (phase phase' : Phase) :
    (State.written json events phase).append json e phase' =
      State.written json (events ++ [e]) phase' := by
  have hends : (!endsLine (eventLines json events)) = false := by
    rw [endsLine_eventLines]
    rfl
  show State.mk (some (eventLines json events ++ line json e)) phase' (events ++ [e]) none
      (!endsLine (eventLines json events)) =
    State.mk (some (eventLines json (events ++ [e]))) phase' (events ++ [e]) none false
  rw [hends, eventLines_append]

/-- A first start finds nothing to read and nothing to recover. -/
theorem step_first : step json sha256 retry State.fresh (.start 0) =
    some ⟨some [], .opening Ledger.empty [], [], none, false⟩ := by
  have hrecover : Ledger.empty.recover 0 = [] := by
    simp [Ledger.recover, Ledger.interruptions, Ledger.byFormation, Ledger.empty, Dict.empty,
      Dict.values]
  have hread : readEvents json State.fresh.bytes = .ok [] := rfl
  rw [step_start rfl hread, replay, List.foldl_nil, hrecover]
  rfl

/-- The ledger that a restart works on: the one the service held, or that with the event in flight. -/
theorem State.Sound.crashed {s s' : State} {ledger : Ledger} {a : Action}
    (h : s.Sound json sha256 retry) (hsound' : s'.Sound json sha256 retry)
    (hphase : s.phase = .running ledger) (hcrash : a.isCrash = true)
    (hstep : Service.step json sha256 retry s a = some s') :
    ∃ base, (base = ledger ∨ ∃ e written, a = .cut e written ∧ base = ledger.apply sha256 retry e) ∧
      s'.Restarting json sha256 retry base := by
  obtain ⟨hledger, hbehind, -⟩ := h.running ledger hphase
  cases a with
  | start | recover | compact | commit => cases hcrash
  | cut e written =>
      simp only [Service.step, hphase] at hstep
      split at hstep
      · cases hstep
      · obtain rfl := Option.some.inj hstep
        obtain ⟨events, hread, hevents⟩ := hsound'.read rfl
        refine ⟨replay sha256 retry events, ?_, events, hread, Ledger.Charged.refl _⟩
        rcases hevents with rfl | ⟨e', hflight, rfl⟩
        · exact .inl hledger.symm
        · obtain rfl : e = e' := by simpa [State.cut] using hflight
          refine .inr ⟨e, written, rfl, ?_⟩
          rw [replay_append, hledger]
          rfl
  | crash =>
      have hup : s.phase ≠ .down := by simp [hphase]
      simp only [Service.step, if_neg hup] at hstep
      obtain rfl := Option.some.inj hstep
      exact ⟨ledger, .inl rfl, s.log, h.crash_read hup hbehind, hledger ▸ Ledger.Charged.refl _⟩

/-- **The journal survives clean crashes.** In a run that only crashes cleanly, every start reads the
log, at most with the event in flight added. And after a crash of the running service, however often
its restart is interrupted, every return that a proving batch held was charged one attempt when the
service runs again, and no other return changed. -/
theorem crash_consistent {actions : List Action} {s : State}
    (hrun : runActions json sha256 retry State.fresh actions = some s)
    (hwrites : ∀ a ∈ actions, ∀ e ∈ a.event, json.Writes e)
    (hclean : CleanRun json sha256 retry State.fresh actions) :
    (s.phase = .down → ∃ events, readEvents json s.bytes = .ok events ∧ s.Expects events) ∧
      ∀ before first body s₀ ledger later,
        actions = before ++ (first :: (body ++ [.compact later])) →
        runActions json sha256 retry State.fresh before = some s₀ →
        s₀.phase = .running ledger → first.isCrash = true → (∀ a ∈ body, a.isRestart = true) →
        s.phase = .running later ∧
          ∃ base, (base = ledger ∨
              ∃ e written, first = .cut e written ∧ base = ledger.apply sha256 retry e) ∧
            ∀ id r, base.returns.get id = some r → ∃ r', later.returns.get id = some r' ∧
              (base.Interruptible r → r'.record.attempts = r.record.attempts + 1) ∧
              (¬ base.Interruptible r → r' = r) := by
  constructor
  -- what is read after a crash is the log, with or without the event in flight
  · intro hdown
    exact (sound_fresh.run hwrites hclean hrun).read hdown
  · rintro before first body s₀ ledger later rfl hbefore hphase hcrash hrestart
    -- the run up to the crash, the crash, the restarts, and the last compaction
    obtain ⟨s₀', hbefore', hafter⟩ := runActions_append hrun
    obtain rfl := Option.some.inj (hbefore.symm.trans hbefore')
    obtain ⟨hcleanBefore, hcleanAfter⟩ := hclean.append hbefore
    have hwritesBefore : ∀ a ∈ before, ∀ e ∈ a.event, json.Writes e := fun a ha =>
      hwrites a (List.mem_append_left _ ha)
    have hwritesAfter : ∀ a ∈ first :: (body ++ [.compact later]), ∀ e ∈ a.event, json.Writes e :=
      fun a ha => hwrites a (List.mem_append_right _ ha)
    have hsound := sound_fresh.run hwritesBefore hcleanBefore hbefore
    have hregular := regular_fresh.run sound_fresh hwritesBefore hcleanBefore hbefore
    obtain ⟨s₁, hfirst, hrest⟩ := runActions_cons hafter
    obtain ⟨hcleanFirst, hcleanRest⟩ := hcleanAfter
    have hsound₁ := hsound.step (hwritesAfter first List.mem_cons_self) hcleanFirst hfirst
    obtain ⟨base, hbase, hrestarting⟩ := hsound.crashed hsound₁ hphase hcrash hfirst
    -- the crash leaves the ledger that was running, or that ledger with the event in flight
    obtain ⟨s₂, hbody, hlast⟩ := runActions_append hrest
    obtain ⟨hcleanBody, -⟩ := (hcleanRest s₁ hfirst).append hbody
    have hwritesBody : ∀ a ∈ body, ∀ e ∈ a.event, json.Writes e := fun a ha =>
      hwritesAfter a (List.mem_cons_of_mem _ (List.mem_append_left _ ha))
    -- the restarts charge what still proved, whichever of them were cut off
    have hend := hrestarting.run hsound₁ (hregular.step hsound hfirst) hrestart hwritesBody
      hcleanBody hbody
    obtain ⟨s₃, hcompact, hnil⟩ := runActions_cons hlast
    obtain rfl := Option.some.inj hnil
    simp only [step] at hcompact
    split at hcompact
    · next ledger' hopening =>
      split at hcompact
      · next hsame =>
        obtain rfl := hsame
        obtain rfl := Option.some.inj hcompact
        simp only [State.Restarting, hopening] at hend
        exact ⟨rfl, base, hbase, fun id r hr => hend.1.done hend.2 hr⟩
      · cases hcompact
    · cases hcompact

end Restarts

/-! ## A journal -/

namespace JournalSample

open UnicityBridge.Wire (textBytes fromUtf8)

/-! The texts of the events below as `serde_json` writes them, with the fields that are modelled. No text
in them has a character that is escaped. -/

/-- A text in quotes. -/
def quoted (text : String) : String := "\"" ++ text ++ "\""

/-- An object of these fields. -/
def object (fields : List (String × String)) : String :=
  "\x7b" ++ String.intercalate "," (fields.map fun field => quoted field.1 ++ ":" ++ field.2) ++ "\x7d"

/-- An array of these items. -/
def array (items : List String) : String := "[" ++ String.intercalate "," items ++ "]"

/-- An optional item. -/
def nullable (value : Option String) : String := value.getD "null"

/-- The statuses that the sample records have. -/
def statusText : ReturnStatus → String
  | .queued => "queued"
  | .proving => "proving"
  | _ => "failed"

/-- The text of a leaf. -/
def leafText (leaf : LeafHex) : String :=
  object [("nullifier", quoted leaf.nullifier), ("recipient", quoted leaf.recipient),
    ("amount", quoted leaf.amount), ("feeRecipient", quoted leaf.feeRecipient),
    ("feeAmount", quoted leaf.feeAmount), ("deadline", quoted leaf.deadline)]

/-- The text of a burn. -/
def burnText (burn : Burn) : String :=
  object [("id", quoted burn.id), ("trustBaseHash", quoted burn.trustBaseHash),
    ("lockNonces", array (burn.lockNonces.map fun nonce => toString nonce.toNat)),
    ("leaf", leafText burn.leaf), ("wireInput", quoted (hexText burn.wireInput))]

/-- The text of a failure of the sample. -/
def failureText (failure : ReturnFailure) : String :=
  object [("kind", quoted "proving_failed"), ("message", quoted failure.message),
    ("recoverable", toString failure.recoverable)]

/-- The text of an entry of an audit trail. -/
def eventText (event : ReturnEvent) : String :=
  object [("atMs", toString event.atMs), ("status", quoted (statusText event.status)),
    ("code", quoted event.code), ("message", quoted event.message)]

/-- The text of a record. -/
def recordText (record : ReturnRecord) : String :=
  object [("returnId", quoted record.returnId), ("nullifier", quoted record.nullifier),
    ("status", quoted (statusText record.status)), ("terminal", toString record.terminal),
    ("success", nullable (record.success.map toString)), ("progress", toString record.progress),
    ("message", quoted record.message), ("nextPollMs", toString record.nextPollMs),
    ("batchId", nullable (record.batchId.map quoted)),
    ("settleTxid", nullable (record.settleTxid.map quoted)),
    ("failure", nullable (record.failure.map failureText)),
    ("events", array (record.events.map eventText)), ("attempts", toString record.attempts),
    ("notBeforeMs", nullable (record.notBeforeMs.map toString)),
    ("createdAtMs", toString record.createdAtMs), ("updatedAtMs", toString record.updatedAtMs)]

/-- The text of a return. -/
def returnText (r : Return) : String :=
  object [("seq", toString r.seq), ("burn", burnText r.burn), ("record", recordText r.record)]

/-- A batch of the sample, which has no bundle. -/
def batchText (batch : Batch) : String :=
  object [("id", quoted batch.id), ("members", array (batch.members.map quoted)),
    ("status", quoted (if batch.status = .proving then "proving" else "interrupted")),
    ("rebases", toString batch.rebases), ("bundle", "null"), ("spentRootOld", "null"),
    ("formedAtMs", toString batch.formedAtMs),
    ("provenAtMs", nullable (batch.provenAtMs.map toString))]

/-- The text of a ledger. -/
def ledgerText (ledger : Ledger) : String :=
  object [("returns", object (ledger.returns.entries.map fun entry => (entry.1, returnText entry.2))),
    ("byNullifier", object (ledger.byNullifier.entries.map fun entry => (entry.1, quoted entry.2))),
    ("batches", object (ledger.batches.entries.map fun entry => (entry.1, batchText entry.2))),
    ("accepted", toString ledger.accepted), ("formed", toString ledger.formed)]

/-- A hash that is not looked at: the sample forms one batch. -/
def sha256 : Bytes → Bytes32 := fun _ => ByteArr.zero 32

/-- One attempt: the first failure parks a return. -/
def retry : RetryPolicy := ⟨1, 1, 1⟩

/-- The nullifier of the sample's burn. -/
def nullifier : Bytes32 := List.Vector.replicate 32 1

/-- The one burn of the sample. -/
def burn : Burn where
  id := "a"
  trustBaseHash := "0x03"
  lockNonces := [7]
  leaf := ⟨hex32 nullifier, "0x04", "0x05", "0x00", "0x00", "0x00"⟩
  wireInput := [0x80]

/-- The burn is accepted. -/
def accepted : Event := .accepted burn (.queued "a" nullifier 1)

/-- Its batch is formed. -/
def formed : Event := .batchFormed ["a"] 2

/-- Its message is not ASCII. -/
def failed : Event := .batchFailed "a" .chainRejected "é" 2

/-- The burn is in a batch that is being proven. -/
def proving : Ledger :=
  (Ledger.empty.apply sha256 retry accepted).apply sha256 retry formed

/-- What a restart records about the batch. -/
def interrupted : Event := .batchInterrupted (hex32 (ByteArr.zero 32)) 5 false

/-- The ledger of a service that was started again. -/
def charged : Ledger := proving.apply sha256 retry interrupted

/-- The events of the sample with their texts. -/
def entries : Dict Event String where
  entries := [(.snapshot Ledger.empty, object [("snapshot", ledgerText Ledger.empty)]),
    (accepted, object [("accepted",
      object [("burn", burnText burn), ("record", recordText (.queued "a" nullifier 1))])]),
    (formed, object [("batch_formed", object [("members", array [quoted "a"]), ("at_ms", "2")])]),
    (failed, object [("batch_failed", object [("id", quoted "a"), ("kind", quoted "chain_rejected"),
      ("message", quoted "é"), ("at_ms", "2")])]),
    (interrupted, object [("batch_interrupted",
      object [("id", quoted (hex32 (ByteArr.zero 32))), ("at_ms", "5"), ("orderly", "false")])]),
    (.snapshot charged, object [("snapshot", ledgerText charged)])]
  unique := by decide +kernel

/-- The texts of these events. -/
def json : Json where
  toVec e := textBytes ((entries.get e).getD "null")
  fromStr t := (entries.entries.find? fun entry => entry.2 = t).map Prod.fst

theorem texts_object : ∀ entry ∈ entries.entries, (textBytes entry.2).head? = some 123 ∧
    (textBytes entry.2).all (fun b => 32 ≤ b) = true := by
  decide +kernel

/-- No text starts another. -/
theorem texts_apart : entries.entries.Pairwise fun entry other =>
    ¬ textBytes entry.2 <+: textBytes other.2 ∧ ¬ textBytes other.2 <+: textBytes entry.2 := by
  decide +kernel

theorem prefix_free {entry other : Event × String} (hentry : entry ∈ entries.entries)
    (hother : other ∈ entries.entries) (h : textBytes entry.2 <+: textBytes other.2) : entry = other := by
  by_contra hne
  have hsymm : Std.Symm fun a b : Event × String =>
      ¬ textBytes a.2 <+: textBytes b.2 ∧ ¬ textBytes b.2 <+: textBytes a.2 := ⟨fun _ _ h => ⟨h.2, h.1⟩⟩
  exact (texts_apart.forall hentry hother hne).1 h

section Writes

variable {e : Event} {t : String} (h : (e, t) ∈ entries.entries)
include h

theorem toVec_eq : json.toVec e = textBytes t := by
  have hget : entries.get e = some t := Dict.get_eq_some.2 h
  show textBytes ((entries.get e).getD "null") = _
  rw [hget]
  rfl

theorem fromStr_eq : json.fromStr t = some e := by
  have hsome : (entries.entries.find? fun entry => entry.2 = t).isSome = true :=
    List.find?_isSome.2 ⟨(e, t), h, decide_eq_true rfl⟩
  obtain ⟨⟨e', t'⟩, hfind⟩ := Option.isSome_iff_exists.1 hsome
  have hfound := List.find?_some hfind
  have ht : t' = t := of_decide_eq_true hfound
  obtain ⟨rfl, rfl⟩ := Prod.mk.inj (prefix_free (List.mem_of_find?_eq_some hfind) h (ht ▸ List.prefix_rfl))
  exact congrArg (Option.map Prod.fst) hfind

/-- The events are written and read back. -/
theorem writes : json.Writes e where
  plain := by
    intro b hb
    obtain ⟨-, hplain⟩ := texts_object _ h
    rw [toVec_eq h] at hb
    simpa using List.all_eq_true.1 hplain b hb
  object := by
    rw [toVec_eq h]
    exact (texts_object _ h).1
  read := ⟨t, toVec_eq h ▸ Wire.fromUtf8_textBytes _, fromStr_eq h⟩
  partial_none := by
    intro front text hmarked hne hfront
    rw [toVec_eq h] at hmarked hne
    rw [← Wire.textBytes_of_fromUtf8 hfront] at hmarked hne
    refine Option.map_eq_none_iff.2 (List.find?_eq_none.2 fun other hother htext => ?_)
    obtain rfl := of_decide_eq_true htext
    have hsame := prefix_free hother h hmarked
    rw [hsame] at hne
    exact hne rfl

end Writes

/-- The lines that the service has written when it crashes. -/
def lines : List Event := [.snapshot Ledger.empty, accepted, formed]

/-- The service runs, and its batch is being proven. -/
def serving : State := .written json lines (.running proving)

/-- A crash has left this part of an event behind the lines. -/
def crashed (tail : Bytes) (e : Event) : State :=
  ⟨some (eventLines json lines ++ tail), .down, lines, some e, false⟩

/-- A restart over the lines, before it has recorded the interruption. -/
def reopened (tail : Bytes) : State :=
  ⟨some (eventLines json lines ++ tail), .opening proving [interrupted], lines, none, false⟩

/-- The restart has recorded the interruption. -/
def recovered (tail : Bytes) : State :=
  (reopened tail).append json interrupted (.opening charged [])

/-- What is left of the failure, and of the first record of the interruption. -/
def torn : Bytes := (line json failed).take 60

/-- What an interrupted restart leaves behind the torn failure. -/
def tornAgain : Bytes := torn ++ (line json interrupted).take 30

theorem mem_entries (n : Fin 6) : entries.entries[n] ∈ entries.entries := List.getElem_mem _

theorem writes_lines : ∀ e ∈ lines, json.Writes e := by
  intro e he
  simp only [lines, List.mem_cons, List.not_mem_nil, or_false] at he
  rcases he with rfl | rfl | rfl
  · exact writes (mem_entries 0)
  · exact writes (mem_entries 1)
  · exact writes (mem_entries 2)

theorem writes_failed : json.Writes failed := writes (mem_entries 3)

theorem writes_interrupted : json.Writes interrupted := writes (mem_entries 4)

/-- Both are torn, and a whole record behind the first is no event. -/
theorem torn_parts : ∀ part ∈ [torn, tornAgain, torn ++ json.toVec interrupted],
    part ≠ [] ∧ part.all (fun b => 32 ≤ b) = true ∧ part.head? = some 123 ∧
      ∃ text, fromUtf8 part = some text ∧ json.fromStr text = none := by
  have hparts : ∀ part ∈ [torn, tornAgain, torn ++ json.toVec interrupted],
      part ≠ [] ∧ part.all (fun b => 32 ≤ b) = true ∧ part.head? = some 123 ∧
        ((fromUtf8 part).any fun text => (json.fromStr text).isNone) = true := by
    decide +kernel
  intro part hpart
  obtain ⟨hne, hplain, hbrace, hnone⟩ := hparts part hpart
  obtain ⟨text, htext, hevent⟩ := Option.any_eq_true _ _ |>.1 hnone
  exact ⟨hne, hplain, hbrace, text, htext, Option.isNone_iff_eq_none.1 hevent⟩

theorem torn_of_mem {part : Bytes}
    (h : part ∈ [torn, tornAgain, torn ++ json.toVec interrupted]) : Torn json part := by
  obtain ⟨-, hplain, hbrace, hnone⟩ := torn_parts part h
  refine .inr ⟨fun b hb => ?_, hbrace, hnone⟩
  simpa using List.all_eq_true.1 hplain b hb

theorem recover_proving : proving.recover 5 = [interrupted] := by
  have hvalues : (proving.batches.values.filter fun batch => batch.status = .proving) =
      [Batch.formed sha256 1 ["a"] 2] := by decide +kernel
  rw [Ledger.recover, Ledger.interruptions, hvalues, Ledger.byFormation, List.mergeSort_singleton]
  rfl

/-- The service runs until it crashes. -/
def running : List Action := [.start 0, .compact Ledger.empty, .commit accepted, .commit formed]

theorem step_accepted : step json sha256 retry
    (.written json [.snapshot Ledger.empty] (.running Ledger.empty)) (.commit accepted) =
      some (.written json [.snapshot Ledger.empty, accepted]
        (.running (Ledger.empty.apply sha256 retry accepted))) :=
  congrArg some (State.written_append ..)

theorem step_formed : step json sha256 retry (.written json [.snapshot Ledger.empty, accepted]
    (.running (Ledger.empty.apply sha256 retry accepted))) (.commit formed) = some serving :=
  congrArg some (State.written_append ..)

theorem run_serving (rest : List Action) : runActions json sha256 retry State.fresh (running ++ rest) =
    runActions json sha256 retry serving rest := by
  show runActions _ _ _ _ (.start 0 :: .compact Ledger.empty :: .commit accepted :: .commit formed :: rest) = _
  rw [run_step step_first, run_step (step_compact rfl), run_step step_accepted, run_step step_formed]

theorem clean_serving {rest : List Action} (h : CleanRun json sha256 retry serving rest) :
    CleanRun json sha256 retry State.fresh (running ++ rest) :=
  .cons step_first trivial (.cons (step_compact rfl) trivial (.cons step_accepted trivial
    (.cons step_formed trivial h)))

/-- A restart that reads the lines finds the batch cut off. -/
theorem start_lines {s : State} (hdown : s.phase = .down)
    (hread : readEvents json s.bytes = .ok lines) : step json sha256 retry s (.start 5) =
      some ⟨some s.bytes, .opening proving [interrupted], lines, none, s.behind⟩ := by
  have hreplay : replay sha256 retry lines = proving := rfl
  rw [step_start hdown hread, hreplay, recover_proving]

theorem start_torn {tail : Bytes} (h : Torn json tail) (e : Event) :
    step json sha256 retry (crashed tail e) (.start 5) = some (reopened tail) :=
  start_lines rfl (read_of_holds (.whole tail h rfl) writes_lines)

/-- The service crashes while it records a failure. -/
theorem cut_serving : step json sha256 retry serving (.cut failed 60) = some (crashed torn failed) :=
  rfl

theorem cut_serving_clean : (Action.cut failed 60).Clean json serving := by
  refine ⟨rfl, .inl ⟨endsLine_eventLines lines, ?_⟩⟩
  obtain ⟨-, -, -, text, htext, -⟩ := torn_parts torn List.mem_cons_self
  exact Option.isSome_iff_exists.2 ⟨text, htext⟩

/-- And again, while the restart records the interruption behind what was left. -/
theorem cut_reopened : step json sha256 retry (reopened torn) (.cut interrupted 30) =
    some (crashed tornAgain interrupted) := by
  have hbytes : eventLines json lines ++ torn ++ (line json interrupted).take 30 =
      eventLines json lines ++ tornAgain := List.append_assoc ..
  have hcut : (reopened torn).cut json interrupted 30 = crashed tornAgain interrupted :=
    congrArg (fun bytes => State.mk (some bytes) .down lines (some interrupted) false) hbytes
  rw [← hcut]
  exact step_cut_recover rfl 30

theorem cut_reopened_clean : (Action.cut interrupted 30).Clean json (reopened torn) := by
  have hends := @endsLine_eventLines json lines
  obtain ⟨hne, -⟩ := torn_parts torn List.mem_cons_self
  obtain ⟨hne', -⟩ := torn_parts tornAgain (List.mem_cons_of_mem _ List.mem_cons_self)
  refine ⟨rfl, .inr ⟨(torn_of_mem List.mem_cons_self).endsTorn hends hne, ?_⟩⟩
  show endsTorn json (eventLines json lines ++ torn ++ (line json interrupted).take 30) = true
  rw [List.append_assoc]
  exact (torn_of_mem (List.mem_cons_of_mem _ List.mem_cons_self)).endsTorn hends hne'

theorem recover_reopened (tail : Bytes) : step json sha256 retry (reopened tail)
    (.recover interrupted) = some (recovered tail) := step_recover rfl

/-- The restart crashes once, and starts again. -/
def restart : List Action := [.start 5, .cut interrupted 30, .start 5, .recover interrupted]

theorem start_crashed : step json sha256 retry (crashed torn failed) (.start 5) =
    some (reopened torn) := start_torn (torn_of_mem List.mem_cons_self) failed

theorem start_crashed_again : step json sha256 retry (crashed tornAgain interrupted) (.start 5) =
    some (reopened tornAgain) :=
  start_torn (torn_of_mem (List.mem_cons_of_mem _ List.mem_cons_self)) interrupted

theorem compact_recovered : step json sha256 retry (recovered tornAgain) (.compact charged) =
    some (.written json [.snapshot charged] (.running charged)) := step_compact rfl

/-- The service crashes, its restart crashes too, and the second restart comes through. -/
def actions : List Action := running ++ .cut failed 60 :: (restart ++ [.compact charged])

theorem run_actions : runActions json sha256 retry State.fresh actions =
    some (.written json [.snapshot charged] (.running charged)) := by
  rw [actions, run_serving, run_step cut_serving]
  show runActions _ _ _ _ (.start 5 :: .cut interrupted 30 :: .start 5 :: .recover interrupted ::
    [.compact charged]) = _
  rw [run_step start_crashed, run_step cut_reopened, run_step start_crashed_again,
    run_step (recover_reopened tornAgain), run_step compact_recovered]
  rfl

theorem clean_actions : CleanRun json sha256 retry State.fresh actions :=
  clean_serving (.cons cut_serving cut_serving_clean (.cons start_crashed trivial
    (.cons cut_reopened cut_reopened_clean (.cons start_crashed_again trivial
      (.cons (recover_reopened tornAgain) trivial (.cons compact_recovered trivial trivial))))))

theorem writes_actions : ∀ a ∈ actions, ∀ e ∈ a.event, json.Writes e := by
  have hknown : ∀ a ∈ actions, ∀ e ∈ a.event, e ∈ entries.keys := by
    decide +kernel
  intro a ha e he
  obtain ⟨entry, hentry, rfl⟩ := List.mem_map.1 (hknown a ha e he)
  exact writes hentry

/-- The restart has crashed behind its record. -/
def lost : State := { recovered torn with phase := .down }

/-- The service opens again, over the file in which that record was lost. -/
def reopenedLost : State := ⟨some lost.bytes, .opening proving [interrupted], lines, none, lost.behind⟩

/-- And once more. -/
def refused : State :=
  { reopenedLost.append json interrupted (.opening charged []) with phase := .down }

/-- A whole record behind a torn line is not read, and with another behind it nothing is. -/
theorem read_merged {more : List Event} (hmore : ∀ e ∈ more, json.Writes e) :
    readEvents json (eventLines json lines ++ torn ++ line json interrupted ++ eventLines json more) =
      if more = [] then .ok lines else .error (.line 4) := by
  have hlast : torn ++ json.toVec interrupted ∈ [torn, tornAgain, torn ++ json.toVec interrupted] :=
    List.mem_cons_of_mem _ (List.mem_cons_of_mem _ List.mem_cons_self)
  obtain ⟨-, -, hbrace, text, htext, hnone⟩ := torn_parts _ hlast
  have hread := read_malformed (fun e he => (List.mem_append.1 he).elim (writes_lines e) (hmore e))
    (torn_of_mem hlast).plain hbrace htext hnone
  have hbytes : eventLines json lines ++ torn ++ line json interrupted =
      eventLines json lines ++ (torn ++ json.toVec interrupted ++ [NEWLINE]) := by
    simp [line]
  rw [hbytes]
  exact hread

end JournalSample

open JournalSample in
/-- **A crash, an interrupted restart, and one charge.** After the crash a start reads the events that
were written. The restart crashes while it records the interruption behind the torn line, and starts
again; when the service runs, the return has been charged one attempt. -/
theorem crash_consistent_sample :
    (∃ s, runActions JournalSample.json sha256 retry State.fresh (running ++ [.cut failed 60]) = some s ∧
      s.phase = .down ∧ ∃ events, readEvents JournalSample.json s.bytes = .ok events ∧
        s.Expects events) ∧
    ∃ s, runActions JournalSample.json sha256 retry State.fresh
        (running ++ .cut failed 60 :: (restart ++ [.compact charged])) = some s ∧
      s.phase = .running charged ∧ ∃ r r', proving.returns.get "a" = some r ∧ r.record.attempts = 0 ∧
        charged.returns.get "a" = some r' ∧ r'.record.attempts = 1 := by
  have hcrash : runActions JournalSample.json sha256 retry State.fresh (running ++ [.cut failed 60]) =
      some (crashed torn failed) := by
    rw [run_serving, run_step cut_serving]
    rfl
  have hwrites : ∀ a ∈ running ++ [.cut failed 60], ∀ e ∈ a.event, JournalSample.json.Writes e :=
    fun a ha => writes_actions a (by
      rw [actions, ← List.singleton_append, ← List.append_assoc]
      exact List.mem_append_left _ ha)
  have hfirst := crash_consistent hcrash hwrites
    (clean_serving (.cons cut_serving cut_serving_clean trivial))
  refine ⟨⟨_, hcrash, rfl, hfirst.1 rfl⟩, _, run_actions, rfl, ?_⟩
  have hserving : runActions JournalSample.json sha256 retry State.fresh running = some serving :=
    run_serving []
  obtain ⟨-, base, hbase, hcharges⟩ := (crash_consistent run_actions writes_actions clean_actions).2
    running (.cut failed 60) restart serving proving charged rfl hserving rfl rfl (by decide)
  -- the failure of a batch that does not exist changes nothing
  have hsame : base = proving := by
    rcases hbase with rfl | ⟨e, written, hcut, rfl⟩
    · rfl
    · cases hcut
      decide +kernel
  subst hsame
  obtain ⟨r, hr, hnone, hinterruptible⟩ : ∃ r, proving.returns.get "a" = some r ∧
      r.record.attempts = 0 ∧ proving.Interruptible r :=
    ⟨_, rfl, rfl, hex32 (ByteArr.zero 32), ⟨_, rfl, rfl⟩, rfl, rfl⟩
  obtain ⟨r', hr', hcharged, -⟩ := hcharges "a" r hr
  exact ⟨r, r', hr, hnone, hr', by rw [hcharged hinterruptible, hnone]⟩

open JournalSample in
/-- A crash in the middle of a character: the service does not start again. -/
theorem crash_in_character :
    (∀ e ∈ [Event.snapshot Ledger.empty, failed], JournalSample.json.Writes e) ∧
      ∃ s, runActions JournalSample.json sha256 retry State.fresh
          [.start 0, .compact Ledger.empty, .cut failed 62] = some s ∧
        s.phase = .down ∧ readEvents JournalSample.json s.bytes = .error .invalidUtf8 := by
  refine ⟨?_, (State.written JournalSample.json [.snapshot Ledger.empty]
    (.running Ledger.empty)).cut JournalSample.json failed 62, ?_, rfl, ?_⟩
  · intro e he
    simp only [List.mem_cons, List.not_mem_nil, or_false] at he
    rcases he with rfl | rfl
    · exact writes (mem_entries 0)
    · exact writes_failed
  · rw [run_step step_first, run_step (step_compact rfl)]
    rfl
  · decide +kernel

open JournalSample in
/-- **An append behind a torn line is lost.** The restart records the interruption whole, right behind
what the crash had left, and crashes before its compaction: the next start does not read the record. One
more such restart, and no start reads the file any more. -/
theorem append_behind_torn : ∃ s s',
    runActions JournalSample.json sha256 retry State.fresh
        (running ++ [.cut failed 60, .start 5, .recover interrupted, .crash]) = some s ∧
      s.log = lines ++ [interrupted] ∧ readEvents JournalSample.json s.bytes = .ok lines ∧
      runActions JournalSample.json sha256 retry s [.start 5, .recover interrupted, .crash] = some s' ∧
        readEvents JournalSample.json s'.bytes = .error (.line 4) := by
  have hnone := @read_merged [] (fun _ he => by cases he)
  have hmore := @read_merged [interrupted] (fun e he => by
    rw [List.mem_singleton.1 he]
    exact writes_interrupted)
  have hsingle : eventLines JournalSample.json [interrupted] = line JournalSample.json interrupted :=
    List.flatMap_singleton ..
  have hnil : eventLines JournalSample.json [] = [] := rfl
  rw [if_pos rfl, hnil, List.append_nil] at hnone
  rw [if_neg (List.cons_ne_nil _ _), hsingle] at hmore
  have hcrash : step JournalSample.json sha256 retry (recovered torn) .crash = some lost :=
    step_crash fun h => by cases h
  have hstart : step JournalSample.json sha256 retry lost (.start 5) = some reopenedLost :=
    start_lines rfl hnone
  have hrecover : step JournalSample.json sha256 retry reopenedLost (.recover interrupted) =
      some (reopenedLost.append JournalSample.json interrupted (.opening charged [])) := step_recover rfl
  have hrefused : step JournalSample.json sha256 retry
      (reopenedLost.append JournalSample.json interrupted (.opening charged [])) .crash = some refused :=
    step_crash fun h => by cases h
  refine ⟨lost, refused, ?_, rfl, hnone, ?_, hmore⟩
  · rw [run_serving, run_step cut_serving, run_step start_crashed, run_step (recover_reopened torn),
      run_step hcrash]
    rfl
  · rw [run_step hstart, run_step hrecover, run_step hrefused]
    rfl

end UnicityBridge.Service
