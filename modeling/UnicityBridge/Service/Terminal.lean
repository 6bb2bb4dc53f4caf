import UnicityBridge.Service.Budget

/-!
# Returns that are done

A return that is settled, or has failed for good, stays as it is through every event but an exclusion,
and a run of a batch excludes such a return only when its burn was assembled again. That happens after a
rebase, which assembles every member of the batch, also those that left it.
-/

set_option autoImplicit false

namespace UnicityBridge.Service

open UnicityBridge.Lib
open UnicityBridge.Settlement (RebuiltAccumulator)

section Done

variable {sdk : TokenSdk.Sdk} {codec : Wire.Codec} {retry : RetryPolicy} {policy : BatchPolicy}

/-- What a run adds to its history. -/
theorem steps_grow {c c' : ServiceConfig} (h : (service sdk codec retry policy).Reach c)
    (hsteps : Relation.ReflTransGen (service sdk codec retry policy).Step c c') :
    Relation.ReflTransGen ((service sdk codec retry policy).Grows (Allowed sdk codec retry))
      c.world c'.world := by
  induction hsteps with
  | refl => exact .refl
  | tail hfirst hstep ih => exact ih.trans ((reach_holds (h.trans hfirst)).grows hstep)

/-! ## One event -/

theorem ReturnRecord.requeue_of_done {r : Return} (h : r.isDone = true) (atMs : Nat) :
    r.record.requeue atMs retry = r.record := by
  rcases r.record.requeue_cases atMs retry with ⟨hsubmitted | hfailed, -⟩ | hsame
  · simp [Return.isDone, hsubmitted] at h
  · rw [Return.not_done_of_failedRecoverably hfailed] at h
    cases h
  · exact hsame

/-- A return that is done is in no batch. -/
theorem Return.not_member_of_done {ledger : Ledger} {r : Return} (h : r.isDone = true) (b : String) :
    ledger.isMember b r = false := by
  by_contra hmember
  rw [Bool.not_eq_false] at hmember
  rw [Return.not_done_of_inBatch (Ledger.isMember_iff.1 hmember).2] at h
  cases h

theorem Return.not_pending_of_done {r : Return} (h : r.isDone = true) : r.isPending = false := by
  by_contra hpending
  simp only [Bool.not_eq_false, isPending, Bool.or_eq_true, decide_eq_true_eq] at hpending
  rcases hpending with hqueued | hfailed
  · simp [isDone, hqueued] at h
  · rw [not_done_of_failedRecoverably hfailed] at h
    cases h

/-- **An event leaves a return that is done as it is**, unless it excludes it. -/
theorem Event.recordAfter_of_done {ledger : Ledger} {id : String} {r : Return}
    (h : r.isDone = true) (e : Event) (hexclude : ∀ reason atMs, e ≠ .returnExcluded id reason atMs) :
    e.recordAfter sdk.sha256 retry ledger id r = r.record := by
  cases e with
  | snapshot | accepted => rfl
  | requeued i atMs => simp [recordAfter, ReturnRecord.requeue_of_done h]
  | batchFormed members atMs => simp [recordAfter, Return.not_pending_of_done h]
  | batchProven b | batchSettled b | batchFailed b | batchRebased b | batchInterrupted b =>
      simp [recordAfter, Return.not_member_of_done h b]
  | returnExcluded i reason atMs =>
      rw [recordAfter, if_neg]
      rintro rfl
      exact hexclude reason atMs rfl

/-! ## Histories -/

/-- Whenever a burn is assembled, its return is not done. -/
def AssemblesOpen (past : Past) : Prop := ∀ id r, AssembledAs past id r → r.isDone = false

theorem AssemblesOpen.mono {past past' : Past} (h : AssemblesOpen past') (hpast : past ⊆ past') :
    AssemblesOpen past := fun id r hassembled => h id r (hassembled.mono hpast)

/-- What the orchestrator commits excludes no return that is done. -/
theorem Allowed.not_excludes_done {w : History} (h : AssemblesOpen w.past) {id : String} {r : Return}
    (hr : w.state.returns.get id = some r) (hdone : r.isDone = true) {reason : Exclusion} {atMs : Nat} :
    ¬ Allowed sdk codec retry w (.returnExcluded id reason atMs) := by
  intro hallowed
  cases hallowed with
  | recheck may =>
      obtain ⟨r', hr', hstatus, -⟩ := may
      obtain rfl := Option.some.inj (hr.symm.trans hr')
      simp [Return.isDone, hstatus] at hdone
  | run hrun =>
      cases hrun with
      | exclude may =>
          obtain ⟨r', hr', -, hin | ⟨r₀, hassembled, -, hbefore⟩⟩ := may
          · obtain rfl := Option.some.inj (hr.symm.trans hr')
            rw [Return.not_done_of_inBatch hin] at hdone
            cases hdone
          · obtain rfl := Option.some.inj (hr.symm.trans hr')
            have hopen := h id r₀ hassembled
            rw [hbefore hdone] at hopen
            cases hopen

/-- A moment leaves a return that is done as it is. -/
theorem done_grows {w w' : History} (hs : Sound sdk codec retry policy w)
    (hgrows : (service sdk codec retry policy).Grows (Allowed sdk codec retry) w w')
    (hopen : AssemblesOpen w.past) {id : String} {r : Return}
    (hr : w.state.returns.get id = some r) (hdone : r.isDone = true) :
    w'.state.returns.get id = some r := by
  cases hgrows with
  | @own e hallowed hadmits =>
      have haccepted : ∀ burn record, e ≠ .accepted burn record := by
        rintro burn record rfl
        cases hallowed with
        | run hrun => cases hrun
      have hexclude : ∀ reason atMs, e ≠ .returnExcluded id reason atMs := by
        rintro reason atMs rfl
        exact Allowed.not_excludes_done hopen hr hdone hallowed
      show (w.state.apply sdk.sha256 retry e).returns.get id = some r
      rw [Ledger.get_apply e hadmits.ne_snapshot haccepted, hr, Option.map_some,
        Event.recordAfter_of_done hdone e hexclude]
  | other hintake =>
      apply (@Intake.aside sdk codec retry _ (Sound.ledger hs).1 _ hintake).get hr List.not_mem_nil
      by_contra hfailed
      rw [Return.not_done_of_failedRecoverably (by simpa using hfailed)] at hdone
      cases hdone
  | heard | outside | started => exact hr

/-- **A terminal return stays terminal.** In a run in which no burn is assembled whose return is done, a
return that is settled or has failed for good is the same from then on. -/
theorem terminal_stays {c c' : ServiceConfig} (h : (service sdk codec retry policy).Reach c)
    (hsteps : Relation.ReflTransGen (service sdk codec retry policy).Step c c')
    (hopen : AssemblesOpen c'.world.past) {id : String} {r : Return}
    (hr : c.world.state.returns.get id = some r) (hdone : r.isDone = true) :
    c'.world.state.returns.get id = some r := by
  have hs := reach_sound h
  have hgrows := steps_grow h hsteps
  generalize c.world = w, c'.world = w' at *
  induction hgrows with
  | refl => exact hr
  | tail hfirst hstep ih =>
      have hpast := hstep.past
      exact done_grows (hs.grows hfirst) hstep (hopen.mono hpast) (ih (hopen.mono hpast)) hdone

end Done

/-! ## A run without incidents -/

namespace Sample

open Guest.Sample (Coin sdk)
open Wire.Sample (codec)

variable (retry : RetryPolicy)

/-- The batch is proven on the empty vault. -/
def clean (assembled : Assembled) : History :=
  provingFrom retry (forming retry) batch (accOf .new) [] none assembled

/-- The batch is settled by the service's own submission. -/
def paid (assembled : Assembled) : History :=
  submitting sdk codec retry policy (clean retry assembled) batch.id (bundleOf batch.id assembled)
    (accOf .new) settlement 0

/-- The return of a settled burn. -/
def paidReturn (coin : Coin) : Return :=
  { proved coin with record := (proved coin).record.settle 0 (some settlement) }

theorem assembles_clean : ∃ assembled, AssemblesTo (accOf .new) [] none assembled :=
  assembles (verdict_none (by decide) List.not_mem_nil fun _ h => (by cases h))
    (verdict_none (by decide) List.not_mem_nil fun _ h => (by cases h))

theorem keeps_clean (assembled : Assembled) : (clean retry assembled).state.Keeps sdk codec
    (batch.provenWith assembled (proofOf assembled) 0) [proved .whole, proved .left] := by
  have hproven := @Ledger.Keeps.rounding _ _ retry policy _ _ _ (accOf .new) [] [] assembled
    (proofOf assembled) 0 (keeps_forming retry)
  have hrounded (coin : Coin) : (entered coin).rounded retry batch.id [] 0 = proved coin :=
    Return.rounded_of_in (entered_in coin) fun _ hentry => (by cases hentry)
  rw [List.map_cons, List.map_singleton, hrounded, hrounded] at hproven
  exact hproven

theorem clean_get (assembled : Assembled) {coin : Coin} (h : coin ∈ [Coin.whole, Coin.left]) :
    (clean retry assembled).state.returns.get (id coin) = some (proved coin) := by
  have hid : (proved coin).burn.id = id coin := rfl
  rw [← hid]
  exact (keeps_clean retry assembled).get _ (List.mem_map_of_mem h)

theorem keeps_paid (assembled : Assembled) : (paid retry assembled).state.Keeps sdk codec
    ((batch.provenWith assembled (proofOf assembled) 0).settledWith (some settlement))
    [paidReturn .whole, paidReturn .left] := by
  have hsettled := @Ledger.Keeps.settled _ _ retry _ _ _ (keeps_clean retry assembled)
    (some settlement) 0
  have hid : (batch.provenWith assembled (proofOf assembled) 0).id = batch.id := rfl
  rw [List.map_cons, List.map_singleton, hid, Return.inside_of_in (proved_in .whole),
    Return.inside_of_in (proved_in .left)] at hsettled
  rw [paid, submitting_state]
  exact hsettled

theorem get_paid (assembled : Assembled) {coin : Coin} (h : coin ∈ [Coin.whole, Coin.left]) :
    (paid retry assembled).state.returns.get (id coin) = some (paidReturn coin) := by
  have hid : (paidReturn coin).burn.id = id coin := rfl
  rw [← hid]
  exact (keeps_paid retry assembled).get _ (List.mem_map_of_mem h)

/-- **The service settles both burns.** -/
theorem reach_paid {assembled : Assembled} (h : AssemblesTo (accOf .new) [] none assembled) :
    (service sdk codec retry policy).Reach
      (⟨paid retry assembled, .running (.done (.loop (.collecting false)))⟩ : ServiceConfig) := by
  have hnew : Guest.Sample.word Coin.left.number ∉ (accOf .new).tree.keys := List.not_mem_nil
  have hopen := @not_released batch _ _ _ _ h (accOf .new) hnew
  have hroot := (@chainsOnto_iff batch _ _ _ _ h .new).2 rfl
  have hround : (Orchestrator.proveStage sdk codec retry batch).CanEnd (service sdk codec retry policy)
      (fun w' stage => w' = paid retry assembled ∧ stage = .done) (forming retry) := by
    refine round (keeps_forming retry) rfl rfl rfl h rules_none ?_
    exact Orchestrator.settleStage_submits hopen hroot rfl settlement 0 ⟨rfl, rfl⟩
  obtain ⟨w', stage, ⟨rfl, rfl⟩, hturns⟩ := Orchestrator.run_goes rfl hround
  exact (reach_forming retry).trans (System.turns_steps hturns)

theorem paidReturn_status (coin : Coin) : (paidReturn coin).record.status = .settled := by
  simp [paidReturn]

theorem paidReturn_done (coin : Coin) : (paidReturn coin).isDone = true := by
  rw [Return.isDone, paidReturn_status]
  rfl

/-- Every return is proving in the batch that has just formed. -/
theorem forming_status {key : String} {r : Return}
    (h : (forming retry).state.returns.get key = some r) : r.record.status = .proving := by
  rcases List.mem_pair.1 ((keeps_forming retry).complete key r h) with rfl | rfl
  · simp [entered]
  · simp [entered]

/-- Whatever was assembled was proving. -/
theorem assembledAs_status {past : Past} (hpast : assembliesOf past = [(forming retry).state])
    {key : String} {r : Return} (h : AssembledAs past key r) : r.record.status = .proving := by
  obtain ⟨ledger, burns, acc, rejected, answer, hmem, -, hget⟩ := h
  have hledger : ledger ∈ assembliesOf past := List.mem_filterMap.2 ⟨_, hmem, rfl⟩
  rw [hpast, List.mem_singleton] at hledger
  exact forming_status retry (hledger ▸ hget)

/-! Another burn -/

theorem id_length (coin : Coin) : (id coin).toUTF8.data.toList.length = 66 := by
  cases coin <;> decide +kernel

/-- The last bytes of the id of a return. -/
def lastBytes (coin : Coin) : Bytes32 :=
  ⟨(id coin).toUTF8.data.toList.drop 34, by rw [List.length_drop, id_length]⟩

/-- The hash of a batch is made of its last member. -/
theorem formed_id (seq : Nat) (before : List String) (coin : Coin) :
    (Batch.formed sdk.sha256 seq (before ++ [id coin]) 0).id = hex32 (lastBytes coin) := by
  have hinput : Batch.idInput seq (before ++ [id coin]) =
      ("bridge-return-service:batch-id:v1".toUTF8.data.toList ++ beBytes 8 seq ++
        before.flatMap (fun member => member.toUTF8.data.toList) ++
          (id coin).toUTF8.data.toList.take 34) ++ (lastBytes coin).toList := by
    have hsplit : (id coin).toUTF8.data.toList.take 34 ++ (lastBytes coin).toList =
        (id coin).toUTF8.data.toList := List.take_append_drop 34 _
    rw [List.append_assoc _ _ (lastBytes coin).toList, hsplit, Batch.idInput, List.flatMap_append,
      List.flatMap_singleton, List.append_assoc _ _ (id coin).toUTF8.data.toList]
  have hfirst : ("bridge-return-service:batch-id:v1".toUTF8.data.toList ++ beBytes 8 seq ++
      before.flatMap (fun member => member.toUTF8.data.toList) ++
        (id coin).toUTF8.data.toList.take 34).head? = some 0x62 := by
    rfl
  show hex32 (Accumulator.sampleHash (Batch.idInput seq (before ++ [id coin]))) = _
  rw [hinput, Guest.Sample.hash_append (lastBytes coin) hfirst (by decide)]

/-- Another burn is posted after the first two are settled. -/
def joining (assembled : Assembled) : History :=
  (paid retry assembled).other (service sdk codec retry policy) (acceptance .right)

/-- The orchestrator forms the next batch, and the service is started again after a crash. -/
def joined (assembled : Assembled) : History :=
  World.started ((Orchestrator.looking (joining retry assembled) 0).own (service sdk codec retry policy)
    (.batchFormed [id .right] 0))

section Joining

variable {retry} {assembled : Assembled}

theorem paid_get {key : String} {r : Return} (h : (paid retry assembled).state.returns.get key = some r) :
    ∃ coin, coin ≠ Coin.right ∧ key = id coin ∧ r = paidReturn coin := by
  have hkeeps := keeps_paid retry assembled
  have hid := hkeeps.indexed.id_eq key r h
  rcases List.mem_pair.1 (hkeeps.complete key r h) with rfl | rfl
  · exact ⟨.whole, by decide, hid.symm, rfl⟩
  · exact ⟨.left, by decide, hid.symm, rfl⟩

theorem paid_new : (paid retry assembled).state.returns.get (id .right) = none := by
  rw [Option.eq_none_iff_forall_not_mem]
  intro r hr
  obtain ⟨coin, hne, hid, -⟩ := paid_get hr
  exact hne (id_inj hid).symm

/-- The last burn can be posted. -/
theorem intake_joining : Intake sdk codec (paid retry assembled).state (acceptance .right) := by
  refine intake_acceptance (by decide) (returnOf_eq_none (keeps_paid retry assembled).indexed ?_)
    paid_new
  intro key r hr
  obtain ⟨coin, hne, -, rfl⟩ := paid_get hr
  exact id_ne hne

/-- A return is one of the settled, or the last. -/
theorem joining_get {key : String} {r : Return}
    (h : (joining retry assembled).state.returns.get key = some r) :
    (∃ coin, r = paidReturn coin) ∨ ∃ seq, r = ⟨seq, posted .right, record .right⟩ := by
  have hadmits : (acceptance .right).Admissible sdk codec (paid retry assembled).state :=
    acceptance_admissible (by decide) paid_new
  rw [joining, other_state] at h
  rcases Ledger.returns_cases hadmits.ne_snapshot h with
    ⟨before, hbefore, rfl⟩ | ⟨burn, record', he, -, -, rfl⟩
  · obtain ⟨coin, -, -, rfl⟩ := paid_get hbefore
    exact .inl ⟨coin, rfl⟩
  · obtain ⟨rfl, rfl⟩ := Event.accepted.inj he
    exact .inr ⟨_, rfl⟩

theorem joining_right : ∃ seq, (joining retry assembled).state.returns.get (id .right) =
    some ⟨seq, posted .right, record .right⟩ := by
  have hnew : (paid retry assembled).state.byNullifier.contains
      (toLowercase (record .right).nullifier) = false := by
    rw [← Bool.not_eq_true]
    intro hcontains
    obtain ⟨key, hkey⟩ := Option.isSome_iff_exists.1 hcontains
    obtain ⟨r, hr, hnullifier⟩ := (keeps_paid retry assembled).indexed.owner _ _ hkey
    obtain ⟨coin, hne, -, rfl⟩ := paid_get hr
    exact id_ne hne (hnullifier.trans (toLowercase_hex32 _))
  rw [joining, other_state, acceptance, Ledger.apply, Ledger.get_accept, if_pos ⟨hnew, rfl⟩]
  exact ⟨_, rfl⟩

theorem indexed_joining : (joining retry assembled).state.Indexed sdk codec := by
  rw [joining, other_state]
  exact (keeps_paid retry assembled).indexed.apply (acceptance_admissible (by decide) paid_new)

/-- Only the last burn waits for a batch. -/
theorem pending_joining : ∃ seq, (joining retry assembled).state.pending =
    [⟨seq, posted .right, record .right⟩] := by
  have hindexed := @indexed_joining retry assembled
  obtain ⟨seq, hright⟩ := @joining_right retry assembled
  have hnodup := hindexed.pending_nodup
  have hall : ∀ r ∈ (joining retry assembled).state.pending,
      r = ⟨seq, posted .right, record .right⟩ := by
    intro r hr
    obtain ⟨hget, hpending⟩ := hindexed.get_of_pending hr
    rcases joining_get hget with ⟨coin, rfl⟩ | ⟨seq', rfl⟩
    · rw [Return.not_pending_of_done (paidReturn_done coin)] at hpending
      cases hpending
    · exact Option.some.inj (hget.symm.trans hright)
  have hmem : ⟨seq, posted .right, record .right⟩ ∈ (joining retry assembled).state.pending := by
    rw [Ledger.pending, Ledger.bySeq, List.mem_mergeSort, List.mem_filter, Dict.mem_values]
    exact ⟨⟨_, hright⟩, rfl⟩
  -- the list is one return over and over, and has it once
  have hsame := List.eq_replicate_of_mem hall
  rw [hsame, List.map_replicate, List.nodup_replicate] at hnodup
  have hone : (joining retry assembled).state.pending.length = 1 :=
    Nat.le_antisymm hnodup (List.length_pos_of_mem hmem)
  rw [hone] at hsame
  exact ⟨seq, hsame⟩

theorem batches_joining {b : String} {other : Batch}
    (h : (joining retry assembled).state.batches.get b = some other) :
    b = batch.id ∧ other.status = .settled := by
  have hkeeps := keeps_paid retry assembled
  have hadmits : (acceptance .right).Admissible sdk codec (paid retry assembled).state :=
    acceptance_admissible (by decide) paid_new
  have hformed : ∀ members atMs, acceptance .right ≠ .batchFormed members atMs := fun _ _ he => by
    cases he
  rw [joining, other_state, Ledger.batches_apply _ hadmits.ne_snapshot hformed,
    Option.map_eq_some_iff] at h
  obtain ⟨before, hbefore, rfl⟩ := h
  have hid := hkeeps.only b before hbefore
  rw [hid, hkeeps.batch] at hbefore
  obtain rfl := Option.some.inj hbefore
  exact ⟨hid, rfl⟩

theorem nextBatch_joining :
    ((joining retry assembled).state.nextBatch sdk.sha256 [id .right] 0).id ≠ batch.id := by
  have hright : ((joining retry assembled).state.nextBatch sdk.sha256 [id .right] 0).id =
      hex32 (lastBytes .right) := formed_id _ [] .right
  have hleft : batch.id = hex32 (lastBytes .left) := formed_id 1 [id .whole] .left
  rw [hright, hleft]
  exact fun hsame => absurd (hex32_inj hsame) (by decide +kernel)

/-- **The service goes on** with another burn, after a settlement. -/
theorem paid_joined : Relation.ReflTransGen (service sdk codec retry policy).Step
    ⟨paid retry assembled, .running (.done (.loop (.collecting false)))⟩
    ⟨joined retry assembled, .running (Orchestrator.code sdk codec retry policy .opening)⟩ := by
  have hnone : ∀ b, ¬ (joining retry assembled).state.Proving b := by
    rintro b ⟨other, hother, hproving⟩
    rw [(batches_joining hother).2] at hproving
    cases hproving
  have hadmits : (Event.batchFormed [id .right] 0).Admissible sdk codec
      (joining retry assembled).state := by
    show (joining retry assembled).state.batches.get _ = none
    rw [Option.eq_none_iff_forall_not_mem]
    intro other hother
    exact nextBatch_joining (batches_joining hother).1
  have hdue : (joining retry assembled).state.releasesDue 0 = [] := by
    rw [List.eq_nil_iff_forall_not_mem]
    intro entry hentry
    obtain ⟨r, hr, hstatus, -⟩ := (indexed_joining.releasesDue 0).2 entry hentry
    rcases joining_get hr with ⟨coin, rfl⟩ | ⟨seq, rfl⟩
    · rw [paidReturn_status] at hstatus
      cases hstatus
    · cases hstatus
  have hnext : policy.next (joining retry assembled).state.pending 0 false = .batch [id .right] := by
    obtain ⟨seq, hpending⟩ := @pending_joining retry assembled
    rw [hpending]
    exact BatchPolicy.next_single rfl
  have hforms := @Orchestrator.collect_forms sdk codec retry policy (joining retry assembled) 0 false
    [id .right] hdue hnone hnext hadmits
  have hposted := Relation.ReflTransGen.single
    (@System.Step.other _ _ _ _ _ _ (service sdk codec retry policy) (paid retry assembled)
      (.done (.loop (.collecting false))) _ intake_joining)
  exact ((hposted.trans (System.goes_to hforms)).tail .crash).tail .start

/-- The last burn has entered the next batch. -/
theorem joined_forms : ((Orchestrator.looking (joining retry assembled) 0).state,
    Label.own (.batchFormed [id .right] 0)) ∈ (joined retry assembled).past := by
  rw [joined]
  generalize Orchestrator.looking (joining retry assembled) 0 = w
  exact List.mem_cons_of_mem _ List.mem_cons_self

/-- Nothing but the first two burns was assembled. -/
theorem joined_open : AssemblesOpen (joined retry assembled).past := by
  intro key r hassembled
  have hproving := assembledAs_status retry rfl hassembled
  simp [Return.isDone, hproving]

end Joining

/-! A release that the log does not name -/

/-- The log shows the first burn released, in no transaction that it names. -/
theorem verdict_released : (part .whole (by decide)).verdict
    (accOf (treeOf (Guest.Sample.word Coin.whole.number))) [] = some (.released none) := by
  have hspent : (part .whole (by decide)).leaf.nullifier ∈
      (treeOf (Guest.Sample.word Coin.whole.number)).keys :=
    List.mem_singleton_self _
  generalize treeOf (Guest.Sample.word Coin.whole.number) = tree at hspent ⊢
  rw [Member.verdict, alreadySpent, (part .whole (by decide)).prechecked.leaves,
    List.find?_cons_of_pos]
  · rfl
  · rw [Option.isNone_iff_eq_none, Accumulator.nonMembershipWitness_eq_none]
    exact hspent

theorem rules_released : Rules (some (.released none))
    (some (.alreadySettled none (some "the vault log names no transaction for it"))) := by
  intro nullifiers hfirst
  have hreleased : releasedOf [(id .whole, .released none)] nullifiers =
      [⟨id .whole, id .whole, none⟩] := by
    simp [releasedOf, Exclusion.released, hfirst]
  simp only [Option.toList_some, List.map_cons, List.map_nil, hreleased]
  refine ⟨rfl, ?_⟩
  show [(id .whole, (Dict.get (Dict.empty.insert (id .whole) _) (id .whole)).getD _)] = _
  rw [Dict.get_insert_self]
  rfl

theorem refused_status : (refused retry).record.status = .failed := by
  simp [refused, ReturnRecord.exclude]

/-- The refused return has no attempt left. -/
theorem refused_parked : (refused ⟨1, 1, 1⟩).record.failedRecoverably = false := by
  simp [refused, entered, ReturnRecord.exclude, ReturnRecord.scheduleRetry, RetryPolicy.parked,
    ReturnRecord.failedRecoverably, ReturnFailure.asTerminal]

end Sample

/-- A settled return, while another burn is posted and enters the next batch, and the service is started
again after a crash. -/
theorem terminal_stays_sample :
    ∃ (c c' : ServiceConfig) (r : Return),
      c.world.state.returns.get (Sample.id .left) = some r ∧ r.record.status = .settled ∧
      Relation.ReflTransGen
        (service Guest.Sample.sdk Wire.Sample.codec ⟨1, 1, 1⟩ Sample.policy).Step c c' ∧
      (∃ w, (w, Label.own (.batchFormed [Sample.id .right] 0)) ∈ c'.world.past) ∧
      c'.world.state.returns.get (Sample.id .left) = some r := by
  obtain ⟨assembled, hassembles⟩ := Sample.assembles_clean
  have hr := Sample.get_paid ⟨1, 1, 1⟩ assembled (List.mem_cons_of_mem _ List.mem_cons_self)
  have hsteps := @Sample.paid_joined ⟨1, 1, 1⟩ assembled
  have hstays := terminal_stays (Sample.reach_paid ⟨1, 1, 1⟩ hassembles) hsteps Sample.joined_open hr
    (Sample.paidReturn_done .left)
  exact ⟨⟨Sample.paid ⟨1, 1, 1⟩ assembled, .running (.done (.loop (.collecting false)))⟩,
    ⟨Sample.joined ⟨1, 1, 1⟩ assembled, _⟩, _, hr, Sample.paidReturn_status .left, hsteps,
    ⟨_, Sample.joined_forms⟩, hstays⟩

/-- A return that was parked waits for a confirmation after the rebase. -/
theorem terminal_stays_counterexample :
    ∃ (c c' : ServiceConfig) (r r' : Return),
      (service Guest.Sample.sdk Wire.Sample.codec ⟨1, 1, 1⟩ Sample.policy).Reach c ∧
      Relation.ReflTransGen
        (service Guest.Sample.sdk Wire.Sample.codec ⟨1, 1, 1⟩ Sample.policy).Step c c' ∧
      c.world.state.returns.get (Sample.id .whole) = some r ∧ r.record.status = .failed ∧
      r.record.failedRecoverably = false ∧
      c'.world.state.returns.get (Sample.id .whole) = some r' ∧ r'.record.status = .submitted := by
  obtain ⟨w, hfirst, hkeeps, -⟩ := Sample.first_round ⟨1, 1, 1⟩ Nat.one_pos
  -- the second round finds the burn released
  have hnew : Guest.Sample.word Guest.Sample.Coin.left.number ∉
      (Sample.treeOf (Guest.Sample.word Guest.Sample.Coin.whole.number)).keys := by decide
  have hsecond := @Sample.verdict_none
    (Sample.accOf (Sample.treeOf (Guest.Sample.word Guest.Sample.Coin.whole.number))) [] .left
    (by decide) hnew fun _ h => (by cases h)
  obtain ⟨w', ledger, assembled, hturns, -, -, -, hsettled⟩ :=
    Sample.second_round ⟨1, 1, 1⟩ hkeeps Sample.verdict_released hsecond hnew Sample.rules_released
  have hreach := (Sample.reach_forming ⟨1, 1, 1⟩).trans (System.turns_steps hfirst)
  have hlater := hsettled.get _ List.mem_cons_self
  rw [Sample.ruled_some] at hlater
  exact ⟨_, _, _, _, hreach, System.turns_steps hturns, hkeeps.get _ List.mem_cons_self,
    Sample.refused_status ⟨1, 1, 1⟩, Sample.refused_parked, hlater, rfl⟩

end UnicityBridge.Service
