import UnicityBridge.Service.Records

/-!
# Which returns make a batch

`domain/policy.rs`: `next` decides over the pending returns, oldest first, and `select` fills a batch
behind the first return that is due.

A selection is read back as a list of burns that go together: they share a trust base and their locks
are apart.
-/

set_option autoImplicit false

namespace UnicityBridge.Service

open UnicityBridge.Lib

/-- `idleWait` is in milliseconds. -/
structure Limits where
  maxSize : Nat
  maxBytes : Nat
  idleWait : Nat
  deriving DecidableEq

/-- What to do next. -/
inductive Decision where
  | batch (members : List String)
  | waitUntil (atMs : Nat)
  | idle
  deriving DecidableEq

/-- How batches are formed. -/
structure BatchPolicy where
  limits : Limits
  deriving DecidableEq

/-- The variables of the loop of `select`. -/
structure Selection where
  taken : List UInt64
  bytes : Nat
  chosen : List String
  deriving DecidableEq

namespace BatchPolicy

variable (policy : BatchPolicy)

/-- The candidate goes with what is chosen already. -/
def fits (seed : Burn) (selection : Selection) (burn : Burn) : Bool :=
  burn.sharesTrustBase seed && burn.noncesDisjoint selection.taken &&
    decide (selection.bytes + burn.size ≤ policy.limits.maxBytes)

/-- One turn of the loop of `select`. A full selection ends the loop, and no later turn changes it. -/
def selectStep (seed : Burn) (selection : Selection) (candidate : Return) : Selection :=
  if policy.limits.maxSize ≤ selection.chosen.length then selection
  else if policy.fits seed selection candidate.burn then
    { taken := selection.taken ++ candidate.burn.lockNonces
      bytes := selection.bytes + candidate.burn.size
      chosen := selection.chosen ++ [candidate.burn.id] }
  else selection

/-- The members of the next batch. The source indexes the first due return, and `next` only asks when
there is one. -/
def select : List Return → List String
  | [] => []
  | seed :: rest =>
      (rest.foldl (policy.selectStep seed.burn)
        ⟨seed.burn.lockNonces, seed.burn.size, [seed.burn.id]⟩).chosen

/-- The next batch, or when to look again. -/
def next (pending : List Return) (nowMs : Nat) (collect : Bool) : Decision :=
  if pending = [] then .idle
  else
    let due := pending.filter fun r => r.isDue nowMs
    if due = [] then
      .waitUntil ((pending.filterMap fun r => r.record.notBeforeMs).min?.getD nowMs)
    else
      let windowCloses :=
        (due.map fun r => r.record.createdAtMs).min?.getD nowMs + policy.limits.idleWait
      if collect = true ∧ due.length < policy.limits.maxSize ∧ nowMs < windowCloses then
        .waitUntil windowCloses
      else .batch (policy.select due)

/-! ## What is selected -/

/-- Burns that can be merged: one trust base, and no lock twice. -/
structure Together (burns : List Burn) : Prop where
  trustBase : ∀ a ∈ burns, ∀ b ∈ burns, a.trustBaseHash = b.trustBaseHash
  disjoint : burns.Pairwise fun a b => ∀ nonce ∈ a.lockNonces, nonce ∉ b.lockNonces

/-- The returns chosen so far. -/
structure Selected (seed : Return) (selection : Selection) (chosen : List Return) : Prop where
  ids : selection.chosen = chosen.map fun r => r.burn.id
  taken : selection.taken = chosen.flatMap fun r => r.burn.lockNonces
  bytes : selection.bytes = (chosen.map fun r => r.burn.size).sum
  seeded : ∀ r ∈ chosen, r.burn.trustBaseHash = seed.burn.trustBaseHash
  disjoint : (chosen.map Return.burn).Pairwise
    fun a b => ∀ nonce ∈ a.lockNonces, nonce ∉ b.lockNonces
  bounded : chosen = [seed] ∨ selection.bytes ≤ policy.limits.maxBytes
  sized : chosen = [seed] ∨ chosen.length ≤ policy.limits.maxSize

/-- The return does not go with what was chosen before it, or there is no room left. -/
def Conflicts (seed : Return) (before : List Return) (r : Return) : Prop :=
  policy.limits.maxSize ≤ before.length ∨ r.burn.trustBaseHash ≠ seed.burn.trustBaseHash ∨
    (∃ c ∈ before, ∃ nonce ∈ r.burn.lockNonces, nonce ∈ c.burn.lockNonces) ∨
    policy.limits.maxBytes < (before.map fun c => c.burn.size).sum + r.burn.size

variable {policy}

theorem fits_iff {seed burn : Burn} {selection : Selection} :
    policy.fits seed selection burn = true ↔
      burn.trustBaseHash = seed.trustBaseHash ∧
        (∀ nonce ∈ burn.lockNonces, nonce ∉ selection.taken) ∧
        selection.bytes + burn.size ≤ policy.limits.maxBytes := by
  simp [fits, Burn.sharesTrustBase, Burn.noncesDisjoint, and_assoc]

/-- One turn adds its candidate, or leaves the selection because of a conflict. -/
theorem Selected.step {seed candidate : Return} {selection : Selection} {chosen : List Return}
    (h : Selected policy seed selection chosen) :
    (Conflicts policy seed chosen candidate ∧
        Selected policy seed (policy.selectStep seed.burn selection candidate) chosen) ∨
      Selected policy seed (policy.selectStep seed.burn selection candidate)
        (chosen ++ [candidate]) := by
  unfold selectStep
  split
  -- no room left
  · next hfull =>
    rw [h.ids, List.length_map] at hfull
    exact .inl ⟨.inl hfull, h⟩
  · next hroom =>
    rw [h.ids, List.length_map, not_le] at hroom
    split
    -- it fits and joins the selection
    · next hfits =>
      obtain ⟨htrust, hdisjoint, hbytes⟩ := fits_iff.1 hfits
      refine .inr ⟨?_, ?_, ?_, ?_, ?_, .inr hbytes, .inr ?_⟩
      · simp [h.ids]
      · simp [h.taken]
      · simp [h.bytes]
      · intro r hr
        rcases List.mem_append.1 hr with hold | hnew
        · exact h.seeded r hold
        · rw [List.mem_singleton.1 hnew]
          exact htrust
      · rw [List.map_append, List.pairwise_append]
        refine ⟨h.disjoint, List.pairwise_singleton _ _, ?_⟩
        intro a ha b hb nonce hnonce hother
        obtain ⟨r, hr, rfl⟩ := List.mem_map.1 ha
        obtain rfl : b = candidate.burn := by simpa using hb
        refine hdisjoint nonce hother ?_
        rw [h.taken, List.mem_flatMap]
        exact ⟨r, hr, hnonce⟩
      · rw [List.length_append, List.length_singleton]
        exact hroom
    -- it does not fit, and the test that failed is the conflict
    · next hfits =>
      refine .inl ⟨.inr ?_, h⟩
      by_contra hnone
      simp only [not_or, not_not, not_exists, not_and, not_lt] at hnone
      obtain ⟨htrust, hnonces, hbytes⟩ := hnone
      apply hfits
      rw [fits_iff]
      refine ⟨htrust, ?_, ?_⟩
      · intro nonce hnonce htaken
        rw [h.taken, List.mem_flatMap] at htaken
        obtain ⟨c, hc, hshared⟩ := htaken
        exact hnonces c hc nonce hnonce hshared
      · rw [h.bytes]
        exact hbytes

/-- The loop, by induction over the candidates: the chosen ones are among them, in order, and each one
left out conflicts with those chosen before it. -/
theorem Selected.foldl {seed : Return} {candidates : List Return} {selection : Selection}
    {chosen : List Return} (h : Selected policy seed selection chosen) :
    ∃ more, more.Sublist candidates ∧
      Selected policy seed (candidates.foldl (policy.selectStep seed.burn) selection)
        (chosen ++ more) ∧
      ∀ pre r post, candidates = pre ++ r :: post → r ∉ more →
        ∃ before after, more = before ++ after ∧ before.Sublist pre ∧ after.Sublist post ∧
          Conflicts policy seed (chosen ++ before) r := by
  -- by induction on the candidates
  induction candidates generalizing selection chosen with
  | nil =>
      refine ⟨[], List.Sublist.refl _, by simpa using h, ?_⟩
      intro pre r post hsplit
      cases pre <;> cases hsplit
  | cons candidate rest ih =>
      rcases @Selected.step _ _ candidate _ _ h with ⟨hconflict, hsame⟩ | hadded
      · obtain ⟨more, hsub, hmore, hleft⟩ := ih hsame
        refine ⟨more, hsub.cons candidate, hmore, ?_⟩
        intro pre r post hsplit hr
        cases pre with
        | nil =>
            -- the candidate itself was left out
            obtain ⟨rfl, rfl⟩ := List.cons.inj hsplit
            exact ⟨[], more, rfl, List.Sublist.refl _, hsub, by simpa using hconflict⟩
        | cons first pre =>
            obtain ⟨rfl, hrest⟩ := List.cons.inj hsplit
            obtain ⟨before, after, hmoreEq, hbefore, hafter, hconf⟩ := hleft pre r post hrest hr
            exact ⟨before, after, hmoreEq, hbefore.cons candidate, hafter, hconf⟩
      -- the candidate was chosen, so it stands before everything chosen later
      · obtain ⟨more, hsub, hmore, hleft⟩ := ih hadded
        refine ⟨candidate :: more, hsub.cons_cons candidate, ?_, ?_⟩
        · rw [List.append_cons]
          exact hmore
        · intro pre r post hsplit hr
          rw [List.mem_cons, not_or] at hr
          cases pre with
          | nil =>
              obtain ⟨rfl, rfl⟩ := List.cons.inj hsplit
              exact absurd rfl hr.1
          | cons first pre =>
              obtain ⟨rfl, hrest⟩ := List.cons.inj hsplit
              obtain ⟨before, after, rfl, hbefore, hafter, hconf⟩ := hleft pre r post hrest hr.2
              refine ⟨candidate :: before, after, rfl, hbefore.cons_cons candidate, hafter, ?_⟩
              rw [List.append_cons]
              exact hconf

/-- What is selected from due returns, the first of them included. -/
structure Selects (due chosen : List Return) : Prop where
  sublist : chosen.Sublist due
  first : chosen.head? = due.head?
  together : Together (chosen.map Return.burn)
  bytes : chosen.length = 1 ∨ (chosen.map fun r => r.burn.size).sum ≤ policy.limits.maxBytes
  size : chosen.length = 1 ∨ chosen.length ≤ policy.limits.maxSize
  leftOut : ∀ seed pre r post, due = seed :: pre ++ r :: post → r ∉ chosen →
    ∃ before after, chosen = before ++ after ∧ before.Sublist (seed :: pre) ∧ after.Sublist post ∧
      Conflicts policy seed before r

/-- **What `select` chooses.** -/
theorem select_selects {due : List Return} (hdue : due ≠ []) :
    ∃ chosen, chosen ≠ [] ∧ policy.select due = chosen.map (fun r => r.burn.id) ∧
      @Selects policy due chosen := by
  obtain ⟨seed, rest, rfl⟩ := List.exists_cons_of_ne_nil hdue
  have hfirst : Selected policy seed ⟨seed.burn.lockNonces, seed.burn.size, [seed.burn.id]⟩ [seed] :=
    ⟨rfl, by simp, by simp, by simp, by simp, .inl rfl, .inl rfl⟩
  obtain ⟨more, hsub, hmore, hleft⟩ := @Selected.foldl _ _ rest _ _ hfirst
  refine ⟨seed :: more, List.cons_ne_nil _ _, hmore.ids, ?_⟩
  constructor
  · exact hsub.cons_cons seed
  · rfl
  · refine ⟨?_, hmore.disjoint⟩
    intro a ha b hb
    obtain ⟨r, hr, rfl⟩ := List.mem_map.1 ha
    obtain ⟨r', hr', rfl⟩ := List.mem_map.1 hb
    exact (hmore.seeded r hr).trans (hmore.seeded r' hr').symm
  · rcases hmore.bounded with hone | hbytes
    · exact .inl (by rw [← List.singleton_append, hone]; rfl)
    · exact .inr (hmore.bytes ▸ hbytes)
  · rcases hmore.sized with hone | hsize
    · exact .inl (by rw [← List.singleton_append, hone]; rfl)
    · exact .inr hsize
  · intro seed' pre r post hsplit hr
    obtain ⟨rfl, hrest⟩ := List.cons.inj hsplit
    rw [List.mem_cons, not_or] at hr
    obtain ⟨before, after, rfl, hbefore, hafter, hconf⟩ := hleft pre r post hrest hr.2
    exact ⟨seed :: before, after, rfl, hbefore.cons_cons seed, hafter, hconf⟩

/-- A batch is what `select` chooses from the due returns. -/
theorem next_eq_batch {pending : List Return} {nowMs : Nat} {collect : Bool} {members : List String}
    (h : policy.next pending nowMs collect = .batch members) :
    (pending.filter fun r => r.isDue nowMs) ≠ [] ∧
      members = policy.select (pending.filter fun r => r.isDue nowMs) := by
  unfold next at h
  split at h
  · cases h
  · simp only at h
    split at h
    · cases h
    · next hdue =>
      split at h
      · cases h
      · exact ⟨hdue, (Decision.batch.inj h).symm⟩

/-- **What `next` forms.** The members are due returns, oldest first, at least one; their burns go
together, and more than one of them stay within the byte limit. -/
theorem next_batch {pending : List Return} {nowMs : Nat} {collect : Bool} {members : List String}
    (h : policy.next pending nowMs collect = .batch members) :
    ∃ chosen, chosen ≠ [] ∧ chosen.Sublist pending ∧
      members = chosen.map (fun r => r.burn.id) ∧ Together (chosen.map Return.burn) ∧
      (chosen.length = 1 ∨
        (chosen.map fun r => r.burn.size).sum ≤ policy.limits.maxBytes) := by
  obtain ⟨hdue, rfl⟩ := next_eq_batch h
  obtain ⟨chosen, hne, hids, hselects⟩ := @select_selects policy _ hdue
  exact ⟨chosen, hne, hselects.sublist.trans List.filter_sublist, hids, hselects.together,
    hselects.bytes⟩

/-! ## When a batch is selected -/

theorem isDue_mono {r : Return} {t t' : Nat} (h : t ≤ t') (hdue : r.isDue t = true) :
    r.isDue t' = true := by
  rw [Return.isDue, Option.all_eq_true] at hdue ⊢
  intro time htime
  exact decide_eq_true ((of_decide_eq_true (hdue time htime)).trans h)

/-- A return that is not due names a later time. -/
theorem not_isDue {r : Return} {t : Nat} (h : r.isDue t = false) :
    ∃ time, r.record.notBeforeMs = some time ∧ t < time := by
  cases hrecord : r.record.notBeforeMs with
  | none => simp [Return.isDue, hrecord] at h
  | some time => exact ⟨time, rfl, by simpa [Return.isDue, hrecord] using h⟩

/-- The earliest of some times. -/
theorem min?_getD_of_mem {times : List Nat} {t fallback : Nat} (h : t ∈ times) :
    times.min?.getD fallback ∈ times ∧ ∀ t' ∈ times, times.min?.getD fallback ≤ t' := by
  cases hmin : times.min? with
  | none => simp [List.min?_eq_none_iff.1 hmin] at h
  | some m => exact List.min?_eq_some_iff.1 hmin

/-- The time at which the collection window of the due returns closes. -/
def windowCloses (policy : BatchPolicy) (due : List Return) (nowMs : Nat) : Nat :=
  (due.map fun r => r.record.createdAtMs).min?.getD nowMs + policy.limits.idleWait

/-- Once the window of some due returns has closed, there is no more waiting. -/
theorem next_of_closed {pending : List Return} {nowMs t : Nat}
    (hnow : nowMs ≤ t) (hdue : (pending.filter fun r => r.isDue nowMs) ≠ [])
    (hclosed : windowCloses policy (pending.filter fun r => r.isDue nowMs) nowMs ≤ t)
    (collect : Bool) : ∃ members, policy.next pending t collect = .batch members := by
  obtain ⟨r, hr⟩ := List.exists_mem_of_ne_nil _ hdue
  have hsub : ∀ r ∈ pending.filter (fun r => r.isDue nowMs), r ∈ pending.filter fun r => r.isDue t := by
    intro r hr
    rw [List.mem_filter] at hr ⊢
    exact ⟨hr.1, isDue_mono hnow hr.2⟩
  have hpending : pending ≠ [] := List.ne_nil_of_mem (List.mem_filter.1 hr).1
  have hlater : (pending.filter fun r => r.isDue t) ≠ [] := List.ne_nil_of_mem (hsub r hr)
  -- more returns may be due by now, so the window closes no later
  have hwindow : windowCloses policy (pending.filter fun r => r.isDue t) t ≤
      windowCloses policy (pending.filter fun r => r.isDue nowMs) nowMs := by
    have hcreated := List.mem_map_of_mem (f := fun r : Return => r.record.createdAtMs) hr
    obtain ⟨hmem, -⟩ := @min?_getD_of_mem _ _ nowMs hcreated
    obtain ⟨first, hfirst, hfirstEq⟩ := List.mem_map.1 hmem
    have hmem' := List.mem_map_of_mem (f := fun r : Return => r.record.createdAtMs)
      (hsub first hfirst)
    have hle := (@min?_getD_of_mem _ _ t hmem').2 _ hmem'
    simp only [windowCloses, ← hfirstEq]
    omega
  refine ⟨policy.select (pending.filter fun r => r.isDue t), ?_⟩
  have hnot : ¬ (collect = true ∧ (pending.filter fun r => r.isDue t).length < policy.limits.maxSize ∧
      t < windowCloses policy (pending.filter fun r => r.isDue t) t) := by
    rintro ⟨-, -, hwait⟩
    omega
  simp only [next, if_neg hpending, if_neg hlater]
  exact if_neg hnot

/-- Once something is due, there is one more wait at most. -/
theorem next_of_due {pending : List Return} {nowMs : Nat}
    (hdue : (pending.filter fun r => r.isDue nowMs) ≠ []) (collect : Bool) :
    (∃ members, policy.next pending nowMs collect = .batch members) ∨
      ∃ t, policy.next pending nowMs collect = .waitUntil t ∧ nowMs < t ∧
        ∀ collect', ∃ members, policy.next pending t collect' = .batch members := by
  have hpending : pending ≠ [] := by
    rintro rfl
    exact hdue rfl
  by_cases hwait : collect = true ∧
      (pending.filter fun r => r.isDue nowMs).length < policy.limits.maxSize ∧
      nowMs < windowCloses policy (pending.filter fun r => r.isDue nowMs) nowMs
  · refine .inr ⟨_, ?_, hwait.2.2, next_of_closed hwait.2.2.le hdue le_rfl⟩
    simp only [next, if_neg hpending, if_neg hdue]
    exact if_pos hwait
  · refine .inl ⟨policy.select (pending.filter fun r => r.isDue nowMs), ?_⟩
    simp only [next, if_neg hpending, if_neg hdue]
    exact if_neg hwait

/-- While nothing is due, the earliest time is waited for, and then something is. -/
theorem next_of_none_due {pending : List Return} {nowMs : Nat} (hpending : pending ≠ [])
    (hdue : (pending.filter fun r => r.isDue nowMs) = []) (collect : Bool) :
    ∃ t, policy.next pending nowMs collect = .waitUntil t ∧ nowMs < t ∧
      (pending.filter fun r => r.isDue t) ≠ [] := by
  have hlater : ∀ r ∈ pending, ∃ time, r.record.notBeforeMs = some time ∧ nowMs < time := by
    intro r hr
    have hnone := List.filter_eq_nil_iff.1 hdue r hr
    exact not_isDue (by simpa using hnone)
  obtain ⟨r, hr⟩ := List.exists_mem_of_ne_nil _ hpending
  obtain ⟨time, htime, -⟩ := hlater r hr
  obtain ⟨hmem, -⟩ := @min?_getD_of_mem (pending.filterMap fun r => r.record.notBeforeMs) time nowMs
    (List.mem_filterMap.2 ⟨r, hr, htime⟩)
  obtain ⟨first, hfirst, hfirstEq⟩ := List.mem_filterMap.1 hmem
  obtain ⟨time', htime', hfuture⟩ := hlater first hfirst
  have hsame := Option.some.inj (htime'.symm.trans hfirstEq)
  refine ⟨_, by simp only [next, if_neg hpending, hdue, if_true], hsame ▸ hfuture, ?_⟩
  refine List.ne_nil_of_mem (List.mem_filter.2 ⟨hfirst, ?_⟩)
  simp [Return.isDue, hfirstEq]

/-- **Batch selection.** Only an empty list is idle. A wait ends in the future; asked again at its end,
the policy forms a batch, after one more wait at most. A batch is one or more due returns, each once and
the earliest accepted first, that go together and keep to the limits; a due return after the first is
left out only for a conflict with what was chosen before it. -/
theorem batch_selection (hsize : 1 ≤ policy.limits.maxSize) {pending : List Return}
    (horder : pending.Pairwise fun a b => a.seq < b.seq)
    (hdistinct : (pending.map fun r => r.burn.id).Nodup) (nowMs : Nat) (collect : Bool) :
    match policy.next pending nowMs collect with
    | .idle => pending = []
    | .waitUntil t => nowMs < t ∧ ∀ collect',
        (∃ members, policy.next pending t collect' = .batch members) ∨
          ∃ t', policy.next pending t collect' = .waitUntil t' ∧ t < t' ∧
            ∀ collect'', ∃ members, policy.next pending t' collect'' = .batch members
    | .batch members => ∃ chosen : List Return, members = chosen.map (fun r => r.burn.id) ∧
        chosen ≠ [] ∧ members.Nodup ∧
        (∀ r ∈ chosen, r ∈ pending ∧ r.isDue nowMs = true) ∧
        (∀ first ∈ chosen.head?, ∀ r ∈ pending, r.isDue nowMs = true → first.seq ≤ r.seq) ∧
        (∀ a ∈ chosen, ∀ b ∈ chosen, a.burn.trustBaseHash = b.burn.trustBaseHash) ∧
        (chosen.Pairwise fun a b => ∀ nonce ∈ a.burn.lockNonces, nonce ∉ b.burn.lockNonces) ∧
        chosen.length ≤ policy.limits.maxSize ∧
        (chosen.length = 1 ∨ (chosen.map fun r => r.burn.size).sum ≤ policy.limits.maxBytes) ∧
        ∀ r ∈ pending, r.isDue nowMs = true → r ∉ chosen → ∃ seed before after,
          chosen = before ++ after ∧ chosen.head? = some seed ∧ (∀ c ∈ before, c.seq < r.seq) ∧
            (∀ c ∈ after, r.seq < c.seq) ∧ Conflicts policy seed before r := by
  by_cases hpending : pending = []
  · subst hpending
    rfl
  · by_cases hdue : (pending.filter fun r => r.isDue nowMs) = []
    -- nothing is due: the wait ends when the first return becomes due
    · obtain ⟨t, hnext, hfuture, hlater⟩ := @next_of_none_due policy _ _ hpending hdue collect
      rw [hnext]
      exact ⟨hfuture, next_of_due hlater⟩
    · rcases @next_of_due policy _ _ hdue collect with ⟨members, hnext⟩ | ⟨t, hnext, hfuture, hbatch⟩
      -- a batch: what `select` chooses of the due returns, in their order
      · rw [hnext]
        obtain ⟨-, rfl⟩ := next_eq_batch hnext
        obtain ⟨chosen, hne, hids, h⟩ := @select_selects policy _ hdue
        have hsub : chosen.Sublist pending := h.sublist.trans List.filter_sublist
        have hdueOrder := horder.sublist (List.filter_sublist (p := fun r => r.isDue nowMs))
        refine ⟨chosen, hids, hne, ?_, ?_, ?_, ?_, ?_, ?_, h.bytes, ?_⟩
        · rw [hids]
          exact hdistinct.sublist (hsub.map _)
        · intro r hr
          exact List.mem_filter.1 (h.sublist.subset hr)
        · intro first hfirst r hr hrDue
          rw [h.first] at hfirst
          obtain ⟨rest, hrest⟩ := List.head?_eq_some_iff.1 hfirst
          have hmem : r ∈ first :: rest := hrest ▸ List.mem_filter.2 ⟨hr, hrDue⟩
          rw [hrest] at hdueOrder
          rcases List.mem_cons.1 hmem with rfl | hlater
          · exact le_rfl
          · exact ((List.pairwise_cons.1 hdueOrder).1 r hlater).le
        · intro a ha b hb
          exact h.together.trustBase _ (List.mem_map_of_mem ha) _ (List.mem_map_of_mem hb)
        · exact List.pairwise_map.1 h.together.disjoint
        · rcases h.size with hone | hle
          · exact hone ▸ hsize
          · exact hle
        -- a due return that was left out: split the due ones around it
        · intro r hr hrDue hout
          have hmem : r ∈ pending.filter fun r => r.isDue nowMs := List.mem_filter.2 ⟨hr, hrDue⟩
          obtain ⟨pre, post, hsplit⟩ := List.append_of_mem hmem
          cases pre with
          | nil =>
              -- the first due return is never left out
              have hhead : chosen.head? = some r := by rw [h.first, hsplit]; rfl
              exact absurd (List.mem_of_mem_head? hhead) hout
          | cons seed pre =>
              obtain ⟨before, after, hchosen, hbefore, hafter, hconf⟩ :=
                h.leftOut seed pre r post hsplit hout
              rw [hsplit, List.pairwise_append] at hdueOrder
              obtain ⟨-, htail, hcross⟩ := hdueOrder
              refine ⟨seed, before, after, hchosen, by rw [h.first, hsplit]; rfl, ?_, ?_, hconf⟩
              · intro c hc
                exact hcross c (hbefore.subset hc) r List.mem_cons_self
              · intro c hc
                exact (List.pairwise_cons.1 htail).1 c (hafter.subset hc)
      -- some are due, but the window is still open
      · rw [hnext]
        exact ⟨hfuture, fun collect' => .inl (hbatch collect')⟩

/-- A due return makes a batch of its own, when the policy does not collect. -/
theorem next_single {policy : BatchPolicy} {a : Return} {nowMs : Nat} (ha : a.isDue nowMs = true) :
    policy.next [a] nowMs false = .batch [a.burn.id] := by
  have hdue : [a].filter (fun r => r.isDue nowMs) = [a] := by
    simp [ha]
  have hselect : policy.select [a] = [a.burn.id] := by
    simp [select]
  simp [next, hdue, hselect]

/-- Two due returns that go together fill a batch of two. -/
theorem next_pair {policy : BatchPolicy} {a b : Return} {nowMs : Nat} (collect : Bool)
    (ha : a.isDue nowMs = true) (hb : b.isDue nowMs = true) (hsize : policy.limits.maxSize = 2)
    (hfits : policy.fits a.burn ⟨a.burn.lockNonces, a.burn.size, [a.burn.id]⟩ b.burn = true) :
    policy.next [a, b] nowMs collect = .batch [a.burn.id, b.burn.id] := by
  have hdue : [a, b].filter (fun r => r.isDue nowMs) = [a, b] := by
    simp [ha, hb]
  have hselect : policy.select [a, b] = [a.burn.id, b.burn.id] := by
    simp [select, selectStep, hfits, hsize]
  simp [next, hdue, hselect, hsize]

/-- A queued return with one lock. -/
def queuedReturn (seq : Nat) (id : String) (nonce : UInt64) : Return where
  seq := seq
  burn := ⟨id, "0x", [nonce], ⟨id, "0x", "0x", "0x", "0x", "0x"⟩, [0]⟩
  record := ReturnRecord.queued id (ByteArr.zero 32) 0

/-- Three returns, the last with the lock of the first. -/
theorem batch_selection_sample :
    let policy : BatchPolicy := ⟨⟨4, 100, 10⟩⟩
    let pending := [queuedReturn 1 "a" 7, queuedReturn 2 "b" 8, queuedReturn 3 "c" 7]
    policy.next pending 5 true = .waitUntil 10 ∧ policy.next pending 10 true = .batch ["a", "b"] ∧
      5 < 10 ∧ ["a", "b"].Nodup := by
  intro policy pending
  have hwait : policy.next pending 5 true = .waitUntil 10 := by rfl
  have hbatch : policy.next pending 10 true = .batch ["a", "b"] := by rfl
  have horder : pending.Pairwise fun a b => a.seq < b.seq := by decide
  have hdistinct : (pending.map fun r => r.burn.id).Nodup := by decide
  have hfirst := @batch_selection policy (by decide) pending horder hdistinct 5 true
  have hlast := @batch_selection policy (by decide) pending horder hdistinct 10 true
  rw [hwait] at hfirst
  rw [hbatch] at hlast
  obtain ⟨chosen, -, -, hnodup, -⟩ := hlast
  exact ⟨hwait, hbatch, hfirst.1, hnodup⟩

end BatchPolicy

end UnicityBridge.Service
