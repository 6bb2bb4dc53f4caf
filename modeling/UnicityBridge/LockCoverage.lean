import UnicityBridge.Lib.Tiling
import UnicityBridge.LockLookup

/-!
# A locked deposit is found

The runs of the loops of `lock-lookup.ts`, one constructor for each way that a turn can go, and what
follows by induction: the requests of a search are bounded whatever the node refuses, the windows that
were served tile the blocks from the deployment to the tip when nothing was found, and a node that
reports the vault's logs shows the lock in them.

Only the windows for any account are counted as served here; the pass over the signer's own locks only
shortens the search.
-/

set_option autoImplicit false

namespace UnicityBridge.BridgePlugin

open UnicityBridge.Lib UnicityBridge.Lib.Dialogue

/-! ## Runs of `scan` -/

/-- The node was asked for a window, once more if that was the rate limit, and answered in the end. -/
inductive ReadRun (filter : LogFilter) : Trace → Result (List SourceLogEntry) → Prop
  | once (answer : Result (List SourceLogEntry)) : ReadRun filter [⟨.getLogs filter, answer⟩] answer
  | twice (err : String) (answer : Result (List SourceLogEntry)) :
      ReadRun filter [⟨.getLogs filter, .error err⟩, ⟨.getLogs filter, answer⟩] answer

theorem ends_query {question : Question} {trace : Trace} {result : Reply question} :
    Session.Ends (query question) trace result ↔ trace = [⟨question, result⟩] := by
  constructor
  · intro h
    obtain ⟨answer, rest, rfl, hrest⟩ := ends_ask.1 h
    cases hrest
    rfl
  · rintro rfl
    exact .ask (.done result)

theorem readRun_of_ends {filter : LogFilter} {trace : Trace} {result : Result (List SourceLogEntry)}
    (h : Session.Ends (readLogs filter) trace result) : ReadRun filter trace result := by
  rcases Session.ends_bind.1 h with ⟨error, rfl, hattempt⟩ | ⟨answer, front, back, rfl, hattempt, hback⟩
  · obtain ⟨_, ⟨⟩, -⟩ := Session.ends_attempt.1 hattempt
  obtain ⟨_, ⟨⟩, hquery⟩ := Session.ends_attempt.1 hattempt
  obtain rfl := ends_query.1 hquery
  cases answer with
  | ok logs =>
      obtain ⟨rfl, rfl⟩ := Session.ends_pure.1 hback
      exact .once (.ok logs)
  | error err =>
      dsimp only at hback
      split at hback
      · obtain rfl := ends_query.1 hback
        exact .twice err result
      · obtain ⟨rfl, rfl⟩ := Session.ends_throw.1 hback
        exact .once (.error err)

section Scan

variable {keccak256 : Bytes → Bytes32} {address : String} {topics : List (Option String)}
  {tokenId : String} {tip : Int}

/-- The topics of the locks of an account, or of any. -/
def lockTopics (keccak256 : Bytes → Bytes32) (account : Option String) : List (Option String) :=
  [some (LOCK_EVENT_TOPIC0 keccak256), none, account]

/-- The filter of a window of a scan. -/
def windowFilter (address : String) (topics : List (Option String)) (tip fromBlock : Int)
    (window : Window) : LogFilter :=
  ⟨address, topics, fromBlock, earlier (fromBlock + window.blocks - 1) tip⟩

variable (keccak256 address topics tokenId tip) in
/-- A run of `scan` from a block on. -/
inductive ScanRun : Int → Window → Trace → Result (Option String) → Prop
  | past {fromBlock : Int} {window : Window} (h : tip < fromBlock) :
      ScanRun fromBlock window [] (.ok none)
  | refused {fromBlock : Int} {window : Window} {trace : Trace} {err : String} (h : fromBlock ≤ tip)
      (hread : ReadRun (windowFilter address topics tip fromBlock window) trace (.error err))
      (hsmallest : window.blocks ≤ SMALLEST_WINDOW) : ScanRun fromBlock window trace (.error err)
  | halved {fromBlock : Int} {window : Window} {front back : Trace} {err : String}
      {result : Result (Option String)} (h : fromBlock ≤ tip)
      (hread : ReadRun (windowFilter address topics tip fromBlock window) front (.error err))
      (hsmallest : ¬ window.blocks ≤ SMALLEST_WINDOW)
      (hback : ScanRun fromBlock (window.half hsmallest) back result) :
      ScanRun fromBlock window (front ++ back) result
  | malformed {fromBlock : Int} {window : Window} {trace : Trace} {logs : List SourceLogEntry}
      {err : String} (h : fromBlock ≤ tip)
      (hread : ReadRun (windowFilter address topics tip fromBlock window) trace (.ok logs))
      (hfind : findHit keccak256 tokenId logs = .error err) : ScanRun fromBlock window trace (.error err)
  | hit {fromBlock : Int} {window : Window} {trace : Trace} {logs : List SourceLogEntry}
      {log : SourceLogEntry} (h : fromBlock ≤ tip)
      (hread : ReadRun (windowFilter address topics tip fromBlock window) trace (.ok logs))
      (hfind : findHit keccak256 tokenId logs = .ok (some log)) :
      ScanRun fromBlock window trace (.ok (some log.transactionHash))
  | served {fromBlock : Int} {window : Window} {front back : Trace} {logs : List SourceLogEntry}
      {result : Result (Option String)} (h : fromBlock ≤ tip)
      (hread : ReadRun (windowFilter address topics tip fromBlock window) front (.ok logs))
      (hfind : findHit keccak256 tokenId logs = .ok none)
      (hback : ScanRun ((windowFilter address topics tip fromBlock window).toBlock + 1) window back
        result) : ScanRun fromBlock window (front ++ back) result

/-- Every run of the loop is one of these. -/
theorem scanRun_of_ends {fromBlock : Int} {window : Window} {trace : Trace}
    {result : Result (Option String)}
    (h : Session.Ends (scanFrom keccak256 address topics tokenId tip fromBlock window) trace result) :
    ScanRun keccak256 address topics tokenId tip fromBlock window trace result := by
  induction fromBlock, window using scanFrom.induct tip generalizing trace with
  | case1 fromBlock window hrange toBlock hhalf =>
      rename_i hnext
      rw [scanFrom, dif_pos hrange] at h
      rcases Session.ends_bind.1 h with ⟨_, -, hread⟩ | ⟨answer, front, back, rfl, hread, hback⟩
      · obtain ⟨_, ⟨⟩, -⟩ := Session.ends_attempt.1 hread
      obtain ⟨_, ⟨⟩, hread⟩ := Session.ends_attempt.1 hread
      replace hread := readRun_of_ends hread
      cases answer with
      | error err =>
          dsimp only at hback
          split at hback
          · next hsmallest =>
            obtain ⟨rfl, rfl⟩ := Session.ends_throw.1 hback
            rw [List.append_nil]
            exact .refused hrange hread hsmallest
          · next hsmallest => exact .halved hrange hread hsmallest (hhalf hsmallest hback)
      | ok logs =>
          rcases Session.ends_bind.1 hback with ⟨err, rfl, hlogs⟩ | ⟨found, _, rest, rfl, hlogs, hrest⟩
          · obtain ⟨rfl, hfind⟩ := Session.ends_lift.1 hlogs
            rw [List.append_nil]
            exact .malformed hrange hread hfind
          · obtain ⟨rfl, hfind⟩ := Session.ends_lift.1 hlogs
            cases found with
            | some log =>
                obtain ⟨rfl, rfl⟩ := Session.ends_pure.1 hrest
                rw [List.append_nil, List.append_nil]
                exact .hit hrange hread hfind
            | none => exact .served hrange hread hfind (hnext hrest)
  | case2 fromBlock window hrange =>
      rw [scanFrom, dif_neg hrange] at h
      obtain ⟨rfl, rfl⟩ := Session.ends_pure.1 h
      exact .past (not_le.1 hrange)

/-! ## Requests -/

/-- How often a window is halved at most. -/
def halvings (blocks : Nat) : Nat :=
  if blocks ≤ SMALLEST_WINDOW then 0 else halvings (blocks / 2) + 1
decreasing_by
  unfold SMALLEST_WINDOW at *
  omega

theorem ReadRun.length_le {filter : LogFilter} {trace : Trace} {answer : Result (List SourceLogEntry)}
    (h : ReadRun filter trace answer) : trace.length ≤ 2 := by
  cases h with
  | once => exact Nat.le_succ 1
  | twice => exact le_rfl

/-- A scan asks twice at most for each block and each halving. -/
theorem ScanRun.length_le {fromBlock : Int} {window : Window} {trace : Trace}
    {result : Result (Option String)}
    (h : ScanRun keccak256 address topics tokenId tip fromBlock window trace result) :
    trace.length ≤ 2 * ((tip + 1 - fromBlock).toNat + halvings window.blocks) := by
  induction h with
  | past h => exact Nat.zero_le _
  | refused h hread hsmallest =>
      have hlength := hread.length_le
      omega
  | malformed h hread hfind =>
      have hlength := hread.length_le
      omega
  | hit h hread hfind =>
      have hlength := hread.length_le
      omega
  | halved h hread hsmallest hback ih =>
      have hlength := hread.length_le
      rw [List.length_append, halvings, if_neg hsmallest]
      change _ ≤ 2 * (_ + halvings (_ / 2)) at ih
      omega
  | @served fromBlock window _ _ _ _ h hread hfind hback ih =>
      have hlength := hread.length_le
      have hpositive := window.positive
      have hnext : fromBlock ≤ (windowFilter address topics tip fromBlock window).toBlock := by
        unfold windowFilter earlier
        dsimp only
        split <;> omega
      rw [List.length_append]
      omega

/-! ## Windows -/

/-- The window of a request for these logs, if it was served. -/
def servedWindow (address : String) (topics : List (Option String)) :
    Exchange Question Reply → Option (Int × Int)
  | ⟨.getLogs filter, .ok _⟩ =>
      if filter.address = address ∧ filter.topics = topics then some (filter.fromBlock, filter.toBlock)
      else none
  | _ => none

/-- The node answered the request with these logs. -/
def Serves (trace : Trace) (filter : LogFilter) (logs : List SourceLogEntry) : Prop :=
  (⟨.getLogs filter, .ok logs⟩ : Exchange Question Reply) ∈ trace

/-- The windows of these logs that the node served, in order. -/
def servedWindows (address : String) (topics : List (Option String)) (trace : Trace) :
    List (Int × Int) :=
  trace.filterMap (servedWindow address topics)

theorem servedWindows_append (address : String) (topics : List (Option String)) (front back : Trace) :
    servedWindows address topics (front ++ back) =
      servedWindows address topics front ++ servedWindows address topics back :=
  List.filterMap_append

theorem exists_serves {address : String} {topics : List (Option String)} {trace : Trace}
    {window : Int × Int} (h : window ∈ servedWindows address topics trace) :
    ∃ filter logs, Serves trace filter logs ∧ filter.address = address ∧ filter.topics = topics ∧
      window = (filter.fromBlock, filter.toBlock) := by
  obtain ⟨⟨question, answer⟩, hmem, hwindow⟩ := List.mem_filterMap.1 h
  cases question with
  | getLogs filter =>
      cases answer with
      | ok logs =>
          obtain ⟨⟨haddress, htopics⟩, hwindow⟩ := Option.ite_none_right_eq_some.1 hwindow
          exact ⟨filter, logs, hmem, haddress, htopics, (Option.some.inj hwindow).symm⟩
      | error => cases hwindow
  | _ => cases hwindow

theorem ReadRun.servedWindows_ok {filter : LogFilter} {trace : Trace} {logs : List SourceLogEntry}
    (h : ReadRun filter trace (.ok logs)) :
    servedWindows filter.address filter.topics trace = [(filter.fromBlock, filter.toBlock)] := by
  have hwindow : servedWindow filter.address filter.topics ⟨.getLogs filter, .ok logs⟩ =
      some (filter.fromBlock, filter.toBlock) := if_pos ⟨rfl, rfl⟩
  cases h with
  | once =>
      rw [servedWindows, List.filterMap_cons_some hwindow, List.filterMap_nil]
  | twice err =>
      rw [servedWindows, List.filterMap_cons_none rfl, List.filterMap_cons_some hwindow,
        List.filterMap_nil]

theorem ReadRun.servedWindows_error {filter : LogFilter} {trace : Trace} {err : String}
    (h : ReadRun filter trace (.error err)) (address : String) (topics : List (Option String)) :
    servedWindows address topics trace = [] := by
  cases h with
  | once | twice => rfl

theorem ReadRun.servedWindows_other {filter : LogFilter} {trace : Trace}
    {answer : Result (List SourceLogEntry)} (h : ReadRun filter trace answer)
    {topics : List (Option String)} (htopics : filter.topics ≠ topics) (address : String) :
    servedWindows address topics trace = [] := by
  cases h with
  | once | twice => cases answer <;> simp [servedWindows, servedWindow, htopics]

theorem le_toBlock {fromBlock : Int} (h : fromBlock ≤ tip) (window : Window) :
    fromBlock ≤ (windowFilter address topics tip fromBlock window).toBlock ∧
      (windowFilter address topics tip fromBlock window).toBlock ≤ tip := by
  have hpositive := window.positive
  unfold windowFilter earlier
  dsimp only
  split <;> omega

/-- **A scan that finds nothing** was served windows that tile its range. -/
theorem ScanRun.tiles {fromBlock : Int} {window : Window} {trace : Trace}
    {result : Result (Option String)}
    (h : ScanRun keccak256 address topics tokenId tip fromBlock window trace result)
    (hresult : result = .ok none) :
    Tiles (servedWindows address topics trace) fromBlock tip := by
  induction h with
  | past h => exact h
  | refused | malformed | hit => cases hresult
  | halved h hread hsmallest hback ih =>
      rw [servedWindows_append, hread.servedWindows_error, List.nil_append]
      exact ih hresult
  | @served fromBlock window _ _ _ _ h hread hfind hback ih =>
      have hserved := hread.servedWindows_ok
      obtain ⟨hfirst, hlast⟩ := @le_toBlock address topics tip fromBlock h window
      change servedWindows address topics _ = _ at hserved
      rw [servedWindows_append, hserved]
      exact ⟨rfl, hfirst, hlast, ih hresult⟩

theorem ScanRun.servedWindows_other {fromBlock : Int} {window : Window} {trace : Trace}
    {result : Result (Option String)}
    (h : ScanRun keccak256 address topics tokenId tip fromBlock window trace result)
    {other : List (Option String)} (hother : topics ≠ other) :
    servedWindows address other trace = [] := by
  induction h with
  | past => rfl
  | refused h hread | malformed h hread | hit h hread => exact hread.servedWindows_other hother address
  | halved h hread hsmallest hback ih | served h hread hfind hback ih =>
      rw [servedWindows_append, hread.servedWindows_other hother, ih, List.nil_append]

/-! ## Outcomes -/

/-- The node names the transactions of its logs. -/
def Named (trace : Trace) : Prop :=
  ∀ filter logs, Serves trace filter logs → ∀ log ∈ logs, log.transactionHash ≠ ""

/-- The node refused a window that is not halved again. -/
def RefusesSmallest (trace : Trace) : Prop :=
  ∃ filter err, (⟨.getLogs filter, .error err⟩ : Exchange Question Reply) ∈ trace ∧
    filter.toBlock - filter.fromBlock < SMALLEST_WINDOW

variable (keccak256 tokenId) in
/-- What the answers say about the result of a search for a transaction. -/
def Outcome (trace : Trace) : Result (Option String) → Prop
  | .ok (some txid) => ∃ filter logs log, Serves trace filter logs ∧
      findHit keccak256 tokenId logs = .ok (some log) ∧ log.transactionHash = txid
  | .ok none => Named trace → ∀ filter logs, Serves trace filter logs →
      findHit keccak256 tokenId logs = .ok none
  | .error _ => RefusesSmallest trace ∨ ∃ filter logs err, Serves trace filter logs ∧
      findHit keccak256 tokenId logs = .error err

theorem ReadRun.mem {filter : LogFilter} {trace : Trace} {answer : Result (List SourceLogEntry)}
    (h : ReadRun filter trace answer) :
    (⟨.getLogs filter, answer⟩ : Exchange Question Reply) ∈ trace := by
  cases h with
  | once => exact List.mem_cons_self
  | twice => exact List.mem_cons_of_mem _ List.mem_cons_self

theorem ReadRun.serves_iff {filter other : LogFilter} {trace : Trace}
    {answer : Result (List SourceLogEntry)} {logs : List SourceLogEntry}
    (h : ReadRun filter trace answer) :
    Serves trace other logs ↔ other = filter ∧ answer = .ok logs := by
  cases h with
  | once answer =>
      constructor
      · intro hserves
        cases List.mem_singleton.1 hserves
        exact ⟨rfl, rfl⟩
      · rintro ⟨rfl, rfl⟩
        exact List.mem_cons_self
  | twice err answer =>
      constructor
      · intro hserves
        rcases List.mem_cons.1 hserves with heq | hserves
        · cases heq
        · cases List.mem_singleton.1 hserves
          exact ⟨rfl, rfl⟩
      · rintro ⟨rfl, rfl⟩
        exact List.mem_cons_of_mem _ List.mem_cons_self

theorem Named.append {front back : Trace} (h : Named (front ++ back)) : Named front ∧ Named back :=
  ⟨fun filter logs hserves => h filter logs (List.mem_append_left back hserves),
    fun filter logs hserves => h filter logs (List.mem_append_right front hserves)⟩

/-- A part without a transaction found none, when the node names them. -/
theorem Outcome.eq_none {trace : Trace} {found : Option String}
    (h : Outcome keccak256 tokenId trace (.ok found)) (hfound : ¬ truthy found = true)
    (hnamed : Named trace) : found = none := by
  cases found with
  | none => rfl
  | some txid =>
      obtain ⟨filter, logs, log, hserves, hfind, rfl⟩ := h
      have hname := hnamed filter logs hserves log (findM?_some hfind).1
      exact absurd (decide_eq_true hname) hfound

/-- The outcome of a search that goes on behind a part without a transaction. -/
theorem Outcome.orElse {front back : Trace} {found : Option String} {result : Result (Option String)}
    (hfront : Outcome keccak256 tokenId front (.ok found)) (hfound : ¬ truthy found = true)
    (hback : Outcome keccak256 tokenId back result) :
    Outcome keccak256 tokenId (front ++ back) result := by
  cases result with
  | ok last =>
      cases last with
      | some txid =>
          obtain ⟨filter, logs, log, hserves, hlog⟩ := hback
          exact ⟨filter, logs, log, List.mem_append_right front hserves, hlog⟩
      | none =>
          intro hnamed filter logs hserves
          obtain rfl := hfront.eq_none hfound hnamed.append.1
          rcases List.mem_append.1 hserves with hserves | hserves
          · exact hfront hnamed.append.1 filter logs hserves
          · exact hback hnamed.append.2 filter logs hserves
  | error err =>
      rcases hback with ⟨filter, err, hrefused, hsmall⟩ | ⟨filter, logs, err, hserves, hfind⟩
      · exact .inl ⟨filter, err, List.mem_append_right front hrefused, hsmall⟩
      · exact .inr ⟨filter, logs, err, List.mem_append_right front hserves, hfind⟩

theorem ReadRun.outcome_none {filter : LogFilter} {trace : Trace} {answer : Result (List SourceLogEntry)}
    (h : ReadRun filter trace answer)
    (hnone : ∀ logs, answer = .ok logs → findHit keccak256 tokenId logs = .ok none) :
    Outcome keccak256 tokenId trace (.ok none) := by
  intro _ other logs hserves
  obtain ⟨-, hanswer⟩ := h.serves_iff.1 hserves
  exact hnone logs hanswer

/-- Logs of locks at an address are asked for, and nothing else. -/
def Asks (keccak256 : Bytes → Bytes32) (address : String) (trace : Trace) : Prop :=
  ∀ exchange ∈ trace, ∃ filter account, exchange.1 = .getLogs filter ∧ filter.address = address ∧
    filter.topics = lockTopics keccak256 account

theorem Asks.append {front back : Trace} (hfront : Asks keccak256 address front)
    (hback : Asks keccak256 address back) : Asks keccak256 address (front ++ back) :=
  List.forall_mem_append.2 ⟨hfront, hback⟩

theorem ReadRun.asks {filter : LogFilter} {trace : Trace} {answer : Result (List SourceLogEntry)}
    (h : ReadRun filter trace answer) {account : Option String}
    (htopics : filter.topics = lockTopics keccak256 account) :
    Asks keccak256 filter.address trace := by
  cases h with
  | once => exact List.forall_mem_singleton.2 ⟨filter, account, rfl, rfl, htopics⟩
  | twice =>
      exact List.forall_mem_cons.2 ⟨⟨filter, account, rfl, rfl, htopics⟩,
        List.forall_mem_singleton.2 ⟨filter, account, rfl, rfl, htopics⟩⟩

theorem ScanRun.asks {account : Option String} {fromBlock : Int} {window : Window} {trace : Trace}
    {result : Result (Option String)}
    (h : ScanRun keccak256 address (lockTopics keccak256 account) tokenId tip fromBlock window trace
      result) : Asks keccak256 address trace := by
  induction h with
  | past => exact fun _ hexchange => absurd hexchange List.not_mem_nil
  | refused h hread | malformed h hread | hit h hread => exact hread.asks rfl
  | halved h hread hsmallest hback ih | served h hread hfind hback ih =>
      exact (hread.asks rfl).append ih

/-- The outcome of a scan. -/
theorem ScanRun.outcome {fromBlock : Int} {window : Window} {trace : Trace}
    {result : Result (Option String)}
    (h : ScanRun keccak256 address topics tokenId tip fromBlock window trace result) :
    Outcome keccak256 tokenId trace result := by
  induction h with
  | past h => exact fun _ _ _ hserves => absurd hserves List.not_mem_nil
  | @refused fromBlock window trace err h hread hsmallest =>
      refine .inl ⟨_, err, hread.mem, ?_⟩
      unfold windowFilter earlier
      dsimp only
      split <;> omega
  | malformed h hread hfind => exact .inr ⟨_, _, _, hread.mem, hfind⟩
  | hit h hread hfind => exact ⟨_, _, _, hread.mem, hfind, rfl⟩
  | halved h hread hsmallest hback ih =>
      exact (hread.outcome_none fun _ hlogs => by cases hlogs).orElse Bool.false_ne_true ih
  | served h hread hfind hback ih =>
      refine (hread.outcome_none fun _ hlogs => ?_).orElse Bool.false_ne_true ih
      cases hlogs
      exact hfind

end Scan

/-! ## `locate` -/

section Locate

variable {keccak256 : Bytes → Bytes32} {vault tokenId : String}

theorem ends_orElse {first second : Search (Option String)} {trace : Trace}
    {result : Result (Option String)}
    (h : Session.Ends (first >>= fun txid => if truthy txid = true then pure txid else second) trace
      result) :
    (Session.Ends first trace result ∧ result ≠ .ok none) ∨
      ∃ found front back, trace = front ++ back ∧ Session.Ends first front (.ok found) ∧
        ¬ truthy found = true ∧ Session.Ends second back result := by
  rcases Session.ends_bind.1 h with ⟨error, rfl, hfirst⟩ | ⟨found, front, back, rfl, hfirst, hback⟩
  · exact .inl ⟨hfirst, by simp⟩
  · split at hback
    · next hfound =>
      obtain ⟨rfl, rfl⟩ := Session.ends_pure.1 hback
      rw [List.append_nil]
      refine .inl ⟨hfirst, ?_⟩
      rintro ⟨⟩
      cases hfound
    · next hfound => exact .inr ⟨found, front, back, rfl, hfirst, hfound, hback⟩

theorem halvings_WINDOW : halvings WINDOW.blocks = 4 := by
  simp [halvings, WINDOW, SMALLEST_WINDOW]

/-- What a run of a scan for the locks of an account says. -/
theorem scanRun_of_scan {account : Option String} {earliest tip : Int} {trace : Trace}
    {result : Result (Option String)}
    (h : Session.Ends (scan keccak256 vault (lockTopics keccak256 account) tokenId earliest tip) trace
      result) :
    ScanRun keccak256 vault (lockTopics keccak256 account) tokenId tip earliest WINDOW trace result :=
  scanRun_of_ends h

variable (keccak256 vault tokenId) in
/-- A search over the locks of any account between two blocks. -/
structure Searches (first last : Int) (trace : Trace) (result : Result (Option String)) : Prop where
  outcome : Outcome keccak256 tokenId trace result
  asks : Asks keccak256 vault trace
  /-- When it found nothing, the windows served for any account tile the blocks. -/
  covers : Named trace → result = .ok none →
    ∃ windows : List (Int × Int),
      windows.Perm (servedWindows vault (lockTopics keccak256 none) trace) ∧ Tiles windows first last

/-- **The passes around the start** of the deposit: the second is for any account. -/
theorem searches_aroundStart {sender : String} {earliest tip : Int} {trace : Trace}
    {result : Result (Option String)}
    (h : Session.Ends (aroundStart keccak256 vault tokenId earliest tip [some sender, none]) trace
      result) :
    Searches keccak256 vault tokenId earliest tip trace result ∧
      trace.length ≤ 4 * ((tip + 1 - earliest).toNat + 4) := by
  have htopics : lockTopics keccak256 (some sender) ≠ lockTopics keccak256 none := by
    simp [lockTopics]
  rw [aroundStart, aroundStart, aroundStart] at h
  rcases ends_orElse h with ⟨hfirst, hne⟩ | ⟨found, front, rest, rfl, hfirst, hfound, hrest⟩
  · have hrun := scanRun_of_scan hfirst
    have hlength := hrun.length_le
    rw [halvings_WINDOW] at hlength
    exact ⟨⟨hrun.outcome, hrun.asks, fun _ hnone => absurd hnone hne⟩, by omega⟩
  have hrun := scanRun_of_scan hfirst
  have hlength := hrun.length_le
  rw [halvings_WINDOW] at hlength
  rcases ends_orElse hrest with ⟨hsecond, hne⟩ | ⟨other, front', rest', rfl, hsecond, hother, hrest⟩
  · have hrun' := scanRun_of_scan hsecond
    have hlength' := hrun'.length_le
    rw [halvings_WINDOW] at hlength'
    refine ⟨⟨hrun.outcome.orElse hfound hrun'.outcome, hrun.asks.append hrun'.asks,
      fun _ hnone => absurd hnone hne⟩, ?_⟩
    rw [List.length_append]
    omega
  · obtain ⟨rfl, rfl⟩ := Session.ends_pure.1 hrest
    have hrun' := scanRun_of_scan hsecond
    have hlength' := hrun'.length_le
    rw [halvings_WINDOW] at hlength'
    rw [List.append_nil]
    refine ⟨⟨hrun.outcome.orElse hfound ?_, hrun.asks.append hrun'.asks, fun hnamed _ => ?_⟩, ?_⟩
    · intro hnamed
      obtain rfl := hrun'.outcome.eq_none hother hnamed
      exact hrun'.outcome hnamed
    · obtain rfl := hrun'.outcome.eq_none hother hnamed.append.2
      refine ⟨_, ?_, hrun'.tiles rfl⟩
      rw [servedWindows_append, hrun.servedWindows_other htopics, List.nil_append]
    · rw [List.length_append]
      omega

/-- **Further back**, every range ends where the one before it began. -/
theorem searches_furtherBack {floor toBlock span : Int} {hspan : floor ≤ toBlock → 0 < span}
    {trace : Trace} {result : Result (Option String)}
    (h : Session.Ends (furtherBack keccak256 vault tokenId floor toBlock span hspan) trace result) :
    Searches keccak256 vault tokenId floor toBlock trace result ∧
      trace.length ≤ 10 * (toBlock + 1 - floor).toNat := by
  induction toBlock, span, hspan using furtherBack.induct floor generalizing trace with
  | case1 toBlock span hspan hrange fromBlock =>
      rename_i ih
      rw [furtherBack, dif_pos hrange] at h
      have hpositive := hspan hrange
      have hfrom : floor ≤ fromBlock ∧ fromBlock ≤ toBlock := by
        unfold fromBlock later
        split <;> omega
      rcases ends_orElse h with ⟨hscan, hne⟩ | ⟨found, front, back, rfl, hscan, hfound, hback⟩
      · have hrun := scanRun_of_scan hscan
        have hlength := hrun.length_le
        rw [halvings_WINDOW] at hlength
        exact ⟨⟨hrun.outcome, hrun.asks, fun _ hnone => absurd hnone hne⟩, by omega⟩
      · have hrun := scanRun_of_scan hscan
        have hlength := hrun.length_le
        rw [halvings_WINDOW] at hlength
        obtain ⟨hsearches, hlength'⟩ := ih hback
        refine ⟨⟨hrun.outcome.orElse hfound hsearches.outcome, hrun.asks.append hsearches.asks,
          fun hnamed hnone => ?_⟩, ?_⟩
        · obtain rfl := hrun.outcome.eq_none hfound hnamed.append.1
          obtain ⟨windows, hperm, htiles⟩ := hsearches.covers hnamed.append.2 hnone
          refine ⟨windows ++ servedWindows vault (lockTopics keccak256 none) front, ?_, ?_⟩
          · rw [servedWindows_append]
            exact (List.perm_append_comm).trans (hperm.append_left _)
          · refine htiles.append ?_ (by omega) (by omega)
            rw [Int.sub_add_cancel]
            exact hrun.tiles rfl
        · rw [List.length_append]
          omega
  | case2 toBlock span hspan hrange =>
      rw [furtherBack, dif_neg hrange] at h
      obtain ⟨rfl, rfl⟩ := Session.ends_pure.1 h
      exact ⟨⟨fun _ _ _ hserves => absurd hserves List.not_mem_nil,
        fun _ hexchange => absurd hexchange List.not_mem_nil,
        fun _ _ => ⟨[], List.Perm.nil, not_le.1 hrange⟩⟩, Nat.zero_le _⟩

/-- A scan over some blocks starts with the largest window. -/
theorem ScanRun.starts {address : String} {topics : List (Option String)} {tip fromBlock : Int}
    {window : Window} {trace : Trace} {result : Result (Option String)}
    (h : ScanRun keccak256 address topics tokenId tip fromBlock window trace result)
    (hreaches : fromBlock ≤ tip) : ∃ answer : Result (List SourceLogEntry),
      (⟨.getLogs (windowFilter address topics tip fromBlock window), answer⟩ :
        Exchange Question Reply) ∈ trace := by
  cases h with
  | past h => exact absurd hreaches (not_le.2 h)
  | refused _ hread | malformed _ hread | hit _ hread => exact ⟨_, hread.mem⟩
  | halved _ hread | served _ hread => exact ⟨_, List.mem_append_left _ hread.mem⟩

/-- A search starts with the signer's own locks. -/
theorem locate_starts {sender : String} {blocks : Blocks} {trace : Trace}
    {result : Result (Option String)} (hreaches : blocks.earliest ≤ blocks.tip)
    (h : Session.Ends (locate keccak256 vault tokenId sender blocks) trace result) :
    ∃ answer : Result (List SourceLogEntry),
      (⟨.getLogs (windowFilter vault (lockTopics keccak256 (some sender)) blocks.tip blocks.earliest
        WINDOW), answer⟩ : Exchange Question Reply) ∈ trace := by
  have haround {front : Trace} {found : Result (Option String)}
      (haround : Session.Ends (aroundStart keccak256 vault tokenId blocks.earliest blocks.tip
        [some sender, none]) front found) : ∃ answer : Result (List SourceLogEntry),
        (⟨.getLogs (windowFilter vault (lockTopics keccak256 (some sender)) blocks.tip blocks.earliest
          WINDOW), answer⟩ : Exchange Question Reply) ∈ front := by
    rw [aroundStart] at haround
    rcases ends_orElse haround with ⟨hfirst, -⟩ | ⟨_, first, rest, rfl, hfirst, -⟩
    · exact (scanRun_of_scan hfirst).starts hreaches
    · obtain ⟨answer, hmem⟩ := (scanRun_of_scan hfirst).starts hreaches
      exact ⟨answer, List.mem_append_left _ hmem⟩
  rcases ends_orElse h with ⟨hfirst, -⟩ | ⟨_, front, back, rfl, hfirst, -⟩
  · exact haround hfirst
  · obtain ⟨answer, hmem⟩ := haround hfirst
    exact ⟨answer, List.mem_append_left _ hmem⟩

/-- **`locate` leaves no gap**: when it finds nothing, the windows that the node served for any account
tile the blocks from the floor to the tip. -/
theorem searches_locate {sender : String} {blocks : Blocks} {trace : Trace}
    {result : Result (Option String)}
    (h : Session.Ends (locate keccak256 vault tokenId sender blocks) trace result) :
    Searches keccak256 vault tokenId blocks.floor blocks.tip trace result ∧
      trace.length ≤ 10 * (blocks.tip + 1 - blocks.floor).toNat + 16 := by
  have hfloor := blocks.floor_le
  have hreaches := blocks.reaches
  rcases ends_orElse h with ⟨haround, hne⟩ | ⟨found, front, back, rfl, haround, hfound, hback⟩
  · obtain ⟨hsearches, hlength⟩ := searches_aroundStart haround
    refine ⟨⟨hsearches.outcome, hsearches.asks, fun _ hnone => absurd hnone hne⟩, ?_⟩
    by_cases hstart : blocks.earliest ≤ blocks.tip
    · omega
    · omega
  · obtain ⟨hsearches, hlength⟩ := searches_aroundStart haround
    obtain ⟨hsearches', hlength'⟩ := searches_furtherBack hback
    refine ⟨⟨hsearches.outcome.orElse hfound hsearches'.outcome,
      hsearches.asks.append hsearches'.asks, fun hnamed hnone => ?_⟩, ?_⟩
    · obtain rfl := hsearches.outcome.eq_none hfound hnamed.append.1
      obtain ⟨around, hperm, htiles⟩ := hsearches.covers hnamed.append.1 rfl
      obtain ⟨windows, hperm', htiles'⟩ := hsearches'.covers hnamed.append.2 hnone
      refine ⟨windows ++ around, ?_, ?_⟩
      · rw [servedWindows_append]
        exact (List.perm_append_comm).trans (hperm.append hperm')
      · by_cases hstart : blocks.earliest ≤ blocks.tip
        · refine htiles'.append ?_ (by omega) (by omega)
          rw [Int.sub_add_cancel]
          exact htiles
        · have hsame : blocks.earliest = blocks.floor := by omega
          rw [htiles'.eq_nil (by omega), List.nil_append, ← hsame]
          exact htiles
    · rw [List.length_append]
      by_cases hstart : blocks.earliest ≤ blocks.tip
      · omega
      · omega

end Locate

/-! ## A node of the chain -/

/-- An event of the vault on the source chain: the block and the transaction that emitted it. -/
structure Emitted where
  block : Int
  txid : Bytes32
  event : Vault.Event

section Node

variable {keccak256 : Bytes → Bytes32} {chain : List Emitted}

variable (keccak256) in
/-- The event has the topics that are asked for. -/
def Matches (topics : List (Option String)) (event : Vault.Event) : Prop :=
  topics.length ≤ (event.topics keccak256).length ∧
    ∀ pair ∈ topics.zip (event.topics keccak256), ∀ topic, pair.1 = some topic →
      topic = hexEncode pair.2.toList

variable (keccak256 chain) in
/-- The logs are those of the chain that the filter asks for. -/
structure Reports (filter : LogFilter) (logs : List SourceLogEntry) : Prop where
  sound : ∀ log ∈ logs, ∃ emitted ∈ chain, Matches keccak256 filter.topics emitted.event ∧
    Shows keccak256 emitted.event log.toSourceLog ∧ log.transactionHash = hexEncode emitted.txid.toList
  complete : ∀ emitted ∈ chain, filter.fromBlock ≤ emitted.block → emitted.block ≤ filter.toBlock →
    Matches keccak256 filter.topics emitted.event → ∃ log ∈ logs,
      Shows keccak256 emitted.event log.toSourceLog ∧ log.transactionHash = hexEncode emitted.txid.toList

/-- The lower-case text of what decodes. -/
theorem toLowerCase_of_hexDecode {text : String} {bytes : Bytes} (h : hexDecode text = some bytes) :
    toLowerCase text = hexEncode bytes := by
  rw [toLowerCase, hexEncode, map_toLower_of_hexDecodeChars h]

/-- **A log of a `Lock` event decodes.** -/
theorem Shows.decode {nonce amount : Vault.Word} {sender : Core.Address} {tokenId recipient : Bytes32}
    {log : SourceLog}
    (h : Shows keccak256 (.lock nonce sender amount tokenId recipient) log) :
    ∃ sender', decodeLockEvent keccak256 log =
      .ok (some ⟨nonce.toNat, sender', amount.toNat, tokenId.toList, recipient.toList⟩) := by
  have htopics := h.topics
  have hdata := h.data
  simp only [Vault.Event.topics, Vault.Event.indexed, List.map_cons, List.map_nil,
    List.map_eq_cons_iff, List.map_eq_nil_iff] at htopics
  obtain ⟨t₀, _, hlog, h₀, t₁, _, rfl, h₁, t₂, _, rfl, h₂, rfl⟩ := htopics
  rw [data_lock] at hdata
  obtain ⟨hlength, hamount, htokenId, hrecipient⟩ :=
    three_words (Abi.word256 amount) tokenId recipient
  have htopic : toLowerCase (strip0x t₀) = LOCK_EVENT_TOPIC0 keccak256 := toLowerCase_of_hexDecode h₀
  have hfields := (fromHex_eq_ok hdata).2 rfl
  have hnonce := (fromHex_eq_ok (hexDecode_toLowerCase h₁)).2 rfl
  have hbind {α β : Type} (a : α) (f : α → Result β) : (Except.ok a >>= f) = f a := rfl
  refine ⟨String.ofList ((toLowerCase (strip0x t₂)).toList.drop 24), ?_⟩
  simp only [decodeLockEvent, hlog, List.map_cons, List.map_nil, htopic, ne_eq, not_true_eq_false,
    if_false, hfields, hnonce, hbind, hlength, lt_self_iff_false, hamount, htokenId, hrecipient,
    wordToBigInt_word256]

/-- The test of `findHit` on a `Lock` event. -/
def isHit (keccak256 : Bytes → Bytes32) (tokenId : String) (log : SourceLogEntry) : Result Bool := do
  let decoded ← decodeLockEvent keccak256 log.toSourceLog
  pure (hexEncode (decoded.elim [] DecodedLockEvent.unicityTokenId) == tokenId)

/-- Only `Lock` events have the topics of a search. -/
theorem Matches.lock (htopic : LockTopic keccak256) {account : Option String} {event : Vault.Event}
    (h : Matches keccak256 (lockTopics keccak256 account) event) :
    ∃ nonce sender amount tokenId recipient, event = .lock nonce sender amount tokenId recipient := by
  have hmem : (some (LOCK_EVENT_TOPIC0 keccak256), keccak256 (Core.utf8 event.signature)) ∈
      (lockTopics keccak256 account).zip (event.topics keccak256) := by
    rw [lockTopics, Vault.Event.topics, List.zip_cons_cons]
    exact List.mem_cons_self
  have hfirst := hexEncode_inj (h.2 _ hmem _ rfl)
  have hsignature := htopic event (List.Vector.toList_injective hfirst).symm
  cases event with
  | lock nonce sender amount tokenId recipient => exact ⟨nonce, sender, amount, tokenId, recipient, rfl⟩
  | _ => simp [Vault.Event.signature, LOCK_EVENT_SIGNATURE] at hsignature

/-- A `Lock` event has the topics of a search for any account. -/
theorem matches_lock (nonce amount : Vault.Word) (sender : Core.Address) (tokenId recipient : Bytes32) :
    Matches keccak256 (lockTopics keccak256 none) (.lock nonce sender amount tokenId recipient) := by
  refine ⟨le_rfl, fun pair hpair topic htopic => ?_⟩
  simp only [lockTopics, Vault.Event.topics, Vault.Event.indexed, List.zip_cons_cons, List.zip_nil_right,
    List.mem_cons, List.not_mem_nil, or_false] at hpair
  rcases hpair with rfl | rfl | rfl
  · exact (Option.some.inj htopic).symm
  · cases htopic
  · cases htopic

theorem isHit_of_shows {nonce amount : Vault.Word} {sender : Core.Address} {tokenId recipient : Bytes32}
    {log : SourceLogEntry} (tokenIdHex : String)
    (h : Shows keccak256 (.lock nonce sender amount tokenId recipient) log.toSourceLog) :
    isHit keccak256 tokenIdHex log = .ok (hexEncode tokenId.toList == tokenIdHex) := by
  obtain ⟨sender', hdecode⟩ := h.decode
  rw [isHit, hdecode]
  rfl

/-- The token id that an event locks. -/
def Emitted.tokenId (emitted : Emitted) : Option Bytes32 :=
  emitted.event.lockRecord.map Vault.LockRecord.unicityTokenId

theorem exists_lock_of_tokenId {emitted : Emitted} {tokenId : Bytes32}
    (h : emitted.tokenId = some tokenId) : ∃ nonce sender amount recipient,
      emitted.event = .lock nonce sender amount tokenId recipient := by
  obtain ⟨record, hrecord, rfl⟩ := Option.map_eq_some_iff.1 h
  cases hevent : emitted.event with
  | lock nonce sender amount tokenId recipient =>
      rw [hevent] at hrecord
      cases hrecord
      exact ⟨nonce, sender, amount, recipient, rfl⟩
  | _ =>
      rw [hevent] at hrecord
      cases hrecord

/-- A served request of a search reports locks of the chain, each as a hit or not. -/
theorem Reports.isHit (htopic : LockTopic keccak256) {filter : LogFilter} {logs : List SourceLogEntry}
    (h : Reports keccak256 chain filter logs) {account : Option String}
    (htopics : filter.topics = lockTopics keccak256 account) (tokenId : Bytes32) {log : SourceLogEntry}
    (hlog : log ∈ logs) : ∃ emitted ∈ chain, ∃ id, emitted.tokenId = some id ∧
      log.transactionHash = hexEncode emitted.txid.toList ∧
      BridgePlugin.isHit keccak256 (hexEncode tokenId.toList) log = .ok (decide (id = tokenId)) := by
  obtain ⟨emitted, hemitted, hmatches, hshows, hname⟩ := h.sound log hlog
  rw [htopics] at hmatches
  obtain ⟨nonce, sender, amount, id, recipient, hevent⟩ := hmatches.lock htopic
  rw [hevent] at hshows
  refine ⟨emitted, hemitted, id, ?_, hname, ?_⟩
  · rw [Emitted.tokenId, hevent]
    rfl
  · rw [isHit_of_shows _ hshows, Except.ok.injEq, Bool.eq_iff_iff, beq_iff_eq, decide_eq_true_iff]
    exact ⟨fun heq => List.Vector.toList_injective (hexEncode_inj heq), fun heq => by rw [heq]⟩

/-- A chain on which no token id is locked twice. -/
def LocksOnce (chain : List Emitted) : Prop :=
  ∀ emitted ∈ chain, ∀ other ∈ chain, ∀ id, emitted.tokenId = some id → other.tokenId = some id →
    other = emitted

/-- **The vault locks no token id twice.** -/
theorem locksOnce {σ : Type} {d : Vault.Deployment σ} {w₀ : Vault.World σ} (hfresh : Vault.Fresh d w₀)
    {transactions : List (Vault.Transaction σ)}
    (hchain : chain.map Emitted.event = (Vault.run d w₀ transactions).log) : LocksOnce chain := by
  have htokenIds := (Vault.registered hfresh transactions).tokenIds
  have hids : (Vault.locks (Vault.run d w₀ transactions)).map Vault.LockRecord.unicityTokenId =
      chain.filterMap Emitted.tokenId := by
    rw [Vault.locks, ← hchain, Vault.lockRecords, List.filterMap_map, List.map_filterMap]
    rfl
  rw [hids, List.Nodup, List.pairwise_filterMap] at htokenIds
  have hsymm : Std.Symm fun a b : Emitted =>
      ∀ id, a.tokenId = some id → ∀ id', b.tokenId = some id' → id ≠ id' :=
    ⟨fun _ _ h id hid id' hid' heq => h id' hid' id hid heq.symm⟩
  intro emitted hemitted other hother id hid hid'
  by_contra hne
  exact htokenIds.forall hemitted hother (Ne.symm hne) id hid id hid' rfl

/-- The node answers for the vault's logs from the chain. -/
def ReportsAll (keccak256 : Bytes → Bytes32) (chain : List Emitted) (vault : String) (trace : Trace) :
    Prop :=
  ∀ filter logs, Serves trace filter logs → filter.address = vault → Reports keccak256 chain filter logs

theorem hexEncode_ne_empty (word : Bytes32) : hexEncode word.toList ≠ "" := by
  intro h
  have hlength := congrArg (fun text => text.toList.length) h
  simp [hexEncode, hexChars_length] at hlength

/-- **The lock is found** by a search over its block, or the node refused the smallest window. -/
theorem Searches.finds (htopic : LockTopic keccak256) (honce : LocksOnce chain) {vault : String}
    {tokenId : Bytes32} {first last : Int} {trace : Trace} {result : Result (Option String)}
    (h : Searches keccak256 vault (hexEncode tokenId.toList) first last trace result)
    (hreports : ReportsAll keccak256 chain vault trace) {emitted : Emitted} (hemitted : emitted ∈ chain)
    (hid : emitted.tokenId = some tokenId) (hfirst : first ≤ emitted.block)
    (hlast : emitted.block ≤ last) :
    result = .ok (some (hexEncode emitted.txid.toList)) ∨
      (∃ err, result = .error err) ∧ RefusesSmallest trace := by
  have hlogs (filter : LogFilter) (logs : List SourceLogEntry) (hserves : Serves trace filter logs) :
      ∃ account, filter.address = vault ∧ filter.topics = lockTopics keccak256 account ∧
        Reports keccak256 chain filter logs := by
    obtain ⟨_, account, ⟨⟩, haddress, htopics⟩ := h.asks _ hserves
    exact ⟨account, haddress, htopics, hreports filter logs hserves haddress⟩
  have houtcome := h.outcome
  cases result with
  -- an error is a refused window, since every log of the answer decodes
  | error err =>
      refine .inr ⟨⟨err, rfl⟩, houtcome.resolve_right ?_⟩
      rintro ⟨filter, logs, err, hserves, hfind⟩
      obtain ⟨account, -, htopics, hreport⟩ := hlogs filter logs hserves
      obtain ⟨log, hlog, hfail⟩ := findM?_error hfind
      obtain ⟨_, -, _, -, -, hhit⟩ := hreport.isHit htopic htopics tokenId hlog
      cases hfail.symm.trans hhit
  | ok found =>
      cases found with
      -- a hit names its transaction, and the token id was locked once
      | some txid =>
          obtain ⟨filter, logs, log, hserves, hfind, rfl⟩ := houtcome
          obtain ⟨account, -, htopics, hreport⟩ := hlogs filter logs hserves
          obtain ⟨hlog, htrue⟩ := findM?_some hfind
          obtain ⟨other, hother, id, hid', hname, hhit⟩ := hreport.isHit htopic htopics tokenId hlog
          have hsame := Except.ok.inj (hhit.symm.trans htrue)
          obtain rfl := of_decide_eq_true hsame
          rw [hname, honce emitted hemitted other hother id hid hid']
          exact .inl rfl
      | none =>
          have hnamed : Named trace := by
            intro filter logs hserves log hlog
            obtain ⟨account, -, htopics, hreport⟩ := hlogs filter logs hserves
            obtain ⟨other, -, -, -, hname, -⟩ := hreport.isHit htopic htopics tokenId hlog
            rw [hname]
            exact hexEncode_ne_empty other.txid
          -- a served window holds the block, and its answer has no hit
          obtain ⟨windows, hperm, htiles⟩ := h.covers hnamed rfl
          obtain ⟨window, hwindow, hfrom, hto⟩ := htiles.exists_mem hfirst hlast
          obtain ⟨filter, logs, hserves, haddress, htopics, rfl⟩ :=
            exists_serves (hperm.mem_iff.1 hwindow)
          obtain ⟨nonce, sender, amount, recipient, hevent⟩ := exists_lock_of_tokenId hid
          have hmatches : Matches keccak256 filter.topics emitted.event := by
            rw [htopics, hevent]
            exact matches_lock nonce amount sender tokenId recipient
          have hreport := hreports filter logs hserves haddress
          obtain ⟨log, hlog, hshows, -⟩ := hreport.complete emitted hemitted hfrom hto hmatches
          have hmiss := findM?_none (houtcome hnamed filter logs hserves) log hlog
          rw [hevent] at hshows
          have hhit := isHit_of_shows (hexEncode tokenId.toList) hshows
          rw [beq_self_eq_true] at hhit
          cases hmiss.symm.trans hhit

end Node

/-! ## Runs of `findLock` -/

section Find

variable {keccak256 : Bytes → Bytes32} {latestFirst : Bool} {bridge : LoadedBridge}
  {search : LockSearch}

/-- The vault was asked whether it has locked the token id. -/
def flagExchange (bridge : LoadedBridge) (search : LockSearch) (answer : Result String) :
    Exchange Question Reply :=
  ⟨.constantCall (usedCall bridge.resolvedConfig.lockContractHex search.fromAddressHex
    (toLowerCase search.unicityTokenIdHex)), answer⟩

/-- The two counts, in the order in which the node read them. -/
def countExchanges (latestFirst : Bool) (addressHex : String) (pending latest : Result Int) : Trace :=
  if latestFirst then [⟨.getTransactionCount addressHex .latest, latest⟩,
    ⟨.getTransactionCount addressHex .pending, pending⟩]
  else [⟨.getTransactionCount addressHex .pending, pending⟩,
    ⟨.getTransactionCount addressHex .latest, latest⟩]

theorem ends_tokenIdUsed {trace : Trace} {result : Result Bool}
    (h : Session.Ends (tokenIdUsed bridge.resolvedConfig.lockContractHex search.fromAddressHex
      (toLowerCase search.unicityTokenIdHex)) trace result) :
    ∃ answer : Result String, trace = [flagExchange bridge search answer] ∧
      result = answer >>= readFlag := by
  rcases Session.ends_bind.1 h with ⟨error, rfl, hcall⟩ | ⟨word, front, back, rfl, hcall, hback⟩
  · exact ⟨.error error, ends_query.1 hcall, rfl⟩
  · obtain ⟨rfl, rfl⟩ := Session.ends_lift.1 hback
    obtain rfl := ends_query.1 hcall
    exact ⟨.ok word, rfl, rfl⟩

theorem ends_promiseAll {first second : Question} {trace : Trace}
    {result : Result (first.Response × second.Response)}
    (h : Session.Ends (promiseAll (query first) (query second)) trace result) :
    ∃ (a : Reply first) (b : Reply second), trace = [⟨first, a⟩, ⟨second, b⟩] ∧
      ∀ pair, result = .ok pair → a = .ok pair.1 ∧ b = .ok pair.2 := by
  rcases Session.ends_bind.1 h with ⟨_, -, hfirst⟩ | ⟨a, front, back, rfl, hfirst, hback⟩
  · obtain ⟨_, ⟨⟩, -⟩ := Session.ends_attempt.1 hfirst
  obtain ⟨_, ⟨⟩, hfirst⟩ := Session.ends_attempt.1 hfirst
  rcases Session.ends_bind.1 hback with ⟨_, -, hsecond⟩ | ⟨b, middle, rest, rfl, hsecond, hrest⟩
  · obtain ⟨_, ⟨⟩, -⟩ := Session.ends_attempt.1 hsecond
  obtain ⟨_, ⟨⟩, hsecond⟩ := Session.ends_attempt.1 hsecond
  obtain rfl := ends_query.1 hfirst
  obtain rfl := ends_query.1 hsecond
  rcases Session.ends_bind.1 hrest with ⟨_, rfl, ha⟩ | ⟨_, _, _, rfl, ha, hnext⟩
  · obtain ⟨rfl, -⟩ := Session.ends_lift.1 ha
    exact ⟨a, b, rfl, fun _ hpair => by cases hpair⟩
  obtain ⟨rfl, rfl⟩ := Session.ends_lift.1 ha
  rcases Session.ends_bind.1 hnext with ⟨_, rfl, hb⟩ | ⟨_, _, _, rfl, hb, hlast⟩
  · obtain ⟨rfl, -⟩ := Session.ends_lift.1 hb
    exact ⟨_, b, rfl, fun _ hpair => by cases hpair⟩
  obtain ⟨rfl, rfl⟩ := Session.ends_lift.1 hb
  obtain ⟨rfl, rfl⟩ := Session.ends_pure.1 hlast
  exact ⟨_, _, rfl, fun pair hpair => by cases hpair; exact ⟨rfl, rfl⟩⟩

/-- The counts were read, and the answer, if there is one, compares them. -/
theorem ends_inFlight {addressHex : String} {trace : Trace} {result : Result Bool}
    (h : Session.Ends (inFlight latestFirst addressHex) trace result) :
    ∃ pending latest, trace = countExchanges latestFirst addressHex pending latest ∧
      ∀ flag, result = .ok flag → ∃ p l : Int, pending = .ok p ∧ latest = .ok l ∧ flag = decide (p > l) := by
  unfold inFlight at h
  cases latestFirst with
  | true =>
      rcases Session.ends_bind.1 h with ⟨_, rfl, hall⟩ | ⟨pair, front, back, rfl, hall, hback⟩
      · obtain ⟨latest, pending, rfl, -⟩ := ends_promiseAll hall
        exact ⟨pending, latest, rfl, fun _ hflag => by cases hflag⟩
      · obtain ⟨latest, pending, rfl, hpair⟩ := ends_promiseAll hall
        obtain ⟨rfl, rfl⟩ := hpair pair rfl
        obtain ⟨rfl, rfl⟩ := Session.ends_pure.1 hback
        exact ⟨_, _, rfl, fun flag hflag => ⟨pair.2, pair.1, rfl, rfl, (Except.ok.inj hflag).symm⟩⟩
  | false =>
      rcases Session.ends_bind.1 h with ⟨_, rfl, hall⟩ | ⟨pair, front, back, rfl, hall, hback⟩
      · obtain ⟨pending, latest, rfl, -⟩ := ends_promiseAll hall
        exact ⟨pending, latest, rfl, fun _ hflag => by cases hflag⟩
      · obtain ⟨pending, latest, rfl, hpair⟩ := ends_promiseAll hall
        obtain ⟨rfl, rfl⟩ := hpair pair rfl
        obtain ⟨rfl, rfl⟩ := Session.ends_pure.1 hback
        exact ⟨_, _, rfl, fun flag hflag => ⟨pair.1, pair.2, rfl, rfl, (Except.ok.inj hflag).symm⟩⟩

variable (keccak256 latestFirst bridge search) in
/-- A run of `findLock`. -/
inductive FindRun : Trace → Result LockSearchResult → Prop
  | failed {answer : Result String} {err : String} (h : answer >>= readFlag = .error err) :
      FindRun [flagExchange bridge search answer] (.error err)
  | locked {answer : Result String} {trace : Trace} {result : Result LockSearchResult}
      (h : answer >>= readFlag = .ok true)
      (hback : Session.Ends (findLocked keccak256 bridge search) trace result) :
      FindRun (flagExchange bridge search answer :: trace) result
  | countsFailed {answer : Result String} {pending latest : Result Int} {err : String}
      (h : answer >>= readFlag = .ok false) :
      FindRun (flagExchange bridge search answer ::
        countExchanges latestFirst search.fromAddressHex pending latest) (.error err)
  | pending {answer : Result String} {p l : Int} (h : answer >>= readFlag = .ok false) (hcounts : p > l) :
      FindRun (flagExchange bridge search answer ::
          countExchanges latestFirst search.fromAddressHex (.ok p) (.ok l))
        (.ok (.unknown "a transaction from the account is still pending"))
  | failedAgain {answer answer' : Result String} {p l : Int} {err : String}
      (h : answer >>= readFlag = .ok false) (hcounts : p ≤ l) (h' : answer' >>= readFlag = .error err) :
      FindRun (flagExchange bridge search answer ::
          (countExchanges latestFirst search.fromAddressHex (.ok p) (.ok l) ++
            [flagExchange bridge search answer'])) (.error err)
  | lockedAgain {answer answer' : Result String} {p l : Int} {trace : Trace}
      {result : Result LockSearchResult} (h : answer >>= readFlag = .ok false) (hcounts : p ≤ l)
      (h' : answer' >>= readFlag = .ok true)
      (hback : Session.Ends (findLocked keccak256 bridge search) trace result) :
      FindRun (flagExchange bridge search answer ::
          (countExchanges latestFirst search.fromAddressHex (.ok p) (.ok l) ++
            flagExchange bridge search answer' :: trace)) result
  | absent {answer answer' : Result String} {p l : Int} (h : answer >>= readFlag = .ok false)
      (hcounts : p ≤ l) (h' : answer' >>= readFlag = .ok false) :
      FindRun (flagExchange bridge search answer ::
          (countExchanges latestFirst search.fromAddressHex (.ok p) (.ok l) ++
            [flagExchange bridge search answer'])) (.ok .absent)

/-- Every run of `findLock` is one of these. -/
theorem findRun_of_ends {trace : Trace} {result : Result LockSearchResult}
    (h : Session.Ends (findLock keccak256 latestFirst bridge search) trace result) :
    FindRun keccak256 latestFirst bridge search trace result := by
  rcases Session.ends_bind.1 h with ⟨err, rfl, hflag⟩ | ⟨flag, front, back, rfl, hflag, hback⟩
  · obtain ⟨answer, rfl, hanswer⟩ := ends_tokenIdUsed hflag
    exact .failed hanswer.symm
  obtain ⟨answer, rfl, hanswer⟩ := ends_tokenIdUsed hflag
  cases flag with
  | true => exact .locked hanswer.symm hback
  | false =>
      rcases Session.ends_bind.1 hback with ⟨err, rfl, hcounts⟩ | ⟨flight, counts, rest, rfl, hcounts, hrest⟩
      · obtain ⟨pending, latest, rfl, -⟩ := ends_inFlight hcounts
        exact .countsFailed hanswer.symm
      obtain ⟨pending, latest, rfl, hflight⟩ := ends_inFlight hcounts
      obtain ⟨p, l, rfl, rfl, rfl⟩ := hflight flight rfl
      by_cases hpending : p > l
      · rw [decide_eq_true hpending] at hrest
        obtain ⟨rfl, rfl⟩ := Session.ends_pure.1 hrest
        rw [List.append_nil]
        exact .pending hanswer.symm hpending
      rw [decide_eq_false hpending] at hrest
      rcases Session.ends_bind.1 hrest with ⟨err, rfl, hflag⟩ | ⟨flag, front, back, rfl, hflag, hback⟩
      · obtain ⟨answer', rfl, hanswer'⟩ := ends_tokenIdUsed hflag
        exact .failedAgain hanswer.symm (not_lt.1 hpending) hanswer'.symm
      obtain ⟨answer', rfl, hanswer'⟩ := ends_tokenIdUsed hflag
      cases flag with
      | true => exact .lockedAgain hanswer.symm (not_lt.1 hpending) hanswer'.symm hback
      | false =>
          obtain ⟨rfl, rfl⟩ := Session.ends_pure.1 hback
          exact .absent hanswer.symm (not_lt.1 hpending) hanswer'.symm

/-- A run behind a locked token id: the tip is read, and `locate` searches back from it. -/
theorem ends_findLocked {trace : Trace} {result : Result LockSearchResult}
    (h : Session.Ends (findLocked keccak256 bridge search) trace result) :
    (∃ err, trace = [⟨.getNowBlockNumber, .error err⟩] ∧ result = .error err) ∨
      ∃ (tip : Int) (back : Trace) (txid : Result (Option String)),
        trace = ⟨.getNowBlockNumber, .ok tip⟩ :: back ∧ result = txid.map located ∧
        Searches keccak256 bridge.resolvedConfig.lockContractHex
          (toLowerCase search.unicityTokenIdHex) (bridge.deployBlock.getD 0) tip back txid ∧
        back.length ≤ 10 * (tip + 1 - bridge.deployBlock.getD 0).toNat + 16 := by
  rcases Session.ends_bind.1 h with ⟨err, rfl, htip⟩ | ⟨tip, front, back, rfl, htip, hback⟩
  · exact .inl ⟨err, ends_query.1 htip, rfl⟩
  obtain rfl := ends_query.1 htip
  refine .inr ⟨tip, back, ?_⟩
  rcases Session.ends_bind.1 hback with ⟨err, rfl, hlocate⟩ | ⟨txid, middle, rest, rfl, hlocate, hrest⟩
  · obtain ⟨hsearches, hlength⟩ := searches_locate hlocate
    exact ⟨.error err, rfl, rfl, hsearches, hlength⟩
  · obtain ⟨rfl, rfl⟩ := Session.ends_pure.1 hrest
    obtain ⟨hsearches, hlength⟩ := searches_locate hlocate
    rw [List.append_nil]
    exact ⟨.ok txid, rfl, rfl, hsearches, hlength⟩

/-- What `findLock` asks before it locates a lock. -/
def Preliminary (trace : Trace) : Prop :=
  ∀ exchange ∈ trace, (∃ input, exchange.1 = .constantCall input) ∨
    ∃ addressHex tag, exchange.1 = .getTransactionCount addressHex tag

theorem countExchanges_preliminary (latestFirst : Bool) (addressHex : String)
    (pending latest : Result Int) :
    Preliminary (countExchanges latestFirst addressHex pending latest) ∧
      (countExchanges latestFirst addressHex pending latest).length = 2 := by
  cases latestFirst with
  | true | false =>
      exact ⟨List.forall_mem_cons.2 ⟨.inr ⟨_, _, rfl⟩, List.forall_mem_singleton.2 (.inr ⟨_, _, rfl⟩)⟩, rfl⟩

theorem Preliminary.servedWindows {trace : Trace} (h : Preliminary trace) (address : String)
    (topics : List (Option String)) : BridgePlugin.servedWindows address topics trace = [] := by
  refine List.filterMap_eq_nil_iff.2 ?_
  rintro ⟨question, answer⟩ hmem
  rcases h _ hmem with ⟨input, heq⟩ | ⟨addressHex, tag, heq⟩
  · cases heq
    rfl
  · cases heq
    rfl

/-- A run of `findLock` ends before or behind the branch that locates the lock. -/
theorem FindRun.cases_located {trace : Trace} {result : Result LockSearchResult}
    (h : FindRun keccak256 latestFirst bridge search trace result) :
    Preliminary trace ∧ trace.length ≤ 4 ∨
      ∃ front back, trace = front ++ back ∧ Preliminary front ∧ front.length ≤ 4 ∧
        Session.Ends (findLocked keccak256 bridge search) back result := by
  have hflag (answer : Result String) (rest : Trace) (hrest : Preliminary rest) :
      Preliminary (flagExchange bridge search answer :: rest) :=
    List.forall_mem_cons.2 ⟨.inl ⟨_, rfl⟩, hrest⟩
  have hnil : Preliminary [] := fun _ h => absurd h List.not_mem_nil
  have hcounts (p l : Result Int) := countExchanges_preliminary latestFirst search.fromAddressHex p l
  have hagain (p l : Int) (answer : Result String) :
      Preliminary (countExchanges latestFirst search.fromAddressHex (.ok p) (.ok l) ++
        [flagExchange bridge search answer]) :=
    List.forall_mem_append.2 ⟨(hcounts (.ok p) (.ok l)).1, hflag answer [] hnil⟩
  cases h with
  | @failed answer => exact .inl ⟨hflag answer [] hnil, Nat.le_add_left 1 3⟩
  | @locked answer trace _ _ hback =>
      exact .inr ⟨[flagExchange bridge search answer], trace, rfl, hflag answer [] hnil,
        Nat.le_add_left 1 3, hback⟩
  | @countsFailed answer p l =>
      refine .inl ⟨hflag answer _ (hcounts p l).1, ?_⟩
      rw [List.length_cons, (hcounts p l).2]
      decide
  | @pending answer p l =>
      refine .inl ⟨hflag answer _ (hcounts (.ok p) (.ok l)).1, ?_⟩
      rw [List.length_cons, (hcounts (.ok p) (.ok l)).2]
      decide
  | @failedAgain answer answer' p l | @absent answer answer' p l =>
      refine .inl ⟨hflag answer _ (hagain p l answer'), ?_⟩
      rw [List.length_cons, List.length_append, (hcounts (.ok p) (.ok l)).2, List.length_singleton]
  | @lockedAgain answer answer' p l trace _ _ _ _ hback =>
      refine .inr ⟨flagExchange bridge search answer ::
        (countExchanges latestFirst search.fromAddressHex (.ok p) (.ok l) ++
          [flagExchange bridge search answer']), trace, ?_, hflag answer _ (hagain p l answer'), ?_, hback⟩
      · simp
      · rw [List.length_cons, List.length_append, (hcounts (.ok p) (.ok l)).2, List.length_singleton]

/-- The word that the vault answers with. -/
def flagWord (flag : Bool) : String := hexEncode (ByteArr.ofNat 32 flag.toNat).toList

theorem readFlag_eq_ok {word : String} {flag : Bool} : readFlag word = .ok flag ↔
    ∃ bytes, hexDecode word = some bytes ∧ bytes.length = 32 ∧ decide (beNat bytes ≠ 0) = flag := by
  simp only [readFlag, bind_eq_ok, okOr_eq_ok, ensure_eq_ok, Except.ok.injEq, exists_const]

theorem readFlag_flagWord (flag : Bool) : readFlag (flagWord flag) = .ok flag := by
  have hword : beNat (ByteArr.ofNat 32 flag.toNat).toList = flag.toNat :=
    ByteArr.toNat_ofNat (by cases flag <;> decide)
  refine readFlag_eq_ok.2 ⟨_, hexDecode_hexEncode _, List.Vector.toList_length _, ?_⟩
  rw [hword]
  cases flag with
  | true | false => rfl

/-- No tip is read before a lock is located. -/
theorem Preliminary.not_tip {front : Trace} (h : Preliminary front) {tip : Int} :
    (⟨.getNowBlockNumber, .ok tip⟩ : Exchange Question Reply) ∉ front := by
  intro hmem
  rcases h _ hmem with ⟨_, ⟨⟩⟩ | ⟨_, _, ⟨⟩⟩

/-- Logs are asked for behind a tip only. -/
theorem exists_tip_of_getLogs {trace : Trace} {result : Result LockSearchResult}
    (h : Session.Ends (findLock keccak256 latestFirst bridge search) trace result) {filter : LogFilter}
    {answer : Result (List SourceLogEntry)}
    (hmem : (⟨.getLogs filter, answer⟩ : Exchange Question Reply) ∈ trace) :
    ∃ tip : Int, (⟨.getNowBlockNumber, .ok tip⟩ : Exchange Question Reply) ∈ trace := by
  have hfront {front : Trace} (hfront : Preliminary front) :
      (⟨.getLogs filter, answer⟩ : Exchange Question Reply) ∉ front := by
    intro hmem
    rcases hfront _ hmem with ⟨_, ⟨⟩⟩ | ⟨_, _, ⟨⟩⟩
  rcases (findRun_of_ends h).cases_located with ⟨hnone, -⟩ | ⟨front, back, rfl, hnone, -, hback⟩
  · exact absurd hmem (hfront hnone)
  replace hmem := (List.mem_append.1 hmem).resolve_left (hfront hnone)
  rcases ends_findLocked hback with ⟨err, rfl, -⟩ | ⟨tip, rest, txid, rfl, -, -⟩
  · cases List.mem_singleton.1 hmem
  · exact ⟨tip, List.mem_append_right front List.mem_cons_self⟩

/-- Behind a tip the search starts with the signer's own locks, in the largest window. -/
theorem findLock_starts {trace : Trace} {result : Result LockSearchResult}
    (h : Session.Ends (findLock keccak256 latestFirst bridge search) trace result) {tip : Int}
    (htip : (⟨.getNowBlockNumber, .ok tip⟩ : Exchange Question Reply) ∈ trace)
    (hreaches : (searchBlocks search bridge.deployBlock tip).earliest ≤ tip) :
    ∃ answer : Result (List SourceLogEntry), (⟨.getLogs (windowFilter
      bridge.resolvedConfig.lockContractHex
      (lockTopics keccak256 (some (padStart (toLowerCase search.fromAddressHex) 64))) tip
      (searchBlocks search bridge.deployBlock tip).earliest WINDOW), answer⟩ :
        Exchange Question Reply) ∈ trace := by
  rcases (findRun_of_ends h).cases_located with ⟨hfront, -⟩ | ⟨front, back, rfl, hfront, -, hback⟩
  · exact absurd htip hfront.not_tip
  replace htip := (List.mem_append.1 htip).resolve_left hfront.not_tip
  rcases Session.ends_bind.1 hback with ⟨err, rfl, hasked⟩ | ⟨tip', asked, rest, rfl, hasked, hrest⟩
  · obtain rfl := ends_query.1 hasked
    cases List.mem_singleton.1 htip
  obtain rfl := ends_query.1 hasked
  obtain ⟨txid, hlocate⟩ : ∃ txid, Session.Ends (locate keccak256
      bridge.resolvedConfig.lockContractHex (toLowerCase search.unicityTokenIdHex)
      (padStart (toLowerCase search.fromAddressHex) 64) (searchBlocks search bridge.deployBlock tip'))
      rest txid := by
    rcases Session.ends_bind.1 hrest with ⟨err, -, hlocate⟩ | ⟨txid, middle, last, rfl, hlocate, hlast⟩
    · exact ⟨_, hlocate⟩
    · obtain ⟨rfl, -⟩ := Session.ends_pure.1 hlast
      rw [List.append_nil]
      exact ⟨_, hlocate⟩
  have hsame : tip = tip' := by
    rcases List.mem_cons.1 htip with heq | hmem
    · cases heq
      rfl
    · obtain ⟨_, _, ⟨⟩, -⟩ := (searches_locate hlocate).1.asks _ hmem
  subst hsame
  obtain ⟨answer, hmem⟩ := locate_starts hreaches hlocate
  exact ⟨answer, List.mem_append_right front (List.mem_cons_of_mem _ hmem)⟩

/-- **What a run behind a tip says**: how many questions it asked, that it left no gap, and that it found
the lock. -/
theorem findLock_tip (htopic : LockTopic keccak256) {chain : List Emitted} (honce : LocksOnce chain)
    {tokenId : Bytes32} (hid : hexDecode search.unicityTokenIdHex = some tokenId.toList) {trace : Trace}
    {result : Result LockSearchResult}
    (h : Session.Ends (findLock keccak256 latestFirst bridge search) trace result) {tip : Int}
    (htip : (⟨.getNowBlockNumber, .ok tip⟩ : Exchange Question Reply) ∈ trace) :
    trace.length ≤ 10 * (tip + 1 - bridge.deployBlock.getD 0).toNat + 21 ∧
      (Named trace → result = .ok (located none) → ∃ windows : List (Int × Int),
        windows.Perm (servedWindows bridge.resolvedConfig.lockContractHex (lockTopics keccak256 none)
          trace) ∧ Tiles windows (bridge.deployBlock.getD 0) tip) ∧
      (ReportsAll keccak256 chain bridge.resolvedConfig.lockContractHex trace → ∀ emitted ∈ chain,
        emitted.tokenId = some tokenId → bridge.deployBlock.getD 0 ≤ emitted.block →
          emitted.block ≤ tip → result = .ok (.found (hexEncode emitted.txid.toList)) ∨
            (∃ err, result = .error err) ∧ RefusesSmallest trace) := by
  have htokenId : toLowerCase search.unicityTokenIdHex = hexEncode tokenId.toList :=
    toLowerCase_of_hexDecode hid
  -- the tip is read only behind the answer that the token id is locked
  rcases (findRun_of_ends h).cases_located with ⟨hfront, -⟩ | ⟨front, back, rfl, hfront, hshort, hback⟩
  · exact absurd htip hfront.not_tip
  replace htip := (List.mem_append.1 htip).resolve_left hfront.not_tip
  rcases ends_findLocked hback with ⟨err, rfl, rfl⟩ | ⟨tip', rest, txid, rfl, rfl, hsearches, hlength⟩
  · cases List.mem_singleton.1 htip
  have hsame : tip' = tip := by
    rcases List.mem_cons.1 htip with heq | hmem
    · cases heq
      rfl
    · obtain ⟨_, _, ⟨⟩, -⟩ := hsearches.asks _ hmem
  subst hsame
  rw [htokenId] at hsearches
  -- only the last part asks for logs
  have hserves {filter : LogFilter} {logs : List SourceLogEntry} (hmem : Serves rest filter logs) :
      Serves (front ++ ⟨.getNowBlockNumber, .ok tip'⟩ :: rest) filter logs :=
    List.mem_append_right front (List.mem_cons_of_mem _ hmem)
  refine ⟨?_, fun hnamed hnone => ?_, fun hreports emitted hemitted hlock hfirst hlast => ?_⟩
  · rw [List.length_append, List.length_cons]
    omega
  · have hresult : txid = .ok none := by
      cases txid with
      | error => cases hnone
      | ok found =>
          cases found with
          | none => rfl
          | some => cases hnone
    obtain ⟨windows, hperm, htiles⟩ := hsearches.covers
      (fun filter logs hmem => hnamed filter logs (hserves hmem)) hresult
    refine ⟨windows, ?_, htiles⟩
    have hnothing : servedWindows bridge.resolvedConfig.lockContractHex (lockTopics keccak256 none)
        front = [] := hfront.servedWindows _ _
    rw [servedWindows_append, hnothing, List.nil_append]
    exact hperm
  · rcases hsearches.finds htopic honce (fun filter logs hmem => hreports filter logs (hserves hmem))
      hemitted hlock hfirst hlast with rfl | ⟨⟨err, rfl⟩, filter, err', hmem, hsmall⟩
    · exact .inl rfl
    · exact .inr ⟨⟨err, rfl⟩, filter, err', List.mem_append_right front (List.mem_cons_of_mem _ hmem),
        hsmall⟩

end Find

/-! ## The lock is found -/

/-- **A locked deposit is found.** Whatever the node answers, the search ends. Behind a tip it asks a
bounded number of questions; when it finds nothing, the windows served for any account tile the blocks
from the deployment to the tip; and the lock of the token id in these blocks is found, unless the node
refused a smallest window. If the vault always says that the token id is locked, the tip is read, unless
the node refused a question. -/
theorem lock_found {σ : Type} {d : Vault.Deployment σ} {w₀ : Vault.World σ} (hfresh : Vault.Fresh d w₀)
    (transactions : List (Vault.Transaction σ)) {chain : List Emitted}
    (hchain : chain.map Emitted.event = (Vault.run d w₀ transactions).log)
    {keccak256 : Bytes → Bytes32} (htopic : LockTopic keccak256) (latestFirst : Bool)
    (bridge : LoadedBridge) (search : LockSearch) {tokenId : Bytes32}
    (hid : hexDecode search.unicityTokenIdHex = some tokenId.toList) :
    (∀ node, ∃ trace result, Session.Ends (findLock keccak256 latestFirst bridge search) trace result ∧
      Dialogue.Answered node [] trace) ∧
    ∀ trace result, Session.Ends (findLock keccak256 latestFirst bridge search) trace result →
      (∀ tip, (⟨.getNowBlockNumber, .ok tip⟩ : Exchange Question Reply) ∈ trace →
        trace.length ≤ 10 * (tip + 1 - bridge.deployBlock.getD 0).toNat + 21 ∧
        (Named trace → result = .ok (located none) → ∃ windows : List (Int × Int),
          windows.Perm (servedWindows bridge.resolvedConfig.lockContractHex (lockTopics keccak256 none)
            trace) ∧ Tiles windows (bridge.deployBlock.getD 0) tip) ∧
        (ReportsAll keccak256 chain bridge.resolvedConfig.lockContractHex trace → ∀ emitted ∈ chain,
          emitted.tokenId = some tokenId → bridge.deployBlock.getD 0 ≤ emitted.block →
            emitted.block ≤ tip → result = .ok (.found (hexEncode emitted.txid.toList)) ∨
              (∃ err, result = .error err) ∧ RefusesSmallest trace)) ∧
      ((∀ word, flagExchange bridge search (.ok word) ∈ trace → word = flagWord true) →
        (∃ tip : Int, (⟨.getNowBlockNumber, .ok tip⟩ : Exchange Question Reply) ∈ trace) ∨
          (∃ err, result = .error err) ∧
            ∃ question err, (⟨question, .error err⟩ : Exchange Question Reply) ∈ trace) := by
  have honce := locksOnce hfresh hchain
  refine ⟨fun node => Dialogue.exists_ends _ node [], fun trace result h =>
    ⟨fun tip htip => findLock_tip htopic honce hid h htip, fun hflags => ?_⟩⟩
  -- a flag that could be read says that the token id is locked
  have hanswer {answer : Result String} {flag : Bool}
      (hmem : flagExchange bridge search answer ∈ trace) (hread : answer >>= readFlag = .ok flag) :
      flag = true := by
    cases answer with
    | error err => cases hread
    | ok word =>
        obtain rfl := hflags word hmem
        exact (Except.ok.inj ((readFlag_flagWord true).symm.trans hread)).symm
  cases findRun_of_ends h with
  | @failed answer err hread =>
      refine .inr ⟨⟨err, rfl⟩, ?_⟩
      -- the first flag failed, which only a refusal can do
      cases answer with
      | error err => exact ⟨_, err, List.mem_cons_self⟩
      | ok word =>
          obtain rfl := hflags word List.mem_cons_self
          cases (readFlag_flagWord true).symm.trans hread
  | locked hread hback =>
      rcases ends_findLocked hback with ⟨err, rfl, rfl⟩ | ⟨tip, rest, txid, rfl, rfl, -⟩
      · exact .inr ⟨⟨err, rfl⟩, _, err, List.mem_cons_of_mem _ List.mem_cons_self⟩
      · exact .inl ⟨tip, List.mem_cons_of_mem _ List.mem_cons_self⟩
  -- the other branches follow a flag that says it is not locked
  | countsFailed hread | pending hread | failedAgain hread | lockedAgain hread | absent hread =>
      cases hanswer List.mem_cons_self hread

namespace LockSample

/-- The lock of the sample vault, in block 100. -/
def emitted : Emitted :=
  ⟨100, List.Vector.replicate 32 0x77, .lock 0 Vault.Sample.admin 5 tokenId recipient⟩

/-- The bridge of the sample; its deploy block is not known. -/
def loaded : LoadedBridge := ⟨bridge, none⟩

/-- The deposit was started 2000 blocks ago. -/
def search : LockSearch :=
  ⟨hexEncode Vault.Sample.admin.toList, hexEncode tokenId.toList, 0, 2000 * ETHEREUM_BLOCK_MS⟩

/-- The lock as the node's log query returns it. -/
def entry : SourceLogEntry := { lockLog with
  blockNumber := emitted.block, transactionHash := hexEncode emitted.txid.toList }

open Classical in
/-- The logs of the chain that a filter asks for. -/
noncomputable def logsOf (filter : LogFilter) : List SourceLogEntry :=
  if Matches Backing.Sample.sdk.keccak256 filter.topics emitted.event ∧
    filter.fromBlock ≤ emitted.block ∧ emitted.block ≤ filter.toBlock then [entry] else []

/-- A node under the tip 5000 that refuses more than 1000 blocks at once, and answers everything else
truthfully. -/
noncomputable def node : List (Exchange Question Reply) → ∀ question, Reply question
  | _, .constantCall _ => .ok (flagWord true)
  | _, .getTransactionCount _ _ => .ok 1
  | _, .getNowBlockNumber => .ok 5000
  | _, .getLogs filter =>
      if filter.toBlock - filter.fromBlock < SMALLEST_WINDOW then .ok (logsOf filter)
      else .error "block range too large"

theorem reports (filter : LogFilter) :
    Reports Backing.Sample.sdk.keccak256 [emitted] filter (logsOf filter) := by
  have hshows : Shows Backing.Sample.sdk.keccak256 emitted.event entry.toSourceLog :=
    shows_printLog ..
  constructor
  · intro log hlog
    unfold logsOf at hlog
    split at hlog
    · next hmatches =>
      obtain rfl := List.mem_singleton.1 hlog
      exact ⟨emitted, List.mem_cons_self, hmatches.1, hshows, rfl⟩
    · cases hlog
  · intro other hother hfrom hto hmatches
    obtain rfl := List.mem_singleton.1 hother
    refine ⟨entry, ?_, hshows, rfl⟩
    rw [logsOf, if_pos ⟨hmatches, hfrom, hto⟩]
    exact List.mem_cons_self

theorem node_getLogs {asked : List (Exchange Question Reply)} {filter : LogFilter}
    {logs : List SourceLogEntry} (h : (.ok logs : Reply (.getLogs filter)) = node asked (.getLogs filter)) :
    logs = logsOf filter := by
  simp only [node] at h
  split at h
  · exact Except.ok.inj h
  · cases h

/-- It refuses logs only, and no smallest window. -/
theorem node_error {asked : List (Exchange Question Reply)} {question : Question} {err : String}
    (h : (.error err : Reply question) = node asked question) :
    ∃ filter, question = .getLogs filter ∧ SMALLEST_WINDOW ≤ filter.toBlock - filter.fromBlock := by
  cases question with
  | constantCall | getTransactionCount | getNowBlockNumber => cases h
  | getLogs filter =>
      simp only [node] at h
      split at h
      · cases h
      · next hrange => exact ⟨filter, rfl, not_lt.1 hrange⟩

end LockSample

/-- **A lock behind the first span.** The node refuses the first window, and shows the lock further
back. -/
theorem lock_found_sample : ∃ trace, Session.Ends (findLock Backing.Sample.sdk.keccak256 false
      LockSample.loaded LockSample.search) trace
        (.ok (.found (hexEncode LockSample.emitted.txid.toList))) ∧
    Dialogue.Answered LockSample.node [] trace ∧
      ∃ filter err, (⟨.getLogs filter, .error err⟩ : Exchange Question Reply) ∈ trace ∧
        LockSample.emitted.block < filter.fromBlock := by
  have hchain : [LockSample.emitted].map Emitted.event =
      (Vault.run LockSample.vault Vault.Sample.world LockSample.transactions).log :=
    LockSample.log_world.symm
  obtain ⟨hends, hruns⟩ := lock_found LockSample.fresh LockSample.transactions hchain LockSample.lockTopic
    false LockSample.loaded LockSample.search (hexDecode_hexEncode LockSample.tokenId.toList)
  obtain ⟨trace, result, hrun, hanswered⟩ := hends LockSample.node
  obtain ⟨hbehind, hread⟩ := hruns trace result hrun
  have hnode {question : Question} {answer : Reply question}
      (hmem : (⟨question, answer⟩ : Exchange Question Reply) ∈ trace) :
      ∃ asked, answer = LockSample.node asked question := hanswered.eq_node hmem
  -- the node answers every flag with true, serves every log and refuses only large windows
  have hflags : ∀ word, flagExchange LockSample.loaded LockSample.search (.ok word) ∈ trace →
      word = flagWord true := fun word hmem => by
    obtain ⟨asked, hanswer⟩ := hnode hmem
    exact Except.ok.inj hanswer
  have hreports : ReportsAll Backing.Sample.sdk.keccak256 [LockSample.emitted]
      LockSample.loaded.resolvedConfig.lockContractHex trace := by
    intro filter logs hserves _
    obtain ⟨asked, hanswer⟩ := hnode hserves
    rw [LockSample.node_getLogs hanswer]
    exact LockSample.reports filter
  have hserved : ¬ RefusesSmallest trace := by
    rintro ⟨filter, err, hmem, hsmall⟩
    obtain ⟨asked, hanswer⟩ := hnode hmem
    obtain ⟨_, heq, hlarge⟩ := LockSample.node_error hanswer
    cases heq
    exact absurd hsmall (not_lt.2 hlarge)
  -- so the tip is read: either the statement says so, or a refused query lies behind it
  have htip : (⟨.getNowBlockNumber, .ok (5000 : Int)⟩ : Exchange Question Reply) ∈ trace := by
    have hread : ∃ tip : Int, (⟨.getNowBlockNumber, .ok tip⟩ : Exchange Question Reply) ∈ trace := by
      rcases hread hflags with htip | ⟨-, question, err, hmem⟩
      · exact htip
      · obtain ⟨asked, hanswer⟩ := hnode hmem
        obtain ⟨filter, rfl, -⟩ := LockSample.node_error hanswer
        exact exists_tip_of_getLogs hrun hmem
    obtain ⟨tip, hmem⟩ := hread
    obtain ⟨asked, hanswer⟩ := hnode hmem
    cases hanswer
    exact hmem
  obtain ⟨-, -, hfound⟩ := hbehind 5000 htip
  obtain rfl := (hfound hreports LockSample.emitted List.mem_cons_self rfl (by decide)
    (by decide)).resolve_right fun h => hserved h.2
  obtain ⟨answer, hfirst⟩ := findLock_starts hrun htip (by decide)
  -- the first window has more than 1000 blocks
  obtain ⟨asked, hanswer⟩ := hnode hfirst
  rw [LockSample.node, if_neg (by decide)] at hanswer
  subst hanswer
  exact ⟨trace, hrun, hanswered, _, _, hfirst, by decide⟩

end UnicityBridge.BridgePlugin
