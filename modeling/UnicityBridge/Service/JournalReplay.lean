import UnicityBridge.Service.Journal

/-!
# What a journal is read back as

Bytes hold a list of events (`Holds`) when they are the lines of these events, with a part of a line
behind them that is no event, or when only the last newline is missing. Such bytes are read as these
events; every action keeps what the file holds.
-/

set_option autoImplicit false

namespace UnicityBridge.Service

open UnicityBridge.Lib
open UnicityBridge.Wire (textBytes fromUtf8 textBytes_of_fromUtf8)

/-! ## Texts -/

theorem textBytes_eq_flatMap (text : String) :
    textBytes text = text.toList.flatMap String.utf8EncodeChar := by
  show text.toByteArray.data.toList = _
  rw [← String.utf8Encode_toList, List.utf8Encode, List.data_toByteArray]

/-- The encoding of a blank does not start with a brace. -/
theorem head_whitespace {c : Char} (h : c ∈ whitespace) :
    (String.utf8EncodeChar c).head? ≠ some 123 ∧ String.utf8EncodeChar c ≠ [] := by
  exact of_mem_of_all (by decide : (whitespace.all fun d =>
    (String.utf8EncodeChar d).head? ≠ some 123 ∧ String.utf8EncodeChar d ≠ []) = true) h

/-- A text that starts with a brace is not blank. -/
theorem not_blank {text : String} {data : Bytes} (h : fromUtf8 data = some text)
    (hbrace : data.head? = some 123) : blank text = false := by
  rw [← textBytes_of_fromUtf8 h, textBytes_eq_flatMap] at hbrace
  cases htext : text.toList with
  | nil => rw [htext] at hbrace; cases hbrace
  | cons c rest =>
      rw [htext, List.flatMap_cons, List.head?_append] at hbrace
      rw [blank, htext, List.all_cons, Bool.and_eq_false_iff]
      left
      rw [decide_eq_false_iff_not]
      intro hc
      obtain ⟨hhead, hne⟩ := head_whitespace hc
      obtain ⟨b, tail, hcons⟩ := List.exists_cons_of_ne_nil hne
      rw [hcons] at hbrace hhead
      exact hhead hbrace

/-! ## Reading back -/

section Read

variable (json : Json)

/-- The lines of these events. -/
def eventLines (events : List Event) : Bytes := events.flatMap (line json)

/-- A part of a line, in whole characters, that starts as an event does but is none, or nothing. -/
def Torn (tail : Bytes) : Prop :=
  tail = [] ∨ PlainLine tail ∧ tail.head? = some 123 ∧
    ∃ text, fromUtf8 tail = some text ∧ json.fromStr text = none

/-- The bytes hold these events. -/
inductive Holds (bytes : Bytes) (events : List Event) : Prop where
  | whole (tail : Bytes) (torn : Torn json tail) (bytes_eq : bytes = eventLines json events ++ tail)
  | last (before : List Event) (e : Event) (writes : json.Writes e)
      (bytes_eq : bytes = eventLines json before ++ json.toVec e) (events_eq : events = before ++ [e])

variable {json}

theorem eventLines_eq (events : List Event) :
    eventLines json events = (events.map json.toVec).flatMap fun line => line ++ [NEWLINE] := by
  rw [List.flatMap_map]
  rfl

theorem eventLines_append (events : List Event) (e : Event) :
    eventLines json (events ++ [e]) = eventLines json events ++ line json e := by
  rw [eventLines, List.flatMap_append, List.flatMap_singleton]
  rfl

theorem Json.Writes.toVec_ne_nil {e : Event} (h : json.Writes e) : json.toVec e ≠ [] := by
  intro hnil
  have hobject := h.object
  rw [hnil] at hobject
  cases hobject

/-- A part of a line starts as the line does. -/
theorem Json.Writes.head_of_prefix {e : Event} (h : json.Writes e) {front : Bytes}
    (hfront : front <+: json.toVec e) (hne : front ≠ []) : front.head? = some 123 := by
  obtain ⟨b, more, rfl⟩ := List.exists_cons_of_ne_nil hne
  obtain ⟨rest, hrest⟩ := hfront
  have hobject := h.object
  rw [← hrest] at hobject
  exact hobject

theorem Torn.plain {tail : Bytes} (h : Torn json tail) : PlainLine tail := by
  rcases h with rfl | ⟨hplain, -, -⟩
  · intro b hb
    cases hb
  · exact hplain

/-- The texts of events are read as these events. -/
theorem texts_of_events {events : List Event} (h : ∀ e ∈ events, json.Writes e) :
    ∃ texts, (events.map json.toVec).mapM fromUtf8 = some texts ∧
      List.Forall₂ (fun e text => json.fromStr text = some e ∧ blank text = false) events texts := by
  induction events with
  | nil => exact ⟨[], rfl, .nil⟩
  | cons e rest ih =>
      have hwrites := h e List.mem_cons_self
      obtain ⟨text, htext, hread⟩ := hwrites.read
      obtain ⟨texts, htexts, hall⟩ := ih fun e' he' => h e' (List.mem_cons_of_mem e he')
      refine ⟨text :: texts, ?_, .cons ⟨hread, not_blank htext hwrites.object⟩ hall⟩
      rw [List.map_cons, List.mapM_cons, htext, htexts]
      rfl

/-- Lines of events come before whatever the other lines are. -/
theorem parseLines_append {events : List Event} {texts : List String}
    (h : List.Forall₂ (fun e text => json.fromStr text = some e ∧ blank text = false) events texts)
    (number : Nat) (more : List String) :
    parseLines json number (texts ++ more) =
      (parseLines json (number + texts.length) more).map fun later => events ++ later := by
  induction h generalizing number with
  | nil =>
      simp only [List.nil_append, List.length_nil, Nat.add_zero]
      cases parseLines json number more <;> rfl
  | cons hhead _ ih =>
      obtain ⟨hread, hblank⟩ := hhead
      rw [List.cons_append, parseLines, if_neg (by simp [hblank]), hread]
      simp only [ih (number + 1), List.length_cons]
      rw [Nat.add_right_comm, Nat.add_assoc]
      cases parseLines json (number + (_ + 1)) more <;> rfl

/-- The lines of events, and at most one line behind them. -/
theorem readEvents_lines {events : List Event} (h : ∀ e ∈ events, json.Writes e) {tail : Bytes}
    (htail : PlainLine tail) :
    ∃ texts, List.Forall₂ (fun e text => json.fromStr text = some e ∧ blank text = false)
        events texts ∧
      readEvents json (eventLines json events ++ tail) =
        (okOr ((if tail = [] then [] else [tail]).mapM fromUtf8) .invalidUtf8).bind fun more =>
          parseLines json 1 (texts ++ more) := by
  obtain ⟨texts, htexts, hall⟩ := texts_of_events h
  refine ⟨texts, hall, ?_⟩
  have hplain : ∀ l ∈ events.map json.toVec, PlainLine l := by
    intro l hl
    obtain ⟨e, he, rfl⟩ := List.mem_map.1 hl
    exact (h e he).plain
  rw [readEvents, eventLines_eq, splitLines_lines hplain htail, List.mapM_append, htexts]
  cases (if tail = [] then [] else [tail]).mapM fromUtf8 <;> rfl

/-- **Bytes are read as the events they hold.** -/
theorem read_of_holds {bytes : Bytes} {events : List Event} (h : Holds json bytes events)
    (hwrites : ∀ e ∈ events, json.Writes e) : readEvents json bytes = .ok events := by
  cases h with
  | whole tail torn bytes_eq =>
      obtain ⟨texts, hall, hread⟩ := readEvents_lines hwrites torn.plain
      rw [bytes_eq, hread]
      by_cases hnil : tail = []
      · rw [if_pos hnil]
        show parseLines json 1 (texts ++ []) = _
        rw [parseLines_append hall]
        simp [parseLines, Except.map]
      · obtain rfl | ⟨-, hbrace, text, htext, hnone⟩ := torn
        · exact absurd rfl hnil
        · have hblank := not_blank htext hbrace
          rw [if_neg hnil, List.mapM_cons, htext]
          show parseLines json 1 (texts ++ [text]) = _
          rw [parseLines_append hall]
          simp [parseLines, hblank, hnone, Except.map]
  | last before e writes bytes_eq events_eq =>
      obtain ⟨texts, hall, hread⟩ := readEvents_lines
        (fun e' he' => hwrites e' (by rw [events_eq]; exact List.mem_append_left _ he')) writes.plain
      obtain ⟨text, htext, hevent⟩ := writes.read
      have hblank := not_blank htext writes.object
      rw [bytes_eq, hread, if_neg writes.toVec_ne_nil, List.mapM_cons, htext, events_eq]
      show parseLines json 1 (texts ++ [text]) = _
      rw [parseLines_append hall]
      simp [parseLines, hblank, hevent, Except.map]

/-- A line that is no event is skipped while it is the last, and refused when another follows. -/
theorem read_malformed {events more : List Event} (h : ∀ e ∈ events ++ more, json.Writes e)
    {malformed : Bytes} (hplain : PlainLine malformed) (hbrace : malformed.head? = some 123)
    {text : String} (htext : fromUtf8 malformed = some text) (hnone : json.fromStr text = none) :
    readEvents json (eventLines json events ++ (malformed ++ [NEWLINE]) ++ eventLines json more) =
      if more = [] then .ok events else .error (.line (events.length + 1)) := by
  obtain ⟨texts, htexts, hall⟩ := texts_of_events fun e he => h e (List.mem_append_left more he)
  obtain ⟨later, hlater, hrest⟩ := texts_of_events fun e he => h e (List.mem_append_right events he)
  have hlines : ∀ l ∈ events.map json.toVec ++ malformed :: more.map json.toVec, PlainLine l := by
    intro l hl
    rcases List.mem_append.1 hl with hl | hl
    · obtain ⟨e, he, rfl⟩ := List.mem_map.1 hl
      exact (h e (List.mem_append_left more he)).plain
    · rcases List.mem_cons.1 hl with rfl | hl
      · exact hplain
      · obtain ⟨e, he, rfl⟩ := List.mem_map.1 hl
        exact (h e (List.mem_append_right events he)).plain
  have hsplit := splitLines_lines hlines (fun b hb => absurd hb List.not_mem_nil : PlainLine [])
  have hbytes : eventLines json events ++ (malformed ++ [NEWLINE]) ++ eventLines json more =
      (events.map json.toVec ++ malformed :: more.map json.toVec).flatMap
        (fun line => line ++ [NEWLINE]) ++ [] := by
    simp [eventLines_eq]
  have hblank := not_blank htext hbrace
  rw [hbytes, readEvents, hsplit, if_pos rfl, List.append_nil, List.mapM_append, htexts,
    List.mapM_cons, htext, hlater]
  show parseLines json 1 (texts ++ text :: later) = _
  rw [parseLines_append hall, parseLines, hblank, hnone]
  have hlength : later = [] ↔ more = [] := by
    rw [← List.length_eq_zero_iff, ← hrest.length_eq, List.length_eq_zero_iff]
  simp only [hlength, Bool.false_eq_true, if_false, ← hall.length_eq]
  split
  · simp [Except.map]
  · rw [Nat.add_comm]
    rfl

/-- Bytes that end where a line ends hold whole lines. -/
theorem Holds.bytes_eq {bytes : Bytes} {events : List Event} (h : Holds json bytes events)
    (hends : endsLine bytes = true) : bytes = eventLines json events := by
  cases h with
  | whole tail torn bytes_eq =>
      by_cases hnil : tail = []
      · rw [bytes_eq, hnil, List.append_nil]
      · rw [bytes_eq, endsLine_append_plain torn.plain hnil] at hends
        cases hends
  | last before e writes bytes_eq events_eq =>
      rw [bytes_eq, endsLine_append_plain writes.plain writes.toVec_ne_nil] at hends
      cases hends

theorem holds_lines (events : List Event) : Holds json (eventLines json events) events :=
  .whole [] (.inl rfl) (List.append_nil _).symm

theorem endsLine_eventLines (events : List Event) : endsLine (eventLines json events) = true := by
  rw [eventLines_eq]
  exact endsLine_lines _

/-- A first part of an event's line is torn, unless it is all of the event. -/
theorem Json.Writes.torn {e : Event} (h : json.Writes e) {front : Bytes} (hfront : front <+: json.toVec e)
    (hne : front ≠ json.toVec e) (hutf8 : (fromUtf8 front).isSome = true) : Torn json front := by
  by_cases hnil : front = []
  · exact .inl hnil
  · obtain ⟨text, htext⟩ := Option.isSome_iff_exists.1 hutf8
    exact .inr ⟨h.plain.of_prefix hfront, h.head_of_prefix hfront hnil, text, htext,
      h.partial_none front text hfront hne htext⟩

/-- A line that was cut is skipped, unless all of its event is there. -/
theorem holds_cut {events : List Event} {e : Event} (hwrites : json.Writes e) {written : Nat}
    (hutf8 : (fromUtf8 ((line json e).take written)).isSome = true) :
    Holds json (eventLines json events ++ (line json e).take written) events ∨
      Holds json (eventLines json events ++ (line json e).take written) (events ++ [e]) := by
  by_cases hlength : written ≤ (json.toVec e).length
  · have htake : (line json e).take written = (json.toVec e).take written :=
      List.take_append_of_le_length hlength
    rw [htake] at hutf8 ⊢
    by_cases hall : (json.toVec e).take written = json.toVec e
    · exact .inr (.last events e hwrites (by rw [hall]) rfl)
    · exact .inl (.whole _ (hwrites.torn (List.take_prefix _ _) hall hutf8) rfl)
  · have htake : (line json e).take written = line json e := by
      refine List.take_of_length_le ?_
      rw [line, List.length_append, List.length_singleton]
      omega
    rw [htake, ← eventLines_append]
    exact .inr (holds_lines _)

theorem endsTorn_iff {bytes : Bytes} : endsTorn json bytes = true ↔
    lastLine bytes ≠ [] ∧ ∃ text, fromUtf8 (lastLine bytes) = some text ∧ json.fromStr text = none := by
  rw [endsTorn, Bool.and_eq_true, decide_eq_true_iff, Option.any_eq_true]
  simp only [Option.isNone_iff_eq_none]

/-- Behind whole lines, a torn tail is the last line. -/
theorem Torn.endsTorn {front tail : Bytes} (h : Torn json tail) (hfront : endsLine front = true)
    (hne : tail ≠ []) : endsTorn json (front ++ tail) = true := by
  obtain ⟨-, -, hnone⟩ := h.resolve_left hne
  rw [endsTorn_iff, lastLine_append_plain hfront h.plain]
  exact ⟨hne, hnone⟩

/-- A torn tail that a line is appended to stays torn while it is cut off and no event. -/
theorem Holds.cut_torn {bytes : Bytes} {events : List Event} (h : Holds json bytes events)
    (htorn : endsTorn json bytes = true) {e : Event} (hwrites : json.Writes e) {written : Nat}
    (hcut : endsTorn json (bytes ++ (line json e).take written) = true) :
    Holds json (bytes ++ (line json e).take written) events := by
  have hends := @endsLine_eventLines json
  obtain ⟨hnil, text, htext, hnone⟩ := endsTorn_iff.1 htorn
  cases h with
  | whole tail torn bytes_eq =>
      rw [bytes_eq, lastLine_append_plain (hends events) torn.plain] at hnil
      obtain ⟨hplain, hbrace, -⟩ := torn.resolve_left hnil
      rw [bytes_eq, List.append_assoc] at hcut ⊢
      by_cases hlength : written ≤ (json.toVec e).length
      · have htake : (line json e).take written = (json.toVec e).take written :=
          List.take_append_of_le_length hlength
        have hmore : PlainLine (tail ++ (line json e).take written) := by
          intro b hb
          rcases List.mem_append.1 hb with hb | hb
          · exact hplain b hb
          · rw [htake] at hb
            exact hwrites.plain b (List.mem_of_mem_take hb)
        obtain ⟨-, later, hlater, hlaterNone⟩ := endsTorn_iff.1 hcut
        rw [lastLine_append_plain (hends events) hmore] at hlater
        refine .whole _ (.inr ⟨hmore, ?_, later, hlater, hlaterNone⟩) rfl
        rw [List.head?_append, hbrace]
        rfl
      -- the newline was written
      · have htake : (line json e).take written = line json e := by
          refine List.take_of_length_le ?_
          rw [line, List.length_append, List.length_singleton]
          omega
        have hwhole : eventLines json events ++ (tail ++ line json e) =
            eventLines json events ++ (tail ++ json.toVec e) ++ [NEWLINE] ++ [] := by
          simp [line]
        rw [htake, hwhole, endsTorn_iff, lastLine_append_plain (endsLine_newline _)
          fun b hb => absurd hb List.not_mem_nil] at hcut
        exact absurd rfl hcut.1
  | last before last writes bytes_eq events_eq =>
      -- the last line would be an event
      rw [bytes_eq, lastLine_append_plain (hends before) writes.plain] at htext
      obtain ⟨text', htext', hevent⟩ := writes.read
      obtain rfl := Option.some.inj (htext.symm.trans htext')
      rw [hnone] at hevent
      cases hevent

end Read

/-! ## Runs -/

section Runs

variable {json : Json} {sha256 : Bytes → Bytes32} {retry : RetryPolicy}

/-- What a start should read: the log, at most with the event in flight added. -/
def State.Expects (s : State) (events : List Event) : Prop :=
  events = s.log ∨ ∃ e, s.inFlight = some e ∧ events = s.log ++ [e]

/-- What every state of a clean run satisfies. -/
structure State.Sound (json : Json) (sha256 : Bytes → Bytes32) (retry : RetryPolicy) (s : State) :
    Prop where
  writes : ∀ e ∈ s.log ++ s.inFlight.toList, json.Writes e
  holds : s.behind = false → ∃ events, Holds json s.bytes events ∧ s.Expects events
  down : s.phase = .down → s.behind = false
  up : s.phase ≠ .down → s.inFlight = none
  opening : ∀ ledger rest, s.phase = .opening ledger rest → ledger = replay sha256 retry s.log
  running : ∀ ledger, s.phase = .running ledger →
    ledger = replay sha256 retry s.log ∧ s.behind = false ∧ s.bytes = eventLines json s.log

theorem State.Sound.writes_of_expects {s : State} (h : s.Sound json sha256 retry)
    {events : List Event} (hevents : s.Expects events) : ∀ e ∈ events, json.Writes e := by
  intro e he
  rcases hevents with rfl | ⟨e', hflight, rfl⟩
  · exact h.writes e (List.mem_append_left _ he)
  · refine h.writes e ?_
    rw [hflight]
    exact he

theorem replay_append (events : List Event) (e : Event) :
    replay sha256 retry (events ++ [e]) = (replay sha256 retry events).apply sha256 retry e := by
  rw [replay, List.foldl_append]
  rfl

theorem sound_fresh : State.Sound json sha256 retry State.fresh where
  writes := by simp [State.fresh]
  holds := fun _ => ⟨[], holds_lines [], .inl rfl⟩
  down := fun _ => rfl
  up := fun h => absurd rfl h
  opening := fun _ _ h => by cases h
  running := fun _ h => by cases h

/-- Up and not behind, the file holds the log. -/
theorem State.Sound.holds_log {s : State} (h : s.Sound json sha256 retry) (hup : s.phase ≠ .down)
    (hbehind : s.behind = false) : Holds json s.bytes s.log := by
  obtain ⟨events, hholds, hevents | ⟨e, hflight, -⟩⟩ := h.holds hbehind
  · exact hevents ▸ hholds
  · rw [h.up hup] at hflight
    cases hflight

/-- A line appended by a process that is up. -/
theorem State.Sound.append {s : State} (h : s.Sound json sha256 retry) {e : Event}
    (hwrites : json.Writes e) (hup : s.phase ≠ .down) {phase : Phase}
    (hphase : ∀ ledger, phase = .running ledger → ledger = replay sha256 retry (s.log ++ [e]) ∧
      s.behind = false ∧ endsLine s.bytes = true)
    (hopening : ∀ ledger rest, phase = .opening ledger rest →
      ledger = replay sha256 retry (s.log ++ [e])) (hne : phase ≠ .down) :
    (s.append json e phase).Sound json sha256 retry := by
  have hbytes : s.behind = false → endsLine s.bytes = true →
      (s.append json e phase).bytes = eventLines json (s.log ++ [e]) := by
    intro hbehind hends
    rw [eventLines_append, ← (h.holds_log hup hbehind).bytes_eq hends]
    rfl
  constructor
  · intro e' he'
    rcases List.mem_append.1 he' with hlog | hflight
    · rcases List.mem_append.1 hlog with hold | hnew
      · exact h.writes e' (List.mem_append_left _ hold)
      · rw [List.mem_singleton.1 hnew]
        exact hwrites
    · cases hflight
  · intro hbehind
    obtain ⟨hold, hends⟩ : s.behind = false ∧ endsLine s.bytes = true := by
      simpa [State.append] using hbehind
    exact ⟨s.log ++ [e], hbytes hold hends ▸ holds_lines _, .inl rfl⟩
  · exact fun hdown => absurd hdown hne
  · exact fun _ => rfl
  · exact hopening
  · intro ledger hrunning
    obtain ⟨hledger, hbehind, hends⟩ := hphase ledger hrunning
    exact ⟨hledger, by simp [State.append, hbehind, hends], hbytes hbehind hends⟩

/-- A crash in the middle of a line, behind whole lines or a partial one. -/
theorem State.Sound.cut {s : State} (h : s.Sound json sha256 retry) {e : Event} {written : Nat}
    (hwrites : json.Writes e) (hup : s.phase ≠ .down) (hclean : (Action.cut e written).Clean json s) :
    (s.cut json e written).Sound json sha256 retry := by
  obtain ⟨hbehind, hfile⟩ := hclean
  have hlog := h.holds_log hup hbehind
  have hbytes : (s.cut json e written).bytes = s.bytes ++ (line json e).take written := rfl
  have hholds : Holds json (s.cut json e written).bytes s.log ∨
      Holds json (s.cut json e written).bytes (s.log ++ [e]) := by
    rcases hfile with ⟨hends, hutf8⟩ | ⟨htorn, hcut⟩
    · rw [hbytes, hlog.bytes_eq hends]
      exact holds_cut hwrites hutf8
    · rw [hbytes] at hcut ⊢
      exact .inl (hlog.cut_torn htorn hwrites hcut)
  constructor
  · intro e' he'
    rcases List.mem_append.1 he' with hlog | hflight
    · exact h.writes e' (List.mem_append_left _ hlog)
    · obtain rfl : e' = e := by simpa [State.cut] using hflight
      exact hwrites
  · intro _
    rcases hholds with hlog | hadded
    · exact ⟨s.log, hlog, .inl rfl⟩
    · exact ⟨s.log ++ [e], hadded, .inr ⟨e, rfl, rfl⟩⟩
  · exact fun _ => hbehind
  · exact fun hne => absurd rfl hne
  · exact fun _ _ hphase => by cases hphase
  · exact fun _ hphase => by cases hphase

/-- A start reads what it should. -/
theorem State.Sound.read {s : State} (h : s.Sound json sha256 retry) (hdown : s.phase = .down) :
    ∃ events, readEvents json s.bytes = .ok events ∧ s.Expects events := by
  obtain ⟨events, hholds, hevents⟩ := h.holds (h.down hdown)
  exact ⟨events, read_of_holds hholds (h.writes_of_expects hevents), hevents⟩

/-- A start that has replayed these events. -/
theorem State.Sound.start {s : State} (h : s.Sound json sha256 retry) (hdown : s.phase = .down)
    {events : List Event} (hread : readEvents json s.bytes = .ok events) (recovery : List Event) :
    State.Sound json sha256 retry
      ⟨some s.bytes, .opening (replay sha256 retry events) recovery, events, none, s.behind⟩ := by
  obtain ⟨held, hholds, hheld⟩ := h.holds (h.down hdown)
  have hwrites := h.writes_of_expects hheld
  obtain rfl : held = events := Except.ok.inj ((read_of_holds hholds hwrites).symm.trans hread)
  constructor
  · simpa using hwrites
  · exact fun _ => ⟨held, hholds, .inl rfl⟩
  · exact fun hphase => by cases hphase
  · exact fun _ => rfl
  · intro ledger rest hphase
    exact (Phase.opening.inj hphase).1.symm
  · exact fun _ hphase => by cases hphase

/-- **Every clean action keeps the state sound.** -/
theorem State.Sound.step {s s' : State} {a : Action} (h : s.Sound json sha256 retry)
    (hwrites : ∀ e ∈ a.event, json.Writes e) (hclean : a.Clean json s)
    (hstep : step json sha256 retry s a = some s') : s'.Sound json sha256 retry := by
  cases a with
  | start nowMs =>
      simp only [Service.step] at hstep
      split at hstep
      · next hdown =>
        -- what is read is the log, so the replay is the ledger of the log
        obtain ⟨events, hread, -⟩ := h.read hdown
        rw [hread] at hstep
        obtain rfl := Option.some.inj hstep
        exact h.start hdown hread _
      · cases hstep
  | recover e =>
      simp only [Service.step] at hstep
      split at hstep
      · next ledger next rest hphase =>
        split at hstep
        · obtain rfl := Option.some.inj hstep
          have hledger := h.opening ledger (next :: rest) hphase
          refine h.append (hwrites e rfl) (by simp [hphase]) ?_ ?_ (by simp)
          · intro l hrunning
            cases hrunning
          · intro l more hopening
            rw [← (Phase.opening.inj hopening).1, hledger, replay_append]
        · cases hstep
      · cases hstep
  | compact l =>
      simp only [Service.step] at hstep
      split at hstep
      · next ledger hphase =>
        split at hstep
        · next hsame =>
          obtain rfl := Option.some.inj hstep
          -- the file is the one line of the snapshot, which replays to the ledger itself
          have hbytes : line json (.snapshot ledger) = eventLines json [.snapshot ledger] := by
            rw [eventLines, List.flatMap_singleton]
          constructor
          · intro e he
            obtain rfl : e = .snapshot ledger := by simpa using he
            exact hwrites _ (by rw [hsame]; rfl)
          · exact fun _ => ⟨[.snapshot ledger], hbytes ▸ holds_lines _, .inl rfl⟩
          · exact fun _ => rfl
          · exact fun _ => rfl
          · exact fun _ _ hopening => by cases hopening
          · intro l' hrunning
            exact ⟨(Phase.running.inj hrunning).symm, rfl, hbytes⟩
        · cases hstep
      · cases hstep
  | commit e =>
      simp only [Service.step] at hstep
      split at hstep
      · next ledger hphase =>
        split at hstep
        · cases hstep
        · obtain rfl := Option.some.inj hstep
          -- a running service writes behind a whole line
          obtain ⟨hledger, hbehind, hbytes⟩ := h.running ledger hphase
          refine h.append (hwrites e rfl) (by simp [hphase]) ?_ ?_ (by simp)
          · intro l hrunning
            refine ⟨?_, hbehind, ?_⟩
            · rw [← Phase.running.inj hrunning, hledger, replay_append]
            · rw [hbytes]
              exact endsLine_eventLines s.log
          · exact fun _ _ hopening => by cases hopening
      · cases hstep
  | cut e written =>
      simp only [Service.step] at hstep
      split at hstep
      · next hphase =>
        split at hstep
        · obtain rfl := Option.some.inj hstep
          exact h.cut (hwrites e rfl) (by simp [hphase]) hclean
        · cases hstep
      · next hphase =>
        split at hstep
        · cases hstep
        · obtain rfl := Option.some.inj hstep
          exact h.cut (hwrites e rfl) (by simp [hphase]) hclean
      · cases hstep
  | crash =>
      simp only [Service.step] at hstep
      split at hstep
      · cases hstep
      · next hup =>
        obtain rfl := Option.some.inj hstep
        constructor
        · exact h.writes
        -- the file is readable behind the crash: it holds the log, in whole lines
        · exact fun _ => ⟨s.log, h.holds_log hup hclean, .inl rfl⟩
        · exact fun _ => hclean
        · exact fun hne => absurd rfl hne
        · exact fun _ _ hphase => by cases hphase
        · exact fun _ hphase => by cases hphase

/-- **Every state of a clean run is sound**, by induction over its actions. -/
theorem State.Sound.run {s s' : State} {actions : List Action} (h : s.Sound json sha256 retry)
    (hwrites : ∀ a ∈ actions, ∀ e ∈ a.event, json.Writes e)
    (hclean : CleanRun json sha256 retry s actions)
    (hrun : runActions json sha256 retry s actions = some s') : s'.Sound json sha256 retry := by
  induction actions generalizing s with
  | nil =>
      obtain rfl := Option.some.inj hrun
      exact h
  | cons a rest ih =>
      rw [runActions, List.foldlM_cons] at hrun
      obtain ⟨middle, hstep, hrest⟩ := Option.bind_eq_some_iff.1 hrun
      obtain ⟨hfirst, hlater⟩ := hclean
      exact ih (h.step (hwrites a List.mem_cons_self) hfirst hstep)
        (fun a' ha' => hwrites a' (List.mem_cons_of_mem a ha')) (hlater middle hstep) hrest

end Runs

end UnicityBridge.Service
