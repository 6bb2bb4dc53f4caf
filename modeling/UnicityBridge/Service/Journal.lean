import UnicityBridge.Lib.Lines
import UnicityBridge.Service.LedgerSteps

/-!
# The journal

`journal.rs` and `ReturnStore::open`: the journal is a file of events, one a line; a crash can leave
any first part of the line that is being appended. A start reads the events back, appends the recovery
of the batches a crash cut off, and replaces the file by one snapshot of the ledger.

The JSON of an event is a parameter. A `State` also keeps the events that the file should hold; no code
reads these fields.
-/

set_option autoImplicit false

namespace UnicityBridge.Service

open UnicityBridge.Lib
open UnicityBridge.Wire (textBytes fromUtf8)

/-- What `serde_json` makes of events, and of texts. -/
structure Json where
  toVec : Event → Bytes
  fromStr : String → Option Event

/-- An event is written as one JSON object, with control characters escaped, that is read back; a first
part of it is no event. -/
structure Json.Writes (json : Json) (e : Event) : Prop where
  plain : PlainLine (json.toVec e)
  object : (json.toVec e).head? = some 123
  read : ∃ text, fromUtf8 (json.toVec e) = some text ∧ json.fromStr text = some e
  partial_none : ∀ front text, front <+: json.toVec e → front ≠ json.toVec e →
    fromUtf8 front = some text → json.fromStr text = none

/-- The characters that `trim` takes off. -/
def whitespace : List Char :=
  [0x09, 0x0a, 0x0b, 0x0c, 0x0d, 0x20, 0x85, 0xa0, 0x1680, 0x2000, 0x2001, 0x2002, 0x2003, 0x2004,
    0x2005, 0x2006, 0x2007, 0x2008, 0x2009, 0x200a, 0x2028, 0x2029, 0x202f, 0x205f, 0x3000].map
    Char.ofNat

/-- A line that is skipped. -/
def blank (text : String) : Bool := text.toList.all fun c => c ∈ whitespace

/-- Why the journal does not open. -/
inductive OpenError where
  | invalidUtf8
  | line (number : Nat)
  deriving DecidableEq

section Read

variable (json : Json)

/-- The line of an event. -/
def line (event : Event) : Bytes := json.toVec event ++ [NEWLINE]

/-- The events of the lines from a line number on. A last line that is no event is skipped. -/
def parseLines (number : Nat) : List String → Except OpenError (List Event)
  | [] => .ok []
  | text :: rest =>
      if blank text then parseLines (number + 1) rest
      else
        match json.fromStr text with
        | some event => (parseLines (number + 1) rest).map fun events => event :: events
        | none => if rest = [] then .ok [] else .error (.line number)

/-- The last line is cut off: no newline follows its whole characters, and they are no event. -/
def endsTorn (bytes : Bytes) : Bool :=
  decide (lastLine bytes ≠ []) &&
    (fromUtf8 (lastLine bytes)).any fun text => (json.fromStr text).isNone

/-- The events of a file. -/
def readEvents (bytes : Bytes) : Except OpenError (List Event) := do
  let lines ← okOr ((splitLines [] bytes).mapM fromUtf8) .invalidUtf8
  parseLines json 1 lines

end Read

/-! ## A service over its file -/

/-- The process over the journal: down, between the replay and the compaction, or running. -/
inductive Phase where
  | down
  | opening (ledger : Ledger) (recovery : List Event)
  | running (ledger : Ledger)
  deriving DecidableEq

/-- The file of the journal and the process over it. `log` is what the file should hold, `inFlight` the
event whose append a crash cut off, `behind` that a line was appended behind a partial one. -/
structure State where
  file : Option Bytes
  phase : Phase
  log : List Event
  inFlight : Option Event
  behind : Bool

namespace State

/-- Nothing was started yet. -/
def fresh : State := ⟨none, .down, [], none, false⟩

/-- The bytes of the file; a missing file has none. -/
def bytes (s : State) : Bytes := s.file.getD []

end State

/-- What can happen: a start up to the replay, one recovery event appended, the compaction, a commit,
and a crash, while an event is appended or not. -/
inductive Action where
  | start (nowMs : Nat)
  | recover (event : Event)
  | compact (ledger : Ledger)
  | commit (event : Event)
  | cut (event : Event) (written : Nat)
  | crash
  deriving DecidableEq

/-- The event whose line the action writes. -/
def Action.event : Action → Option Event
  | .start _ => none
  | .recover event => some event
  | .compact ledger => some (.snapshot ledger)
  | .commit event => some event
  | .cut event _ => some event
  | .crash => none

/-- Whether the event replaces all before it. -/
def Event.isSnapshot : Event → Bool
  | .snapshot _ => true
  | _ => false

section Step

variable (json : Json) (sha256 : Bytes → Bytes32) (retry : RetryPolicy)

/-- The ledger of these events. -/
def replay (events : List Event) : Ledger :=
  events.foldl (fun ledger e => ledger.apply sha256 retry e) Ledger.empty

/-- A line is appended whole. -/
def State.append (s : State) (event : Event) (phase : Phase) : State where
  file := some (s.bytes ++ line json event)
  phase := phase
  log := s.log ++ [event]
  inFlight := none
  behind := s.behind || !endsLine s.bytes

/-- A crash leaves the first bytes of the line that is being appended. -/
def State.cut (s : State) (event : Event) (written : Nat) : State :=
  { s with
    file := some (s.bytes ++ (line json event).take written)
    phase := .down
    inFlight := some event }

/-- One action, where the process can do it. A start that cannot read the file ends at once. -/
def step (s : State) : Action → Option State
  | .start nowMs =>
      if s.phase = .down then
        match readEvents json s.bytes with
        | .error _ => some s
        | .ok events =>
            let ledger := replay sha256 retry events
            some { s with
              file := some s.bytes
              phase := .opening ledger (ledger.recover nowMs)
              log := events
              inFlight := none }
      else none
  | .recover event =>
      match s.phase with
      | .opening ledger (next :: rest) =>
          if event = next then
            some (s.append json event (.opening (ledger.apply sha256 retry event) rest))
          else none
      | _ => none
  | .compact snapshot =>
      match s.phase with
      | .opening ledger [] =>
          if snapshot = ledger then
            some {
              file := some (line json (.snapshot ledger))
              phase := .running ledger
              log := [.snapshot ledger]
              inFlight := none
              behind := false }
          else none
      | _ => none
  | .commit event =>
      match s.phase with
      | .running ledger =>
          if event.isSnapshot then none
          else some (s.append json event (.running (ledger.apply sha256 retry event)))
      | _ => none
  | .cut event written =>
      match s.phase with
      | .opening _ (next :: _) => if event = next then some (s.cut json event written) else none
      | .running _ => if event.isSnapshot then none else some (s.cut json event written)
      | _ => none
  | .crash => if s.phase = .down then none else some { s with phase := .down }

/-- The state after these actions, one after another. -/
def runActions (s : State) (actions : List Action) : Option State :=
  actions.foldlM (fun s a => step json sha256 retry s a) s

/-- The crash does not come after a line was appended whole behind a partial one. When it cuts a line
off, it leaves whole characters; behind a partial line they have to stay a partial line with it. Nothing
is asked of other actions. -/
def Action.Clean (s : State) : Action → Prop
  | .cut event written =>
      s.behind = false ∧
        (endsLine s.bytes = true ∧ (fromUtf8 ((line json event).take written)).isSome = true ∨
          endsTorn json s.bytes = true ∧ endsTorn json (s.cut json event written).bytes = true)
  | .crash => s.behind = false
  | _ => True

/-- Every action of the run is clean where it happens. -/
def CleanRun : State → List Action → Prop
  | _, [] => True
  | s, a :: rest =>
      a.Clean json s ∧ ∀ s', step json sha256 retry s a = some s' → CleanRun s' rest

end Step

end UnicityBridge.Service
