import UnicityBridge.Lib.Utf8
import UnicityBridge.Service.Journal
import UnicityBridge.Service.Ports

/-!
# The commands behind the ports

What `sequencer.rs` and `submitter.rs` make of a command that ended: the settlement log, confirmations,
rejections or the outcome of a submission. An error quotes the start of an output that is not the JSON
expected, cut by bytes, and a cut inside a character panics.

`serde_json` is a parameter, as are the texts of the host's errors. A command that is not configured is
`none`, and one that could not be run to its end an error.
-/

set_option autoImplicit false

namespace UnicityBridge.Service.Commands

open UnicityBridge.Lib UnicityBridge.Lib.Utf8
open UnicityBridge.Settlement (HostError SettledBatch SettledLog parseBytes32)

/-! ## The settlement log -/

/-- `serde_json::Value` -/
inductive Value where
  | null
  | bool (value : Bool)
  | number (text : String)
  | string (text : String)
  | array (items : List Value)
  | object (fields : List (String × Value))

namespace Value

/-- The field of an object. -/
def get (key : String) : Value → Option Value
  | object fields => fields.lookup key
  | _ => none

/-- `value[key]`, which is null where there is no such field -/
def index (key : String) (json : Value) : Value := (json.get key).getD null

/-- The elements, if the value is an array. -/
def asArray : Value → Option (List Value)
  | array items => some items
  | _ => none

/-- The text, if the value is one. -/
def asStr : Value → Option String
  | string text => some text
  | _ => none

/-- Whether the value is `null`. -/
def isNull : Value → Bool
  | null => true
  | _ => false

end Value

/-- 32 bytes in hex. -/
def b32 (v : Value) : Settlement.Result Bytes32 := do
  let text ← okOr v.asStr (.check "expected hex string")
  parseBytes32 text

/-- An array of them. -/
def b32Arr (v : Value) : Settlement.Result (List Bytes32) := do
  let items ← okOr v.asArray (.check "expected array")
  items.mapM b32

/-- The transaction of a batch; a missing or empty one is none. -/
def parseTxid : Option Value → Settlement.Result (Option String)
  | none | some .null => .ok none
  | some (.string t) => .ok (if t = "" then none else some t)
  | some _ => .error (.check "settlement log: `txid` must be a string")

/-- A batch of the printed log. -/
def parseBatch (b : Value) : Settlement.Result SettledBatch := do
  let txid ← parseTxid (b.get "txid")
  let nullifiers ← b32Arr (b.index "nullifiers")
  let spentRootOld ← b32 (b.index "spent_root_old")
  let spentRootNew ← b32 (b.index "spent_root_new")
  .ok { nullifiers, spentRootOld, spentRootNew, txid }

/-- The log that the events command printed. -/
def parseSettledLog (json : Value) : Settlement.Result SettledLog := do
  let items ← okOr (json.index "batches").asArray
    (.check "settlement log: missing `batches` array")
  let batches ← items.mapM parseBatch
  let onChainSpentRoot ← match json.get "spent_root" with
    | some v => if v.isNull then .ok none else some <$> b32 v
    | none => .ok none
  .ok { batches, onChainSpentRoot }

section Typed

open UnicityBridge.Settlement (BatchJson LogJson)

/-- The JSON of a batch with its fields in place. -/
def batchValue (batch : BatchJson) : Value :=
  .object ([("nullifiers", .array (batch.nullifiers.map .string)),
    ("spent_root_old", .string batch.spentRootOld), ("spent_root_new", .string batch.spentRootNew)] ++
      batch.txid.toList.map fun t => ("txid", .string t))

/-- The JSON of a log. -/
def logValue (log : LogJson) : Value :=
  .object (("batches", .array (log.batches.map batchValue)) ::
    log.spentRoot.toList.map fun root => ("spent_root", .string root))

/-- The fields of a batch, as they are read. -/
theorem batchValue_fields (batch : BatchJson) :
    (batchValue batch).get "txid" = batch.txid.map .string ∧
    (batchValue batch).index "nullifiers" = .array (batch.nullifiers.map .string) ∧
    (batchValue batch).index "spent_root_old" = .string batch.spentRootOld ∧
    (batchValue batch).index "spent_root_new" = .string batch.spentRootNew := by
  obtain ⟨nullifiers, old, new, txid⟩ := batch
  cases txid with
  | none | some => exact ⟨rfl, rfl, rfl, rfl⟩

theorem parseTxid_string (txid : Option String) :
    parseTxid (txid.map .string) = .ok (txid.filter fun t => t ≠ "") := by
  cases txid with
  | none => rfl
  | some t => by_cases ht : t = "" <;> simp [parseTxid, Option.filter, ht]

theorem parseBatch_value (batch : BatchJson) :
    parseBatch (batchValue batch) = Settlement.parseBatch batch := by
  obtain ⟨htxid, hnullifiers, hold, hnew⟩ := batchValue_fields batch
  have hitems : b32Arr (.array (batch.nullifiers.map Value.string)) =
      batch.nullifiers.mapM parseBytes32 := by
    show (batch.nullifiers.map Value.string).mapM b32 = _
    rw [List.mapM_map]
    rfl
  rw [parseBatch, htxid, parseTxid_string, hnullifiers, hold, hnew, hitems]
  rfl

/-- A log of the shape that the relayer prints is parsed as the typed one. -/
theorem parseSettledLog_value (log : LogJson) :
    parseSettledLog (logValue log) = Settlement.parseSettledLog log := by
  have hbatches : (log.batches.map batchValue).mapM parseBatch =
      log.batches.mapM Settlement.parseBatch := by
    rw [List.mapM_map]
    exact congrArg (fun f => log.batches.mapM f) (funext parseBatch_value)
  obtain ⟨batches, root⟩ := log
  cases root with
  | none =>
      show (batches.map batchValue).mapM parseBatch >>= _ = _
      rw [hbatches]
      rfl
  | some root =>
      show (batches.map batchValue).mapM parseBatch >>= _ = _
      rw [hbatches, Settlement.parseSettledLog]
      show _ = (batches.mapM Settlement.parseBatch >>= fun batches => _)
      congr 1
      funext parsed
      show (some <$> parseBytes32 root >>= fun root => Except.ok (⟨parsed, root⟩ : SettledLog)) =
        (parseBytes32 root >>= fun root => Except.ok (⟨parsed, some root⟩ : SettledLog))
      cases parseBytes32 root with
      | ok | error => rfl

end Typed

/-! ## Outputs -/

/-- How a process ended: its code, if it was not killed, and the text of it. -/
structure ExitStatus where
  code : Option Int
  text : String

/-- Exit code zero; a killed process has none. -/
def ExitStatus.success (status : ExitStatus) : Bool := status.code == some 0

/-- What a finished process leaves. -/
structure Output where
  status : ExitStatus
  stdout : Bytes
  stderr : Bytes

/-- What `trim` leaves of a text. -/
def trim (text : String) : String :=
  let blank (c : Char) : Bool := c ∈ whitespace
  String.ofList ((text.toList.dropWhile blank).reverse.dropWhile blank).reverse

/-- An output as its text. -/
def textOf (bytes : Bytes) : String := trim (fromUtf8Lossy bytes)

/-- The start of a text, for an error. -/
def snippet {ε : Type} (s : String) : Checked ε String :=
  if byteLength s.toList ≤ 200 then Checked.lift (.ok s)
  else do
    let front ← sliceTo s 200
    Checked.lift (.ok (front ++ "…"))

/-- What the service prints of the JSON it could not decode. -/
structure Errors (ε : Type) where
  spawn : String → ε
  command : String → String → ε
  decode : String → String → ε

/-- The output of a command as its JSON. The commands that print JSON share this. -/
def readJson {ε α : Type} (errors : Errors ε) (fromStr : String → Except String α)
    (run : Except String Output) : Checked ε α :=
  match run with
  | .error error => Checked.lift (.error (errors.spawn error))
  | .ok output =>
      if output.status.success then
        match fromStr (textOf output.stdout) with
        | .ok value => Checked.lift (.ok value)
        | .error error => do
            let got ← snippet (textOf output.stdout)
            Checked.lift (.error (errors.decode error got))
      else Checked.lift (.error (errors.command output.status.text (textOf output.stderr)))

/-! ## The commands -/

/-- What the simulate command prints. -/
structure Simulation where
  rejected : List Rejected

/-- `serde_json::from_str` of what the commands print. -/
structure FromStr where
  value : String → Except String Value
  confirmations : String → Except String Confirmations
  simulation : String → Except String Simulation

/-- Why a simulation has no verdict. -/
inductive SimulateError where
  | spawn (message : String)
  | command (status stderr : String)
  | decode (message : String)

section Handling

variable (serde : FromStr) (describe : HostError → String)

/-- The run of the events command. -/
def runEventsCommand (run : Except String Output) : Checked ChainSyncError SettledLog := do
  let json ← readJson {
    spawn := .spawn
    command := .commandFailed
    decode := fun e got => .decode s!"events command stdout is not valid JSON ({e}); got: {got}" }
    serde.value run
  Checked.lift ((parseSettledLog json).mapError fun e => .decode (describe e))

/-- The vault's log; empty where no command is configured. -/
def fetchLog : Option (Except String Output) → Checked ChainSyncError SettledLog
  | none => Checked.lift (.ok ⟨[], none⟩)
  | some run => runEventsCommand serde describe run

/-- What the second source confirms. -/
def confirmReleases : Option (Except String Output) → Checked ChainSyncError Confirmations
  | none => Checked.lift (.error .noConfirmationSource)
  | some run =>
      readJson {
        spawn := .spawn
        command := .commandFailed
        decode := fun e got =>
          .decode s!"confirm command stdout is not the expected JSON ({e}); got: {got}" }
        serde.confirmations run

/-- The run of the simulate command. -/
def runSimulateCommand (run : Except String Output) : Checked SimulateError (List Rejected) := do
  let simulation ← readJson {
    spawn := .spawn
    command := .command
    decode := fun e got => .decode s!"{e}; got: {got}" }
    serde.simulation run
  Checked.lift (.ok simulation.rejected)

/-- The releases that would revert; none where no command is configured. -/
def simulate : Option (Except String Output) → Checked SimulateError (List Rejected)
  | none => Checked.lift (.ok [])
  | some run => runSimulateCommand serde run

/-- Broadcast without a receipt (EX_TEMPFAIL). -/
def UNCONFIRMED_EXIT : Int := 75

/-- The outcome of a submission is no result of Rust's: it has no error. -/
def runSubmitCommand (bundle : BatchBundle) (run : Except String Output) :
    Checked Empty SubmitOutcome :=
  if ¬ bundle.hasProof then pure .skipped
  else
    match run with
    | .error e => pure (.failed e)
    | .ok output =>
        let stderr := textOf output.stderr
        let txid := textOf output.stdout
        if output.status.code = some UNCONFIRMED_EXIT ∧ txid ≠ "" then pure (.unconfirmed txid)
        else if ¬ output.status.success then
          if "stale root".toList <:+: stderr.toList then pure .staleRoot
          else pure (.failed s!"submit command exited {output.status.text}: {stderr}")
        else if txid = "" then pure (.failed "submit command exited 0 but printed no txid")
        else pure (.submitted txid)

/-- The submission, skipped where no command is configured. -/
def submit (bundle : BatchBundle) : Option (Except String Output) → Checked Empty SubmitOutcome
  | none => pure .skipped
  | some run => runSubmitCommand bundle run

/-! ## Which outputs panic -/

/-- The command succeeded, its output is not the JSON expected, and the quote of it, which takes the
first 200 bytes of a longer one, ends inside a character. -/
def CutsQuote {α : Type} (fromStr : String → Except String α) (run : Except String Output) : Prop :=
  ∃ output error, run = .ok output ∧ output.status.success = true ∧
    fromStr (textOf output.stdout) = .error error ∧
    200 < byteLength (textOf output.stdout).toList ∧
    ¬ IsBoundary 200 (textOf output.stdout).toList

theorem snippet_returns {ε : Type} (s : String) :
    (snippet s : Checked ε String).Returns ↔ byteLength s.toList ≤ 200 ∨ IsBoundary 200 s.toList := by
  unfold snippet
  split
  · next hshort => exact iff_of_true ⟨_, rfl⟩ (.inl hshort)
  · next hlong =>
    rw [or_iff_right hlong, ← @sliceTo_returns ε]
    cases hslice : charsTo 200 s.toList with
    | some front => simp [sliceTo, hslice, Checked.Returns]
    | none => simp [sliceTo, hslice, Checked.not_returns_panic]

theorem readJson_returns {ε α : Type} (errors : Errors ε) (fromStr : String → Except String α)
    (run : Except String Output) : (readJson errors fromStr run).Returns ↔ ¬ CutsQuote fromStr run := by
  cases run with
  | error e =>
      refine iff_of_true ⟨_, rfl⟩ ?_
      rintro ⟨output, error, hrun, -⟩
      cases hrun
  | ok output =>
      by_cases hsuccess : output.status.success = true
      · cases hread : fromStr (textOf output.stdout) with
        | ok value =>
            refine iff_of_true ⟨.ok value, ?_⟩ ?_
            · simp only [readJson, hsuccess, hread, if_true]
            · rintro ⟨_, error, ⟨⟩, -, herror, -⟩
              rw [hread] at herror
              cases herror
        | error error =>
            have hquote : (readJson errors fromStr (.ok output)).Returns ↔
                (snippet (textOf output.stdout) : Checked ε String).Returns := by
              simp only [readJson, hsuccess, hread, if_true, Checked.returns_bind]
            rw [hquote, snippet_returns]
            constructor
            · rintro hfits ⟨_, _, ⟨⟩, -, -, hlong, hcut⟩
              exact hfits.elim (fun hshort => absurd hshort (Nat.not_le.2 hlong)) hcut
            · intro hcuts
              by_contra hneither
              rw [not_or, Nat.not_le] at hneither
              exact hcuts ⟨output, error, rfl, hsuccess, hread, hneither.1, hneither.2⟩
      · refine iff_of_true ⟨_, if_neg hsuccess⟩ ?_
        rintro ⟨_, error, ⟨⟩, h, -⟩
        exact hsuccess h

/-- The submission quotes its outputs whole. -/
theorem submit_returns (bundle : BatchBundle) (run : Option (Except String Output)) :
    (submit bundle run).Returns := by
  cases run with
  | none => exact ⟨_, rfl⟩
  | some run =>
      cases run with
      | error e =>
          simp only [submit, runSubmitCommand]
          split
          · exact ⟨_, rfl⟩
          · exact ⟨_, rfl⟩
      | ok output =>
          simp only [submit, runSubmitCommand]
          split_ifs
          all_goals exact ⟨_, rfl⟩

/-- **What the service makes of an output**: a log, confirmations, rejections, the outcome of a
submission or an error, unless the quote of an output that is not the JSON expected ends inside a
character. -/
theorem handling_returns (bundle : BatchBundle) (run : Except String Output) :
    ((fetchLog serde describe (some run)).Returns ↔ ¬ CutsQuote serde.value run) ∧
    ((confirmReleases serde (some run)).Returns ↔ ¬ CutsQuote serde.confirmations run) ∧
    ((simulate serde (some run)).Returns ↔ ¬ CutsQuote serde.simulation run) ∧
    (submit bundle (some run)).Returns := by
  refine ⟨?_, ?_, ?_, submit_returns bundle (some run)⟩
  · rw [fetchLog, runEventsCommand, Checked.returns_bind, readJson_returns]
  · rw [confirmReleases, readJson_returns]
  · rw [simulate, runSimulateCommand, Checked.returns_bind, readJson_returns]

end Handling

namespace Sample

/-- What is refused here is no JSON for the real parser either. -/
def serde : FromStr where
  value _ := .error "expected value at line 1 column 1"
  confirmations _ := .error "expected value at line 1 column 1"
  simulation _ := .error "expected value at line 1 column 1"

/-- The texts of the errors that the sample meets. -/
def describe : HostError → String
  | .hex => "hex: Odd number of digits"
  | .check text => text

/-- An error page of which byte 200 is the second of a character. -/
def page : List Char := List.replicate 199 'x' ++ ['é', 'x']

/-- The error page as the output of a command. -/
def output : Output := ⟨⟨some 0, "exit status: 0"⟩, encode page, []⟩

end Sample

theorem trim_eq {text : List Char} (hfirst : ∀ c ∈ text.head?, c ∉ whitespace)
    (hlast : ∀ c ∈ text.getLast?, c ∉ whitespace) :
    trim (String.ofList text) = String.ofList text := by
  have hkeeps (list : List Char) (h : ∀ c ∈ list.head?, c ∉ whitespace) :
      list.dropWhile (fun c => decide (c ∈ whitespace)) = list := by
    cases list with
    | nil => rfl
    | cons c rest => exact List.dropWhile_cons_of_neg (by simpa using h c rfl)
  rw [trim, String.toList_ofList, hkeeps text hfirst,
    hkeeps text.reverse (by rwa [List.head?_reverse]), List.reverse_reverse]

theorem textOf_page : textOf Sample.output.stdout = String.ofList Sample.page := by
  show trim (fromUtf8Lossy (encode Sample.page)) = _
  have hfirst : Sample.page.head? = some 'x' := rfl
  have hlast : Sample.page.getLast? = some 'x' := by
    rw [Sample.page, List.getLast?_append]
    rfl
  have hplain : ∀ c ∈ some 'x', c ∉ whitespace := by
    rintro c ⟨⟩
    decide
  rw [fromUtf8Lossy_encode]
  exact trim_eq (hfirst ▸ hplain) (hlast ▸ hplain)

/-- The page is cut inside its one long character. -/
theorem cutsQuote_page {α : Type} {fromStr : String → Except String α} {error : String}
    (h : fromStr (String.ofList Sample.page) = .error error) :
    CutsQuote fromStr (.ok Sample.output) := by
  have hfront : byteLength (List.replicate 199 'x') = 199 := byteLength_replicate 199 'x'
  refine ⟨Sample.output, error, rfl, rfl, ?_, ?_, ?_⟩
  · rw [textOf_page, h]
  · have hrest : byteLength ['é', 'x'] = 3 := rfl
    rw [textOf_page, String.toList_ofList, Sample.page, byteLength_append, hfront, hrest]
    omega
  · have hrest : ¬ IsBoundary 1 ['é', 'x'] := by decide
    rw [← @isBoundary_append (List.replicate 199 'x'), hfront] at hrest
    rwa [textOf_page, String.toList_ofList]

/-- The service panics on this page, whichever command of the three printed it. -/
theorem handling_returns_counterexample :
    ¬ (fetchLog Sample.serde Sample.describe (some (.ok Sample.output))).Returns ∧
    ¬ (confirmReleases Sample.serde (some (.ok Sample.output))).Returns ∧
    ¬ (simulate Sample.serde (some (.ok Sample.output))).Returns := by
  refine ⟨?_, ?_, ?_⟩
  · rw [fetchLog, runEventsCommand, Checked.returns_bind, readJson_returns, not_not]
    exact cutsQuote_page rfl
  · rw [confirmReleases, readJson_returns, not_not]
    exact cutsQuote_page rfl
  · rw [simulate, runSimulateCommand, Checked.returns_bind, readJson_returns, not_not]
    exact cutsQuote_page rfl

end UnicityBridge.Service.Commands
