import UnicityBridge.Lib.Dialogue
import UnicityBridge.LockVerifier

/-!
# Looking up a lock

`packages/bridge-plugin/src/wallet/lock-lookup.ts`: whether a deposit's lock is on the source chain, and
in which transaction. The vault is asked for the token id first; a locked one is then located in the
vault's `Lock` events, in windows of blocks that shrink when the node refuses them, around the start of
the deposit and further back to the deployment of the vault.

The node is asked and answers, or refuses with a message. Blocks and times are whole numbers.
-/

set_option autoImplicit false

namespace UnicityBridge.BridgePlugin

open UnicityBridge.Lib

/-! ## The node -/

/-- The state a read of the account is answered from. -/
inductive BlockTag where
  | latest
  | pending
  deriving DecidableEq

/-- A log as a node's log query returns it. -/
structure SourceLogEntry extends SourceLog where
  blockNumber : Int
  transactionHash : String

/-- What a log query asks for. -/
structure LogFilter where
  address : String
  /-- `none` matches any value at its position. -/
  topics : List (Option String)
  fromBlock : Int
  toBlock : Int

/-- A call that only reads. -/
structure ConstantCallInput where
  ownerHex : String
  contractHex : String
  functionSignature : String
  parameterHex : String

/-- `LockSearchRpc` -/
inductive Question where
  | constantCall (input : ConstantCallInput)
  | getTransactionCount (addressHex : String) (tag : BlockTag)
  | getNowBlockNumber
  | getLogs (filter : LogFilter)

/-- What a question is answered with, unless the node refuses it. -/
@[reducible] def Question.Response : Question → Type
  | constantCall _ => String
  | getTransactionCount _ _ => Int
  | getNowBlockNumber => Int
  | getLogs _ => List SourceLogEntry

/-- The answer to a question, or the text of the error that is thrown. -/
abbrev Reply (question : Question) : Type := Except String question.Response

/-- A search that asks the node and may throw. -/
abbrev Search (α : Type) := Session Question Reply String α

/-- What a search asked, with the answers it heard. -/
abbrev Trace := List (Dialogue.Exchange Question Reply)

/-- Ask the node; a refusal is thrown. -/
def query (question : Question) : Search question.Response :=
  ExceptT.mk (.ask question .done)

/-- `LockSearchRpc.constantCall` -/
def constantCall (input : ConstantCallInput) : Search String := query (.constantCall input)

/-- `LockSearchRpc.getTransactionCount` -/
def getTransactionCount (addressHex : String) (tag : BlockTag) : Search Int :=
  query (.getTransactionCount addressHex tag)

/-- `LockSearchRpc.getNowBlockNumber` -/
def getNowBlockNumber : Search Int := query .getNowBlockNumber

/-- `LockSearchRpc.getLogs` -/
def getLogs (filter : LogFilter) : Search (List SourceLogEntry) := query (.getLogs filter)

/-- `Promise.all` of two reads: the node is asked for both, and the first refusal is thrown. -/
def promiseAll {α β : Type} (first : Search α) (second : Search β) : Search (α × β) := do
  let a ← Session.attempt first
  let b ← Session.attempt second
  let a ← (a : Except String α)
  let b ← (b : Except String β)
  pure (a, b)

/-! ## The search -/

/-- A lock to look for: who made it, for which token id, and since when. -/
structure LockSearch where
  fromAddressHex : String
  unicityTokenIdHex : String
  startedAtMs : Int
  nowMs : Int

/-- What a search ends with. -/
inductive LockSearchResult where
  | found (txid : String)
  | absent
  | unknown (why : String)
  deriving DecidableEq

/-- What the search uses of a loaded bridge. -/
structure LoadedBridge where
  resolvedConfig : ResolvedBridgeConfig
  deployBlock : Option Int

/-- Time between two blocks. -/
def ETHEREUM_BLOCK_MS : Int := 12000

/-- Blocks the estimate of the first block goes further back. -/
def BLOCKS_OF_SLACK : Int := 300

/-- A number of blocks, at least one. -/
structure Window where
  blocks : Nat
  positive : 0 < blocks

/-- Blocks of the first log query. -/
def WINDOW : Window := ⟨10000, by decide⟩

/-- A window of so many blocks is not halved any more. -/
def SMALLEST_WINDOW : Nat := 1000

/-- The window after a refusal. -/
def Window.half (window : Window) (h : ¬ window.blocks ≤ SMALLEST_WINDOW) : Window :=
  ⟨window.blocks / 2, by unfold SMALLEST_WINDOW at h; omega⟩

/-- The text contains the pattern. -/
def includes (text pattern : List Char) : Bool := text.tails.any fun rest => pattern.isPrefixOf rest

/-- `\w` -/
def isWordCharacter (c : Char) : Bool := c.isAlphanum || c == '_'

/-- `\b429\b` -/
def includes429 (text : List Char) : Bool :=
  text.inits.any fun front => "429".toList.isPrefixOf (text.drop front.length) &&
    !(front.getLast?.any isWordCharacter) &&
    !((text.drop (front.length + 3)).head?.any isWordCharacter)

/-- `RATE_LIMITED` -/
def rateLimited (message : String) : Bool :=
  let text := (toLowerCase message).toList
  includes429 text || ["[-32005]", "rate limit", "rate exceeded", "too many requests"].any
    fun pattern => includes text pattern.toList

/-- `Math.max` -/
def later (a b : Int) : Int := if a > b then a else b

/-- `Math.min` -/
def earlier (a b : Int) : Int := if a < b then a else b

/-- A rate limit is retried once; the pause is not modelled. -/
def readLogs (filter : LogFilter) : Search (List SourceLogEntry) := do
  match ← Session.attempt (getLogs filter) with
  | .ok logs => pure logs
  | .error err =>
      if rateLimited err then getLogs filter
      else throw err

section Scan

variable (keccak256 : Bytes → Bytes32)

/-- The first log of the token id; a log that does not decode as hex throws. -/
def findHit (tokenId : String) (logs : List SourceLogEntry) : Result (Option SourceLogEntry) :=
  logs.findM? fun log => do
    let decoded ← decodeLockEvent keccak256 log.toSourceLog
    pure (hexEncode (decoded.elim [] DecodedLockEvent.unicityTokenId) == tokenId)

/-- The loop of `scan`, from a block on. -/
def scanFrom (address : String) (topics : List (Option String)) (tokenId : String) (tip fromBlock : Int)
    (window : Window) : Search (Option String) :=
  if _hrange : fromBlock ≤ tip then do
    let toBlock := earlier (fromBlock + window.blocks - 1) tip
    match ← Session.attempt (readLogs { address, topics, fromBlock, toBlock }) with
    | .error err =>
        if hsmallest : window.blocks ≤ SMALLEST_WINDOW then throw err
        else scanFrom address topics tokenId tip fromBlock (window.half hsmallest)
    | .ok logs =>
        match ← (findHit keccak256 tokenId logs : Result (Option SourceLogEntry)) with
        | some hit => pure (some hit.transactionHash)
        | none => scanFrom address topics tokenId tip (toBlock + 1) window
  else pure none
termination_by ((tip + 1 - fromBlock).toNat, window.blocks)
decreasing_by
  · exact Prod.Lex.right _ (Nat.div_lt_self window.positive (by decide))
  · have hpositive := window.positive
    refine Prod.Lex.left _ _ ?_
    unfold earlier
    split <;> omega

/-- The windows of a range, from the earliest block to the tip. -/
def scan (address : String) (topics : List (Option String)) (tokenId : String) (earliest tip : Int) :
    Search (Option String) :=
  scanFrom keccak256 address topics tokenId tip earliest WINDOW

/-- A text that is not empty. -/
def truthy (txid : Option String) : Bool := txid.any fun text => text ≠ ""

/-- The first loop of `locate`: over the signer's locks, then anyone's. -/
def aroundStart (vault tokenId : String) (earliest tip : Int) :
    List (Option String) → Search (Option String)
  | [] => pure none
  | topic :: rest => do
      let txid ← scan keccak256 vault [some (LOCK_EVENT_TOPIC0 keccak256), none, topic] tokenId earliest tip
      if truthy txid then pure txid
      else aroundStart vault tokenId earliest tip rest

/-- The second loop of `locate`, back to the floor in ranges that double. -/
def furtherBack (vault tokenId : String) (floor toBlock span : Int)
    (hspan : floor ≤ toBlock → 0 < span) : Search (Option String) :=
  if hrange : floor ≤ toBlock then do
    let fromBlock := later (toBlock - span + 1) floor
    let txid ← scan keccak256 vault [some (LOCK_EVENT_TOPIC0 keccak256), none, none] tokenId fromBlock toBlock
    if truthy txid then pure txid
    else
      furtherBack vault tokenId floor (fromBlock - 1) (span * 2)
        fun _ => Int.mul_pos (hspan hrange) (by decide)
  else pure none
termination_by (toBlock + 1 - floor).toNat
decreasing_by
  have hpositive := hspan hrange
  unfold later
  split <;> omega

/-- The blocks of a search: around the start of the deposit, and back to the floor. -/
structure Blocks where
  earliest : Int
  tip : Int
  floor : Int
  floor_le : floor ≤ earliest
  reaches : floor < earliest → earliest ≤ tip

theorem Blocks.span_pos (blocks : Blocks) (h : blocks.floor ≤ blocks.earliest - 1) :
    0 < blocks.tip - blocks.earliest + 1 := by
  have hreaches := blocks.reaches (by omega)
  omega

/-- `locate` -/
def locate (vault tokenId sender : String) (blocks : Blocks) : Search (Option String) := do
  let txid ← aroundStart keccak256 vault tokenId blocks.earliest blocks.tip [some sender, none]
  if truthy txid then pure txid
  else
    furtherBack keccak256 vault tokenId blocks.floor (blocks.earliest - 1)
      (blocks.tip - blocks.earliest + 1) blocks.span_pos

end Scan

/-! ## `findLock` -/

/-- `padStart` with zeros. -/
def padStart (text : String) (length : Nat) : String :=
  String.ofList (List.replicate (length - text.length) '0') ++ text

/-- What `tokenIdUsed` makes of the answer, which has to be one word. -/
def readFlag (word : String) : Result Bool := do
  let shown := if word = "" then "empty" else word
  let refusal := s!"tokenIdUsed did not answer with one word ({shown}); is the vault address right for this chain?"
  let bytes ← okOr (hexDecode word) refusal
  ensure (bytes.length = 32) refusal
  .ok (decide (beNat bytes ≠ 0))

/-- The call of the vault's `tokenIdUsed`. -/
def usedCall (vault ownerHex tokenIdHex : String) : ConstantCallInput where
  ownerHex := ownerHex
  contractHex := vault
  functionSignature := "tokenIdUsed(bytes32)"
  parameterHex := tokenIdHex

/-- Whether the vault has locked the token id. -/
def tokenIdUsed (vault ownerHex tokenIdHex : String) : Search Bool := do
  let word ← constantCall (usedCall vault ownerHex tokenIdHex)
  readFlag word

/-- The two counts are asked for at once; the node reads them in either order. -/
def inFlight (latestFirst : Bool) (addressHex : String) : Search Bool := do
  if latestFirst then
    let (latest, pending) ← promiseAll (getTransactionCount addressHex .latest)
      (getTransactionCount addressHex .pending)
    pure (decide (pending > latest))
  else
    let (pending, latest) ← promiseAll (getTransactionCount addressHex .pending)
      (getTransactionCount addressHex .latest)
    pure (decide (pending > latest))

/-- The number of blocks since the start of the deposit, rounded up. -/
def blocksSince (search : LockSearch) : Int :=
  (max 0 (search.nowMs - search.startedAtMs) + ETHEREUM_BLOCK_MS - 1) / ETHEREUM_BLOCK_MS

theorem blocksSince_nonneg (search : LockSearch) : 0 ≤ blocksSince search := by
  unfold blocksSince ETHEREUM_BLOCK_MS
  omega

/-- The range of a search under a tip. -/
def searchBlocks (search : LockSearch) (deployBlock : Option Int) (tip : Int) : Blocks where
  earliest := later (tip - blocksSince search - BLOCKS_OF_SLACK) (deployBlock.getD 0)
  tip := tip
  floor := deployBlock.getD 0
  floor_le := by
    unfold later
    split <;> omega
  reaches := by
    have hsince := blocksSince_nonneg search
    unfold later BLOCKS_OF_SLACK
    split <;> omega

/-- What `findLock` answers for a located transaction, or none. -/
def located : Option String → LockSearchResult
  | some txid => .found txid
  | none => .unknown "the vault has locked this token id, but its transaction was not found in the logs the node serves"

/-- The branch of `findLock` for a token id that the vault has locked. -/
def findLocked (keccak256 : Bytes → Bytes32) (bridge : LoadedBridge) (search : LockSearch) :
    Search LockSearchResult := do
  let tip ← getNowBlockNumber
  let sender := padStart (toLowerCase search.fromAddressHex) 64
  let txid ← locate keccak256 bridge.resolvedConfig.lockContractHex
    (toLowerCase search.unicityTokenIdHex) sender (searchBlocks search bridge.deployBlock tip)
  pure (located txid)

/-- `findLock`. Absence is answered only after a second look at the flag and the account. -/
def findLock (keccak256 : Bytes → Bytes32) (latestFirst : Bool) (bridge : LoadedBridge)
    (search : LockSearch) : Search LockSearchResult := do
  let locked := tokenIdUsed bridge.resolvedConfig.lockContractHex search.fromAddressHex
    (toLowerCase search.unicityTokenIdHex)
  if ← locked then findLocked keccak256 bridge search
  else if ← inFlight latestFirst search.fromAddressHex then
    pure (.unknown "a transaction from the account is still pending")
  else if ← locked then findLocked keccak256 bridge search
  else pure .absent

end UnicityBridge.BridgePlugin
