import UnicityBridge.LockCoverage

/-!
# An absent deposit was reverted

`findLock` reads the node four times while blocks are mined: the vault's flag, the account's two
transaction counts, and the flag again. The node below has one account's transactions in its pool and on
its chain, over the vault of the same chain; between two reads it takes any number of steps.

A pool counts up to its first gap. So the deposit is counted only as long as every earlier transaction
of the account is there too.
-/

set_option autoImplicit false

namespace UnicityBridge.BridgePlugin

open UnicityBridge.Lib UnicityBridge.Lib.Dialogue Relation

/-! ## The node -/

/-- A transaction of the account: a call of the vault, or anything else. -/
structure AccountTx where
  txid : Bytes32
  call : Option Vault.Call

/-- A mined transaction, and whether it succeeded. -/
structure Receipt where
  transaction : AccountTx
  success : Bool

/-- A node's view of the source chain: the vault's world, and the account's transactions, mined and
waiting, by nonce. -/
structure Node (σ : Type) where
  world : Vault.World σ
  mined : List Receipt
  pool : Nat → Option AccountTx

/-- What can happen to the account's transactions. -/
inductive Act where
  | submit (nonce : Nat)
  | drop (nonce : Nat)
  | mine
  | others

section Steps

variable {σ : Type} (d : Vault.Deployment σ) (account : Core.Address)

/-- The next transaction is mined, with this outcome. -/
def Node.mine (node : Node σ) (world : Vault.World σ) (receipt : Receipt) : Node σ where
  world := world
  mined := node.mined ++ [receipt]
  pool := Function.update node.pool node.mined.length none

/-- One step of the node. The chain only grows. -/
inductive Step : Act → Node σ → Node σ → Prop
  /-- A transaction enters the pool, or replaces the one with its nonce. -/
  | submit {node : Node σ} {nonce : Nat} (transaction : AccountTx) (h : node.mined.length ≤ nonce) :
      Step (.submit nonce) node { node with pool := Function.update node.pool nonce (some transaction) }
  | drop {node : Node σ} {nonce : Nat} :
      Step (.drop nonce) node { node with pool := Function.update node.pool nonce none }
  /-- A mined call of the vault succeeds. -/
  | called {node : Node σ} {transaction : AccountTx} {call : Vault.Call} {timestamp : Vault.Word}
      {depth : Nat} {result : Vault.Returned} {world : Vault.World σ}
      (hnext : node.pool node.mined.length = some transaction) (hcall : transaction.call = some call)
      (h : Vault.execute d timestamp depth account call node.world = .ok (result, world)) :
      Step .mine node (node.mine world ⟨transaction, true⟩)
  /-- A mined transaction reverts, or runs out of gas. -/
  | reverted {node : Node σ} {transaction : AccountTx}
      (hnext : node.pool node.mined.length = some transaction) :
      Step .mine node (node.mine node.world ⟨transaction, false⟩)
  /-- Another mined transaction may reach the vault through other contracts. -/
  | other {node : Node σ} {transaction : AccountTx}
      (hnext : node.pool node.mined.length = some transaction) (hcall : transaction.call = none)
      (transactions : List (Vault.Transaction σ)) :
      Step .mine node (node.mine (Vault.run d node.world transactions) ⟨transaction, true⟩)
  /-- Transactions of other accounts are mined. -/
  | others {node : Node σ} (transactions : List (Vault.Transaction σ)) :
      Step .others node { node with world := Vault.run d node.world transactions }

/-- The account's pending nonce: the first that is neither mined nor in the pool. -/
structure PendingCount (node : Node σ) (count : Nat) : Prop where
  mined : node.mined.length ≤ count
  pooled : ∀ nonce, node.mined.length ≤ nonce → nonce < count → node.pool nonce ≠ none
  gap : node.pool count = none

/-- The pool or the chain has the transaction. -/
def Holds (node : Node σ) (nonce : Nat) (transaction : AccountTx) : Prop :=
  (node.mined.length ≤ nonce ∧ node.pool nonce = some transaction) ∨
    ∃ success, node.mined[nonce]? = some ⟨transaction, success⟩

/-- The transaction is counted in the account's pending nonce. -/
def Counted (node : Node σ) (nonce : Nat) (transaction : AccountTx) : Prop :=
  Holds node nonce transaction ∧ ∃ count, PendingCount node count ∧ nonce < count

/-- What the node answers. It may refuse any question, and the other answers are not used here. -/
def answers (node : Node σ) : ∀ question, Reply question → Prop
  | .constantCall input, .ok word => ∀ tokenId : Bytes32,
      hexDecode input.contractHex = some d.self.toList →
      input.functionSignature = "tokenIdUsed(bytes32)" →
      hexDecode input.parameterHex = some tokenId.toList →
        word = flagWord (node.world.storage.tokenIdUsed tokenId)
  | .getTransactionCount addressHex .latest, .ok count => hexDecode addressHex = some account.toList →
      count = node.mined.length
  | .getTransactionCount addressHex .pending, .ok count => hexDecode addressHex = some account.toList →
      ∃ pending, PendingCount node pending ∧ count = pending
  | _, _ => True

/-- A step of this kind that does not drop the transaction. -/
def Keeping (allowed : Act → Prop) (nonce : Nat) (transaction : AccountTx) (node node' : Node σ) : Prop :=
  ∃ act, allowed act ∧ Step d account act node node' ∧ Holds node' nonce transaction

/-- Any step. -/
def Moves (node node' : Node σ) : Prop := ∃ act, Step d account act node node'

/-- **An absent answer is safe.** The deposit was counted when `findLock` was called, and the node kept
it while it took steps of the allowed kinds; then `findLock` answers `absent` only if the deposit was
mined and reverted. -/
def AbsenceSafe (keccak256 : Bytes → Bytes32) (latestFirst : Bool) (bridge : LoadedBridge)
    (search : LockSearch) (nonce : Nat) (deposit : AccountTx) (allowed : Act → Prop) : Prop :=
  ∀ start called last trace, start.mined.length ≤ nonce → ReflTransGen (Moves d account) start called →
    Counted called nonce deposit →
    Observed (ReflTransGen (Keeping d account allowed nonce deposit)) (answers d account) called trace
      last →
    Session.Ends (findLock keccak256 latestFirst bridge search) trace (.ok .absent) →
    last.mined[nonce]? = some ⟨deposit, false⟩

/-- No transaction before the nonce is dropped. -/
def KeepsEarlier (nonce : Nat) (act : Act) : Prop := ∀ earlier < nonce, act ≠ .drop earlier

end Steps

/-! ## What a step keeps -/

section Runs

variable {σ : Type} {d : Vault.Deployment σ} {account : Core.Address} {nonce : Nat}
  {deposit : AccountTx}

/-- **A used token id stays used** in every run of the vault. -/
theorem tokenIdUsed_effect {timestamp : Vault.Word} {sender : Core.Address} {call : Vault.Call}
    {w w' : Vault.World σ} {tokenId : Bytes32} (h : w.storage.tokenIdUsed tokenId = true)
    (heffect : Vault.Effect d timestamp sender w w' call) :
    w'.storage.tokenIdUsed tokenId = true := by
  cases heffect with
  | lock amount id recipient hlocked =>
      obtain ⟨_, _, _, -, hstorage⟩ := hlocked.storage
      rw [hstorage]
      by_cases hid : tokenId = id
      · rw [hid]
        exact Function.update_self ..
      · exact (Function.update_of_ne hid ..).trans h
  | fulfillBatch _ _ _ _ _ hfulfilled =>
      obtain ⟨_, _, _, hstorage⟩ := hfulfilled.paid.storage
      rw [hstorage]
      exact h
  | withdraw hwithdrew =>
      obtain ⟨_, _, hstorage⟩ := hwithdrew.storage
      rw [hstorage]
      exact h
  | setTrustBaseAllowed _ _ hout | transferAdmin _ hout =>
      obtain ⟨_, _, hstorage⟩ := hout.storage
      rw [hstorage]
      exact h

theorem tokenIdUsed_run {w : Vault.World σ} {tokenId : Bytes32}
    (h : w.storage.tokenIdUsed tokenId = true) (transactions : List (Vault.Transaction σ)) :
    (Vault.run d w transactions).storage.tokenIdUsed tokenId = true :=
  @Vault.run_invariant σ d (fun w => w.storage.tokenIdUsed tokenId = true)
    (fun h heffect => tokenIdUsed_effect h heffect) (fun _ h => h) w h transactions

/-- The mined transactions stay, and a step mines one at most. -/
theorem Step.mined_eq {act : Act} {node node' : Node σ} (h : Step d account act node node') :
    node'.mined = node.mined ∨ ∃ receipt, node'.mined = node.mined ++ [receipt] := by
  cases h with
  | submit | drop | others => exact .inl rfl
  | called | reverted | other => exact .inr ⟨_, rfl⟩

theorem Step.mined_prefix {act : Act} {node node' : Node σ} (h : Step d account act node node') :
    node.mined <+: node'.mined := by
  rcases h.mined_eq with heq | ⟨receipt, heq⟩
  · rw [heq]
  · rw [heq]
    exact List.prefix_append ..

/-- Used token ids stay used, and a mined `lock` that succeeds has used its token id. -/
theorem Step.used {act : Act} {node node' : Node σ} (h : Step d account act node node')
    {tokenId : Bytes32} (hused : node.world.storage.tokenIdUsed tokenId = true) :
    node'.world.storage.tokenIdUsed tokenId = true := by
  cases h with
  | submit | drop | reverted => exact hused
  | called _ _ hexecute => exact tokenIdUsed_effect hused (Vault.execute_cases hexecute)
  | other _ _ transactions | others transactions => exact tokenIdUsed_run hused transactions

/-- The token id of every successful lock at this nonce is used. -/
def Marked (node : Node σ) (nonce : Nat) : Prop :=
  ∀ receipt, node.mined[nonce]? = some receipt → receipt.success = true →
    ∀ amount tokenId recipient, receipt.transaction.call = some (.lock amount tokenId recipient) →
      node.world.storage.tokenIdUsed tokenId = true

/-- **What a step keeps**: the vault's flag tells of a successful lock. -/
theorem Marked.step {act : Act} {node node' : Node σ} (h : Marked node nonce)
    (hstep : Step d account act node node') : Marked node' nonce := by
  intro receipt hreceipt hsuccess amount tokenId recipient hcall
  by_cases hold : node.mined[nonce]? = some receipt
  · exact hstep.used (h receipt hold hsuccess amount tokenId recipient hcall)
  -- the step mined the receipt
  have hnew {world : Vault.World σ} {new : Receipt}
      (hmem : (node.mine world new).mined[nonce]? = some receipt) : receipt = new := by
    rw [Node.mine, List.getElem?_append] at hmem
    split at hmem
    · exact absurd hmem hold
    · exact List.mem_singleton.1 (List.mem_of_getElem? hmem)
  cases hstep with
  | submit | drop | others => exact absurd hreceipt hold
  | @called _ transaction _ _ _ _ _ _ hlock hexecute =>
      obtain rfl := hnew hreceipt
      obtain rfl := Option.some.inj (hlock.symm.trans hcall)
      cases Vault.execute_cases hexecute with
      | lock _ _ _ hlocked =>
          obtain ⟨_, _, _, -, hstorage⟩ := hlocked.storage
          rw [Node.mine, hstorage]
          exact Function.update_self ..
  | reverted =>
      obtain rfl := hnew hreceipt
      cases hsuccess
  | other _ hnone =>
      obtain rfl := hnew hreceipt
      cases hnone.symm.trans hcall

/-- Up to the nonce the pool has no gap. -/
def Lined (node : Node σ) (nonce : Nat) : Prop :=
  ∀ earlier, node.mined.length ≤ earlier → earlier ≤ nonce → node.pool earlier ≠ none

theorem Counted.lined {node : Node σ} (h : Counted node nonce deposit) : Lined node nonce := by
  obtain ⟨-, count, hcount, hlt⟩ := h
  intro earlier hmined hle
  exact hcount.pooled earlier hmined (hle.trans_lt hlt)

theorem Lined.lt {node : Node σ} (h : Lined node nonce) {count : Nat} (hcount : PendingCount node count) :
    nonce < count := by
  by_contra hle
  exact h count hcount.mined (not_lt.1 hle) hcount.gap

/-- **What a step keeps** while the deposit is not dropped: the pool has no gap before it. -/
theorem Lined.step {act : Act} {node node' : Node σ} (h : Lined node nonce)
    (hact : KeepsEarlier nonce act) (hstep : Step d account act node node')
    (hholds : Holds node' nonce deposit) : Lined node' nonce := by
  intro earlier hmined hle
  -- mining takes from the pool what is mined
  have hmine {world : Vault.World σ} {receipt : Receipt}
      (hmined : (node.mine world receipt).mined.length ≤ earlier) :
      (node.mine world receipt).pool earlier ≠ none := by
    rw [Node.mine, List.length_append, List.length_singleton] at hmined
    have hne : earlier ≠ node.mined.length := by omega
    have hsame : (node.mine world receipt).pool earlier = node.pool earlier :=
      Function.update_of_ne hne ..
    rw [hsame]
    exact h earlier (by omega) hle
  cases hstep with
  | @submit _ submitted transaction hsubmitted =>
      by_cases heq : earlier = submitted
      · rw [heq]
        simp
      · simpa only [Function.update_of_ne heq] using h earlier hmined hle
  | @drop _ dropped =>
      by_cases heq : earlier = dropped
      · subst heq
        rcases hle.lt_or_eq with hlt | rfl
        · exact absurd rfl (hact earlier hlt)
        -- the deposit itself would be gone
        · rcases hholds with ⟨-, hpool⟩ | ⟨success, hsome⟩
          · rw [hpool]
            exact Option.some_ne_none _
          · have hlt := (List.getElem?_eq_some_iff.1 hsome).1
            exact absurd hmined (not_le.2 hlt)
      · simpa only [Function.update_of_ne heq] using h earlier hmined hle
  | others => exact h earlier hmined hle
  | called | reverted | other => exact hmine hmined

/-! ## Between the reads -/

/-- What is known of the node while `findLock` runs. -/
structure Watched (nonce : Nat) (deposit : AccountTx) (node : Node σ) : Prop where
  holds : Holds node nonce deposit
  lined : Lined node nonce
  marked : Marked node nonce

theorem Watched.run {node node' : Node σ} (h : Watched nonce deposit node)
    (hsteps : ReflTransGen (Keeping d account (KeepsEarlier nonce) nonce deposit) node node') :
    Watched nonce deposit node' ∧ node.mined <+: node'.mined := by
  induction hsteps with
  | refl => exact ⟨h, List.prefix_rfl⟩
  | tail _ hstep ih =>
      obtain ⟨hwatched, hgrown⟩ := ih
      obtain ⟨act, hact, hstep, hholds⟩ := hstep
      exact ⟨⟨hholds, hwatched.lined.step hact hstep hholds, hwatched.marked.step hstep⟩,
        hgrown.trans hstep.mined_prefix⟩

theorem Marked.run {node node' : Node σ} (h : Marked node nonce)
    (hsteps : ReflTransGen (Moves d account) node node') : Marked node' nonce := by
  induction hsteps with
  | refl => exact h
  | tail _ hstep ih =>
      obtain ⟨act, hstep⟩ := hstep
      exact ih.step hstep

/-- A deposit below the count of the mined transactions was mined. -/
theorem Watched.mined {node : Node σ} (h : Watched nonce deposit node) (hlt : nonce < node.mined.length) :
    ∃ success, node.mined[nonce]? = some ⟨deposit, success⟩ :=
  h.holds.resolve_left fun hpooled => absurd hpooled.1 (not_le.2 hlt)

variable {latestFirst : Bool} {addressHex : String} {p l : Int}

/-- **The two counts**, read in either order: when the pending one is not larger, the deposit was mined
before the later read. -/
theorem Watched.counts (haddress : hexDecode addressHex = some account.toList) {node last : Node σ}
    {rest : Trace} (h : Watched nonce deposit node) (hcounts : p ≤ l)
    (hobserved : Observed (ReflTransGen (Keeping d account (KeepsEarlier nonce) nonce deposit))
      (answers d account) node (countExchanges latestFirst addressHex (.ok p) (.ok l) ++ rest) last) :
    ∃ node', Watched nonce deposit node' ∧ nonce < node'.mined.length ∧
      Observed (ReflTransGen (Keeping d account (KeepsEarlier nonce) nonce deposit))
        (answers d account) node' rest last := by
  cases latestFirst with
  | true =>
      cases hobserved with
      | @ask _ early _ _ _ _ hreach hlatest hobserved =>
          cases hobserved with
          | @ask _ node' _ _ _ _ hreach' hpending hobserved =>
              obtain ⟨hwatched, -⟩ := h.run hreach
              obtain ⟨hwatched', hgrown⟩ := hwatched.run hreach'
              obtain ⟨count, hcount, hp⟩ := hpending haddress
              replace hp : p = (count : Int) := hp
              have hlt := hwatched'.lined.lt hcount
              have hl : l = (early.mined.length : Int) := hlatest haddress
              have hlength := hgrown.length_le
              exact ⟨node', hwatched', by omega, hobserved⟩
  | false =>
      cases hobserved with
      | ask hreach hpending hobserved =>
          cases hobserved with
          | @ask _ node' _ _ _ _ hreach' hlatest hobserved =>
              obtain ⟨hwatched, -⟩ := h.run hreach
              obtain ⟨hwatched', -⟩ := hwatched.run hreach'
              obtain ⟨count, hcount, hp⟩ := hpending haddress
              replace hp : p = (count : Int) := hp
              have hlt := hwatched.lined.lt hcount
              have hl : l = (node'.mined.length : Int) := hlatest haddress
              exact ⟨node', hwatched', by omega, hobserved⟩

end Runs

/-! ## The answer -/

section Answer

variable {σ : Type} {d : Vault.Deployment σ} {account : Core.Address} {keccak256 : Bytes → Bytes32}
  {bridge : LoadedBridge} {search : LockSearch} {tokenId : Bytes32}

/-- What the vault answered is its flag at the time. -/
theorem flag_of_answers
    (hvault : hexDecode bridge.resolvedConfig.lockContractHex = some d.self.toList)
    (htokenId : hexDecode search.unicityTokenIdHex = some tokenId.toList) {node : Node σ}
    {answer : Result String} {flag : Bool} (hread : answer >>= readFlag = .ok flag)
    (hanswer : answers d account node (.constantCall (usedCall bridge.resolvedConfig.lockContractHex
      search.fromAddressHex (toLowerCase search.unicityTokenIdHex))) answer) :
    node.world.storage.tokenIdUsed tokenId = flag := by
  cases answer with
  | error => cases hread
  | ok word =>
      have hparameter : hexDecode (toLowerCase search.unicityTokenIdHex) = some tokenId.toList :=
        hexDecode_toLowerCase htokenId
      have hword : word = flagWord (node.world.storage.tokenIdUsed tokenId) :=
        hanswer tokenId hvault rfl hparameter
      replace hread : readFlag word = .ok flag := hread
      rw [hword, readFlag_flagWord] at hread
      exact Except.ok.inj hread

/-- **An absent answer is safe** while no earlier transaction of the account is dropped. -/
theorem absent_safe (latestFirst : Bool)
    (hvault : hexDecode bridge.resolvedConfig.lockContractHex = some d.self.toList)
    (haccount : hexDecode search.fromAddressHex = some account.toList)
    (htokenId : hexDecode search.unicityTokenIdHex = some tokenId.toList) {deposit : AccountTx}
    {amount : Vault.Word} {recipient : Bytes32}
    (hdeposit : deposit.call = some (.lock amount tokenId recipient)) (nonce : Nat) :
    AbsenceSafe d account keccak256 latestFirst bridge search nonce deposit (KeepsEarlier nonce) := by
  intro start called last trace hstart hcalled hcounted hobserved hends
  have hmarked : Marked start nonce := by
    intro receipt hreceipt
    exact absurd hstart (not_le.2 (List.getElem?_eq_some_iff.1 hreceipt).1)
  have hwatched : Watched nonce deposit called :=
    ⟨hcounted.1, hcounted.lined, hmarked.run hcalled⟩
  cases findRun_of_ends hends with
  | locked _ hback | lockedAgain _ _ _ hback =>
      -- a located lock is never `absent`
      rcases ends_findLocked hback with ⟨err, -, hfailed⟩ | ⟨_, _, txid, -, hlocated, -, -⟩
      · cases hfailed
      · cases txid with
        | error => cases hlocated
        | ok found =>
            cases found with
            | some | none => cases hlocated
  | absent _ hcounts hread =>
      cases hobserved with
      | ask hreach _ hobserved =>
          -- the two counts agree, so every nonce up to the deposit's is mined by then
          obtain ⟨hwatched, -⟩ := hwatched.run hreach
          obtain ⟨node, hwatched, hmined, hobserved⟩ := hwatched.counts haccount hcounts hobserved
          cases hobserved with
          | ask hreach hanswer hobserved =>
              cases hobserved with
              | done hlast =>
                  obtain ⟨hwatched', hgrown⟩ := hwatched.run hreach
                  obtain ⟨-, hgrown'⟩ := hwatched'.run hlast
                  obtain ⟨success, hsome⟩ := hwatched'.mined (hmined.trans_le hgrown.length_le)
                  -- the second flag is read behind that, and says that the token id was not locked
                  have hunused := flag_of_answers hvault htokenId hread hanswer
                  cases success with
                  -- a reverted deposit keeps its receipt for good
                  | false =>
                      obtain ⟨later, hlater⟩ := hgrown'
                      obtain ⟨hlt, -⟩ := List.getElem?_eq_some_iff.1 hsome
                      rw [← hlater, List.getElem?_append_left hlt]
                      exact hsome
                  | true =>
                      -- a deposit that succeeded would have marked the token id
                      have hused := hwatched'.marked _ hsome rfl amount tokenId recipient hdeposit
                      rw [hunused] at hused
                      cases hused

theorem promiseAll_ends (first second : Question) (a : first.Response) (b : second.Response) :
    Session.Ends (promiseAll (query first) (query second)) [⟨first, .ok a⟩, ⟨second, .ok b⟩]
      (.ok (a, b)) := by
  have hattempt {question : Question} (answer : Reply question) :
      Session.Ends (Session.attempt (query question)) [⟨question, answer⟩] (.ok answer) :=
    Session.ends_attempt.2 ⟨answer, rfl, ends_query.2 rfl⟩
  have hpure : Session.Ends (do
      let a ← ((.ok a : Except String first.Response) : Search first.Response)
      let b ← ((.ok b : Except String second.Response) : Search second.Response)
      pure (a, b)) [] (.ok (a, b)) :=
    Session.ends_bind.2 (.inr ⟨a, [], [], rfl, Session.ends_lift.2 ⟨rfl, rfl⟩,
      Session.ends_bind.2 (.inr ⟨b, [], [], rfl, Session.ends_lift.2 ⟨rfl, rfl⟩,
        Session.ends_pure.2 ⟨rfl, rfl⟩⟩)⟩)
  exact Session.ends_bind.2 (.inr ⟨.ok a, [_], [_], rfl, hattempt (.ok a),
    Session.ends_bind.2 (.inr ⟨.ok b, [_], [], rfl, hattempt (.ok b), hpure⟩)⟩)

/-- `findLock` answers `absent` on a flag that is not set and counts that agree. -/
theorem ends_absent {latestFirst : Bool} {p l : Int} (h : p ≤ l) :
    Session.Ends (findLock keccak256 latestFirst bridge search)
      (flagExchange bridge search (.ok (flagWord false)) ::
        (countExchanges latestFirst search.fromAddressHex (.ok p) (.ok l) ++
          [flagExchange bridge search (.ok (flagWord false))])) (.ok .absent) := by
  have hflag : Session.Ends (tokenIdUsed bridge.resolvedConfig.lockContractHex search.fromAddressHex
      (toLowerCase search.unicityTokenIdHex)) [flagExchange bridge search (.ok (flagWord false))]
      (.ok false) :=
    Session.ends_bind.2 (.inr ⟨_, [_], [], rfl, ends_query.2 rfl,
      Session.ends_lift.2 ⟨rfl, readFlag_flagWord false⟩⟩)
  have hcounts : Session.Ends (inFlight latestFirst search.fromAddressHex)
      (countExchanges latestFirst search.fromAddressHex (.ok p) (.ok l)) (.ok false) := by
    have hfalse : decide (p > l) = false := decide_eq_false (not_lt.2 h)
    unfold inFlight
    cases latestFirst with
    | true =>
        have hall := promiseAll_ends (.getTransactionCount search.fromAddressHex .latest)
          (.getTransactionCount search.fromAddressHex .pending) l p
        exact Session.ends_bind.2 (.inr ⟨(l, p), _, [], rfl, hall,
          Session.ends_pure.2 ⟨rfl, congrArg _ hfalse⟩⟩)
    | false =>
        have hall := promiseAll_ends (.getTransactionCount search.fromAddressHex .pending)
          (.getTransactionCount search.fromAddressHex .latest) p l
        exact Session.ends_bind.2 (.inr ⟨(p, l), _, [], rfl, hall,
          Session.ends_pure.2 ⟨rfl, congrArg _ hfalse⟩⟩)
  exact Session.ends_bind.2 (.inr ⟨false, [_], _, rfl, hflag,
    Session.ends_bind.2 (.inr ⟨false, _, _, rfl, hcounts,
      Session.ends_bind.2 (.inr ⟨false, [_], [], rfl, hflag, Session.ends_pure.2 ⟨rfl, rfl⟩⟩)⟩)⟩)

end Answer

namespace LockSample

open UnicityBridge.Backing.Sample (sdk)

/-- The deposit of the sample lock. -/
def deposit : AccountTx := ⟨List.Vector.replicate 32 0x77, some (.lock 5 tokenId recipient)⟩

/-- A transaction of the account that calls no vault. -/
def payment : AccountTx := ⟨List.Vector.replicate 32 0x78, none⟩

/-- A payment waits, and the deposit behind it. -/
def waiting : Node Vault.Word where
  world := Vault.Sample.world
  mined := []
  pool
    | 0 => some payment
    | 1 => some deposit
    | _ => none

/-- The payment is gone; the deposit still waits. -/
def gapped : Node Vault.Word := { waiting with pool := Function.update waiting.pool 0 none }

theorem counted_deposit : Counted waiting 1 deposit := by
  refine ⟨.inl ⟨Nat.zero_le 1, rfl⟩, 2, ⟨Nat.zero_le 2, fun nonce _ hlt => ?_, rfl⟩, by decide⟩
  have hnonce : nonce = 0 ∨ nonce = 1 := by omega
  rcases hnonce with rfl | rfl
  · exact Option.some_ne_none payment
  · exact Option.some_ne_none deposit

/-- Before the account sent either of them. -/
def quiet : Node Vault.Word := { waiting with pool := fun _ => none }

theorem moves_waiting : ReflTransGen (Moves vault Vault.Sample.admin) quiet waiting := by
  have hpool : waiting.pool =
      Function.update (Function.update quiet.pool 0 (some payment)) 1 (some deposit) := by
    funext nonce
    rcases nonce with _ | _ | nonce
    · rfl
    · rfl
    · rfl
  have hpayment : Moves vault Vault.Sample.admin quiet
      { quiet with pool := Function.update quiet.pool 0 (some payment) } :=
    ⟨.submit 0, .submit payment le_rfl⟩
  have hdeposit : Moves vault Vault.Sample.admin
      { quiet with pool := Function.update quiet.pool 0 (some payment) } waiting := by
    refine ⟨.submit 1, ?_⟩
    rw [show waiting = { waiting with pool := waiting.pool } from rfl, hpool]
    exact .submit deposit (Nat.zero_le 1)
  exact (ReflTransGen.single hpayment).tail hdeposit

/-- The payment is mined; the deposit waits. -/
def paid : Node Vault.Word := waiting.mine (Vault.run vault waiting.world []) ⟨payment, true⟩

/-- The deposit is mined and reverts. -/
def reverted : Node Vault.Word := paid.mine paid.world ⟨deposit, false⟩

theorem keeping_paid : Keeping vault Vault.Sample.admin (KeepsEarlier 1) 1 deposit waiting paid := by
  have hact : KeepsEarlier 1 .mine := fun _ _ h => by cases h
  exact ⟨.mine, hact, .other rfl rfl [], .inl ⟨le_rfl, rfl⟩⟩

theorem keeping_reverted : Keeping vault Vault.Sample.admin (KeepsEarlier 1) 1 deposit paid reverted := by
  have hact : KeepsEarlier 1 .mine := fun _ _ h => by cases h
  exact ⟨.mine, hact, .reverted rfl, .inr ⟨false, rfl⟩⟩

theorem pendingCount_paid : PendingCount paid 2 := by
  refine ⟨Nat.le_succ 1, fun nonce hmined hlt => ?_, rfl⟩
  have hnonce : nonce = 1 := Nat.le_antisymm (Nat.le_of_lt_succ hlt) hmined
  rw [hnonce]
  exact Option.some_ne_none deposit

theorem keeping_gapped : Keeping vault Vault.Sample.admin (fun _ => True) 1 deposit waiting gapped :=
  ⟨.drop 0, trivial, .drop, .inl ⟨Nat.zero_le 1, rfl⟩⟩

theorem pendingCount_gapped : PendingCount gapped 0 :=
  ⟨le_rfl, fun nonce _ hlt => absurd hlt (Nat.not_lt_zero nonce), rfl⟩

/-- Neither world has locked a token id. -/
theorem answers_flag {node : Node Vault.Word} (h : node.world = Vault.Sample.world) :
    answers vault Vault.Sample.admin node (flagExchange loaded search (.ok (flagWord false))).1
      (flagExchange loaded search (.ok (flagWord false))).2 := by
  intro tokenId _ _ _
  rw [h]
  rfl

/-- The payment is mined behind the first read, and the deposit between the two counts. -/
theorem observed_reverted : Observed
    (ReflTransGen (Keeping vault Vault.Sample.admin (KeepsEarlier 1) 1 deposit))
    (answers vault Vault.Sample.admin) waiting
    (flagExchange loaded search (.ok (flagWord false)) ::
      (countExchanges false search.fromAddressHex (.ok 2) (.ok 2) ++
        [flagExchange loaded search (.ok (flagWord false))])) reverted :=
  .ask .refl (answers_flag rfl)
    (.ask (.single keeping_paid) (fun _ => ⟨2, pendingCount_paid, rfl⟩)
      (.ask (.single keeping_reverted) (fun _ => rfl) (.ask .refl (answers_flag rfl) (.done .refl))))

/-- The payment is dropped behind the first read. -/
theorem observed_gapped : Observed
    (ReflTransGen (Keeping vault Vault.Sample.admin (fun _ => True) 1 deposit))
    (answers vault Vault.Sample.admin) waiting
    (flagExchange loaded search (.ok (flagWord false)) ::
      (countExchanges false search.fromAddressHex (.ok 0) (.ok 0) ++
        [flagExchange loaded search (.ok (flagWord false))])) gapped :=
  .ask .refl (answers_flag rfl)
    (.ask (.single keeping_gapped) (fun _ => ⟨0, pendingCount_gapped, rfl⟩)
      (.ask .refl (fun _ => rfl) (.ask .refl (answers_flag rfl) (.done .refl))))

end LockSample

/-- **A deposit that reverted.** The account sends a payment and the deposit. The payment is mined behind
the first read of the flag and the deposit, which reverts, between the two counts; `findLock` answers
`absent`, and the deposit has the receipt that says so. -/
theorem absent_safe_sample : ∃ trace,
    ReflTransGen (Moves LockSample.vault Vault.Sample.admin) LockSample.quiet LockSample.waiting ∧
    Counted LockSample.waiting 1 LockSample.deposit ∧
    Observed (ReflTransGen
        (Keeping LockSample.vault Vault.Sample.admin (KeepsEarlier 1) 1 LockSample.deposit))
      (answers LockSample.vault Vault.Sample.admin) LockSample.waiting trace LockSample.reverted ∧
    Session.Ends (findLock Backing.Sample.sdk.keccak256 false LockSample.loaded LockSample.search) trace
      (.ok .absent) ∧
    LockSample.reverted.mined[0]? = some ⟨LockSample.payment, true⟩ ∧
    LockSample.reverted.mined[1]? = some ⟨LockSample.deposit, false⟩ := by
  have hsafe : AbsenceSafe LockSample.vault Vault.Sample.admin Backing.Sample.sdk.keccak256 false
      LockSample.loaded LockSample.search 1 LockSample.deposit (KeepsEarlier 1) :=
    absent_safe false (hexDecode_hexEncode LockSample.config.vault.toList)
      (hexDecode_hexEncode Vault.Sample.admin.toList) (hexDecode_hexEncode LockSample.tokenId.toList) rfl 1
  have hends : Session.Ends
      (findLock Backing.Sample.sdk.keccak256 false LockSample.loaded LockSample.search) _ (.ok .absent) :=
    ends_absent (le_refl 2)
  have hreceipt := hsafe LockSample.quiet LockSample.waiting LockSample.reverted _ (Nat.zero_le 1)
    LockSample.moves_waiting LockSample.counted_deposit LockSample.observed_reverted hends
  exact ⟨_, LockSample.moves_waiting, LockSample.counted_deposit, LockSample.observed_reverted, hends,
    rfl, hreceipt⟩

/-- When the payment is dropped, the counts no longer show the deposit: it still waits, and `findLock`
answers `absent`. -/
theorem absent_safe_counterexample : ¬ AbsenceSafe LockSample.vault Vault.Sample.admin
    Backing.Sample.sdk.keccak256 false LockSample.loaded LockSample.search 1 LockSample.deposit
    (fun _ => True) := by
  intro h
  have hmined := h LockSample.waiting LockSample.waiting LockSample.gapped _ (Nat.zero_le 1) .refl
    LockSample.counted_deposit LockSample.observed_gapped (ends_absent le_rfl)
  cases hmined

end UnicityBridge.BridgePlugin
