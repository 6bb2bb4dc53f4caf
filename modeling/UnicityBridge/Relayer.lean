import UnicityBridge.Settlement

/-!
# The relayer's event grouping

`contracts/tron/scripts/relayer-lib.js`: `normalizeEvent` brings a decoded event of the chain API to the
relayer's shape, `groupBatches` sorts the events and gives each `BatchFulfilled` its releases. Texts are
lists of characters inside, as the source works on them character by character.
-/

set_option autoImplicit false

namespace UnicityBridge.Relayer

open Lib
open Settlement (BatchJson)

/-- A field of a decoded event: a text or an integer. -/
inductive JsValue where
  | text (s : String)
  | number (n : Int)
  deriving DecidableEq

/-- White space that `trim` removes. -/
def isSpace (c : Char) : Bool :=
  c.toNat ∈ [0x9, 0xA, 0xB, 0xC, 0xD, 0x20, 0xA0, 0x1680, 0x2028, 0x2029, 0x202F, 0x205F, 0x3000,
    0xFEFF] || (0x2000 ≤ c.toNat && c.toNat ≤ 0x200A)

/-- `String.prototype.trim` -/
def trim (s : List Char) : List Char :=
  ((s.dropWhile isSpace).reverse.dropWhile isSpace).reverse

/-- `padStart` with zeros. -/
def padStart (width : Nat) (s : List Char) : List Char :=
  List.replicate (width - s.length) '0' ++ s

/-- The number that decimal digits write. -/
def decimal (s : List Char) : Nat := s.foldl (fun n c => 10 * n + (c.toNat - '0'.toNat)) 0

/-- `BigInt(n).toString(16)` -/
def intHex : Int → List Char
  | .ofNat n => Nat.toDigits 16 n
  | .negSucc n => '-' :: Nat.toDigits 16 (n + 1)

/-- The digits of a text without `0x` in either case. -/
def stripHex : List Char → List Char
  | '0' :: 'x' :: rest => rest
  | '0' :: 'X' :: rest => rest
  | s => s

/-- `hex32` on a text: decimal numbers are converted, long texts are cut to their end. -/
def hex32Text (text : String) : List Char :=
  let s := stripHex (trim text.toList)
  let s := if s ≠ [] ∧ s.all Char.isDigit ∧ s.length < 64 then Nat.toDigits 16 (decimal s) else s
  let s := if 64 < s.length ∧ s.length % 2 = 0 then s.drop (s.length - 64) else s
  padStart 64 (s.map Char.toLower)

/-- A `0x`-prefixed 32-byte hex text. A missing field reads as the text `undefined`. -/
def hex32 : Option JsValue → String
  | some (.number n) => String.ofList ('0' :: 'x' :: padStart 64 (intHex n))
  | some (.text s) => String.ofList ('0' :: 'x' :: hex32Text s)
  | none => String.ofList ('0' :: 'x' :: hex32Text "undefined")

/-- `Number(x)`, or `none` for no number. Of texts, decimal numbers are modelled. -/
def toNumber : Option JsValue → Option Int
  | some (.number n) => some n
  | some (.text s) =>
      let digits := trim s.toList
      if digits.all Char.isDigit then some (decimal digits) else none
  | none => none

/-- A decoded event of the chain API. The block number, the index and the transaction each have two
names there, of which the first present one counts. -/
structure RawEvent where
  eventName : String
  result : String → Option JsValue
  blockNumber : Option Nat × Option Nat
  eventIndex : Option Nat × Option Nat
  transactionId : Option String × Option String

/-- What the relayer keeps of an event. -/
inductive Detail where
  | batchFulfilled (spentRootOld spentRootNew : String) (batchSize : Option Int)
  | released (nullifier : String)
  | other (kind : String)
  deriving DecidableEq

/-- An event with its place in the chain. -/
structure Event where
  blockNumber : Nat
  eventIndex : Nat
  txId : Option String
  detail : Detail
  deriving DecidableEq

/-- An empty transaction name counts as none. -/
def named (txId : Option String) : Option String := txId.filter fun t => t ≠ ""

/-- The event in the relayer's shape. Fields may be named or numbered. -/
def normalizeEvent (raw : RawEvent) : Event :=
  let pick (name : String) (index : String) : Option JsValue := (raw.result name).or (raw.result index)
  { blockNumber := (raw.blockNumber.1.or raw.blockNumber.2).getD 0
    eventIndex := (raw.eventIndex.1.or raw.eventIndex.2).getD 0
    txId := (named raw.transactionId.1).or raw.transactionId.2
    detail :=
      if raw.eventName = "BatchFulfilled" then
        .batchFulfilled (hex32 (pick "spentRootOld" "0")) (hex32 (pick "spentRootNew" "1"))
          (toNumber (pick "batchSize" "2"))
      else if raw.eventName = "Released" then .released (hex32 (pick "nullifier" "0"))
      else .other raw.eventName }

/-- The order of `sort`: by block, then by index. -/
def orderLe (a b : Event) : Bool :=
  a.blockNumber < b.blockNumber || (a.blockNumber == b.blockNumber && a.eventIndex ≤ b.eventIndex)

/-- More releases are wanted. No count is below a missing size. -/
def wants (batchSize : Option Int) (count : Nat) : Bool := batchSize.any fun size => (count : Int) < size

/-- The inner loop: the releases after a batch event, up to its size or the next batch. -/
def claimReleased (e : Event) (batchSize : Option Int) :
    List Event → List String → Except String (List String)
  | [], nullifiers => .ok nullifiers
  | x :: rest, nullifiers =>
      if wants batchSize nullifiers.length then
        match x.detail with
        | .batchFulfilled _ _ _ => .ok nullifiers
        | .other _ => claimReleased e batchSize rest nullifiers
        | .released nullifier =>
            match named e.txId, named x.txId with
            | some batchTx, some releaseTx =>
                if releaseTx ≠ batchTx then
                  .error (s!"batch at block {e.blockNumber}: Released {nullifier} is from " ++
                    s!"transaction {releaseTx}, not the batch's {batchTx}")
                else claimReleased e batchSize rest (nullifiers ++ [nullifier])
            | _, _ => claimReleased e batchSize rest (nullifiers ++ [nullifier])
      else .ok nullifiers

/-- The outer loop, over the sorted events. -/
def groupFrom : List Event → Except String (List BatchJson)
  | [] => .ok []
  | e :: rest =>
      match e.detail with
      | .batchFulfilled spentRootOld spentRootNew batchSize => do
          let nullifiers ← claimReleased e batchSize rest []
          let found := nullifiers.length
          let expected := (batchSize.map toString).getD "NaN"
          ensure (batchSize = some (found : Int))
            s!"batch at block {e.blockNumber}: expected {expected} Released, found {found}"
          let batches ← groupFrom rest
          .ok ({ nullifiers, spentRootOld, spentRootNew, txid := named e.txId } :: batches)
      | _ => groupFrom rest

/-- Group events into the settled batches of the log. -/
def groupBatches (events : List Event) : Except String (List BatchJson) :=
  groupFrom (events.mergeSort orderLe)

/-! ## Fields -/

/-- The field holds the digits of these bytes, in either case, with or without `0x`. -/
def ReadsBytes (value : Bytes32) (field : Option JsValue) : Prop :=
  ∃ text digits, field = some (.text text) ∧ hexDecodeChars digits = some value.toList ∧
    (text.toList = digits ∨ text.toList = '0' :: 'x' :: digits ∨ text.toList = '0' :: 'X' :: digits)

/-- The field holds this number, or its decimal text. -/
def ReadsNumber (n : Nat) (field : Option JsValue) : Prop :=
  field = some (.number n) ∨ ∃ text, field = some (.text text) ∧
    text.toList.all Char.isDigit = true ∧ decimal text.toList = n

theorem trim_eq_self {s : List Char} (h : ∀ c ∈ s, isSpace c = false) : trim s = s := by
  have hself : ∀ t : List Char, (∀ c ∈ t, isSpace c = false) → t.dropWhile isSpace = t := by
    intro t ht
    cases t with
    | nil => rfl
    | cons c rest => rw [List.dropWhile_cons_of_neg (by simp [ht c List.mem_cons_self])]
  rw [trim, hself s h, hself s.reverse fun c hc => h c (List.mem_reverse.1 hc), List.reverse_reverse]

theorem stripHex_eq_self {s : List Char} (h : ∀ c ∈ s, c ∈ hexAlphabet) : stripHex s = s := by
  have hx : 'x' ∉ hexAlphabet ∧ 'X' ∉ hexAlphabet := by decide
  unfold stripHex
  split
  · exact absurd (h _ (List.mem_cons_of_mem _ List.mem_cons_self)) hx.1
  · exact absurd (h _ (List.mem_cons_of_mem _ List.mem_cons_self)) hx.2
  · rfl

/-- The digits of 32 bytes stay, in lower case. -/
theorem hex32Text_of_digits {text : String} {digits : List Char}
    (hdigits : ∀ c ∈ digits, c ∈ hexAlphabet) (hlength : digits.length = 64)
    (htext : text.toList = digits ∨ text.toList = '0' :: 'x' :: digits ∨
      text.toList = '0' :: 'X' :: digits) :
    hex32Text text = digits.map Char.toLower := by
  have hspace : ∀ c ∈ digits, isSpace c = false := fun c hc =>
    of_mem_of_all (by decide : (hexAlphabet.all fun d => isSpace d = false) = true) (hdigits c hc)
  have hcons : ∀ x : Char, isSpace x = false → ∀ c ∈ '0' :: x :: digits, isSpace c = false := by
    intro x hx
    rw [List.forall_mem_cons, List.forall_mem_cons]
    exact ⟨by decide, hx, hspace⟩
  have hstrip : stripHex (trim text.toList) = digits := by
    rcases htext with h | h | h <;> rw [h]
    · rw [trim_eq_self hspace, stripHex_eq_self hdigits]
    · rw [trim_eq_self (hcons 'x' (by decide))]
      rfl
    · rw [trim_eq_self (hcons 'X' (by decide))]
      rfl
  simp [hex32Text, hstrip, hlength, padStart]

/-- **A 32-byte field parses to its value** after the relayer has normalized it. -/
theorem parseBytes32_hex32 {value : Bytes32} {field : Option JsValue} (h : ReadsBytes value field) :
    Settlement.parseBytes32 (hex32 field) = .ok value := by
  obtain ⟨text, digits, rfl, hdecode, htext⟩ := h
  obtain ⟨hdigits, hlength⟩ := hexDecodeChars_some hdecode
  have hvalue : value.toList.length = 32 := value.property
  rw [hvalue] at hlength
  rw [hex32, hex32Text_of_digits hdigits hlength htext, Settlement.parseBytes32,
    String.toList_ofList]
  simp only [Settlement.dropHexPrefix, hexDecodeChars_toLower hdigits, hdecode, okOr]
  simp [bind, Except.bind]

theorem toNumber_of_reads {n : Nat} {field : Option JsValue} (h : ReadsNumber n field) :
    toNumber field = some (n : Int) := by
  rcases h with rfl | ⟨text, rfl, hdigits, rfl⟩
  · rfl
  · have hspace : ∀ c ∈ text.toList, isSpace c = false := by
      intro c hc
      have hdigit := List.all_eq_true.1 hdigits c hc
      have hmem : c ∈ (List.range' (Char.toNat '0')
          (Char.toNat '9' + 1 - Char.toNat '0')).map Char.ofNat :=
        mem_of_between (by
          rw [Char.isDigit, Bool.and_eq_true, decide_eq_true_iff, decide_eq_true_iff] at hdigit
          exact hdigit)
      exact of_mem_of_all (by decide : (((List.range' 48 10).map Char.ofNat).all
        fun d => isSpace d = false) = true) hmem
    simp only [toNumber, trim_eq_self hspace, hdigits, if_true]

/-! ## Grouping -/

/-- Whether the event is one of a settlement. -/
def Detail.isSettlement : Detail → Bool
  | .other _ => false
  | _ => true

/-- The roots that a batch event names. -/
def Event.roots (e : Event) : Option (String × String) :=
  match e.detail with
  | .batchFulfilled spentRootOld spentRootNew _ => some (spentRootOld, spentRootNew)
  | _ => none

/-- Where both events name their transaction, it is the same. -/
def Agree (e x : Event) : Prop :=
  ∀ batchTx releaseTx, named e.txId = some batchTx → named x.txId = some releaseTx →
    releaseTx = batchTx

section Grouping

variable {e x : Event} {size : Option Int} {rest releases : List Event}
  {nullifiers found : List String}

theorem claimReleased_done (h : wants size nullifiers.length = false) (events : List Event) :
    claimReleased e size events nullifiers = .ok nullifiers := by
  cases events with
  | nil => rfl
  | cons x rest => simp only [claimReleased, h, Bool.false_eq_true, if_false]

/-- Other events do not matter to the inner loop. -/
theorem claimReleased_filter (events : List Event) :
    claimReleased e size (events.filter fun x => x.detail.isSettlement) nullifiers =
      claimReleased e size events nullifiers := by
  induction events generalizing nullifiers with
  | nil => rfl
  | cons x rest ih =>
      cases hwants : wants size nullifiers.length with
      | false => rw [claimReleased_done hwants, claimReleased_done hwants]
      | true =>
          cases hdetail : x.detail with
          | other kind =>
              rw [List.filter_cons_of_neg (by simp [hdetail, Detail.isSettlement]), ih]
              simp only [claimReleased, hwants, hdetail, if_true]
          | batchFulfilled old new n =>
              rw [List.filter_cons_of_pos (by simp [hdetail, Detail.isSettlement])]
              simp only [claimReleased, hwants, hdetail, if_true]
          | released nullifier =>
              rw [List.filter_cons_of_pos (by simp [hdetail, Detail.isSettlement])]
              simp only [claimReleased, hwants, hdetail, if_true, ih]

/-- Other events do not matter to the grouping. -/
theorem groupFrom_filter (events : List Event) :
    groupFrom (events.filter fun x => x.detail.isSettlement) = groupFrom events := by
  induction events with
  | nil => rfl
  | cons x rest ih =>
      cases hdetail : x.detail with
      | other kind =>
          rw [List.filter_cons_of_neg (by simp [hdetail, Detail.isSettlement]), ih, groupFrom, hdetail]
      | batchFulfilled old new n =>
          rw [List.filter_cons_of_pos (by simp [hdetail, Detail.isSettlement])]
          simp only [groupFrom, hdetail, ih, claimReleased_filter]
      | released nullifier =>
          rw [List.filter_cons_of_pos (by simp [hdetail, Detail.isSettlement]), groupFrom, groupFrom,
            hdetail]
          exact ih

/-- **A batch claims at most what stands before the next batch.** -/
theorem claimReleased_le {old new : String} {n : Option Int} (hx : x.detail = .batchFulfilled old new n)
    (hreleases : ∀ y ∈ releases, ∃ text, y.detail = .released text)
    (h : claimReleased e size (releases ++ x :: rest) nullifiers = .ok found) :
    found.length ≤ nullifiers.length + releases.length := by
  induction releases generalizing nullifiers with
  | nil =>
      cases hwants : wants size nullifiers.length <;>
        simp only [List.nil_append, claimReleased, hwants, hx, Bool.false_eq_true, if_true, if_false,
          Except.ok.injEq] at h <;> simp [h]
  | cons y releases ih =>
      rw [List.forall_mem_cons] at hreleases
      obtain ⟨⟨text, htext⟩, hreleases⟩ := hreleases
      cases hwants : wants size nullifiers.length with
      | false =>
          rw [claimReleased_done hwants] at h
          cases h
          exact Nat.le_add_right _ _
      | true =>
          have hrest : claimReleased e size (releases ++ x :: rest) (nullifiers ++ [text]) =
              .ok found := by
            simp only [List.cons_append, claimReleased, hwants, htext, if_true] at h
            split at h
            · split at h
              · cases h
              · exact h
            · exact h
          have hle := ih hreleases hrest
          rw [List.length_append, List.length_singleton] at hle
          rw [List.length_cons]
          omega

/-- What a batch claims are texts of releases. -/
theorem mem_of_claimReleased {events : List Event}
    (h : claimReleased e size events nullifiers = .ok found) {text : String} (hmem : text ∈ found) :
    text ∈ nullifiers ∨ ∃ y ∈ events, y.detail = .released text := by
  induction events generalizing nullifiers with
  | nil =>
      cases h
      exact .inl hmem
  | cons y rest ih =>
      cases hwants : wants size nullifiers.length with
      | false =>
          rw [claimReleased_done hwants] at h
          cases h
          exact .inl hmem
      | true =>
          have hlater : ∀ {texts : List String}, claimReleased e size rest texts = .ok found →
              text ∈ texts ∨ ∃ y' ∈ y :: rest, y'.detail = .released text := by
            intro texts hrest
            rcases ih hrest with hold | ⟨y', hy', htext⟩
            · exact .inl hold
            · exact .inr ⟨y', List.mem_cons_of_mem _ hy', htext⟩
          cases hdetail : y.detail with
          | other kind =>
              simp only [claimReleased, hwants, hdetail, if_true] at h
              exact hlater h
          | batchFulfilled old new n =>
              simp only [claimReleased, hwants, hdetail, if_true] at h
              cases h
              exact .inl hmem
          | released nullifier =>
              simp only [claimReleased, hwants, hdetail, if_true] at h
              have hclaimed : claimReleased e size rest (nullifiers ++ [nullifier]) = .ok found := by
                split at h
                · split at h
                  · cases h
                  · exact h
                · exact h
              rcases hlater hclaimed with hold | hnew
              · rcases List.mem_append.1 hold with hold | hnew
                · exact .inl hold
                · obtain rfl := List.mem_singleton.1 hnew
                  exact .inr ⟨y, List.mem_cons_self, hdetail⟩
              · exact .inr hnew

/-- Releases that no batch claims are skipped. -/
theorem groupFrom_releases (hreleases : ∀ y ∈ releases, ∃ text, y.detail = .released text) :
    groupFrom (releases ++ rest) = groupFrom rest := by
  induction releases with
  | nil => rfl
  | cons y releases ih =>
      rw [List.forall_mem_cons] at hreleases
      obtain ⟨⟨text, htext⟩, hreleases⟩ := hreleases
      rw [List.cons_append, groupFrom, htext]
      exact ih hreleases

/-- The grouping from a batch event on. -/
theorem groupFrom_batch {old new : String} (hdetail : e.detail = .batchFulfilled old new size)
    {batches : List BatchJson} :
    groupFrom (e :: rest) = .ok batches ↔ ∃ found more, claimReleased e size rest [] = .ok found ∧
      size = some (found.length : Int) ∧ groupFrom rest = .ok more ∧
      batches = ⟨found, old, new, named e.txId⟩ :: more := by
  rw [groupFrom, hdetail]
  simp only [bind_eq_ok, ensure_eq_ok, Except.ok.injEq]
  constructor
  · rintro ⟨found, hfound, -, hsize, more, hmore, rfl⟩
    exact ⟨found, more, hfound, hsize, hmore, rfl⟩
  · rintro ⟨found, more, hfound, hsize, hmore, rfl⟩
    exact ⟨found, hfound, (), hsize, more, hmore, rfl⟩

/-- **The grouping keeps the roots of all batch events, in order**, and takes its nullifiers from
releases. -/
theorem groupFrom_eq_ok {events : List Event} {batches : List BatchJson}
    (h : groupFrom events = .ok batches) :
    batches.map (fun json => (json.spentRootOld, json.spentRootNew)) = events.filterMap Event.roots ∧
      ∀ json ∈ batches, ∀ text ∈ json.nullifiers, ∃ y ∈ events, y.detail = .released text := by
  induction events generalizing batches with
  | nil =>
      cases h
      exact ⟨rfl, fun json hjson => absurd hjson List.not_mem_nil⟩
  | cons x rest ih =>
      cases hdetail : x.detail with
      | other kind =>
          rw [groupFrom, hdetail] at h
          obtain ⟨hroots, hmem⟩ := ih h
          refine ⟨by rw [hroots, List.filterMap_cons_none (by rw [Event.roots, hdetail])], ?_⟩
          intro json hjson text htext
          obtain ⟨y, hy, hreleased⟩ := hmem json hjson text htext
          exact ⟨y, List.mem_cons_of_mem _ hy, hreleased⟩
      | released nullifier =>
          rw [groupFrom, hdetail] at h
          obtain ⟨hroots, hmem⟩ := ih h
          refine ⟨by rw [hroots, List.filterMap_cons_none (by rw [Event.roots, hdetail])], ?_⟩
          intro json hjson text htext
          obtain ⟨y, hy, hreleased⟩ := hmem json hjson text htext
          exact ⟨y, List.mem_cons_of_mem _ hy, hreleased⟩
      | batchFulfilled old new size =>
          obtain ⟨found, more, hfound, -, hmore, rfl⟩ := (groupFrom_batch hdetail).1 h
          obtain ⟨hroots, hmem⟩ := ih hmore
          refine ⟨?_, ?_⟩
          · rw [List.filterMap_cons_some (by rw [Event.roots, hdetail]), List.map_cons, hroots]
          · intro json hjson text htext
            rcases List.mem_cons.1 hjson with rfl | hjson
            · rcases mem_of_claimReleased hfound htext with hnil | ⟨y, hy, hreleased⟩
              · exact absurd hnil List.not_mem_nil
              · exact ⟨y, List.mem_cons_of_mem _ hy, hreleased⟩
            · obtain ⟨y, hy, hreleased⟩ := hmem json hjson text htext
              exact ⟨y, List.mem_cons_of_mem _ hy, hreleased⟩

end Grouping

/-! ## Order -/

/-- The event stands strictly before the other. -/
def Event.before (a b : Event) : Prop :=
  a.blockNumber < b.blockNumber ∨ a.blockNumber = b.blockNumber ∧ a.eventIndex < b.eventIndex

theorem orderLe_iff {a b : Event} : orderLe a b = true ↔
    a.blockNumber < b.blockNumber ∨ a.blockNumber = b.blockNumber ∧ a.eventIndex ≤ b.eventIndex := by
  simp [orderLe]

/-- **Sorting undoes any order of arrival** when positions are distinct. -/
theorem mergeSort_eq {events sorted : List Event} (hperm : events.Perm sorted)
    (hsorted : sorted.Pairwise Event.before) : events.mergeSort orderLe = sorted := by
  refine @List.Perm.eq_of_pairwise _ (fun a b => orderLe a b = true) _ _ ?_ ?_ ?_ ?_
  · intro a b ha hb hab hba
    have hmem : a ∈ sorted := hperm.mem_iff.1 (List.mem_mergeSort.1 ha)
    rcases List.Pairwise.forall_of_forall_of_flip
      (R := fun a b => a = b ∨ a.before b ∨ b.before a) (fun a _ => .inl rfl)
      (hsorted.imp fun h => .inr (.inl h)) (hsorted.imp fun h => .inr (.inr h)) hmem hb with
      rfl | hlt | hlt
    · rfl
    · rw [orderLe_iff] at hba
      rw [Event.before] at hlt
      omega
    · rw [orderLe_iff] at hab
      rw [Event.before] at hlt
      omega
  · apply List.pairwise_mergeSort
    · intro a b c
      rw [orderLe_iff, orderLe_iff, orderLe_iff]
      omega
    · intro a b
      rw [Bool.or_eq_true, orderLe_iff, orderLe_iff]
      omega
  · refine hsorted.imp fun h => ?_
    rw [Event.before] at h
    rw [orderLe_iff]
    omega
  · exact (List.mergeSort_perm events orderLe).trans hperm

end UnicityBridge.Relayer
