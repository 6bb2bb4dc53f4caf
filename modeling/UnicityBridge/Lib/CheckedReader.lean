import Mathlib.Data.Set.Basic
import UnicityBridge.Lib.Checked
import UnicityBridge.Lib.Reader

/-!
# Readers that reserve

A cursor whose vectors reserve their elements before they read them: `Vec::with_capacity` with the count
from the input. A reservation beyond the address space panics.

The rules collect the counts that a reader comes to on an input from those of its parts. A reader
panics exactly where one of them is too large (`PanicsAt`), and otherwise does what the plain reader
does.
-/

set_option autoImplicit false

namespace UnicityBridge.Lib

open Checked

/-- A reader that may panic. -/
abbrev CheckedReader (ε α : Type) := StateT Bytes (Checked ε) α

namespace CheckedReader

section Readers

variable {ε α β : Type}

/-- A reader that never aborts. -/
def ofReader (read : Reader ε α) : CheckedReader ε α := fun input => lift (read input)

instance : MonadLift (Reader ε) (CheckedReader ε) := ⟨ofReader⟩

variable (bad : ε) (max : Nat)

/-- The next bytes; the length was checked before they are split off. -/
def take (len : Nat) : CheckedReader ε Bytes := fun bytes =>
  if bytes.length < len then lift (.error bad) else splitAt bytes len

/-- `take(1)?[0]` -/
def byte : CheckedReader ε UInt8 := do
  let data ← take bad 1
  (index data 0 : Checked ε UInt8)

/-- So many values, one after the other. -/
def many (read : CheckedReader ε α) : Nat → CheckedReader ε (List α)
  | 0 => pure []
  | count + 1 => do
      let value ← read
      let values ← many read count
      pure (value :: values)

/-- A vector with its count, in an address space that holds `max` bytes. -/
def vec (size : Nat) (read : CheckedReader ε α) : CheckedReader ε (List α) := do
  let len ← ofReader (Reader.u32 bad)
  (reserve max len.toNat size : Checked ε Unit)
  many read len.toNat

theorem take_eq (len : Nat) : take bad len = ofReader (Reader.take bad len) := by
  funext bytes
  rw [take, ofReader, Reader.take]
  split
  · rfl
  · next hlen =>
    rw [splitAt, if_pos (Nat.not_lt.1 hlen)]

theorem byte_eq : byte bad = ofReader (Reader.u8 bad) := by
  rw [byte, take_eq]
  funext bytes
  cases bytes with
  | nil | cons => rfl

/-- Parts that do not panic make a whole that does not. -/
theorem bind_eq {c : CheckedReader ε α} {r : Reader ε α} {f : α → CheckedReader ε β}
    {g : α → Reader ε β} (hc : c = ofReader r) (hf : ∀ a, f a = ofReader (g a)) :
    c >>= f = ofReader (r >>= g) := by
  subst hc
  funext input
  exact Checked.bind_eq rfl fun pair _ => congrFun (hf pair.1) pair.2

end Readers

/-! ## Declared counts -/

/-- A count that the input declares for elements of a size. -/
structure Declared where
  count : Nat
  size : Nat

/-- The elements do not fit an address space of `max` bytes. -/
def Declared.Over (max : Nat) (declared : Declared) : Prop := max < declared.count * declared.size

/-- The counts that a reader comes to on an input. -/
abbrev Counts := Bytes → Set Declared

section Counts

variable {ε α β : Type} (bad : ε) (max : Nat)

/-- The counts after something else was read. -/
def behind (read : Reader ε α) (more : α → Counts) : Counts := fun input =>
  {declared | ∃ a rest, read input = .ok (a, rest) ∧ declared ∈ more a rest}

/-- The counts of a part and those after it. -/
def andThen (counts : Counts) (read : Reader ε α) (more : α → Counts) : Counts := fun input =>
  counts input ∪ behind read more input

theorem andThen_empty_left (read : Reader ε α) (more : α → Counts) :
    andThen (fun _ => ∅) read more = behind read more := by
  funext input
  exact Set.empty_union _

theorem andThen_empty_right (counts : Counts) (read : Reader ε α) :
    andThen counts read (fun _ _ => ∅) = counts := by
  funext input
  simp [andThen, behind]

/-- The counts of a vector: its own, and those that its elements come to. -/
def vecCounts (size : Nat) (read : Reader ε α) (inner : Counts) : Counts := fun input =>
  {declared | ∃ len start, Reader.u32 bad input = .ok (len, start) ∧
    (declared = ⟨len.toNat, size⟩ ∨ ∃ k < len.toNat, ∃ values rest,
      Reader.many read k start = .ok (values, rest) ∧ declared ∈ inner rest)}

/-- A reader with these counts comes to one that does not fit. -/
def Oversized (counts : Counts) (input : Bytes) : Prop :=
  ∃ declared ∈ counts input, declared.Over max

/-- The checked reader panics exactly where it comes to a count that is too large, and otherwise does
what the plain reader does. -/
def PanicsAt (counts : Counts) (c : CheckedReader ε α) (r : Reader ε α) : Prop :=
  ∀ input, PanicsIff (Oversized max counts input) (c input) (r input)

@[simp] theorem oversized_empty (input : Bytes) : ¬ Oversized max (fun _ => ∅) input := by
  simp [Oversized]

theorem oversized_behind (read : Reader ε α) (more : α → Counts) (input : Bytes) :
    Oversized max (behind read more) input ↔
      ∃ pair, read input = .ok pair ∧ Oversized max (more pair.1) pair.2 := by
  constructor
  · rintro ⟨declared, ⟨a, rest, ha, hmore⟩, hover⟩
    exact ⟨(a, rest), ha, declared, hmore, hover⟩
  · rintro ⟨pair, ha, declared, hmore, hover⟩
    exact ⟨declared, ⟨pair.1, pair.2, ha, hmore⟩, hover⟩

theorem oversized_andThen (counts : Counts) (read : Reader ε α) (more : α → Counts) (input : Bytes) :
    Oversized max (andThen counts read more) input ↔ Oversized max counts input ∨
      ∃ pair, read input = .ok pair ∧ Oversized max (more pair.1) pair.2 := by
  rw [← oversized_behind]
  simp only [Oversized, andThen, Set.mem_union, or_and_right, exists_or]

theorem behind_bind (read : Reader ε α) (next : α → Reader ε β) (more : β → Counts) :
    behind (read >>= next) more = behind read fun a => behind (next a) more := by
  funext input
  ext declared
  simp only [behind, Set.mem_ofPred_eq, Reader.run_bind]
  constructor
  · rintro ⟨b, rest, ⟨a, middle, ha, hb⟩, hmore⟩
    exact ⟨a, middle, ha, b, rest, hb, hmore⟩
  · rintro ⟨a, middle, ha, b, rest, hb, hmore⟩
    exact ⟨b, rest, ⟨a, middle, ha, hb⟩, hmore⟩

theorem behind_pure (a : α) (more : α → Counts) :
    behind (pure a : Reader ε α) more = more a := by
  funext input
  ext declared
  simp only [behind, Set.mem_ofPred_eq, Reader.run_pure]
  constructor
  · rintro ⟨_, _, ⟨rfl, rfl⟩, hmore⟩
    exact hmore
  · intro hmore
    exact ⟨a, input, ⟨rfl, rfl⟩, hmore⟩

variable {bad max}

namespace PanicsAt

/-- A reader that reserves nothing. -/
theorem of_eq {c : CheckedReader ε α} {r : Reader ε α} (h : c = ofReader r) :
    PanicsAt max (fun _ => ∅) c r := fun input => by
  subst h
  exact (PanicsIff.of_eq rfl).congr (iff_of_false id (oversized_empty max input))

theorem bind {counts : Counts} {more : α → Counts} {c : CheckedReader ε α} {r : Reader ε α}
    {f : α → CheckedReader ε β} {g : α → Reader ε β} (h : PanicsAt max counts c r)
    (hf : ∀ a, PanicsAt max (more a) (f a) (g a)) :
    PanicsAt max (andThen counts r more) (c >>= f) (r >>= g) := by
  intro input
  rw [oversized_andThen]
  exact (h input).bind (f := fun pair => f pair.1 pair.2) (g := fun pair => g pair.1 pair.2)
    fun pair _ _ => hf pair.1 pair.2

/-- After a part that reserves nothing. -/
theorem after {more : α → Counts} {c : CheckedReader ε α} {r : Reader ε α}
    {f : α → CheckedReader ε β} {g : α → Reader ε β} (h : c = ofReader r)
    (hf : ∀ a, PanicsAt max (more a) (f a) (g a)) :
    PanicsAt max (behind r more) (c >>= f) (r >>= g) := by
  have hbind := (of_eq h).bind hf
  rwa [andThen_empty_left] at hbind

/-- Before a part that reserves nothing. -/
theorem before {counts : Counts} {c : CheckedReader ε α} {r : Reader ε α}
    {f : α → CheckedReader ε β} {g : α → Reader ε β} (h : PanicsAt max counts c r)
    (hf : ∀ a, f a = ofReader (g a)) : PanicsAt max counts (c >>= f) (r >>= g) := by
  have hbind := h.bind fun a => of_eq (hf a)
  rwa [andThen_empty_right] at hbind

/-- The elements of a vector, one after the other. -/
theorem many {inner : Counts} {c : CheckedReader ε α} {r : Reader ε α} (h : PanicsAt max inner c r)
    (count : Nat) (input : Bytes) :
    PanicsIff (∃ k < count, ∃ values rest, Reader.many r k input = .ok (values, rest) ∧
        Oversized max inner rest)
      (CheckedReader.many c count input) (Reader.many r count input) := by
  induction count generalizing input with
  | zero => exact (PanicsIff.of_eq rfl).congr (by simp)
  | succ count ih =>
      have hstep : PanicsIff _
          (c input >>= fun pair => CheckedReader.many c count pair.2 >>= fun more =>
            lift (.ok (pair.1 :: more.1, more.2)))
          (r input >>= fun pair => Reader.many r count pair.2 >>= fun more =>
            .ok (pair.1 :: more.1, more.2)) :=
        (h input).bind fun pair _ _ => (ih pair.2).before fun _ _ _ => rfl
      refine hstep.congr ⟨?_, ?_⟩
      · rintro (hover | ⟨⟨a, rest⟩, ha, k, hk, values, last, hvalues, hover⟩)
        · exact ⟨0, Nat.succ_pos _, [], input, rfl, hover⟩
        · refine ⟨k + 1, Nat.succ_lt_succ hk, a :: values, last, ?_, hover⟩
          simp only [Reader.many, Reader.run_bind, Reader.run_pure]
          exact ⟨a, rest, ha, values, last, hvalues, rfl, rfl⟩
      · rintro ⟨k, hk, values, last, hvalues, hover⟩
        cases k with
        | zero =>
            obtain ⟨-, rfl⟩ := Reader.run_pure.1 hvalues
            exact .inl hover
        | succ k =>
            simp only [Reader.many, Reader.run_bind, Reader.run_pure] at hvalues
            obtain ⟨a, rest, ha, more, last', hmore, -, rfl⟩ := hvalues
            exact .inr ⟨(a, rest), ha, k, Nat.lt_of_succ_lt_succ hk, more, last', hmore, hover⟩

/-- **A vector panics** on its own count or in an element. -/
theorem vec {inner : Counts} {c : CheckedReader ε α} {r : Reader ε α} (size : Nat)
    (h : PanicsAt max inner c r) :
    PanicsAt max (vecCounts bad size r inner) (CheckedReader.vec bad max size c)
      (Reader.vec bad r) := by
  intro input
  have hvec : PanicsIff _
      ((lift (Reader.u32 bad input) : Checked ε (UInt32 × Bytes)) >>= fun pair =>
        reserve max pair.1.toNat size >>= fun _ => CheckedReader.many c pair.1.toNat pair.2)
      (Reader.u32 bad input >>= fun pair => .ok () >>= fun _ => Reader.many r pair.1.toNat pair.2) :=
    PanicsIff.after rfl fun pair _ =>
      (PanicsIff.reserve max pair.1.toNat size).bind fun _ _ _ => h.many pair.1.toNat pair.2
  have hchecked : CheckedReader.vec bad max size c input =
      (lift (Reader.u32 bad input) : Checked ε (UInt32 × Bytes)) >>= fun pair =>
        reserve max pair.1.toNat size >>= fun _ => CheckedReader.many c pair.1.toNat pair.2 := by
    show lift (Reader.u32 bad input) >>= (fun pair =>
      (reserve max pair.1.toNat size >>= fun done => pure (done, pair.2)) >>= fun next =>
        CheckedReader.many c pair.1.toNat next.2) = _
    simp only [bind_assoc, pure_bind]
  rw [hchecked]
  refine hvec.congr ⟨?_, ?_⟩
  · rintro ⟨⟨len, start⟩, hlen, hover | ⟨_, -, k, hk, values, rest, hvalues, declared, hcount, hover⟩⟩
    · exact ⟨_, ⟨len, start, hlen, .inl rfl⟩, hover⟩
    · exact ⟨declared, ⟨len, start, hlen, .inr ⟨k, hk, values, rest, hvalues, hcount⟩⟩, hover⟩
  · rintro ⟨declared, ⟨len, start, hlen, rfl | ⟨k, hk, values, rest, hvalues, hcount⟩⟩, hover⟩
    · exact ⟨(len, start), hlen, .inl hover⟩
    · exact ⟨(len, start), hlen, .inr ⟨(), rfl, k, hk, values, rest, hvalues, declared, hcount, hover⟩⟩

end PanicsAt

end Counts

end CheckedReader

end UnicityBridge.Lib
