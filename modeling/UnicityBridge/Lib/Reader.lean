import UnicityBridge.Lib.Bytes
import UnicityBridge.Lib.Result

/-!
# Reading byte strings

A cursor over a byte string: it takes arrays, big-endian integers, and vectors with a 32-bit count.
Beside each reader stands the writer that it undoes. Writing a vector fails when its count does not
fit.

`Reads` says that a reader takes one encoding from the front of any input and leaves the rest.
-/

set_option autoImplicit false

namespace UnicityBridge.Lib

/-- A reader: a value and the rest of the input, or an error. -/
abbrev Reader (ε : Type) (α : Type) := StateT Bytes (Except ε) α

namespace Reader

section Readers

variable {ε α β : Type} (bad : ε)

/-- The next bytes. -/
def take (len : Nat) : Reader ε Bytes := fun bytes =>
  if bytes.length < len then .error bad else .ok (bytes.take len, bytes.drop len)

/-- A fixed-width array. -/
def array (n : Nat) : Reader ε (ByteArr n) := do
  let bytes ← take bad n
  if h : bytes.length = n then pure ⟨bytes, h⟩ else throw bad

/-- One byte. -/
def u8 : Reader ε UInt8 := do
  let bytes ← array bad 1
  pure bytes.head

/-- A big-endian integer of two bytes. -/
def u16 : Reader ε UInt16 := do
  let bytes ← array bad 2
  pure (UInt16.ofNat bytes.toNat)

/-- A big-endian integer of four bytes. -/
def u32 : Reader ε UInt32 := do
  let bytes ← array bad 4
  pure (UInt32.ofNat bytes.toNat)

/-- A big-endian integer of eight bytes. -/
def u64 : Reader ε UInt64 := do
  let bytes ← array bad 8
  pure (UInt64.ofNat bytes.toNat)

/-- A byte string with its length. -/
def bytes : Reader ε Bytes := do
  let len ← u32 bad
  take bad len.toNat

/-- So many values, one after the other. -/
def many (read : Reader ε α) : Nat → Reader ε (List α)
  | 0 => pure []
  | count + 1 => do
      let value ← read
      let values ← many read count
      pure (value :: values)

/-- A vector with its count. -/
def vec (read : Reader ε α) : Reader ε (List α) := do
  let len ← u32 bad
  many read len.toNat

/-- A value that a partial conversion must accept. -/
def accept (value : Option α) : Reader ε α :=
  match value with
  | some a => pure a
  | none => throw bad

end Readers

/-! ## Writers -/

/-- Two big-endian bytes. -/
def putU16 (value : UInt16) : Bytes := beBytes 2 value.toNat

/-- Four big-endian bytes. -/
def putU32 (value : UInt32) : Bytes := beBytes 4 value.toNat

/-- Eight big-endian bytes. -/
def putU64 (value : UInt64) : Bytes := beBytes 8 value.toNat

/-- A count, which must fit 32 bits. -/
def putLen (len : Nat) : Option Bytes :=
  if len < 2 ^ 32 then some (putU32 (UInt32.ofNat len)) else none

/-- Bytes behind their length; `none` where the length exceeds its field. -/
def putBytes (data : Bytes) : Option Bytes := do
  let len ← putLen data.length
  some (len ++ data)

/-- Values behind their count; `none` where the count exceeds its field. -/
def putVec {α : Type} (put : α → Option Bytes) (values : List α) : Option Bytes := do
  let len ← putLen values.length
  let items ← values.mapM put
  some (len ++ items.flatten)

/-! ## Readers undo writers -/

section Reads

variable {ε α β : Type} (bad : ε)

/-- The reader takes this encoding of the value from the front of any input. -/
def Reads (read : Reader ε α) (encoding : Bytes) (value : α) : Prop :=
  ∀ rest, read (encoding ++ rest) = .ok (value, rest)

/-- The value is written, and the reader takes it back. -/
def Inverts (read : Reader ε α) (put : α → Option Bytes) (value : α) : Prop :=
  ∃ encoding, put value = some encoding ∧ Reads read encoding value

theorem Reads.pure (value : α) : Reads (Pure.pure value : Reader ε α) [] value := fun _ => rfl

theorem Reads.bind {read : Reader ε α} {next : α → Reader ε β} {encoding encoding' : Bytes} {a : α}
    {b : β} (h : Reads read encoding a) (h' : Reads (next a) encoding' b) :
    Reads (read >>= next) (encoding ++ encoding') b := by
  intro rest
  show (read (encoding ++ encoding' ++ rest) >>= fun pair => next pair.1 pair.2) = _
  rw [List.append_assoc, h]
  exact h' rest

/-- The last step, which reads nothing more. -/
theorem Reads.bind_pure {read : Reader ε α} {f : α → β} {encoding : Bytes} {a : α}
    (h : Reads read encoding a) : Reads (read >>= fun a => Pure.pure (f a)) encoding (f a) := by
  have hlast : Reads (Pure.pure (f a) : Reader ε β) [] (f a) := Reads.pure (f a)
  have hboth := @Reads.bind ε α β read (fun a => Pure.pure (f a)) encoding [] a (f a) h hlast
  rwa [List.append_nil] at hboth

/-- A step that reads nothing before the last. -/
theorem Reads.bind_last {read : Reader ε α} {next : α → Reader ε β} {encoding : Bytes} {a : α} {b : β}
    (h : Reads read encoding a) (h' : Reads (next a) [] b) : Reads (read >>= next) encoding b := by
  have hboth := h.bind h'
  rwa [List.append_nil] at hboth

theorem Reads.accept {value : Option α} {a : α} (h : value = some a) {next : α → Reader ε β}
    {encoding : Bytes} {b : β} (h' : Reads (next a) encoding b) :
    Reads (Reader.accept bad value >>= next) encoding b := by
  rw [h]
  exact h'

theorem reads_take (data : Bytes) : Reads (take bad data.length) data data := by
  intro rest
  rw [take, if_neg (by rw [List.length_append]; omega), List.take_left, List.drop_left]

theorem reads_array {n : Nat} (value : ByteArr n) : Reads (array bad n) value.toList value := by
  have hlength : value.toList.length = n := value.property
  have htake := reads_take bad value.toList
  rw [hlength] at htake
  intro rest
  show (take bad n (value.toList ++ rest) >>= fun pair => _) = _
  rw [htake rest]
  show (if h : value.toList.length = n then Pure.pure ⟨value.toList, h⟩ else throw bad :
    Reader ε (ByteArr n)) rest = _
  rw [dif_pos hlength]
  rfl

theorem reads_u8 (value : UInt8) : Reads (u8 bad) [value] value :=
  (reads_array bad (⟨[value], rfl⟩ : ByteArr 1)).bind_pure

/-- The integer readers share this step. -/
theorem reads_width {n : Nat} (value : Nat) (h : value < 256 ^ n) (f : Nat → α) :
    Reads (do let bytes ← array bad n; Pure.pure (f bytes.toNat)) (beBytes n value) (f value) := by
  have hread := (reads_array bad (ByteArr.ofNat n value)).bind_pure
    (f := fun bytes => f bytes.toNat)
  rwa [ByteArr.toNat_ofNat h] at hread

theorem reads_u16 (value : UInt16) : Reads (u16 bad) (putU16 value) value := by
  have hlt : value.toNat < 256 ^ 2 := value.toNat_lt
  have hread := reads_width bad value.toNat hlt UInt16.ofNat
  rwa [UInt16.ofNat_toNat] at hread

theorem reads_u32 (value : UInt32) : Reads (u32 bad) (putU32 value) value := by
  have hlt : value.toNat < 256 ^ 4 := value.toNat_lt
  have hread := reads_width bad value.toNat hlt UInt32.ofNat
  rwa [UInt32.ofNat_toNat] at hread

theorem reads_u64 (value : UInt64) : Reads (u64 bad) (putU64 value) value := by
  have hlt : value.toNat < 256 ^ 8 := value.toNat_lt
  have hread := reads_width bad value.toNat hlt UInt64.ofNat
  rwa [UInt64.ofNat_toNat] at hread

theorem putLen_of_lt {len : Nat} (h : len < 2 ^ 32) :
    putLen len = some (putU32 (UInt32.ofNat len)) := if_pos h

theorem inverts_bytes {data : Bytes} (h : data.length < 2 ^ 32) :
    Inverts (bytes bad) putBytes data := by
  refine ⟨putU32 (UInt32.ofNat data.length) ++ data, ?_, ?_⟩
  · rw [putBytes, putLen_of_lt h]
    rfl
  · refine (reads_u32 bad _).bind ?_
    rw [UInt32.toNat_ofNat_of_lt' h]
    exact reads_take bad data

theorem inverts_many {read : Reader ε α} {put : α → Option Bytes} {values : List α}
    (h : ∀ value ∈ values, Inverts read put value) :
    ∃ items, values.mapM put = some items ∧ Reads (many read values.length) items.flatten values := by
  induction values with
  | nil => exact ⟨[], rfl, Reads.pure []⟩
  | cons value rest ih =>
      rw [List.forall_mem_cons] at h
      obtain ⟨encoding, hput, hread⟩ := h.1
      obtain ⟨items, hitems, hrest⟩ := ih h.2
      refine ⟨encoding :: items, ?_, ?_⟩
      · rw [List.mapM_cons, hput, hitems]
        rfl
      · rw [List.flatten_cons, List.length_cons]
        exact hread.bind hrest.bind_pure

/-- **A vector is read back** when its values are and its count fits. -/
theorem inverts_vec {read : Reader ε α} {put : α → Option Bytes} {values : List α}
    (hlength : values.length < 2 ^ 32) (h : ∀ value ∈ values, Inverts read put value) :
    Inverts (vec bad read) (putVec put) values := by
  obtain ⟨items, hitems, hread⟩ := inverts_many h
  refine ⟨putU32 (UInt32.ofNat values.length) ++ items.flatten, ?_, ?_⟩
  · rw [putVec, putLen_of_lt hlength, hitems]
    rfl
  · refine (reads_u32 bad _).bind ?_
    rw [UInt32.toNat_ofNat_of_lt' hlength]
    exact hread

end Reads

/-! ## What was read -/

section Read

variable {ε α β : Type} {bad : ε}

theorem run_bind {read : Reader ε α} {next : α → Reader ε β} {input rest : Bytes} {b : β} :
    (read >>= next) input = .ok (b, rest) ↔
      ∃ a middle, read input = .ok (a, middle) ∧ next a middle = .ok (b, rest) := by
  show (read input >>= fun pair => next pair.1 pair.2) = _ ↔ _
  rw [Lib.bind_eq_ok]
  constructor
  · rintro ⟨⟨a, middle⟩, ha, hb⟩
    exact ⟨a, middle, ha, hb⟩
  · rintro ⟨a, middle, ha, hb⟩
    exact ⟨⟨a, middle⟩, ha, hb⟩

theorem run_pure {a b : α} {input rest : Bytes} :
    (Pure.pure a : Reader ε α) input = .ok (b, rest) ↔ a = b ∧ input = rest := by
  show (Except.ok (a, input) : Except ε (α × Bytes)) = .ok (b, rest) ↔ _
  rw [Except.ok.injEq, Prod.mk.injEq]

theorem run_accept {value : Option α} {a : α} {input rest : Bytes} :
    accept bad value input = .ok (a, rest) ↔ value = some a ∧ input = rest := by
  cases value with
  | some b => rw [accept, run_pure, Option.some.injEq]
  | none =>
      constructor
      · intro h
        cases h
      · rintro ⟨h, -⟩
        cases h

theorem take_length {len : Nat} {input rest data : Bytes}
    (h : take bad len input = .ok (data, rest)) : data.length = len := by
  rw [take] at h
  split at h
  · cases h
  · cases h
    rw [List.length_take]
    omega

theorem bytes_length_lt {input rest data : Bytes} (h : bytes bad input = .ok (data, rest)) :
    data.length < 2 ^ 32 := by
  rw [bytes, run_bind] at h
  obtain ⟨len, middle, -, h⟩ := h
  rw [take_length h]
  exact len.toNat_lt

/-- Values that were read are values that the reader can return. -/
theorem many_eq_ok {read : Reader ε α} {count : Nat} {input rest : Bytes} {values : List α}
    (h : many read count input = .ok (values, rest)) :
    values.length = count ∧ ∀ value ∈ values, ∃ before after, read before = .ok (value, after) := by
  induction count generalizing input values with
  | zero =>
      obtain ⟨rfl, -⟩ := run_pure.1 h
      exact ⟨rfl, fun value hvalue => absurd hvalue List.not_mem_nil⟩
  | succ count ih =>
      simp only [many, run_bind, run_pure] at h
      obtain ⟨value, middle, hvalue, more, last, hmore, rfl, rfl⟩ := h
      obtain ⟨hlength, hall⟩ := ih hmore
      exact ⟨by rw [List.length_cons, hlength],
        List.forall_mem_cons.2 ⟨⟨_, _, hvalue⟩, hall⟩⟩

theorem vec_eq_ok {read : Reader ε α} {input rest : Bytes} {values : List α}
    (h : vec bad read input = .ok (values, rest)) :
    values.length < 2 ^ 32 ∧ ∀ value ∈ values, ∃ before after, read before = .ok (value, after) := by
  rw [vec, run_bind] at h
  obtain ⟨len, middle, -, h⟩ := h
  obtain ⟨hlength, hall⟩ := many_eq_ok h
  exact ⟨hlength ▸ len.toNat_lt, hall⟩

end Read

/-! ## What was read was written -/

section Takes

variable {ε α β : Type} {bad : ε}

/-- The reader takes only what the writer writes: the input begins with the value's encoding. -/
def Takes (read : Reader ε α) (put : α → Option Bytes) : Prop :=
  ∀ input a rest, read input = .ok (a, rest) →
    ∃ encoding, put a = some encoding ∧ input = encoding ++ rest

theorem take_eq_ok {len : Nat} {input rest data : Bytes}
    (h : take bad len input = .ok (data, rest)) : input = data ++ rest := by
  rw [take] at h
  split at h
  · cases h
  · cases h
    exact (List.take_append_drop len input).symm

theorem array_eq_ok {n : Nat} {input rest : Bytes} {value : ByteArr n}
    (h : array bad n input = .ok (value, rest)) : input = value.toList ++ rest := by
  rw [array, run_bind] at h
  obtain ⟨data, middle, hdata, h⟩ := h
  split at h
  · obtain ⟨rfl, rfl⟩ := run_pure.1 h
    exact take_eq_ok hdata
  · cases h

theorem u8_eq_ok {input rest : Bytes} {value : UInt8} (h : u8 bad input = .ok (value, rest)) :
    input = [value] ++ rest := by
  simp only [u8, run_bind, run_pure] at h
  obtain ⟨⟨data, hlength⟩, middle, hdata, rfl, rfl⟩ := h
  obtain ⟨byte, rfl⟩ := List.length_eq_one_iff.1 hlength
  exact array_eq_ok hdata

/-- The integer readers share this step. -/
theorem width_eq_ok {n : Nat} {f : Nat → α} {put : α → Nat} {input rest : Bytes} {value : α}
    (hput : ∀ data : ByteArr n, put (f data.toNat) = data.toNat)
    (h : (do let data ← array bad n; Pure.pure (f data.toNat)) input = .ok (value, rest)) :
    input = beBytes n (put value) ++ rest := by
  simp only [run_bind, run_pure] at h
  obtain ⟨data, middle, hdata, rfl, rfl⟩ := h
  have hbytes : beBytes n data.toNat = data.toList := congrArg List.Vector.toList data.ofNat_toNat
  rw [hput, hbytes]
  exact array_eq_ok hdata

theorem u16_eq_ok {input rest : Bytes} {value : UInt16} (h : u16 bad input = .ok (value, rest)) :
    input = putU16 value ++ rest :=
  @width_eq_ok _ _ _ 2 UInt16.ofNat UInt16.toNat _ _ _
    (fun data => UInt16.toNat_ofNat_of_lt' data.toNat_lt) h

theorem u32_eq_ok {input rest : Bytes} {value : UInt32} (h : u32 bad input = .ok (value, rest)) :
    input = putU32 value ++ rest :=
  @width_eq_ok _ _ _ 4 UInt32.ofNat UInt32.toNat _ _ _
    (fun data => UInt32.toNat_ofNat_of_lt' data.toNat_lt) h

theorem u64_eq_ok {input rest : Bytes} {value : UInt64} (h : u64 bad input = .ok (value, rest)) :
    input = putU64 value ++ rest :=
  @width_eq_ok _ _ _ 8 UInt64.ofNat UInt64.toNat _ _ _
    (fun data => UInt64.toNat_ofNat_of_lt' data.toNat_lt) h

/-- A count that was read is the one that is written. -/
theorem putLen_toNat (len : UInt32) : putLen len.toNat = some (putU32 len) := by
  rw [putLen_of_lt len.toNat_lt, UInt32.ofNat_toNat]

theorem takes_bytes : Takes (bytes bad) putBytes := by
  intro input data rest h
  rw [bytes, run_bind] at h
  obtain ⟨len, middle, hlen, hdata⟩ := h
  refine ⟨putU32 len ++ data, ?_, ?_⟩
  · rw [putBytes, take_length hdata, putLen_toNat]
    rfl
  · rw [u32_eq_ok hlen, take_eq_ok hdata, List.append_assoc]

theorem takes_many {read : Reader ε α} {put : α → Option Bytes} (h : Takes read put) {count : Nat}
    {input rest : Bytes} {values : List α} (hrun : many read count input = .ok (values, rest)) :
    ∃ items, values.mapM put = some items ∧ input = items.flatten ++ rest := by
  induction count generalizing input values with
  | zero =>
      obtain ⟨rfl, rfl⟩ := run_pure.1 hrun
      exact ⟨[], rfl, rfl⟩
  | succ count ih =>
      simp only [many, run_bind, run_pure] at hrun
      obtain ⟨value, middle, hvalue, more, last, hmore, rfl, rfl⟩ := hrun
      obtain ⟨encoding, hput, rfl⟩ := h _ _ _ hvalue
      obtain ⟨items, hitems, rfl⟩ := ih hmore
      refine ⟨encoding :: items, ?_, ?_⟩
      · rw [List.mapM_cons, hput, hitems]
        rfl
      · rw [List.flatten_cons, List.append_assoc]

/-- **A vector that was read is the vector that is written**, count included. -/
theorem takes_vec {read : Reader ε α} {put : α → Option Bytes} (h : Takes read put) :
    Takes (vec bad read) (putVec put) := by
  intro input values rest hrun
  rw [vec, run_bind] at hrun
  obtain ⟨len, middle, hlen, hmany⟩ := hrun
  obtain ⟨items, hitems, rfl⟩ := takes_many h hmany
  refine ⟨putU32 len ++ items.flatten, ?_, ?_⟩
  · rw [putVec, (many_eq_ok hmany).1, putLen_toNat, hitems]
    rfl
  · rw [u32_eq_ok hlen, List.append_assoc]

end Takes

/-! ## How much is read -/

section Consumes

variable {ε α β : Type} (bad : ε)

/-- The reader takes at least so many bytes. -/
def Consumes (read : Reader ε α) (n : Nat) : Prop :=
  ∀ input a rest, read input = .ok (a, rest) → rest.length + n ≤ input.length

theorem Consumes.pure (a : α) : Consumes (Pure.pure a : Reader ε α) 0 := by
  intro input b rest h
  rw [(run_pure.1 h).2]
  exact Nat.le_refl _

theorem Consumes.bind {read : Reader ε α} {next : α → Reader ε β} {m n : Nat}
    (h : Consumes read m) (h' : ∀ a, Consumes (next a) n) : Consumes (read >>= next) (m + n) := by
  intro input b rest hrun
  obtain ⟨a, middle, ha, hb⟩ := run_bind.1 hrun
  have hfirst := h _ _ _ ha
  have hsecond := h' a _ _ _ hb
  omega

theorem consumes_take (len : Nat) : Consumes (take bad len) len := by
  intro input data rest h
  rw [take] at h
  split at h
  · cases h
  · cases h
    rw [List.length_drop]
    omega

theorem consumes_array (n : Nat) : Consumes (array bad n) n := by
  intro input value rest h
  rw [array, run_bind] at h
  obtain ⟨data, middle, hdata, h⟩ := h
  split at h
  · obtain ⟨-, rfl⟩ := run_pure.1 h
    exact consumes_take bad n _ _ _ hdata
  · cases h

theorem consumes_u32 : Consumes (u32 bad) 4 := (consumes_array bad 4).bind fun _ => Consumes.pure _

theorem consumes_u64 : Consumes (u64 bad) 8 := (consumes_array bad 8).bind fun _ => Consumes.pure _

theorem consumes_many {read : Reader ε α} {n : Nat} (h : Consumes read n) {count : Nat}
    {input rest : Bytes} {values : List α} (hrun : many read count input = .ok (values, rest)) :
    rest.length + n * values.length ≤ input.length := by
  induction count generalizing input values with
  | zero =>
      obtain ⟨rfl, rfl⟩ := run_pure.1 hrun
      exact Nat.le_refl _
  | succ count ih =>
      simp only [many, run_bind, run_pure] at hrun
      obtain ⟨value, middle, hvalue, more, last, hmore, rfl, rfl⟩ := hrun
      have hfirst := h _ _ _ hvalue
      have hrest := ih hmore
      rw [List.length_cons, Nat.mul_succ]
      omega

/-- A vector takes what its values take. -/
theorem consumes_vec {read : Reader ε α} {n : Nat} (h : Consumes read n) {input rest : Bytes}
    {values : List α} (hrun : vec bad read input = .ok (values, rest)) :
    rest.length + n * values.length ≤ input.length := by
  rw [vec, run_bind] at hrun
  obtain ⟨len, middle, hlen, hrun⟩ := hrun
  have hfirst := consumes_u32 bad _ _ _ hlen
  have hrest := consumes_many h hrun
  omega

end Consumes

end Reader

end UnicityBridge.Lib
