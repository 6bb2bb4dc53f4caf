import UnicityBridge.CheckedGuest
import UnicityBridge.Lib.CheckedReader
import UnicityBridge.WireCodec

/-!
# The wire format with its reservations

`decode_guest_input` of `prover/crates/guest/src/wire.rs` on the 32-bit guest. `Cursor::vec` reserves as
many elements as the count on the wire says before it reads one, whatever is left of the input; the
byte strings are taken only if they are there.

`decodeGuestInput_panics` names the places where a count is read, and `checking_returns` says on which
wire inputs decoding and the relation's checks return. The first is about counts, the second adds the
accumulator witnesses that overrun.
-/

set_option autoImplicit false

namespace UnicityBridge.CheckedWire

open UnicityBridge.Lib UnicityBridge.Lib.Checked UnicityBridge.Lib.CheckedReader
open UnicityBridge.TokenSdk
open UnicityBridge.Core (BridgeCoreError PublicValues)
open UnicityBridge.Accumulator (NonMembershipWitness NonMembershipTerminal SmtProofStep)
open UnicityBridge.Guest (GuestInput BridgeBurnWitness BurnVerification)
open UnicityBridge.Wire (Codec Cursor bad)
open UnicityBridge.CheckedGuest (ExactArrays ISIZE_MAX LOCK_REF_SIZE RETURN_LEAF_SIZE)

/-- The wire cursor with its arithmetic and its allocations checked. -/
abbrev CheckedCursor := CheckedReader BridgeCoreError

/-- The bytes of an `SmtProofStep`: a depth and a digest. -/
def STEP_SIZE : Nat := 33

/-- The bytes of a `NonMembershipWitness`: a vector of three words of the machine, a tag and a key. -/
def WITNESS_SIZE : Nat := 48

/-- The bytes of the elements that hold parts of the SDK. -/
structure Layout where
  burn : Nat
  node : Nat

section Checking

variable (sdk : Sdk) (codec : Codec) (layout : Layout)

/-! ## Reading -/

/-- `Cursor::vec` of the guest -/
def vec {α : Type} (size : Nat) (read : CheckedCursor α) : CheckedCursor (List α) :=
  CheckedReader.vec bad ISIZE_MAX size read

/-- The end of an absent key's path. -/
def terminal : CheckedCursor NonMembershipTerminal := do
  let tag ← byte bad
  if tag = 0 then pure .empty
  else if tag = 1 then do
    let key ← ofReader (Reader.array bad 32)
    pure (.occupied key)
  else ofReader (throw bad)

/-- One step of a witness. -/
def step : CheckedCursor SmtProofStep := do
  let depth ← byte bad
  let siblingHash ← ofReader (Reader.array bad 32)
  pure { depth, siblingHash }

/-- A witness of absence. -/
def accumulatorWitness : CheckedCursor NonMembershipWitness := do
  let terminal ← terminal
  let steps ← vec STEP_SIZE step
  pure { terminal, steps }

/-- A trust base. -/
def trustBase : CheckedCursor RootTrustBase := do
  let version ← ofReader (Reader.u64 bad)
  let id ← ofReader (Reader.u16 bad)
  let networkId ← ofReader (Reader.accept bad (codec.networkId id))
  let epoch ← ofReader (Reader.u64 bad)
  let epochStartRound ← ofReader (Reader.u64 bad)
  let rootNodes ← vec layout.node (ofReader (Wire.node codec))
  let quorumThreshold ← ofReader (Reader.u64 bad)
  let trustBase := { version, networkId, epoch, epochStartRound, rootNodes, quorumThreshold }
  if sdk.trustBaseValid trustBase then pure trustBase else ofReader (throw bad)

/-- How a burn's certificates are to be verified. -/
def verification : CheckedCursor BurnVerification := do
  let tag ← byte bad
  if tag = 0 then do
    let anchorBytes ← ofReader (Reader.bytes bad)
    ofReader (Reader.accept bad (sdk.finish anchorBytes))
    let anchor ← ofReader (Reader.accept bad (codec.certificateFromCbor anchorBytes))
    pure (.anchored anchor)
  else if tag = 1 then pure .certified
  else ofReader (throw bad)

/-- A burn with its trust base and its verification. -/
def bridgeBurn : CheckedCursor BridgeBurnWitness := do
  let tokenBytes ← ofReader (Reader.bytes bad)
  let token ← ofReader (Reader.accept bad (codec.tokenFromCbor tokenBytes))
  let trustBase ← trustBase sdk codec layout
  let verification ← verification sdk codec
  let lockJustificationTag ← ofReader (Reader.u64 bad)
  pure { token, trustBase, verification, lockJustificationTag }

/-- `decode_guest_input` -/
def decodeGuestInput (input : Bytes) : Checked BridgeCoreError GuestInput := do
  let (version, rest) ← ofReader (Reader.u32 bad) input
  ensure (version = Wire.WIRE_VERSION) bad
  let (config, rest) ← ofReader Wire.config rest
  let (publicValues, rest) ← ofReader Wire.publicValues rest
  let (returnLeaves, rest) ← vec RETURN_LEAF_SIZE (ofReader Wire.returnLeaf) rest
  let (sortedLockRefs, rest) ← vec LOCK_REF_SIZE (ofReader Wire.lockRef) rest
  let (accumulatorWitnesses, rest) ← vec WITNESS_SIZE accumulatorWitness rest
  let (bridgeBurns, rest) ← vec layout.burn (bridgeBurn sdk codec layout) rest
  ensure (rest = []) bad
  if h : returnLeaves.length < 2 ^ 32 then
    pure { config, publicValues, returnLeaves, sortedLockRefs,
           witness := { accumulatorWitnesses, bridgeBurns }, leaves_lt := h }
  else lift (.error bad)

/-! ## Counts -/

/-- What comes before the vectors. -/
def header : Cursor Unit := do
  let version ← Reader.u32 bad
  if version = Wire.WIRE_VERSION then do
    let _ ← Wire.config
    let _ ← Wire.publicValues
    pure ()
  else throw bad

/-- What comes before the nodes of a burn's trust base. -/
def beforeNodes : Cursor Unit := do
  let tokenBytes ← Reader.bytes bad
  let _ ← Reader.accept bad (codec.tokenFromCbor tokenBytes)
  let _ ← Reader.u64 bad
  let id ← Reader.u16 bad
  let _ ← Reader.accept bad (codec.networkId id)
  let _ ← Reader.u64 bad
  let _ ← Reader.u64 bad
  pure ()

/-- The steps of a witness, after its terminal. -/
def witnessCounts : Counts :=
  behind Wire.terminal fun _ => vecCounts bad STEP_SIZE Wire.step fun _ => ∅

/-- The nodes of the trust base of a burn. -/
def burnCounts : Counts :=
  behind (beforeNodes codec) fun _ => vecCounts bad layout.node (Wire.node codec) fun _ => ∅

/-- The counts read for the burns, where `codec` reads their tokens. -/
def burnsCounts : Counts :=
  vecCounts bad layout.burn (Wire.bridgeBurn sdk codec) (burnCounts codec layout)

/-- The counts read from the witnesses on. -/
def witnessesCounts : Counts :=
  andThen (vecCounts bad WITNESS_SIZE Wire.accumulatorWitness witnessCounts)
    (Reader.vec bad Wire.accumulatorWitness) fun _ => burnsCounts sdk codec layout

/-- The counts read from the lock references on. -/
def lockRefsCounts : Counts :=
  andThen (vecCounts bad LOCK_REF_SIZE Wire.lockRef fun _ => ∅) (Reader.vec bad Wire.lockRef)
    fun _ => witnessesCounts sdk codec layout

/-- The counts read from the return leaves on. -/
def leavesCounts : Counts :=
  andThen (vecCounts bad RETURN_LEAF_SIZE Wire.returnLeaf fun _ => ∅) (Reader.vec bad Wire.returnLeaf)
    fun _ => lockRefsCounts sdk codec layout

/-- Every count that decoding comes to: the four vectors of the input, the steps of each witness and the
nodes of each burn's trust base. -/
def decodeCounts : Counts := behind header fun _ => leavesCounts sdk codec layout

variable {sdk codec layout}

theorem terminal_eq : terminal = ofReader Wire.terminal := by
  refine bind_eq (byte_eq bad) fun tag => ?_
  by_cases hempty : tag = 0
  · rw [if_pos hempty, if_pos hempty]
    rfl
  rw [if_neg hempty, if_neg hempty]
  by_cases hoccupied : tag = 1
  · rw [if_pos hoccupied, if_pos hoccupied]
    exact bind_eq rfl fun _ => rfl
  · rw [if_neg hoccupied, if_neg hoccupied]

theorem step_eq : step = ofReader Wire.step :=
  bind_eq (byte_eq bad) fun _ => bind_eq rfl fun _ => rfl

theorem verification_eq : verification sdk codec = ofReader (Wire.verification sdk codec) := by
  refine bind_eq (byte_eq bad) fun tag => ?_
  by_cases hanchored : tag = 0
  · rw [if_pos hanchored, if_pos hanchored]
    exact bind_eq rfl fun _ => bind_eq rfl fun _ => bind_eq rfl fun _ => rfl
  rw [if_neg hanchored, if_neg hanchored]
  by_cases hcertified : tag = 1
  · rw [if_pos hcertified, if_pos hcertified]
    rfl
  · rw [if_neg hcertified, if_neg hcertified]

/-! ## Where decoding panics -/

theorem accumulatorWitness_panics :
    PanicsAt ISIZE_MAX witnessCounts accumulatorWitness Wire.accumulatorWitness :=
  PanicsAt.after terminal_eq fun _ => (PanicsAt.vec STEP_SIZE (PanicsAt.of_eq step_eq)).before fun _ => rfl

/-- The nodes are the only vector of a burn. -/
theorem trustBase_panics :
    PanicsAt ISIZE_MAX
      (behind (Reader.u64 bad) fun _ => behind (Reader.u16 bad) fun id =>
        behind (Reader.accept bad (codec.networkId id)) fun _ => behind (Reader.u64 bad) fun _ =>
          behind (Reader.u64 bad) fun _ => vecCounts bad layout.node (Wire.node codec) fun _ => ∅)
      (trustBase sdk codec layout) (Wire.trustBase sdk codec) := by
  refine PanicsAt.after rfl fun version => PanicsAt.after rfl fun id => PanicsAt.after rfl fun network =>
    PanicsAt.after rfl fun epoch => PanicsAt.after rfl fun round =>
      (PanicsAt.vec layout.node (PanicsAt.of_eq rfl)).before fun nodes => bind_eq rfl fun quorum => ?_
  dsimp only
  split
  · rfl
  · rfl

theorem bridgeBurn_panics :
    PanicsAt ISIZE_MAX (burnCounts codec layout) (bridgeBurn sdk codec layout)
      (Wire.bridgeBurn sdk codec) := by
  simp only [burnCounts, beforeNodes, behind_bind, behind_pure]
  exact PanicsAt.after rfl fun tokenBytes => PanicsAt.after rfl fun token =>
    trustBase_panics.before fun trustBase => bind_eq verification_eq fun verification =>
      bind_eq rfl fun tag => rfl

theorem header_eq_ok {input rest : Bytes} {u : Unit} : header input = .ok (u, rest) ↔
    ∃ start, Reader.u32 bad input = .ok (Wire.WIRE_VERSION, start) ∧
      ∃ config middle, Wire.config start = .ok (config, middle) ∧
        ∃ values, Wire.publicValues middle = .ok (values, rest) := by
  rw [header, Reader.run_bind]
  constructor
  · rintro ⟨version, start, hversion, hnext⟩
    split at hnext
    · next hv =>
      subst hv
      simp only [Reader.run_bind, Reader.run_pure] at hnext
      obtain ⟨config, middle, hconfig, values, _, hvalues, -, rfl⟩ := hnext
      exact ⟨start, hversion, config, middle, hconfig, values, hvalues⟩
    · cases hnext
  · rintro ⟨start, hversion, config, middle, hconfig, values, hvalues⟩
    refine ⟨Wire.WIRE_VERSION, start, hversion, ?_⟩
    rw [if_pos rfl]
    simp only [Reader.run_bind, Reader.run_pure]
    exact ⟨config, middle, hconfig, values, rest, hvalues, trivial, rfl⟩

/-- **Decoding panics** exactly where it comes to a count whose elements do not fit the address
space. -/
theorem decodeGuestInput_panics (input : Bytes) :
    PanicsIff (Oversized ISIZE_MAX (decodeCounts sdk codec layout) input)
      (decodeGuestInput sdk codec layout input) (Wire.decodeGuestInput sdk codec input) := by
  refine (PanicsIff.after rfl fun version _ => PanicsIff.after rfl fun _ _ =>
    PanicsIff.after rfl fun config _ => PanicsIff.after rfl fun values _ =>
      (PanicsAt.vec RETURN_LEAF_SIZE (PanicsAt.of_eq rfl) values.2).bind fun leaves _ _ =>
        (PanicsAt.vec LOCK_REF_SIZE (PanicsAt.of_eq rfl) leaves.2).bind fun refs _ _ =>
          (PanicsAt.vec WITNESS_SIZE accumulatorWitness_panics refs.2).bind fun witnesses _ _ =>
            (PanicsAt.vec layout.burn bridgeBurn_panics witnesses.2).before fun burns _ _ =>
              bind_eq rfl fun _ _ => ?_).congr ?_
  · split
    · rfl
    · rfl
  rw [decodeCounts, oversized_behind]
  simp only [leavesCounts, lockRefsCounts, witnessesCounts, burnsCounts, oversized_andThen]
  constructor
  · rintro ⟨⟨_, start⟩, hversion, _, hv, ⟨config, middle⟩, hconfig, ⟨values, rest⟩, hvalues, hover⟩
    obtain rfl := ensure_eq_ok.1 hv
    exact ⟨((), rest), header_eq_ok.2 ⟨start, hversion, config, middle, hconfig, values, hvalues⟩, hover⟩
  · rintro ⟨⟨_, rest⟩, hheader, hover⟩
    obtain ⟨start, hversion, config, middle, hconfig, values, hvalues⟩ := header_eq_ok.1 hheader
    exact ⟨(_, start), hversion, (), ensure_eq_ok.2 rfl, (config, middle), hconfig, (values, rest), hvalues,
      hover⟩

/-- The leaves of an input that was decoded without a panic were reserved. -/
theorem leaves_fit {input : Bytes} {guestInput : GuestInput}
    (hfits : ¬ Oversized ISIZE_MAX (decodeCounts sdk codec layout) input)
    (h : Wire.decodeGuestInput sdk codec input = .ok guestInput) :
    guestInput.returnLeaves.length * RETURN_LEAF_SIZE ≤ ISIZE_MAX := by
  simp only [Wire.decodeGuestInput, Lib.bind_eq_ok, Prod.exists, ensure_eq_ok] at h
  obtain ⟨version, start, hversion, _, hsame, config, middle, hconfig, values, rest, hvalues, leaves, _,
    hleaves, _, _, _, _, _, _, _, _, _, _, _, h⟩ := h
  subst hsame
  split at h
  · cases h
    rw [Reader.vec, Reader.run_bind] at hleaves
    obtain ⟨len, first, hlen, hmany⟩ := hleaves
    rw [(Reader.many_eq_ok hmany).1]
    refine Nat.not_lt.1 fun hover => hfits ⟨⟨len.toNat, RETURN_LEAF_SIZE⟩, ?_, hover⟩
    exact ⟨(), rest, header_eq_ok.2 ⟨start, hversion, config, middle, hconfig, values, hvalues⟩,
      .inl ⟨len, first, hlen, .inl rfl⟩⟩
  · cases h

/-! ## Checking a wire input -/

variable (sdk codec layout)

/-- Decoding and, on what it accepts, the relation. -/
def checkWire (input : Bytes) : Checked BridgeCoreError PublicValues := do
  let guestInput ← decodeGuestInput sdk codec layout input
  CheckedGuest.execute sdk guestInput

/-- The input that was decoded has an accumulator witness that overruns. -/
def Overrunning (input : Bytes) : Prop :=
  ∃ guestInput, Wire.decodeGuestInput sdk codec input = .ok guestInput ∧
    CheckedGuest.Overrunning sdk guestInput

/-- **Checking panics** on a count that does not fit and on a witness that overruns, and otherwise ends
as the plain decoder and relation do. -/
theorem checkWire_panics (hsdk : ExactArrays sdk) (input : Bytes) :
    PanicsIff (Oversized ISIZE_MAX (decodeCounts sdk codec layout) input ∨ Overrunning sdk codec input)
      (checkWire sdk codec layout input)
      (Wire.decodeGuestInput sdk codec input >>= Guest.execute sdk) :=
  (decodeGuestInput_panics input).bind fun guestInput hfits hdecode =>
    CheckedGuest.execute_panics sdk hsdk guestInput (leaves_fit hfits hdecode)

/-- **Checking a wire input returns**, unless it declares a count that does not fit the address space or
has an accumulator witness that overruns. -/
theorem checking_returns (hsdk : ExactArrays sdk) (input : Bytes) :
    (checkWire sdk codec layout input).Returns ↔
      ¬ Oversized ISIZE_MAX (decodeCounts sdk codec layout) input ∧ ¬ Overrunning sdk codec input := by
  rw [(checkWire_panics sdk codec layout hsdk input).returns_iff, not_or]

end Checking

/-! ## Two inputs on which it does not -/

namespace Sample

open Guest.Sample (sdk)
open Wire.Sample (codec input input_accepted inputFits wire)

theorem splitItems_length {count : Nat} {slice : Bytes} {items : List Bytes}
    (h : Guest.Sample.splitItems count slice = some items) : items.length = count := by
  induction count generalizing slice items with
  | zero =>
      rw [Guest.Sample.splitItems] at h
      split at h
      · cases h
        rfl
      · cases h
  | succ count ih =>
      simp only [Guest.Sample.splitItems, Option.bind_eq_bind, Option.bind_eq_some_iff] at h
      obtain ⟨after, -, rest, hrest, hitems⟩ := h
      cases hitems
      rw [List.length_cons, ih hrest]

theorem exactArrays : ExactArrays sdk := by
  intro slice count items h
  obtain ⟨⟨major, argument, rest⟩, -, hsplit⟩ := Option.bind_eq_some_iff.1 h
  dsimp only at hsplit
  split at hsplit
  · exact splitItems_length hsplit
  · cases hsplit

/-- Elements of one byte in memory. -/
def layout : Layout := ⟨1, 1⟩

/-- A header and a count of leaves that do not follow: 2^32 - 1 leaves have more than 2^31 bytes. -/
def manyLeaves : Bytes :=
  Reader.putU32 Wire.WIRE_VERSION ++ (Wire.putConfig (input .whole).config ++
    (Wire.putPublicValues (input .whole).publicValues ++ Reader.putU32 0xffffffff))

theorem manyLeaves_oversized :
    Oversized ISIZE_MAX (decodeCounts sdk codec layout) manyLeaves := by
  refine ⟨⟨(0xffffffff : UInt32).toNat, RETURN_LEAF_SIZE⟩, ?_, by
    show ISIZE_MAX < _
    decide⟩
  refine ⟨(), Reader.putU32 0xffffffff, header_eq_ok.2 ⟨_, Reader.reads_u32 bad _ _, _, _,
    Wire.reads_config _ _, _, Wire.reads_publicValues _ _⟩, .inl ⟨0xffffffff, [], ?_, .inl rfl⟩⟩
  have hread := Reader.reads_u32 bad 0xffffffff []
  rwa [List.append_nil] at hread

/-- Two steps at depth 0. -/
def zeroSteps : NonMembershipWitness :=
  ⟨.empty, [⟨0, List.Vector.replicate 32 0⟩, ⟨0, List.Vector.replicate 32 0⟩]⟩

theorem zeroSteps_overruns : CheckedCore.Overruns zeroSteps where
  terminal := rfl
  length := by decide
  steps := by
    refine ⟨⟨0, List.Vector.replicate 32 0⟩, rfl, by decide, fun j hj step hstep => ?_⟩
    obtain rfl : j = 0 := by
      change 0 + j ≤ 0 at hj
      omega
    cases hstep
    rfl

/-- A burn's input with a witness of two steps at depth 0. -/
def overrun : GuestInput := { input .whole with witness := ⟨[zeroSteps], []⟩ }

theorem overrun_fits : Wire.InputFits sdk codec overrun where
  lockRefs := (inputFits .whole).lockRefs
  witnesses := by decide
  steps := by
    intro witness hwitness
    obtain rfl := List.mem_singleton.1 hwitness
    decide
  burns := by decide
  burn := fun _ h => absurd h List.not_mem_nil

theorem overrun_overruns : CheckedGuest.Overrunning sdk overrun := by
  obtain ⟨_, hvalues, -⟩ := Lib.bind_eq_ok.1 (@input_accepted .whole (by decide))
  exact ⟨hvalues, rfl, [], _, [], _, rfl, rfl, zeroSteps_overruns⟩

/-- The bytes of the overrunning input. -/
def overrunWire : Bytes := (Wire.encodeGuestInput codec overrun).getD []

theorem overrunWire_overruns : Overrunning sdk codec overrunWire := by
  obtain ⟨bytes, hencode, hdecode⟩ := Wire.decode_encode overrun_fits
  have hwire : overrunWire = bytes := by
    rw [overrunWire, hencode]
    rfl
  exact ⟨overrun, hwire ▸ hdecode, overrun_overruns⟩

end Sample

/-- The bytes of a sample burn are checked without a panic, as their counts fit and their witness does
not overrun. -/
theorem checking_returns_sample :
    (checkWire Guest.Sample.sdk Wire.Sample.codec Sample.layout (Wire.Sample.wire .whole)).Returns ↔
      ¬ Oversized ISIZE_MAX (decodeCounts Guest.Sample.sdk Wire.Sample.codec Sample.layout)
          (Wire.Sample.wire .whole) ∧
        ¬ Overrunning Guest.Sample.sdk Wire.Sample.codec (Wire.Sample.wire .whole) :=
  checking_returns _ _ _ Sample.exactArrays _

/-- Decoding panics on a count of leaves that do not follow, and the relation on a witness of two steps
at depth 0. -/
theorem checking_returns_counterexample :
    ¬ (checkWire Guest.Sample.sdk Wire.Sample.codec Sample.layout Sample.manyLeaves).Returns ∧
      ¬ (checkWire Guest.Sample.sdk Wire.Sample.codec Sample.layout Sample.overrunWire).Returns := by
  have hchecks := checkWire_panics _ Wire.Sample.codec Sample.layout Sample.exactArrays
  exact ⟨fun h => (hchecks _).returns_iff.1 h (.inl Sample.manyLeaves_oversized),
    fun h => (hchecks _).returns_iff.1 h (.inr Sample.overrunWire_overruns)⟩

end UnicityBridge.CheckedWire
