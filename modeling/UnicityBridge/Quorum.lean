import UnicityBridge.GuestBatch
import Mathlib.Data.Set.Card

/-!
# Quorum counting

`verify_unicity_certificate` of `prover/crates/sdk-ext/src/verify.rs` walks over the signature entries
of a seal once, with the node ids and the keys it has counted so far. What it counts is a set: the
trusted keys that signed the seal hash under one of their node ids. The order of the entries, entries
that are listed twice and entries that do not verify are without effect on it.
-/

set_option autoImplicit false

namespace UnicityBridge.Verify

open UnicityBridge.Lib UnicityBridge.TokenSdk

section Tally

variable (sdk : Sdk) (trustBase : RootTrustBase) (sealHash : DataHash)

/-- A signature of the seal hash by the trusted key of the entry's node. -/
def SignedBy (entry : String × Bytes) (key : PublicKey) : Prop :=
  sdk.signingKey trustBase entry.1 = some key ∧
    ∃ signature, sdk.decodeSignature entry.2 = some signature ∧
      sdk.verifySignature signature sealHash.data key = true

/-- The trusted keys with a valid signature under one of their node ids. -/
def signers (entries : List (String × Bytes)) : Set PublicKey :=
  {key | ∃ entry ∈ entries, SignedBy sdk trustBase sealHash entry key}

/-- The node ids and keys counted, where the keys are those of a set: one node id for each key, and
no node id whose key is not counted. -/
structure Tally (counted : List String × List PublicKey) (keys : Set PublicKey) : Prop where
  sized : counted.1.length = counted.2.length
  distinct : counted.2.Nodup
  mem_iff : ∀ key, key ∈ counted.2 ↔ key ∈ keys
  counted_key : ∀ nodeId ∈ counted.1, ∃ key ∈ counted.2, sdk.signingKey trustBase nodeId = some key

variable {sdk trustBase sealHash}

theorem SignedBy.unique {entry : String × Bytes} {key key' : PublicKey}
    (h : SignedBy sdk trustBase sealHash entry key)
    (h' : SignedBy sdk trustBase sealHash entry key') : key = key' :=
  Option.some.inj (h.1.symm.trans h'.1)

theorem mem_signers_append {entries : List (String × Bytes)} {entry : String × Bytes}
    {key : PublicKey} : key ∈ signers sdk trustBase sealHash (entries ++ [entry]) ↔
      key ∈ signers sdk trustBase sealHash entries ∨ SignedBy sdk trustBase sealHash entry key := by
  simp only [signers, Set.mem_ofPred_eq, List.mem_append, List.mem_singleton]
  constructor
  · rintro ⟨e, he | rfl, hsigned⟩
    · exact Or.inl ⟨e, he, hsigned⟩
    · exact Or.inr hsigned
  · rintro (⟨e, he, hsigned⟩ | hsigned)
    · exact ⟨e, Or.inl he, hsigned⟩
    · exact ⟨entry, Or.inr rfl, hsigned⟩

theorem signers_mono {entries entries' : List (String × Bytes)}
    (h : ∀ entry ∈ entries, entry ∈ entries') :
    signers sdk trustBase sealHash entries ⊆ signers sdk trustBase sealHash entries' := by
  rintro key ⟨entry, hentry, hsigned⟩
  exact ⟨entry, h entry hentry, hsigned⟩

/-- An entry that adds no key leaves what is counted as it is. -/
theorem Tally.skip {counted : List String × List PublicKey} {entries : List (String × Bytes)}
    {entry : String × Bytes} (h : Tally sdk trustBase counted (signers sdk trustBase sealHash entries))
    (hold : ∀ key, SignedBy sdk trustBase sealHash entry key → key ∈ counted.2) :
    Tally sdk trustBase counted (signers sdk trustBase sealHash (entries ++ [entry])) := by
  refine ⟨h.sized, h.distinct, fun key => ?_, h.counted_key⟩
  rw [mem_signers_append, h.mem_iff]
  constructor
  · exact Or.inl
  · rintro (hkey | hsigned)
    · exact hkey
    · exact (h.mem_iff key).1 (hold key hsigned)

/-- An entry with a key that has not been counted adds its node id and its key. -/
theorem Tally.add {counted : List String × List PublicKey} {entries : List (String × Bytes)}
    {entry : String × Bytes} {key : PublicKey}
    (h : Tally sdk trustBase counted (signers sdk trustBase sealHash entries))
    (hsigned : SignedBy sdk trustBase sealHash entry key) (hnew : key ∉ counted.2) :
    Tally sdk trustBase (entry.1 :: counted.1, key :: counted.2)
      (signers sdk trustBase sealHash (entries ++ [entry])) where
  sized := by simp [h.sized]
  distinct := List.nodup_cons.2 ⟨hnew, h.distinct⟩
  mem_iff other := by
    rw [mem_signers_append, List.mem_cons, h.mem_iff]
    constructor
    · rintro (rfl | hother)
      · exact Or.inr hsigned
      · exact Or.inl hother
    · rintro (hother | hother)
      · exact Or.inr hother
      · exact Or.inl (hother.unique hsigned)
  counted_key nodeId hnode := by
    rcases List.mem_cons.1 hnode with rfl | hnode
    · exact ⟨key, List.mem_cons_self, hsigned.1⟩
    · obtain ⟨other, hother, hnamed⟩ := h.counted_key nodeId hnode
      exact ⟨other, List.mem_cons_of_mem _ hother, hnamed⟩

/-- **One entry**: an invalid one consumes neither its node nor its key. -/
theorem Tally.step {counted : List String × List PublicKey} {entries : List (String × Bytes)}
    (h : Tally sdk trustBase counted (signers sdk trustBase sealHash entries))
    (entry : String × Bytes) :
    Tally sdk trustBase (countSignature sdk trustBase sealHash counted entry)
      (signers sdk trustBase sealHash (entries ++ [entry])) := by
  unfold countSignature
  split
  · rename_i hcounted
    -- the node has been counted, so its only key has been too
    apply h.skip
    intro key hsigned
    obtain ⟨other, hother, hnamed⟩ := h.counted_key entry.1 hcounted
    exact Option.some.inj (hnamed.symm.trans hsigned.1) ▸ hother
  split
  · rename_i hunknown
    apply h.skip
    intro key hsigned
    exact absurd (hunknown.symm.trans hsigned.1) (by simp)
  rename_i key hkey
  split
  · rename_i hcounted
    -- the key has been counted under another of its nodes
    apply h.skip
    intro other hsigned
    exact Option.some.inj (hkey.symm.trans hsigned.1) ▸ hcounted
  rename_i hnew
  split
  · rename_i hundecodable
    apply h.skip
    rintro other ⟨-, signature, hdecoded, -⟩
    exact absurd (hundecodable.symm.trans hdecoded) (by simp)
  rename_i signature hdecoded
  split
  · rename_i hvalid
    exact h.add ⟨hkey, signature, hdecoded, hvalid⟩ hnew
  · rename_i hinvalid
    apply h.skip
    rintro other ⟨hother, signature', hdecoded', hvalid⟩
    obtain rfl := Option.some.inj (hdecoded.symm.trans hdecoded')
    obtain rfl := Option.some.inj (hkey.symm.trans hother)
    exact absurd hvalid hinvalid

/-- **All entries**: the keys counted are the signers. -/
theorem tally (entries : List (String × Bytes)) :
    Tally sdk trustBase (entries.foldl (countSignature sdk trustBase sealHash) ([], []))
      (signers sdk trustBase sealHash entries) := by
  induction entries using List.reverseRecOn with
  | nil =>
    constructor
    · rfl
    · exact List.nodup_nil
    · simp [signers]
    · simp
  | append_singleton entries entry ih =>
    rw [List.foldl_append]
    exact ih.step entry

theorem Tally.ncard {counted : List String × List PublicKey} {keys : Set PublicKey}
    (h : Tally sdk trustBase counted keys) : keys.ncard = counted.1.length := by
  have hkeys : keys = (counted.2.toFinset : Set PublicKey) := by
    ext key
    simp [h.mem_iff]
  rw [hkeys, Set.ncard_coe_finset, List.toFinset_card_of_nodup h.distinct, h.sized]

theorem signers_finite (entries : List (String × Bytes)) :
    (signers sdk trustBase sealHash entries).Finite := by
  refine (List.finite_toSet (entries.foldl (countSignature sdk trustBase sealHash) ([], [])).2).subset
    fun key hkey => ?_
  exact ((tally entries).mem_iff key).2 hkey

end Tally

section Quorum

variable {sdk : Sdk}

/-- The certificate with other signature entries on its seal. -/
def withSignatures (certificate : UnicityCertificate) (entries : List (String × Bytes)) :
    UnicityCertificate :=
  { certificate with unicitySeal := { certificate.unicitySeal with signatures := entries } }

/-- The seal of a certificate is for the network, and for the certificate's own data. -/
def SealMatches (sdk : Sdk) (trustBase : RootTrustBase) (certificate : UnicityCertificate) : Prop :=
  certificate.unicitySeal.networkId = trustBase.networkId ∧
    ∃ computed, sdk.computedSealHash certificate = some computed ∧
      computed.data = certificate.unicitySeal.hash

/-- The seal's hashes do not cover its signatures. -/
structure SealUnsigned (sdk : Sdk) : Prop where
  sealHash : ∀ (unicitySeal : UnicitySeal) (entries : List (String × Bytes)),
    sdk.sealHash { unicitySeal with signatures := entries } = sdk.sealHash unicitySeal
  computed : ∀ (certificate : UnicityCertificate) (entries : List (String × Bytes)),
    sdk.computedSealHash (withSignatures certificate entries) = sdk.computedSealHash certificate

/-- The keys that count towards a certificate's quorum. -/
def quorum (sdk : Sdk) (trustBase : RootTrustBase) (certificate : UnicityCertificate) :
    Set PublicKey :=
  signers sdk trustBase (sdk.sealHash certificate.unicitySeal) certificate.unicitySeal.signatures

theorem verifyUnicityCertificate_of_matches {trustBase : RootTrustBase}
    {certificate : UnicityCertificate} (h : SealMatches sdk trustBase certificate) :
    verifyUnicityCertificate sdk trustBase certificate = (do
      ensure (trustBase.quorumThreshold.toNat ≤ (quorum sdk trustBase certificate).ncard)
        .quorumNotMet
      okOr (toByteArr 32 certificate.inputRecordHash) .pathInvalid) := by
  obtain ⟨hnetwork, computed, hcomputed, hhash⟩ := h
  have hcount : (quorum sdk trustBase certificate).ncard = _ :=
    (tally certificate.unicitySeal.signatures).ncard
  simp only [verifyUnicityCertificate, hcomputed, hcount]
  rw [ensure, if_pos hnetwork, okOr]
  simp only [Except.bind, bind, hhash, ensure, if_true]

theorem sealMatches_withSignatures (hseal : SealUnsigned sdk) {trustBase : RootTrustBase}
    {certificate : UnicityCertificate} (entries : List (String × Bytes)) :
    SealMatches sdk trustBase (withSignatures certificate entries) ↔
      SealMatches sdk trustBase certificate := by
  unfold SealMatches
  rw [hseal.computed]
  rfl

theorem quorum_withSignatures (hseal : SealUnsigned sdk) {trustBase : RootTrustBase}
    {certificate : UnicityCertificate} (entries : List (String × Bytes)) :
    quorum sdk trustBase (withSignatures certificate entries) =
      signers sdk trustBase (sdk.sealHash certificate.unicitySeal) entries :=
  congrArg (fun hash => signers sdk trustBase hash entries)
    (hseal.sealHash certificate.unicitySeal entries)

/-- **Quorum counting**: with a matching seal, the quorum is met if and only if enough distinct
trusted keys have signed the seal hash under one of their node ids. The order of the entries is
without effect, and more entries never turn acceptance into rejection. -/
theorem quorum_counting (hseal : SealUnsigned sdk) (trustBase : RootTrustBase)
    (certificate : UnicityCertificate) (hmatches : SealMatches sdk trustBase certificate) :
    (verifyUnicityCertificate sdk trustBase certificate ≠ .error .quorumNotMet ↔
      trustBase.quorumThreshold.toNat ≤ (quorum sdk trustBase certificate).ncard) ∧
    (∀ entries, entries.Perm certificate.unicitySeal.signatures →
      verifyUnicityCertificate sdk trustBase (withSignatures certificate entries) =
        verifyUnicityCertificate sdk trustBase certificate) ∧
    ∀ entries root, (∀ entry ∈ certificate.unicitySeal.signatures, entry ∈ entries) →
      verifyUnicityCertificate sdk trustBase certificate = .ok root →
      verifyUnicityCertificate sdk trustBase (withSignatures certificate entries) = .ok root := by
  have hverify := verifyUnicityCertificate_of_matches hmatches
  have hother : ∀ entries,
      verifyUnicityCertificate sdk trustBase (withSignatures certificate entries) = (do
        ensure (trustBase.quorumThreshold.toNat ≤ (signers sdk trustBase
          (sdk.sealHash certificate.unicitySeal) entries).ncard) .quorumNotMet
        okOr (toByteArr 32 certificate.inputRecordHash) .pathInvalid) := by
    intro entries
    rw [verifyUnicityCertificate_of_matches ((sealMatches_withSignatures hseal entries).2 hmatches),
      quorum_withSignatures hseal]
    rfl
  refine ⟨?_, fun entries hperm => ?_, fun entries root hmore haccepted => ?_⟩
  · rw [hverify]
    by_cases henough : trustBase.quorumThreshold.toNat ≤ (quorum sdk trustBase certificate).ncard
    · -- past the count only the length of the root hash is left to fail
      simp only [henough, iff_true]
      cases h : toByteArr 32 certificate.inputRecordHash <;> simp [ensure, okOr, bind, Except.bind]
    · simp [henough, ensure, bind, Except.bind]
  · have hsame : signers sdk trustBase (sdk.sealHash certificate.unicitySeal) entries =
        quorum sdk trustBase certificate :=
      Set.Subset.antisymm (signers_mono fun _ => hperm.mem_iff.1)
        (signers_mono fun _ => hperm.mem_iff.2)
    rw [hother, hverify, hsame]
  · simp only [hverify, bind_eq_ok, ensure_eq_ok] at haccepted
    obtain ⟨-, henough, hroot⟩ := haccepted
    simp only [hother, bind_eq_ok, ensure_eq_ok]
    exact ⟨(), henough.trans (Set.ncard_le_ncard (signers_mono hmore) (signers_finite entries)),
      hroot⟩

/-- One node's signature listed twice is one signer, which is enough for a threshold of one. -/
theorem quorum_counting_sample :
    verifyUnicityCertificate Guest.Sample.sdk Guest.Sample.trustBase
      (withSignatures Guest.Sample.certificate [("NODE", [7]), ("NODE", [7])]) ≠
        .error .quorumNotMet := by
  have h := @quorum_counting Guest.Sample.sdk ⟨fun _ _ => rfl, fun _ _ => rfl⟩
    Guest.Sample.trustBase (withSignatures Guest.Sample.certificate [("NODE", [7]), ("NODE", [7])])
    ⟨rfl, _, rfl, rfl⟩
  have hone : quorum Guest.Sample.sdk Guest.Sample.trustBase
      (withSignatures Guest.Sample.certificate [("NODE", [7]), ("NODE", [7])]) = {⟨[5]⟩} := by
    ext key
    constructor
    · rintro ⟨entry, hentry, hkey, -⟩
      obtain rfl : entry = ("NODE", [7]) := by simpa [withSignatures] using hentry
      exact (Option.some.inj hkey).symm
    · rintro rfl
      exact ⟨("NODE", [7]), List.mem_cons_self, rfl, [7], rfl, rfl⟩
  rw [h.1, hone, Set.ncard_singleton]
  decide

end Quorum

end UnicityBridge.Verify
