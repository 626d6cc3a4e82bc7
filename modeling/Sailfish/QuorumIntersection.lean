-- The laws of accepted certificates: the voters of a certificate are a quorum, two
-- accepted certificates share the voters of a validity set, and the only certificates
-- without voters are the genesis ones and those that look like one.
import Mathlib
import Sailfish.Messages

open Std sailfish.crypto sailfish.config

namespace sailfish.primary

section

variable [Crypto]

/-- The authority is a voter of the certificate, with a valid signature on its digest. -/
def Certificate.SignedBy (c : Certificate) (a : PublicKey) : Prop :=
  ∃ sig, (a, sig) ∈ c.votes ∧ sig.verify c.digest a = true

/-- A certificate with a header that passes its checks and the valid votes of a quorum. -/
structure Certificate.Endorsed (committee : Committee) (c : Certificate) : Prop where
  header : c.header.verify committee = .ok ()
  distinct : (voters c.votes).Nodup
  members : ∀ name ∈ voters c.votes, name ∈ committee.authorities
  quorum : committee.quorum_threshold ≤ committee.weight {a | a ∈ voters c.votes}
  signed : ∀ x ∈ c.votes, x.2.verify c.digest x.1 = true

/-- An accepted certificate that is not equal to a genesis certificate is endorsed. -/
theorem Certificate.endorsed_of_verify (hb : BatchSound) {committee : Committee} {c : Certificate}
    (h : c.verify committee = .ok ()) (hg : (Certificate.genesis committee).any c.eq = false) :
    c.Endorsed committee := by
  obtain ⟨hheader, hquorum, hbatch⟩ := Certificate.verify_ok h hg
  obtain ⟨hnodup, hstake, hweight⟩ := check_quorum_ok hquorum
  refine ⟨hheader, hnodup, ?_, hweight, ?_⟩
  · intro name hname
    by_contra hn
    have hpos := hstake name hname
    rw [Committee.stake_of_not_mem hn] at hpos
    exact absurd hpos (Nat.lt_irrefl 0)
  · exact fun x hx => Signature.verify_of_verify_batch hb hbatch hx

/-- Every voter of an accepted certificate signed its digest, and the voters are a quorum. -/
theorem Certificate.quorum_signed (hb : BatchSound) {committee : Committee} {c : Certificate}
    (h : c.verify committee = .ok ()) (hg : (Certificate.genesis committee).any c.eq = false) :
    committee.quorum_threshold ≤ committee.weight {a | c.SignedBy a} := by
  have hendorsed := Certificate.endorsed_of_verify hb h hg
  apply Nat.le_trans hendorsed.quorum
  apply Committee.weight_mono
  intro a ha
  obtain ⟨sig, hm⟩ := mem_voters.mp ha
  exact ⟨sig, hm, hendorsed.signed _ hm⟩

/-- Two accepted certificates that are not genesis certificates share voters of total stake at
least the validity threshold, so any set below that threshold misses one of them. It holds for
any two certificates, so for two of one round and one origin with different headers. -/
theorem accepted_certificates_share_a_validity_set (hb : BatchSound) (committee : Committee)
    (hf : committee.Fits) (c c' : Certificate)
    (hv : c.verify committee = .ok ()) (hv' : c'.verify committee = .ok ())
    (hg : (Certificate.genesis committee).any c.eq = false)
    (hg' : (Certificate.genesis committee).any c'.eq = false) :
    committee.validity_threshold ≤ committee.weight {a | c.SignedBy a ∧ c'.SignedBy a} ∧
      ∀ X : Set PublicKey, committee.weight X < committee.validity_threshold →
        ∃ a ∈ committee.authorities, a ∉ X ∧ c.SignedBy a ∧ c'.SignedBy a := by
  have hinter : committee.validity_threshold ≤
      committee.weight ({a | c.SignedBy a} ∩ {a | c'.SignedBy a}) :=
    Committee.validity_le_weight_inter hf (Certificate.quorum_signed hb hv hg)
      (Certificate.quorum_signed hb hv' hg')
  refine ⟨hinter, ?_⟩
  intro X hX
  obtain ⟨a, hm, ⟨h1, h2⟩, hn⟩ :=
    Committee.exists_notMem_of_weight_lt (Nat.lt_of_lt_of_le hX hinter)
  exact ⟨a, hm, hn, h1, h2⟩

/-! ## Certificates that look like genesis -/

/-- Equal to a genesis certificate for `PartialEq`, which compares the id of the header, the round
and the origin only, but not that certificate. -/
def Certificate.LooksLikeGenesis (committee : Committee) (c : Certificate) : Prop :=
  (Certificate.genesis committee).any c.eq = true ∧ c ∉ Certificate.genesis committee

/-- The certificates that look like genesis are accepted with whatever they hold. -/
theorem Certificate.verify_of_looksLikeGenesis {committee : Committee} {c : Certificate}
    (h : c.LooksLikeGenesis committee) : c.verify committee = .ok () := by
  unfold Certificate.verify
  rw [if_pos h.1]

/-- The header of a certificate that looks like genesis has the default id, which its digest has
to be for the header to pass. -/
theorem Certificate.not_endorsed_of_looksLikeGenesis {committee : Committee} {c : Certificate}
    (h : c.LooksLikeGenesis committee) (hid : c.header.digest ≠ Header.default.id) :
    ¬ c.Endorsed committee := by
  intro hendorsed
  obtain ⟨g, hg, heq⟩ := List.any_eq_true.mp h.1
  obtain ⟨name, -, rfl⟩ := Certificate.mem_genesis.mp hg
  have hdefault : c.header.id = Header.default.id := (Certificate.eq_iff.mp heq).1
  have hheader := hendorsed.header
  unfold Header.verify at hheader
  have hne : (c.header.digest == c.header.id) = false := by
    rw [hdefault, beq_eq_false_iff_ne]
    exact hid
  simp [hne, ensure, bind, Except.bind] at hheader

/-- Every certificate that does not look like genesis is a genesis certificate or an endorsed one
when it is accepted. No other certificate is, as long as its header does not hash to zero. -/
theorem accepted_certificate_is_genesis_or_endorsed (hb : BatchSound) (committee : Committee)
    (c : Certificate) :
    (¬ c.LooksLikeGenesis committee → c.verify committee = .ok () →
      c ∈ Certificate.genesis committee ∨ c.Endorsed committee) ∧
    (c.header.digest ≠ Header.default.id →
      (c.verify committee = .ok () →
        c ∈ Certificate.genesis committee ∨ c.Endorsed committee) →
      ¬ c.LooksLikeGenesis committee) := by
  constructor
  · intro hlook h
    cases hg : (Certificate.genesis committee).any c.eq with
    | true => exact Or.inl (not_not.mp fun hn => hlook ⟨hg, hn⟩)
    | false => exact Or.inr (Certificate.endorsed_of_verify hb h hg)
  · intro hid h hlook
    rcases h (Certificate.verify_of_looksLikeGenesis hlook) with hm | hendorsed
    · exact hlook.2 hm
    · exact Certificate.not_endorsed_of_looksLikeGenesis hlook hid hendorsed

end

section

attribute [local instance] crypto.sample

/-- A certificate for a header of authority 1 in round 1, with one parent. -/
def conflicting (parent : Digest) (names : List PublicKey) : Certificate :=
  let parents := ExtTreeSet.ofList [parent]
  let header := { Header.default with author := 1, round := 1, parents }
  header.signed.certified names

/-- Two certificates of authority 1 for round 1, with different headers. -/
theorem accepted_certificates_share_a_validity_set_four :
    let c := conflicting 7 [1, 2, 3]
    let c' := conflicting 8 [2, 3, 4]
    c.header.id ≠ c'.header.id ∧
      Committee.four.validity_threshold ≤ Committee.four.weight {a | c.SignedBy a ∧ c'.SignedBy a} ∧
      ∀ X : Set PublicKey, Committee.four.weight X < Committee.four.validity_threshold →
        ∃ a ∈ Committee.four.authorities, a ∉ X ∧ c.SignedBy a ∧ c'.SignedBy a :=
  ⟨by decide +kernel, accepted_certificates_share_a_validity_set sample_batchSound .four
    (by decide +kernel) _ _ (by decide +kernel) (by decide +kernel) (by decide +kernel)
    (by decide +kernel)⟩

theorem accepted_certificate_is_genesis_or_endorsed_four :
    (conflicting 7 [1, 2, 3]).verify .four = .ok () ∧
      (conflicting 7 [1, 2, 3]).Endorsed .four ∧
      ¬ (conflicting 7 [1, 2, 3]).LooksLikeGenesis .four := by
  obtain ⟨hsound, hexact⟩ := accepted_certificate_is_genesis_or_endorsed sample_batchSound .four
    (conflicting 7 [1, 2, 3])
  have hlook : ¬ (conflicting 7 [1, 2, 3]).LooksLikeGenesis .four :=
    hexact (by decide +kernel) fun h => Or.inr
      (Certificate.endorsed_of_verify sample_batchSound h (by decide +kernel))
  have hverify : (conflicting 7 [1, 2, 3]).verify .four = .ok () := by decide +kernel
  exact ⟨hverify, (hsound hlook hverify).resolve_left (by decide +kernel), hlook⟩

/-- The genesis certificate of authority 1, with a batch in its header. -/
def genesis_with_payload : Certificate :=
  let payload := ExtTreeMap.ofList [((7 : Digest), 0)]
  { header := { Header.default with author := 1, payload }, votes := [] }

theorem genesis_with_payload_is_accepted :
    genesis_with_payload.verify .four = .ok () ∧
      ¬ (genesis_with_payload ∈ Certificate.genesis .four ∨ genesis_with_payload.Endorsed .four) := by
  refine ⟨by decide +kernel, ?_⟩
  rintro (hm | hendorsed)
  · exact absurd hm (by decide +kernel)
  · have hquorum := hendorsed.quorum
    have hempty : {a | a ∈ voters genesis_with_payload.votes} = (∅ : Set PublicKey) :=
      Set.eq_empty_of_forall_notMem fun _ ha => nomatch ha
    rw [hempty, Committee.weight_empty] at hquorum
    exact absurd hquorum (by decide +kernel)

end

end sailfish.primary
