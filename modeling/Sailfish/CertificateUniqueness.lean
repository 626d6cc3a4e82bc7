-- The law of unique certificates: whatever the authorities outside the honest ones and
-- the network do, an author gets certificates for one header of a round only.
import Mathlib
import Sailfish.HeaderDigest
import Sailfish.QuorumIntersection
import Sailfish.System

open Std splits sailfish.crypto sailfish.config

namespace sailfish.primary

/-- What `Certificate::digest` feeds to the hash. -/
def Certificate.bytes (c : Certificate) : List UInt8 :=
  as_ref c.header.id ++ to_le_bytes 8 c.round ++ as_ref c.origin

theorem Certificate.length_bytes (c : Certificate) : c.bytes.length = 72 := by
  simp [Certificate.bytes, length_as_ref, length_to_le_bytes]

/-- The bytes of a vote and of a certificate tell the header, its round and its author. -/
theorem Vote.of_bytes {v : Vote} {c : Certificate} (hv : v.round < 2 ^ 64) (hc : c.round < 2 ^ 64)
    (h : v.bytes = c.bytes) : v.id = c.header.id ∧ v.round = c.round ∧ v.origin = c.origin := by
  unfold Vote.bytes Certificate.bytes at h
  obtain ⟨h, horigin⟩ := List.append_inj' h (by rw [length_as_ref, length_as_ref])
  obtain ⟨hid, hround⟩ := List.append_inj h (by rw [length_as_ref, length_as_ref])
  exact ⟨as_ref_inj hid, to_le_bytes_inj (by omega) (by omega) hround, as_ref_inj horigin⟩

/-- The bytes of a header start with its author, those of a vote and of a certificate with the id of
their header. -/
theorem Header.author_of_bytes {h : Header} {d : Digest} {rest : List UInt8}
    (heq : h.bytes = as_ref d ++ rest) : h.author = d := by
  rw [Header.bytes_eq] at heq
  exact as_ref_inj (List.append_inj heq (by rw [length_as_ref, length_as_ref])).1

/-- Tracked votes for one author and one round are one vote. -/
theorem Core.Tracked.unique {node : Node} {s : Core} (h : Tracked node s) {v v' : Voted}
    (hv : v ∈ s.voted) (hv' : v' ∈ s.voted) (horigin : v.vote.origin = v'.vote.origin)
    (hround : v.vote.round = v'.vote.round) : v = v' := by
  have hsymm : Std.Symm fun a b : Voted =>
      a.vote.origin = b.vote.origin → a.vote.round ≠ b.vote.round :=
    ⟨fun _ _ hab horigin hround => hab horigin.symm hround.symm⟩
  by_contra hne
  exact h.once.forall hv hv' hne horigin hround

namespace System

section

variable [Crypto] {sys : System} {honest : Set PublicKey} {store : PublicKey → Store}
  {events : List (PublicKey × Primary.Event)} {s : PublicKey → Primary} {name : PublicKey}
  {c c' : Certificate}

/-- A certificate that any primary accepts, other than the genesis ones, with a digest that the
honest primaries signed for its bytes only. No honest key is the id of its header. -/
structure Certified (sys : System) (honest : Set PublicKey) (s : PublicKey → Primary)
    (c : Certificate) : Prop where
  accepted : c.verify sys.committee = .ok ()
  not_genesis : (Certificate.genesis sys.committee).any c.eq = false
  round : c.round < 2 ^ 64
  no_collision : ∀ name ∈ honest, ∀ bytes ∈ (s name).signed_bytes name,
    Crypto.sha512 bytes = c.digest → bytes = c.bytes
  not_key : c.header.id ∉ honest

/-- An honest primary has signed the digest of a certificate with a vote for it only. -/
theorem voted_of_signed (hrun : sys.run store events = some s) (hunforged : Unforged honest s)
    (hc : Certified sys honest s c) (hname : name ∈ honest) (hsigned : c.SignedBy name) :
    ∃ v ∈ (s name).core.voted, v.vote.bytes = c.bytes := by
  obtain ⟨sig, -, hverify⟩ := hsigned
  have hdigest := hunforged name c.digest sig hverify hname
  rw [Primary.signed_eq] at hdigest
  obtain ⟨bytes, hbytes, heq⟩ := List.mem_map.mp hdigest
  obtain rfl := hc.no_collision name hname bytes hbytes heq
  have hshort : ∀ round author, round_bytes round author ≠ c.bytes := by
    intro round author heq
    have hlength := congrArg List.length heq
    rw [length_round_bytes, Certificate.length_bytes] at hlength
    omega
  unfold Primary.signed_bytes at hbytes
  simp only [List.mem_append, List.mem_map, or_assoc] at hbytes
  rcases hbytes with ⟨m, hm, heq⟩ | ⟨t, -, heq⟩ | ⟨m, -, heq⟩ | ⟨r, -, heq⟩ | ⟨v, hv, heq⟩
  · obtain ⟨_, _, _, _, _, hmade⟩ := (Primary.makes_of_run (primary_of_run hrun name)).made m hm
    have hauthor : m.header.author = name := by rw [hmade]; rfl
    have hid : c.header.id = name := by
      rw [Certificate.bytes, List.append_assoc] at heq
      exact (Header.author_of_bytes heq).symm.trans hauthor
    exact absurd (hid ▸ hname) hc.not_key
  · exact absurd heq (hshort _ _)
  · exact absurd heq (hshort _ _)
  · exact absurd heq (hshort _ _)
  · exact ⟨v, hv, heq⟩

/-- An honest primary that signed a certificate voted for its header. -/
theorem voter_of_signed (hrun : sys.run store events = some s) (hunforged : Unforged honest s)
    (hfit : ∀ name ∈ honest, ∀ v ∈ (s name).core.voted, v.vote.round < 2 ^ 64)
    (hc : Certified sys honest s c) (hname : name ∈ honest) (hsigned : c.SignedBy name) :
    ∃ v ∈ (s name).core.voted, v.vote.id = c.header.id ∧ v.vote.round = c.round ∧
      v.vote.origin = c.origin := by
  obtain ⟨v, hv, hbytes⟩ := voted_of_signed hrun hunforged hc hname hsigned
  exact ⟨v, hv, Vote.of_bytes (hfit name hname v hv) hc.round hbytes⟩

/-- Two accepted certificates of one author and one round are for the same header: an honest primary
signed both. -/
theorem id_of_certified (hb : BatchSound) (hf : sys.committee.Fits)
    (hweight : sys.committee.weight honestᶜ < sys.committee.validity_threshold)
    (hrun : sys.run store events = some s) (hrecent : sys.Recent honest store events)
    (hunforged : Unforged honest s)
    (hfit : ∀ name ∈ honest, ∀ v ∈ (s name).core.voted, v.vote.round < 2 ^ 64)
    (hc : Certified sys honest s c) (hc' : Certified sys honest s c') (hround : c.round = c'.round)
    (horigin : c.origin = c'.origin) : c.header.id = c'.header.id := by
  have hinter : sys.committee.validity_threshold ≤
      sys.committee.weight ({a | c.SignedBy a} ∩ {a | c'.SignedBy a}) :=
    Committee.validity_le_weight_inter hf (Certificate.quorum_signed hb hc.accepted hc.not_genesis)
      (Certificate.quorum_signed hb hc'.accepted hc'.not_genesis)
  obtain ⟨name, -, ⟨hsigned, hsigned'⟩, hnot⟩ :=
    Committee.exists_notMem_of_weight_lt (Nat.lt_of_lt_of_le hweight hinter)
  have hname : name ∈ honest := not_not.mp hnot
  obtain ⟨v, hv, hvid, hvround, hvorigin⟩ := voter_of_signed hrun hunforged hfit hc hname hsigned
  obtain ⟨v', hv', hvid', hvround', hvorigin'⟩ :=
    voter_of_signed hrun hunforged hfit hc' hname hsigned'
  obtain rfl := (tracked_of_run hrun hrecent hname).unique hv hv'
    (by rw [hvorigin, hvorigin', horigin]) (by rw [hvround, hvround', hround])
  exact hvid.symm.trans hvid'

/-- For every run of the primaries of a committee, in any order of their steps and whatever the
others send: when the authorities that are not honest have less stake than the validity threshold,
and the honest ones process no header of a round that they are past, two accepted certificates of
one author and one round are for headers of one id. The headers agree when their digest tells them
apart and their payloads have one size. -/
theorem certificates_are_unique (hb : BatchSound) (sys : System) (hf : sys.committee.Fits)
    (honest : Set PublicKey)
    (hweight : sys.committee.weight honestᶜ < sys.committee.validity_threshold)
    (store : PublicKey → Store) (events : List (PublicKey × Primary.Event))
    (s : PublicKey → Primary) (hrun : sys.run store events = some s)
    (hrecent : sys.Recent honest store events) (hunforged : Unforged honest s)
    (hfit : ∀ name ∈ honest, ∀ v ∈ (s name).core.voted, v.vote.round < 2 ^ 64)
    (c c' : Certificate) (hc : Certified sys honest s c) (hc' : Certified sys honest s c')
    (hround : c.round = c'.round) (horigin : c.origin = c'.origin) :
    c.header.id = c'.header.id ∧ c.digest = c'.digest ∧
      ((c.header.digest = c'.header.digest → c.header.bytes = c'.header.bytes) →
        c.header.Fits → c'.header.Fits → c.header.payload.size = c'.header.payload.size →
        c.header.Agrees c'.header) := by
  have hid := id_of_certified hb hf hweight hrun hrecent hunforged hfit hc hc' hround horigin
  refine ⟨hid, ?_, ?_⟩
  · unfold Certificate.digest
    rw [hid, hround, horigin]
  · intro hheaders hfits hfits' hsize
    have hok := Header.verify_ok (Certificate.verify_ok hc.accepted hc.not_genesis).1
    have hok' := Header.verify_ok (Certificate.verify_ok hc'.accepted hc'.not_genesis).1
    have hdigest : c.header.digest = c'.header.digest := by rw [hok.1, hok'.1, hid]
    exact Header.agrees_of_bytes hfits hfits' (hheaders hdigest) hsize

end

/-! ## Runs on fixed inputs -/

section

/-- What `Certified` and `Unforgeable` take, for the names of a list. -/
def certified [Crypto] (sys : System) (names : List PublicKey) (s : PublicKey → Primary)
    (c : Certificate) : Bool :=
  (c.verify sys.committee).isOk && !(Certificate.genesis sys.committee).any c.eq &&
    decide (c.round < 2 ^ 64) &&
    (names.all fun name => ((s name).signed_bytes name).all fun bytes =>
      Crypto.sha512 bytes != c.digest || bytes == c.bytes) &&
    !names.contains c.header.id

theorem certified_of_checked [Crypto] {sys : System} {names : List PublicKey}
    {s : PublicKey → Primary} {c : Certificate} (h : certified sys names s c = true) :
    Certified sys {a | a ∈ names} s c := by
  simp only [certified, Bool.and_eq_true, Bool.not_eq_true', decide_eq_true_eq] at h
  obtain ⟨⟨⟨⟨haccepted, hgenesis⟩, hround⟩, hcollision⟩, hkey⟩ := h
  refine ⟨?_, hgenesis, hround, ?_, ?_⟩
  · rcases hverify : c.verify sys.committee with e | ⟨⟩
    · rw [hverify] at haccepted
      cases haccepted
    · rfl
  · intro name hname bytes hbytes heq
    have hbytes' := List.all_eq_true.mp (List.all_eq_true.mp hcollision name hname) bytes hbytes
    rw [heq, bne_self_eq_false, Bool.false_or] at hbytes'
    exact beq_iff_eq.mp hbytes'
  · intro hm
    rw [List.contains_iff_mem.mpr hm] at hkey
    cases hkey

theorem unforged_of_checked {signed : List (PublicKey × Digest)} {names : List PublicKey}
    {s : PublicKey → Primary} (h : (signed.all fun x => !names.contains x.1 ||
      (@Primary.signed (sample_signed signed) x.1 (s x.1)).contains x.2) = true) :
    @Unforged (sample_signed signed) {a | a ∈ names} s := by
  intro key digest sig hverify hkey
  have hone := List.all_eq_true.mp h _ (mem_of_sample_signed hverify)
  simp only [List.contains_iff_mem.mpr hkey, Bool.not_true, Bool.false_or] at hone
  exact List.contains_iff_mem.mp hone

theorem fit_of_checked {names : List PublicKey} {s : PublicKey → Primary}
    (h : (names.all fun name => (s name).core.voted.all fun v => decide (v.vote.round < 2 ^ 64)) =
      true) : ∀ name ∈ {a | a ∈ names}, ∀ v ∈ (s name).core.voted, v.vote.round < 2 ^ 64 :=
  fun name hname v hv =>
    of_decide_eq_true (List.all_eq_true.mp (List.all_eq_true.mp h name hname) v hv)

end

/-! ## A header that gets two certificates -/

/-- A header of authority 4 for round 1, with a batch. -/
def outsider : Header :=
  letI := crypto.sample
  let parents := ExtTreeSet.ofList ((Certificate.genesis .four).map Certificate.digest)
  let payload := ExtTreeMap.ofList [((7 : Digest), 0)]
  { Header.default with author := 4, round := 1, payload, parents }.signed

/-- Its certificate, and one with a timeout certificate that the digest does not cover. -/
def outsider_certificates : Certificate × Certificate :=
  letI := crypto.sample
  (outsider.certified [1, 2, 3],
    { outsider with timeout_cert := { round := 7, timeouts := [] } }.certified [1, 2, 3])

/-- The signatures that are valid: of the header, and of the votes for it. -/
def outsider_signed : List (PublicKey × Digest) :=
  letI := crypto.sample
  (4, outsider.digest) :: [1, 2, 3].map fun name => (name, outsider_certificates.1.digest)

@[reducible] def outsider_crypto : Crypto := crypto.sample_signed outsider_signed

def four_primaries : System := { committee := .four, gc_depth := 50, header_size := 32 }

/-- Authorities 1, 2 and 3 receive the batch and then the header. -/
def outsider_arrives : List (PublicKey × Primary.Event) :=
  [1, 2, 3].map (fun name => (name, .core (.payload 7 0))) ++
    [1, 2, 3].map fun name => (name, .core (.input (.primaries (.header outsider))))

section

attribute [local instance] outsider_crypto

def outsider_voted : PublicKey → Primary :=
  (four_primaries.run (fun _ => .empty) outsider_arrives).get (by decide +kernel)

theorem outsider_unforged : Unforged {a | a ∈ [1, 2, 3]} outsider_voted :=
  unforged_of_checked (by decide +kernel)

theorem outsider_certified {c : Certificate}
    (hc : c = outsider_certificates.1 ∨ c = outsider_certificates.2) :
    Certified four_primaries {a | a ∈ [1, 2, 3]} outsider_voted c := by
  have hall : ([outsider_certificates.1, outsider_certificates.2].all
      (certified four_primaries [1, 2, 3] outsider_voted)) = true := by decide +kernel
  exact certified_of_checked (List.all_eq_true.mp hall c (by simpa using hc))

theorem outsider_fit :
    ∀ name ∈ {a | a ∈ [1, 2, 3]}, ∀ v ∈ (outsider_voted name).core.voted, v.vote.round < 2 ^ 64 :=
  fit_of_checked (by decide +kernel)

theorem certificates_are_unique_outsider :
    outsider_certificates.1 ≠ outsider_certificates.2 ∧
      outsider_certificates.1.header.id = outsider_certificates.2.header.id :=
  ⟨by decide +kernel, (certificates_are_unique (sample_signed_batchSound _) four_primaries
    (by decide +kernel) {a | a ∈ [1, 2, 3]} Committee.weight_compl_three (fun _ => .empty)
    outsider_arrives outsider_voted (Option.some_get _).symm (recent_of_foreign (by decide +kernel))
    outsider_unforged outsider_fit _ _ (outsider_certified (Or.inl rfl))
    (outsider_certified (Or.inr rfl)) (by decide +kernel) (by decide +kernel)).1⟩

end

end System

end sailfish.primary
