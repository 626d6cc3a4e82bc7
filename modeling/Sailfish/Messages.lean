-- The messages of the primaries (`primary/src/messages.rs`): headers, timeouts,
-- no-vote messages, votes and certificates, with their digests and checks.
-- `Round`, a `u64`, is a number here.
import Mathlib
import Sailfish.Config

open Std sailfish.crypto sailfish.config

namespace sailfish.primary

inductive DagError
  | InvalidSignature
  | SerializationError
  | InvalidHeaderId
  | MalformedHeader (id : Digest)
  | UnknownAuthority (name : PublicKey)
  | AuthorityReuse (name : PublicKey)
  | UnexpectedVote (id : Digest)
  | CertificateRequiresQuorum
  | HeaderRequiresQuorum (id : Digest)
  | TooOld (digest : Digest) (round : ℕ)
deriving DecidableEq

abbrev DagResult := Except DagError

/-- `ensure!`. -/
def ensure (cond : Bool) (e : DagError) : DagResult Unit := if cond then .ok () else .error e

@[simp] theorem ensure_eq_ok {cond : Bool} {e : DagError} {u : Unit} :
    ensure cond e = .ok u ↔ cond = true := by
  cases cond <;> simp [ensure]

structure TimeoutCert where
  round : ℕ
  timeouts : List (PublicKey × Signature)
deriving DecidableEq

structure NoVoteCert where
  round : ℕ
  no_votes : List (PublicKey × Signature)
deriving DecidableEq

structure Header where
  author : PublicKey
  round : ℕ
  payload : ExtTreeMap Digest ℕ
  parents : ExtTreeSet Digest
  id : Digest
  signature : Signature
  timeout_cert : TimeoutCert
  no_vote_cert : NoVoteCert
deriving DecidableEq

/-- `Header::default()`. -/
def Header.default : Header where
  author := 0
  round := 0
  payload := ∅
  parents := ∅
  id := 0
  signature := .default
  timeout_cert := { round := 0, timeouts := [] }
  no_vote_cert := { round := 0, no_votes := [] }

structure Timeout where
  round : ℕ
  author : PublicKey
  signature : Signature
deriving DecidableEq

structure NoVoteMsg where
  round : ℕ
  author : PublicKey
  signature : Signature
deriving DecidableEq

structure Vote where
  id : Digest
  round : ℕ
  origin : PublicKey
  author : PublicKey
  signature : Signature
deriving DecidableEq

structure Certificate where
  header : Header
  votes : List (PublicKey × Signature)
deriving DecidableEq

namespace Certificate

def round (c : Certificate) : ℕ := c.header.round

def origin (c : Certificate) : PublicKey := c.header.author

/-- `PartialEq for Certificate`: the parents, the votes and the payload do not count. -/
def eq (a b : Certificate) : Bool :=
  a.header.id == b.header.id && a.round == b.round && a.origin == b.origin

theorem eq_iff {a b : Certificate} :
    a.eq b = true ↔ a.header.id = b.header.id ∧ a.round = b.round ∧ a.origin = b.origin := by
  simp [eq, and_assoc]

@[simp] theorem eq_refl (a : Certificate) : a.eq a = true := eq_iff.mpr ⟨rfl, rfl, rfl⟩

/-- The genesis certificate of an authority. -/
def genesis_of (name : PublicKey) : Certificate :=
  { header := { Header.default with author := name }, votes := [] }

def genesis (committee : Committee) : List Certificate := committee.keys.map genesis_of

theorem mem_genesis {committee : Committee} {c : Certificate} :
    c ∈ genesis committee ↔ ∃ name ∈ committee.authorities, c = genesis_of name := by
  unfold genesis
  rw [List.mem_map]
  constructor
  · rintro ⟨name, hn, rfl⟩
    exact ⟨name, Committee.mem_keys.mp hn, rfl⟩
  · rintro ⟨name, hn, rfl⟩
    exact ⟨name, Committee.mem_keys.mpr hn, rfl⟩

end Certificate

/-! ## The digests -/

section Digests

variable [Crypto]

def Header.digest (h : Header) : Digest :=
  Crypto.sha512 <| as_ref h.author ++ to_le_bytes 8 h.round ++
    h.payload.toList.flatMap (fun (x, y) => as_ref x ++ to_le_bytes 4 y) ++
    h.parents.toList.flatMap as_ref

def Timeout.digest (t : Timeout) : Digest :=
  Crypto.sha512 (to_le_bytes 8 t.round ++ as_ref t.author)

def NoVoteMsg.digest (m : NoVoteMsg) : Digest :=
  Crypto.sha512 (to_le_bytes 8 m.round ++ as_ref m.author)

def Vote.digest (v : Vote) : Digest :=
  Crypto.sha512 (as_ref v.id ++ to_le_bytes 8 v.round ++ as_ref v.origin)

def Certificate.digest (c : Certificate) : Digest :=
  Crypto.sha512 (as_ref c.header.id ++ to_le_bytes 8 c.round ++ as_ref c.origin)

/-- A vote for a header is over the digest of the certificate of that header. -/
theorem Vote.digest_eq_certificate_digest (v : Vote) (c : Certificate) (hid : v.id = c.header.id)
    (hr : v.round = c.round) (ho : v.origin = c.origin) : v.digest = c.digest := by
  unfold Vote.digest Certificate.digest
  rw [hid, hr, ho]

end Digests

/-! ## The weight of the voters of a certificate -/

/-- The names of the voters. -/
def voters (votes : List (PublicKey × Signature)) : List PublicKey := votes.map Prod.fst

theorem mem_voters {votes : List (PublicKey × Signature)} {name : PublicKey} :
    name ∈ voters votes ↔ ∃ sig, (name, sig) ∈ votes := by
  unfold voters
  rw [List.mem_map]
  constructor
  · rintro ⟨⟨n, sig⟩, hm, rfl⟩
    exact ⟨sig, hm⟩
  · rintro ⟨sig, hm⟩
    exact ⟨(name, sig), hm, rfl⟩

/-- The loop over the voters in `TimeoutCert::verify`, `NoVoteCert::verify` and
`Certificate::verify`: it refuses a voter that comes twice or has no stake, and adds up the
stakes of the others. -/
def tally (committee : Committee) :
    List (PublicKey × Signature) → ExtTreeSet PublicKey → ℕ → DagResult ℕ
  | [], _, weight => .ok weight
  | (name, _) :: votes, used, weight => do
    ensure (name ∉ used) (.AuthorityReuse name)
    let voting_rights := committee.stake name
    ensure (voting_rights > 0) (.UnknownAuthority name)
    tally committee votes (used.insert name) (u32 (weight + voting_rights))

/-- The voters of a certificate are a quorum. -/
def check_quorum (committee : Committee) (votes : List (PublicKey × Signature)) :
    DagResult Unit := do
  let weight ← tally committee votes ∅ 0
  ensure (weight ≥ committee.quorum_threshold) .CertificateRequiresQuorum

theorem tally_ok {committee : Committee} {votes : List (PublicKey × Signature)}
    {used : ExtTreeSet PublicKey} {weight total : ℕ}
    (h : tally committee votes used weight = .ok total) :
    (voters votes).Nodup ∧ (∀ name ∈ voters votes, name ∉ used ∧ 0 < committee.stake name) ∧
      total ≤ weight + ((voters votes).map committee.stake).sum := by
  induction votes generalizing used weight with
  | nil =>
    simp only [tally, Except.ok.injEq] at h
    simp [h, voters]
  | cons vote votes ih =>
    obtain ⟨name, sig⟩ := vote
    unfold tally at h
    by_cases hu : name ∈ used
    · simp [hu, ensure, bind, Except.bind] at h
    by_cases hs : committee.stake name > 0
    · simp only [hu, hs, not_false_eq_true, decide_true, ensure, if_true, bind, Except.bind] at h
      obtain ⟨hnd, hall, hle⟩ := ih h
      have hwrap := u32_le (weight + committee.stake name)
      refine ⟨?_, ?_, ?_⟩
      · exact List.nodup_cons.mpr ⟨fun hm => (hall name hm).1 ExtTreeSet.mem_insert_self, hnd⟩
      · intro n hn
        rcases List.mem_cons.mp hn with rfl | hn
        · exact ⟨hu, hs⟩
        · exact ⟨fun hm => (hall n hn).1 (ExtTreeSet.mem_insert.mpr (Or.inr hm)), (hall n hn).2⟩
      · simp only [voters, List.map_cons, List.sum_cons] at hle ⊢
        omega
    · simp [hu, hs, ensure, bind, Except.bind] at h

/-- The voters that pass are distinct, have stake, and weigh a quorum or more. A sum that
wraps is less than the true sum, so the bound holds for every committee. -/
theorem check_quorum_ok {committee : Committee} {votes : List (PublicKey × Signature)}
    (h : check_quorum committee votes = .ok ()) :
    (voters votes).Nodup ∧ (∀ name ∈ voters votes, 0 < committee.stake name) ∧
      committee.quorum_threshold ≤ committee.weight {a | a ∈ voters votes} := by
  unfold check_quorum at h
  rcases ht : tally committee votes ∅ 0 with e | total
  · simp [ht, bind, Except.bind] at h
  · simp only [ht, bind, Except.bind, ensure_eq_ok, decide_eq_true_eq] at h
    obtain ⟨hnd, hall, hle⟩ := tally_ok ht
    refine ⟨hnd, fun n hn => (hall n hn).2, ?_⟩
    have hw := Committee.sum_stake_le_weight (c := committee) hnd
      (S := {a | a ∈ voters votes}) fun _ ha => ha
    omega

/-! ## The checks -/

/-- `TimeoutCert::verify`. -/
def TimeoutCert.verify (t : TimeoutCert) (committee : Committee) : DagResult Unit :=
  check_quorum committee t.timeouts

/-- `NoVoteCert::verify`. -/
def NoVoteCert.verify (n : NoVoteCert) (committee : Committee) : DagResult Unit :=
  check_quorum committee n.no_votes

section Checks

variable [Crypto]

def Header.verify (h : Header) (committee : Committee) : DagResult Unit := do
  -- Ensure the header id is well formed.
  ensure (h.digest == h.id) .InvalidHeaderId
  -- Ensure the authority has voting rights.
  ensure (committee.stake h.author > 0) (.UnknownAuthority h.author)
  -- Ensure all worker ids are correct.
  ensure (h.payload.toList.all fun (_, worker_id) =>
    (committee.worker h.author worker_id).toBool) (.MalformedHeader h.id)
  -- Check the signature.
  ensure (h.signature.verify h.id h.author) .InvalidSignature

/-- A header that passes has its digest as its id, an author with stake, workers of the author and a
signature of the author. -/
theorem Header.verify_ok {h : Header} {committee : Committee} (hok : h.verify committee = .ok ()) :
    h.digest = h.id ∧ 0 < committee.stake h.author ∧
      (∀ batch ∈ h.payload.toList, (committee.worker h.author batch.2).toBool = true) ∧
      h.signature.verify h.id h.author = true := by
  unfold Header.verify at hok
  by_cases hid : h.digest = h.id
  · by_cases hstake : 0 < committee.stake h.author
    · by_cases hworkers : (h.payload.toList.all fun (_, worker_id) =>
        (committee.worker h.author worker_id).toBool) = true
      · simp only [hid, hstake, hworkers, ensure, bind, Except.bind, beq_self_eq_true, if_true,
          decide_true] at hok
        refine ⟨hid, hstake, fun batch hb => List.all_eq_true.mp hworkers batch hb, ?_⟩
        exact ensure_eq_ok.mp hok
      · simp [hid, hstake, hworkers, ensure, bind, Except.bind] at hok
    · simp [hid, hstake, ensure, bind, Except.bind] at hok
  · simp [hid, ensure, bind, Except.bind] at hok

/-- The checks that a timeout, a no-vote message and a vote share: the author has voting
rights, and its signature is valid. -/
def check_author (committee : Committee) (author : PublicKey) (digest : Digest)
    (signature : Signature) : DagResult Unit := do
  ensure (committee.stake author > 0) (.UnknownAuthority author)
  ensure (signature.verify digest author) .InvalidSignature

theorem check_author_ok {committee : Committee} {author : PublicKey} {digest : Digest}
    {signature : Signature} : check_author committee author digest signature = .ok () ↔
      0 < committee.stake author ∧ signature.verify digest author = true := by
  unfold check_author
  by_cases hstake : 0 < committee.stake author
  · simp [hstake, ensure, bind, Except.bind]
  · simp [hstake, ensure, bind, Except.bind]

def Timeout.verify (t : Timeout) (committee : Committee) : DagResult Unit :=
  check_author committee t.author t.digest t.signature

def NoVoteMsg.verify (m : NoVoteMsg) (committee : Committee) : DagResult Unit :=
  check_author committee m.author m.digest m.signature

def Vote.verify (v : Vote) (committee : Committee) : DagResult Unit :=
  check_author committee v.author v.digest v.signature

def Certificate.verify (c : Certificate) (committee : Committee) : DagResult Unit :=
  -- Genesis certificates are always valid.
  if (genesis committee).any c.eq then .ok ()
  else do
    -- Check the embedded header.
    c.header.verify committee
    -- Ensure the certificate has a quorum.
    check_quorum committee c.votes
    -- Check the signatures.
    ensure (Signature.verify_batch c.digest c.votes) .InvalidSignature

/-- A certificate that passes, and is not a genesis certificate, holds a header that passes,
a quorum of voters and a batch of signatures that passes. -/
theorem Certificate.verify_ok {c : Certificate} {committee : Committee}
    (h : c.verify committee = .ok ()) (hg : (genesis committee).any c.eq = false) :
    c.header.verify committee = .ok () ∧ check_quorum committee c.votes = .ok () ∧
      Signature.verify_batch c.digest c.votes = true := by
  unfold Certificate.verify at h
  simp only [hg, Bool.false_eq_true, if_false, bind, Except.bind] at h
  rcases hh : c.header.verify committee with e | u
  · simp [hh] at h
  · rcases hq : check_quorum committee c.votes with e | u'
    · simp [hh, hq] at h
    · simp only [hh, hq, ensure_eq_ok] at h
      exact ⟨rfl, rfl, h⟩

/-- A certificate with a well formed header, for runs on fixed inputs. -/
def Certificate.sample (author : PublicKey) (round : ℕ) (parents : List Certificate) :
    Certificate :=
  let parents := ExtTreeSet.ofList (parents.map Certificate.digest)
  let header := { Header.default with author, round, parents }
  { header := { header with id := header.digest }, votes := [] }

/-- A header with its id and the signature of its author, for runs on fixed inputs. -/
def Header.signed (h : Header) : Header :=
  { h with id := h.digest, signature := Crypto.sign h.author h.digest }

/-- A certificate with the votes of some authorities, for runs on fixed inputs. -/
def Header.certified (h : Header) (names : List PublicKey) : Certificate :=
  let c : Certificate := { header := h, votes := [] }
  { c with votes := names.map fun name => (name, Crypto.sign name c.digest) }

end Checks

end sailfish.primary
