-- The law of signed messages: whether a signature of a primary for one kind of message is
-- accepted for another kind. The bytes of headers and votes are longer than those of
-- timeouts and no-vote messages, but a timeout and a no-vote message have the same bytes.
import Mathlib
import Sailfish.NoVotes

open Std sailfish.crypto sailfish.config

namespace sailfish.primary

/-! ## The bytes -/

theorem length_as_ref (x : BitVec 256) : (as_ref x).length = 32 := by simp [as_ref]

theorem length_to_le_bytes (k n : ℕ) : (to_le_bytes k n).length = k := by simp [to_le_bytes]

theorem to_le_bytes_succ (k n : ℕ) :
    to_le_bytes (k + 1) n = UInt8.ofNat n :: to_le_bytes k (n / 256) := by
  unfold to_le_bytes
  rw [List.range_succ_eq_map, List.map_cons, List.map_map, pow_zero, Nat.div_one]
  congr 1
  apply List.map_congr_left
  intro i _
  simp only [Function.comp, Nat.succ_eq_add_one, pow_succ', Nat.div_div_eq_div_mul]

theorem to_le_bytes_inj {k a b : ℕ} (ha : a < 256 ^ k) (hb : b < 256 ^ k)
    (h : to_le_bytes k a = to_le_bytes k b) : a = b := by
  induction k generalizing a b with
  | zero => omega
  | succ k ih =>
    rw [to_le_bytes_succ, to_le_bytes_succ, List.cons.injEq] at h
    obtain ⟨hfirst, hrest⟩ := h
    have hmod : a % 256 = b % 256 := by simpa using congrArg UInt8.toNat hfirst
    have hdiv := ih (Nat.div_lt_of_lt_mul (by rwa [pow_succ'] at ha))
      (Nat.div_lt_of_lt_mul (by rwa [pow_succ'] at hb)) hrest
    omega

theorem as_ref_eq (x : BitVec 256) : as_ref x = (to_le_bytes 32 x.toNat).reverse := by
  apply List.ext_getElem
  · simp [as_ref, to_le_bytes]
  · intro i hi hi'
    simp [as_ref, to_le_bytes]

theorem as_ref_inj {x y : BitVec 256} (h : as_ref x = as_ref y) : x = y := by
  rw [as_ref_eq, as_ref_eq, List.reverse_inj] at h
  exact BitVec.eq_of_toNat_eq (to_le_bytes_inj (by have := x.isLt; omega)
    (by have := y.isLt; omega) h)

/-- What `Header::digest` feeds to the hash. -/
def Header.bytes (h : Header) : List UInt8 :=
  as_ref h.author ++ to_le_bytes 8 h.round ++
    h.payload.toList.flatMap (fun (x, y) => as_ref x ++ to_le_bytes 4 y) ++
    h.parents.toList.flatMap as_ref

/-- What `Timeout::digest` and `NoVoteMsg::digest` feed to the hash. -/
def round_bytes (round : ℕ) (author : PublicKey) : List UInt8 :=
  to_le_bytes 8 round ++ as_ref author

/-- What `Vote::digest` feeds to the hash. -/
def Vote.bytes (v : Vote) : List UInt8 :=
  as_ref v.id ++ to_le_bytes 8 v.round ++ as_ref v.origin

theorem length_round_bytes (round : ℕ) (author : PublicKey) :
    (round_bytes round author).length = 40 := by
  simp [round_bytes, length_as_ref, length_to_le_bytes]

theorem round_bytes_inj {r r' : ℕ} {author author' : PublicKey} (hr : r < 2 ^ 64)
    (hr' : r' < 2 ^ 64) (h : round_bytes r author = round_bytes r' author') : r = r' := by
  have hbytes := (List.append_inj h (by rw [length_to_le_bytes, length_to_le_bytes])).1
  exact to_le_bytes_inj (by omega) (by omega) hbytes

/-- A header with parents has more bytes than a timeout or a no-vote message. -/
theorem Header.bytes_ne {h : Header} (hparents : h.parents.toList ≠ []) (round : ℕ)
    (author : PublicKey) : h.bytes ≠ round_bytes round author := by
  intro heq
  have hlength := congrArg List.length heq
  obtain ⟨d, rest, hcons⟩ := List.exists_cons_of_ne_nil hparents
  rw [length_round_bytes, Header.bytes, hcons] at hlength
  simp only [List.length_append, List.flatMap_cons, length_as_ref, length_to_le_bytes] at hlength
  omega

theorem Vote.bytes_ne (v : Vote) (round : ℕ) (author : PublicKey) :
    v.bytes ≠ round_bytes round author := by
  intro heq
  have hlength := congrArg List.length heq
  rw [length_round_bytes, Vote.bytes] at hlength
  simp only [List.length_append, length_as_ref, length_to_le_bytes] at hlength
  omega

namespace Primary

/-! ## What a primary has signed -/

/-- The digests that the primary has signed: of the headers, timeouts and no-vote messages of its
proposer, and of the no-vote messages and votes of its core. -/
def signed [Crypto] (name : PublicKey) (s : Primary) : List Digest :=
  s.proposer.made.map (·.header.digest) ++
    (Proposer.timeouts s.proposer.sent).map Timeout.digest ++
    (Proposer.no_vote_msgs s.proposer.sent).map NoVoteMsg.digest ++
    s.core.no_vote_aggregators.keys.map (fun round => (NoVoteMsg.new round name).digest) ++
    s.core.voted.map (·.vote.digest)

/-- The bytes behind these digests. -/
def signed_bytes (name : PublicKey) (s : Primary) : List (List UInt8) :=
  s.proposer.made.map (·.header.bytes) ++
    (Proposer.timeouts s.proposer.sent).map (fun t => round_bytes t.round t.author) ++
    (Proposer.no_vote_msgs s.proposer.sent).map (fun m => round_bytes m.round m.author) ++
    s.core.no_vote_aggregators.keys.map (round_bytes · name) ++ s.core.voted.map (·.vote.bytes)

theorem signed_eq [Crypto] (name : PublicKey) (s : Primary) :
    s.signed name = (s.signed_bytes name).map Crypto.sha512 := by
  unfold signed signed_bytes
  simp only [List.map_append, List.map_map]
  rfl

/-- The primary has made a timeout for the round. -/
def SignedTimeout (s : Primary) (round : ℕ) : Prop :=
  ∃ t ∈ Proposer.timeouts s.proposer.sent, t.round = round

instance {s : Primary} {round : ℕ} : Decidable (s.SignedTimeout round) :=
  inferInstanceAs (Decidable (∃ t ∈ Proposer.timeouts s.proposer.sent, _))

/-- The rounds of the messages of the primary are of type `u64`. -/
structure RoundsFit (s : Primary) : Prop where
  timeouts : ∀ t ∈ Proposer.timeouts s.proposer.sent, t.round < 2 ^ 64
  no_vote_msgs : ∀ msg ∈ Proposer.no_vote_msgs s.proposer.sent, msg.round < 2 ^ 64
  no_votes : ∀ round ∈ s.core.no_vote_aggregators, round < 2 ^ 64

section

variable [Crypto] {node : Node} {header_size : ℕ} {s : Primary} {round : ℕ}

/-- The signatures of the primary are unforgeable and valid, and the hash has no collision between
what the primary signed and the bytes of a message for the round. -/
structure Ideal (node : Node) (s : Primary) (round : ℕ) : Prop where
  unforgeable : Unforgeable fun key digest => key = node.name → digest ∈ s.signed node.name
  valid : ∀ digest ∈ s.signed node.name,
    (Crypto.sign node.name digest).verify digest node.name = true
  no_collision : ∀ bytes ∈ s.signed_bytes node.name,
    Crypto.sha512 bytes = Crypto.sha512 (round_bytes round node.name) →
      bytes = round_bytes round node.name

theorem parents_ne_nil {committee : Committee} {name : PublicKey}
    (h : Proposer.Orderly name committee s.proposer) {m : Made} (hm : m ∈ s.proposer.made) :
    m.header.parents.toList ≠ [] := by
  obtain ⟨hne, heq⟩ := h.made_parents m hm
  obtain ⟨c, rest, hcons⟩ := List.exists_cons_of_ne_nil hne
  have hmem : c.digest ∈ m.header.parents := by
    rw [heq, ExtTreeSet.mem_ofList, List.contains_iff_mem, hcons]
    exact List.mem_cons_self
  exact List.ne_nil_of_mem (ExtTreeSet.mem_toList.mpr hmem)

/-- The bytes of a message for the round are signed with a timeout or with a no-vote message
only. -/
theorem mem_signed_bytes_iff (h : Proposer.Orderly node.name node.committee s.proposer)
    (hfit : s.RoundsFit) (hround : round < 2 ^ 64) :
    round_bytes round node.name ∈ s.signed_bytes node.name ↔
      s.SignedTimeout round ∨ s.SignedNoVote round := by
  unfold signed_bytes
  simp only [List.mem_append, List.mem_map, or_assoc]
  constructor
  · rintro (⟨m, hm, heq⟩ | ⟨t, ht, heq⟩ | ⟨m, hm, heq⟩ | ⟨r, hr, heq⟩ | ⟨v, -, heq⟩)
    · exact absurd heq (Header.bytes_ne (parents_ne_nil h hm) _ _)
    · exact Or.inl ⟨t, ht, round_bytes_inj (hfit.timeouts t ht) hround heq⟩
    · exact Or.inr (Or.inl ⟨m, hm, round_bytes_inj (hfit.no_vote_msgs m hm) hround heq⟩)
    · have hr := ExtTreeMap.mem_keys.mp hr
      obtain rfl := round_bytes_inj (hfit.no_votes r hr) hround heq
      exact Or.inr (Or.inr hr)
    · exact absurd heq (Vote.bytes_ne v.vote _ _)
  · rintro (⟨t, ht, rfl⟩ | ⟨m, hm, rfl⟩ | hr)
    · refine Or.inr (Or.inl ⟨t, ht, ?_⟩)
      rw [h.sent_timeouts t ht]
      rfl
    · refine Or.inr (Or.inr (Or.inl ⟨m, hm, ?_⟩))
      rw [h.sent_no_votes m hm]
      rfl
    · exact Or.inr (Or.inr (Or.inr (Or.inl ⟨round, ExtTreeMap.mem_keys.mpr hr, rfl⟩)))

/-- The primary has signed the bytes of a message for the round when it has stake and a signature of
it passes the check of such a message. -/
theorem Ideal.check_author_iff (h : Ideal node s round) :
    (∃ signature, check_author node.committee node.name
      (Crypto.sha512 (round_bytes round node.name)) signature = .ok ()) ↔
    0 < node.committee.stake node.name ∧
      round_bytes round node.name ∈ s.signed_bytes node.name := by
  simp only [check_author_ok]
  constructor
  · rintro ⟨signature, hstake, hverify⟩
    have hdigest := h.unforgeable _ _ _ hverify rfl
    rw [signed_eq] at hdigest
    obtain ⟨bytes, hmem, heq⟩ := List.mem_map.mp hdigest
    rw [h.no_collision bytes hmem heq] at hmem
    exact ⟨hstake, hmem⟩
  · rintro ⟨hstake, hmem⟩
    refine ⟨_, hstake, h.valid _ ?_⟩
    rw [signed_eq]
    exact List.mem_map_of_mem hmem

/-- For every run of a primary and every round: each no-vote message and each timeout of the primary
for the round that passes its check anywhere is one that the primary made, exactly when the primary
has no stake, or it made both a timeout and a no-vote message for the round, or none of the two. -/
theorem signed_messages_are_not_exchanged_iff (node : Node) (header_size : ℕ) (store : Store)
    (events : List Event) (s : Primary) (hrun : run node header_size store events = some s)
    (hfit : s.RoundsFit) (round : ℕ) (hround : round < 2 ^ 64) (hideal : Ideal node s round) :
    ((∀ m : NoVoteMsg, m.round = round → m.author = node.name →
        m.verify node.committee = .ok () → s.SignedNoVote round) ∧
      ∀ t : Timeout, t.round = round → t.author = node.name →
        t.verify node.committee = .ok () → s.SignedTimeout round) ↔
    (0 < node.committee.stake node.name → (s.SignedTimeout round ↔ s.SignedNoVote round)) := by
  have hsigned := mem_signed_bytes_iff (orderly_of_run hrun) hfit hround
  constructor
  · rintro ⟨hno_vote, htimeout⟩ hstake
    have hpass : round_bytes round node.name ∈ s.signed_bytes node.name → ∃ signature, check_author
        node.committee node.name (Crypto.sha512 (round_bytes round node.name)) signature = .ok () :=
      fun hmem => hideal.check_author_iff.mpr ⟨hstake, hmem⟩
    constructor
    · intro h
      obtain ⟨signature, hok⟩ := hpass (hsigned.mpr (Or.inl h))
      exact hno_vote { round, author := node.name, signature } rfl rfl hok
    · intro h
      obtain ⟨signature, hok⟩ := hpass (hsigned.mpr (Or.inr h))
      exact htimeout { round, author := node.name, signature } rfl rfl hok
  · intro hiff
    have hmade : ∀ signature, check_author node.committee node.name
        (Crypto.sha512 (round_bytes round node.name)) signature = .ok () →
        s.SignedTimeout round ∧ s.SignedNoVote round := by
      intro signature hok
      obtain ⟨hstake, hmem⟩ := hideal.check_author_iff.mp ⟨signature, hok⟩
      rcases hsigned.mp hmem with h | h
      · exact ⟨h, (hiff hstake).mp h⟩
      · exact ⟨(hiff hstake).mpr h, h⟩
    constructor
    · rintro ⟨_, _, signature⟩ rfl rfl hok
      exact (hmade signature hok).2
    · rintro ⟨_, _, signature⟩ rfl rfl hok
      exact (hmade signature hok).1

end

/-! ## A timeout that passes as a no-vote message -/

/-- The digests that a primary signs when its timer expires at once. -/
def expired_digests (name : PublicKey) : List Digest :=
  letI := crypto.sample
  ((run (node_of name) 32 .empty expires_at_once).map (signed name)).getD []

/-- Only these digests have valid signatures. -/
@[reducible] def expired_crypto (name : PublicKey) : Crypto :=
  crypto.sample_for (expired_digests name)

/-- The check that a state is ideal, on the digests and the bytes that were signed. -/
def ideal (name : PublicKey) (s : Primary) (round : ℕ) : Bool :=
  letI := expired_crypto name
  (expired_digests name).all (s.signed name).contains &&
    (s.signed name).all (expired_digests name).contains &&
    (s.signed_bytes name).all fun bytes =>
      Crypto.sha512 bytes != Crypto.sha512 (round_bytes round name) ||
        bytes == round_bytes round name

theorem ideal_of_check {name : PublicKey} {s : Primary} {round : ℕ}
    (h : ideal name s round = true) : @Ideal (expired_crypto name) (node_of name) s round := by
  unfold ideal at h
  simp only [Bool.and_eq_true, List.all_eq_true, List.contains_iff_mem, Bool.or_eq_true,
    bne_iff_ne, beq_iff_eq] at h
  obtain ⟨⟨hsigned, hvalid⟩, hcollision⟩ := h
  refine @Ideal.mk (expired_crypto name) _ _ _ ?_ ?_ ?_
  · rintro key digest sig hverify rfl
    have hstrict := (Bool.and_eq_true_iff.mp hverify).2
    exact hsigned digest (List.contains_iff_mem.mp (Bool.and_eq_true_iff.mp hstrict).2)
  · intro digest hmem
    have hcontains := List.contains_iff_mem.mpr (hvalid digest hmem)
    change (name == name && digest == digest && (expired_digests name).contains digest) = true
    simp only [beq_self_eq_true, Bool.true_and, hcontains]
  · exact fun bytes hmem heq => (hcollision bytes hmem).resolve_left (not_not_intro heq)

/-- Authority 4 makes a timeout and a no-vote message. -/
@[reducible] def crypto_four : Crypto := expired_crypto 4

section

attribute [local instance] crypto_four

theorem signed_messages_are_not_exchanged_iff_both :
    ∃ s, run (node_of 4) 32 .empty expires_at_once = some s ∧ s.SignedTimeout 0 ∧
      (∀ m : NoVoteMsg, m.round = 0 → m.author = 4 → m.verify .four = .ok () →
        s.SignedNoVote 0) ∧
      ∀ t : Timeout, t.round = 0 → t.author = 4 → t.verify .four = .ok () →
        s.SignedTimeout 0 := by
  refine ⟨(run (node_of 4) 32 .empty expires_at_once).get (by decide +kernel), by simp,
    by decide +kernel, (signed_messages_are_not_exchanged_iff (node_of 4) 32 .empty expires_at_once _
      (by simp) ⟨by decide +kernel, by decide +kernel, fun round hr => ?_⟩ 0 (by decide)
      (ideal_of_check (by decide +kernel))).mpr fun _ => by decide +kernel⟩
  have hnone : ((run (node_of 4) 32 .empty expires_at_once).get
    (by decide +kernel)).core.no_vote_aggregators.keys = [] := by decide +kernel
  rw [← ExtTreeMap.mem_keys, hnone] at hr
  exact absurd hr List.not_mem_nil

end

/-- Authority 2, the next leader, makes a timeout and no no-vote message. -/
@[reducible] def crypto_two : Crypto := expired_crypto 2

section

attribute [local instance] crypto_two

theorem timeout_passes_as_a_no_vote :
    ∃ s, run (node_of 2) 32 .empty expires_at_once = some s ∧ s.RoundsFit ∧ Ideal (node_of 2) s 0 ∧
      ∃ m : NoVoteMsg, m.round = 0 ∧ m.author = 2 ∧ m.verify .four = .ok () ∧
        ¬ s.SignedNoVote 0 := by
  refine ⟨(run (node_of 2) 32 .empty expires_at_once).get (by decide +kernel), by simp,
    ⟨by decide +kernel, by decide +kernel, fun round hr => ?_⟩, ideal_of_check (by decide +kernel),
    { round := 0, author := 2, signature := (Timeout.new 0 2).signature }, rfl, rfl,
    by decide +kernel, by decide +kernel⟩
  have hnone : ((run (node_of 2) 32 .empty expires_at_once).get
    (by decide +kernel)).core.no_vote_aggregators.keys = [] := by decide +kernel
  rw [← ExtTreeMap.mem_keys, hnone] at hr
  exact absurd hr List.not_mem_nil

end

end Primary

end sailfish.primary
