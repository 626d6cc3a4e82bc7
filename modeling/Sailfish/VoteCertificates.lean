-- The laws of the votes: the votes for a header make one certificate, with the vote that
-- completes a quorum that the leader of the round is in, and it passes everywhere.
import Mathlib
import Sailfish.ProposedHeaders
import Sailfish.Core

open Std sailfish.crypto sailfish.config

namespace sailfish.primary

namespace VotesAggregator

/-- What a vote leaves in the aggregator. The author goes into `used` before the result of that is
looked at. -/
def after (a : VotesAggregator) (vote : Vote) (committee : Committee) (header : Header) :
    VotesAggregator :=
  match a.append vote committee header with
  | .ok (_, a) => a
  | .error _ => { a with used := a.used.insert vote.author }

/-- The aggregator of a header after some votes. -/
def feed (committee : Committee) (header : Header) (votes : List Vote) : VotesAggregator :=
  votes.foldl (fun a vote => a.after vote committee header) .new

/-- The certificates that the votes for a header make, one vote after the other. -/
def certificates (committee : Committee) (header : Header) (votes : List Vote) : List Certificate :=
  Aggregator.outputs (fun a vote => VotesAggregator.append a vote committee header) votes .new

/-- The leader of the round is among the voters, and they are a quorum. -/
def Ready (committee : Committee) (header : Header) (votes : List Vote) : Prop :=
  committee.leader header.round ∈ votes.map Vote.author ∧
    committee.quorum_threshold ≤ committee.weight {n | n ∈ votes.map Vote.author}

/-- The votes that the aggregator holds are the first ones of their authors. -/
structure Holds (votes : List Vote) (a : VotesAggregator) : Prop where
  nodup : (voters a.signatures).Nodup
  members : ∀ n, n ∈ voters a.signatures ↔ n ∈ votes.map Vote.author
  used : ∀ n, n ∈ a.used ↔ n ∈ votes.map Vote.author
  signatures : ∀ x ∈ a.signatures, ∃ vote ∈ votes, (vote.author, vote.signature) = x

/-- What the aggregator of a header counts after some votes. The weight starts again once there is a
certificate, and what comes after it is not a quorum. -/
structure Counts (committee : Committee) (header : Header) (votes : List Vote)
    (a : VotesAggregator) : Prop where
  holds : Holds votes a
  counted : ¬ Ready committee header votes →
    a.weight = committee.weight {n | n ∈ votes.map Vote.author}
  left : Ready committee header votes →
    a.weight + committee.quorum_threshold ≤ committee.weight {n | n ∈ votes.map Vote.author}

variable {committee : Committee} {header : Header} {votes : List Vote} {vote : Vote}
  {a : VotesAggregator}

theorem not_ready_nil : ¬ Ready committee header [] := fun h => List.not_mem_nil h.1

theorem holds_new : Holds [] .new where
  nodup := List.nodup_nil
  members := fun _ => Iff.rfl
  used := fun n => by simp [Aggregator.new]
  signatures := nofun

theorem counts_new : Counts committee header [] .new where
  holds := holds_new
  counted := fun _ => by simp [Aggregator.new]
  left := fun h => absurd h not_ready_nil

theorem authors_append : {n | n ∈ (votes ++ [vote]).map Vote.author} =
    insert vote.author {n | n ∈ votes.map Vote.author} := by
  ext n
  simp [or_comm]

theorem Ready.append (h : Ready committee header votes) (rest : List Vote) :
    Ready committee header (votes ++ rest) := by
  constructor
  · rw [List.map_append]
    exact List.mem_append_left _ h.1
  · apply Nat.le_trans h.2
    apply Committee.weight_mono
    intro n hn
    rw [Set.mem_ofPred_eq, List.map_append]
    exact List.mem_append_left _ hn

/-- A voter that votes again changes nothing. -/
theorem authors_of_mem (hm : vote.author ∈ votes.map Vote.author) (n : PublicKey) :
    n ∈ (votes ++ [vote]).map Vote.author ↔ n ∈ votes.map Vote.author := by
  rw [List.map_append, List.mem_append]
  constructor
  · rintro (hn | hn)
    · exact hn
    · rw [List.mem_singleton.mp hn]
      exact hm
  · exact Or.inl

theorem ready_of_mem (hm : vote.author ∈ votes.map Vote.author) :
    Ready committee header (votes ++ [vote]) ↔ Ready committee header votes := by
  unfold Ready
  simp only [authors_of_mem hm]

theorem Holds.again (h : Holds votes a) (hm : vote.author ∈ votes.map Vote.author) :
    Holds (votes ++ [vote]) a where
  nodup := h.nodup
  members := fun n => (h.members n).trans (authors_of_mem hm n).symm
  used := fun n => (h.used n).trans (authors_of_mem hm n).symm
  signatures := by
    intro x hx
    obtain ⟨v, hv, heq⟩ := h.signatures x hx
    exact ⟨v, List.mem_append_left _ hv, heq⟩

theorem Holds.first (h : Holds votes a) (hnew : vote.author ∉ votes.map Vote.author) (weight : ℕ) :
    Holds (votes ++ [vote])
      { weight
        signatures := a.signatures ++ [(vote.author, vote.signature)]
        used := a.used.insert vote.author } := by
  have hvoters : voters (a.signatures ++ [(vote.author, vote.signature)]) =
      voters a.signatures ++ [vote.author] := by simp [voters]
  have hmem : ∀ n, n ∈ voters a.signatures ++ [vote.author] ↔
      n ∈ (votes ++ [vote]).map Vote.author := by
    intro n
    rw [List.map_append, List.mem_append, List.mem_append, h.members]
    rfl
  refine ⟨?_, ?_, ?_, ?_⟩
  · rw [hvoters, List.nodup_append]
    refine ⟨h.nodup, List.nodup_singleton _, ?_⟩
    rintro n hn m hm rfl
    exact hnew (List.mem_singleton.mp hm ▸ (h.members n).mp hn)
  · rw [hvoters]
    exact hmem
  · intro n
    rw [← hmem, ExtTreeSet.mem_insert, Std.compare_eq_iff_eq, List.mem_append, h.members, h.used,
      List.mem_singleton, or_comm, eq_comm]
  · intro x hx
    rcases List.mem_append.mp hx with hx | hx
    · obtain ⟨v, hv, heq⟩ := h.signatures x hx
      exact ⟨v, List.mem_append_left _ hv, heq⟩
    · exact ⟨vote, List.mem_append_right _ List.mem_cons_self, (List.mem_singleton.mp hx).symm⟩

/-- A voter that votes again gets an error, and changes nothing. -/
theorem Holds.append_again (h : Holds votes a) (hm : vote.author ∈ votes.map Vote.author) :
    a.append vote committee header = .error (.AuthorityReuse vote.author) ∧
      a.after vote committee header = a := by
  have hused : vote.author ∈ a.used := (h.used _).mpr hm
  have herror : a.append vote committee header = .error (.AuthorityReuse vote.author) := by
    simp [append, Aggregator.add, hused, ensure, bind, Except.bind]
  have hinsert : a.used.insert vote.author = a.used := by
    apply ExtTreeSet.ext_mem
    intro n
    rw [ExtTreeSet.mem_insert, Std.compare_eq_iff_eq]
    exact ⟨fun hn => hn.elim (fun heq => heq ▸ hused) id, Or.inr⟩
  refine ⟨herror, ?_⟩
  unfold after
  rw [herror]
  dsimp only
  rw [hinsert]

theorem Counts.again (h : Counts committee header votes a)
    (hm : vote.author ∈ votes.map Vote.author) :
    Counts committee header (votes ++ [vote]) a := by
  refine ⟨h.holds.again hm, ?_, ?_⟩
  · rw [ready_of_mem hm]
    simp only [authors_of_mem hm]
    exact h.counted
  · rw [ready_of_mem hm]
    simp only [authors_of_mem hm]
    exact h.left

/-- What `append` does with the first vote of its author, when the weight does not wrap. -/
theorem append_first (committee : Committee) (header : Header) (hunused : vote.author ∉ a.used)
    {weight : ℕ}
    (hweight : u32 (a.weight + committee.stake vote.author) = weight) :
    let signatures := a.signatures ++ [(vote.author, vote.signature)]
    let used := a.used.insert vote.author
    a.append vote committee header =
      if committee.leader vote.round ∈ used ∧ committee.quorum_threshold ≤ weight then
        .ok (some { header, votes := signatures }, { weight := 0, signatures, used })
      else .ok (none, { weight, signatures, used }) := by
  simp only [append, Aggregator.add, hunused, not_false_eq_true, decide_true, ensure, if_true,
    bind, Except.bind, pure, Except.pure, hweight]
  by_cases hleader : committee.leader vote.round ∈ a.used.insert vote.author
  · simp only [hleader, not_true_eq_false, if_false, true_and, ge_iff_le]
  · simp only [hleader, not_false_eq_true, if_true, false_and, if_false]

theorem weight_concat (hnew : vote.author ∉ votes.map Vote.author) :
    committee.weight {n | n ∈ (votes ++ [vote]).map Vote.author} =
      committee.stake vote.author + committee.weight {n | n ∈ votes.map Vote.author} := by
  rw [authors_append]
  exact Committee.weight_insert hnew

/-- After a certificate the weight counts from 0 again. -/
theorem Counts.weight_le (h : Counts committee header votes a) :
    a.weight ≤ committee.weight {n | n ∈ votes.map Vote.author} := by
  by_cases hready : Ready committee header votes
  · exact Nat.le_of_add_right_le (h.left hready)
  · exact Nat.le_of_eq (h.counted hready)

/-- A first vote of its author makes a certificate of all the votes so far when it completes a
quorum with the leader. -/
theorem Counts.first (h : Counts committee header votes a) (hf : committee.Fits)
    (hround : vote.round = header.round) (hnew : vote.author ∉ votes.map Vote.author) :
    ∃ out a', a.append vote committee header = .ok (out, a') ∧
      Counts committee header (votes ++ [vote]) a' ∧
      (out = some { header, votes := a'.signatures } ∧ ¬ Ready committee header votes ∧
          Ready committee header (votes ++ [vote]) ∨
        out = none ∧
          (Ready committee header (votes ++ [vote]) → Ready committee header votes)) := by
  have hgrow : committee.weight _ = _ := weight_concat hnew
  have htotal := Committee.weight_le_total (c := committee)
    (S := {n | n ∈ (votes ++ [vote]).map Vote.author})
  rw [hgrow] at htotal
  have hquorum := Committee.quorum_threshold_eq hf
  have hfits : 2 * committee.total < 2 ^ 32 := hf
  have hle := h.weight_le
  have hwrap : u32 (a.weight + committee.stake vote.author) =
      a.weight + committee.stake vote.author := u32_of_lt (by omega)
  have happend := append_first committee header (fun hm => hnew ((h.holds.used _).mp hm)) hwrap
  have hholds := h.holds.first hnew
  rw [happend, hround]
  split
  · rename_i hnow
    have hready : Ready committee header (votes ++ [vote]) :=
      ⟨((hholds 0).used _).mp hnow.1, by rw [hgrow]; omega⟩
    have hbefore : ¬ Ready committee header votes := by
      -- the stake that is left after a certificate is not a quorum
      intro hbefore
      have := h.left hbefore
      omega
    refine ⟨_, _, rfl, ⟨hholds 0, fun hn => absurd hready hn, fun _ => ?_⟩,
      Or.inl ⟨rfl, hbefore, hready⟩⟩
    rw [Nat.zero_add]
    exact hready.2
  · rename_i hno
    have hsame : Ready committee header (votes ++ [vote]) → Ready committee header votes := by
      intro hready
      by_contra hbefore
      have hcounted := h.counted hbefore
      have hle := hready.2
      rw [hgrow] at hle
      exact hno ⟨((hholds 0).used _).mpr hready.1, by omega⟩
    refine ⟨_, _, rfl, ⟨hholds _, fun hn => ?_, fun hready => ?_⟩, Or.inr ⟨rfl, hsame⟩⟩
    · rw [hgrow, h.counted fun hready => hn (hready.append [vote])]
      exact Nat.add_comm _ _
    · have hleft := h.left (hsame hready)
      rw [hgrow]
      change a.weight + committee.stake vote.author + committee.quorum_threshold ≤ _
      omega

/-! ## The votes one after the other -/

/-- A certificate that the aggregator made once the votes were ready. -/
def Made (committee : Committee) (header : Header) (votes : List Vote) (certificate : Certificate) :
    Prop :=
  ∃ a, Holds votes a ∧ Ready committee header votes ∧
    certificate = { header, votes := a.signatures }

/-- The votes that come after some others make a certificate when they complete the quorum. -/
theorem Counts.outputs (h : Counts committee header votes a) (hf : committee.Fits)
    {rest : List Vote} (hround : ∀ v ∈ rest, v.round = header.round) :
    (∃ certificate, Aggregator.outputs (fun a v => VotesAggregator.append a v committee header)
        rest a = [certificate] ∧ ¬ Ready committee header votes ∧
          Ready committee header (votes ++ rest) ∧
          ∃ pre, pre <+: votes ++ rest ∧ Made committee header pre certificate) ∨
      Aggregator.outputs (fun a v => VotesAggregator.append a v committee header) rest a = [] ∧
        (Ready committee header (votes ++ rest) → Ready committee header votes) := by
  induction rest generalizing votes a with
  | nil => exact Or.inr ⟨rfl, by rw [List.append_nil]; exact id⟩
  | cons v rest ih =>
    rw [List.forall_mem_cons] at hround
    rw [List.append_cons]
    by_cases hm : v.author ∈ votes.map Vote.author
    · have herror : a.append v committee header = .error (.AuthorityReuse v.author) :=
        (h.holds.append_again hm).1
      have hrest := ih (h.again hm) hround.2
      rw [ready_of_mem hm] at hrest
      rw [Aggregator.outputs, herror]
      exact hrest
    · obtain ⟨out, a', happend, h', hout⟩ := h.first hf hround.1 hm
      rw [Aggregator.outputs, happend]
      rcases hout with ⟨rfl, hbefore, hnow⟩ | ⟨rfl, hsame⟩
      · -- no second certificate comes after this one
        left
        rcases ih h' hround.2 with ⟨_, -, hno, -⟩ | ⟨hnone, -⟩
        · exact absurd hnow hno
        · refine ⟨{ header, votes := a'.signatures }, ?_, hbefore, hnow.append rest, votes ++ [v],
            List.prefix_append _ _, a', h'.holds, hnow, rfl⟩
          dsimp only
          rw [hnone]
          rfl
      · rcases ih h' hround.2 with ⟨c, hc, hno, hready, hmade⟩ | ⟨hnone, hready⟩
        · exact Or.inl ⟨c, hc, fun hn => hno (hn.append [v]), hready, hmade⟩
        · exact Or.inr ⟨hnone, fun hr => hsame (hready hr)⟩

/-- The votes for a header make one certificate once they are ready, and none before. -/
theorem certificates_spec (hf : committee.Fits) (hround : ∀ v ∈ votes, v.round = header.round) :
    (Ready committee header votes → ∃ certificate,
      certificates committee header votes = [certificate] ∧
        ∃ pre, pre <+: votes ∧ Made committee header pre certificate) ∧
    (¬ Ready committee header votes → certificates committee header votes = []) := by
  rcases counts_new.outputs hf hround with ⟨c, hc, -, hready, hmade⟩ | ⟨hnone, hready⟩
  · rw [List.nil_append] at hready hmade
    exact ⟨fun _ => ⟨c, hc, hmade⟩, fun hn => absurd hready hn⟩
  · rw [List.nil_append] at hready
    exact ⟨fun hr => absurd (hready hr) not_ready_nil, fun _ => hnone⟩

theorem feed_concat (votes : List Vote) (vote : Vote) :
    feed committee header (votes ++ [vote]) =
      (feed committee header votes).after vote committee header := by
  unfold feed
  rw [List.foldl_append]
  rfl

theorem counts_feed (hf : committee.Fits) (hround : ∀ v ∈ votes, v.round = header.round) :
    Counts committee header votes (feed committee header votes) := by
  induction votes using List.reverseRecOn with
  | nil => exact counts_new
  | append_singleton votes v ih =>
    have h := ih fun x hx => hround x (List.mem_append_left _ hx)
    rw [feed_concat]
    by_cases hm : v.author ∈ votes.map Vote.author
    · rw [(h.holds.append_again hm).2]
      exact h.again hm
    · obtain ⟨out, a', happend, h', -⟩ := h.first hf (hround v (by simp)) hm
      unfold after
      rw [happend]
      exact h'

end VotesAggregator

/-! ## The certificates of accepted votes -/

namespace VotesAggregator

variable [Crypto] {committee : Committee} {votes : List Vote} {node : Node} {s : Core} {vote : Vote}

/-- A vote that the core accepts is a valid one for its current header. -/
theorem of_sanitize_vote (h : s.sanitize_vote node vote = .ok ()) :
    vote.id = s.current_header.id ∧ vote.origin = s.current_header.author ∧
      vote.round = s.current_header.round ∧ 0 < node.committee.stake vote.author ∧
      vote.signature.verify vote.digest vote.author = true := by
  unfold Core.sanitize_vote Core.check_round at h
  by_cases hround : s.current_header.round ≤ vote.round
  · by_cases hexpected : (vote.id == s.current_header.id && vote.origin == s.current_header.author &&
      vote.round == s.current_header.round) = true
    · simp only [hround, hexpected, decide_true, ensure, if_true, bind, Except.bind] at h
      obtain ⟨hstake, hsignature⟩ := check_author_ok.mp h
      simp only [Bool.and_eq_true, beq_iff_eq] at hexpected
      exact ⟨hexpected.1.1, hexpected.1.2, hexpected.2, hstake, hsignature⟩
    · simp [hround, hexpected, ensure, bind, Except.bind] at h
  · simp [hround, ensure, bind, Except.bind] at h

/-- The certificate of accepted votes passes: its voters are distinct and have stake, and each vote
is over the digest of the certificate. -/
theorem Made.verify (hb : BatchComplete) (hf : node.committee.Fits)
    (hheader : s.current_header.verify node.committee = .ok ())
    (haccepted : ∀ vote ∈ votes, s.sanitize_vote node vote = .ok ()) {certificate : Certificate}
    (h : Made node.committee s.current_header votes certificate) :
    certificate.verify node.committee = .ok () := by
  obtain ⟨a, hholds, hready, rfl⟩ := h
  have hvalid : ∀ x ∈ a.signatures, 0 < node.committee.stake x.1 ∧ x.2.verify
      (Certificate.digest { header := s.current_header, votes := a.signatures }) x.1 = true := by
    intro x hx
    obtain ⟨vote, hvote, rfl⟩ := hholds.signatures x hx
    obtain ⟨hid, horigin, hround, hstake, hsignature⟩ := of_sanitize_vote (haccepted vote hvote)
    refine ⟨hstake, ?_⟩
    have hdigest := vote.digest_eq_certificate_digest
      { header := s.current_header, votes := a.signatures } hid hround horigin
    rw [← hdigest]
    exact hsignature
  have hsum : ((voters a.signatures).map node.committee.stake).sum =
      node.committee.weight {n | n ∈ votes.map Vote.author} := by
    rw [← Committee.weight_of_nodup hholds.nodup]
    simp only [hholds.members]
  have htally : tally node.committee a.signatures ∅ 0 =
      .ok (0 + ((voters a.signatures).map node.committee.stake).sum) := by
    apply tally_eq hholds.nodup
    · intro n hn
      obtain ⟨sig, hm⟩ := mem_voters.mp hn
      exact ⟨ExtTreeSet.not_mem_empty, (hvalid _ hm).1⟩
    · rw [Nat.zero_add]
      exact Aggregator.sum_stakes_lt hf hholds.nodup
  have hquorum : check_quorum node.committee a.signatures = .ok () := by
    have hle := hready.2
    rw [← hsum] at hle
    unfold check_quorum
    rw [htally, Nat.zero_add]
    simp [bind, Except.bind, ensure, hle]
  unfold Certificate.verify
  split
  · rfl
  · simp only [hheader, hquorum, bind, Except.bind, ensure_eq_ok]
    exact Signature.verify_batch_of_verify hb fun x hx => (hvalid x hx).2

/-- For every committee that fits `u32` and every sequence of votes that the core accepts for a
valid header: there is no certificate before the leader of the round has voted and the voters are a
quorum, and one from then on. A voter that votes again gets an error, and changes nothing. The
certificate passes at every node, and holds the vote of the leader. -/
theorem votes_make_one_certificate (hb : BatchComplete) (node : Node) (hf : node.committee.Fits)
    (s : Core) (hheader : s.current_header.verify node.committee = .ok ()) (votes : List Vote)
    (haccepted : ∀ vote ∈ votes, s.sanitize_vote node vote = .ok ()) :
    (∀ pre, pre <+: votes →
      (Ready node.committee s.current_header pre →
        (certificates node.committee s.current_header pre).length = 1) ∧
      (¬ Ready node.committee s.current_header pre →
        certificates node.committee s.current_header pre = [])) ∧
    (∀ pre vote, pre ++ [vote] <+: votes → vote.author ∈ pre.map Vote.author →
      (feed node.committee s.current_header pre).append vote node.committee s.current_header =
          .error (.AuthorityReuse vote.author) ∧
        (feed node.committee s.current_header pre).after vote node.committee s.current_header =
          feed node.committee s.current_header pre) ∧
    ∀ certificate ∈ certificates node.committee s.current_header votes,
      certificate.header = s.current_header ∧ certificate.verify node.committee = .ok () ∧
        ∃ vote ∈ votes, vote.author = node.committee.leader s.current_header.round ∧
          (vote.author, vote.signature) ∈ certificate.votes := by
  have hround : ∀ vote ∈ votes, vote.round = s.current_header.round := fun vote hvote =>
    (of_sanitize_vote (haccepted vote hvote)).2.2.1
  refine ⟨?_, ?_, ?_⟩
  · intro pre hpre
    obtain ⟨hready, hnot⟩ := certificates_spec hf fun vote hvote => hround vote (hpre.subset hvote)
    refine ⟨fun h => ?_, hnot⟩
    obtain ⟨certificate, hc, -⟩ := hready h
    rw [hc]
    rfl
  · intro pre vote hpre hm
    have hcounts : Counts node.committee s.current_header pre
        (feed node.committee s.current_header pre) :=
      counts_feed hf fun v hv => hround v (hpre.subset (List.mem_append_left _ hv))
    exact hcounts.holds.append_again hm
  · intro certificate hc
    obtain ⟨hready, hnot⟩ := certificates_spec hf hround
    by_cases h : Ready node.committee s.current_header votes
    · obtain ⟨certificate', hc', pre, hpre, hmade⟩ := hready h
      rw [hc', List.mem_singleton] at hc
      subst hc
      have hverify := hmade.verify hb hf hheader fun vote hvote => haccepted vote (hpre.subset hvote)
      obtain ⟨a, hholds, hnow, rfl⟩ := hmade
      refine ⟨rfl, hverify, ?_⟩
      obtain ⟨sig, hsig⟩ := mem_voters.mp ((hholds.members _).mpr hnow.1)
      obtain ⟨vote, hvote, heq⟩ := hholds.signatures _ hsig
      obtain ⟨hauthor, -⟩ := Prod.mk.inj heq
      exact ⟨vote, hpre.subset hvote, hauthor, by rw [heq]; exact hsig⟩
    · rw [hnot h] at hc
      cases hc

/-! ## The votes of a quorum -/

omit [Crypto] in
/-- For every committee that fits `u32` and every quorum that votes for a header, in any order: the
votes make a certificate exactly when the leader of the round is one of the voters. -/
theorem a_quorum_certifies_with_the_leader (committee : Committee) (hf : committee.Fits)
    (header : Header) (Q : Set PublicKey) (hQ : committee.quorum_threshold ≤ committee.weight Q)
    (votes : List Vote) (hround : ∀ vote ∈ votes, vote.round = header.round)
    (hvoters : ∀ n, n ∈ votes.map Vote.author ↔ n ∈ Q) :
    certificates committee header votes ≠ [] ↔ committee.leader header.round ∈ Q := by
  have hset : {n | n ∈ votes.map Vote.author} = Q := Set.ext hvoters
  obtain ⟨hready, hnot⟩ := certificates_spec hf hround
  constructor
  · intro hne
    have h : Ready committee header votes := by
      by_contra hn
      exact hne (hnot hn)
    exact (hvoters _).mp h.1
  · intro hleader
    obtain ⟨certificate, hc, -⟩ := hready ⟨(hvoters _).mpr hleader, by rw [hset]; exact hQ⟩
    rw [hc]
    exact List.cons_ne_nil _ _

end VotesAggregator

namespace VotesAggregator

section

attribute [local instance] crypto.sample

/-- The node of authority 4. -/
def collector : Node := { name := 4, committee := .four, gc_depth := 50 }

/-- A header of authority 4 for round 1, which authority 2 leads. -/
def collected : Header :=
  let parents := ExtTreeSet.ofList ((Certificate.genesis .four).map Certificate.digest)
  { Header.default with author := 4, round := 1, parents }.signed

def collecting : Core := { Core.spawn .empty with current_header := collected }

def votes_of (names : List PublicKey) : List Vote := names.map (.new collected)

theorem votes_make_one_certificate_four :
    (certificates .four collected (votes_of [1, 3, 1, 4, 2])).map (·.header) = [collected] ∧
      ∀ certificate ∈ certificates .four collected (votes_of [1, 3, 1, 4, 2]),
        certificate.verify .four = .ok () := by
  refine ⟨by decide +kernel, fun certificate hc => ?_⟩
  exact ((votes_make_one_certificate sample_batchComplete collector (by decide +kernel) collecting
    (by decide +kernel) (votes_of [1, 3, 1, 4, 2]) (by decide +kernel)).2.2 certificate hc).2.1

theorem quorum_of_stakes {l : List PublicKey} (hl : l.Nodup)
    (h : Committee.four.quorum_threshold ≤ (l.map Committee.four.stake).sum) :
    Committee.four.quorum_threshold ≤ Committee.four.weight {n | n ∈ l} := by
  rw [Committee.weight_of_nodup hl]
  exact h

theorem a_quorum_certifies_with_the_leader_two :
    certificates .four collected (votes_of [1, 3, 2]) ≠ [] := by
  refine (a_quorum_certifies_with_the_leader .four (by decide +kernel) collected
    {n | n ∈ [(1 : PublicKey), 3, 2]} (quorum_of_stakes (by decide) (by decide +kernel))
    (votes_of [1, 3, 2]) (by decide +kernel) fun n => Iff.rfl).mpr ?_
  have hleader : Committee.four.leader collected.round = 2 := by decide +kernel
  rw [hleader]
  simp

/-- Four authorities whose stakes add up to more than `u32` holds. -/
def heavy : Committee :=
  .sample [(1, 2 ^ 31), (2, 2 ^ 31), (3, 4), (4, 1)] (by simp)

/-- A header of round 3, which authority 4 leads. -/
def led_by_four : Header := { collected with round := 3 }

/-- The votes of authorities 1, 3 and 4 are a quorum without the leader, authority 2. And stakes
that wrap are no quorum for the aggregator, with the leader among the voters. -/
theorem quorum_without_the_leader_makes_no_certificate :
    (Committee.four.quorum_threshold ≤ Committee.four.weight {n | n ∈ [(1 : PublicKey), 3, 4]} ∧
        certificates .four collected (votes_of [1, 3, 4]) = []) ∧
      heavy.quorum_threshold ≤ heavy.weight {n | n ∈ [(1 : PublicKey), 2, 4]} ∧
        heavy.leader led_by_four.round = 4 ∧
        certificates heavy led_by_four ([1, 2, 4].map (.new led_by_four)) = [] := by
  refine ⟨⟨quorum_of_stakes (by decide) (by decide +kernel), by decide +kernel⟩, ?_, by decide +kernel,
    by decide +kernel⟩
  rw [Committee.weight_of_nodup (by decide)]
  decide +kernel

end

end VotesAggregator

end sailfish.primary
