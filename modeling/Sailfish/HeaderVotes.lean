-- The law of votes by headers: the stake counted for a round never exceeds the stake
-- of the authors counted for it, as long as the header of an author is counted once
-- for a round. The core sends a header to the consensus each time it processes it.
import Mathlib
import Sailfish.Trace
import Sailfish.Core

open Std splits sailfish.crypto sailfish.config sailfish.primary

namespace sailfish.consensus

/-- The headers among the deliveries, in order. -/
def headers (events : List Event) : List Header :=
  events.filterMap fun
    | .header h => some h
    | .certificate _ => none

theorem headers_append (l l' : List Event) : headers (l ++ l') = headers l ++ headers l' :=
  List.filterMap_append

/-- What a filter picks out of a list, when it takes the elements of one form only. -/
theorem mem_filterMap_iff {α β : Type} {f : β → α} {g : α → Option β}
    (h : Function.IsPartialInv f g) {l : List α} {b : β} : b ∈ l.filterMap g ↔ f b ∈ l := by
  rw [List.mem_filterMap]
  constructor
  · rintro ⟨a, ha, hb⟩
    rwa [(h b a).mp hb]
  · exact fun hb => ⟨f b, hb, h.eq b⟩

theorem mem_headers {events : List Event} {h : Header} :
    h ∈ headers events ↔ .header h ∈ events := by
  apply mem_filterMap_iff
  intro header e
  cases e <;> simp [eq_comm]

/-! ## What the core sends -/

/-- The headers that the core sent to the consensus, in order. -/
def headers_sent (core : Core) : List Header :=
  core.sent.filterMap fun
    | .consensus_header h => some h
    | _ => none

theorem mem_headers_sent {core : Core} {h : Header} :
    h ∈ headers_sent core ↔ .consensus_header h ∈ core.sent := by
  apply mem_filterMap_iff
  intro header output
  cases output <;> simp [eq_comm]

/-- The certificates that the core sent to the consensus, in order. -/
def certificates_sent (core : Core) : List Certificate :=
  core.sent.filterMap fun
    | .consensus c => some c
    | _ => none

theorem mem_certificates_sent {core : Core} {c : Certificate} :
    c ∈ certificates_sent core ↔ .consensus c ∈ core.sent := by
  apply mem_filterMap_iff
  intro certificate output
  cases output <;> simp [eq_comm]

/-- The run of a core on some inputs, of which the consensus received a part of what was sent on
each of the two channels, in order. -/
structure Feeds [Crypto] (node : Node) (store : Store) (inputs : List Core.Event) (core : Core)
    (events : List Event) : Prop where
  run : Core.run node store inputs = some core
  headers : headers events <+: headers_sent core
  certificates : certificates events <+: certificates_sent core

section

variable [Crypto] {committee : Committee} {gc_depth : ℕ}

/-! ## The state that a run reaches -/

/-- What the dag holds is filed under its digest, its round and its author, and comes from the
deliveries or the genesis. It holds for deliveries in any order. -/
structure Filed (committee : Committee) (delivered : List Certificate) (s : State) : Prop where
  latest : s.Latest
  entry : ∀ r n d x, s.dag.entry r n = some (d, x) → d = x.digest ∧ x.round = r ∧ x.origin = n ∧
    (x ∈ delivered ∨ x ∈ Certificate.genesis committee)

theorem filed_new : Filed committee [] (State.new (Certificate.genesis committee)) where
  latest := (wf_new (show 0 < 2 ^ 64 by decide)).latest
  entry := by
    intro r n d x hx
    rw [State.new_dag_entry] at hx
    split at hx
    · rename_i hn
      cases hx
      exact ⟨rfl, hn.1.symm, rfl, Or.inr (Certificate.mem_genesis.mpr ⟨n, hn.2, rfl⟩)⟩
    · cases hx

variable {delivered : List Certificate} {s : State}

theorem Filed.insert (h : Filed committee delivered s) (c : Certificate) :
    Filed committee (delivered ++ [c]) (s.insert c) where
  latest := h.latest
  entry := by
    intro r n d x hx
    rw [State.insert_dag_entry] at hx
    split at hx
    · rename_i heq
      cases hx
      exact ⟨rfl, heq.1.symm, heq.2.symm, Or.inl (by simp)⟩
    · obtain ⟨hd, hr, hn, hm⟩ := h.entry r n d x hx
      exact ⟨hd, hr, hn, hm.imp_left (List.mem_append_left _)⟩

theorem Filed.sequence (h : Filed committee delivered s) (leaders : List Certificate) :
    Filed committee delivered (sequence gc_depth leaders s).1 := by
  induction leaders generalizing s with
  | nil => exact h
  | cons leader leaders ih =>
    rw [sequence_cons]
    exact ih ⟨State.after_latest h.latest,
      fun r n d x hx => h.entry r n d x (State.entry_of_after hx)⟩

theorem filed_of_run {events : List Event} {c : Consensus}
    (h : Consensus.run committee gc_depth events = some c) :
    Filed committee (certificates events) c.state := by
  induction events using List.reverseRecOn generalizing c with
  | nil =>
    cases h
    exact filed_new
  | append_singleton events e ih =>
    obtain ⟨before, hbefore, hstep⟩ := Consensus.run_concat.mp h
    obtain ⟨mid, hstate, -, hcases⟩ := Consensus.step_cases hstep
    have hmid : Filed committee (certificates (events ++ [e])) mid.state := by
      rw [hstate, certificates_append]
      cases e with
      | header header => simpa [certificates, State.receive] using ih hbefore
      | certificate x => exact (ih hbefore).insert x
    rcases hcases with rfl | ⟨r, d, leader, -, -, -, hcommit⟩
    · exact hmid
    · obtain ⟨new, hnew, -⟩ := Consensus.commit_leader_eq_some hcommit
      unfold consensus.commit at hnew
      simp only [Option.pure_def, Option.bind_eq_bind, Option.bind_eq_some_iff,
        Option.some.injEq] at hnew
      obtain ⟨leaders, -, hseq⟩ := hnew
      have hall : Filed committee (certificates (events ++ [e]))
          (consensus.sequence gc_depth leaders.reverse mid.state).1 := hmid.sequence _
      rw [hseq] at hall
      exact hall

/-! ## The votes that a header adds -/

namespace Consensus

/-- The stake counted for a round. -/
def stake_of (c : Consensus) (k : ℕ) : ℕ := (c.stake_vote[k]?).getD 0

/-- The header lists the leader of the round before it, which is not yet committed, so that
`run` counts the stake of its author. -/
def Counts (committee : Committee) (c : Consensus) (header : Header) : Prop :=
  c.state.last_committed_round < wrapping_pred header.round ∧
    ∃ d leader, consensus.leader committee (wrapping_pred header.round) c.state.dag =
      some (d, leader) ∧ d ∈ header.parents

variable {c c' : Consensus}

omit [Crypto] in
theorem count_vote_stake_of {header : Header} {d : Digest} (hd : d ∈ header.parents) (k : ℕ) :
    (c.count_vote committee header d).stake_of k =
      if k = header.round then u32 (c.stake_of k + committee.stake header.author)
      else c.stake_of k := by
  unfold count_vote stake_of
  rw [if_pos hd]
  dsimp only
  rw [ExtTreeMap.getElem?_alter]
  by_cases hk : k = header.round
  · subst hk
    simp
  · simp [hk, Ne.symm hk]

theorem commit_leader_stake_of {leader : Certificate}
    (h : commit_leader committee gc_depth leader c = some c') (k : ℕ) :
    c'.stake_of k = c.stake_of k := by
  unfold commit_leader at h
  simp only [Option.pure_def, Option.bind_eq_bind, Option.bind_eq_some_iff, Option.some.injEq] at h
  obtain ⟨_, -, rfl⟩ := h
  rfl

/-- What a header does: nothing, when its leader is committed or not there. Else it may add a vote,
and it commits the leader when the stake counted is a quorum. -/
theorem header_cases {header : Header}
    (h : step committee gc_depth c (.header header) = some c') :
    ((wrapping_pred header.round ≤ c.state.last_committed_round ∨
      consensus.leader committee (wrapping_pred header.round) c.state.dag = none) ∧ c' = c) ∨
    ∃ d leader mid, c.state.last_committed_round < wrapping_pred header.round ∧
      consensus.leader committee (wrapping_pred header.round) c.state.dag = some (d, leader) ∧
      mid = c.count_vote committee header d ∧
      (committee.quorum_threshold ≤ mid.stake_of header.round ∧
          commit_leader committee gc_depth leader mid = some c' ∨
        mid.stake_of header.round < committee.quorum_threshold ∧ c' = mid) := by
  unfold step on_header at h
  dsimp only at h
  split at h
  · rename_i hround
    cases h
    exact Or.inl ⟨Or.inl hround, rfl⟩
  · rename_i hround
    split at h
    · rename_i hleader
      cases h
      exact Or.inl ⟨Or.inr hleader, rfl⟩
    · rename_i d leader hleader
      refine Or.inr ⟨d, leader, _, by omega, hleader, rfl, ?_⟩
      split at h
      · rename_i hquorum
        exact Or.inl ⟨hquorum, h⟩
      · rename_i hquorum
        cases h
        exact Or.inr ⟨Nat.lt_of_not_le hquorum, rfl⟩

/-- A step changes the stake counted for the round of a header that counts, and no other. -/
theorem step_stake_of {e : Event} (h : step committee gc_depth c e = some c') (k : ℕ) :
    c'.stake_of k = c.stake_of k ∨ ∃ header, e = .header header ∧ Counts committee c header ∧
      k = header.round ∧ c'.stake_of k = u32 (c.stake_of k + committee.stake header.author) := by
  cases e with
  | certificate x =>
    unfold step on_certificate at h
    dsimp only at h
    left
    split at h
    · cases h
      rfl
    · split at h
      · cases h
        rfl
      · simp only [Option.bind_eq_bind, Option.bind_eq_some_iff] at h
        obtain ⟨layer, -, h⟩ := h
        split at h
        · cases h
          rfl
        · exact commit_leader_stake_of h k
  | header header =>
    rcases header_cases h with ⟨-, rfl⟩ | ⟨d, leader, mid, hround, hleader, hmid, hrest⟩
    · exact Or.inl rfl
    · have hvote : c'.stake_of k = mid.stake_of k := by
        rcases hrest with ⟨-, h⟩ | ⟨-, rfl⟩
        · exact commit_leader_stake_of h k
        · rfl
      rw [hvote, hmid]
      by_cases hd : d ∈ header.parents
      · rw [count_vote_stake_of hd]
        split
        · rename_i hk
          exact Or.inr ⟨header, rfl, ⟨hround, d, leader, hleader, hd⟩, hk, rfl⟩
        · exact Or.inl rfl
      · unfold count_vote
        rw [if_neg hd]
        exact Or.inl rfl

/-- A header that makes the consensus commit finds its leader and a quorum in the count. -/
theorem commit_of_header {header : Header}
    (h : step committee gc_depth c (.header header) = some c') (hc : c'.commits ≠ c.commits) :
    c.state.last_committed_round < wrapping_pred header.round ∧ ∃ d leader,
      consensus.leader committee (wrapping_pred header.round) c.state.dag = some (d, leader) ∧
      committee.quorum_threshold ≤ c'.stake_of header.round := by
  rcases header_cases h with ⟨-, rfl⟩ | ⟨d, leader, mid, hround, hleader, rfl, hrest⟩
  · exact absurd rfl hc
  · refine ⟨hround, d, leader, hleader, ?_⟩
    rcases hrest with ⟨hquorum, h⟩ | ⟨-, rfl⟩
    · rw [commit_leader_stake_of h]
      exact hquorum
    · exact absurd (count_vote_commits header d c) hc

end Consensus

/-! ## The authors of the votes -/

/-- A header of the author for the round is among the deliveries, and was counted. -/
def Counted (committee : Committee) (gc_depth : ℕ) (events : List Event) (n : PublicKey)
    (k : ℕ) : Prop :=
  ∃ pre header post before, events = pre ++ .header header :: post ∧
    Consensus.run committee gc_depth pre = some before ∧ before.Counts committee header ∧
    header.author = n ∧ header.round = k

variable {events : List Event} {e : Event} {n : PublicKey} {k : ℕ}

theorem Counted.append (h : Counted committee gc_depth events n k) (rest : List Event) :
    Counted committee gc_depth (events ++ rest) n k := by
  obtain ⟨pre, header, post, before, rfl, hrest⟩ := h
  exact ⟨pre, header, post ++ rest, before, by simp, hrest⟩

/-- The stake counted for a round is at most the weight of the authors counted for it, when none
of them is counted twice. -/
theorem stake_of_le_weight {c : Consensus} (h : Consensus.run committee gc_depth events = some c)
    (hfirst : Each (fun pre e => ∀ header before, e = .header header →
      Consensus.run committee gc_depth pre = some before → before.Counts committee header →
      ¬ Counted committee gc_depth pre header.author header.round) events) (k : ℕ) :
    c.stake_of k ≤ committee.weight {n | Counted committee gc_depth events n k} := by
  induction events using List.reverseRecOn generalizing c with
  | nil =>
    cases h
    simp [Consensus.stake_of, Consensus.spawn]
  | append_singleton events e ih =>
    obtain ⟨before, hbefore, hstep⟩ := Consensus.run_concat.mp h
    have hle := ih hbefore hfirst.of_append
    rcases Consensus.step_stake_of hstep k with hsame | ⟨header, rfl, hcounts, rfl, hadd⟩
    · rw [hsame]
      apply Nat.le_trans hle
      exact Committee.weight_mono fun _ hn => Counted.append hn _
    · -- the author was not in the count, so its stake adds to the weight
      have hnew := hfirst.last header before rfl hbefore hcounts
      have hwrap := u32_le (before.stake_of header.round + committee.stake header.author)
      have hgrow : committee.weight
            (insert header.author {n | Counted committee gc_depth events n header.round}) ≤
          committee.weight
            {n | Counted committee gc_depth (events ++ [.header header]) n header.round} := by
        apply Committee.weight_mono
        rintro n (rfl | hn)
        · exact ⟨events, header, [], before, rfl, hbefore, hcounts, rfl, rfl⟩
        · exact Counted.append hn _
      rw [Committee.weight_insert hnew] at hgrow
      rw [hadd]
      omega

/-- A counted header lists a certificate of the leader of the round before it, which was delivered
earlier. -/
theorem Counted.header (h : Counted committee gc_depth events n k) :
    ∃ header ∈ headers events, header.author = n ∧ header.round = k ∧
      ∃ x ∈ certificates events, x.round = wrapping_pred k ∧
        x.origin = committee.leader x.round ∧ x.digest ∈ header.parents := by
  obtain ⟨pre, header, post, before, rfl, hrun, ⟨hround, d, x, hleader, hd⟩, rfl, rfl⟩ := h
  obtain ⟨rfl, hr, horigin, hm⟩ := (filed_of_run hrun).entry _ _ _ _ hleader
  refine ⟨header, mem_headers.mpr (by simp), rfl, rfl, x, ?_, hr, by rw [hr]; exact horigin, hd⟩
  rcases hm with hm | hm
  · rw [certificates_append]
    exact List.mem_append_left _ hm
  · obtain ⟨m, -, rfl⟩ := Certificate.mem_genesis.mp hm
    rw [← hr] at hround
    exact absurd hround (Nat.not_lt_zero _)

/-- Headers of different authors or rounds are counted once for each of them. -/
theorem counted_once_of_nodup
    (h : ((headers events).map fun header => (header.author, header.round)).Nodup) :
    Each (fun pre e => ∀ header before, e = .header header →
      Consensus.run committee gc_depth pre = some before → before.Counts committee header →
      ¬ Counted committee gc_depth pre header.author header.round) events := by
  rintro pre _ post rfl header before rfl - - hcounted
  obtain ⟨other, hm, hauthor, hround, -⟩ := hcounted.header
  rw [headers_append, List.map_append, List.nodup_append] at h
  apply h.2.2 (other.author, other.round) (List.mem_map_of_mem hm) (header.author, header.round)
  · exact List.mem_map_of_mem (mem_headers.mpr List.mem_cons_self)
  · rw [hauthor, hround]

/-- The authors of the headers of a round that list the digest, among the deliveries that the core
sent. -/
def backers (core : Core) (delivered : List Event) (round : ℕ) (d : Digest) : Set PublicKey :=
  {n | ∃ header ∈ headers delivered, header ∈ headers_sent core ∧ header.author = n ∧
    header.round = round ∧ d ∈ header.parents}

/-- For every run of the consensus on what a core sent: the stake counted for a round is at most
the stake of the authors counted for it, and a commit on a header has a quorum of authors of
delivered headers that list the leader. It takes that no header is counted for an author and a
round that are counted already, and that the leader of a round has one certificate. -/
theorem header_commit_has_a_quorum (node : Node) (store : Store) (inputs : List Core.Event)
    (core : Core) (events : List Event) (hfeeds : Feeds node store inputs core events)
    (hfirst : Each (fun pre e => ∀ header before, e = .header header →
      Consensus.run node.committee node.gc_depth pre = some before →
      before.Counts node.committee header →
      ¬ Counted node.committee node.gc_depth pre header.author header.round) events)
    (hone : ∀ a ∈ certificates events, ∀ b ∈ certificates events, a.round = b.round →
      a.origin = node.committee.leader a.round → b.origin = a.origin → a.digest = b.digest) :
    (∀ pre, pre <+: events → ∀ c, Consensus.run node.committee node.gc_depth pre = some c →
      ∀ k, (c.stake_vote[k]?).getD 0 ≤
        node.committee.weight {n | Counted node.committee node.gc_depth pre n k}) ∧
    Each (fun pre e => ∀ header c c', e = .header header →
      Consensus.run node.committee node.gc_depth pre = some c →
      Consensus.step node.committee node.gc_depth c e = some c' → c'.commits ≠ c.commits →
      ∃ d leader, consensus.leader node.committee (wrapping_pred header.round) c.state.dag =
          some (d, leader) ∧
        node.committee.quorum_threshold ≤
          node.committee.weight (backers core (pre ++ [e]) header.round d)) events := by
  have hstake : ∀ pre, pre <+: events → ∀ c,
      Consensus.run node.committee node.gc_depth pre = some c →
      ∀ k, c.stake_of k ≤
        node.committee.weight {n | Counted node.committee node.gc_depth pre n k} := by
    rintro pre ⟨rest, rfl⟩ c hrun k
    exact stake_of_le_weight hrun hfirst.of_append k
  refine ⟨hstake, ?_⟩
  rintro pre e post hsplit header c c' rfl hrun hstep hcommit
  obtain ⟨hround, d, leader, hleader, hquorum⟩ := Consensus.commit_of_header hstep hcommit
  refine ⟨d, leader, hleader, Nat.le_trans hquorum ?_⟩
  have hprefix : pre ++ [.header header] <+: events := ⟨post, by simp [hsplit]⟩
  apply Nat.le_trans (hstake _ hprefix c' (Consensus.run_concat.mpr ⟨c, hrun, hstep⟩) header.round)
  apply Committee.weight_mono
  intro n hn
  obtain ⟨h, hh, hauthor, hr, x, hx, hxr, hxo, hxd⟩ := Counted.header hn
  -- the certificate that `h` was counted for and the leader that commits are of one round
  obtain ⟨rfl, hlr, hlo, hm⟩ := (filed_of_run hrun).entry _ _ _ _ hleader
  have hsub : ∀ y ∈ certificates (pre ++ [.header header]), y ∈ certificates events := by
    intro y hy
    rw [hsplit, List.append_cons, certificates_append]
    exact List.mem_append_left _ hy
  have hleaderm : leader ∈ certificates events := by
    rcases hm with hm | hm
    · apply hsub
      rw [certificates_append]
      exact List.mem_append_left _ hm
    · obtain ⟨m, -, rfl⟩ := Certificate.mem_genesis.mp hm
      rw [← hlr] at hround
      exact absurd hround (Nat.not_lt_zero _)
  have hsame : x.digest = leader.digest := by
    apply hone x (hsub x hx) leader hleaderm (by rw [hxr, hlr]) hxo
    rw [hlo, hxo, hxr]
  have hsent : h ∈ headers_sent core := by
    apply hfeeds.headers.subset
    rw [hsplit, List.append_cons, headers_append]
    exact List.mem_append_left _ hh
  exact ⟨h, hh, hsent, hauthor, hr, hsame ▸ hxd⟩

end

/-! ## A header that is sent again -/

section

attribute [local instance] crypto.sample

/-- The node of authority 4. -/
def counting_node : Node := { name := 4, committee := .four, gc_depth := 50 }

/-- The certificate of an authority for round 1. -/
def first_of (author : PublicKey) : Certificate :=
  let parents := ExtTreeSet.ofList ((Certificate.genesis .four).map Certificate.digest)
  { Header.default with author, round := 1, parents }.signed.certified [1, 2, 3]

/-- A header for round 2, with the certificates of authorities 1, 2 and 3 as parents. Authority 2
is the leader of round 1. -/
def second_of (author : PublicKey) : Header :=
  let parents := ExtTreeSet.ofList (([1, 2, 3].map first_of).map Certificate.digest)
  { Header.default with author, round := 2, parents }.signed

/-- The core receives the certificates of round 1, then the headers of some authors. -/
def inputs_of (authors : List PublicKey) : List Core.Event :=
  [1, 2, 3].map (fun a => .input (.primaries (.certificate (first_of a)))) ++
    authors.map fun a => .input (.primaries (.header (second_of a)))

/-- The consensus receives the certificates of round 1, their headers, and the headers of some
authors. -/
def deliveries_of (authors : List PublicKey) : List Event :=
  [1, 2, 3].map (fun a => .certificate (first_of a)) ++
    [1, 2, 3].map (fun a => .header (first_of a).header) ++
    authors.map fun a => .header (second_of a)

def core_of (authors : List PublicKey)
    (h : (Core.run counting_node .empty (inputs_of authors)).isSome := by decide +kernel) : Core :=
  (Core.run counting_node .empty (inputs_of authors)).get h

def consensus_of (authors : List PublicKey)
    (h : (Consensus.run .four 50 (deliveries_of authors)).isSome := by decide +kernel) : Consensus :=
  (Consensus.run .four 50 (deliveries_of authors)).get h

def feeds (core : Core) (events : List Event) : Bool :=
  (headers events).isPrefixOf (headers_sent core) &&
    (certificates events).isPrefixOf (certificates_sent core)

theorem feeds_of_check {node : Node} {store : Store} {inputs : List Core.Event} {core : Core}
    {events : List Event} (hrun : Core.run node store inputs = some core)
    (h : feeds core events = true) : Feeds node store inputs core events := by
  simp only [feeds, Bool.and_eq_true, List.isPrefixOf_iff_prefix] at h
  exact ⟨hrun, h.1, h.2⟩

theorem header_commit_has_a_quorum_three :
    (consensus_of [1, 2, 3]).commits ≠ (consensus_of [1, 2]).commits ∧
      Committee.four.quorum_threshold ≤ Committee.four.weight
        (backers (core_of [1, 2, 3]) (deliveries_of [1, 2, 3]) 2 (first_of 2).digest) := by
  have hrun : Consensus.run .four 50 (deliveries_of [1, 2]) = some (consensus_of [1, 2]) := by
    simp [consensus_of]
  have hstep : Consensus.step .four 50 (consensus_of [1, 2]) (.header (second_of 3)) =
      some (consensus_of [1, 2, 3]) := by decide +kernel
  have hcommit : (consensus_of [1, 2, 3]).commits ≠ (consensus_of [1, 2]).commits := by
    decide +kernel
  have hfeeds : Feeds counting_node .empty (inputs_of [1, 2, 3]) (core_of [1, 2, 3])
      (deliveries_of [1, 2, 3]) := feeds_of_check (by simp [core_of]) (by decide +kernel)
  have hone := List.all_eq_true.mp (show ((certificates (deliveries_of [1, 2, 3])).all fun a =>
    (certificates (deliveries_of [1, 2, 3])).all fun b =>
      a.round != b.round || b.origin != a.origin || a.digest == b.digest) = true by decide +kernel)
  obtain ⟨-, hall⟩ := header_commit_has_a_quorum counting_node .empty (inputs_of [1, 2, 3])
    (core_of [1, 2, 3]) (deliveries_of [1, 2, 3]) hfeeds
    (counted_once_of_nodup (by decide +kernel)) fun a ha b hb hround _ horigin => by
      simpa [hround, horigin] using List.all_eq_true.mp (hone a ha) b hb
  obtain ⟨d, leader, hleader, hquorum⟩ := hall (deliveries_of [1, 2]) (.header (second_of 3)) [] rfl
    (second_of 3) _ _ rfl hrun hstep hcommit
  have hfirst : consensus.leader .four (wrapping_pred (second_of 3).round)
      (consensus_of [1, 2]).state.dag = some ((first_of 2).digest, first_of 2) := by decide +kernel
  have hround : (second_of 3).round = 2 := by decide +kernel
  have hd : d = (first_of 2).digest :=
    (Prod.mk.inj (Option.some.inj (hleader.symm.trans hfirst))).1
  rw [hd, hround] at hquorum
  exact ⟨hcommit, hquorum⟩

/-- The core is sent the header of authority 1 three times, and forwards it three times. -/
theorem resent_header_commits_without_a_quorum :
    Feeds counting_node .empty (inputs_of [1, 1, 1]) (core_of [1, 1, 1]) (deliveries_of [1, 1, 1]) ∧
      Consensus.run .four 50 (deliveries_of [1, 1]) = some (consensus_of [1, 1]) ∧
      Consensus.step .four 50 (consensus_of [1, 1]) (.header (second_of 1)) =
        some (consensus_of [1, 1, 1]) ∧
      (consensus_of [1, 1, 1]).commits ≠ (consensus_of [1, 1]).commits ∧
      consensus.leader .four 1 (consensus_of [1, 1]).state.dag =
        some ((first_of 2).digest, first_of 2) ∧
      Committee.four.weight
          (backers (core_of [1, 1, 1]) (deliveries_of [1, 1, 1]) 2 (first_of 2).digest) <
        Committee.four.quorum_threshold := by
  refine ⟨feeds_of_check (by simp [core_of]) (by decide +kernel), by simp [consensus_of],
    by decide +kernel, by decide +kernel, by decide +kernel, ?_⟩
  have hsole : backers (core_of [1, 1, 1]) (deliveries_of [1, 1, 1]) 2 (first_of 2).digest ⊆
      insert 1 ∅ := by
    rintro n ⟨header, hm, -, rfl, hround, -⟩
    have hall := List.all_eq_true.mp (show ((headers (deliveries_of [1, 1, 1])).all fun h =>
      h.round != 2 || h.author == 1) = true by decide +kernel) header hm
    rw [hround] at hall
    exact Or.inl (by simpa using hall)
  apply Nat.lt_of_le_of_lt (Committee.weight_mono hsole)
  rw [Committee.weight_insert (Set.notMem_empty 1), Committee.weight_empty]
  decide +kernel

end

end sailfish.consensus
