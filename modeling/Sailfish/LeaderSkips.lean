-- The law of skipped leaders: a core votes for a header without a parent of the leader
-- only with a quorum behind it, as long as the certificates in the header hold valid
-- signatures for the round before. The checks of the core do not look at these.
import Mathlib
import Sailfish.CoreMoves
import Sailfish.Lib.Splits

open Std Relation effects splits sailfish.crypto sailfish.config

namespace sailfish.primary

section

variable [Crypto]

/-- What an authority signs in a timeout for a round. -/
def timeout_digest (round : ℕ) (author : PublicKey) : Digest :=
  Timeout.digest { round, author, signature := .default }

/-- What an authority signs in a no-vote message for a round. -/
def no_vote_digest (round : ℕ) (author : PublicKey) : Digest :=
  NoVoteMsg.digest { round, author, signature := .default }

/-- The certificates of the header that pass the checks of the core hold valid signatures of their
authorities, for the round before the one of the header. -/
structure Genuine (committee : Committee) (header : Header) : Prop where
  timeouts : header.timeout_cert.verify committee = .ok () →
    ∀ x ∈ header.timeout_cert.timeouts,
      x.2.verify (timeout_digest (header.round - 1) x.1) x.1 = true
  no_votes : header.author = committee.leader header.round →
    header.no_vote_cert.verify committee = .ok () →
      ∀ x ∈ header.no_vote_cert.no_votes,
        x.2.verify (no_vote_digest (header.round - 1) x.1) x.1 = true

variable {Signed : PublicKey → Digest → Prop} {committee : Committee} {header : Header}

/-- The voters of a certificate that passes, with valid signatures, are a quorum that signed. -/
theorem quorum_signed (hu : Unforgeable Signed) {votes : List (PublicKey × Signature)}
    {digest : PublicKey → Digest} (hquorum : check_quorum committee votes = .ok ())
    (hvalid : ∀ x ∈ votes, x.2.verify (digest x.1) x.1 = true) :
    committee.quorum_threshold ≤ committee.weight {a | Signed a (digest a)} := by
  obtain ⟨-, -, hweight⟩ := check_quorum_ok hquorum
  apply Nat.le_trans hweight
  apply Committee.weight_mono
  intro a ha
  obtain ⟨sig, hm⟩ := mem_voters.mp ha
  exact hu a _ sig (hvalid _ hm)

namespace Core

variable {node : Node} {s s' : Core}

/-- Every vote is for a genuine header whose parents passed the checks. -/
def Checked (node : Node) (s : Core) : Prop :=
  ∀ v ∈ s.voted, Genuine node.committee v.header ∧
    check_parents node.committee v.header v.parents = .ok ()

theorem Checked.move (hmove : Move node (Genuine node.committee) s s') (h : Checked node s) :
    Checked node s' := by
  cases hmove with
  | quiet hq =>
    unfold Checked
    rw [hq.voted]
    exact h
  | @vote header parents hgenuine hcheck _ =>
    intro v hv
    rcases List.mem_append.mp hv with hv | hv
    · exact h v hv
    · rw [List.mem_singleton.mp hv]
      exact ⟨hgenuine, hcheck⟩

theorem Checked.step {e : Event} (h : Checked node s)
    (hgenuine : ∀ input, e = .input input → Allowed node (Genuine node.committee) s input)
    (hstep : Core.step node s e = some s') : Checked node s' := by
  cases e with
  | input input =>
    obtain ⟨s₁, hmoves, rfl⟩ := step_input (hgenuine input rfl) hstep
    have hstart : Checked node (s.start input) := by
      cases input <;> exact h
    have hend : Checked node s₁ :=
      of_steps (P := Checked node) (fun _ _ => Checked.move) hmoves hstart
    unfold Core.cleanup
    dsimp only
    split <;> exact hend
  | payload digest worker_id =>
    cases hstep
    exact h
  | committed round =>
    unfold Core.step at hstep
    dsimp only at hstep
    split at hstep <;> cases hstep <;> exact h

/-- For every run of a core and every vote of it for a header without a parent of the leader of the
round before: a quorum signed timeouts for that round and, for a header of the leader of its own
round, a quorum signed no-vote messages for it, when the certificates in the headers that the core
processes are genuine. -/
theorem skipped_leader_has_signed_quorums (Signed : PublicKey → Digest → Prop)
    (hu : Unforgeable Signed) (node : Node) (store : Store) (events : List Event) (s : Core)
    (hrun : run node store events = some s)
    (hgenuine : Each (fun pre e => ∀ input before, e = .input input →
      run node store pre = some before →
      Allowed node (Genuine node.committee) before input) events)
    (v : Voted) (hv : v ∈ s.voted) (hround : 1 ≤ v.header.round)
    (hskip : ∀ x ∈ v.parents, x.origin ≠ node.committee.leader (v.header.round - 1)) :
    node.committee.quorum_threshold ≤
        node.committee.weight {a | Signed a (timeout_digest (v.header.round - 1) a)} ∧
      (v.header.author = node.committee.leader v.header.round →
        node.committee.quorum_threshold ≤
          node.committee.weight {a | Signed a (no_vote_digest (v.header.round - 1) a)}) := by
  have hchecked : Checked node s := by
    clear hv hround hskip
    induction events using List.reverseRecOn generalizing s with
    | nil =>
      cases hrun
      exact fun _ hv => nomatch hv
    | append_singleton events e ih =>
      obtain ⟨before, hbefore, hstep⟩ := run_concat.mp hrun
      exact (ih before hbefore hgenuine.of_append).step
        (fun input he => hgenuine.last input before he hbefore) hstep
  obtain ⟨hheader, hcheck⟩ := hchecked v hv
  have hpred : wrapping_pred v.header.round = v.header.round - 1 := if_neg (by omega)
  obtain ⟨-, -, hverify⟩ := check_parents_ok hcheck
  rw [hpred] at hverify
  obtain ⟨htimeout, hno_vote⟩ := hverify hskip
  exact ⟨quorum_signed hu htimeout (hheader.timeouts htimeout),
    fun hleader => quorum_signed hu (hno_vote hleader)
      (hheader.no_votes hleader (hno_vote hleader))⟩

end Core

/-! ## A skip without a quorum -/

/-- The node of authority 1. -/
def skip_node : Node := { name := 1, committee := .four, gc_depth := 50 }

/-- A header of the leader of round 1 without the genesis certificate of authority 1, which leads
round 0. The signatures are the ones of its two certificates. -/
def skipping (timeouts no_votes : List (PublicKey × Signature)) : Header :=
  let parents := ExtTreeSet.ofList (([2, 3, 4].map Certificate.genesis_of).map Certificate.digest)
  let timeout_cert : TimeoutCert := { round := 0, timeouts }
  let no_vote_cert : NoVoteCert := { round := 0, no_votes }
  { Header.default with author := 2, round := 1, parents, timeout_cert, no_vote_cert }.signed

end

namespace Core

section

attribute [local instance] crypto.sample

/-- The certificates of this header are made of signatures of authorities 1, 2 and 3. -/
def backed : Header :=
  skipping ([1, 2, 3].map fun a => (a, Crypto.sign a (timeout_digest 0 a)))
    ([1, 2, 3].map fun a => (a, Crypto.sign a (no_vote_digest 0 a)))

def backed_state : Core :=
  (run skip_node .empty [.input (.primaries (.header backed))]).get (by decide +kernel)

theorem skipped_leader_has_signed_quorums_backed :
    ∃ v ∈ backed_state.voted, v.header = backed ∧ Committee.four.quorum_threshold ≤
      Committee.four.weight
        {a | ∃ sig : Signature, sig.verify (timeout_digest 0 a) a = true} := by
  have hany : backed_state.voted.any (fun v => v.header == backed &&
      v.parents.all fun x => x.origin != Committee.four.leader 0) = true := by decide +kernel
  obtain ⟨v, hv, hcheck⟩ := List.any_eq_true.mp hany
  simp only [Bool.and_eq_true, beq_iff_eq, List.all_eq_true, bne_iff_ne] at hcheck
  obtain ⟨heq, hskip⟩ := hcheck
  have hround : v.header.round = 1 := by rw [heq]; rfl
  have hall := skipped_leader_has_signed_quorums
    (fun a digest => ∃ sig : Signature, sig.verify digest a = true)
    (fun _ _ sig h => ⟨sig, h⟩) skip_node .empty [.input (.primaries (.header backed))]
    backed_state (by simp [backed_state]) ?_ v hv (by omega) (by rw [hround]; exact hskip)
  · rw [hround] at hall
    exact ⟨v, hv, heq, hall.1⟩
  · -- the only event brings a header whose signatures are valid
    intro pre e post hsplit input before hinput _
    have hm : e ∈ [Event.input (.primaries (.header backed))] := by simp [hsplit]
    rw [List.mem_singleton.mp hm] at hinput
    cases hinput
    refine fun _ => ⟨⟨fun _ => ?_, fun _ _ => ?_⟩, fun hown => ?_⟩
    · exact List.all_eq_true.mp (by decide +kernel)
    · exact List.all_eq_true.mp (by decide +kernel)
    · exact absurd hown (by decide +kernel)

/-- The two certificates of this header name authorities 1, 2 and 3, with signatures of zeros. -/
def unbacked : Header := skipping ([1, 2, 3].map (·, .default)) ([1, 2, 3].map (·, .default))

end

/-- The author of the header signed it. Nobody signed a timeout or a no-vote message. -/
@[reducible] def unbacked_crypto : Crypto := crypto.sample_for [unbacked.id]

section

attribute [local instance] unbacked_crypto

theorem leader_is_skipped_without_a_quorum :
    ∃ Signed, Unforgeable Signed ∧ ∃ s,
      run skip_node .empty [.input (.primaries (.header unbacked))] = some s ∧ ∃ v ∈ s.voted,
        v.header = unbacked ∧ (∀ x ∈ v.parents, x.origin ≠ Committee.four.leader 0) ∧
        unbacked.author = Committee.four.leader unbacked.round ∧
        Committee.four.weight {a | Signed a (timeout_digest 0 a)} <
          Committee.four.quorum_threshold ∧
        Committee.four.weight {a | Signed a (no_vote_digest 0 a)} <
          Committee.four.quorum_threshold := by
  refine ⟨fun a digest => ∃ sig : Signature, sig.verify digest a = true, fun _ _ sig h => ⟨sig, h⟩,
    (run skip_node .empty [.input (.primaries (.header unbacked))]).get (by decide +kernel),
    by simp, ?_⟩
  have hany : ((run skip_node .empty [.input (.primaries (.header unbacked))]).get
      (by decide +kernel)).voted.any (fun v => v.header == unbacked &&
        v.parents.all fun x => x.origin != Committee.four.leader 0) = true := by decide +kernel
  obtain ⟨v, hv, hcheck⟩ := List.any_eq_true.mp hany
  simp only [Bool.and_eq_true, beq_iff_eq, List.all_eq_true, bne_iff_ne] at hcheck
  -- a digest that is not the id of the header has no valid signature
  have hnone : ∀ digest : PublicKey → Digest,
      (Committee.four.keys.all fun a => digest a != unbacked.id) = true →
      Committee.four.weight {a | ∃ sig : Signature, sig.verify (digest a) a = true} = 0 := by
    intro digest hne
    apply Nat.le_zero.mp
    rw [← Committee.weight_empty (c := .four)]
    apply voting.weight_mono
    rintro a ha ⟨sig, hsig⟩
    have ha' := List.all_eq_true.mp hne a (List.mem_toFinset.mp ha)
    unfold Signature.verify at hsig
    rw [Bool.and_eq_true] at hsig
    have hstrict : (sig.part1 == a && sig.part2 == digest a && [unbacked.id].contains (digest a)) =
      true := hsig.2
    simp only [Bool.and_eq_true, List.contains_iff_mem, List.mem_singleton] at hstrict
    exact absurd hstrict.2 (bne_iff_ne.mp ha')
  rw [hnone _ (by decide +kernel), hnone _ (by decide +kernel)]
  exact ⟨v, hv, hcheck.1, hcheck.2, by decide +kernel, by decide +kernel, by decide +kernel⟩

end

end Core

end sailfish.primary
