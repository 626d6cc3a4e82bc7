-- The law of honest headers: whatever header of an honest author reaches an honest primary,
-- its proposer made it, and it makes one for a round.
import Mathlib
import Sailfish.HonestDag

open Std splits sailfish.crypto sailfish.config sailfish.consensus

namespace sailfish.primary

theorem Core.Holds.imp {P Q : Header → Prop} {s : Core} (h : Core.Holds P s)
    (hPQ : ∀ header, P header → Q header) : Core.Holds Q s where
  sent := by
    intro output ho
    have hP := h.sent output ho
    cases output with
    | consensus_header | consensus | header_waiter | certificate_waiter => exact hPQ _ hP
    | proposer | timeout_cert | no_vote_cert | network => trivial
  current := hPQ _ h.current

namespace Primary

section

variable [Crypto] {node : Node} {header_size : ℕ} {s s' : Primary} {e : Event}

/-! ## The headers of a proposer -/

/-- The proposer of a primary keeps the headers that it made, and may make one of a new round. -/
theorem made_of_change (h : step node header_size s e = some s') :
    s'.proposer.made = s.proposer.made ∨ ∃ m, s'.proposer.made = s.proposer.made ++ [m] ∧
      m.header.round = wrapping_succ s.proposer.round := by
  cases change_of_step h with
  | core _ hproposer | core_receives _ _ hproposer => exact Or.inl (by rw [hproposer])
  | elapse _ hproposer => exact Or.inl (by rw [hproposer])
  | propose _ hproposer =>
    rw [hproposer, Proposer.made_propose]
    split
    · exact Or.inr ⟨_, rfl, rfl⟩
    · exact Or.inl (List.append_nil _)
  | receive message _ _ _ hproposer =>
    rw [hproposer]
    exact Or.inl (Proposer.receive_eq node.committee s.proposer message).2.1

theorem made_mono (h : step node header_size s e = some s') {m : Made}
    (hm : m ∈ s.proposer.made) : m ∈ s'.proposer.made := by
  rcases made_of_change h with heq | ⟨m', heq, -⟩
  · rw [heq]
    exact hm
  · rw [heq]
    exact List.mem_append_left _ hm

/-- The rounds of the headers grow. -/
theorem made_pairwise {store : Store} {events : List Event}
    (hfit : NeverWraps node header_size store events)
    (hrun : run node header_size store events = some s) :
    s.proposer.made.Pairwise fun m m' => m.header.round < m'.header.round := by
  induction events using List.reverseRecOn generalizing s with
  | nil =>
    cases hrun
    exact List.Pairwise.nil
  | append_singleton events e ih =>
    obtain ⟨before, hbefore, hstep⟩ := run_concat.mp hrun
    rcases made_of_change hstep with heq | ⟨m, heq, hround⟩
    · rw [heq]
      exact ih hfit.of_append hbefore
    · rw [heq, List.pairwise_append]
      refine ⟨ih hfit.of_append hbefore, List.pairwise_singleton _ _, fun m' hm' x hx => ?_⟩
      have hle := (growing_of_run hfit.of_append hbefore).made m' hm'
      rw [List.mem_singleton.mp hx, hround, wrapping_succ_of_lt (hfit.last before hbefore)]
      omega

theorem made_unique {store : Store} {events : List Event}
    (hfit : NeverWraps node header_size store events)
    (hrun : run node header_size store events = some s) {m m' : Made} (hm : m ∈ s.proposer.made)
    (hm' : m' ∈ s.proposer.made) (hround : m.header.round = m'.header.round) : m = m' := by
  have hsymm : Std.Symm fun m m' : Made => m.header.round ≠ m'.header.round :=
    ⟨fun _ _ h => h.symm⟩
  by_contra hne
  exact ((made_pairwise hfit hrun).imp Nat.ne_of_lt).forall hm hm' hne hround

/-! ## The headers that a core processes -/

/-- A header that passes its check, or that the proposer made. The others are of round 0. -/
def Vouched (node : Node) (made : List Made) (header : Header) : Prop :=
  header.verify node.committee = .ok () ∨ (∃ m ∈ made, m.header = header) ∨ header.round = 0

theorem vouched_enters (node : Node) (made : List Made) :
    Core.Enters node (fun header => ∃ m ∈ made, m.header = header) (Vouched node made) where
  start := Or.inr (Or.inr rfl)
  own := fun _ h => Or.inr (Or.inl h)
  header := fun _ h => Or.inl h
  certificate := by
    intro certificate h
    rcases hgenesis : (Certificate.genesis node.committee).any certificate.eq with _ | _
    · exact Or.inl (Certificate.verify_ok h hgenesis).1
    · obtain ⟨g, hg, heq⟩ := List.any_eq_true.mp hgenesis
      obtain ⟨name, -, rfl⟩ := Certificate.mem_genesis.mp hg
      exact Or.inr (Or.inr (Certificate.eq_iff.mp heq).2.1)

/-- What waits for the core is made, and what the core holds is vouched for. -/
structure Vouches (node : Node) (s : Primary) : Prop where
  to_core : ∀ header, .proposer header ∈ s.to_core → ∃ m ∈ s.proposer.made, m.header = header
  core : Core.Holds (Vouched node s.proposer.made) s.core

theorem vouches_spawn {store : Store} : Vouches node (spawn node store) where
  to_core := fun _ hm => absurd hm List.not_mem_nil
  core := ⟨fun _ ho => absurd ho List.not_mem_nil, (vouched_enters node _).start⟩

theorem Vouches.step (h : Vouches node s) (hfrom : s.FromTasks e)
    (hstep : step node header_size s e = some s')
    (horderly : Proposer.Orderly node.name node.committee s'.proposer) : Vouches node s' := by
  have hown : ∀ header, .proposer header ∈ s.to_core → ∃ m ∈ s'.proposer.made, m.header = header := by
    intro header hm
    obtain ⟨m, hm, heq⟩ := h.to_core header hm
    exact ⟨m, made_mono hstep hm, heq⟩
  have hcore : Core.Holds (Vouched node s'.proposer.made) s.core := by
    refine h.core.imp fun header hvouched => hvouched.imp_right (Or.imp_left ?_)
    rintro ⟨m, hm, heq⟩
    exact ⟨m, made_mono hstep hm, heq⟩
  constructor
  · intro header hm
    rcases mem_to_core_of_step hstep hm with hm | hm
    · exact hown header hm
    · have hsent : header ∈ Proposer.headers s'.proposer.sent :=
        List.mem_filterMap.mpr ⟨_, hm, rfl⟩
      rw [horderly.sent_headers] at hsent
      exact List.mem_map.mp hsent
  · rcases core_of_step hstep with heq | ⟨e', hstep', hinput⟩
    · rw [heq]
      exact hcore
    · exact hcore.step (vouched_enters node _)
        (fun input he => arrives_of_input hown hfrom (hinput input he)) hstep'

end

end Primary

namespace System

section

variable [Crypto] {sys : System} {honest : Set PublicKey}
  {events : List (PublicKey × Primary.Event)} {s : PublicKey → Primary} {name : PublicKey}
  {header : Header}

theorem HonestRun.vouches (h : HonestRun sys honest events s) (hname : name ∈ honest) :
    Primary.Vouches (sys.node name) (s name) := by
  refine parties.invariant_of_run
    (I := fun name s => name ∈ honest → Primary.Vouches (sys.node name) s) h.run ?_ ?_ name hname
  · exact fun _ _ => Primary.vouches_spawn
  · exact h.from_tasks.imp fun pre e hr before t hbefore hstep hI hm =>
      (hI hm).step (hr before hbefore hm) hstep
        (Primary.orderly_of_run (Primary.run_concat.mpr ⟨_, primary_of_run hbefore e.1, hstep⟩))

omit [Crypto] in
/-- The header went to the consensus of an honest primary, alone or in a certificate. -/
def Seen (honest : Set PublicKey) (s : PublicKey → Primary) (header : Header) : Prop :=
  (∃ name ∈ honest, .consensus_header header ∈ (s name).core.sent) ∨
    ∃ c, Handed honest s c ∧ c.header = header

/-- What an honest primary signed has the digest of a header that is seen only when it is that
header. No honest key is the id of a header that it voted for. -/
structure DistinctHeaders (sys : System) (honest : Set PublicKey) (s : PublicKey → Primary) :
    Prop where
  bytes : ∀ name ∈ honest, ∀ header, Seen honest s header → ∀ bytes ∈ (s name).signed_bytes name,
    Crypto.sha512 bytes = header.digest → bytes = header.bytes
  made : ∀ name ∈ honest, ∀ header, Seen honest s header → ∀ m ∈ (s name).proposer.made,
    m.header.digest = header.digest → m.header.Agrees header
  keys : ∀ name ∈ honest, ∀ v ∈ (s name).core.voted, v.vote.id ∉ honest

/-- An honest author has made each header that passes the check under its name, when it has
parents. -/
theorem HonestRun.made_of_verify (h : HonestRun sys honest events s)
    (hd : DistinctHeaders sys honest s) (hseen : Seen honest s header)
    (hauthor : header.author ∈ honest) (hok : header.verify sys.committee = .ok ())
    (hparents : header.parents.toList ≠ []) :
    ∃ m ∈ (s header.author).proposer.made, m.header.Agrees header := by
  obtain ⟨hid, -, -, hsignature⟩ := Header.verify_ok hok
  have hsigned := h.unforged _ _ _ hsignature hauthor
  rw [Primary.signed_eq, ← hid] at hsigned
  obtain ⟨bytes, hbytes, hsha⟩ := List.mem_map.mp hsigned
  obtain rfl := hd.bytes _ hauthor header hseen bytes hbytes hsha
  unfold Primary.signed_bytes at hbytes
  simp only [List.mem_append, List.mem_map, or_assoc] at hbytes
  rcases hbytes with ⟨m, hm, heq⟩ | ⟨t, -, heq⟩ | ⟨m, -, heq⟩ | ⟨r, -, heq⟩ | ⟨v, hv, heq⟩
  · exact ⟨m, hm, hd.made _ hauthor header hseen m hm (congrArg Crypto.sha512 heq)⟩
  · exact absurd heq.symm (Header.bytes_ne hparents _ _)
  · exact absurd heq.symm (Header.bytes_ne hparents _ _)
  · exact absurd heq.symm (Header.bytes_ne hparents _ _)
  · -- a vote, which would have the key of its author as its id
    rw [Vote.bytes, List.append_assoc] at heq
    exact absurd (Header.author_of_bytes heq.symm ▸ hauthor) (hd.keys _ hauthor v hv)

/-- What a header of an honest author lists, its certificate lists. -/
theorem HonestRun.lists_of_seen (h : HonestRun sys honest events s) (hd : Distinct sys honest s)
    (hh : DistinctHeaders sys honest s) (hname : name ∈ honest)
    (hsent : .consensus_header header ∈ (s name).core.sent) (hauthor : header.author ∈ honest)
    {c : Certificate} (hc : Handed honest s c) (hround : c.round = header.round)
    (horigin : c.origin = header.author) : ∀ d ∈ header.parents, d ∈ c.header.parents := by
  intro d hdh
  have hparents : header.parents.toList ≠ [] :=
    List.ne_nil_of_mem (ExtTreeSet.mem_toList.mpr hdh)
  obtain ⟨m, hm, hagrees⟩ : ∃ m ∈ (s header.author).proposer.made, m.header.Agrees header := by
    rcases (h.vouches hname).core.sent _ hsent with hok | ⟨m, hm, rfl⟩ | hzero
    · exact h.made_of_verify hh (Or.inl ⟨name, hname, hsent⟩) hauthor hok hparents
    · obtain ⟨_, _, _, _, _, hmade⟩ :=
        (Primary.makes_of_run (primary_of_run h.run name)).made m hm
      have hown : m.header.author = name := by
        rw [hmade]
        rfl
      exact ⟨m, hown ▸ hm, ⟨rfl, rfl, rfl, rfl⟩⟩
    · have := h.round_pos hd hc
      omega
  obtain ⟨m', hm', hagrees'⟩ : ∃ m ∈ (s c.origin).proposer.made, m.header.Agrees c.header := by
    have hcertified := hd.certified c hc
    have hcauthor : c.header.author ∈ honest := (show c.header.author = _ from horigin) ▸ hauthor
    obtain ⟨ps, hps⟩ := h.parents hd hc
    obtain ⟨p, hp⟩ := hps.exists_mem
    apply h.made_of_verify hh (Or.inr ⟨c, hc, rfl⟩) hcauthor
      (Certificate.verify_ok hcertified.accepted hcertified.not_genesis).1
    rw [← hps.digests]
    exact List.ne_nil_of_mem (List.mem_map_of_mem hp)
  rw [horigin] at hm'
  obtain rfl := Primary.made_unique (h.rounds.proposers _ hauthor)
    (primary_of_run h.run header.author) hm hm' (by rw [hagrees.round, hagrees'.round, ← hround]; rfl)
  rw [← hagrees'.parents, hagrees.parents]
  exact hdh

end

end System

end sailfish.primary
