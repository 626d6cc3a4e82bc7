-- The law of supported leaders: a leader above the last committed round with f+1
-- support in the whole dag is linked to every certificate two rounds later or
-- more, so the next commit takes it, unless the leader right after it skips it.
import Mathlib
import Sailfish.ValidDag

open Std Relation splits sailfish.crypto sailfish.config sailfish.primary

namespace sailfish.consensus

section

variable [Crypto]

/-! ## The chain of leaders of the whole dag -/

/-- `y` is the certificate of a leader, and `y` is `x` or an ancestor of `x`. -/
def LinkIn (committee : Committee) (D : Set Certificate) (x y : Certificate) : Prop :=
  y ∈ D ∧ y.origin = committee.leader y.round ∧ Ancestor D x y

/-- The leaders above `floor` that are linked, from one to the next, in the whole dag. -/
abbrev ChainIn (committee : Committee) (D : Set Certificate) :
    ℕ → Certificate → List Certificate → Prop :=
  layered.Chain Certificate.round (LinkIn committee D)

variable {committee : Committee} {D : Set Certificate} {l : List Certificate}

theorem ValidDag.link_unique (hD : ValidDag committee D) (a b c : Certificate)
    (hb : LinkIn committee D a b) (hc : LinkIn committee D a c) (hr : b.round = c.round) :
    b = c :=
  hD.unique b hb.1 c hc.1 hr (by rw [hb.2.1, hc.2.1, hr])

section View

variable {gc_depth : ℕ} {Ok : State → List Commit → Certificate → Prop} {s : State}
  {commits : List Commit} (hD : ValidDag committee D) (hl : Received committee D l)
  (h : Trace committee gc_depth Ok l s commits)

include hD hl h

theorem Trace.link_iff {x y : Certificate} (hx : x ∈ l)
    (hy : s.last_committed_round < y.round) : s.dag.Link committee x y ↔ LinkIn committee D x y := by
  have hpath := h.path_iff hD hl hx hy
  constructor
  · rintro ⟨hleader, hp⟩
    obtain ⟨hm, -, horigin⟩ := (h.entry_iff hD hl hy).mp hleader
    exact ⟨hl.mem y hm, horigin, hpath.mp hp⟩
  · rintro ⟨-, horigin, hp⟩
    exact ⟨(h.entry_iff hD hl hy).mpr ⟨hl.ancestor hx hp, rfl, horigin⟩, hpath.mpr hp⟩

/-- The chain that a node sees is the one of the whole dag. -/
theorem Trace.chain_in {x : Certificate} {chain : List Certificate} (hx : x ∈ l)
    (hc : s.dag.Chain committee s.last_committed_round x chain) :
    ChainIn committee D s.last_committed_round x chain := by
  refine layered.Chain.congr (P := (· ∈ l)) ?_ (fun a b ha hb _ => h.link_iff hD hl ha hb) hc hx
  intro a b ha hb hlink
  exact hl.ancestor ha ((h.link_iff hD hl ha hb).mp hlink).2.2

end View

end

section

attribute [local instance] crypto.sample

/-- The four certificates of round 1. The one of the leader is the one of authority 2. -/
def first_round : List Certificate :=
  [1, 2, 3, 4].map fun n => .sample n 1 (Certificate.genesis .four)

/-- A certificate of round 2 whose parents are the ones of three authorities. -/
def second_round (author : PublicKey) (names : List PublicKey) : Certificate :=
  .sample author 2 (first_round.filter fun c => c.origin ∈ names)

/-- Two certificates of round 2 list the leader of round 1. A node that receives one of them
only does not commit it. -/
def half_seen : List Certificate :=
  let later := [second_round 2 [1, 3, 4], second_round 3 [1, 2, 3], second_round 4 [1, 3, 4]]
  first_round ++ later ++ [.sample 1 3 later]

def half_seen_state : Consensus :=
  (Consensus.run .four 50 (half_seen.map .certificate)).get (by decide +kernel)

/-- A committee of one authority, which makes one certificate a round. -/
def single : Committee := .sample [(1, 1)] (List.cons_ne_nil _ _)

end

end sailfish.consensus
