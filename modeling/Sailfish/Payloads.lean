-- The law of payloads: the digests of our workers go into the headers in the order in which
-- they came, and each of them into one header.
import Mathlib
import Sailfish.Primary

open Std sailfish.crypto sailfish.config

namespace sailfish.primary

namespace Proposer

/-- The digest that a message brings, with its worker. -/
def Message.batches : Message → List (Digest × ℕ)
  | .worker digest worker_id => [(digest, worker_id)]
  | .core _ _ | .timeout_cert _ _ | .no_vote_cert _ _ | .timer => []

/-- The digests that were received split into those of each header, in order, and those that wait
for the next one. A digest counts for the size with its 32 bytes. -/
structure Packs (received : List (Digest × ℕ)) (s : Proposer) : Prop where
  chunks : ∃ chunks, chunks.flatten ++ s.digests = received ∧
    List.Forall₂ (fun m chunk => m.header.payload = ExtTreeMap.ofList chunk) s.made chunks
  size : s.payload_size = 32 * s.digests.length

variable {received : List (Digest × ℕ)} {s s' : Proposer}

theorem packs_spawn {committee : Committee} : Packs [] (spawn committee) where
  chunks := ⟨[], rfl, .nil⟩
  size := rfl

theorem Packs.same (h : Packs received s) (hdigests : s'.digests = s.digests)
    (hsize : s'.payload_size = s.payload_size) (hmade : s'.made = s.made) : Packs received s' := by
  obtain ⟨hchunks, hlength⟩ := h
  exact ⟨by rwa [hdigests, hmade], by rw [hdigests, hsize, hlength]⟩

theorem Packs.stays (h : Packs received s) (hdigests : s'.digests = s.digests)
    (hsize : s'.payload_size = s.payload_size) (hmade : s'.made = s.made) :
    Packs (received ++ []) s' := by
  rw [List.append_nil]
  exact h.same hdigests hsize hmade

theorem Packs.propose [Crypto] (h : Packs received s) (name : PublicKey) (committee : Committee)
    (header_size : ℕ) : Packs received (propose name committee header_size s) := by
  have hmade : (Proposer.propose name committee header_size s).made = _ := made_propose
  rcases propose_cases name committee header_size s with
    ⟨hready, sent, timeout_sent, heq, -⟩ | ⟨hready, sent, made, heq, -⟩
  · rw [if_neg (Bool.eq_false_iff.mp hready), List.append_nil] at hmade
    refine h.same ?_ ?_ hmade
    · rw [heq]
    · rw [heq]
  · rw [if_pos hready] at hmade
    obtain ⟨⟨chunks, hreceived, hchunks⟩, hlength⟩ := h
    refine ⟨⟨chunks ++ [s.digests], ?_, ?_⟩, ?_⟩
    · rw [heq, List.flatten_append, ← hreceived]
      simp
    · rw [hmade]
      exact List.rel_append hchunks (.cons rfl .nil)
    · rw [heq]
      rfl

theorem Packs.receive (h : Packs received s) (committee : Committee) (message : Message) :
    Packs (received ++ message.batches) (receive committee s message) := by
  cases message with
  | worker digest worker_id =>
    obtain ⟨⟨chunks, hreceived, hchunks⟩, hlength⟩ := h
    refine ⟨⟨chunks, ?_, hchunks⟩, ?_⟩
    · change chunks.flatten ++ (s.digests ++ [(digest, worker_id)]) = _
      rw [← List.append_assoc, hreceived]
      rfl
    · change s.payload_size + 32 = 32 * (s.digests ++ [_]).length
      rw [hlength, List.length_append, Nat.mul_add]
      rfl
  | core parents round =>
    unfold Proposer.receive
    dsimp only [update_leader]
    split <;> exact h.stays rfl rfl rfl
  | timeout_cert | no_vote_cert =>
    unfold Proposer.receive
    dsimp only
    split <;> exact h.stays rfl rfl rfl
  | timer =>
    exact h.stays rfl rfl rfl

end Proposer

namespace Primary

/-- The digests that the proposer received from our workers, in order. -/
def received (events : List Event) : List (Digest × ℕ) :=
  events.filterMap fun
    | .worker digest worker_id => some (digest, worker_id)
    | .core _ | .core_receives _ | .elapse | .propose | .timer | .proposer_receives _ => none

section

variable [Crypto] {node : Node} {header_size : ℕ} {s s' : Primary} {events : List Event} {e : Event}

omit [Crypto] in
theorem received_concat : received (events ++ [e]) = received events ++ received [e] :=
  List.filterMap_append

theorem packs_of_step {batches : List (Digest × ℕ)} (h : s.proposer.Packs batches)
    (hstep : step node header_size s e = some s') : s'.proposer.Packs (batches ++ received [e]) := by
  cases e with
  | core e =>
    unfold step at hstep
    dsimp only at hstep
    split at hstep
    · obtain ⟨-, hproposer, -⟩ := core_step_eq_some hstep
      rw [hproposer]
      exact h.stays rfl rfl rfl
    · cases hstep
  | core_receives channel =>
    unfold step at hstep
    simp only [Option.bind_eq_bind, Option.bind_eq_some_iff] at hstep
    obtain ⟨input, -, hstep⟩ := hstep
    obtain ⟨-, hproposer, -⟩ := core_step_eq_some hstep
    rw [hproposer]
    exact h.stays rfl rfl rfl
  | elapse =>
    cases hstep
    exact h.stays rfl rfl rfl
  | propose =>
    unfold step at hstep
    dsimp only at hstep
    split at hstep <;> cases hstep
    exact (h.propose node.name node.committee header_size).stays rfl rfl rfl
  | worker digest worker_id =>
    unfold step at hstep
    dsimp only at hstep
    split at hstep <;> cases hstep
    exact h.receive node.committee (.worker digest worker_id)
  | timer =>
    unfold step at hstep
    dsimp only at hstep
    split at hstep <;> cases hstep
    exact h.receive node.committee .timer
  | proposer_receives channel =>
    unfold step at hstep
    dsimp only at hstep
    split at hstep
    · simp only [Option.pure_def, Option.bind_eq_bind, Option.bind_eq_some_iff] at hstep
      obtain ⟨message, hfind, heq⟩ := hstep
      cases heq
      have hchannel := List.find?_some hfind
      rw [beq_iff_eq] at hchannel
      have hnone : message.batches = [] := by
        cases message with
        | worker => cases hchannel
        | core | timeout_cert | no_vote_cert | timer => rfl
      have hnext := h.receive node.committee message
      rw [hnone] at hnext
      exact hnext
    · cases hstep

theorem packs_of_run {store : Store} (hrun : run node header_size store events = some s) :
    s.proposer.Packs (received events) := by
  induction events using List.reverseRecOn generalizing s with
  | nil =>
    cases hrun
    exact Proposer.packs_spawn
  | append_singleton events e ih =>
    obtain ⟨before, hbefore, hstep⟩ := run_concat.mp hrun
    rw [received_concat]
    exact packs_of_step (ih hbefore) hstep

omit [Crypto] in
theorem mem_payload {m : Made} {chunk : List (Digest × ℕ)}
    (h : m.header.payload = ExtTreeMap.ofList chunk) {d : Digest} :
    d ∈ m.header.payload ↔ d ∈ chunk.map (·.1) := by
  rw [h, ExtTreeMap.mem_ofList, List.contains_iff_mem]

omit [Crypto] in
theorem exists_chunk {made : List Made} {chunks : List (List (Digest × ℕ))}
    (h : List.Forall₂ (fun m chunk => m.header.payload = ExtTreeMap.ofList chunk) made chunks)
    {m : Made} (hm : m ∈ made) : ∃ chunk ∈ chunks, m.header.payload = ExtTreeMap.ofList chunk := by
  induction h with
  | nil => cases hm
  | cons hpayload _ ih =>
    rcases List.mem_cons.mp hm with rfl | hm
    · exact ⟨_, List.mem_cons_self, hpayload⟩
    · obtain ⟨chunk, hchunk, heq⟩ := ih hm
      exact ⟨chunk, List.mem_cons_of_mem _ hchunk, heq⟩

omit [Crypto] in
/-- The payloads of different chunks of distinct digests have no digest in common. -/
theorem disjoint_of_chunks {made : List Made} {chunks : List (List (Digest × ℕ))}
    (h : List.Forall₂ (fun m chunk => m.header.payload = ExtTreeMap.ofList chunk) made chunks)
    (hnodup : (chunks.flatten.map (·.1)).Nodup) :
    made.Pairwise fun m m' => ∀ d ∈ m.header.payload, d ∉ m'.header.payload := by
  induction h with
  | nil => exact .nil
  | @cons m chunk made chunks hpayload hrest ih =>
    rw [List.flatten_cons, List.map_append, List.nodup_append] at hnodup
    refine .cons (fun m' hm' d hd hd' => ?_) (ih hnodup.2.1)
    obtain ⟨chunk', hchunk', hpayload'⟩ := exists_chunk hrest hm'
    rw [mem_payload hpayload] at hd
    rw [mem_payload hpayload'] at hd'
    refine hnodup.2.2 d hd d ?_ rfl
    obtain ⟨x, hx, rfl⟩ := List.mem_map.mp hd'
    exact List.mem_map_of_mem (List.mem_flatten.mpr ⟨chunk', hchunk', hx⟩)

/-- For every run of a primary: the digests that the proposer received from our workers are, in the
order in which they came, those of the payloads of the headers that it sent and then those that wait
for the next header. The size that it counts is the one of the digests that wait. When the digests
are different, no two headers have one in common. -/
theorem digests_go_into_one_header (node : Node) (header_size : ℕ) (store : Store)
    (events : List Event) (s : Primary) (hrun : run node header_size store events = some s) :
    (∃ chunks, chunks.flatten ++ s.proposer.digests = received events ∧
      List.Forall₂ (fun header chunk => header.payload = ExtTreeMap.ofList chunk)
        (Proposer.headers s.proposer.sent) chunks) ∧
    s.proposer.payload_size = 32 * s.proposer.digests.length ∧
    (((received events).map (·.1)).Nodup →
      (Proposer.headers s.proposer.sent).Pairwise (fun header header' =>
        ∀ d ∈ header.payload, d ∉ header'.payload) ∧
      ∀ header ∈ Proposer.headers s.proposer.sent, ∀ batch ∈ s.proposer.digests,
        batch.1 ∉ header.payload) := by
  obtain ⟨⟨chunks, hreceived, hchunks⟩, hsize⟩ := packs_of_run hrun
  rw [(orderly_of_run hrun).sent_headers, List.pairwise_map, List.forall_mem_map]
  refine ⟨⟨chunks, hreceived, List.forall₂_map_left_iff.mpr hchunks⟩, hsize, fun hnodup => ?_⟩
  rw [← hreceived, List.map_append, List.nodup_append] at hnodup
  refine ⟨disjoint_of_chunks hchunks hnodup.1, fun m hm batch hbatch hpayload => ?_⟩
  obtain ⟨chunk, hchunk, heq⟩ := exists_chunk hchunks hm
  rw [mem_payload heq] at hpayload
  obtain ⟨x, hx, hdigest⟩ := List.mem_map.mp hpayload
  refine hnodup.2.2 x.1 ?_ batch.1 (List.mem_map_of_mem hbatch) hdigest
  exact List.mem_map_of_mem (List.mem_flatten.mpr ⟨chunk, hchunk, hx⟩)

end

section

attribute [local instance] crypto.sample

/-- A header with the two digests that came goes out, and then a third digest comes. -/
def packs_two : List Event :=
  [.propose, .worker 7 0, .propose, .worker 8 1, .propose, .worker 9 0]

def packed_two : Primary :=
  (run { name := 3, committee := .four, gc_depth := 50 } 64 .empty packs_two).get (by decide +kernel)

theorem digests_go_into_one_header_two :
    received packs_two = [(7, 0), (8, 1), (9, 0)] ∧
    (Proposer.headers packed_two.proposer.sent).map (·.payload.toList) = [[(7, 0), (8, 1)]] ∧
    packed_two.proposer.payload_size = 32 ∧
    ∀ header ∈ Proposer.headers packed_two.proposer.sent, (9 : Digest) ∉ header.payload := by
  have hdigests : packed_two.proposer.digests = [(9, 0)] := by decide +kernel
  obtain ⟨-, hsize, hone⟩ := digests_go_into_one_header { name := 3, committee := .four, gc_depth := 50 }
    64 .empty packs_two packed_two (Option.some_get _).symm
  rw [hdigests] at hsize hone
  refine ⟨rfl, by decide +kernel, hsize, fun header hheader => ?_⟩
  exact (hone (by decide +kernel)).2 header hheader (9, 0) List.mem_cons_self

end

end Primary

end sailfish.primary
