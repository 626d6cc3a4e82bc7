-- The law of batch requests: a batch that the primary asks for is requested until it is in
-- the store, or the primary no longer needs it.
import Mathlib
import Sailfish.Worker

open Std splits sailfish.crypto sailfish.config

namespace sailfish.worker

namespace Worker

section

variable [Crypto] [Bincode] {node : Node} {store : ExtTreeMap Digest Bytes} {s s' : Worker} {e : Event}
  {events post : List Event} {d : Digest} {x : Pending}

/-- The synchronizer stays, or it makes the step of its event. -/
theorem synchronizer_of_change (h : Change node s e s') :
    s'.synchronizer = s.synchronizer ∨ ∃ e', e = .synchronizer e' ∧
      s.synchronizer.step node s.store e' = some s'.synchronizer := by
  cases h with
  | make_batch | receive | resolve | process_own | process_others => exact Or.inl rfl
  | @dispatch serialized =>
    obtain ⟨rx_batch, rx_request, heq⟩ := s.dispatch_eq serialized
    rw [heq]
    exact Or.inl rfl
  | @help digests origin rx_request =>
    obtain ⟨answers, heq⟩ := answer_eq node { s with rx_request } digests origin
    rw [heq]
    exact Or.inl rfl
  | synchronizer hstep => exact Or.inr ⟨_, rfl, hstep⟩

/-- What is stored stays in the store. -/
theorem store_of_change (h : Change node s e s') (hd : d ∈ s.store) : d ∈ s'.store := by
  cases h with
  | make_batch | receive | resolve | synchronizer => exact hd
  | process_own | process_others => exact mem_insert_of_mem hd
  | @dispatch serialized =>
    obtain ⟨rx_batch, rx_request, heq⟩ := s.dispatch_eq serialized
    rw [heq]
    exact hd
  | @help digests origin rx_request =>
    obtain ⟨answers, heq⟩ := answer_eq node { s with rx_request } digests origin
    rw [heq]
    exact hd

theorem live_of_change (hlive : s.synchronizer.Live) (h : Change node s e s') :
    s'.synchronizer.Live := by
  rcases synchronizer_of_change h with heq | ⟨e', -, hstep⟩
  · rw [heq]
    exact hlive
  · exact (Synchronizer.awaits_of_step hlive hstep).1

theorem live_of_run (hrun : run node store events = some s) : s.synchronizer.Live := by
  induction events using List.reverseRecOn generalizing s with
  | nil =>
    cases hrun
    exact Synchronizer.live_spawn
  | append_singleton events e ih =>
    obtain ⟨before, hbefore, hstep⟩ := run_concat.mp hrun
    exact live_of_change (ih hbefore) (change_of_step hstep)

/-- Among the events after some others, a cleanup dropped the request for the batch. -/
def Collected (node : Node) (store : ExtTreeMap Digest Bytes) (events post : List Event) (d : Digest) :
    Prop :=
  ∃ mid e rest before x, post = mid ++ .synchronizer e :: rest ∧
    run node store (events ++ mid) = some before ∧ before.synchronizer.pending[d]? = some x ∧
    Synchronizer.Collects node e x

/-- From the moment it is pending, a batch is stored, awaited or collected. -/
theorem settled_of_run (hrun : run node store (events ++ post) = some s) {before : Worker}
    (hbefore : run node store events = some before) (hd : d ∈ before.synchronizer.pending) :
    d ∈ s.store ∨ (∃ x, s.synchronizer.Awaits d x) ∨ Collected node store events post d := by
  induction post using List.reverseRecOn generalizing s with
  | nil =>
    rw [List.append_nil, hbefore] at hrun
    cases hrun
    obtain ⟨x, hx⟩ := Option.isSome_iff_exists.mp (ExtTreeMap.mem_iff_isSome_getElem?.mp hd)
    exact Or.inr (Or.inl ⟨x, live_of_run hbefore d x hx⟩)
  | append_singleton post e ih =>
    rw [← List.append_assoc] at hrun
    obtain ⟨last, hlast, hstep⟩ := run_concat.mp hrun
    have hchange := change_of_step hstep
    rcases ih hlast with hstored | ⟨x, hx⟩ | ⟨mid, e', rest, first, x, rfl, hcollected⟩
    · exact Or.inl (store_of_change hchange hstored)
    · rcases synchronizer_of_change hchange with heq | ⟨e', rfl, hsync⟩
      · rw [heq]
        exact Or.inr (Or.inl ⟨x, hx⟩)
      · obtain ⟨hlive, hkept⟩ := Synchronizer.awaits_of_step (live_of_run hlast) hsync
        rcases hkept d x hx.1 with hx' | hstored | hcollects
        · exact Or.inr (Or.inl ⟨x, hlive d x hx'⟩)
        · exact Or.inl (store_of_change hchange hstored)
        · exact Or.inr (Or.inr ⟨post, e', [], last, x, rfl, hlast, hx.1, hcollects⟩)
    · exact Or.inr (Or.inr ⟨mid, e', rest ++ [e], first, x, by simp, hcollected⟩)

theorem step_synchronizer {e : Synchronizer.Event} : step node s (.synchronizer e) = some s' ↔
    ∃ synchronizer, s.synchronizer.step node s.store e = some synchronizer ∧
      { s with synchronizer } = s' := by
  simp [step, Option.bind_eq_some_iff]

/-- For every run of a worker, and every batch of a command to synchronize: after any further events
the batch is in the store, or a waiter waits for it, or it was pending at a cleanup of a round that
is at least the depth of the garbage collection beyond the round of its request. The target of the
command is asked for it unless it was stored or pending before. While a waiter waits for it, a
timer past the delay asks as many other workers as the parameters say, and once it is in the store
the waiter can end. -/
theorem requested_batches_are_awaited (node : Node) (store : ExtTreeMap Digest Bytes)
    (pre post : List Event) (digests : List Digest) (target : PublicKey) (now : ℕ)
    (before after s : Worker) (hbefore : run node store pre = some before)
    (hafter : run node store
      (pre ++ [.synchronizer (.message (.Synchronize digests target) now)]) = some after)
    (hrun : run node store
      (pre ++ [.synchronizer (.message (.Synchronize digests target) now)] ++ post) = some s)
    (d : Digest) (hd : d ∈ digests) :
    (d ∈ s.store ∨ (∃ x, s.synchronizer.Awaits d x) ∨ Collected node store
      (pre ++ [.synchronizer (.message (.Synchronize digests target) now)]) post d) ∧
    ((node.committee.worker target node.id).toBool = true → d ∉ before.store →
      d ∉ before.synchronizer.pending → ∃ missing, d ∈ missing ∧ after.synchronizer.sent =
        before.synchronizer.sent ++ [(target, .BatchRequest missing node.name)]) ∧
    ∀ x, s.synchronizer.Awaits d x →
      (∀ now' addresses s', step node s (.synchronizer (.timer now' addresses)) = some s' →
        x.timestamp + node.sync_retry_delay < now' →
        addresses.length = min node.sync_retry_nodes
          (node.committee.others_workers node.name node.id).length ∧
        ∀ name ∈ addresses, ∃ request, d ∈ request ∧ (name, .BatchRequest request node.name) ∈
          s'.synchronizer.sent.drop s.synchronizer.sent.length) ∧
      (d ∈ s.store → ∃ i s', step node s (.synchronizer (.delivered i)) = some s' ∧
        d ∉ s'.synchronizer.pending) := by
  obtain ⟨_, hbefore', hstep⟩ := run_concat.mp hafter
  rw [hbefore] at hbefore'
  cases hbefore'
  obtain ⟨synchronizer, hsync, rfl⟩ := step_synchronizer.mp hstep
  cases hsync
  obtain ⟨hpending, hasked⟩ := Synchronizer.pending_of_synchronize node before.store
    before.synchronizer digests target now
  refine ⟨settled_of_run hrun hafter (hpending d hd), fun htarget hstored hnew => ?_,
    fun x hx => ⟨fun now' addresses s' htimer hdelay => ?_, fun hstored => ?_⟩⟩
  · obtain ⟨missing, hsent, hmissing⟩ := hasked htarget
    exact ⟨missing, (hmissing d).mpr ⟨hd, hstored, hnew⟩, hsent⟩
  · obtain ⟨synchronizer, hsync, rfl⟩ := step_synchronizer.mp htimer
    exact ⟨Synchronizer.length_of_timer hsync,
      fun name hname => Synchronizer.asks_of_timer hsync hx.1 hdelay hname⟩
  · obtain ⟨i, synchronizer, hsync, hnot⟩ := Synchronizer.delivers_of_awaits node hx hstored
    exact ⟨i, _, step_synchronizer.mpr ⟨synchronizer, hsync, rfl⟩, hnot⟩

end

section

attribute [local instance] crypto.sample one_bincode

/-- The primary asks for a batch of authority 2. -/
def asks_once : List Event := [.synchronizer (.message (.Synchronize [9] 2) 1)]

def asks_once_state : Worker := (run first_worker ∅ asks_once).get (by decide +kernel)

def asks_again : List Event := [.synchronizer (.timer 6000 [4, 2, 3])]

def asks_again_state : Worker :=
  (run first_worker ∅ (asks_once ++ asks_again)).get (by decide +kernel)

theorem requested_batches_are_awaited_again :
    asks_again_state.synchronizer.sent =
      ([2, 4, 2, 3].map fun (name : PublicKey) => (name, .BatchRequest [9] 1)) ∧
    (9 ∈ asks_again_state.store ∨ (∃ x, asks_again_state.synchronizer.Awaits 9 x) ∨
      Collected first_worker ∅ asks_once asks_again 9) :=
  ⟨by decide +kernel, (requested_batches_are_awaited first_worker ∅ [] asks_again [9] 2 1
    (spawn first_worker ∅) asks_once_state asks_again_state rfl (Option.some_get _).symm
    (Option.some_get _).symm 9 List.mem_cons_self).1⟩

end

end Worker

end sailfish.worker
