-- The quorum waiter of a worker (`worker/src/quorum_waiter.rs`): it takes the batches of
-- the batch maker one after the other, and delivers a batch once enough authorities have
-- acknowledged it. The handlers of a broadcast are known by the authorities, and may
-- resolve in any order.
import Mathlib
import Sailfish.BatchMaker
import Sailfish.Config
import Sailfish.Lib.Splits

open splits sailfish.crypto sailfish.config

namespace sailfish.worker

/-- A batch that was taken from the channel, in the loop over its handlers. -/
structure Broadcast where
  batch : WorkerMessage
  /-- The handlers that have not resolved yet. -/
  wait_for_quorum : List PublicKey
  total_stake : ℕ
  /-- The authorities whose handlers have resolved. -/
  acks : List PublicKey
deriving DecidableEq

/-- The QuorumWaiter waits for 2f authorities to acknowledge reception of a batch. -/
structure QuorumWaiter where
  /-- What waits in the input channel. -/
  rx_message : List QuorumWaiterMessage
  /-- The batches that it is through with. -/
  finished : List Broadcast
  /-- The batch that it waits for, if any. -/
  waiting : Option Broadcast
  /-- What was sent to `tx_batch`. -/
  tx_batch : List WorkerMessage
deriving DecidableEq

namespace QuorumWaiter

def spawn : QuorumWaiter := { rx_message := [], finished := [], waiting := none, tx_batch := [] }

/-- Every batch that it took, in order. -/
def taken (s : QuorumWaiter) : List Broadcast := s.finished ++ s.waiting.toList

inductive Event
  /-- The batch maker sends a message to the channel. -/
  | message (message : QuorumWaiterMessage)
  /-- The task takes the next message. -/
  | receive
  /-- One of the handlers that are left resolves. -/
  | resolve (i : ℕ)
deriving DecidableEq

section

variable (committee : Committee) (stake : ℕ)

/-- What the loop over the handlers starts with. -/
def broadcast (m : QuorumWaiterMessage) : Broadcast :=
  { batch := m.batch, wait_for_quorum := m.handlers, total_stake := stake, acks := [] }

/-- The head of the main loop. -/
def receive (s : QuorumWaiter) : QuorumWaiter :=
  match s.rx_message with
  | [] => s
  | m :: rx_message =>
    { s with rx_message, finished := s.taken, waiting := some (broadcast stake m) }

/-- The handler of the authority resolves, and delivers its stake. -/
def waiter (w : Broadcast) (i : ℕ) (name : PublicKey) : Broadcast :=
  { w with
    wait_for_quorum := w.wait_for_quorum.eraseIdx i
    total_stake := u32 (w.total_stake + committee.stake name)
    acks := w.acks ++ [name] }

/-- A turn of the loop over the handlers. -/
def resolve (s : QuorumWaiter) (w : Broadcast) (i : ℕ) (name : PublicKey) : QuorumWaiter :=
  let w := waiter committee w i name
  if w.total_stake ≥ committee.quorum_threshold then
    { s with finished := s.finished ++ [w], waiting := none, tx_batch := s.tx_batch ++ [w.batch] }
  else { s with waiting := some w }

/-- The loop over the handlers is over: it was left, or no handler remains. -/
def is_idle (s : QuorumWaiter) : Bool := s.waiting.all (·.wait_for_quorum.isEmpty)

/-- The handler that resolves, with the batch that it belongs to. -/
def resolving (s : QuorumWaiter) (i : ℕ) : Option (Broadcast × PublicKey) := do
  let w ← s.waiting
  let name ← w.wait_for_quorum[i]?
  return (w, name)

/-- What cannot happen changes nothing. -/
def step (s : QuorumWaiter) : Event → QuorumWaiter
  | .message m => { s with rx_message := s.rx_message ++ [m] }
  | .receive => if s.is_idle then s.receive stake else s
  | .resolve i =>
    match s.resolving i with
    | some (w, name) => s.resolve committee w i name
    | none => s

def run (events : List Event) : QuorumWaiter := events.foldl (step committee stake) spawn

theorem run_concat (events : List Event) (e : Event) :
    run committee stake (events ++ [e]) = (run committee stake events).step committee stake e := by
  unfold run
  rw [List.foldl_append]
  rfl

/-! ## What is delivered -/

/-- The batches that were queued, in order. -/
def queued (events : List Event) : List WorkerMessage :=
  events.filterMap fun
    | .message m => some m.batch
    | .receive | .resolve _ => none

/-- The stake of the node and of the authorities that acknowledged the batch. -/
def acknowledged (x : Broadcast) : ℕ := stake + (x.acks.map committee.stake).sum

/-- The batches with a quorum of acknowledgements were sent, once each and in order, and no other
was. -/
structure Delivers (events : List Event) (s : QuorumWaiter) : Prop where
  order : s.taken.map (·.batch) ++ s.rx_message.map (·.batch) = queued events
  sent : s.tx_batch = (s.taken.filter fun x =>
    committee.quorum_threshold ≤ acknowledged committee stake x).map (·.batch)

/-- A batch is taken by a node that has no quorum of its own, and the sum that reaches the quorum
does not wrap below it. -/
def Meets (s : QuorumWaiter) : Event → Prop
  | .message _ => True
  | .receive => s.is_idle = true → s.rx_message ≠ [] → stake < committee.quorum_threshold
  | .resolve i => ∀ w name, s.resolving i = some (w, name) →
    committee.quorum_threshold ≤ w.total_stake + committee.stake name →
    committee.quorum_threshold ≤ u32 (w.total_stake + committee.stake name)

end

section

variable {committee : Committee} {stake : ℕ} {s : QuorumWaiter} {events : List Event}

theorem queued_append (l l' : List Event) : queued (l ++ l') = queued l ++ queued l' :=
  List.filterMap_append

theorem resolving_eq_some {i : ℕ} {w : Broadcast} {name : PublicKey} :
    s.resolving i = some (w, name) ↔ s.waiting = some w ∧ w.wait_for_quorum[i]? = some name := by
  simp [resolving, Option.bind_eq_some_iff]

/-- What a step does: it queues a message, it takes one, it counts an acknowledgement, or it
changes nothing. -/
theorem step_cases (committee : Committee) (stake : ℕ) (s : QuorumWaiter) (e : Event) :
    (∃ m, e = .message m ∧
      s.step committee stake e = { s with rx_message := s.rx_message ++ [m] }) ∨
    (∃ m rest, e = .receive ∧ s.is_idle = true ∧ s.rx_message = m :: rest ∧
      s.step committee stake e = { s with
        rx_message := rest, finished := s.taken, waiting := some (broadcast stake m) }) ∨
    (∃ i w name, e = .resolve i ∧ s.resolving i = some (w, name) ∧ s.waiting = some w ∧
      s.step committee stake e = s.resolve committee w i name) ∨
    queued [e] = [] ∧ s.step committee stake e = s ∧ Meets committee stake s e := by
  cases e with
  | message m => exact Or.inl ⟨m, rfl, rfl⟩
  | receive =>
    rcases hidle : s.is_idle with _ | _
    · refine Or.inr (Or.inr (Or.inr ⟨rfl, ?_, ?_⟩))
      · simp [step, hidle]
      · simp [Meets, hidle]
    · rcases hrx : s.rx_message with _ | ⟨m, rest⟩
      · refine Or.inr (Or.inr (Or.inr ⟨rfl, ?_, ?_⟩))
        · simp [step, receive, hrx]
        · simp [Meets, hrx]
      · refine Or.inr (Or.inl ⟨m, rest, rfl, rfl, rfl, ?_⟩)
        simp [step, receive, hidle, hrx]
  | resolve i =>
    rcases hresolving : s.resolving i with _ | ⟨w, name⟩
    · refine Or.inr (Or.inr (Or.inr ⟨rfl, ?_, ?_⟩))
      · simp [step, hresolving]
      · simp [Meets, hresolving]
    · refine Or.inr (Or.inr (Or.inl ⟨i, w, name, rfl, hresolving, ?_, ?_⟩))
      · exact (resolving_eq_some.mp hresolving).1
      · simp [step, hresolving]

/-! ## The order of the batches -/

theorem taken_of_waiting {w : Broadcast} (h : s.waiting = some w) :
    s.taken = s.finished ++ [w] := by
  rw [taken, h]
  rfl

theorem taken_resolve {w : Broadcast} {i : ℕ} {name : PublicKey} :
    (s.resolve committee w i name).taken = s.finished ++ [waiter committee w i name] := by
  unfold resolve
  dsimp only
  split
  · simp [taken]
  · simp [taken]

theorem rx_message_resolve {w : Broadcast} {i : ℕ} {name : PublicKey} :
    (s.resolve committee w i name).rx_message = s.rx_message := by
  unfold resolve
  dsimp only
  split <;> rfl

theorem tx_batch_resolve {w : Broadcast} {i : ℕ} {name : PublicKey} :
    (s.resolve committee w i name).tx_batch = s.tx_batch ++
      if committee.quorum_threshold ≤ (waiter committee w i name).total_stake then [w.batch]
      else [] := by
  unfold resolve
  dsimp only
  by_cases h : committee.quorum_threshold ≤ (waiter committee w i name).total_stake
  · rw [if_pos h, if_pos h]
    rfl
  · rw [if_neg h, if_neg h, List.append_nil]

/-- The batches are taken in the order in which they were queued. -/
theorem order_of_run (committee : Committee) (stake : ℕ) (events : List Event) :
    (run committee stake events).taken.map (·.batch) ++
      (run committee stake events).rx_message.map (·.batch) = queued events := by
  induction events using List.reverseRecOn with
  | nil => rfl
  | append_singleton events e ih =>
    rw [run_concat, queued_append, ← ih]
    rcases step_cases committee stake (run committee stake events) e with
      ⟨m, rfl, heq⟩ | ⟨m, rest, rfl, -, hrx, heq⟩ | ⟨i, w, name, rfl, -, hw, heq⟩ | ⟨hq, heq, -⟩
    · rw [heq, List.map_append, List.append_assoc]
      rfl
    · rw [heq, hrx, taken, List.map_append]
      simp [broadcast, queued]
    · rw [heq, taken_resolve, rx_message_resolve, taken_of_waiting hw, List.map_append,
        List.map_append]
      simp [waiter, queued]
    · rw [heq, hq, List.append_nil]

/-! ## The quorums -/

/-- The batches with a quorum of acknowledgements were sent, and no other. -/
def Sent (committee : Committee) (stake : ℕ) (taken : List Broadcast) (tx_batch : List WorkerMessage) :
    Prop :=
  tx_batch = (taken.filter fun x =>
    committee.quorum_threshold ≤ acknowledged committee stake x).map (·.batch)

/-- One more batch is sent if and only if it has a quorum. -/
theorem sent_concat {taken : List Broadcast} {tx_batch : List WorkerMessage} {x : Broadcast} {p : Prop}
    [Decidable p] (h : Sent committee stake taken tx_batch) :
    Sent committee stake (taken ++ [x]) (tx_batch ++ if p then [x.batch] else []) ↔
      (p ↔ committee.quorum_threshold ≤ acknowledged committee stake x) := by
  unfold Sent at h ⊢
  rw [h, List.filter_append, List.map_append, List.append_cancel_left_eq]
  by_cases hp : p <;>
    by_cases hx : committee.quorum_threshold ≤ acknowledged committee stake x <;> simp [hp, hx]

/-- The batch that it waits for has no quorum yet, and its stake was added up without a wrap. -/
def Counts (committee : Committee) (stake : ℕ) (s : QuorumWaiter) : Prop :=
  ∀ w, s.waiting = some w → w.total_stake = acknowledged committee stake w ∧
    acknowledged committee stake w < committee.quorum_threshold

theorem acknowledged_waiter {w : Broadcast} {i : ℕ} {name : PublicKey} :
    acknowledged committee stake (waiter committee w i name) =
      acknowledged committee stake w + committee.stake name := by
  simp [acknowledged, waiter, Nat.add_assoc]

/-- Without the batch that it waits for, which was not sent. -/
theorem sent_finished {w : Broadcast} (hcounts : Counts committee stake s)
    (h : Sent committee stake s.taken s.tx_batch) (hw : s.waiting = some w) :
    Sent committee stake s.finished s.tx_batch := by
  unfold Sent at h ⊢
  rw [taken_of_waiting hw, List.filter_append, List.map_append] at h
  simpa [Nat.not_le_of_lt (hcounts w hw).2] using h

theorem quorum_threshold_lt : committee.quorum_threshold < 2 ^ 32 := by
  unfold Committee.quorum_threshold u32
  omega

/-- One step delivers what it should if and only if it meets its condition. -/
theorem sent_step_iff (hcounts : Counts committee stake s)
    (h : Sent committee stake s.taken s.tx_batch) (e : Event) :
    Sent committee stake (s.step committee stake e).taken (s.step committee stake e).tx_batch ↔
      Meets committee stake s e := by
  rcases step_cases committee stake s e with
    ⟨m, rfl, heq⟩ | ⟨m, rest, rfl, hidle, hrx, heq⟩ | ⟨i, w, name, rfl, hresolving, hw, heq⟩ |
      ⟨-, heq, hmeets⟩
  · rw [heq]
    exact iff_of_true h trivial
  · have hconcat := sent_concat (x := broadcast stake m) (p := False) h
    rw [if_neg not_false, List.append_nil, false_iff] at hconcat
    rw [heq]
    refine hconcat.trans ?_
    simp [Meets, hidle, hrx, acknowledged, broadcast]
  · rw [heq, taken_resolve, tx_batch_resolve]
    refine (sent_concat (x := waiter committee w i name) (sent_finished hcounts h hw)).trans ?_
    rw [acknowledged_waiter, ← (hcounts w hw).1]
    have hle := u32_le (w.total_stake + committee.stake name)
    constructor
    · intro hiff w' name' hresolving' hreached
      rw [hresolving] at hresolving'
      cases hresolving'
      exact hiff.mpr hreached
    · intro hmeets
      exact ⟨fun hge => Nat.le_trans hge hle, hmeets w name hresolving⟩
  · rw [heq]
    exact iff_of_true h hmeets

theorem counts_step (hcounts : Counts committee stake s) {e : Event}
    (hmeets : Meets committee stake s e) : Counts committee stake (s.step committee stake e) := by
  rcases step_cases committee stake s e with
    ⟨m, rfl, heq⟩ | ⟨m, rest, rfl, hidle, hrx, heq⟩ | ⟨i, w, name, rfl, hresolving, hw, heq⟩ |
      ⟨-, heq, -⟩
  · rw [heq]
    exact hcounts
  · rw [heq]
    rintro _ ⟨⟩
    have hlt := hmeets hidle (by simp [hrx])
    simp [acknowledged, broadcast, hlt]
  · rw [heq]
    unfold resolve
    dsimp only
    split
    · rintro _ ⟨⟩
    · rename_i hlt
      rintro _ ⟨⟩
      -- the sum is below the quorum, so it did not wrap
      have hsum : w.total_stake + committee.stake name < committee.quorum_threshold := by
        by_contra hge
        exact hlt (hmeets w name hresolving (Nat.le_of_not_lt hge))
      rw [acknowledged_waiter, ← (hcounts w hw).1]
      exact ⟨u32_of_lt (hsum.trans quorum_threshold_lt), hsum⟩
  · rw [heq]
    exact hcounts

theorem delivers_of_meets (committee : Committee) (stake : ℕ) (events : List Event)
    (h : Each (fun pre e => Meets committee stake (run committee stake pre) e) events) :
    Counts committee stake (run committee stake events) ∧
      Sent committee stake (run committee stake events).taken
        (run committee stake events).tx_batch := by
  induction events using List.reverseRecOn with
  | nil => exact ⟨nofun, rfl⟩
  | append_singleton events e ih =>
    obtain ⟨hcounts, hsent⟩ := ih h.of_append
    rw [run_concat]
    exact ⟨counts_step hcounts h.last, (sent_step_iff hcounts hsent e).mpr h.last⟩

end

/-- For every committee, every own stake and every order of messages and resolving handlers: in
every state of the run the delivered batches are those with a quorum of acknowledgements, once each
and in order, if and only if no batch is taken by a node with a quorum of its own, and no sum wraps
when it reaches the quorum. -/
theorem quorums_are_delivered_iff (committee : Committee) (stake : ℕ) (events : List Event) :
    (∀ pre, pre <+: events → Delivers committee stake pre (run committee stake pre)) ↔
      Each (fun pre e => Meets committee stake (run committee stake pre) e) events := by
  constructor
  · intro h
    induction events using List.reverseRecOn with
    | nil => exact each_nil
    | append_singleton events e ih =>
      have heach := ih fun pre hpre => h pre (hpre.trans (List.prefix_append events [e]))
      obtain ⟨hcounts, hsent⟩ := delivers_of_meets committee stake events heach
      refine heach.concat ?_
      have hnext := (h _ List.prefix_rfl).sent
      rw [run_concat] at hnext
      exact (sent_step_iff hcounts hsent e).mp hnext
  · rintro h pre ⟨post, rfl⟩
    exact ⟨order_of_run committee stake pre, (delivers_of_meets committee stake pre h.of_append).2⟩

/-- The committee of one authority, which is a quorum. -/
def alone : Committee := .sample [(1, 1)] (by simp)

/-- Its batch maker has no workers to send to. -/
def lonely_batch : QuorumWaiterMessage := { batch := .Batch [[7]], handlers := [] }

def lonely : List Event := [.message lonely_batch, .receive]

/-- The stake of the node is a quorum for the batch, but the loop over the handlers has no turn that
would send it, and the task goes on to the next batch. -/
theorem batch_without_handlers_is_lost :
    (BatchMaker.run 1 [] [.transaction [7]]).sent = [lonely_batch] ∧
      alone.quorum_threshold ≤ 1 ∧ ¬ Delivers alone 1 lonely (run alone 1 lonely) ∧
        (run alone 1 lonely).tx_batch = [] ∧ (run alone 1 lonely).is_idle = true := by
  have hlost : (run alone 1 lonely).tx_batch = [] := rfl
  refine ⟨by decide, by decide +kernel, fun h => ?_, hlost, rfl⟩
  have hsent := h.sent
  rw [hlost] at hsent
  revert hsent
  decide +kernel

end QuorumWaiter

end sailfish.worker
