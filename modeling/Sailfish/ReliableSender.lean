-- The reliable sender of the network (`network/src/reliable_sender.rs`): the task of a
-- connection transmits messages in order, and again on a new connection until they are
-- acknowledged or cancelled. The length of its delays is left out.
import Mathlib
import Sailfish.Lib.Splits

open splits

namespace sailfish.network

abbrev Bytes := List UInt8

/-- A message for a connection, with the number of the `send` that made its cancel handler. -/
structure InnerMessage where
  data : Bytes
  cancel_handler : ℕ
deriving DecidableEq

/-- Where the task is: in `connect`, in the loop `'waiter`, or in `keep_alive`. -/
inductive Status
  | connecting
  | waiting
  | alive
deriving DecidableEq

structure Connection where
  status : Status
  /-- Channel from which the connection receives its commands. -/
  receiver : List InnerMessage
  /-- Buffer keeping all messages that need to be re-transmitted. -/
  buffer : List InnerMessage
  /-- The messages that were transmitted but for which we are still waiting to receive an ACK. -/
  pending_replies : List InnerMessage
  /-- The messages passed to `send` so far. -/
  submitted : List InnerMessage
  /-- The handlers that their callers dropped. -/
  cancelled : List ℕ
  /-- The handlers that were notified, with the bytes that they got. -/
  notified : List (ℕ × Bytes)
  /-- The messages transmitted since the last `connect`. -/
  transmitted : List InnerMessage
  /-- The ACKs received since the last `connect`. -/
  replies : List Bytes
deriving DecidableEq

/-- What happens to a connection. Sending a message of the buffer or reading from the peer may fail.
A message is sent in one step: a caller that drops the handler meanwhile does so before or after. -/
inductive Event
  | send (data : Bytes)
  | cancel (handler : ℕ)
  | connect (ok : Bool)
  | timer
  | receive
  | transmit (ok : Bool)
  | response (bytes : Option Bytes)
deriving DecidableEq

namespace Connection

def spawn : Connection where
  status := .connecting
  receiver := []
  buffer := []
  pending_replies := []
  submitted := []
  cancelled := []
  notified := []
  transmitted := []
  replies := []

/-- `handler.is_closed()`. -/
def is_closed (s : Connection) (m : InnerMessage) : Bool := s.cancelled.contains m.cancel_handler

/-- The handler of the message was notified. -/
def acknowledged (s : Connection) (m : InnerMessage) : Bool :=
  s.notified.any (·.1 == m.cancel_handler)

/-- Puts the messages back into the buffer, the last one first. -/
def put_back (pending_replies buffer : List InnerMessage) : List InnerMessage :=
  pending_replies.foldr List.cons buffer

/-- The end of `keep_alive`: put the messages for which we didn't receive an ACK back into the
sending buffer, to send them again once we manage to establish a new connection. -/
def broken (s : Connection) : Connection :=
  { s with
    status := .connecting
    buffer := put_back s.pending_replies s.buffer
    pending_replies := [] }

/-- A message of the channel goes to the buffer. While it waits, the connection also removes the
messages that have been cancelled from the buffer. -/
def receive (s : Connection) : Option Connection :=
  match s.status, s.receiver with
  | .waiting, m :: receiver =>
    some { s with receiver, buffer := (s.buffer ++ [m]).filter fun m => !s.is_closed m }
  | .alive, m :: receiver =>
    if s.buffer.isEmpty then some { s with receiver, buffer := s.buffer ++ [m] } else none
  | _, _ => none

/-- One turn of the loop that tries to send all messages of the buffer. -/
def transmit (s : Connection) (ok : Bool) : Option Connection :=
  match s.status, s.buffer with
  | .alive, m :: buffer =>
    -- Skip messages that have been cancelled.
    if s.is_closed m then some { s with buffer }
    else if ok then
      some { s with
        buffer
        pending_replies := s.pending_replies ++ [m]
        transmitted := s.transmitted ++ [m] }
    else some (broken { s with buffer := m :: buffer })
  | _, _ => none

/-- Notify the handler that the message has been successfully sent. -/
def notify (s : Connection) (m : InnerMessage) (bytes : Bytes) : Connection :=
  if s.is_closed m then s else { s with notified := s.notified ++ [(m.cancel_handler, bytes)] }

/-- What the reader returns, once the buffer is empty. -/
def response (s : Connection) (bytes : Option Bytes) : Option Connection :=
  if s.status = .alive ∧ s.buffer = [] then
    match s.pending_replies, bytes with
    | [], _ => some s.broken
    | m :: pending_replies, some bytes =>
      some (notify { s with pending_replies, replies := s.replies ++ [bytes] } m bytes)
    | m :: pending_replies, none => some (broken { s with pending_replies := m :: pending_replies })
  else none

/-- One event. `none` is an event that cannot happen. -/
def step (s : Connection) : Event → Option Connection
  | .send data =>
    let m : InnerMessage := { data, cancel_handler := s.submitted.length }
    some { s with receiver := s.receiver ++ [m], submitted := s.submitted ++ [m] }
  | .cancel handler =>
    if handler < s.submitted.length then some { s with cancelled := handler :: s.cancelled }
    else none
  | .connect ok =>
    if s.status = .connecting then
      if ok then
        some { s with status := .alive, pending_replies := [], transmitted := [], replies := [] }
      else some { s with status := .waiting }
    else none
  | .timer => if s.status = .waiting then some { s with status := .connecting } else none
  | .receive => s.receive
  | .transmit ok => s.transmit ok
  | .response bytes => s.response bytes

def run (events : List Event) : Option Connection := events.foldlM step spawn

theorem run_concat {events : List Event} {e : Event} {s' : Connection} :
    run (events ++ [e]) = some s' ↔ ∃ s, run events = some s ∧ s.step e = some s' := by
  unfold run
  rw [List.foldlM_append]
  simp [Option.bind_eq_some_iff]

/-! ## The invariant of a run -/

variable {s s' : Connection}

/-- The messages that the connection still has to see through, in order. -/
def queue (s : Connection) : List InnerMessage := s.pending_replies ++ s.buffer ++ s.receiver

/-- The messages that were neither cancelled nor acknowledged, in the order of their submission. -/
def outstanding (s : Connection) : List InnerMessage :=
  s.submitted.filter fun m => !s.is_closed m && !s.acknowledged m

structure Reliable (s : Connection) : Prop where
  order : s.queue.filter (fun m => !s.is_closed m) = s.outstanding
  handlers : s.submitted.map (·.cancel_handler) = List.range s.submitted.length
  cancelled : ∀ handler ∈ s.cancelled, handler < s.submitted.length
  notified : ∀ x ∈ s.notified, x.1 < s.submitted.length
  idle : s.status ≠ .alive → s.pending_replies = []
  replied : s.status = .alive → s.replies.length ≤ s.transmitted.length ∧
    s.pending_replies = s.transmitted.drop s.replies.length

theorem reliable_spawn : Reliable spawn where
  order := rfl
  handlers := rfl
  cancelled := by simp [spawn]
  notified := by simp [spawn]
  idle := fun _ => rfl
  replied := by simp [spawn]

theorem put_back_eq (pending_replies buffer : List InnerMessage) :
    put_back pending_replies buffer = pending_replies ++ buffer := by
  unfold put_back
  simp

/-- A broken connection keeps the order of its messages. -/
theorem queue_broken : s.broken.queue = s.queue := by
  unfold queue broken
  simp [put_back_eq]

/-- What was submitted, cancelled and notified stays. -/
structure Kept (s s' : Connection) : Prop where
  submitted : s'.submitted = s.submitted
  cancelled : s'.cancelled = s.cancelled
  notified : s'.notified = s.notified

theorem Kept.is_closed (h : Kept s s') : s'.is_closed = s.is_closed := by
  funext m
  unfold Connection.is_closed
  rw [h.cancelled]

theorem Kept.outstanding (h : Kept s s') : s'.outstanding = s.outstanding := by
  unfold Connection.outstanding acknowledged
  rw [h.submitted, h.is_closed, h.notified]

/-- A change that keeps the queue, but for messages that were cancelled. -/
theorem Reliable.keep (h : Reliable s) (hkept : Kept s s')
    (hqueue : s'.queue.filter (fun m => !s.is_closed m) = s.queue.filter fun m => !s.is_closed m)
    (hidle : s'.status ≠ .alive → s'.pending_replies = [])
    (hreplied : s'.status = .alive → s'.replies.length ≤ s'.transmitted.length ∧
      s'.pending_replies = s'.transmitted.drop s'.replies.length) : Reliable s' where
  order := by rw [hkept.is_closed, hqueue, h.order, hkept.outstanding]
  handlers := by
    rw [hkept.submitted]
    exact h.handlers
  cancelled := by
    rw [hkept.cancelled, hkept.submitted]
    exact h.cancelled
  notified := by
    rw [hkept.notified, hkept.submitted]
    exact h.notified
  idle := hidle
  replied := hreplied

theorem Reliable.broken (h : Reliable s) : Reliable s.broken := by
  refine h.keep ⟨rfl, rfl, rfl⟩ ?_ (fun _ => rfl) nofun
  rw [queue_broken]

/-! ## The moves of a message -/

theorem Reliable.receive (h : Reliable s) (hstep : s.receive = some s') : Reliable s' := by
  unfold Connection.receive at hstep
  split at hstep
  · rename_i m receiver hstatus hreceiver
    cases hstep
    refine h.keep ⟨rfl, rfl, rfl⟩ ?_ h.idle fun halive => ?_
    · simp only [queue, hreceiver, List.filter_append, List.filter_filter, Bool.and_self,
        List.append_assoc]
      rw [← List.filter_append, List.singleton_append]
    · rw [hstatus] at halive
      cases halive
  · rename_i m receiver _ hreceiver
    split at hstep
    · cases hstep
      refine h.keep ⟨rfl, rfl, rfl⟩ ?_ h.idle h.replied
      simp [queue, hreceiver]
    · cases hstep
  · cases hstep

theorem Reliable.transmit (h : Reliable s) {ok : Bool} (hstep : s.transmit ok = some s') :
    Reliable s' := by
  unfold Connection.transmit at hstep
  split at hstep
  · rename_i m buffer hstatus hbuffer
    split at hstep
    · rename_i hclosed
      cases hstep
      refine h.keep ⟨rfl, rfl, rfl⟩ ?_ h.idle h.replied
      simp [queue, hbuffer, hclosed]
    split at hstep
    · cases hstep
      refine h.keep ⟨rfl, rfl, rfl⟩ ?_ (absurd hstatus) fun _ => ?_
      · simp [queue, hbuffer]
      · obtain ⟨hle, heq⟩ := h.replied hstatus
        rw [List.length_append, List.drop_append_of_le_length hle, ← heq]
        exact ⟨Nat.le_add_right_of_le hle, rfl⟩
    · cases hstep
      have hsame : { s with buffer := m :: buffer } = s := by rw [← hbuffer]
      rw [hsame]
      exact h.broken
  · cases hstep

/-- The handlers of the messages that are outstanding are different. -/
theorem Reliable.nodup (h : Reliable s) : (s.outstanding.map (·.cancel_handler)).Nodup := by
  have hsub : (s.outstanding.map (·.cancel_handler)).Sublist
      (s.submitted.map (·.cancel_handler)) := List.filter_sublist.map _
  rw [h.handlers] at hsub
  exact hsub.nodup List.nodup_range

/-- The first message that waits for an ACK is the one transmitted when as many were as ACKs
came. -/
theorem Reliable.first (h : Reliable s) (halive : s.status = .alive) {m : InnerMessage}
    {pending_replies : List InnerMessage} (hpending : s.pending_replies = m :: pending_replies) :
    s.transmitted[s.replies.length]? = some m ∧
      pending_replies = s.transmitted.drop (s.replies.length + 1) ∧
      s.replies.length < s.transmitted.length := by
  obtain ⟨hle, heq⟩ := h.replied halive
  rw [hpending] at heq
  have hlt : s.replies.length < s.transmitted.length := by
    by_contra hge
    rw [List.drop_eq_nil_of_le (Nat.le_of_not_lt hge)] at heq
    cases heq
  rw [List.drop_eq_getElem_cons hlt] at heq
  obtain ⟨rfl, hrest⟩ := List.cons.inj heq
  exact ⟨List.getElem?_eq_getElem hlt, hrest, hlt⟩

/-- The ACK of the first message takes it out of the queue and out of the outstanding messages. -/
theorem Reliable.notify (h : Reliable s) (halive : s.status = .alive) {m : InnerMessage}
    {pending_replies : List InnerMessage} (hpending : s.pending_replies = m :: pending_replies)
    (bytes : Bytes) :
    Reliable (notify { s with pending_replies, replies := s.replies ++ [bytes] } m bytes) := by
  obtain ⟨-, hrest, hlt⟩ := h.first halive hpending
  have hreplied : (s.replies ++ [bytes]).length ≤ s.transmitted.length ∧
      pending_replies = s.transmitted.drop (s.replies ++ [bytes]).length := by
    rw [List.length_append, List.length_singleton]
    exact ⟨hlt, hrest⟩
  unfold Connection.notify
  split
  · rename_i hclosed
    have hclosed : s.is_closed m = true := hclosed
    refine h.keep ⟨rfl, rfl, rfl⟩ ?_ (absurd halive) fun _ => hreplied
    simp [queue, hpending, hclosed]
  · rename_i hopen
    have hopen : s.is_closed m = false := Bool.eq_false_iff.mpr hopen
    have hold : s.outstanding = m ::
        (pending_replies ++ s.buffer ++ s.receiver).filter (fun m => !s.is_closed m) := by
      rw [← h.order, queue, hpending]
      simp [hopen]
    have hnodup := h.nodup
    rw [hold, List.map_cons, List.nodup_cons] at hnodup
    have hm : m ∈ s.submitted := by
      have hm : m ∈ s.outstanding := by simp [hold]
      exact List.mem_of_mem_filter hm
    refine ⟨?_, h.handlers, h.cancelled, ?_, absurd halive, fun _ => hreplied⟩
    · -- no other outstanding message has the handler of `m`
      have hnew : s.submitted.filter (fun x => !s.is_closed x &&
            !(s.notified ++ [(m.cancel_handler, bytes)]).any (·.1 == x.cancel_handler)) =
          s.outstanding.filter fun x => m.cancel_handler != x.cancel_handler := by
        unfold outstanding acknowledged
        rw [List.filter_filter]
        apply List.filter_congr
        intro x _
        rw [List.any_append, List.any_cons, List.any_nil, Bool.or_false, Bool.not_or, bne,
          ← Bool.and_assoc, Bool.and_comm]
      change (pending_replies ++ s.buffer ++ s.receiver).filter (fun m => !s.is_closed m) = _
      unfold outstanding acknowledged
      refine Eq.trans ?_ hnew.symm
      rw [hold, List.filter_cons_of_neg (by simp), eq_comm, List.filter_eq_self]
      intro x hx
      rw [bne_iff_ne]
      intro heq
      exact hnodup.1 (heq ▸ List.mem_map_of_mem hx)
    · intro x hx
      rcases List.mem_append.mp hx with hx | hx
      · exact h.notified x hx
      · rw [List.mem_singleton.mp hx, ← List.mem_range, ← h.handlers]
        exact List.mem_map_of_mem hm

theorem Reliable.response (h : Reliable s) {bytes : Option Bytes}
    (hstep : s.response bytes = some s') : Reliable s' := by
  unfold Connection.response at hstep
  split at hstep
  · rename_i halive
    split at hstep
    · cases hstep
      exact h.broken
    · rename_i hpending
      cases hstep
      exact h.notify halive.1 hpending _
    · rename_i hpending
      cases hstep
      rw [← hpending]
      exact h.broken
  · cases hstep

theorem Reliable.send (h : Reliable s) {m : InnerMessage}
    (hm : m.cancel_handler = s.submitted.length) :
    Reliable { s with receiver := s.receiver ++ [m], submitted := s.submitted ++ [m] } := by
  have hopen : s.is_closed m = false := by
    rw [Connection.is_closed, List.contains_eq_mem, decide_eq_false_iff_not]
    intro hc
    exact absurd (h.cancelled _ hc) (by omega)
  have hnew : s.acknowledged m = false := by
    rw [acknowledged, List.any_eq_false]
    intro x hx
    have := h.notified x hx
    rw [beq_iff_eq]
    omega
  refine ⟨?_, ?_, ?_, ?_, h.idle, h.replied⟩
  · change (s.pending_replies ++ s.buffer ++ (s.receiver ++ [m])).filter (fun m => !s.is_closed m) =
      (s.submitted ++ [m]).filter fun m => !s.is_closed m && !s.acknowledged m
    rw [← List.append_assoc, List.filter_append, List.filter_append s.submitted]
    change s.queue.filter _ ++ _ = s.outstanding ++ _
    rw [h.order]
    simp [hopen, hnew]
  · simp [h.handlers, hm, List.range_succ]
  · intro handler hc
    rw [List.length_append]
    exact Nat.lt_add_right _ (h.cancelled handler hc)
  · intro x hx
    rw [List.length_append]
    exact Nat.lt_add_right _ (h.notified x hx)

theorem Reliable.cancel (h : Reliable s) {handler : ℕ} (hlt : handler < s.submitted.length) :
    Reliable { s with cancelled := handler :: s.cancelled } := by
  refine ⟨?_, h.handlers, ?_, h.notified, h.idle, h.replied⟩
  · -- one more condition on both sides
    have hclosed : ∀ m, is_closed { s with cancelled := handler :: s.cancelled } m =
        (m.cancel_handler == handler || s.is_closed m) := fun m => List.contains_cons
    have hfilter := congrArg (List.filter fun m => m.cancel_handler != handler) h.order
    unfold outstanding at hfilter ⊢
    rw [List.filter_filter, List.filter_filter] at hfilter
    simp only [hclosed, Bool.not_or, Bool.and_assoc]
    exact hfilter
  · exact List.forall_mem_cons.mpr ⟨hlt, h.cancelled⟩

theorem Reliable.step (h : Reliable s) {e : Event} (hstep : s.step e = some s') : Reliable s' := by
  cases e with
  | send data =>
    cases hstep
    exact h.send rfl
  | cancel handler =>
    unfold Connection.step at hstep
    dsimp only at hstep
    split at hstep
    · rename_i hlt
      cases hstep
      exact h.cancel hlt
    · cases hstep
  | connect ok =>
    unfold Connection.step at hstep
    dsimp only at hstep
    split at hstep
    · rename_i hstatus
      have hidle := h.idle (by rw [hstatus]; exact nofun)
      split at hstep <;> cases hstep
      · refine h.keep ⟨rfl, rfl, rfl⟩ ?_ (fun _ => rfl) fun _ => ⟨Nat.le_refl _, rfl⟩
        simp [queue, hidle]
      · exact h.keep ⟨rfl, rfl, rfl⟩ rfl (fun _ => hidle) nofun
    · cases hstep
  | timer =>
    unfold Connection.step at hstep
    dsimp only at hstep
    split at hstep
    · rename_i hstatus
      cases hstep
      exact h.keep ⟨rfl, rfl, rfl⟩ rfl (fun _ => h.idle (by rw [hstatus]; exact nofun)) nofun
    · cases hstep
  | receive => exact h.receive hstep
  | transmit ok => exact h.transmit hstep
  | response bytes => exact h.response hstep

theorem reliable_of_run {events : List Event} (h : run events = some s) : Reliable s := by
  induction events using List.reverseRecOn generalizing s with
  | nil =>
    cases h
    exact reliable_spawn
  | append_singleton events e ih =>
    obtain ⟨before, hbefore, hstep⟩ := run_concat.mp h
    exact (ih hbefore).step hstep

/-! ## The acknowledgements -/

/-- A handler is notified by an ACK for the message that was transmitted when as many were as ACKs
came before. -/
theorem Reliable.notified_of_response (h : Reliable s) {bytes : Option Bytes}
    (hstep : s.response bytes = some s') : s'.notified = s.notified ∨ ∃ frame m,
      bytes = some frame ∧ s.transmitted[s.replies.length]? = some m ∧
      s'.replies = s.replies ++ [frame] ∧
      s'.notified = s.notified ++ [(m.cancel_handler, frame)] := by
  unfold Connection.response at hstep
  split at hstep
  · rename_i halive
    split at hstep
    · cases hstep
      exact Or.inl rfl
    · rename_i m _ frame hpending
      cases hstep
      unfold Connection.notify
      split
      · exact Or.inl rfl
      · exact Or.inr ⟨frame, m, rfl, (h.first halive.1 hpending).1, rfl, rfl⟩
    · cases hstep
      exact Or.inl rfl
  · cases hstep

/-- Nothing but a response of the peer notifies a handler. -/
theorem notified_of_step {e : Event} (he : ∀ bytes, e ≠ .response bytes)
    (hstep : s.step e = some s') : s'.notified = s.notified := by
  cases e with
  | response bytes => exact absurd rfl (he bytes)
  | send data =>
    cases hstep
    rfl
  | cancel | timer =>
    unfold Connection.step at hstep
    dsimp only at hstep
    split at hstep <;> cases hstep
    rfl
  | connect ok =>
    unfold Connection.step at hstep
    dsimp only at hstep
    split at hstep
    · split at hstep <;> cases hstep <;> rfl
    · cases hstep
  | receive =>
    change s.receive = some s' at hstep
    unfold Connection.receive at hstep
    split at hstep
    · cases hstep
      rfl
    · split at hstep <;> cases hstep
      rfl
    · cases hstep
  | transmit ok =>
    change s.transmit ok = some s' at hstep
    unfold Connection.transmit at hstep
    split at hstep
    · split at hstep
      · cases hstep
        rfl
      · split at hstep <;> cases hstep <;> rfl
    · cases hstep

/-- For every run of a connection: the messages that wait for an ACK, in the buffer and in the
channel are, but for those cancelled, the submitted messages that were neither cancelled nor
acknowledged, in the order of their submission. A handler is notified only by an ACK of the peer,
and with `i` ACKs before it on this connection it is the handler of the message transmitted with
`i` messages before it on this connection. -/
theorem messages_are_neither_lost_nor_reordered (events : List Event) (s : Connection)
    (hrun : run events = some s) :
    (s.pending_replies ++ s.buffer ++ s.receiver).filter (fun m => !s.is_closed m) =
      s.submitted.filter (fun m => !s.is_closed m && !s.acknowledged m) ∧
    Each (fun pre e => ∀ before after, run pre = some before → before.step e = some after →
      after.notified = before.notified ∨ ∃ frame m, e = .response (some frame) ∧
        before.transmitted[before.replies.length]? = some m ∧
        after.replies = before.replies ++ [frame] ∧
        after.notified = before.notified ++ [(m.cancel_handler, frame)]) events := by
  refine ⟨(reliable_of_run hrun).order, ?_⟩
  rintro pre e - - before after hbefore hstep
  cases e with
  | response bytes =>
    rcases (reliable_of_run hbefore).notified_of_response hstep with h | ⟨frame, m, rfl, h⟩
    · exact Or.inl h
    · exact Or.inr ⟨frame, m, rfl, h⟩
  | send | cancel | connect | timer | receive | transmit =>
    exact Or.inl (notified_of_step (by simp) hstep)

/-- Two messages: the second connection transmits both again, and the peer acknowledges one. -/
def two_messages : List Event :=
  [.send [1], .send [2], .connect false, .receive, .timer, .connect true, .transmit true, .receive,
    .transmit true, .response none, .connect true, .transmit true, .transmit true,
    .response (some [3])]

def two_messages_state : Connection := (run two_messages).get (by decide +kernel)

theorem messages_are_neither_lost_nor_reordered_two :
    two_messages_state.notified = [(0, [3])] ∧
      (two_messages_state.pending_replies ++ two_messages_state.buffer ++
        two_messages_state.receiver).filter (fun m => !two_messages_state.is_closed m) =
        two_messages_state.submitted.filter
          fun m => !two_messages_state.is_closed m && !two_messages_state.acknowledged m :=
  ⟨by decide +kernel,
    (messages_are_neither_lost_nor_reordered two_messages two_messages_state (by
      simp [two_messages_state])).1⟩

end Connection

end sailfish.network
