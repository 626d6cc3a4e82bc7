-- The receiver of the network (`network/src/receiver.rs`) at the other end of the
-- connections of a reliable sender. Each connection has a runner of its own, which may
-- still take the frames of a connection that the sender gave up.
import Mathlib
import Sailfish.ReliableSender

open splits

namespace sailfish.network

/-- A reliable sender and the receiver of the peer. A frame is known by the message that it is of.
-/
structure Link where
  sender : Connection
  /-- The frames on the way to the runner of the last connection, the oldest first. -/
  frames : List InnerMessage
  /-- What the handler wrote to the last connection, and the sender has not read yet. -/
  replies : List Bytes
  /-- The frames on the way to the runners of the connections before. -/
  late : List (List InnerMessage)
  /-- The messages that the runners gave to the handler, in order. -/
  dispatched : List InnerMessage
deriving DecidableEq

namespace Connection

variable {s s' : Connection}

/-- A message of the buffer is transmitted, or nothing that the peer or a caller sees changes. -/
theorem of_transmit {ok : Bool} (h : s.transmit ok = some s') :
    s'.submitted = s.submitted ∧ s'.cancelled = s.cancelled ∧ s'.notified = s.notified ∧
      s'.replies = s.replies ∧ (s'.transmitted = s.transmitted ∨ ∃ m buffer, s.status = .alive ∧
        s.buffer = m :: buffer ∧ s.is_closed m = false ∧ s'.transmitted = s.transmitted ++ [m]) := by
  unfold transmit at h
  split at h
  · rename_i m buffer hstatus hbuffer
    split at h
    · cases h
      exact ⟨rfl, rfl, rfl, rfl, Or.inl rfl⟩
    rename_i hopen
    split at h
    · cases h
      exact ⟨rfl, rfl, rfl, rfl, Or.inr ⟨m, buffer, hstatus, hbuffer, by simpa using hopen, rfl⟩⟩
    · cases h
      exact ⟨rfl, rfl, rfl, rfl, Or.inl rfl⟩
  · cases h

/-- A reply counts for the message that was transmitted when as many were as replies came before. -/
theorem Reliable.of_response (h : Reliable s) {bytes : Option Bytes}
    (hstep : s.response bytes = some s') :
    s'.submitted = s.submitted ∧ s'.cancelled = s.cancelled ∧ s'.transmitted = s.transmitted ∧
      (s'.replies = s.replies ∧ s'.notified = s.notified ∨ ∃ frame m, bytes = some frame ∧
        s.transmitted[s.replies.length]? = some m ∧ s'.replies = s.replies ++ [frame] ∧
        (s'.notified = s.notified ∨ s'.notified = s.notified ++ [(m.cancel_handler, frame)])) := by
  unfold Connection.response at hstep
  split at hstep
  · rename_i halive
    split at hstep
    · cases hstep
      exact ⟨rfl, rfl, rfl, Or.inl ⟨rfl, rfl⟩⟩
    · rename_i m _ frame hpending
      cases hstep
      have hfirst := (h.first halive.1 hpending).1
      unfold Connection.notify
      split
      · exact ⟨rfl, rfl, rfl, Or.inr ⟨frame, m, rfl, hfirst, rfl, Or.inl rfl⟩⟩
      · exact ⟨rfl, rfl, rfl, Or.inr ⟨frame, m, rfl, hfirst, rfl, Or.inr rfl⟩⟩
    · cases hstep
      exact ⟨rfl, rfl, rfl, Or.inl ⟨rfl, rfl⟩⟩
  · cases hstep

/-- A message whose number was submitted is known by it. -/
theorem Reliable.eq_of_handler (h : Reliable s) {m m' : InnerMessage} (hm : m ∈ s.submitted)
    (hm' : m' ∈ s.submitted) (heq : m.cancel_handler = m'.cancel_handler) : m = m' := by
  have hnodup : (s.submitted.map (·.cancel_handler)).Nodup := by
    rw [h.handlers]
    exact List.nodup_range
  exact List.inj_on_of_nodup_map hnodup hm hm' heq

/-- A message that can be transmitted was submitted. -/
theorem Reliable.mem_submitted (h : Reliable s) {m : InnerMessage} (hm : m ∈ s.queue)
    (hopen : s.is_closed m = false) : m ∈ s.submitted := by
  have hout : m ∈ s.outstanding := by
    rw [← h.order]
    exact List.mem_filter.mpr ⟨hm, by simp [hopen]⟩
  exact List.mem_of_mem_filter hout

end Connection

namespace Link

/-- What happens to a link. A runner takes the next frame, of the last connection or of one before,
and gives it to the handler. What the handler writes gets lost when the connection is broken. A
runner that stops takes no more frames. -/
inductive Event
  | sender (e : network.Event)
  | dispatch (written : Bool)
  | dispatch_late (i : ℕ)
deriving DecidableEq

def spawn : Link := { sender := .spawn, frames := [], replies := [], late := [], dispatched := [] }

/-- What the sender reads is the next reply, unless reading fails. -/
def reads (s : Link) : network.Event → Bool
  | .response (some bytes) => s.replies.head? == some bytes
  | _ => true

/-- The link after an event of the sender, which is then `sender`. -/
def follow (s : Link) (sender : Connection) : network.Event → Link
  | .connect true => { s with sender, frames := [], replies := [], late := s.late ++ [s.frames] }
  | .transmit _ =>
    { s with sender, frames := s.frames ++ sender.transmitted.drop s.sender.transmitted.length }
  | .response (some _) => { s with sender, replies := s.replies.tail }
  | .send _ | .cancel _ | .connect false | .timer | .receive | .response none => { s with sender }

/-- One event, with the reply that the handler writes for a frame. `none` is an event that cannot
happen. -/
def step (reply : Bytes → Option Bytes) (s : Link) : Event → Option Link
  | .sender e => if s.reads e then (s.sender.step e).map (s.follow · e) else none
  | .dispatch written =>
    match s.frames with
    | [] => none
    | m :: frames =>
      let replies := s.replies ++ if written then (reply m.data).toList else []
      some { s with frames, replies, dispatched := s.dispatched ++ [m] }
  | .dispatch_late i =>
    match s.late[i]? with
    | some (m :: frames) =>
      some { s with late := s.late.set i frames, dispatched := s.dispatched ++ [m] }
    | _ => none

def run (reply : Bytes → Option Bytes) (events : List Event) : Option Link :=
  events.foldlM (step reply) spawn

section

variable {reply : Bytes → Option Bytes} {s s' : Link} {events : List Event} {e : Event}

theorem run_concat : run reply (events ++ [e]) = some s' ↔
    ∃ s, run reply events = some s ∧ s.step reply e = some s' := by
  unfold run
  rw [List.foldlM_append]
  simp [Option.bind_eq_some_iff]

/-! ## The runs of the sender -/

/-- The events of the sender, in order. -/
def of_sender (events : List Event) : List network.Event :=
  events.filterMap fun
    | .sender e => some e
    | .dispatch _ | .dispatch_late _ => none

theorem follow_sender {sender : Connection} {e : network.Event} :
    (s.follow sender e).sender = sender := by
  cases e with
  | connect ok => cases ok <;> rfl
  | response bytes => cases bytes <;> rfl
  | send | cancel | timer | receive | transmit => rfl

/-- The sender makes a run of its own. -/
theorem sender_of_run (h : run reply events = some s) :
    Connection.run (of_sender events) = some s.sender := by
  induction events using List.reverseRecOn generalizing s with
  | nil =>
    cases h
    rfl
  | append_singleton events e ih =>
    obtain ⟨before, hbefore, hstep⟩ := run_concat.mp h
    have hsender := ih hbefore
    unfold of_sender at hsender ⊢
    rw [List.filterMap_append]
    unfold step at hstep
    cases e with
    | sender e =>
      dsimp only at hstep
      split at hstep
      · obtain ⟨sender, hstep', rfl⟩ := Option.map_eq_some_iff.mp hstep
        rw [follow_sender]
        exact Connection.run_concat.mpr ⟨_, hsender, hstep'⟩
      · cases hstep
    | dispatch | dispatch_late =>
      dsimp only at hstep
      split at hstep <;> cases hstep
      simpa using hsender

theorem reliable_of_run (h : run reply events = some s) : s.sender.Reliable :=
  Connection.reliable_of_run (sender_of_run h)

/-! ## The changes of a link -/

/-- How a step changes a link. The sender may be quiet, to the peer and to those that wait for a
message, it may make a new connection, transmit a message or read a reply. -/
inductive Change (reply : Bytes → Option Bytes) (s : Link) : Link → Prop
  | quiet {sender : Connection} : (∀ m ∈ s.sender.submitted, m ∈ sender.submitted) →
      (∀ k ∈ s.sender.cancelled, k ∈ sender.cancelled) → sender.notified = s.sender.notified →
      sender.transmitted = s.sender.transmitted → sender.replies = s.sender.replies →
      Change reply s { s with sender }
  | connect {sender : Connection} : sender.submitted = s.sender.submitted →
      sender.cancelled = s.sender.cancelled → sender.notified = s.sender.notified →
      sender.transmitted = [] → sender.replies = [] →
      Change reply s { s with sender, frames := [], replies := [], late := s.late ++ [s.frames] }
  | transmit {sender : Connection} {m : InnerMessage} {buffer : List InnerMessage} :
      s.sender.status = .alive → s.sender.buffer = m :: buffer → s.sender.is_closed m = false →
      sender.submitted = s.sender.submitted → sender.cancelled = s.sender.cancelled →
      sender.notified = s.sender.notified → sender.replies = s.sender.replies →
      sender.transmitted = s.sender.transmitted ++ [m] →
      Change reply s { s with sender, frames := s.frames ++ [m] }
  | read {sender : Connection} {bytes : Bytes} {replies : List Bytes} {m : InnerMessage} :
      s.replies = bytes :: replies → s.sender.transmitted[s.sender.replies.length]? = some m →
      sender.submitted = s.sender.submitted → sender.cancelled = s.sender.cancelled →
      sender.transmitted = s.sender.transmitted →
      sender.replies = s.sender.replies ++ [bytes] →
      (sender.notified = s.sender.notified ∨
        sender.notified = s.sender.notified ++ [(m.cancel_handler, bytes)]) →
      Change reply s { s with sender, replies }
  | unexpected {sender : Connection} {bytes : Bytes} {replies : List Bytes} :
      s.replies = bytes :: replies → sender.submitted = s.sender.submitted →
      sender.cancelled = s.sender.cancelled → sender.notified = s.sender.notified →
      sender.transmitted = s.sender.transmitted → sender.replies = s.sender.replies →
      Change reply s { s with sender, replies }
  | dispatch {m : InnerMessage} {frames : List InnerMessage} {written : Bool} :
      s.frames = m :: frames →
      Change reply s { s with
        frames
        replies := s.replies ++ if written then (reply m.data).toList else []
        dispatched := s.dispatched ++ [m] }
  | dispatch_late {i : ℕ} {m : InnerMessage} {frames : List InnerMessage} :
      s.late[i]? = some (m :: frames) →
      Change reply s { s with
        late := s.late.set i frames
        dispatched := s.dispatched ++ [m] }

theorem Change.same {sender : Connection} (hsubmitted : sender.submitted = s.sender.submitted)
    (hcancelled : sender.cancelled = s.sender.cancelled)
    (hnotified : sender.notified = s.sender.notified)
    (htransmitted : sender.transmitted = s.sender.transmitted)
    (hreplies : sender.replies = s.sender.replies) : Change reply s { s with sender } :=
  .quiet (by rw [hsubmitted]; exact fun _ hm => hm) (by rw [hcancelled]; exact fun _ hk => hk)
    hnotified htransmitted hreplies

/-- The changes that an event of the sender may make. -/
theorem change_of_sender (hreliable : s.sender.Reliable) {e : network.Event} {sender : Connection}
    (hreads : s.reads e = true) (hstep : s.sender.step e = some sender) :
    Change reply s (s.follow sender e) := by
  cases e with
  | send data =>
    cases hstep
    exact .quiet (fun _ hm => List.mem_append_left _ hm) (fun _ hk => hk) rfl rfl rfl
  | cancel handler =>
    unfold Connection.step at hstep
    dsimp only at hstep
    split at hstep <;> cases hstep
    exact .quiet (fun _ hm => hm) (fun _ hk => List.mem_cons_of_mem _ hk) rfl rfl rfl
  | timer =>
    unfold Connection.step at hstep
    dsimp only at hstep
    split at hstep <;> cases hstep
    exact .same rfl rfl rfl rfl rfl
  | connect ok =>
    unfold Connection.step at hstep
    dsimp only at hstep
    split at hstep
    · cases ok with
      | true =>
        cases hstep
        exact .connect rfl rfl rfl rfl rfl
      | false =>
        cases hstep
        exact .same rfl rfl rfl rfl rfl
    · cases hstep
  | receive =>
    change s.sender.receive = some sender at hstep
    unfold Connection.receive at hstep
    split at hstep
    · cases hstep
      exact .same rfl rfl rfl rfl rfl
    · split at hstep <;> cases hstep
      exact .same rfl rfl rfl rfl rfl
    · cases hstep
  | transmit ok =>
    obtain ⟨hsubmitted, hcancelled, hnotified, hreplies, htransmitted⟩ :=
      Connection.of_transmit hstep
    unfold follow
    rcases htransmitted with heq | ⟨m, buffer, hstatus, hbuffer, hopen, heq⟩
    · rw [heq, List.drop_length, List.append_nil]
      exact .same hsubmitted hcancelled hnotified heq hreplies
    · rw [heq, List.drop_left]
      exact .transmit hstatus hbuffer hopen hsubmitted hcancelled hnotified hreplies heq
  | response bytes =>
    obtain ⟨hsubmitted, hcancelled, htransmitted, hcases⟩ := hreliable.of_response hstep
    cases bytes with
    | none =>
      rcases hcases with ⟨hreplies, hnotified⟩ | ⟨_, _, heq, -⟩
      · exact .same hsubmitted hcancelled hnotified htransmitted hreplies
      · cases heq
    | some bytes =>
      obtain ⟨replies, hreplies⟩ : ∃ replies, s.replies = bytes :: replies :=
        List.head?_eq_some_iff.mp (beq_iff_eq.mp hreads)
      have hfollow : s.follow sender (.response (some bytes)) = { s with sender, replies } := by
        simp [follow, hreplies]
      rw [hfollow]
      rcases hcases with ⟨hread, hnotified⟩ | ⟨frame, m, heq, hfirst, hread, hnotified⟩
      · exact .unexpected hreplies hsubmitted hcancelled hnotified htransmitted hread
      · cases heq
        exact .read hreplies hfirst hsubmitted hcancelled htransmitted hread hnotified

theorem change_of_step (hreliable : s.sender.Reliable) (hstep : s.step reply e = some s') :
    Change reply s s' := by
  cases e with
  | sender e =>
    unfold step at hstep
    dsimp only at hstep
    split at hstep
    · rename_i hreads
      obtain ⟨sender, hsender, rfl⟩ := Option.map_eq_some_iff.mp hstep
      exact change_of_sender hreliable hreads hsender
    · cases hstep
  | dispatch written =>
    unfold step at hstep
    dsimp only at hstep
    split at hstep
    · cases hstep
    · rename_i m frames hframes
      cases hstep
      exact .dispatch hframes
  | dispatch_late i =>
    unfold step at hstep
    dsimp only at hstep
    split at hstep
    · rename_i m frames hlate
      cases hstep
      exact .dispatch_late hlate
    · cases hstep

/-! ## What was acknowledged -/

/-- The runner of the last connection was given all that was transmitted on it but the frames on the
way, and it wrote at most one reply for each. So each message whose handler was notified was
dispatched. -/
structure Answers (s : Link) : Prop where
  given : ∃ given, s.sender.transmitted = given ++ s.frames ∧
    s.sender.replies.length + s.replies.length ≤ given.length ∧ ∀ m ∈ given, m ∈ s.dispatched
  notified : ∀ x ∈ s.sender.notified, ∃ m ∈ s.dispatched, m.cancel_handler = x.1
  on_the_way : ∀ l ∈ s.frames :: s.late, ∀ m ∈ l, m ∈ s.sender.submitted
  submitted : ∀ m ∈ s.dispatched, m ∈ s.sender.submitted

theorem answers_spawn : Answers spawn where
  given := ⟨[], rfl, Nat.le_refl 0, nofun⟩
  notified := nofun
  on_the_way := by simp [spawn]
  submitted := nofun

theorem Answers.quiet (h : Answers s) {sender : Connection}
    (hsubmitted : ∀ m ∈ s.sender.submitted, m ∈ sender.submitted)
    (hnotified : sender.notified = s.sender.notified)
    (htransmitted : sender.transmitted = s.sender.transmitted)
    (hreplies : sender.replies = s.sender.replies) : Answers { s with sender } where
  given := by
    rw [htransmitted, hreplies]
    exact h.given
  notified := by
    rw [hnotified]
    exact h.notified
  on_the_way := fun l hl m hm => hsubmitted m (h.on_the_way l hl m hm)
  submitted := fun m hm => hsubmitted m (h.submitted m hm)

/-- The new runner is given nothing yet. The old one goes on with its frames. -/
theorem Answers.connect (h : Answers s) {sender : Connection}
    (hsubmitted : sender.submitted = s.sender.submitted)
    (hnotified : sender.notified = s.sender.notified) (htransmitted : sender.transmitted = [])
    (hreplies : sender.replies = []) :
    Answers { s with sender, frames := [], replies := [], late := s.late ++ [s.frames] } where
  given := ⟨[], by simpa using htransmitted, by simp [hreplies], nofun⟩
  notified := by
    rw [hnotified]
    exact h.notified
  on_the_way := by
    rw [hsubmitted]
    intro l hl m hm
    rcases List.mem_cons.mp hl with rfl | hl
    · cases hm
    · rcases List.mem_append.mp hl with hl | hl
      · exact h.on_the_way l (List.mem_cons_of_mem _ hl) m hm
      · rw [List.mem_singleton.mp hl] at hm
        exact h.on_the_way _ List.mem_cons_self m hm
  submitted := by
    rw [hsubmitted]
    exact h.submitted

theorem Answers.transmit (h : Answers s) (hreliable : s.sender.Reliable) {sender : Connection}
    {m : InnerMessage} {buffer : List InnerMessage} (hbuffer : s.sender.buffer = m :: buffer)
    (hopen : s.sender.is_closed m = false) (hsubmitted : sender.submitted = s.sender.submitted)
    (hnotified : sender.notified = s.sender.notified) (hreplies : sender.replies = s.sender.replies)
    (htransmitted : sender.transmitted = s.sender.transmitted ++ [m]) :
    Answers { s with sender, frames := s.frames ++ [m] } where
  given := by
    obtain ⟨given, hgiven, hle, hdispatched⟩ := h.given
    refine ⟨given, ?_, by rw [hreplies]; exact hle, hdispatched⟩
    rw [htransmitted, hgiven, List.append_assoc]
  notified := by
    rw [hnotified]
    exact h.notified
  on_the_way := by
    rw [hsubmitted]
    intro l hl x hx
    rcases List.mem_cons.mp hl with rfl | hl
    · rcases List.mem_append.mp hx with hx | hx
      · exact h.on_the_way _ List.mem_cons_self x hx
      · rw [List.mem_singleton.mp hx]
        exact hreliable.mem_submitted (by simp [Connection.queue, hbuffer]) hopen
    · exact h.on_the_way l (List.mem_cons_of_mem _ hl) x hx
  submitted := by
    rw [hsubmitted]
    exact h.submitted

theorem Answers.read (h : Answers s) {sender : Connection} {bytes : Bytes} {replies : List Bytes}
    {m : InnerMessage} (hreplies : s.replies = bytes :: replies)
    (hfirst : s.sender.transmitted[s.sender.replies.length]? = some m)
    (hsubmitted : sender.submitted = s.sender.submitted)
    (htransmitted : sender.transmitted = s.sender.transmitted)
    (hread : sender.replies = s.sender.replies ++ [bytes])
    (hnotified : sender.notified = s.sender.notified ∨
      sender.notified = s.sender.notified ++ [(m.cancel_handler, bytes)]) :
    Answers { s with sender, replies } := by
  obtain ⟨given, hgiven, hle, hdispatched⟩ := h.given
  rw [hreplies, List.length_cons] at hle
  refine ⟨⟨given, by rw [htransmitted, hgiven], ?_, hdispatched⟩, ?_, ?_, ?_⟩
  · rw [hread, List.length_append, List.length_singleton, Nat.add_right_comm]
    exact hle
  · -- the reply was written for a message that the runner was given
    have hm : m ∈ s.dispatched := by
      rw [hgiven, List.getElem?_append_left (by omega)] at hfirst
      exact hdispatched m (List.mem_of_getElem? hfirst)
    rcases hnotified with heq | heq
    · rw [heq]
      exact h.notified
    · rw [heq]
      exact List.forall_mem_append.mpr ⟨h.notified, List.forall_mem_singleton.mpr ⟨m, hm, rfl⟩⟩
  · rw [hsubmitted]
    exact h.on_the_way
  · rw [hsubmitted]
    exact h.submitted

theorem Answers.unexpected (h : Answers s) {sender : Connection} {bytes : Bytes}
    {replies : List Bytes} (hreplies : s.replies = bytes :: replies)
    (hsubmitted : sender.submitted = s.sender.submitted)
    (hnotified : sender.notified = s.sender.notified)
    (htransmitted : sender.transmitted = s.sender.transmitted)
    (hread : sender.replies = s.sender.replies) : Answers { s with sender, replies } where
  given := by
    obtain ⟨given, hgiven, hle, hdispatched⟩ := h.given
    rw [hreplies, List.length_cons] at hle
    refine ⟨given, by rw [htransmitted, hgiven], ?_, hdispatched⟩
    rw [hread]
    exact Nat.le_of_succ_le hle
  notified := by
    rw [hnotified]
    exact h.notified
  on_the_way := by
    rw [hsubmitted]
    exact h.on_the_way
  submitted := by
    rw [hsubmitted]
    exact h.submitted

/-- The handlers of what was dispatched stay those of messages that were dispatched. -/
theorem Answers.notified_concat (h : Answers s) (m : InnerMessage) :
    ∀ x ∈ s.sender.notified, ∃ m' ∈ s.dispatched ++ [m], m'.cancel_handler = x.1 := by
  intro x hx
  obtain ⟨m', hm', heq⟩ := h.notified x hx
  exact ⟨m', List.mem_append_left _ hm', heq⟩

theorem Answers.dispatch (h : Answers s) {m : InnerMessage} {frames : List InnerMessage}
    (written : Bool) (hframes : s.frames = m :: frames) :
    Answers { s with
      frames
      replies := s.replies ++ if written then (reply m.data).toList else []
      dispatched := s.dispatched ++ [m] } where
  given := by
    obtain ⟨given, hgiven, hle, hdispatched⟩ := h.given
    have hone : (if written then (reply m.data).toList else []).length ≤ 1 := by
      split
      · exact Option.length_toList_le
      · exact Nat.zero_le 1
    refine ⟨given ++ [m], by simp [hgiven, hframes], ?_, ?_⟩
    · change s.sender.replies.length + (s.replies ++ _).length ≤ _
      rw [List.length_append, List.length_append, List.length_singleton]
      omega
    · exact fun x hx => List.mem_append.mpr ((List.mem_append.mp hx).imp_left (hdispatched x))
  notified := h.notified_concat m
  on_the_way := by
    intro l hl x hx
    rcases List.mem_cons.mp hl with rfl | hl
    · exact h.on_the_way _ List.mem_cons_self x (hframes ▸ List.mem_cons_of_mem _ hx)
    · exact h.on_the_way l (List.mem_cons_of_mem _ hl) x hx
  submitted := by
    have hm := h.on_the_way _ List.mem_cons_self m (hframes ▸ List.mem_cons_self)
    exact List.forall_mem_append.mpr ⟨h.submitted, List.forall_mem_singleton.mpr hm⟩

/-- What the runner of an old connection does, the one of the last connection does not see. -/
theorem Answers.dispatch_late (h : Answers s) {i : ℕ} {m : InnerMessage}
    {frames : List InnerMessage} (hlate : s.late[i]? = some (m :: frames)) :
    Answers { s with late := s.late.set i frames, dispatched := s.dispatched ++ [m] } := by
  have hway := h.on_the_way _ (List.mem_cons_of_mem _ (List.mem_of_getElem? hlate))
  obtain ⟨given, hgiven, hle, hdispatched⟩ := h.given
  refine ⟨⟨given, hgiven, hle, fun x hx => List.mem_append_left _ (hdispatched x hx)⟩,
    h.notified_concat m, ?_, ?_⟩
  · intro l hl x hx
    rcases List.mem_cons.mp hl with rfl | hl
    · exact h.on_the_way _ List.mem_cons_self x hx
    · rcases List.mem_or_eq_of_mem_set hl with hl | rfl
      · exact h.on_the_way l (List.mem_cons_of_mem _ hl) x hx
      · exact hway x (List.mem_cons_of_mem _ hx)
  · exact List.forall_mem_append.mpr ⟨h.submitted,
      List.forall_mem_singleton.mpr (hway m List.mem_cons_self)⟩

/-- Every change keeps it, whatever the handler writes. -/
theorem Answers.step (h : Answers s) (hreliable : s.sender.Reliable)
    (hchange : Change reply s s') : Answers s' := by
  cases hchange with
  | quiet hsubmitted _ hnotified htransmitted hreplies =>
    exact h.quiet hsubmitted hnotified htransmitted hreplies
  | connect hsubmitted _ hnotified htransmitted hreplies =>
    exact h.connect hsubmitted hnotified htransmitted hreplies
  | transmit _ hbuffer hopen hsubmitted _ hnotified hreplies htransmitted =>
    exact h.transmit hreliable hbuffer hopen hsubmitted hnotified hreplies htransmitted
  | read hreplies hfirst hsubmitted _ htransmitted hread hnotified =>
    exact h.read hreplies hfirst hsubmitted htransmitted hread hnotified
  | unexpected hreplies hsubmitted _ hnotified htransmitted hread =>
    exact h.unexpected hreplies hsubmitted hnotified htransmitted hread
  | dispatch hframes => exact h.dispatch _ hframes
  | dispatch_late hlate => exact h.dispatch_late hlate

theorem answers_of_run (h : run reply events = some s) : Answers s := by
  induction events using List.reverseRecOn generalizing s with
  | nil =>
    cases h
    exact answers_spawn
  | append_singleton events e ih =>
    obtain ⟨before, hbefore, hstep⟩ := run_concat.mp h
    have hreliable := reliable_of_run hbefore
    exact (ih hbefore).step hreliable (change_of_step hreliable hstep)

/-! ## The order of what is dispatched -/

/-- The message of the number was cancelled, or it is one of those in the list. -/
def Past (s : Link) (l : List InnerMessage) (k : ℕ) : Prop :=
  k ∈ s.sender.cancelled ∨ ∃ m ∈ l, m.cancel_handler = k

/-- No message comes to the handler while one before it never came, unless that one was cancelled.
-/
structure InOrder (s : Link) : Prop where
  frames : ∀ l ∈ s.frames :: s.late, Each (fun pre m =>
    ∀ k < m.cancel_handler, s.Past (s.dispatched ++ pre) k) l
  dispatched : Each (fun pre m => ∀ k < m.cancel_handler, s.Past pre k) s.dispatched

theorem inOrder_spawn : InOrder spawn where
  frames := by
    intro l hl
    rw [List.mem_singleton.mp hl]
    exact each_nil
  dispatched := each_nil

theorem Past.mono {l l' : List InnerMessage} {k : ℕ} (h : s.Past l k)
    (hcancelled : ∀ k ∈ s.sender.cancelled, k ∈ s'.sender.cancelled) (hl : ∀ m ∈ l, m ∈ l') :
    s'.Past l' k :=
  h.imp (hcancelled k) fun ⟨m, hm, heq⟩ => ⟨m, hl m hm, heq⟩

/-- Before a message that is transmitted come all those before it that were not dispatched. -/
theorem past_of_transmit (h : Answers s) (hreliable : s.sender.Reliable)
    (hstatus : s.sender.status = .alive) {m : InnerMessage} {buffer : List InnerMessage}
    (hbuffer : s.sender.buffer = m :: buffer) (hopen : s.sender.is_closed m = false) {k : ℕ}
    (hk : k < m.cancel_handler) : s.Past (s.dispatched ++ s.frames) k := by
  have hm : m ∈ s.sender.submitted :=
    hreliable.mem_submitted (by simp [Connection.queue, hbuffer]) hopen
  obtain ⟨m', hm', rfl⟩ : ∃ m' ∈ s.sender.submitted, m'.cancel_handler = k := by
    have hlt : m.cancel_handler < s.sender.submitted.length := by
      rw [← List.mem_range, ← hreliable.handlers]
      exact List.mem_map_of_mem hm
    have hmem : k ∈ s.sender.submitted.map (·.cancel_handler) := by
      rw [hreliable.handlers]
      exact List.mem_range.mpr (Nat.lt_trans hk hlt)
    exact List.mem_map.mp hmem
  by_cases hclosed : s.sender.is_closed m' = true
  · exact Or.inl (List.contains_iff_mem.mp hclosed)
  by_cases hack : s.sender.acknowledged m' = true
  · obtain ⟨x, hx, heq⟩ := List.any_eq_true.mp hack
    obtain ⟨y, hy, hyx⟩ := h.notified x hx
    exact Or.inr ⟨y, List.mem_append_left _ hy, hyx.trans (beq_iff_eq.mp heq)⟩
  -- it is outstanding, and comes before the message in the queue
  have hout : m' ∈ s.sender.outstanding :=
    List.mem_filter.mpr ⟨hm', by simp [hclosed, hack]⟩
  have hsorted : s.sender.outstanding.Pairwise (·.cancel_handler < ·.cancel_handler) := by
    have hsub : (s.sender.outstanding.map (·.cancel_handler)).Sublist
        (s.sender.submitted.map (·.cancel_handler)) := List.filter_sublist.map _
    rw [hreliable.handlers] at hsub
    exact List.pairwise_map.mp (List.pairwise_lt_range.sublist hsub)
  rw [← hreliable.order, Connection.queue, hbuffer, List.append_assoc, List.filter_append] at hout
  rw [← hreliable.order, Connection.queue, hbuffer, List.append_assoc, List.filter_append,
    List.cons_append, List.filter_cons_of_pos (by simp [hopen])] at hsorted
  rcases List.mem_append.mp hout with hpending | hrest
  · have htransmitted : m' ∈ s.sender.transmitted := by
      have hpending := List.mem_of_mem_filter hpending
      rw [(hreliable.replied hstatus).2] at hpending
      exact List.mem_of_mem_drop hpending
    obtain ⟨given, hgiven, -, hdispatched⟩ := h.given
    rw [hgiven] at htransmitted
    refine Or.inr ⟨m', ?_, rfl⟩
    exact List.mem_append.mpr ((List.mem_append.mp htransmitted).imp_left (hdispatched m'))
  · rw [List.cons_append, List.filter_cons_of_pos (by simp [hopen])] at hrest
    rcases List.mem_cons.mp hrest with rfl | hrest
    · exact absurd hk (Nat.lt_irrefl _)
    · have hlt := (List.pairwise_cons.mp (List.pairwise_append.mp hsorted).2.1).1 m' hrest
      exact absurd hk (Nat.lt_asymm hlt)

/-- Frames in order stay so when more is dispatched. -/
theorem inOrder_mono {l : List InnerMessage}
    (h : Each (fun pre m => ∀ k < m.cancel_handler, s.Past (s.dispatched ++ pre) k) l)
    (hcancelled : ∀ k ∈ s.sender.cancelled, k ∈ s'.sender.cancelled)
    (hdispatched : ∀ m ∈ s.dispatched, m ∈ s'.dispatched) :
    Each (fun pre m => ∀ k < m.cancel_handler, s'.Past (s'.dispatched ++ pre) k) l :=
  h.imp fun _ _ hpast k hk => (hpast k hk).mono hcancelled fun _ hx =>
    List.mem_append.mpr ((List.mem_append.mp hx).imp_left (hdispatched _))

/-- The first frame in order may be dispatched, and then the others are in order. -/
theorem inOrder_cons (s' : Link) {m : InnerMessage} {frames : List InnerMessage}
    (h : Each (fun pre m => ∀ k < m.cancel_handler, s.Past (s.dispatched ++ pre) k) (m :: frames))
    (hcancelled : s'.sender.cancelled = s.sender.cancelled)
    (hdispatched : s'.dispatched = s.dispatched ++ [m]) :
    (∀ k < m.cancel_handler, s'.Past s.dispatched k) ∧
      Each (fun pre m => ∀ k < m.cancel_handler, s'.Past (s'.dispatched ++ pre) k) frames := by
  have hmono : ∀ k ∈ s.sender.cancelled, k ∈ s'.sender.cancelled := by
    rw [hcancelled]
    exact fun _ hk => hk
  constructor
  · intro k hk
    have hpast := h [] m frames rfl k hk
    rw [List.append_nil] at hpast
    exact hpast.mono hmono fun _ hx => hx
  · intro pre x post heq k hk
    have hpast := h (m :: pre) x post (by rw [heq]; rfl) k hk
    refine hpast.mono hmono fun y hy => ?_
    rw [hdispatched, List.append_assoc]
    exact hy

theorem InOrder.step (h : InOrder s) (hanswers : Answers s) (hreliable : s.sender.Reliable)
    (hchange : Change reply s s') : InOrder s' := by
  have hself : ∀ m ∈ s.dispatched, m ∈ s.dispatched := fun _ hm => hm
  cases hchange with
  | quiet _ hcancelled _ _ _ =>
    refine ⟨fun l hl => inOrder_mono (h.frames l hl) hcancelled hself, ?_⟩
    exact h.dispatched.imp fun _ _ hpast k hk => (hpast k hk).mono hcancelled fun _ hx => hx
  | connect _ hcancelled _ _ _ =>
    have hmono : ∀ k ∈ s.sender.cancelled, k ∈ _ := fun k hk => hcancelled.symm ▸ hk
    refine ⟨fun l hl => ?_, ?_⟩
    · rcases List.mem_cons.mp hl with rfl | hl
      · exact each_nil
      · refine inOrder_mono (h.frames l ?_) hmono hself
        rcases List.mem_append.mp hl with hl | hl
        · exact List.mem_cons_of_mem _ hl
        · rw [List.mem_singleton.mp hl]
          exact List.mem_cons_self
    · exact h.dispatched.imp fun _ _ hpast k hk => (hpast k hk).mono hmono fun _ hx => hx
  | @transmit sender m buffer hstatus hbuffer hopen _ hcancelled _ _ _ =>
    have hmono : ∀ k ∈ s.sender.cancelled, k ∈ _ := fun k hk => hcancelled.symm ▸ hk
    refine ⟨fun l hl => ?_, ?_⟩
    · rcases List.mem_cons.mp hl with rfl | hl
      · refine inOrder_mono ((h.frames _ List.mem_cons_self).concat ?_) hmono hself
        exact fun k hk => past_of_transmit hanswers hreliable hstatus hbuffer hopen hk
      · exact inOrder_mono (h.frames l (List.mem_cons_of_mem _ hl)) hmono hself
    · exact h.dispatched.imp fun _ _ hpast k hk => (hpast k hk).mono hmono fun _ hx => hx
  | read _ _ _ hcancelled _ _ _ | unexpected _ _ hcancelled _ _ _ =>
    have hmono : ∀ k ∈ s.sender.cancelled, k ∈ _ := fun k hk => hcancelled.symm ▸ hk
    refine ⟨fun l hl => inOrder_mono (h.frames l hl) hmono hself, ?_⟩
    exact h.dispatched.imp fun _ _ hpast k hk => (hpast k hk).mono hmono fun _ hx => hx
  | @dispatch m frames written hframes =>
    have hfirst := h.frames _ List.mem_cons_self
    rw [hframes] at hfirst
    obtain ⟨hpast, hrest⟩ := inOrder_cons { s with
      frames
      replies := s.replies ++ if written then (reply m.data).toList else []
      dispatched := s.dispatched ++ [m] } hfirst rfl rfl
    refine ⟨fun l hl => ?_, h.dispatched.concat hpast⟩
    rcases List.mem_cons.mp hl with rfl | hl
    · exact hrest
    · exact inOrder_mono (h.frames l (List.mem_cons_of_mem _ hl)) (fun _ hk => hk)
        fun _ hm => List.mem_append_left _ hm
  | @dispatch_late i m frames hlate =>
    obtain ⟨hpast, hrest⟩ := inOrder_cons { s with
      late := s.late.set i frames
      dispatched := s.dispatched ++ [m] }
      (h.frames _ (List.mem_cons_of_mem _ (List.mem_of_getElem? hlate))) rfl rfl
    refine ⟨fun l hl => ?_, h.dispatched.concat hpast⟩
    have hold : ∀ l ∈ s.frames :: s.late, Each (fun pre x => ∀ k < x.cancel_handler,
        Past { s with late := s.late.set i frames, dispatched := s.dispatched ++ [m] }
          (s.dispatched ++ [m] ++ pre) k) l :=
      fun l hl => inOrder_mono (h.frames l hl) (fun _ hk => hk) fun _ hm => List.mem_append_left _ hm
    rcases List.mem_cons.mp hl with rfl | hl
    · exact hold _ List.mem_cons_self
    · rcases List.mem_or_eq_of_mem_set hl with hl | rfl
      · exact hold l (List.mem_cons_of_mem _ hl)
      · exact hrest

theorem inOrder_of_run (h : run reply events = some s) : InOrder s := by
  induction events using List.reverseRecOn generalizing s with
  | nil =>
    cases h
    exact inOrder_spawn
  | append_singleton events e ih =>
    obtain ⟨before, hbefore, hstep⟩ := run_concat.mp h
    have hreliable := reliable_of_run hbefore
    exact (ih hbefore).step (answers_of_run hbefore) hreliable (change_of_step hreliable hstep)

/-- For every run of a link, whatever the handler writes and wherever connections break: a handler
is notified only once the peer has dispatched its message, the peer dispatches only messages that
were submitted, and each message that was submitted is dispatched, cancelled or still in the queue
of the sender. -/
theorem acknowledged_messages_were_dispatched (reply : Bytes → Option Bytes) (events : List Event)
    (s : Link) (hrun : run reply events = some s) :
    (∀ x ∈ s.sender.notified, ∃ m ∈ s.dispatched, m.cancel_handler = x.1) ∧
    (∀ m ∈ s.dispatched, m ∈ s.sender.submitted) ∧
    ∀ m ∈ s.sender.submitted, m ∈ s.dispatched ∨ s.sender.is_closed m = true ∨
      m ∈ s.sender.queue := by
  have hanswers := answers_of_run hrun
  have hreliable := reliable_of_run hrun
  refine ⟨hanswers.notified, hanswers.submitted, fun m hm => ?_⟩
  by_cases hclosed : s.sender.is_closed m = true
  · exact Or.inr (Or.inl hclosed)
  by_cases hack : s.sender.acknowledged m = true
  · obtain ⟨x, hx, heq⟩ := List.any_eq_true.mp hack
    obtain ⟨y, hy, hyx⟩ := hanswers.notified x hx
    obtain rfl := hreliable.eq_of_handler (hanswers.submitted y hy) hm
      (hyx.trans (beq_iff_eq.mp heq))
    exact Or.inl hy
  · have hout : m ∈ s.sender.outstanding := List.mem_filter.mpr ⟨hm, by simp [hclosed, hack]⟩
    rw [← hreliable.order] at hout
    exact Or.inr (Or.inr (List.mem_of_mem_filter hout))

/-- For every run of a link, whatever the handler writes and wherever connections break, also while
the runners of old connections go on: when a message is dispatched, each message submitted before it
was dispatched earlier or is cancelled. -/
theorem messages_are_dispatched_in_order (reply : Bytes → Option Bytes) (events : List Event)
    (s : Link) (hrun : run reply events = some s) :
    Each (fun pre m => ∀ m' ∈ s.sender.submitted, m'.cancel_handler < m.cancel_handler →
      m' ∈ pre ∨ s.sender.is_closed m' = true) s.dispatched := by
  have hanswers := answers_of_run hrun
  have hreliable := reliable_of_run hrun
  intro pre m post heq m' hm' hlt
  rcases (inOrder_of_run hrun).dispatched pre m post heq _ hlt with hcancelled | ⟨x, hx, hxm⟩
  · exact Or.inr (List.contains_iff_mem.mpr hcancelled)
  · have hdispatched : x ∈ s.dispatched := by
      rw [heq]
      exact List.mem_append_left _ hx
    obtain rfl := hreliable.eq_of_handler (hanswers.submitted x hdispatched) hm' hxm
    exact Or.inl hx

end

/-- The handlers of the workers and of the primaries write this for a frame. -/
def ack (_ : Bytes) : Option Bytes := some [65, 99, 107]

/-- Two messages. The first connection breaks once the first one is dispatched, and its runner takes
the second one while the sender transmits both again. -/
def late_runner : List Event :=
  [.sender (.send [1]), .sender (.send [2]), .sender (.connect true), .sender .receive,
    .sender (.transmit true), .sender .receive, .sender (.transmit true), .dispatch true,
    .sender (.response none), .sender (.connect true), .sender (.transmit true),
    .sender (.transmit true), .dispatch_late 1, .dispatch true,
    .sender (.response (some [65, 99, 107]))]

def late_runner_state : Link := (run ack late_runner).get (by decide +kernel)

theorem acknowledged_messages_were_dispatched_late :
    late_runner_state.sender.notified = [(0, [65, 99, 107])] ∧
      ∀ x ∈ late_runner_state.sender.notified,
        ∃ m ∈ late_runner_state.dispatched, m.cancel_handler = x.1 :=
  ⟨by decide +kernel, (acknowledged_messages_were_dispatched ack late_runner late_runner_state
    (Option.some_get _).symm).1⟩

theorem messages_are_dispatched_in_order_late :
    late_runner_state.dispatched.map (·.cancel_handler) = [0, 1, 0] ∧
      Each (fun pre m => ∀ m' ∈ late_runner_state.sender.submitted,
        m'.cancel_handler < m.cancel_handler →
          m' ∈ pre ∨ late_runner_state.sender.is_closed m' = true) late_runner_state.dispatched :=
  ⟨by decide +kernel, messages_are_dispatched_in_order ack late_runner late_runner_state
    (Option.some_get _).symm⟩

end Link

end sailfish.network
