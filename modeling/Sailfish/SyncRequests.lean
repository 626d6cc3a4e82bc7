-- The law of the sync requests: what a suspended header misses stays requested. The
-- requests are kept by digest alone, and go with the header that made them first.
import Mathlib
import Sailfish.HeaderWaiter

open Std splits sailfish.crypto sailfish.config

namespace sailfish.primary

namespace HeaderWaiter

section

variable [Crypto]

/-- The parent is neither a genesis certificate nor in the store. -/
def Missing (node : Node) (store : Store) (digest : Digest) : Prop :=
  (∀ g ∈ genesis_digests node.committee, g.1 ≠ digest) ∧ digest ∉ store.records

/-- The synchronizer made the message, with this store or an earlier one. A header that waits for
its payload has all its parents. -/
structure FromSynchronizer (node : Node) (store : Store) (message : WaiterMessage) : Prop where
  parents : ∀ d ∈ message.header.parents, Missing node store d → d ∈ message.parents
  batches : ∀ batch ∈ message.batches, batch ∈ message.header.payload.toList

instance {node : Node} {store : Store} {digest : Digest} : Decidable (Missing node store digest) :=
  inferInstanceAs (Decidable ((∀ g ∈ genesis_digests node.committee, g.1 ≠ digest) ∧ _))

variable {node : Node} {store : Store}

omit [Crypto] in
/-- The digests without a certificate are missing. -/
theorem missing_of_find_parents_cons {genesis : List (Digest × Certificate)} {d : Digest}
    {digests missing : List Digest} {parents : List Certificate}
    (h : find_parents genesis store (d :: digests) = .ok (missing, parents)) :
    ∃ rest found, find_parents genesis store digests = .ok (rest, found) ∧
      (∀ x ∈ rest, x ∈ missing) ∧
        ((∀ g ∈ genesis, g.1 ≠ d) → d ∉ store.records → d ∈ missing) := by
  rw [find_parents] at h
  rcases hrest : find_parents genesis store digests with e | ⟨rest, found⟩
  · rcases hgenesis : genesis.find? (·.1 == d) with _ | g <;>
      rcases hrecord : store.records[d]? with _ | (header | c) <;>
        simp [hrest, hgenesis, hrecord, bind, Except.bind] at h
  · refine ⟨rest, found, rfl, ?_⟩
    rcases hgenesis : genesis.find? (·.1 == d) with _ | g
    · rcases hrecord : store.records[d]? with _ | (header | c)
      · simp only [hrest, hgenesis, hrecord, bind, Except.bind, pure, Except.pure,
          Except.ok.injEq, Prod.mk.injEq] at h
        rw [← h.1]
        exact ⟨fun x hx => List.mem_cons_of_mem d hx, fun _ _ => List.mem_cons_self⟩
      · simp [hgenesis, hrecord] at h
      · simp only [hrest, hgenesis, hrecord, bind, Except.bind, pure, Except.pure,
          Except.ok.injEq, Prod.mk.injEq] at h
        rw [← h.1]
        refine ⟨fun _ hx => hx, fun _ hnot => absurd ?_ hnot⟩
        exact ExtTreeMap.isSome_getElem?_iff_mem.mp (by rw [hrecord]; rfl)
    · simp only [hrest, hgenesis, bind, Except.bind, pure, Except.pure,
        Except.ok.injEq, Prod.mk.injEq] at h
      rw [← h.1]
      refine ⟨fun _ hx => hx, fun hnot _ => absurd ?_ (hnot g (List.mem_of_find?_eq_some hgenesis))⟩
      exact beq_iff_eq.mp (List.find?_some hgenesis :)

omit [Crypto] in
theorem mem_missing_of_find_parents {genesis : List (Digest × Certificate)}
    {digests missing : List Digest} {parents : List Certificate}
    (h : find_parents genesis store digests = .ok (missing, parents)) {d : Digest} (hd : d ∈ digests)
    (hgenesis : ∀ g ∈ genesis, g.1 ≠ d) (hrecord : d ∉ store.records) : d ∈ missing := by
  induction digests generalizing missing parents with
  | nil => cases hd
  | cons d' digests ih =>
    obtain ⟨rest, found, hrest, hmem, hhead⟩ := missing_of_find_parents_cons h
    rcases List.mem_cons.mp hd with rfl | hd
    · exact hhead hgenesis hrecord
    · exact hmem d (ih hrest hd)

/-- The message of `get_parents`. -/
theorem fromSynchronizer_get_parents {header : Header} {missing : List Digest}
    {parents : List Certificate} (h : find_parents (genesis_digests node.committee) store
      header.parents.toList = .ok (missing, parents)) :
    FromSynchronizer node store (.sync_parents missing header) where
  parents := fun _ hd hmissing => mem_missing_of_find_parents h (ExtTreeSet.mem_toList.mpr hd)
    hmissing.1 hmissing.2
  batches := nofun

/-- The message of `missing_payload`, which comes after `get_parents` has found all the parents. -/
theorem fromSynchronizer_missing_payload {header : Header} {parents : List Certificate}
    (h : find_parents (genesis_digests node.committee) store header.parents.toList =
      .ok ([], parents)) :
    FromSynchronizer node store
      (.sync_batches (missing_batches node.name store header) header) where
  parents := fun _ hd hmissing => mem_missing_of_find_parents h (ExtTreeSet.mem_toList.mpr hd)
    hmissing.1 hmissing.2
  batches := by
    intro batch hbatch
    change batch ∈ missing_batches node.name store header at hbatch
    unfold missing_batches at hbatch
    split at hbatch
    · cases hbatch
    · exact List.mem_of_mem_filter hbatch

/-! ## The law -/

/-- A request for the batch went to its worker of an authority of `A`. -/
def Asked (A : PublicKey → Prop) (sent : List Request) (batch : Digest × ℕ) : Prop :=
  ∃ authority digests target, A authority ∧ batch.1 ∈ digests ∧
    .synchronize authority batch.2 digests target ∈ sent

/-- The request went out since some header that waits for the batch was suspended. -/
def AskedSince (node : Node) (sync_retry_delay : ℕ) (store : Store) (A : PublicKey → Prop)
    (events : List Event) (s : HeaderWaiter) (batch : Digest × ℕ) : Prop :=
  ∃ pre message now post before, events = pre ++ .message message now :: post ∧
    batch ∈ message.batches ∧ run node sync_retry_delay store pre = some before ∧
    Asked A (s.sent.drop before.sent.length) batch

variable (node) (sync_retry_delay : ℕ) (A : PublicKey → Prop)

/-- Each parent that a pending header misses is in `parent_requests`. -/
def ParentsRequested (s : HeaderWaiter) : Prop :=
  ∀ w ∈ s.waiting, s.is_pending w = true → ∀ d ∈ w.message.header.parents,
    Missing node s.store d → d ∈ s.parent_requests

/-- Each batch that a pending header waits for and misses meets `Q`. -/
def BatchesRequested (Q : Digest × ℕ → Prop) (s : HeaderWaiter) : Prop :=
  ∀ w ∈ s.waiting, s.is_pending w = true → ∀ batch ∈ w.message.batches,
    batch ∉ s.store.batches → Q batch

/-- No header that the cleanup keeps misses a parent whose request it removes. -/
def Keeps (s : HeaderWaiter) : Prop :=
  ∀ w ∈ s.waiting, s.is_pending w = true → s.survives node w.message.header.round = true →
    ∀ d ∈ w.message.header.parents, Missing node s.store d →
      ∀ entry, s.parent_requests[d]? = some entry → s.survives node entry.1 = true

/-- A header that the cleanup keeps, when it comes to wait for batches: each of them that is missing
was requested before, or its digest was not and the author is in `A`. -/
def Asks (s : HeaderWaiter) : Event → Prop
  | .message message _ => s.survives node message.header.round = true →
    ∀ batch ∈ message.batches, batch ∉ s.store.batches →
      Asked A s.sent batch ∨ A message.header.author ∧ batch.1 ∉ s.batch_requests
  | _ => True

/-- When the event leads to a cleanup. -/
def Meets (s : HeaderWaiter) (e : Event) : Prop :=
  ∀ s', s.turn node sync_retry_delay e = some (s', true) → Keeps node s' ∧ Asks node A s e

end

/-! ## What is sent to workers -/

section

variable {A : PublicKey → Prop} {s s' : HeaderWaiter} {batch : Digest × ℕ}

theorem asked_append {l l' : List Request} :
    Asked A (l ++ l') batch ↔ Asked A l batch ∨ Asked A l' batch := by
  unfold Asked
  simp only [List.mem_append, and_or_left, exists_or]

theorem not_asked_nil : ¬ Asked A [] batch := by
  rintro ⟨authority, digests, target, -, -, hm⟩
  cases hm

theorem unsent (l : List Request) : ∃ new, l = l ++ new ∧ ∀ A batch, ¬ Asked A new batch :=
  ⟨[], (List.append_nil l).symm, fun _ _ => not_asked_nil⟩

theorem not_asked_certificates_request {addresses : List PublicKey} {digests : List Digest}
    {requestor : PublicKey} :
    ¬ Asked A [.certificates_request addresses digests requestor] batch := by
  rintro ⟨authority, digests', target, -, -, hm⟩
  cases List.mem_singleton.mp hm

theorem asked_synchronize {author : PublicKey} {requires_sync : List (Digest × ℕ)} :
    Asked A (synchronize author requires_sync) batch ↔ A author ∧ batch ∈ requires_sync := by
  unfold Asked synchronize
  constructor
  · rintro ⟨authority, digests, target, hA, hd, hm⟩
    obtain ⟨worker_id, -, heq⟩ := List.mem_map.mp hm
    cases heq
    obtain ⟨batch', hbatch', hdigest⟩ := List.mem_map.mp hd
    rw [List.mem_filter, decide_eq_true_eq] at hbatch'
    refine ⟨hA, ?_⟩
    rw [← Prod.ext hdigest hbatch'.2]
    exact hbatch'.1
  · rintro ⟨hA, hm⟩
    refine ⟨author, _, author, hA, ?_, List.mem_map.mpr ⟨batch.2, ?_, rfl⟩⟩
    · exact List.mem_map_of_mem (List.mem_filter.mpr ⟨hm, decide_eq_true rfl⟩)
    · exact List.mem_dedup.mpr (List.mem_map_of_mem hm)

end

/-! ## The turns -/

section

variable [Crypto] {node : Node} {sync_retry_delay : ℕ} {A : PublicKey → Prop} {s s' : HeaderWaiter}
  {batch : Digest × ℕ}

/-- The waiters have channels of their own, and a pending waiter has the round of its header. The
parents that a header misses are among those that its waiter waits for. -/
structure Pooled (node : Node) (s : HeaderWaiter) : Prop where
  fresh : ∀ w ∈ s.waiting, w.handler < s.channels
  opened : ∀ (d : Digest) (entry : ℕ × ℕ), s.pending[d]? = some entry → entry.2 < s.channels
  round : ∀ w ∈ s.waiting, ∀ entry, s.pending[w.message.header.id]? = some entry →
    entry.2 = w.handler → entry.1 = w.message.header.round
  parents : ∀ w ∈ s.waiting, ∀ d ∈ w.message.header.parents, Missing node s.store d →
    d ∈ w.message.parents

omit [Crypto] in
theorem is_pending_iff {w : Waiter} : s.is_pending w = true ↔
    ∃ entry, s.pending[w.message.header.id]? = some entry ∧ entry.2 = w.handler := by
  unfold is_pending
  rcases s.pending[w.message.header.id]? with _ | entry <;> simp

/-- A turn without a new waiter: some waiters may end, and the data only grows. -/
structure Continues (node : Node) (s s' : HeaderWaiter) : Prop where
  waiting : ∀ w ∈ s'.waiting, w ∈ s.waiting
  pending : ∀ (d : Digest) (entry : ℕ × ℕ), s'.pending[d]? = some entry → s.pending[d]? = some entry
  channels : s'.channels = s.channels
  missing : ∀ d, Missing node s'.store d → Missing node s.store d
  batches : ∀ batch ∈ s.store.batches, batch ∈ s'.store.batches
  sent : ∃ new, s'.sent = s.sent ++ new ∧ ∀ A batch, ¬ Asked A new batch

/-- A turn that suspends a header. -/
structure Suspends (message : WaiterMessage) (s s' : HeaderWaiter) : Prop where
  new : message.header.id ∉ s.pending
  waiting : s'.waiting = s.waiting ++ [{ message, handler := s.channels }]
  pending : s'.pending = s.pending.insert message.header.id (message.header.round, s.channels)
  channels : s'.channels = s.channels + 1
  store : s'.store = s.store
  consensus_round : s'.consensus_round = s.consensus_round
  parent_requests : ∀ d, d ∈ s'.parent_requests ↔ d ∈ s.parent_requests ∨ d ∈ message.parents
  sent : ∃ new, s'.sent = s.sent ++ new ∧ ∀ A batch, Asked A new batch →
    A message.header.author ∧ batch ∈ message.batches ∧ batch.1 ∉ s.batch_requests
  asked : ∀ A, ∀ batch ∈ message.batches,
    (∀ x ∈ message.batches, ∀ y ∈ message.batches, x.1 = y.1 → x = y) →
    A message.header.author → batch.1 ∉ s.batch_requests → Asked A s'.sent batch

theorem continues_self : Continues node s s where
  waiting := fun _ h => h
  pending := fun _ _ h => h
  channels := rfl
  missing := fun _ h => h
  batches := fun _ h => h
  sent := unsent _

theorem Continues.is_pending (h : Continues node s s') {w : Waiter} (hw : s'.is_pending w = true) :
    s.is_pending w = true := by
  obtain ⟨entry, hentry, hhandler⟩ := is_pending_iff.mp hw
  exact is_pending_iff.mpr ⟨entry, h.pending _ _ hentry, hhandler⟩

theorem Pooled.continues (hpool : Pooled node s) (h : Continues node s s') : Pooled node s' where
  fresh := by
    rw [h.channels]
    exact fun w hw => hpool.fresh w (h.waiting w hw)
  opened := by
    rw [h.channels]
    exact fun d entry he => hpool.opened d entry (h.pending d entry he)
  round := fun w hw entry he => hpool.round w (h.waiting w hw) entry (h.pending _ entry he)
  parents := fun w hw d hd hmissing => hpool.parents w (h.waiting w hw) d hd (h.missing d hmissing)

theorem Pooled.suspends {message : WaiterMessage} (hpool : Pooled node s)
    (h : Suspends message s s') (hfrom : FromSynchronizer node s.store message) :
    Pooled node s' where
  fresh := by
    rw [h.waiting, h.channels, List.forall_mem_append]
    refine ⟨fun w hw => Nat.lt_succ_of_lt (hpool.fresh w hw), ?_⟩
    rintro _ hw
    rw [List.mem_singleton.mp hw]
    exact Nat.lt_succ_self _
  opened := by
    rw [h.pending, h.channels]
    intro d entry he
    rw [ExtTreeMap.getElem?_insert] at he
    split at he
    · cases he
      exact Nat.lt_succ_self _
    · exact Nat.lt_succ_of_lt (hpool.opened d entry he)
  round := by
    rw [h.pending, h.waiting, List.forall_mem_append]
    constructor
    · intro w hw entry he hhandler
      rw [ExtTreeMap.getElem?_insert] at he
      split at he
      · cases he
        -- the channel of an older waiter is another one
        exact absurd hhandler.symm (Nat.ne_of_lt (hpool.fresh w hw))
      · exact hpool.round w hw entry he hhandler
    · rintro _ hw entry he -
      rw [List.mem_singleton.mp hw, ExtTreeMap.getElem?_insert_self] at he
      rw [List.mem_singleton.mp hw]
      cases he
      rfl
  parents := by
    rw [h.waiting, h.store, List.forall_mem_append]
    refine ⟨hpool.parents, ?_⟩
    rintro _ hw d hd
    rw [List.mem_singleton.mp hw] at hd ⊢
    exact hfrom.parents d hd

theorem continues_cleanup : Continues node s (s.cleanup node) where
  waiting := by
    rw [cleanup_waiting]
    exact fun _ h => h
  pending := fun _ _ h => (cleanup_pending.mp h).1
  channels := cleanup_channels
  missing := by
    rw [cleanup_store]
    exact fun _ h => h
  batches := by
    rw [cleanup_store]
    exact fun _ h => h
  sent := by
    rw [cleanup_sent]
    exact unsent _

omit [Crypto] in
/-- The message of the synchronizer, when it is no panic. -/
theorem suspends_sync {message : WaiterMessage} {now : ℕ} (hnew : message.header.id ∉ s.pending)
    (h : (s.suspend message).sync node now message = some s') : Suspends message s s' := by
  cases message with
  | sync_batches missing header =>
    unfold sync at h
    dsimp only at h
    split at h
    · cases h
      refine ⟨hnew, rfl, rfl, rfl, rfl, rfl, ?_, ⟨_, rfl, ?_⟩, ?_⟩
      · intro d
        exact (or_iff_left (List.not_mem_nil)).symm
      · intro A batch hasked
        obtain ⟨hA, hm⟩ := asked_synchronize.mp hasked
        exact ⟨hA, mem_requires_sync hm⟩
      · intro A batch hbatch hkey hA hnot
        refine asked_append.mpr (Or.inr (asked_synchronize.mpr ⟨hA, ?_⟩))
        exact (mem_requires_sync_iff hkey).mpr ⟨hbatch, hnot⟩
    · cases h
  | sync_parents missing header =>
    have hrequests : ∀ d, d ∈ (or_insert id (header.round, now) missing s.parent_requests).1 ↔
        d ∈ s.parent_requests ∨ d ∈ missing := by
      intro d
      rw [mem_or_insert, List.map_id]
    unfold sync at h
    dsimp only at h
    split at h
    · cases h
      refine ⟨hnew, rfl, rfl, rfl, rfl, rfl, hrequests, ⟨[], ?_, ?_⟩, nofun⟩
      · exact (List.append_nil _).symm
      · exact fun _ _ hasked => absurd hasked not_asked_nil
    · split at h
      · cases h
        refine ⟨hnew, rfl, rfl, rfl, rfl, rfl, hrequests, ⟨_, rfl, ?_⟩, nofun⟩
        exact fun _ _ hasked => absurd hasked not_asked_certificates_request
      · cases h

/-- A waiter that is ready has no missing parents, so no other header loses a request by it. -/
theorem not_missing_of_ready (hpool : Pooled node s) {w : Waiter} (hw : w ∈ s.waiting)
    (hready : w.message.ready s.store = true) {d : Digest} (hd : d ∈ w.message.header.parents) :
    ¬ Missing node s.store d := by
  intro hmissing
  have hm := hpool.parents w hw d hd hmissing
  unfold WaiterMessage.ready at hready
  rcases hmessage : w.message with ⟨missing, header⟩ | ⟨missing, header⟩
  · rw [hmessage] at hm
    cases hm
  · rw [hmessage] at hm hready
    exact hmissing.2 (List.all_eq_true.mp hready d hm)

theorem continues_deliver (i : ℕ) (header : Header) : Continues node s (s.deliver i header) := by
  refine ⟨?_, ?_, rfl, fun _ hd => hd, fun _ hb => hb, unsent _⟩
  · exact fun w hw => List.mem_of_mem_eraseIdx hw
  · intro d entry he
    change (s.pending.erase _)[d]? = some entry at he
    rw [ExtTreeMap.getElem?_erase] at he
    split at he
    · cases he
    · exact he

theorem mem_parent_requests_deliver (hpool : Pooled node s) {w : Waiter} (hw : w ∈ s.waiting)
    (hready : w.message.ready s.store = true) {d : Digest} (hmissing : Missing node s.store d)
    (hd : d ∈ s.parent_requests) (i : ℕ) :
    d ∈ (s.deliver i w.message.header).parent_requests := by
  have hparent : d ∉ w.message.header.parents := fun hparent =>
    not_missing_of_ready hpool hw hready hparent hmissing
  change d ∈ s.parent_requests.filter _
  rw [ExtTreeMap.mem_filter]
  refine ⟨hd, ?_⟩
  rw [ExtTreeMap.getKey_eq, Bool.not_eq_true', ← Bool.not_eq_true]
  exact hparent

/-- A turn suspends a header, or it goes on with the waiters and the requests that are there. -/
theorem turn_cases {e : Event} {cleans : Bool}
    (h : s.turn node sync_retry_delay e = some (s', cleans)) :
    (∃ message now, e = .message message now ∧ cleans = true ∧ Suspends message s s') ∨
    (∀ message now, e = .message message now → cleans = false) ∧ Continues node s s' ∧
      (Pooled node s → ∀ d, Missing node s'.store d → d ∈ s.parent_requests →
        d ∈ s'.parent_requests) := by
  cases e with
  | message message now =>
    unfold turn at h
    dsimp only at h
    split at h
    · cases h
      exact Or.inr ⟨fun _ _ _ => rfl, continues_self, fun _ _ _ hd => hd⟩
    · rename_i hnew
      obtain ⟨s₁, hsync, heq⟩ := Option.map_eq_some_iff.mp h
      cases heq
      exact Or.inl ⟨message, now, rfl, rfl, suspends_sync hnew hsync⟩
  | delivered i =>
    refine Or.inr ⟨nofun, ?_⟩
    unfold turn at h
    dsimp only at h
    split at h
    · rename_i w hw
      have hmem := List.mem_of_getElem? hw
      split at h
      · rename_i hready
        cases h
        exact ⟨continues_deliver i w.message.header, fun hpool d hmissing hd =>
          mem_parent_requests_deliver hpool hmem hready hmissing hd i⟩
      · cases h
        exact ⟨continues_self, fun _ _ _ hd => hd⟩
    · cases h
      exact ⟨continues_self, fun _ _ _ hd => hd⟩
  | cancelled i =>
    refine Or.inr ⟨nofun, ?_⟩
    unfold turn at h
    dsimp only at h
    split at h
    · split at h
      · cases h
        exact ⟨continues_self, fun _ _ _ hd => hd⟩
      · cases h
        exact ⟨⟨fun w' hw' => List.mem_of_mem_eraseIdx hw', fun _ _ he => he, rfl,
          fun _ hd => hd, fun _ hb => hb, unsent _⟩, fun _ _ _ hd => hd⟩
    · cases h
      exact ⟨continues_self, fun _ _ _ hd => hd⟩
  | timer now addresses =>
    cases h
    exact Or.inr ⟨nofun, ⟨fun _ hw => hw, fun _ _ he => he, rfl, fun _ hd => hd, fun _ hb => hb,
      ⟨_, rfl, fun _ _ => not_asked_certificates_request⟩⟩, fun _ _ _ hd => hd⟩
  | record digest record =>
    cases h
    refine Or.inr ⟨nofun, ⟨fun _ hw => hw, fun _ _ he => he, rfl, ?_, fun _ hb => hb,
      unsent _⟩, fun _ _ _ hd => hd⟩
    rintro d ⟨hgenesis, hrecord⟩
    refine ⟨hgenesis, fun hd => hrecord ?_⟩
    exact ExtTreeMap.mem_insert.mpr (Or.inr hd)
  | payload digest worker_id =>
    cases h
    exact Or.inr ⟨nofun, ⟨fun _ hw => hw, fun _ _ he => he, rfl, fun _ hd => hd,
      fun _ hb => List.mem_cons_of_mem _ hb, unsent _⟩, fun _ _ _ hd => hd⟩
  | committed round =>
    refine Or.inr ⟨nofun, ?_⟩
    unfold turn at h
    dsimp only at h
    split at h
    · cases h
      exact ⟨⟨fun _ hw => hw, fun _ _ he => he, rfl, fun _ hd => hd, fun _ hb => hb,
        unsent _⟩, fun _ _ _ hd => hd⟩
    · cases h
      exact ⟨continues_self, fun _ _ _ hd => hd⟩

/-! ## One step -/

/-- The waiters of before have channels of their own. -/
theorem Suspends.is_pending {message : WaiterMessage} (hpool : Pooled node s)
    (h : Suspends message s s') {w : Waiter} (hw : w ∈ s.waiting)
    (hpending : s'.is_pending w = true) : s.is_pending w = true := by
  obtain ⟨entry, hentry, hhandler⟩ := is_pending_iff.mp hpending
  rw [h.pending, ExtTreeMap.getElem?_insert] at hentry
  split at hentry
  · cases hentry
    exact absurd hhandler.symm (Nat.ne_of_lt (hpool.fresh w hw))
  · exact is_pending_iff.mpr ⟨entry, hentry, hhandler⟩

omit [Crypto] in
theorem Suspends.is_pending_new {message : WaiterMessage} (h : Suspends message s s') :
    s'.is_pending { message, handler := s.channels } = true := by
  refine is_pending_iff.mpr ⟨(message.header.round, s.channels), ?_, rfl⟩
  rw [h.pending, ExtTreeMap.getElem?_insert_self]

theorem is_pending_cleanup (hpool : Pooled node s) {w : Waiter} (hw : w ∈ s.waiting) :
    (s.cleanup node).is_pending w = true ↔
      s.is_pending w = true ∧ s.survives node w.message.header.round = true := by
  constructor
  · intro h
    obtain ⟨entry, hentry, hhandler⟩ := is_pending_iff.mp h
    obtain ⟨hentry, hsurvives⟩ := cleanup_pending.mp hentry
    rw [hpool.round w hw entry hentry hhandler] at hsurvives
    exact ⟨is_pending_iff.mpr ⟨entry, hentry, hhandler⟩, hsurvives⟩
  · rintro ⟨h, hsurvives⟩
    obtain ⟨entry, hentry, hhandler⟩ := is_pending_iff.mp h
    rw [← hpool.round w hw entry hentry hhandler] at hsurvives
    exact is_pending_iff.mpr ⟨entry, cleanup_pending.mpr ⟨hentry, hsurvives⟩, hhandler⟩

/-- A turn leaves no parent without a request. -/
theorem parentsRequested_turn (hpool : Pooled node s) {e : Event} {cleans : Bool}
    (hfrom : ∀ message now, e = .message message now → FromSynchronizer node s.store message)
    (hturn : s.turn node sync_retry_delay e = some (s', cleans)) (h : ParentsRequested node s) :
    Pooled node s' ∧ ParentsRequested node s' := by
  rcases turn_cases hturn with ⟨message, now, rfl, -, hsuspends⟩ | ⟨-, hcontinues, hkept⟩
  · refine ⟨hpool.suspends hsuspends (hfrom message now rfl), fun w hw hpending d hd hmissing => ?_⟩
    rw [hsuspends.parent_requests]
    rw [hsuspends.store] at hmissing
    rw [hsuspends.waiting, List.mem_append, List.mem_singleton] at hw
    rcases hw with hw | rfl
    · exact Or.inl (h w hw (hsuspends.is_pending hpool hw hpending) d hd hmissing)
    · exact Or.inr ((hfrom message now rfl).parents d hd hmissing)
  · refine ⟨hpool.continues hcontinues, fun w hw hpending d hd hmissing => hkept hpool d hmissing ?_⟩
    exact h w (hcontinues.waiting w hw) (hcontinues.is_pending hpending) d hd
      (hcontinues.missing d hmissing)

/-- The cleanup leaves no parent without a request if and only if it keeps what the headers that
stay miss. -/
theorem parentsRequested_cleanup_iff (hpool : Pooled node s) (h : ParentsRequested node s) :
    ParentsRequested node (s.cleanup node) ↔ Keeps node s := by
  have hrequested : ∀ d, d ∈ (s.cleanup node).parent_requests ↔
      ∃ entry, s.parent_requests[d]? = some entry ∧ s.survives node entry.1 = true := by
    intro d
    rw [← ExtTreeMap.isSome_getElem?_iff_mem, Option.isSome_iff_exists]
    simp only [cleanup_parent_requests]
  unfold ParentsRequested Keeps
  rw [cleanup_waiting, cleanup_store]
  constructor
  · intro hall w hw hpending hsurvives d hd hmissing entry hentry
    obtain ⟨entry', hentry', hkept⟩ := (hrequested d).mp
      (hall w hw ((is_pending_cleanup hpool hw).mpr ⟨hpending, hsurvives⟩) d hd hmissing)
    rw [hentry] at hentry'
    cases hentry'
    exact hkept
  · intro hkeeps w hw hpending d hd hmissing
    obtain ⟨hpending, hsurvives⟩ := (is_pending_cleanup hpool hw).mp hpending
    have hm := ExtTreeMap.isSome_getElem?_iff_mem.mpr (h w hw hpending d hd hmissing)
    obtain ⟨entry, hentry⟩ := Option.isSome_iff_exists.mp hm
    have hkept := hkeeps w hw hpending hsurvives d hd hmissing entry hentry
    exact (hrequested d).mpr ⟨entry, hentry, hkept⟩

theorem batchesRequested_continues (hcontinues : Continues node s s')
    (h : BatchesRequested (Asked A s.sent) s) : BatchesRequested (Asked A s'.sent) s' := by
  intro w hw hpending batch hbatch hmissing
  obtain ⟨new, hnew, -⟩ := hcontinues.sent
  rw [hnew, asked_append]
  refine Or.inl (h w (hcontinues.waiting w hw) (hcontinues.is_pending hpending) batch hbatch ?_)
  exact fun hm => hmissing (hcontinues.batches batch hm)

omit [Crypto] in
theorem survives_congr (h : s'.consensus_round = s.consensus_round) (round : ℕ) :
    s'.survives node round = s.survives node round := by
  unfold survives
  rw [h]

/-- The batches of a new header, when the cleanup follows. -/
theorem batchesRequested_suspends_iff {message : WaiterMessage} {now : ℕ} (hpool : Pooled node s)
    (hfrom : FromSynchronizer node s.store message) (hsuspends : Suspends message s s')
    (h : BatchesRequested (Asked A s.sent) s) :
    BatchesRequested (Asked A (s'.cleanup node).sent) (s'.cleanup node) ↔
      Asks node A s (.message message now) := by
  have hpool' := hpool.suspends hsuspends hfrom
  have hkey : ∀ x ∈ message.batches, ∀ y ∈ message.batches, x.1 = y.1 → x = y := by
    intro x hx y hy heq
    have hx' := ExtTreeMap.mem_toList_iff_getElem?_eq_some.mp (hfrom.batches x hx)
    have hy' := ExtTreeMap.mem_toList_iff_getElem?_eq_some.mp (hfrom.batches y hy)
    rw [heq, hy'] at hx'
    exact Prod.ext heq (Option.some.inj hx').symm
  obtain ⟨new, hsent, hnew⟩ := hsuspends.sent
  have hlast : ({ message, handler := s.channels } : Waiter) ∈ s'.waiting := by
    rw [hsuspends.waiting]
    exact List.mem_append_right _ (List.mem_singleton_self _)
  unfold BatchesRequested
  rw [cleanup_waiting, cleanup_store, cleanup_sent, hsuspends.store]
  constructor
  · intro hall hsurvives batch hbatch hmissing
    rw [← survives_congr hsuspends.consensus_round] at hsurvives
    have hpending := (is_pending_cleanup hpool' hlast).mpr ⟨hsuspends.is_pending_new, hsurvives⟩
    have hasked := hall _ hlast hpending batch hbatch hmissing
    rw [hsent, asked_append] at hasked
    exact hasked.imp_right fun hasked => ⟨(hnew A batch hasked).1, (hnew A batch hasked).2.2⟩
  · intro hasks w hw hpending batch hbatch hmissing
    obtain ⟨hpending, hsurvives⟩ := (is_pending_cleanup hpool' hw).mp hpending
    have hw' := hw
    rw [hsuspends.waiting, List.mem_append, List.mem_singleton] at hw'
    rcases hw' with hw' | rfl
    · rw [hsent, asked_append]
      exact Or.inl (h w hw' (hsuspends.is_pending hpool hw' hpending) batch hbatch hmissing)
    · rw [survives_congr hsuspends.consensus_round] at hsurvives
      rcases hasks hsurvives batch hbatch hmissing with hasked | ⟨hA, hnot⟩
      · rw [hsent, asked_append]
        exact Or.inl hasked
      · exact hsuspends.asked A batch hbatch hkey hA hnot

/-- What the pending headers miss is requested: the parents, and the batches. -/
def Requested (node : Node) (A : PublicKey → Prop) (s : HeaderWaiter) : Prop :=
  ParentsRequested node s ∧ BatchesRequested (Asked A s.sent) s

/-- One step keeps everything requested if and only if it meets its condition. -/
theorem requested_step_iff (hpool : Pooled node s) {e : Event}
    (hfrom : ∀ message now, e = .message message now → FromSynchronizer node s.store message)
    (hstep : s.step node sync_retry_delay e = some s') (h : Requested node A s) :
    Pooled node s' ∧ (Requested node A s' ↔ Meets node sync_retry_delay A s e) := by
  obtain ⟨⟨s₁, cleans⟩, hturn, heq⟩ := Option.map_eq_some_iff.mp hstep
  obtain ⟨hpool₁, hparents₁⟩ := parentsRequested_turn hpool hfrom hturn h.1
  have hmeets : Meets node sync_retry_delay A s e ↔
      (cleans = true → Keeps node s₁ ∧ Asks node A s e) := by
    unfold Meets
    rw [hturn]
    constructor
    · rintro hall rfl
      exact hall s₁ rfl
    · rintro hall s₂ ⟨⟩
      exact hall rfl
  rw [hmeets]
  subst heq
  cases cleans with
  | false =>
    refine ⟨hpool₁, iff_of_true ⟨hparents₁, ?_⟩ nofun⟩
    rcases turn_cases hturn with ⟨message, now, -, hcleans, -⟩ | ⟨-, hcontinues, -⟩
    · cases hcleans
    · exact batchesRequested_continues hcontinues h.2
  | true =>
    refine ⟨hpool₁.continues continues_cleanup, ?_⟩
    have hkeeps := parentsRequested_cleanup_iff hpool₁ hparents₁
    have hbatches : BatchesRequested (Asked A (s₁.cleanup node).sent) (s₁.cleanup node) ↔
        Asks node A s e := by
      rcases turn_cases hturn with ⟨message, now, rfl, -, hsuspends⟩ | ⟨hmessage, hcontinues, -⟩
      · exact batchesRequested_suspends_iff hpool (hfrom message now rfl) hsuspends h.2
      · refine iff_of_true (batchesRequested_continues continues_cleanup
          (batchesRequested_continues hcontinues h.2)) ?_
        cases e with
        | message message now => cases hmessage message now rfl
        | delivered | cancelled | timer | record | payload | committed => exact trivial
    exact (and_congr hkeeps hbatches).trans (by simp)

/-! ## Whole runs -/

variable {store : Store} {events : List Event}

/-- The messages of a run come from the synchronizer. -/
def AllFromSynchronizer (node : Node) (sync_retry_delay : ℕ) (store : Store) (events : List Event) :
    Prop :=
  Each (fun pre e => ∀ message now s, e = .message message now →
    run node sync_retry_delay store pre = some s → FromSynchronizer node s.store message) events

theorem requested_of_run
    (hfrom : AllFromSynchronizer node sync_retry_delay store events)
    (hmeets : Each (fun pre e => ∀ s, run node sync_retry_delay store pre = some s →
      Meets node sync_retry_delay A s e) events)
    (hrun : run node sync_retry_delay store events = some s) :
    Pooled node s ∧ Requested node A s := by
  induction events using List.reverseRecOn generalizing s with
  | nil =>
    cases hrun
    refine ⟨⟨nofun, ?_, nofun, nofun⟩, nofun, nofun⟩
    simp [spawn]
  | append_singleton events e ih =>
    obtain ⟨before, hbefore, hstep⟩ := (run_concat node sync_retry_delay).mp hrun
    obtain ⟨hpool, hrequested⟩ := ih hfrom.of_append hmeets.of_append hbefore
    obtain ⟨hpool', hiff⟩ := requested_step_iff hpool
      (fun message now he => hfrom.last message now before he hbefore) hstep hrequested
    exact ⟨hpool', hiff.mpr (hmeets.last before hbefore)⟩

theorem sent_of_step {e : Event} (hstep : s.step node sync_retry_delay e = some s') :
    ∃ new, s'.sent = s.sent ++ new ∧ ∀ A batch, Asked A new batch →
      ∃ message now, e = .message message now ∧ batch ∈ message.batches := by
  obtain ⟨⟨s₁, cleans⟩, hturn, heq⟩ := Option.map_eq_some_iff.mp hstep
  have hsent : s'.sent = s₁.sent := by
    subst heq
    cases cleans
    · rfl
    · exact cleanup_sent
  rw [hsent]
  rcases turn_cases hturn with ⟨message, now, rfl, -, hsuspends⟩ | ⟨-, hcontinues, -⟩
  · obtain ⟨new, hnew, hall⟩ := hsuspends.sent
    exact ⟨new, hnew, fun A batch hasked => ⟨message, now, rfl, (hall A batch hasked).2.1⟩⟩
  · obtain ⟨new, hnew, hall⟩ := hcontinues.sent
    exact ⟨new, hnew, fun A batch hasked => absurd hasked (hall A batch)⟩

/-- A batch is requested only when a header comes to wait for it. -/
theorem askedSince_iff (hrun : run node sync_retry_delay store events = some s) :
    AskedSince node sync_retry_delay store A events s batch ↔ Asked A s.sent batch := by
  constructor
  · rintro ⟨pre, message, now, post, before, -, -, -, hasked⟩
    obtain ⟨authority, digests, target, hA, hd, hm⟩ := hasked
    exact ⟨authority, digests, target, hA, hd, List.mem_of_mem_drop hm⟩
  · intro hasked
    induction events using List.reverseRecOn generalizing s with
    | nil =>
      cases hrun
      exact absurd hasked not_asked_nil
    | append_singleton events e ih =>
      obtain ⟨before, hbefore, hstep⟩ := (run_concat node sync_retry_delay).mp hrun
      obtain ⟨new, hsent, hnew⟩ := sent_of_step hstep
      rw [hsent, asked_append] at hasked
      rcases hasked with hasked | hasked
      · obtain ⟨pre, message, now, post, first, heq, hbatch, hfirst, hdrop⟩ := ih hbefore hasked
        refine ⟨pre, message, now, post ++ [e], first, by rw [heq]; simp, hbatch, hfirst, ?_⟩
        rw [hsent, List.drop_append]
        exact asked_append.mpr (Or.inl hdrop)
      · obtain ⟨message, now, rfl, hbatch⟩ := hnew A batch hasked
        refine ⟨events, message, now, [], before, rfl, hbatch, hbefore, ?_⟩
        rw [hsent, List.drop_left]
        exact hasked

/-- The requests of a run, for the workers of the authorities of `A`. -/
theorem requested_iff (hfrom : AllFromSynchronizer node sync_retry_delay store events) :
    (∀ pre, pre <+: events → ∀ s, run node sync_retry_delay store pre = some s →
      ParentsRequested node s ∧
        BatchesRequested (AskedSince node sync_retry_delay store A pre s) s) ↔
      Each (fun pre e => ∀ s, run node sync_retry_delay store pre = some s →
        Meets node sync_retry_delay A s e) events := by
  have hsince : ∀ pre s, run node sync_retry_delay store pre = some s →
      (ParentsRequested node s ∧ BatchesRequested (AskedSince node sync_retry_delay store A pre s) s ↔
        Requested node A s) := by
    intro pre s hrun
    unfold Requested BatchesRequested
    simp only [askedSince_iff hrun]
  constructor
  · intro h
    induction events using List.reverseRecOn with
    | nil => exact each_nil
    | append_singleton events e ih =>
      have heach := ih hfrom.of_append fun pre hpre => h pre (hpre.trans (List.prefix_append _ _))
      refine heach.concat fun s hrun => ?_
      obtain ⟨hpool, hrequested⟩ := requested_of_run hfrom.of_append heach hrun
      rcases hstep : s.step node sync_retry_delay e with _ | s'
      · -- a panic has no turn that the cleanup follows
        intro s₁ hturn
        rw [step, hturn] at hstep
        cases hstep
      · have hnext := (run_concat node sync_retry_delay).mpr ⟨s, hrun, hstep⟩
        obtain ⟨-, hiff⟩ := requested_step_iff hpool
          (fun message now he => hfrom.last message now s he hrun) hstep hrequested
        exact hiff.mp ((hsince _ s' hnext).mp (h _ List.prefix_rfl s' hnext))
  · rintro h pre ⟨post, rfl⟩ s hrun
    exact (hsince pre s hrun).mpr (requested_of_run hfrom.of_append h.of_append hrun).2

/-- For every run of the header waiter, on messages of the synchronizer, completions, retries and
advances of the consensus round: in every state each parent that a pending header misses is in
`parent_requests`, and each batch that it waits for and misses was requested from our worker since
some header came to wait for it, if and only if every turn meets the condition. -/
theorem dependencies_stay_requested_iff (node : Node) (sync_retry_delay : ℕ) (store : Store)
    (events : List Event) (hfrom : AllFromSynchronizer node sync_retry_delay store events) :
    (∀ pre, pre <+: events → ∀ s, run node sync_retry_delay store pre = some s →
      ParentsRequested node s ∧
        BatchesRequested (AskedSince node sync_retry_delay store (· = node.name) pre s) s) ↔
      Each (fun pre e => ∀ s, run node sync_retry_delay store pre = some s →
        Meets node sync_retry_delay (· = node.name) s e) events :=
  requested_iff hfrom

end

/-! ## Runs on fixed inputs -/

section

variable [Crypto] {node : Node} {sync_retry_delay : ℕ} {store : Store} {events : List Event}
  {s : HeaderWaiter}

theorem missing_of_run (hrun : run node sync_retry_delay store events = some s) {d : Digest}
    (h : Missing node s.store d) : Missing node store d := by
  induction events using List.reverseRecOn generalizing s with
  | nil =>
    cases hrun
    exact h
  | append_singleton events e ih =>
    obtain ⟨before, hbefore, hstep⟩ := (run_concat node sync_retry_delay).mp hrun
    obtain ⟨⟨s₁, cleans⟩, hturn, heq⟩ := Option.map_eq_some_iff.mp hstep
    have hstore : s.store = s₁.store := by
      subst heq
      cases cleans
      · rfl
      · exact cleanup_store
    rw [hstore] at h
    refine ih hbefore ?_
    rcases turn_cases hturn with ⟨message, now, -, -, hsuspends⟩ | ⟨-, hcontinues, -⟩
    · rw [hsuspends.store] at h
      exact h
    · exact hcontinues.missing d h

/-- Messages that the synchronizer makes with the store at the start. -/
theorem allFromSynchronizer_of_mem
    (h : ∀ message now, .message message now ∈ events → FromSynchronizer node store message) :
    AllFromSynchronizer node sync_retry_delay store events := by
  rintro pre _ post rfl message now s rfl hrun
  have hfrom := h message now (List.mem_append_right _ List.mem_cons_self)
  exact ⟨fun d hd hmissing => hfrom.parents d hd (missing_of_run hrun hmissing), hfrom.batches⟩

/-- Before the first cleanup, all requests are kept. -/
theorem keeps_of_le (h : s.consensus_round ≤ node.gc_depth) : Keeps node s := by
  intro w _ _ _ d _ _ entry _
  simp [survives, h]

end

section

attribute [local instance] crypto.sample

/-- A committee whose authorities have two workers each. -/
def two_workers : Committee where
  authorities := ExtTreeMap.ofList ([1, 2, 3, 4].map fun (name : PublicKey) =>
    (name, ({ stake := 1, workers := ExtTreeSet.ofList [0, 1] } : Authority)))
  nonempty := by simp

def waiting_node : Node := { name := 1, committee := two_workers, gc_depth := 50 }

/-- A header with one parent, which is missing. -/
def orphan (author : PublicKey) (round : ℕ) : Header :=
  { Header.default with author, round, parents := ExtTreeSet.ofList [(7 : Digest)] }.signed

/-- A header with one batch, of a worker. -/
def with_batch (author : PublicKey) (worker_id : ℕ) : Header :=
  let parents := ExtTreeSet.ofList ((Certificate.genesis two_workers).map Certificate.digest)
  let payload := ExtTreeMap.ofList [((9 : Digest), worker_id)]
  { Header.default with author, round := 1, parents, payload }.signed

theorem orphan_fromSynchronizer (author : PublicKey) (round : ℕ) :
    FromSynchronizer waiting_node .empty (.sync_parents [7] (orphan author round)) := by
  refine ⟨fun d hd _ => ?_, nofun⟩
  change d ∈ ExtTreeSet.ofList [(7 : Digest)] at hd
  have hd' : (7 : Digest) = d := by simpa using hd
  rw [← hd']
  exact List.mem_singleton_self _

theorem with_batch_fromSynchronizer {author : PublicKey} {worker_id : ℕ}
    (hparents : (find_parents (genesis_digests two_workers) .empty
      (with_batch author worker_id).parents.toList).map (·.1) = .ok [])
    (hmissing : missing_batches 1 .empty (with_batch author worker_id) = [(9, worker_id)]) :
    FromSynchronizer waiting_node .empty
      (.sync_batches [(9, worker_id)] (with_batch author worker_id)) := by
  rw [← hmissing]
  rcases hfind : find_parents (genesis_digests two_workers) .empty
    (with_batch author worker_id).parents.toList with e | ⟨missing, parents⟩
  · rw [hfind] at hparents
    cases hparents
  · rw [hfind] at hparents
    cases hparents
    exact fromSynchronizer_missing_payload hfind

/-- A header of authority 2 waits for a parent. -/
def one_orphan : List Event := [.message (.sync_parents [7] (orphan 2 3)) 0]

def one_orphan_state : HeaderWaiter := (run waiting_node 5 .empty one_orphan).get (by decide +kernel)

theorem dependencies_stay_requested_iff_one_orphan :
    one_orphan_state.waiting.length = 1 ∧ ParentsRequested waiting_node one_orphan_state ∧
      BatchesRequested (AskedSince waiting_node 5 .empty (· = 1) one_orphan one_orphan_state)
        one_orphan_state := by
  have hfrom : AllFromSynchronizer waiting_node 5 .empty one_orphan := by
    refine allFromSynchronizer_of_mem fun message now hm => ?_
    cases List.mem_singleton.mp hm
    exact orphan_fromSynchronizer 2 3
  refine ⟨by decide +kernel, (dependencies_stay_requested_iff waiting_node 5 .empty one_orphan
    hfrom).mpr ?_ one_orphan List.prefix_rfl _ (Option.some_get _).symm⟩
  refine each_nil.concat fun s hrun s' hturn => ⟨keeps_of_le ?_, fun _ => nofun⟩
  cases hrun
  rcases turn_cases hturn with ⟨message, now, -, -, hsuspends⟩ | ⟨hmessage, -⟩
  · rw [hsuspends.consensus_round]
    exact Nat.zero_le _
  · cases hmessage _ _ rfl

/-- Authority 2 claims that the batch is of worker 1, then authority 3 says that it is of worker 0.
-/
def starved : List Event :=
  [.message (.sync_batches [(9, 1)] (with_batch 2 1)) 0,
    .message (.sync_batches [(9, 0)] (with_batch 3 0)) 0]

def starved_state : HeaderWaiter := (run waiting_node 5 .empty starved).get (by decide +kernel)

/-- Two headers of different rounds wait for one parent, and the consensus reaches round 61. -/
def forgotten : List Event :=
  [.message (.sync_parents [7] (orphan 2 10)) 0, .message (.sync_parents [7] (orphan 3 60)) 0,
    .committed 61, .timer 10 [2, 3, 4]]

def forgotten_state : HeaderWaiter := (run waiting_node 5 .empty forgotten).get (by decide +kernel)

/-- The first request goes to the worker of authority 2. There is no second one, so no worker 0 is
asked for the batch of authority 3. And the cleanup removes the request for a parent that the header
of round 60 waits for. -/
theorem dependencies_are_forgotten :
    (AllFromSynchronizer waiting_node 5 .empty starved ∧
      run waiting_node 5 .empty starved = some starved_state ∧
      starved_state.sent = [.synchronize 2 1 [9] 2] ∧
      ¬ BatchesRequested (AskedSince waiting_node 5 .empty (· = 1) starved starved_state)
        starved_state ∧
      ¬ BatchesRequested (AskedSince waiting_node 5 .empty (fun _ => True) starved starved_state)
        starved_state) ∧
    AllFromSynchronizer waiting_node 5 .empty forgotten ∧
      run waiting_node 5 .empty forgotten = some forgotten_state ∧
      ¬ ParentsRequested waiting_node forgotten_state := by
  have hstarved : run waiting_node 5 .empty starved = some starved_state := (Option.some_get _).symm
  have hsent : starved_state.sent = [.synchronize 2 1 [9] 2] := by decide +kernel
  -- the header of authority 3 waits for a batch of worker 0, and no worker 0 was asked
  obtain ⟨w, hw, hpending, hbatch, hmissing⟩ : ∃ w ∈ starved_state.waiting,
      starved_state.is_pending w = true ∧ (9, 0) ∈ w.message.batches ∧
        (9, 0) ∉ starved_state.store.batches := by
    decide +kernel
  have hnone : ∀ A, ¬ BatchesRequested (AskedSince waiting_node 5 .empty A starved starved_state)
      starved_state := by
    intro A h
    obtain ⟨authority, digests, target, -, -, hm⟩ :=
      (askedSince_iff hstarved).mp (h w hw hpending (9, 0) hbatch hmissing)
    rw [hsent] at hm
    cases List.mem_singleton.mp hm
  refine ⟨⟨allFromSynchronizer_of_mem fun message now hm => ?_, hstarved, hsent, hnone _, hnone _⟩,
    allFromSynchronizer_of_mem fun message now hm => ?_, (Option.some_get _).symm, fun h => ?_⟩
  · rcases List.mem_cons.mp hm with heq | hm
    · cases heq
      exact with_batch_fromSynchronizer (by decide +kernel) (by decide +kernel)
    · cases List.mem_singleton.mp hm
      exact with_batch_fromSynchronizer (by decide +kernel) (by decide +kernel)
  · obtain ⟨hmessage, -⟩ : (message = .sync_parents [7] (orphan 2 10) ∨
        message = .sync_parents [7] (orphan 3 60)) ∧ now = 0 := by
      simpa [forgotten, ← or_and_right] using hm
    rcases hmessage with rfl | rfl
    · exact orphan_fromSynchronizer 2 10
    · exact orphan_fromSynchronizer 3 60
  · obtain ⟨w, hw, hpending, hd, hmissing, hnot⟩ : ∃ w ∈ forgotten_state.waiting,
        forgotten_state.is_pending w = true ∧ 7 ∈ w.message.header.parents ∧
          Missing waiting_node forgotten_state.store 7 ∧ 7 ∉ forgotten_state.parent_requests := by
      decide +kernel
    exact hnot (h w hw hpending 7 hd hmissing)

end

end HeaderWaiter

end sailfish.primary
