-- The helper (`primary/src/helper.rs`): it replies to the certificates requests of other
-- authorities from the store. The store keeps headers, certificates and markers under
-- their keys, and a request may name the key of any of them.
import Mathlib
import Sailfish.CausalDelivery
import Sailfish.SignedMessages

open Std Relation effects sailfish.crypto sailfish.config

namespace sailfish.primary

/-! ## The one key space of the store -/

/-- What is behind the bytes of a value: a record that `Core` serialized, or a marker of the
`PayloadReceiver`, which has no bytes. -/
inductive Value
  | record (record : Record)
  | marker
deriving DecidableEq

namespace Value

/-- `bincode::deserialize` to a certificate. The bytes of a header end where those of a certificate
go on with its votes, so they give an error, as no bytes do. -/
def deserialize : Value → Option Certificate
  | .record (.certificate certificate) => some certificate
  | .record (.header _) => none
  | .marker => none

end Value

namespace Store

/-- The key of the marker of a batch. -/
def payload_key (digest : Digest) (worker_id : ℕ) : List UInt8 :=
  as_ref digest ++ to_le_bytes 4 worker_id

/-- The value under a key. -/
def read (store : Store) (key : List UInt8) : Option Value :=
  match store.records.toList.find? fun entry => as_ref entry.1 == key with
  | some (_, record) => some (.record record)
  | none =>
    if store.batches.any fun (digest, worker_id) => payload_key digest worker_id == key then
      some .marker
    else none

variable {store : Store}

/-- The bytes of a digest are no key of a marker. -/
theorem read_digest (digest : Digest) :
    store.read (as_ref digest) = store.records[digest]?.map Value.record := by
  have hmarker : (store.batches.any fun (digest', worker_id) =>
      payload_key digest' worker_id == as_ref digest) = false := by
    rw [List.any_eq_false]
    rintro ⟨digest', worker_id⟩ - hkey
    have hlength := congrArg List.length (beq_iff_eq.mp hkey)
    rw [payload_key, List.length_append, length_as_ref, length_as_ref, length_to_le_bytes] at hlength
    omega
  unfold read
  rw [hmarker]
  rcases hfind : store.records.toList.find? fun entry => as_ref entry.1 == as_ref digest
    with _ | ⟨digest', record⟩
  · have hnone : store.records[digest]? = none := by
      rw [Option.eq_none_iff_forall_ne_some]
      intro record hrecord
      have hmem := ExtTreeMap.mem_toList_iff_getElem?_eq_some.mpr hrecord
      exact List.find?_eq_none.mp hfind _ hmem (beq_self_eq_true _)
    rw [hfind, hnone]
    rfl
  · obtain rfl : digest' = digest := as_ref_inj (beq_iff_eq.mp (List.find?_some hfind :))
    rw [hfind, ExtTreeMap.mem_toList_iff_getElem?_eq_some.mp (List.mem_of_find?_eq_some hfind)]
    rfl

/-- `Core` writes headers under their id and certificates under their digest. -/
structure Keyed [Crypto] (store : Store) : Prop where
  certificate : ∀ (d : Digest) (c : Certificate),
    store.records[d]? = some (.certificate c) → d = c.digest
  header : ∀ (d : Digest) (h : Header), store.records[d]? = some (.header h) → d = h.id

/-- The stores that a primary can have, over any number of starts. A core that stops leaves what it
wrote before. -/
inductive Reachable [Crypto] (node : Node) : Store → Prop
  | empty : Reachable node .empty
  | run {store : Store} {events : List Core.Event} {s : Core} : Reachable node store →
      Core.run node store events = some s → Reachable node s.store
  | stopped {store : Store} {events : List Core.Event} {s : Core} {input : Core.Input} :
      Reachable node store → Core.run node store events = some s →
      Reachable node (after (Core.handle node input) s).store

section

variable [Crypto] {node : Node}

theorem keyed_write_certificate {c : Certificate} (h : store.Keyed) :
    (store.write c.digest (.certificate c)).Keyed := by
  constructor
  · intro d c' hc
    rw [write, ExtTreeMap.getElem?_insert] at hc
    split at hc
    · rename_i hd
      cases hc
      exact (compare_eq_iff_eq.mp hd).symm
    · exact h.certificate d c' hc
  · intro d x hx
    rw [write, ExtTreeMap.getElem?_insert] at hx
    split at hx
    · cases hx
    · exact h.header d x hx

theorem keyed_write_header {header : Header} (h : store.Keyed) :
    (store.write header.id (.header header)).Keyed := by
  constructor
  · intro d c hc
    rw [write, ExtTreeMap.getElem?_insert] at hc
    split at hc
    · cases hc
    · exact h.certificate d c hc
  · intro d x hx
    rw [write, ExtTreeMap.getElem?_insert] at hx
    split at hx
    · rename_i hd
      cases hx
      exact (compare_eq_iff_eq.mp hd).symm
    · exact h.header d x hx

theorem Keyed.effect {s s' : Core} (heffect : Core.AnyEffect node s s') (h : s.store.Keyed) :
    s'.store.Keyed := by
  cases heffect with
  | accept | vote => exact keyed_write_header h
  | store_certificate => exact keyed_write_certificate h
  | send | processing | votes | handlers | timeouts | no_votes => exact h

theorem Keyed.frame {s s' : Core} (hframe : Core.Frame s s') (h : s.store.Keyed) :
    s'.store.Keyed := by
  refine ⟨?_, ?_⟩
  · rw [hframe.records]
    exact h.certificate
  · rw [hframe.records]
    exact h.header

theorem Keyed.run {events : List Core.Event} {s : Core} (h : store.Keyed)
    (hrun : Core.run node store events = some s) : s.store.Keyed :=
  Core.invariant_of_run h (fun _ _ => Keyed.effect) (fun _ _ => Keyed.frame) hrun

theorem Reachable.keyed (h : Reachable node store) : store.Keyed := by
  induction h with
  | empty =>
    refine ⟨?_, ?_⟩ <;> simp [Store.empty]
  | run _ hrun ih => exact ih.run hrun
  | @stopped store events s input _ hrun ih =>
    obtain ⟨x, heq, heffects⟩ := Core.handle_effects (Core.brings_any (s := s) input)
      (T := fun _ => True) fun _ _ => trivial
    have hafter : after (Core.handle node input) s = after x (s.start input) := by
      unfold after
      rw [heq]
    rw [hafter]
    exact of_steps (P := fun s => s.store.Keyed) (fun _ _ => Keyed.effect) heffects.steps_after
      ((ih.run hrun).frame (Core.start_frame input))

end

end Store

/-! ## The task -/

namespace helper

/-- How the answer to a request ends, with the certificates sent to each address. -/
inductive Answer
  | done (sent : List (PublicKey × Certificate))
  | panicked (sent : List (PublicKey × Certificate))
deriving DecidableEq

/-- Reply to the request (the best we can). -/
def reply (store : Store) (address : PublicKey) :
    List Digest → List (PublicKey × Certificate) → Answer
  | [], sent => .done sent
  | digest :: digests, sent =>
    match store.read (as_ref digest) with
    | some data =>
      match data.deserialize with
      | some certificate => reply store address digests (sent ++ [(address, certificate)])
      | none => .panicked sent
    | none => reply store address digests sent

/-- One request. The address of an authority is known by its key. -/
def answer (committee : Committee) (store : Store) (digests : List Digest) (origin : PublicKey) :
    Answer :=
  match committee.primary origin with
  | .ok address => reply store address digests []
  | .error _ => .done []

section

variable {store : Store} {address : PublicKey} {digests : List Digest}
  {sent : List (PublicKey × Certificate)}

/-- The certificate under a digest. -/
def certificate_of (store : Store) (digest : Digest) : Option Certificate :=
  store.records[digest]?.bind fun record => (Value.record record).deserialize

theorem certificate_of_eq_some {digest : Digest} {c : Certificate} :
    certificate_of store digest = some c ↔ store.records[digest]? = some (.certificate c) := by
  unfold certificate_of
  rcases store.records[digest]? with _ | (header | certificate) <;> simp [Value.deserialize]

/-- Without the id of a header among the digests, the answer is the certificates under them. -/
theorem reply_eq_done (h : ∀ d ∈ digests, ∀ header, store.records[d]? ≠ some (.header header)) :
    reply store address digests sent =
      .done (sent ++ (digests.filterMap (certificate_of store)).map (address, ·)) := by
  induction digests generalizing sent with
  | nil => simp [reply]
  | cons d digests ih =>
    rw [List.forall_mem_cons] at h
    rw [reply, Store.read_digest, List.filterMap_cons]
    rcases hrecord : store.records[d]? with _ | (header | certificate)
    · rw [certificate_of, hrecord]
      exact ih h.2
    · exact absurd hrecord (h.1 header)
    · rw [certificate_of, hrecord]
      refine (ih h.2).trans ?_
      rw [List.append_assoc]
      rfl

/-- The first id of a header among the digests ends the task. -/
theorem reply_ne_done {d : Digest} (hd : d ∈ digests) {header : Header}
    (hrecord : store.records[d]? = some (.header header)) {all : List (PublicKey × Certificate)} :
    reply store address digests sent ≠ .done all := by
  induction digests generalizing sent with
  | nil => cases hd
  | cons d' digests ih =>
    rw [reply, Store.read_digest]
    rcases List.mem_cons.mp hd with rfl | hd
    · rw [hrecord]
      exact Answer.noConfusion
    · rcases store.records[d']? with _ | (header' | certificate)
      · exact ih hd
      · exact Answer.noConfusion
      · exact ih hd

end

/-- For every store that a primary can have, and every request of an authority: the task gets
through the request and sends exactly the stored certificates whose digests are in it, if and only
if no digest of the request is the id of a stored header. -/
theorem answers_iff [Crypto] (node : Node) (store : Store) (hstore : store.Reachable node)
    (digests : List Digest) (origin : PublicKey) (horigin : origin ∈ node.committee.authorities) :
    (∃ sent, answer node.committee store digests origin = .done sent ∧
      ∀ x, x ∈ sent ↔ ∃ (d : Digest) (c : Certificate), x = (origin, c) ∧
        store.records[d]? = some (.certificate c) ∧ c.digest ∈ digests) ↔
      ∀ header : Header, store.records[header.id]? = some (.header header) →
        header.id ∉ digests := by
  have hanswer : answer node.committee store digests origin = reply store origin digests [] := by
    simp [answer, Committee.primary, horigin]
  rw [hanswer]
  constructor
  · rintro ⟨sent, hdone, -⟩ header hrecord hm
    exact reply_ne_done hm hrecord hdone
  · intro h
    refine ⟨_, reply_eq_done fun d hd header hrecord => ?_, ?_⟩
    · obtain rfl := hstore.keyed.header d header hrecord
      exact h header hrecord hd
    · rintro ⟨address, c⟩
      simp only [List.nil_append, List.mem_map, List.mem_filterMap, certificate_of_eq_some,
        Prod.mk.injEq]
      constructor
      · rintro ⟨c, ⟨d, hd, hrecord⟩, rfl, rfl⟩
        exact ⟨d, c, ⟨rfl, rfl⟩, hrecord, hstore.keyed.certificate d c hrecord ▸ hd⟩
      · rintro ⟨d, c, ⟨rfl, rfl⟩, hrecord, hd⟩
        exact ⟨c, ⟨d, hstore.keyed.certificate d c hrecord ▸ hd, hrecord⟩, rfl, rfl⟩

section

attribute [local instance] crypto.sample

theorem two_rounds_reachable :
    Core.two_rounds_state.store.Reachable consensus.counting_node :=
  .run .empty (show Core.run _ .empty Core.two_rounds = _ by simp [Core.two_rounds_state])

/-- Authority 2 asks for the certificate of authority 1 for round 1. -/
theorem answers_iff_first_of :
    ∃ sent, answer .four Core.two_rounds_state.store [(consensus.first_of 1).digest] 2 = .done sent ∧
      ∀ x, x ∈ sent ↔ ∃ (d : Digest) (c : Certificate), x = (2, c) ∧
        Core.two_rounds_state.store.records[d]? = some (.certificate c) ∧
          c.digest ∈ [(consensus.first_of 1).digest] := by
  refine (answers_iff consensus.counting_node _ two_rounds_reachable _ 2 (by decide +kernel)).mpr ?_
  intro header hrecord hm
  rw [List.mem_singleton.mp hm] at hrecord
  have hcertificate : Core.two_rounds_state.store.records[(consensus.first_of 1).digest]? =
      some (.certificate (consensus.first_of 1)) := by
    decide +kernel
  rw [hcertificate] at hrecord
  cases hrecord

/-- Authority 2 asks for the id of the header of authority 1. -/
theorem header_id_kills_the_helper :
    Core.two_rounds_state.store.Reachable consensus.counting_node ∧
      answer .four Core.two_rounds_state.store [(consensus.first_of 1).header.id] 2 =
        .panicked [] :=
  ⟨two_rounds_reachable, by decide +kernel⟩

end

end helper

end sailfish.primary
