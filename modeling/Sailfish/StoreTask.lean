-- The store of a node (`store/src/lib.rs`): one task answers the commands that come on
-- a channel, one by one. A call that waits for a key that is not there becomes an
-- obligation, which the first write of the key settles.
import Mathlib

open Std

namespace sailfish.store

abbrev Key := List UInt8

abbrev Value := List UInt8

/-- The sending half of a `oneshot` channel, named by the number of the call that made it. -/
abbrev Sender := ℕ

inductive StoreCommand
  | write (key : Key) (value : Value)
  | read (key : Key) (sender : Sender)
  | notify_read (key : Key) (sender : Sender)
deriving DecidableEq

/-- What goes back on the channel of a command. The database does not fail. -/
inductive Response
  | read (value : Option Value)
  | notify_read (value : Value)
deriving DecidableEq

/-- The state of the task. -/
structure Task where
  db : ExtTreeMap Key Value
  obligations : ExtTreeMap Key (List Sender)
  /-- Every response so far. -/
  sent : List (Sender × Response)
deriving DecidableEq

namespace Task

/-- The task starts with what is in the database at its path. -/
def new (db : ExtTreeMap Key Value) : Task := { db, obligations := ∅, sent := [] }

/-- One turn of the loop of the task. -/
def step (s : Task) : StoreCommand → Task
  | .write key value =>
    let db := s.db.insert key value
    match s.obligations[key]? with
    | some senders =>
      { db
        obligations := s.obligations.erase key
        sent := s.sent ++ senders.map (·, .notify_read value) }
    | none => { s with db }
  | .read key sender => { s with sent := s.sent ++ [(sender, .read s.db[key]?)] }
  | .notify_read key sender =>
    match s.db[key]? with
    | none =>
      { s with obligations :=
        s.obligations.insert key ((s.obligations[key]?).getD [] ++ [sender]) }
    | some value => { s with sent := s.sent ++ [(sender, .notify_read value)] }

end Task

/-- A call of `write`, `read` or `notify_read` of the store. -/
inductive Call
  | write (key : Key) (value : Value)
  | read (key : Key)
  | notify_read (key : Key)
deriving DecidableEq

/-- The command of a call, with a new channel for the response. -/
def Call.command (sender : Sender) : Call → StoreCommand
  | .write key value => .write key value
  | .read key => .read key sender
  | .notify_read key => .notify_read key sender

/-- The run of the task on the commands of some calls, in the order in which they arrive. -/
def run (db : ExtTreeMap Key Value) (calls : List Call) : Task :=
  (calls.zipIdx.map fun (call, i) => call.command i).foldl Task.step (.new db)

theorem run_concat (db : ExtTreeMap Key Value) (calls : List Call) (call : Call) :
    run db (calls ++ [call]) = (run db calls).step (call.command calls.length) := by
  unfold run
  simp [List.zipIdx_append]

/-! ## What the calls ask for -/

/-- The value that the call writes under the key. -/
def written (key : Key) : Call → Option Value
  | .write k value => if k = key then some value else none
  | .read _ | .notify_read _ => none

/-- The last value written under the key. -/
def last_write (key : Key) (calls : List Call) : Option Value :=
  calls.reverse.findSome? (written key)

/-- The first value written under the key. -/
def first_write (key : Key) (calls : List Call) : Option Value := calls.findSome? (written key)

/-- The value of the key after the calls. -/
def value_of (db : ExtTreeMap Key Value) (key : Key) (calls : List Call) : Option Value :=
  (last_write key calls).or db[key]?

/-- The responses that a call is due, from the calls before it and the calls after it. -/
def due (db : ExtTreeMap Key Value) (before : List Call) (call : Call) (after : List Call) :
    List Response :=
  match call with
  | .write _ _ => []
  | .read key => [.read (value_of db key before)]
  | .notify_read key =>
    (((value_of db key before).or (first_write key after)).map .notify_read).toList

variable {db : ExtTreeMap Key Value} {key : Key} {calls before after : List Call} {call : Call}

theorem value_of_concat :
    value_of db key (calls ++ [call]) = (written key call).or (value_of db key calls) := by
  unfold value_of last_write
  rw [List.reverse_append, List.findSome?_append, Option.or_assoc]
  simp

theorem first_write_concat :
    first_write key (calls ++ [call]) = (first_write key calls).or (written key call) := by
  unfold first_write
  rw [List.findSome?_append]
  simp

/-- There is no value exactly when none was there and none was written. -/
theorem value_of_eq_none :
    value_of db key calls = none ↔ db[key]? = none ∧ ∀ call ∈ calls, written key call = none := by
  unfold value_of last_write
  rw [Option.or_eq_none_iff, List.findSome?_eq_none_iff, and_comm]
  simp

/-- A call that waits for a key is due nothing, and has no value, at the same times. -/
theorem waits_iff : (value_of db key before).or (first_write key after) = none ↔
    value_of db key (before ++ .notify_read key :: after) = none := by
  unfold first_write
  rw [Option.or_eq_none_iff, value_of_eq_none, value_of_eq_none, List.findSome?_eq_none_iff]
  simp [written, or_imp, forall_and, and_assoc]

/-- A call that writes nothing changes nothing that is due. -/
theorem due_concat {c : Call} (h : ∀ key, written key c = none) :
    due db before call (after ++ [c]) = due db before call after := by
  cases call with
  | write | read => rfl
  | notify_read key =>
    unfold due
    dsimp only
    rw [first_write_concat, h, Option.or_none]

/-- The responses on the channel of a call. -/
def Task.responses (s : Task) (sender : Sender) : List Response :=
  s.sent.filterMap fun (s, response) => if s = sender then some response else none

/-- The calls that wait for a key. -/
def Task.waiting (s : Task) (key : Key) : List Sender := (s.obligations[key]?).getD []

/-! ## One turn of the loop -/

section

variable {s : Task} {value : Value} {sender : Sender}

theorem responses_append {l : List (Sender × Response)} {s' : Task} (h : s'.sent = s.sent ++ l) :
    s'.responses sender = s.responses sender ++
      l.filterMap fun (s, response) => if s = sender then some response else none := by
  unfold Task.responses
  rw [h, List.filterMap_append]

/-- Every sender of a list without repetitions gets one response. -/
theorem responses_to_senders {senders : List Sender} {response : Response} (h : senders.Nodup) :
    (senders.map (·, response)).filterMap
        (fun (s, response) => if s = sender then some response else none) =
      if sender ∈ senders then [response] else [] := by
  induction senders with
  | nil => rfl
  | cons first rest ih =>
    rw [List.nodup_cons] at h
    rw [List.map_cons, List.filterMap_cons, ih h.2]
    by_cases heq : first = sender
    · subst heq
      simp [h.1]
    · simp [heq, Ne.symm heq]

theorem step_db {command : StoreCommand} : (s.step command).db =
    match command with
    | .write key value => s.db.insert key value
    | _ => s.db := by
  cases command with
  | write key value =>
    unfold Task.step
    dsimp only
    split <;> rfl
  | read key sender => rfl
  | notify_read key sender =>
    unfold Task.step
    dsimp only
    split <;> rfl

theorem write_responses (h : (s.waiting key).Nodup) :
    (s.step (.write key value)).responses sender = s.responses sender ++
      if sender ∈ s.waiting key then [.notify_read value] else [] := by
  unfold Task.waiting at h ⊢
  unfold Task.step
  dsimp only
  split
  · rename_i senders heq
    rw [heq] at h ⊢
    have hsenders : senders.Nodup := h
    rw [responses_append (l := senders.map (·, .notify_read value)) rfl,
      responses_to_senders hsenders]
    rfl
  · rename_i heq
    rw [heq]
    simp [Task.responses]

theorem write_obligations {k : Key} : (s.step (.write key value)).obligations[k]? =
    if key = k then none else s.obligations[k]? := by
  unfold Task.step
  dsimp only
  split
  · rw [ExtTreeMap.getElem?_erase]
    simp
  · rename_i heq
    split
    · rename_i hk
      rw [← hk, heq]
    · rfl

theorem read_responses {n : Sender} : (s.step (.read key n)).responses sender =
    s.responses sender ++ if n = sender then [.read s.db[key]?] else [] := by
  rw [responses_append (l := [(n, .read s.db[key]?)]) rfl]
  by_cases h : n = sender <;> simp [h]

theorem notify_read_responses {n : Sender} : (s.step (.notify_read key n)).responses sender =
    s.responses sender ++ if n = sender then (s.db[key]?.map .notify_read).toList else [] := by
  rcases heq : s.db[key]? with _ | value
  · have hsent : (s.step (.notify_read key n)).sent = s.sent ++ [] := by simp [Task.step, heq]
    rw [responses_append hsent]
    simp
  · have hsent : (s.step (.notify_read key n)).sent = s.sent ++ [(n, .notify_read value)] := by
      simp [Task.step, heq]
    rw [responses_append hsent]
    by_cases h : n = sender <;> simp [h]

theorem notify_read_obligations {k : Key} {n : Sender} :
    (s.step (.notify_read key n)).obligations[k]? =
      if s.db[key]? = none ∧ key = k then some (s.waiting key ++ [n]) else s.obligations[k]? := by
  rcases heq : s.db[key]? with _ | value
  · simp [Task.step, heq, ExtTreeMap.getElem?_insert, Task.waiting]
  · simp [Task.step, heq]

end

/-! ## The invariant of a run -/

/-- Between two commands: the database holds the value of each key, every call has its responses,
and the calls that wait for a key are those without a value for it. -/
structure Served (db : ExtTreeMap Key Value) (calls : List Call) (s : Task) : Prop where
  stored : ∀ key : Key, s.db[key]? = value_of db key calls
  responses : ∀ before call after, calls = before ++ call :: after →
    s.responses before.length = due db before call after
  unused : ∀ sender, calls.length ≤ sender → s.responses sender = []
  waiting : ∀ key sender, sender ∈ s.waiting key ↔
    calls[sender]? = some (.notify_read key) ∧ value_of db key calls = none
  nodup : ∀ key, (s.waiting key).Nodup
  pending : ∀ key, key ∈ s.obligations → s.db[key]? = none

theorem served_new : Served db [] (.new db) where
  stored := fun key => rfl
  responses := by
    intro before call after heq
    simp at heq
  unused := fun _ _ => rfl
  waiting := by simp [Task.waiting, Task.new]
  nodup := by simp [Task.waiting, Task.new]
  pending := by simp [Task.new]

variable {s : Task}

/-- A split of one more call is a split of the calls before it, or the call itself. -/
theorem concat_eq_split {c : Call} (h : calls ++ [c] = before ++ call :: after) :
    (before = calls ∧ call = c ∧ after = []) ∨
      ∃ rest, after = rest ++ [c] ∧ calls = before ++ call :: rest := by
  rcases List.eq_nil_or_concat' after with rfl | ⟨rest, d, rfl⟩
  · obtain ⟨rfl, hc⟩ := List.append_inj' h rfl
    cases hc
    exact Or.inl ⟨rfl, rfl, rfl⟩
  · rw [← List.cons_append, ← List.append_assoc] at h
    obtain ⟨rfl, hd⟩ := List.append_inj' h rfl
    cases hd
    exact Or.inr ⟨rest, rfl, rfl⟩

theorem getElem?_concat_eq_some {c d : Call} {i : ℕ} :
    (calls ++ [c])[i]? = some d ↔ calls[i]? = some d ∨ (i = calls.length ∧ c = d) := by
  rw [List.getElem?_append]
  split
  · rename_i hlt
    simp [Nat.ne_of_lt hlt]
  · rename_i hge
    rw [List.getElem?_eq_none (Nat.le_of_not_lt hge), List.getElem?_singleton]
    rcases Nat.eq_or_lt_of_le (Nat.le_of_not_lt hge) with heq | hlt
    · simp [← heq]
    · simp [Nat.ne_of_gt hlt, Nat.sub_ne_zero_of_lt hlt]

/-- A call waits for the key exactly when it asks for it and is due nothing so far. -/
theorem Served.waits (h : Served db calls s) (heq : calls = before ++ call :: after) :
    before.length ∈ s.waiting key ↔ call = .notify_read key ∧ value_of db key calls = none := by
  rw [h.waiting, heq]
  simp

theorem Served.new_call (h : Served db calls s) : calls.length ∉ s.waiting key := by
  rw [h.waiting]
  simp

/-- A write makes a response due to each call that waits for the key, and to no other. -/
theorem Served.due_write (h : Served db calls s) (hold : calls = before ++ call :: after)
    (key : Key) (value : Value) : due db before call (after ++ [.write key value]) =
      due db before call after ++
        if before.length ∈ s.waiting key then [.notify_read value] else [] := by
  have hwaits : before.length ∈ s.waiting key ↔ _ := h.waits hold
  cases call with
  | write | read =>
    rw [if_neg (by rw [hwaits]; simp)]
    exact (List.append_nil _).symm
  | notify_read k =>
    unfold due
    dsimp only
    rw [first_write_concat, ← Option.or_assoc]
    by_cases hk : k = key
    · subst hk
      rw [hold, ← waits_iff] at hwaits
      rcases hdue : (value_of db k before).or (first_write k after) with _ | v <;>
        rw [hdue] at hwaits
      · simp [hwaits, written]
      · simp [hwaits]
    · rw [if_neg (by rw [hwaits]; simp [hk])]
      simp [written, Ne.symm hk]

theorem Served.write (h : Served db calls s) (key : Key) (value : Value) :
    Served db (calls ++ [.write key value]) (s.step (.write key value)) where
  stored := by
    intro k
    rw [step_db, value_of_concat]
    dsimp only
    rw [ExtTreeMap.getElem?_insert, h.stored]
    by_cases hk : key = k <;> simp [written, hk]
  responses := by
    intro before call after heq
    rw [write_responses (h.nodup key)]
    rcases concat_eq_split heq with ⟨rfl, rfl, rfl⟩ | ⟨rest, rfl, hold⟩
    · rw [h.unused _ (Nat.le_refl _), if_neg h.new_call]
      rfl
    · rw [h.responses _ _ _ hold, h.due_write hold]
  unused := by
    intro sender hle
    rw [List.length_append, List.length_singleton] at hle
    rw [write_responses (h.nodup key), h.unused sender (by omega), if_neg]
    · rfl
    · rw [h.waiting, List.getElem?_eq_none (by omega)]
      simp
  waiting := by
    intro k sender
    unfold Task.waiting
    rw [write_obligations, getElem?_concat_eq_some, value_of_concat]
    by_cases hk : key = k
    · simp [hk, written]
    · have hold := h.waiting k sender
      unfold Task.waiting at hold
      simp [hk, written, hold]
  nodup := by
    intro k
    unfold Task.waiting
    rw [write_obligations]
    split
    · exact List.nodup_nil
    · exact h.nodup k
  pending := by
    intro k hk
    rw [ExtTreeMap.mem_iff_isSome_getElem?, write_obligations] at hk
    split at hk
    · cases hk
    · rename_i hne
      rw [step_db]
      dsimp only
      rw [ExtTreeMap.getElem?_insert]
      rw [if_neg (by simpa using hne)]
      exact h.pending k (ExtTreeMap.mem_iff_isSome_getElem?.mpr hk)

theorem Served.read (h : Served db calls s) (key : Key) :
    Served db (calls ++ [.read key]) (s.step (.read key calls.length)) where
  stored := by
    intro k
    rw [value_of_concat]
    exact h.stored k
  responses := by
    intro before call after heq
    rw [read_responses]
    rcases concat_eq_split heq with ⟨rfl, rfl, rfl⟩ | ⟨rest, rfl, hold⟩
    · rw [h.unused _ (Nat.le_refl _), h.stored, if_pos rfl]
      rfl
    · rw [h.responses _ _ _ hold, if_neg (by simp [hold]), List.append_nil,
        due_concat fun _ => rfl]
  unused := by
    intro sender hle
    rw [List.length_append, List.length_singleton] at hle
    have hne : calls.length ≠ sender := by omega
    rw [read_responses, h.unused sender (by omega), if_neg hne]
    rfl
  waiting := by
    intro k sender
    rw [getElem?_concat_eq_some, value_of_concat]
    change sender ∈ s.waiting k ↔ _
    simp [h.waiting, written]
  nodup := h.nodup
  pending := h.pending

theorem Served.notify_read (h : Served db calls s) (key : Key) :
    Served db (calls ++ [.notify_read key]) (s.step (.notify_read key calls.length)) where
  stored := by
    intro k
    rw [step_db, value_of_concat]
    exact h.stored k
  responses := by
    intro before call after heq
    rw [notify_read_responses]
    rcases concat_eq_split heq with ⟨rfl, rfl, rfl⟩ | ⟨rest, rfl, hold⟩
    · rw [h.unused _ (Nat.le_refl _), h.stored, if_pos rfl]
      simp [due, first_write]
    · rw [h.responses _ _ _ hold, if_neg (by simp [hold]), List.append_nil,
        due_concat fun _ => rfl]
  unused := by
    intro sender hle
    rw [List.length_append, List.length_singleton] at hle
    have hne : calls.length ≠ sender := by omega
    rw [notify_read_responses, h.unused sender (by omega), if_neg hne]
    rfl
  waiting := by
    intro k sender
    have hold := h.waiting k sender
    unfold Task.waiting at hold ⊢
    rw [notify_read_obligations, getElem?_concat_eq_some, value_of_concat]
    by_cases hk : key = k
    · subst hk
      rcases hdb : s.db[key]? with _ | value
      · rw [h.stored] at hdb
        simp [hdb, hold, written, Task.waiting]
      · rw [h.stored] at hdb
        simp [hdb, hold, written]
    · simp [hk, hold, written]
  nodup := by
    intro k
    have hold := h.nodup k
    unfold Task.waiting at hold ⊢
    rw [notify_read_obligations]
    split
    · rename_i hk
      rw [Option.getD_some, List.nodup_append]
      refine ⟨h.nodup key, List.nodup_singleton _, ?_⟩
      rintro a ha b hb rfl
      rw [List.mem_singleton] at hb
      exact h.new_call (hb ▸ ha)
    · exact hold
  pending := by
    intro k hk
    rw [ExtTreeMap.mem_iff_isSome_getElem?, notify_read_obligations] at hk
    rw [step_db]
    dsimp only
    split at hk
    · rename_i hnone
      rw [← hnone.2]
      exact hnone.1
    · exact h.pending k (ExtTreeMap.mem_iff_isSome_getElem?.mpr hk)

/-- Every command keeps the invariant. -/
theorem served_run (db : ExtTreeMap Key Value) (calls : List Call) :
    Served db calls (run db calls) := by
  induction calls using List.reverseRecOn with
  | nil => exact served_new
  | append_singleton calls call ih =>
    rw [run_concat]
    cases call with
    | write key value => exact ih.write key value
    | read key => exact ih.read key
    | notify_read key => exact ih.notify_read key

/-- For every sequence of calls on a store: a read gets the last value written before it, a
`notify_read` gets one response, with the last value written before it or else the first value
written after it, and none until there is one. No key with a value has an obligation. -/
theorem no_wake_up_is_lost (db : ExtTreeMap Key Value) (calls : List Call) :
    (∀ before key after, calls = before ++ .read key :: after →
      (run db calls).responses before.length = [.read (value_of db key before)]) ∧
    (∀ before key after, calls = before ++ .notify_read key :: after →
      (run db calls).responses before.length =
        (((value_of db key before).or (first_write key after)).map .notify_read).toList) ∧
    ∀ key, key ∈ (run db calls).db → key ∉ (run db calls).obligations := by
  have h := served_run db calls
  refine ⟨fun before key after heq => h.responses before _ after heq,
    fun before key after heq => h.responses before _ after heq, ?_⟩
  intro key hkey hobligation
  rw [ExtTreeMap.mem_iff_isSome_getElem?, h.pending key hobligation] at hkey
  cases hkey

example : (run ∅ [.notify_read [0, 1, 2, 3], .write [0, 1, 2, 3] [4, 5, 6, 7]]).responses 0 =
    [.notify_read [4, 5, 6, 7]] := by decide +kernel

end sailfish.store
