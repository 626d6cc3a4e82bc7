-- The driver of the state transition with all that it does, one thing after the other: the
-- RPC calls and the writes of its two files. It may stop after any of them, and it is
-- started again on the files that it left.
import Mathlib
import Sailfish.Lib.Splits
import Sailfish.StateTransition

open Std splits

namespace sailfish.crash_recovery

open state_transition (Attempt Batch Outcome Payload Responses Result RETRY_LIMIT
  all_txs_exactly_match has_block head process truthy)

/-! ## What the driver does at a batch -/

/-- An RPC call, where the last one may make the block the head; the assignment of the block to the
batch and to the log; or the opening of a file, which empties it, and the end of its write. -/
inductive Action
  | send (tx : String)
  | get_block
  | forkchoice
  | get_payload
  | new_payload
  | final_forkchoice (block_hash : Option String) (made_head : Bool)
  | record (block_hash : Option String) (block_number : ℤ)
  | open_log
  | write_log
  | open_batches
  | write_batches
deriving DecidableEq

/-- The block of the batch is recorded, and then the files are saved. -/
def save (block_hash : Option String) (block_number : ℤ) : List Action :=
  [.record block_hash block_number, .open_log, .write_log, .open_batches, .write_batches]

def submit (payload : Payload) (o : Attempt) (made_head : Bool) : List Action :=
  .new_payload ::
    match o.status with
    | .stops | .raises => []
    | .returns status =>
      if status = some "VALID" ∨ status = some "ACCEPTED" then
        match payload.blockNumber with
        | none => []
        | some block_number =>
          .final_forkchoice payload.blockHash made_head ::
            match o.final_forkchoice with
            | .stops | .raises => []
            | .returns () => save payload.blockHash block_number
      else []

def attempt (batch_txs : List String) (o : Attempt) (made_head : Bool) : List Action :=
  .forkchoice ::
    match o.forkchoice with
    | .stops | .raises => []
    | .returns payload_id =>
      if truthy payload_id then
        .get_payload ::
          match o.payload with
          | .stops | .raises | .returns none => []
          | .returns (some payload) =>
            if all_txs_exactly_match payload batch_txs then submit payload o made_head else []
      else []

/-- The loop over the attempts, as in `state_transition.attempts`. -/
def attempts (batch_txs : List String) (o : ℕ → Attempt) (made_head : ℕ → Bool) : ℕ → List Action
  | 0 => []
  | left + 1 =>
    let i := RETRY_LIMIT - left
    attempt batch_txs (o i) (made_head i) ++
      if state_transition.attempt batch_txs (o i) = .retry then attempts batch_txs o made_head left
      else []

/-- The transactions are sent up to one that ends the driver. -/
def sends (o : ℕ → Outcome Unit) : ℕ → List String → List Action
  | _, [] => []
  | i, tx :: txs => .send tx :: if o i = .stops then [] else sends o (i + 1) txs

/-- The latest block is asked for again after a status 401. -/
def get_latest_block_info (o : Responses) : List Action :=
  match o.latest with
  | .block _ _ | .raises => [.get_block]
  | .unauthorized => [.get_block, .get_block]

/-- What the driver does at a batch, if nothing stops it. -/
def actions (batch : Batch) (o : Responses) (made_head : ℕ → Bool) : List Action :=
  if truthy batch.blockhash then []
  else
    sends o.sent 0 batch.transactions ++
      if state_transition.sends batch.transactions o then
        get_latest_block_info o ++
          match head o with
          | none => []
          | some _ => attempts batch.transactions o.attempt made_head RETRY_LIMIT
      else []

/-! ## The files, the client and the driver -/

/-- The log, by the batch index. -/
abbrev Log := ExtTreeMap ℕ (Option String × ℤ)

structure State where
  /-- `none` is a file that is partly written. -/
  batch_file : Option (List Batch)
  log_file : Option Log
  /-- The transactions that were sent to the client, each for its batch. -/
  submitted : List (ℕ × String)
  /-- The blocks that the client made its head, each for its batch. -/
  heads : List (ℕ × Option String)
  batches : List Batch
  log : Log
  next : ℕ
  running : Bool

/-- A file that is partly written is no JSON, and is taken for an empty one. -/
def load_json (batch_file : Option (List Batch)) : List Batch := batch_file.getD []

def perform (s : State) : Action → State
  | .send tx => { s with submitted := s.submitted ++ [(s.next, tx)] }
  | .get_block | .forkchoice | .get_payload | .new_payload => s
  | .final_forkchoice block_hash made_head =>
    if made_head then { s with heads := s.heads ++ [(s.next, block_hash)] } else s
  | .record block_hash block_number =>
    { s with
      batches := s.batches.modify s.next fun batch =>
        { batch with blockhash := block_hash, blocknumber := block_number }
      log := s.log.insert s.next (block_hash, block_number) }
  | .open_log => { s with log_file := none }
  | .write_log => { s with log_file := some s.log }
  | .open_batches => { s with batch_file := none }
  | .write_batches => { s with batch_file := some s.batches }

/-- The driver is started; or it is at the next batch, where the client makes the block of some
attempts its head, and the driver may stop after a number of actions. A save that fails is such a
stop: the outcome `saved` of an attempt is not looked at here. -/
inductive Event
  | start
  | batch (o : Responses) (made_head : ℕ → Bool) (stop : Option ℕ)

/-- The batch that the driver is at. -/
def State.batch (s : State) : Option Batch := if s.running then s.batches[s.next]? else none

/-- The actions that the driver comes to. -/
def performed (s : State) : Event → List Action
  | .start => []
  | .batch o made_head stop =>
    match s.batch, stop with
    | none, _ => []
    | some batch, none => actions batch o made_head
    | some batch, some n => (actions batch o made_head).take n

def step (s : State) (e : Event) : State :=
  match e with
  | .start =>
    { s with
      batches := load_json s.batch_file
      log := s.log_file.getD ∅
      next := 0
      running := true }
  | .batch o _ stop =>
    match s.batch with
    | none => s
    | some batch =>
      let s' := (performed s e).foldl perform s
      if stop.isSome || process batch o == some .stop then { s' with running := false }
      else { s' with next := s.next + 1 }

/-- Any number of runs of the driver on a batch file. -/
def run (batch_file : List Batch) (events : List Event) : State :=
  events.foldl step
    { batch_file := some batch_file, log_file := some ∅, submitted := [], heads := [],
      batches := [], log := ∅, next := 0, running := false }

theorem run_concat (batch_file : List Batch) (events : List Event) (e : Event) :
    run batch_file (events ++ [e]) = step (run batch_file events) e := by
  unfold run
  rw [List.foldl_append]
  rfl

/-! ## The actions up to a stop -/

def Action.is_call : Action → Bool
  | .send _ | .get_block | .forkchoice | .get_payload | .new_payload | .final_forkchoice _ _ => true
  | .record _ _ | .open_log | .write_log | .open_batches | .write_batches => false

/-- The driver saves a batch that is included. -/
def saves : Option Result → List Action
  | some (.included block_hash block_number _) => save block_hash block_number
  | some .retry | some .abort | some .stop | none => []

/-- The actions are RPC calls, and then those that save the batch, if it is included. -/
def Calls (l : List Action) (r : Option Result) : Prop :=
  ∃ calls, (∀ a ∈ calls, a.is_call = true) ∧ l = calls ++ saves r

theorem calls_nil {r : Option Result} (h : saves r = []) : Calls [] r :=
  ⟨[], List.forall_mem_nil _, by rw [h]; rfl⟩

theorem Calls.append {l l' : List Action} {r : Option Result} (h : Calls l' r)
    (hl : ∀ a ∈ l, a.is_call = true) : Calls (l ++ l') r := by
  obtain ⟨calls, hcalls, rfl⟩ := h
  refine ⟨l ++ calls, ?_, by simp⟩
  rw [List.forall_mem_append]
  exact ⟨hl, hcalls⟩

theorem Calls.cons {a : Action} {l : List Action} {r : Option Result} (h : Calls l r)
    (ha : a.is_call = true) : Calls (a :: l) r :=
  Calls.append (l := [a]) h (by simpa using ha)

theorem calls_save {block_hash : Option String} {block_number : ℤ} {saved : Bool} :
    Calls (save block_hash block_number) (some (.included block_hash block_number saved)) :=
  ⟨[], List.forall_mem_nil _, rfl⟩

theorem submit_calls (payload : Payload) (o : Attempt) (made_head : Bool) :
    Calls (submit payload o made_head) (some (state_transition.submit payload o)) := by
  unfold submit state_transition.submit
  refine Calls.cons ?_ rfl
  cases o.status with
  | stops => exact calls_nil rfl
  | raises => exact calls_nil rfl
  | returns status =>
    dsimp only
    by_cases hstatus : status = some "VALID" ∨ status = some "ACCEPTED"
    · rw [if_pos hstatus, if_pos hstatus]
      cases payload.blockNumber with
      | none => exact calls_nil rfl
      | some block_number =>
        refine Calls.cons ?_ rfl
        cases o.final_forkchoice with
        | stops => exact calls_nil rfl
        | raises => exact calls_nil rfl
        | returns => exact calls_save
    · rw [if_neg hstatus, if_neg hstatus]
      exact calls_nil rfl

theorem attempt_calls (batch_txs : List String) (o : Attempt) (made_head : Bool) :
    Calls (attempt batch_txs o made_head) (some (state_transition.attempt batch_txs o)) := by
  unfold attempt state_transition.attempt
  refine Calls.cons ?_ rfl
  cases o.forkchoice with
  | stops => exact calls_nil rfl
  | raises => exact calls_nil rfl
  | returns payload_id =>
    dsimp only
    by_cases hid : truthy payload_id = true
    · rw [if_pos hid, if_pos hid]
      refine Calls.cons ?_ rfl
      rcases o.payload with (_ | payload) | _ | _
      · exact calls_nil rfl
      · dsimp only
        by_cases hmatch : all_txs_exactly_match payload batch_txs = true
        · rw [if_pos hmatch, if_pos hmatch]
          exact submit_calls payload o made_head
        · rw [if_neg hmatch, if_neg hmatch]
          exact calls_nil rfl
      · exact calls_nil rfl
      · exact calls_nil rfl
    · rw [if_neg hid, if_neg hid]
      exact calls_nil rfl

theorem attempts_calls (batch_txs : List String) (o : ℕ → Attempt) (made_head : ℕ → Bool)
    (left : ℕ) : Calls (attempts batch_txs o made_head left)
      (some (state_transition.attempts batch_txs o left)) := by
  induction left with
  | zero => exact calls_nil rfl
  | succ left ih =>
    have hcalls := attempt_calls batch_txs (o (RETRY_LIMIT - left)) (made_head (RETRY_LIMIT - left))
    unfold attempts state_transition.attempts
    dsimp only
    cases hresult : state_transition.attempt batch_txs (o (RETRY_LIMIT - left)) with
    | retry =>
      rw [hresult] at hcalls
      obtain ⟨calls, hall, heq⟩ := hcalls
      rw [heq, if_pos rfl]
      exact ih.append (by simpa [saves] using hall)
    | abort | stop | included =>
      rw [hresult] at hcalls
      rw [if_neg nofun, List.append_nil]
      exact hcalls

theorem sends_calls (o : ℕ → Outcome Unit) (i : ℕ) (txs : List String) :
    ∀ a ∈ sends o i txs, a.is_call = true := by
  induction txs generalizing i with
  | nil => exact List.forall_mem_nil _
  | cons tx txs ih =>
    unfold sends
    rw [List.forall_mem_cons]
    refine ⟨rfl, ?_⟩
    split
    · exact List.forall_mem_nil _
    · exact ih (i + 1)

theorem actions_calls (batch : Batch) (o : Responses) (made_head : ℕ → Bool) :
    Calls (actions batch o made_head) (process batch o) := by
  unfold actions process
  by_cases hblock : truthy batch.blockhash = true
  · rw [if_pos hblock, if_pos hblock]
    exact calls_nil rfl
  · rw [if_neg hblock, if_neg hblock]
    refine Calls.append ?_ (sends_calls _ _ _)
    by_cases hsends : state_transition.sends batch.transactions o = true
    · rw [if_pos hsends, if_pos hsends]
      refine Calls.append ?_ ?_
      · cases head o with
        | none => exact calls_nil rfl
        | some => exact attempts_calls ..
      · unfold get_latest_block_info
        cases o.latest <;> simp [Action.is_call]
    · rw [if_neg hsends, if_neg hsends]
      exact calls_nil rfl

/-! ## What the actions leave -/

/-- The transactions of the batch that were sent so far. -/
def State.sent (s : State) (i : ℕ) : List (ℕ × String) := s.submitted.filter fun p => p.1 = i

variable {s : State} {l calls : List Action} {i : ℕ}

theorem perform_next (s : State) (a : Action) : (perform s a).next = s.next := by
  cases a <;> unfold perform
  case final_forkchoice block_hash made_head => cases made_head <;> rfl
  all_goals rfl

theorem performs_next (s : State) (l : List Action) : (l.foldl perform s).next = s.next := by
  induction l generalizing s with
  | nil => rfl
  | cons a l ih => exact (ih (perform s a)).trans (perform_next s a)

theorem performs_running (s : State) (l : List Action) :
    (l.foldl perform s).running = s.running := by
  induction l generalizing s with
  | nil => rfl
  | cons a l ih =>
    refine (ih (perform s a)).trans ?_
    cases a <;> unfold perform
    case final_forkchoice block_hash made_head => cases made_head <;> rfl
    all_goals rfl

theorem performs_calls (h : ∀ a ∈ calls, a.is_call = true) :
    (calls.foldl perform s).batch_file = s.batch_file ∧
      (calls.foldl perform s).batches = s.batches := by
  induction calls generalizing s with
  | nil => exact ⟨rfl, rfl⟩
  | cons a calls ih =>
    obtain ⟨ha, hcalls⟩ := List.forall_mem_cons.mp h
    have hrest := ih (s := perform s a) hcalls
    have hfirst : (perform s a).batch_file = s.batch_file ∧ (perform s a).batches = s.batches := by
      cases a
      case final_forkchoice block_hash made_head => cases made_head <;> exact ⟨rfl, rfl⟩
      case send | get_block | forkchoice | get_payload | new_payload => exact ⟨rfl, rfl⟩
      all_goals cases ha
    exact ⟨hrest.1.trans hfirst.1, hrest.2.trans hfirst.2⟩

/-- The batches with the block of the batch that the driver is at. -/
def State.recorded (s : State) (block_hash : Option String) (block_number : ℤ) : List Batch :=
  s.batches.modify s.next fun batch =>
    { batch with blockhash := block_hash, blocknumber := block_number }

theorem recorded_eq_set {batch : Batch} (h : s.batches[s.next]? = some batch)
    (block_hash : Option String) (block_number : ℤ) : s.recorded block_hash block_number =
      s.batches.set s.next { batch with blockhash := block_hash, blocknumber := block_number } := by
  unfold State.recorded
  refine List.ext_getElem? fun i => ?_
  obtain ⟨hlt, rfl⟩ := List.getElem?_eq_some_iff.mp h
  by_cases hi : s.next = i
  · subst hi
    simp [hlt]
  · simp [hi]

/-- What the driver leaves of the batch file when it comes to the actions `l`. -/
inductive Leaves (s : State) (stop : Option ℕ) (l : List Action) (s' : State) : Prop
  | same : .open_batches ∉ l → .write_batches ∉ l → s'.batch_file = s.batch_file →
      (stop = none → s'.batches = s.batches) → Leaves s stop l s'
  | partly_written : .open_batches ∈ l → .write_batches ∉ l → s'.batch_file = none →
      stop ≠ none → Leaves s stop l s'
  | saved (block_hash : Option String) (block_number : ℤ) : .write_batches ∈ l →
      (∀ h n, .record h n ∈ l ↔ h = block_hash ∧ n = block_number) →
      s'.batches = s.recorded block_hash block_number → s'.batch_file = some s'.batches →
      Leaves s stop l s'

theorem Leaves.congr {stop : Option ℕ} {s' s'' : State} (h : Leaves s stop l s')
    (hfile : s''.batch_file = s'.batch_file) (hbatches : s''.batches = s'.batches) :
    Leaves s stop l s'' := by
  cases h with
  | same hopen hwrite hsame hkept =>
    exact .same hopen hwrite (hfile.trans hsame) fun hstop => hbatches.trans (hkept hstop)
  | partly_written hopen hwrite hnone hstop =>
    exact .partly_written hopen hwrite (hfile.trans hnone) hstop
  | saved block_hash block_number hwrite hrecord hset hsaved =>
    refine .saved block_hash block_number hwrite hrecord (hbatches.trans hset) ?_
    rw [hfile, hsaved, hbatches]

/-- The actions that the driver comes to at a batch. -/
theorem performed_calls {batch : Batch} (hbatch : s.batch = some batch) (o : Responses)
    (made_head : ℕ → Bool) (stop : Option ℕ) : ∃ calls m, (∀ a ∈ calls, a.is_call = true) ∧
      performed s (.batch o made_head stop) = calls ++ (saves (process batch o)).take m ∧
      (stop = none → 5 ≤ m) := by
  obtain ⟨calls, hcalls, heq⟩ := actions_calls batch o made_head
  unfold performed
  rw [hbatch]
  cases stop with
  | none =>
    refine ⟨calls, 5, hcalls, ?_, fun _ => Nat.le_refl 5⟩
    dsimp only
    rw [heq, List.take_of_length_le]
    unfold saves
    split <;> simp [save]
  | some n =>
    refine ⟨calls.take n, n - calls.length, ?_, ?_, nofun⟩
    · exact fun a ha => hcalls a (List.mem_of_mem_take ha)
    · dsimp only
      rw [heq, List.take_append]

variable {batch : Batch} {o : Responses} {made_head : ℕ → Bool} {stop : Option ℕ}

theorem State.batch_eq_some (h : s.batch = some batch) :
    s.running = true ∧ s.batches[s.next]? = some batch := by
  unfold State.batch at h
  split at h
  · exact ⟨‹_›, h⟩
  · cases h

theorem step_idle (h : s.batch = none) : step s (.batch o made_head stop) = s := by
  unfold step
  rw [h]

/-- What `state_transition` has of the state. -/
def State.driver (s : State) : state_transition.Driver where
  batch_file := load_json s.batch_file
  batches := s.batches
  next := s.next
  running := s.running

/-- When nothing stops the driver, and the files are saved, it does what it does in
`state_transition`. -/
theorem step_driver (s : State) (o : Responses) (made_head : ℕ → Bool)
    (hsaved : ∀ batch h n, s.batch = some batch → process batch o ≠ some (.included h n false)) :
    (step s (.batch o made_head none)).driver = state_transition.step s.driver (.batch o) := by
  rcases hbatch : s.batch with _ | batch
  · rw [step_idle hbatch]
    unfold state_transition.step State.driver
    unfold State.batch at hbatch
    dsimp only
    split
    · rename_i hrunning hnext
      rw [hrunning, if_pos rfl, hnext] at hbatch
      cases hbatch
    · rfl
  · obtain ⟨hrunning, hnext⟩ := State.batch_eq_some hbatch
    obtain ⟨calls, m, hcalls, heq, hm⟩ := performed_calls hbatch o made_head none
    obtain ⟨hfile, hbatches⟩ := performs_calls (s := s) hcalls
    have ht := performs_next s calls
    have ht' := performs_running s calls
    unfold step state_transition.step State.driver
    rw [hbatch, heq, List.foldl_append]
    dsimp only
    rw [hrunning, hnext]
    dsimp only
    generalize calls.foldl perform s = t at hfile hbatches ht ht'
    rcases hresult : process batch o with _ | _ | _ | _ | ⟨h, n, saved⟩
    case some.included =>
      cases saved with
      | false => exact absurd hresult (hsaved batch h n hbatch)
      | true =>
        have hset : t.batches.modify s.next (fun batch =>
            { batch with blockhash := h, blocknumber := n }) =
              s.batches.set s.next { batch with blockhash := h, blocknumber := n } := by
          rw [hbatches]
          exact recorded_eq_set hnext h n
        have hall : (saves (some (.included h n true))).take m = save h n :=
          List.take_of_length_le (hm rfl)
        rw [hall]
        simp [save, perform, load_json, hset, ht, ht', hrunning]
    all_goals simp [saves, load_json, hfile, hbatches, ht, ht', hrunning]

/-- The driver comes from a call that makes the block of a batch the head to the end of the write of
the batch file, with that block or with a later one that became the head; and it comes to the end of
the write when it starts it. -/
structure Safe (l : List Action) : Prop where
  head : ∀ block_hash, .final_forkchoice block_hash true ∈ l → .write_batches ∈ l ∧
    ∃ h n, .record h n ∈ l ∧ .final_forkchoice h true ∈ l ∧ truthy h = true
  write : .open_batches ∈ l → .write_batches ∈ l

variable {batch_file : List Batch} {events : List Event}

end sailfish.crash_recovery
