-- The extractor of the batches (`extract_batches_from_ordered_certs.py`): it goes
-- through the ordered certificates and gives each of their batches the next index in a
-- file. A run goes on from the file that earlier runs left.
import Mathlib
import Sailfish.Lib.Traversal
import Sailfish.StateTransition

open Std

namespace sailfish.extractor

open state_transition (truthy)

/-! ## The certificates and the records -/

/-- What a certificate holds for a digest: the word "missing" or "invalid", its transactions, or
anything else. -/
inductive Field
  | text (word : String)
  | list (txs : List String)
  | other
deriving DecidableEq

/-- The text of a batch digest: the 32 bytes in base64, so it is never empty. -/
abbrev Digest := { text : String // text ≠ "" }

/-- A certificate of the input. Where the payload or the transactions are absent, they are empty. -/
structure Cert where
  id : Option String
  author : Option String
  round : Option ℕ
  /-- The items of the payload: the digests of the batches and their workers. -/
  payload : List (Digest × ℕ)
  transactions : List (String × Field)
deriving DecidableEq

structure Record where
  cert_id : Option String
  round : Option ℕ
  author : Option String
  batch_digest : String
  transactions : List String
  blockhash : Option String
  blocknumber : ℤ
deriving DecidableEq

/-- The output, by the batch index. -/
abbrev Records := ExtTreeMap ℕ Record

/-- What `str.strip` takes off. -/
def is_space (c : Char) : Bool :=
  let n := c.toNat
  (9 ≤ n && n ≤ 13) || (28 ≤ n && n ≤ 32) || n == 0x85 || n == 0xa0 || n == 0x1680 ||
    (0x2000 ≤ n && n ≤ 0x200a) || n == 0x2028 || n == 0x2029 || n == 0x202f || n == 0x205f ||
    n == 0x3000

def strip (s : String) : String :=
  .ofList ((s.toList.dropWhile is_space).reverse.dropWhile is_space).reverse

def normalize_tx_hex (tx : String) : String :=
  let tx := strip tx
  if tx = "" then tx
  else if "0x".toList.isPrefixOf tx.toList || "0X".toList.isPrefixOf tx.toList then tx
  else "0x" ++ tx

def extract_transactions_from_cert_transactions_field (cert_transactions : List (String × Field))
    (batch_digest : String) : Option (List String) :=
  match cert_transactions.lookup batch_digest with
  | some (.list txs) => some txs
  | some (.text _) | some .other | none => none

/-- The transactions of a batch: from the certificate, or from one call of `run_sailfish_cli`, which
must find some. -/
def fetch (run_sailfish_cli : String → Option (List String)) (cert : Cert) (batch_digest : Digest) :
    Option (List String) :=
  match extract_transactions_from_cert_transactions_field cert.transactions batch_digest with
  | some txs => some txs
  | none =>
    match run_sailfish_cli batch_digest with
    | some (tx :: txs) => some (tx :: txs)
    | some [] | none => none

/-- The digests of a certificate, in a deterministic order. -/
def Cert.digests (cert : Cert) : List Digest :=
  (cert.payload.map (·.1)).insertionSort fun a b => a.val ≤ b.val

/-- What the two loops go through. -/
def batches (certs : List Cert) : List (Cert × Digest) :=
  certs.flatMap fun cert => cert.digests.map fun digest => (cert, digest)

/-! ## The extractor -/

/-- A run of the extractor. -/
structure Run where
  /-- The certificates of the input file. -/
  input : List Cert
  /-- What the loops have not come to. -/
  todo : List (Cert × Digest)
  /-- The attempts at the first of these. -/
  attempt : ℕ
  out_records : Records
  processed : List (Option String × String)
  next_index : ℕ

/-- The output file, if there is one, and the run, if there is one. -/
structure Extractor where
  output : Option Records
  run : Option Run

/-- What may happen: the extractor is started on an input file, takes the next turn of its loops,
where `run_sailfish_cli` would answer so for each digest, sees that a stop is requested, or is
killed. A record that is not in a snapshot yet is lost when the extractor is killed. -/
inductive Event
  | start (input : List Cert)
  | turn (run_sailfish_cli : String → Option (List String))
  | stop
  | kill

def load_existing_output (output : Option Records) : Records := output.getD ∅

/-- The start of `main`. -/
def start (input : List Cert) (output : Option Records) : Run :=
  let out_records := load_existing_output output
  { input
    todo := batches input
    attempt := 0
    out_records
    processed := (out_records.toList.filter fun (_, rec) =>
      truthy rec.cert_id && rec.batch_digest != "").map fun (_, rec) =>
        (rec.cert_id, rec.batch_digest)
    next_index := match out_records.keys.max? with
      | some k => k + 1
      | none => 0 }

def record (cert : Cert) (batch_digest : Digest) (txs : List String) : Record where
  cert_id := cert.id
  round := cert.round
  author := cert.author
  batch_digest := batch_digest
  transactions := txs.map normalize_tx_hex
  blockhash := none
  blocknumber := -1

/-- The check that skips a batch that is in the output. -/
def Run.has_processed (r : Run) (cert : Cert) (batch_digest : Digest) : Bool :=
  truthy cert.id && r.processed.contains (cert.id, batch_digest.val)

/-- The extractor writes a snapshot and exits. -/
def Run.finish (r : Run) : Extractor where
  output := some r.out_records
  run := none

/-- The first batch that is left gets the next index, and a snapshot is written. -/
def Run.add (r : Run) (cert : Cert) (batch_digest : Digest) (txs : List String)
    (rest : List (Cert × Digest)) : Extractor :=
  let out_records := r.out_records.insert r.next_index (record cert batch_digest txs)
  { output := some out_records
    run := some { r with
      todo := rest
      attempt := 0
      out_records
      processed := if truthy cert.id then (cert.id, batch_digest.val) :: r.processed else r.processed
      next_index := r.next_index + 1 } }

/-- A turn of the loops. Without transactions in the certificate it is one attempt to fetch them. -/
def Run.turn (r : Run) (output : Option Records) (max_retries : ℤ)
    (run_sailfish_cli : String → Option (List String)) : Extractor :=
  match r.todo with
  | [] => r.finish
  | (cert, batch_digest) :: rest =>
    if r.has_processed cert batch_digest then { output, run := some { r with todo := rest } }
    else
      match fetch run_sailfish_cli cert batch_digest with
      | some txs => r.add cert batch_digest txs rest
      | none =>
        let attempt := r.attempt + 1
        if max_retries ≠ -1 ∧ attempt ≥ max_retries then r.finish
        else { output, run := some { r with attempt } }

def step (max_retries : ℤ) (s : Extractor) : Event → Extractor
  | .start input => { s with run := some (start input s.output) }
  | .turn run_sailfish_cli =>
    match s.run with
    | some r => r.turn s.output max_retries run_sailfish_cli
    | none => s
  | .stop =>
    match s.run with
    | some r => r.finish
    | none => s
  | .kill => { s with run := none }

/-- Any number of runs of the extractor, from no output file. -/
def run (max_retries : ℤ) (events : List Event) : Extractor :=
  events.foldl (step max_retries) { output := none, run := none }

theorem run_concat (max_retries : ℤ) (events : List Event) (e : Event) :
    run max_retries (events ++ [e]) = step max_retries (run max_retries events) e := by
  unfold run
  rw [List.foldl_append]
  rfl

/-! ## The records of an input -/

/-- A batch is told apart by its certificate and its digest. -/
def key (p : Cert × Digest) : Option String × String := (p.1.id, p.2.val)

/-- The batches of an input, each one where it occurs first. -/
def distinct (certs : List Cert) : List (Cert × Digest) := traversal.fresh key [] (batches certs)

/-- The records of the batches of an input, with the transactions found for their digests. -/
def records (found : String → List String) (certs : List Cert) : List Record :=
  (distinct certs).map fun (cert, digest) => record cert digest (found digest)

/-- The output numbers the records from 0 on. -/
def Numbered (out_records : Records) (l : List Record) : Prop := ∀ i : ℕ, out_records[i]? = l[i]?

variable {found : String → List String} {certs : List Cert} {out_records : Records} {m : ℕ}

theorem mem_batches {p : Cert × Digest} : p ∈ batches certs ↔ p.1 ∈ certs ∧ p.2 ∈ p.1.digests := by
  obtain ⟨cert, digest⟩ := p
  unfold batches
  simp

theorem Numbered.mem_keys {l : List Record} (h : Numbered out_records l) {i : ℕ} :
    i ∈ out_records.keys ↔ i < l.length := by
  rw [ExtTreeMap.mem_keys, ExtTreeMap.mem_iff_isSome_getElem?, h i, isSome_getElem?]

theorem Numbered.insert {l : List Record} (h : Numbered out_records l) (rec : Record) :
    Numbered (out_records.insert l.length rec) (l ++ [rec]) := by
  intro i
  rw [ExtTreeMap.getElem?_insert]
  by_cases hi : l.length = i
  · subst hi
    simp
  · rw [if_neg (by simpa using hi), h i]
    rcases Nat.lt_or_ge i l.length with hlt | hge
    · rw [List.getElem?_append_left hlt]
    · rw [List.getElem?_eq_none hge, List.getElem?_eq_none]
      simp
      omega

/-- The next index is the number of the records. -/
theorem Numbered.next_index {l : List Record} (h : Numbered out_records l) :
    (match out_records.keys.max? with
      | some k => k + 1
      | none => 0) = l.length := by
  split
  · rename_i k hk
    obtain ⟨hmem, hle⟩ := List.max?_eq_some_iff.mp hk
    rw [h.mem_keys] at hmem
    have := hle (l.length - 1) (h.mem_keys.mpr (by omega))
    omega
  · rename_i hnone
    rw [List.max?_eq_none_iff] at hnone
    by_contra hne
    have hmem : 0 ∈ out_records.keys := h.mem_keys.mpr (by omega)
    rw [hnone] at hmem
    cases hmem

/-- The transactions found for a digest are always the same, in the certificates of an input and
from `run_sailfish_cli`. -/
structure SameTransactions (found : String → List String) (certs : List Cert)
    (events : List Event) : Prop where
  field : ∀ cert ∈ certs, ∀ digest txs,
    extract_transactions_from_cert_transactions_field cert.transactions digest = some txs →
      txs = found digest
  cli : ∀ run_sailfish_cli, .turn run_sailfish_cli ∈ events → ∀ digest txs,
    run_sailfish_cli digest = some txs → txs = found digest

theorem SameTransactions.fetch {events : List Event} (h : SameTransactions found certs events)
    {run_sailfish_cli : String → Option (List String)} (he : .turn run_sailfish_cli ∈ events)
    {cert : Cert} (hcert : cert ∈ certs) {digest : Digest} {txs : List String}
    (htxs : fetch run_sailfish_cli cert digest = some txs) : txs = found digest := by
  unfold extractor.fetch at htxs
  split at htxs
  · rename_i txs' hfield
    cases htxs
    exact h.field cert hcert _ _ hfield
  · split at htxs
    · rename_i tx txs' hcli
      cases htxs
      exact h.cli _ he _ _ hcli
    · cases htxs
    · cases htxs

/-! ## What a run keeps -/

/-- The keys of the first `m` batches of an input. -/
def keys (certs : List Cert) (m : ℕ) : List (Option String × String) :=
  ((distinct certs).take m).map key

/-- A run on the start of an input, once its output has the first `m` batches. -/
structure Run.Ok (found : String → List String) (certs : List Cert) (m : ℕ) (r : Run) : Prop where
  input : r.input <+: certs
  numbered : Numbered r.out_records ((records found certs).take m)
  next_index : r.next_index = m
  processed : ∀ k, k ∈ r.processed ↔ k ∈ keys certs m
  /-- The loops came to batches that are in the output. -/
  todo : ∃ done, batches r.input = done ++ r.todo ∧ ∀ p ∈ done, key p ∈ keys certs m

/-- The output has the first batches of an input, and so has the run. -/
structure Extractor.Ok (found : String → List String) (certs : List Cert) (s : Extractor) : Prop where
  output : ∃ m, Numbered (load_existing_output s.output) ((records found certs).take m) ∧
    m ≤ (records found certs).length
  run : ∀ r, s.run = some r → ∃ m, r.Ok found certs m ∧ m ≤ (records found certs).length

theorem records_getElem? (i : ℕ) : (records found certs)[i]? =
    ((distinct certs)[i]?).map fun p => record p.1 p.2 (found p.2) := by
  unfold records
  rw [List.getElem?_map]

theorem length_records : (records found certs).length = (distinct certs).length := List.length_map ..

theorem mem_keys_iff (found : String → List String) {k : Option String × String} :
    k ∈ keys certs m ↔
    ∃ rec ∈ (records found certs).take m, (rec.cert_id, rec.batch_digest) = k := by
  unfold keys records
  rw [← List.map_take, List.mem_map]
  constructor
  · rintro ⟨p, hp, rfl⟩
    exact ⟨_, List.mem_map_of_mem hp, rfl⟩
  · rintro ⟨rec, hrec, rfl⟩
    obtain ⟨p, hp, rfl⟩ := List.mem_map.mp hrec
    exact ⟨p, hp, rfl⟩

/-- The records of an input pass the check of a run that loads them. -/
theorem truthy_of_mem_records (hids : ∀ cert ∈ certs, truthy cert.id = true) {rec : Record}
    (h : rec ∈ records found certs) :
    (truthy rec.cert_id && rec.batch_digest != "") = true := by
  obtain ⟨⟨cert, digest⟩, hp, rfl⟩ := List.mem_map.mp h
  have hcert := (mem_batches.mp (traversal.mem_of_mem_fresh hp).1).1
  simp [record, hids cert hcert, digest.2]

/-- A run starts with the batches that are in the output. -/
theorem start_ok (hids : ∀ cert ∈ certs, truthy cert.id = true) {output : Option Records}
    (h : Numbered (load_existing_output output) ((records found certs).take m))
    (hm : m ≤ (records found certs).length) {input : List Cert} (hinput : input <+: certs) :
    (start input output).Ok found certs m where
  input := hinput
  numbered := h
  next_index := by
    refine h.next_index.trans ?_
    rw [List.length_take]
    omega
  processed := by
    intro k
    rw [mem_keys_iff found]
    unfold start
    simp only [List.mem_map, List.mem_filter, Prod.exists, ExtTreeMap.mem_toList_iff_getElem?_eq_some]
    constructor
    · rintro ⟨i, rec, ⟨hrec, -⟩, rfl⟩
      rw [h i] at hrec
      exact ⟨rec, List.mem_of_getElem? hrec, rfl⟩
    · rintro ⟨rec, hrec, rfl⟩
      obtain ⟨i, hi⟩ := List.getElem?_of_mem hrec
      refine ⟨i, rec, ⟨(h i).trans hi, ?_⟩, rfl⟩
      exact truthy_of_mem_records hids (List.mem_of_mem_take hrec)
  todo := ⟨[], rfl, List.forall_mem_nil _⟩

/-- The first batch that is left is in the output, or it is the next one of the input. -/
theorem Run.Ok.next {r : Run} (h : r.Ok found certs m) {p : Cert × Digest}
    {rest : List (Cert × Digest)} (htodo : r.todo = p :: rest) (hnew : key p ∉ r.processed) :
    (distinct certs)[m]? = some p := by
  obtain ⟨done, hbatches, hdone⟩ := h.todo
  obtain ⟨later, rfl⟩ := h.input
  rw [h.processed] at hnew
  have hall : batches (r.input ++ later) = done ++ p :: (rest ++ batches later) := by
    unfold batches at hbatches ⊢
    rw [List.flatMap_append, hbatches, htodo, List.append_assoc]
    rfl
  unfold keys distinct at hdone hnew
  unfold distinct
  rw [hall] at hdone hnew ⊢
  exact traversal.fresh_getElem? hdone hnew

/-- The batches that the loops came to, with one more that is in the output. -/
theorem Run.Ok.todo_rest {r : Run} (h : r.Ok found certs m) {p : Cert × Digest}
    {rest : List (Cert × Digest)} (htodo : r.todo = p :: rest) {n : ℕ} (hmn : m ≤ n)
    (hp : key p ∈ keys certs n) :
    ∃ done, batches r.input = done ++ rest ∧ ∀ q ∈ done, key q ∈ keys certs n := by
  obtain ⟨done, hbatches, hdone⟩ := h.todo
  refine ⟨done ++ [p], by rw [hbatches, htodo, List.append_assoc]; rfl, ?_⟩
  intro q hq
  rcases List.mem_append.mp hq with hq | hq
  · exact List.map_subset _ (List.take_subset_take_left _ hmn) (hdone q hq)
  · rw [List.mem_singleton.mp hq]
    exact hp

/-- The next batch of the input is added, with the transactions that its digest always has. -/
theorem Run.Ok.add (hids : ∀ cert ∈ certs, truthy cert.id = true) {r : Run}
    (h : r.Ok found certs m) {cert : Cert} {digest : Digest} {rest : List (Cert × Digest)}
    (htodo : r.todo = (cert, digest) :: rest)
    (hnew : (cert.id, digest.val) ∉ r.processed) {txs : List String} (htxs : txs = found digest) :
    (r.add cert digest txs rest).Ok found certs := by
  have hnext := h.next htodo hnew
  have hlt : m < (records found certs).length := by
    rw [length_records]
    exact (List.getElem?_eq_some_iff.mp hnext).1
  have hkeys : keys certs (m + 1) = keys certs m ++ [(cert.id, digest.val)] := by
    unfold keys
    rw [List.take_add_one, hnext, List.map_append]
    rfl
  have htake : (records found certs).take (m + 1) =
      (records found certs).take m ++ [record cert digest txs] := by
    rw [List.take_add_one, records_getElem?, hnext, htxs]
    rfl
  have hid : truthy cert.id = true := by
    apply hids
    have hmem := traversal.mem_of_mem_fresh (List.mem_of_getElem? hnext)
    exact (mem_batches.mp hmem.1).1
  have hnumbered : Numbered (r.out_records.insert r.next_index (record cert digest txs))
      ((records found certs).take (m + 1)) := by
    have hinsert := h.numbered.insert (record cert digest txs)
    rw [List.length_take, Nat.min_eq_left (Nat.le_of_lt hlt)] at hinsert
    rw [htake, h.next_index]
    exact hinsert
  refine ⟨⟨m + 1, hnumbered, hlt⟩, ?_⟩
  rintro _ ⟨⟩
  refine ⟨m + 1, ⟨h.input, hnumbered, congrArg (· + 1) h.next_index, ?_, ?_⟩, hlt⟩
  · intro k
    rw [if_pos hid, List.mem_cons, h.processed, hkeys, List.mem_append, List.mem_singleton, or_comm]
  · apply h.todo_rest htodo (Nat.le_succ m)
    rw [hkeys]
    exact List.mem_append_right _ List.mem_cons_self

/-- A turn of the loops keeps the numbers of the batches. -/
theorem Run.Ok.turn (hids : ∀ cert ∈ certs, truthy cert.id = true) {r : Run}
    (h : r.Ok found certs m) (hm : m ≤ (records found certs).length) {output : Option Records}
    (houtput : ∃ n, Numbered (load_existing_output output) ((records found certs).take n) ∧
      n ≤ (records found certs).length)
    {run_sailfish_cli : String → Option (List String)} {events : List Event}
    (hsame : SameTransactions found certs events) (he : .turn run_sailfish_cli ∈ events)
    (max_retries : ℤ) : (r.turn output max_retries run_sailfish_cli).Ok found certs := by
  have hfinish : r.finish.Ok found certs := ⟨⟨m, h.numbered, hm⟩, fun _ heq => nomatch heq⟩
  unfold Run.turn
  split
  · exact hfinish
  · rename_i cert digest rest htodo
    have hcert : cert ∈ certs := by
      obtain ⟨done, hbatches, -⟩ := h.todo
      have hmem : (cert, digest) ∈ batches r.input := by
        rw [hbatches, htodo]
        exact List.mem_append_right _ List.mem_cons_self
      exact h.input.subset (mem_batches.mp hmem).1
    have hprocessed : r.has_processed cert digest = true ↔ key (cert, digest) ∈ r.processed := by
      unfold Run.has_processed key
      rw [hids cert hcert, Bool.true_and, List.contains_iff_mem]
    split
    · rename_i hold
      refine ⟨houtput, ?_⟩
      rintro _ ⟨⟩
      refine ⟨m, ⟨h.input, h.numbered, h.next_index, h.processed, ?_⟩, hm⟩
      exact h.todo_rest htodo (Nat.le_refl m) ((h.processed _).mp (hprocessed.mp hold))
    · rename_i hnew
      rw [hprocessed] at hnew
      split
      · rename_i txs htxs
        exact h.add hids htodo hnew (hsame.fetch he hcert htxs)
      · dsimp only
        split
        · exact hfinish
        · refine ⟨houtput, ?_⟩
          rintro _ ⟨⟩
          exact ⟨m, ⟨h.input, h.numbered, h.next_index, h.processed, h.todo⟩, hm⟩

/-- Any history of runs on the starts of an input leaves the first batches of the input. -/
theorem run_ok (hids : ∀ cert ∈ certs, truthy cert.id = true) {events : List Event}
    (hsame : SameTransactions found certs events)
    (hfiles : ∀ input, .start input ∈ events → input <+: certs) (max_retries : ℤ) :
    (run max_retries events).Ok found certs := by
  suffices hall : ∀ pre, pre <+: events → (run max_retries pre).Ok found certs from
    hall events (List.prefix_refl _)
  intro pre hpre
  induction pre using List.reverseRecOn with
  | nil =>
    refine ⟨⟨0, fun i => ?_, Nat.zero_le _⟩, fun _ heq => nomatch heq⟩
    simp [run, load_existing_output]
  | append_singleton pre e ih =>
    have hok := ih ((List.prefix_append pre [e]).trans hpre)
    have he : e ∈ events := hpre.subset (List.mem_append_right _ List.mem_cons_self)
    obtain ⟨n, hnumbered, hn⟩ := hok.output
    rw [run_concat]
    cases e with
    | start input =>
      refine ⟨hok.output, ?_⟩
      rintro _ ⟨⟩
      exact ⟨n, start_ok hids hnumbered hn (hfiles input he), hn⟩
    | turn run_sailfish_cli =>
      unfold step
      dsimp only
      split
      · rename_i r hr
        obtain ⟨m, hrun, hm⟩ := hok.run r hr
        exact hrun.turn hids hm hok.output hsame he max_retries
      · exact hok
    | stop =>
      unfold step
      dsimp only
      split
      · rename_i r hr
        obtain ⟨m, hrun, hm⟩ := hok.run r hr
        exact ⟨⟨m, hrun.numbered, hm⟩, fun _ heq => nomatch heq⟩
      · exact hok
    | kill => exact ⟨hok.output, fun _ heq => nomatch heq⟩

/-- The last run comes to the end of its input, and writes the last snapshot. -/
def Completes (max_retries : ℤ) (events : List Event) (certs : List Cert) : Prop :=
  ∃ earlier run_sailfish_cli r, events = earlier ++ [.turn run_sailfish_cli] ∧
    (run max_retries earlier).run = some r ∧ r.todo = [] ∧ r.input = certs

/-- A run that comes to the end of its input has all the records of the input. -/
theorem Completes.numbered (hids : ∀ cert ∈ certs, truthy cert.id = true) {events : List Event}
    {max_retries : ℤ} (h : Completes max_retries events certs)
    (hsame : SameTransactions found certs events)
    (hfiles : ∀ input, .start input ∈ events → input <+: certs) :
    Numbered (load_existing_output (run max_retries events).output) (records found certs) := by
  obtain ⟨earlier, cli, r, rfl, hr, htodo, hinput⟩ := h
  have hok : (run max_retries earlier).Ok found certs := by
    apply run_ok hids ⟨hsame.field, fun a ha => hsame.cli a (List.mem_append_left _ ha)⟩
    exact fun input hi => hfiles input (List.mem_append_left _ hi)
  obtain ⟨m, hrun, hm⟩ := hok.run r hr
  have hall : m = (records found certs).length := by
    apply Nat.le_antisymm hm
    obtain ⟨done, hbatches, hdone⟩ := hrun.todo
    rw [htodo, List.append_nil, hinput] at hbatches
    -- every key of the input is one of the first `m`
    have hsubset : (distinct certs).map key ⊆ keys certs m := by
      intro k hk
      obtain ⟨p, hp, rfl⟩ := List.mem_map.mp hk
      exact hdone p (hbatches ▸ (traversal.mem_of_mem_fresh hp).1)
    have hle :=
      (List.subperm_of_subset (traversal.nodup_map_fresh [] (batches certs)) hsubset).length_le
    unfold keys at hle
    rw [List.length_map, List.length_map, List.length_take] at hle
    rw [length_records]
    unfold distinct at hle ⊢
    omega
  have hnumbered := hrun.numbered
  rw [hall, List.take_length] at hnumbered
  rw [run_concat]
  unfold step Run.turn
  rw [hr]
  dsimp only
  rw [htodo]
  exact hnumbered

theorem nodup_keys_of_records :
    ((records found certs).map fun rec => (rec.cert_id, rec.batch_digest)).Nodup := by
  unfold records distinct
  rw [List.map_map]
  exact traversal.nodup_map_fresh [] (batches certs)

theorem mem_keys_of_records {k : Option String × String} :
    k ∈ (records found certs).map (fun rec => (rec.cert_id, rec.batch_digest)) ↔
      k ∈ (batches certs).map key := by
  unfold records distinct
  rw [List.map_map]
  constructor
  · intro hk
    obtain ⟨p, hp, rfl⟩ := List.mem_map.mp hk
    exact List.mem_map_of_mem (traversal.mem_of_mem_fresh hp).1
  · intro hk
    obtain ⟨p, hp, rfl⟩ := List.mem_map.mp hk
    have hfirst : ∃ q ∈ traversal.fresh key [] (batches certs), key q = key p :=
      traversal.mem_fresh_nil hp
    obtain ⟨q, hq, heq⟩ := hfirst
    exact List.mem_map.mpr ⟨q, hq, heq⟩

theorem Numbered.unique {out_records' : Records} {l : List Record} (h : Numbered out_records l)
    (h' : Numbered out_records' l) : out_records = out_records' := by
  apply ExtTreeMap.ext_getElem?
  intro i
  rw [h i, h' i]

/-- Any history of runs, stopped or killed at any point, on files that the last input extends: its
output has the indices up to some number, each with the record of one run on the last input that
nothing stops, and it is the same output once the last run comes to the end. That output has each
batch of the input once. -/
theorem extraction_is_resumable (max_retries : ℤ) (found : String → List String)
    (certs : List Cert) (hids : ∀ cert ∈ certs, truthy cert.id = true) (events : List Event)
    (hsame : SameTransactions found certs events)
    (hfiles : ∀ input, .start input ∈ events → input <+: certs)
    (answers : List (String → Option (List String)))
    (hsame' : SameTransactions found certs (.start certs :: answers.map .turn))
    (hend : Completes max_retries (.start certs :: answers.map .turn) certs) :
    let output := load_existing_output (run max_retries events).output
    let single := load_existing_output
      (run max_retries (.start certs :: answers.map .turn)).output
    (∃ l, Numbered single l ∧ (l.map fun rec => (rec.cert_id, rec.batch_digest)).Nodup ∧
      (∀ k, k ∈ l.map (fun rec => (rec.cert_id, rec.batch_digest)) ↔
        k ∈ (batches certs).map key) ∧
      ∃ n ≤ l.length, Numbered output (l.take n)) ∧
    (∀ (i : ℕ) (rec : Record), output[i]? = some rec → single[i]? = some rec) ∧
    (Completes max_retries events certs → output = single) := by
  intro output single
  have hsingle : Numbered single (records found certs) := by
    apply hend.numbered hids hsame'
    intro input hi
    rcases List.mem_cons.mp hi with heq | hi
    · cases heq
      exact List.prefix_refl _
    · obtain ⟨_, -, heq⟩ := List.mem_map.mp hi
      cases heq
  obtain ⟨n, hnumbered, hn⟩ := (run_ok hids hsame hfiles max_retries).output
  refine ⟨⟨_, hsingle, nodup_keys_of_records, fun k => mem_keys_of_records, n, hn, hnumbered⟩,
    ?_, ?_⟩
  · intro i rec hrec
    rw [hnumbered i] at hrec
    rw [hsingle i]
    rw [List.getElem?_take] at hrec
    split at hrec
    · exact hrec
    · cases hrec
  · intro hcompletes
    exact (hcompletes.numbered hids hsame hfiles).unique hsingle

/-! ## An extraction that is stopped twice -/

/-- A certificate with the transactions of its first batch. -/
def first_cert : Cert where
  id := some "A"
  author := some "P"
  round := some 1
  payload := [(⟨"d1", by decide⟩, 0), (⟨"d2", by decide⟩, 0)]
  transactions := [("d1", .list ["aa"]), ("d2", .text "missing")]

/-- A certificate with a batch that is in the first one as well. -/
def second_cert : Cert where
  id := some "B"
  author := some "P"
  round := some 2
  payload := [(⟨"d1", by decide⟩, 0)]
  transactions := [("d1", .list ["aa"])]

def batch_txs (digest : String) : List String := if digest = "d1" then ["aa"] else ["bb"]

/-- The batch of `d2` is missing in the first run, which is killed, and the second run stops. -/
def stopped_twice : List Event :=
  [.start [first_cert], .turn fun _ => none, .turn fun _ => none, .kill,
    .start [first_cert, second_cert], .turn fun _ => none, .stop,
    .start [first_cert, second_cert]] ++
      List.replicate 4 (.turn fun digest => some (batch_txs digest))

theorem completes_of_check {max_retries : ℤ} {events : List Event}
    (hlast : ∃ run_sailfish_cli, events.getLast? = some (.turn run_sailfish_cli))
    (h : ((run max_retries events.dropLast).run.any fun r =>
      r.todo.isEmpty && r.input == certs) = true) : Completes max_retries events certs := by
  obtain ⟨cli, hlast⟩ := hlast
  rcases hr : (run max_retries events.dropLast).run with _ | r
  · rw [hr] at h
    cases h
  · rw [hr, Option.any_some, Bool.and_eq_true, List.isEmpty_iff, beq_iff_eq] at h
    exact ⟨events.dropLast, cli, r, (List.dropLast_append_getLast? _ hlast).symm, hr, h.1, h.2⟩

theorem same_batch_txs {events : List Event}
    (h : ∀ cli, .turn cli ∈ events → cli = (fun _ => none) ∨ cli = fun d => some (batch_txs d)) :
    SameTransactions batch_txs [first_cert, second_cert] events where
  field := by
    intro cert hcert digest txs hfield
    unfold extract_transactions_from_cert_transactions_field at hfield
    rw [List.mem_pair] at hcert
    by_cases hd : digest = "d1"
    · subst hd
      rcases hcert with rfl | rfl
      · exact (Option.some.inj hfield).symm
      · exact (Option.some.inj hfield).symm
    · by_cases hd' : digest = "d2"
      · subst hd'
        rcases hcert with rfl | rfl
        · cases hfield
        · cases hfield
      · replace hd := beq_false_of_ne hd
        replace hd' := beq_false_of_ne hd'
        rcases hcert with rfl | rfl
        · simp only [first_cert, List.lookup, hd, hd'] at hfield
          cases hfield
        · simp only [second_cert, List.lookup, hd] at hfield
          cases hfield
  cli := by
    intro cli hcli digest txs htxs
    rcases h cli hcli with rfl | rfl
    · cases htxs
    · exact (Option.some.inj htxs).symm

/-- The two stopped runs and a third one leave what one run leaves. -/
theorem extraction_is_resumable_stopped_twice :
    load_existing_output (run 3 stopped_twice).output = load_existing_output
      (run 3 (.start [first_cert, second_cert] ::
        (List.replicate 4 fun digest => some (batch_txs digest)).map .turn)).output := by
  obtain ⟨-, -, hsame⟩ := extraction_is_resumable 3 batch_txs [first_cert, second_cert]
    (by decide) stopped_twice (same_batch_txs (by simp [stopped_twice])) (by simp [stopped_twice])
    (List.replicate 4 fun digest => some (batch_txs digest)) (same_batch_txs (by simp))
    (completes_of_check ⟨_, rfl⟩ (by decide +kernel))
  exact hsame (completes_of_check ⟨_, rfl⟩ (by decide +kernel))

end sailfish.extractor
