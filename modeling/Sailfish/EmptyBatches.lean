-- The law of extracted batches: when the extractor emits the record of a batch that is in a
-- database, and goes on. It takes an empty answer of the command for a batch that is
-- not there yet, and an empty transaction gets no "0x".
import Mathlib
import Sailfish.BatchCli
import Sailfish.Extractor
import Sailfish.Lib.Splits

open Std splits

namespace sailfish.extractor

open batch_cli (Crates Db Stored)
open state_transition (truthy)
open worker (Batch Transaction)

/-! ## The text of a transaction -/

/-- The transaction in hex, with a prefix. -/
def prefixed (crates : Crates) (tx : Transaction) : String := "0x" ++ crates.hex_encode tx

/-- The text is the transaction in hex, with a prefix or, where there is a digit, without one. -/
def Says (crates : Crates) (text : String) (tx : Transaction) : Prop :=
  strip text = prefixed crates tx ∨ strip text = crates.hex_encode tx ∧ tx ≠ []

variable {crates : Crates} {tx : Transaction}

theorem encode_eq_empty (hhex : crates.LawfulHex) : crates.hex_encode tx = "" ↔ tx = [] := by
  constructor
  · intro h
    have hlength := hhex.length_encode tx
    rw [h] at hlength
    exact List.length_eq_zero_iff.mp (by simpa using hlength.symm)
  · rintro rfl
    exact String.toList_eq_nil_iff.mp (List.length_eq_zero_iff.mp (hhex.length_encode []))

/-- A hex text has no `x`, so no prefix. -/
theorem not_has_prefix (hhex : crates.LawfulHex) {c x : Char} (hx : x ∉ batch_cli.hex_digits) :
    [c, x].isPrefixOf (crates.hex_encode tx).toList = false := by
  rw [Bool.eq_false_iff]
  intro h
  obtain ⟨rest, heq⟩ := List.isPrefixOf_iff_prefix.mp h
  have hmem : x ∈ (crates.hex_encode tx).toList := by
    rw [← heq]
    simp
  exact hx (hhex.digits_of_encode tx x hmem)

theorem strip_encode (hhex : crates.LawfulHex) (tx : Transaction) :
    strip (crates.hex_encode tx) = crates.hex_encode tx := by
  have hspace : ∀ c ∈ (crates.hex_encode tx).toList, is_space c = false := by
    have hdigits : ∀ c ∈ batch_cli.hex_digits, is_space c = false := by
      unfold batch_cli.hex_digits
      simp [is_space]
    exact fun c hc => hdigits c (hhex.digits_of_encode tx c hc)
  have hdrop : ∀ l : List Char, (∀ c ∈ l, is_space c = false) → l.dropWhile is_space = l := by
    intro l hl
    cases l with
    | nil => rfl
    | cons c l => rw [List.dropWhile_cons_of_neg (by simp [hl c])]
  unfold strip
  rw [hdrop _ hspace, hdrop _ fun c hc => hspace c (List.mem_reverse.mp hc), List.reverse_reverse,
    String.ofList_toList]

theorem normalize_tx_hex_eq_iff (hhex : crates.LawfulHex) {text : String} :
    normalize_tx_hex text = prefixed crates tx ↔ Says crates text tx := by
  unfold normalize_tx_hex Says
  dsimp only
  generalize strip text = t
  have hne : prefixed crates tx ≠ "" := by
    intro h
    have hlength := congrArg String.length h
    simp [prefixed] at hlength
  by_cases hempty : t = ""
  · subst hempty
    rw [if_pos rfl, eq_comm (a := "") (b := crates.hex_encode tx), encode_eq_empty hhex]
    simp [hne.symm]
  · rw [if_neg hempty]
    split
    · rename_i hprefix
      have hnot : t ≠ crates.hex_encode tx := by
        rintro rfl
        rw [show "0x".toList = ['0', 'x'] from rfl, show "0X".toList = ['0', 'X'] from rfl,
          not_has_prefix hhex (by decide), not_has_prefix hhex (by decide)] at hprefix
        cases hprefix
      simp [hnot]
    · rename_i hprefix
      have hnot : t ≠ prefixed crates tx := by
        rintro rfl
        apply hprefix
        simp [prefixed]
      have htx : t = crates.hex_encode tx → tx ≠ [] := fun h hnil =>
        hempty (h.trans ((encode_eq_empty hhex).mpr hnil))
      have hcancel : "0x" ++ t = prefixed crates tx ↔ t = crates.hex_encode tx := by
        unfold prefixed
        constructor
        · intro h
          have hlist := congrArg String.toList h
          simp only [String.toList_append] at hlist
          exact String.toList_inj.mp (List.append_cancel_left hlist)
        · rintro rfl
          rfl
      rw [hcancel]
      constructor
      · exact fun h => Or.inr ⟨h, htx h⟩
      · rintro (h | ⟨h, -⟩)
        · exact absurd h hnot
        · exact h

/-- The command prints a transaction without a prefix. -/
theorem says_encode (hhex : crates.LawfulHex) :
    Says crates (crates.hex_encode tx) tx ↔ tx ≠ [] := by
  unfold Says
  rw [strip_encode hhex]
  have hnot : crates.hex_encode tx ≠ prefixed crates tx := by
    intro h
    have hlength := congrArg String.length h
    simp [prefixed] at hlength
  simp [hnot]

/-! ## The run on a file -/

section

variable (crates : Crates) (dbs : List Db)

/-- `run_sailfish_cli`, for calls that end in time. A text of the command is no JSON. -/
def run_sailfish_cli (digest : String) : Option (List String) :=
  match batch_cli.print_batch_from_dbs crates dbs digest with
  | .json _ txns => some txns
  | .text _ => none

/-- The extractor on a file, after `k` turns of its loops. -/
def extraction (max_retries : ℤ) (output : Option Records) (certs : List Cert) : ℕ → Extractor
  | 0 => step max_retries { output, run := none } (.start certs)
  | k + 1 => step max_retries (extraction max_retries output certs k)
      (.turn (run_sailfish_cli crates dbs))

/-- In some turn, the extractor comes to the batch, emits a record for it with these transactions,
and goes on to the batches after it. -/
def Emits (max_retries : ℤ) (output : Option Records) (certs : List Cert) (cert : Cert)
    (digest : Digest) (rest : List (Cert × Digest)) (txs : List String) : Prop :=
  ∃ k r r', (extraction crates dbs max_retries output certs k).run = some r ∧
    r.todo = (cert, digest) :: rest ∧
    extraction crates dbs max_retries output certs (k + 1) =
      { output := some r'.out_records, run := some r' } ∧ r'.todo = rest ∧
    ∃ rec, r'.out_records[r.next_index]? = some rec ∧ rec.cert_id = cert.id ∧
      rec.batch_digest = digest ∧ rec.transactions = txs

end

/-- The batch has a record: in the output at the start, or for one of the batches done. -/
def Known (output : Option Records) (certs : List Cert) (done : List (Cert × Digest))
    (k : Option String × String) : Prop :=
  k ∈ (start certs output).processed ∨ ∃ p ∈ done, truthy p.1.id = true ∧ key p = k

/-- The loops skip the batch. -/
def Skipped (output : Option Records) (certs : List Cert) (done : List (Cert × Digest))
    (p : Cert × Digest) : Prop :=
  truthy p.1.id = true ∧ Known output certs done (key p)

/-- The loops get past the batch: they skip it, or find a list for it. -/
def Passes (run_sailfish_cli : String → Option (List String)) (output : Option Records)
    (certs : List Cert) (done : List (Cert × Digest)) (p : Cert × Digest) : Prop :=
  Skipped output certs done p ∨ (fetch run_sailfish_cli p.1 p.2).isSome = true

/-- The list in the certificate says the transactions of the batch. Without one, the batch has a
transaction, and none of its transactions is empty. -/
def Extractable (crates : Crates) (cert : Cert) (digest : Digest) (txs : Batch) : Prop :=
  match extract_transactions_from_cert_transactions_field cert.transactions digest with
  | some texts => List.Forall₂ (Says crates) texts txs
  | none => txs ≠ [] ∧ [] ∉ txs

variable {crates : Crates} {dbs : List Db} {max_retries : ℤ} {output : Option Records}
  {certs : List Cert} {done rest : List (Cert × Digest)} {cert : Cert} {digest : Digest}
  {cli : String → Option (List String)} {txs : Batch}

theorem map_normalize_tx_hex_eq_iff (hhex : crates.LawfulHex) {texts : List String} :
    texts.map normalize_tx_hex = txs.map (prefixed crates) ↔
      List.Forall₂ (Says crates) texts txs := by
  rw [← List.forall₂_eq_eq_eq, List.forall₂_map_left_iff, List.forall₂_map_right_iff]
  simp only [normalize_tx_hex_eq_iff hhex]

/-- A stored batch is extractable exactly when its transactions are found, and written as they are.
-/
theorem extractable_iff (hhex : crates.LawfulHex) (h : Stored crates dbs digest txs) :
    Extractable crates cert digest txs ↔
      ∃ texts, fetch (run_sailfish_cli crates dbs) cert digest = some texts ∧
        texts.map normalize_tx_hex = txs.map (prefixed crates) := by
  obtain ⟨text, hprint⟩ := batch_cli.print_of_stored h
  have hcli : run_sailfish_cli crates dbs digest = some (txs.map crates.hex_encode) := by
    unfold run_sailfish_cli
    rw [hprint]
  have hsays : List.Forall₂ (Says crates) (txs.map crates.hex_encode) txs ↔ [] ∉ txs := by
    rw [List.forall₂_map_left_iff, List.forall₂_same]
    simp only [says_encode hhex]
    exact ⟨fun h hnil => h [] hnil rfl, fun h tx htx hnil => h (hnil ▸ htx)⟩
  unfold Extractable fetch
  rcases extract_transactions_from_cert_transactions_field cert.transactions digest with
    _ | texts
  · dsimp only
    rw [hcli]
    cases txs with
    | nil => simp
    | cons tx txs =>
      have hmap : ((tx :: txs).map crates.hex_encode).map normalize_tx_hex =
          (tx :: txs).map (prefixed crates) ↔ [] ∉ tx :: txs :=
        (map_normalize_tx_hex_eq_iff hhex).trans hsays
      rw [List.map_cons] at hmap ⊢
      simp only [Option.some.injEq, exists_eq_left', hmap]
      simp
  · simp [map_normalize_tx_hex_eq_iff hhex]

/-! ## One turn -/

/-- The run came past the batches done. -/
structure Reached (cli : String → Option (List String)) (output : Option Records)
    (certs : List Cert) (done : List (Cert × Digest)) (r : Run) : Prop where
  todo : batches certs = done ++ r.todo
  passes : Each (Passes cli output certs) done
  processed : ∀ k, k ∈ r.processed ↔ Known output certs done k

theorem known_concat {p : Cert × Digest} {k : Option String × String} :
    Known output certs (done ++ [p]) k ↔
      Known output certs done k ∨ truthy p.1.id = true ∧ key p = k := by
  unfold Known
  simp only [List.mem_append, List.mem_singleton, or_and_right, exists_or, exists_eq_left, or_assoc]

theorem reached_start : Reached cli output certs [] (start certs output) where
  todo := rfl
  passes := each_nil
  processed := by simp [Known]

theorem Reached.has_processed_iff {r : Run} (h : Reached cli output certs done r) :
    r.has_processed cert digest = true ↔ Skipped output certs done (cert, digest) := by
  unfold Run.has_processed Skipped
  rw [Bool.and_eq_true, List.contains_iff_mem, h.processed]
  rfl

/-- The turn at a batch that the loops get past. -/
theorem Reached.turn_passes {r : Run} (h : Reached cli output certs done r)
    (htodo : r.todo = (cert, digest) :: rest)
    (hpasses : Passes cli output certs done (cert, digest)) (max_retries : ℤ)
    (before : Option Records) :
    ∃ r', (r.turn before max_retries cli).run = some r' ∧ r'.todo = rest ∧
      Reached cli output certs (done ++ [(cert, digest)]) r' := by
  have hsplit : batches certs = (done ++ [(cert, digest)]) ++ rest := by
    rw [h.todo, htodo, List.append_assoc]
    rfl
  unfold Run.turn
  rw [htodo]
  dsimp only
  by_cases hskipped : r.has_processed cert digest = true
  · rw [if_pos hskipped]
    refine ⟨_, rfl, rfl, hsplit, h.passes.concat hpasses, fun k => ?_⟩
    have hknown := h.has_processed_iff.mp hskipped
    rw [known_concat, ← h.processed]
    refine ⟨Or.inl, fun hk => hk.elim id ?_⟩
    rintro ⟨-, rfl⟩
    exact (h.processed _).mpr hknown.2
  · rw [if_neg hskipped]
    have hsome := hpasses.resolve_left fun hs => hskipped (h.has_processed_iff.mpr hs)
    obtain ⟨texts, htexts⟩ := Option.isSome_iff_exists.mp hsome
    rw [htexts]
    refine ⟨_, rfl, rfl, hsplit, h.passes.concat hpasses, fun k => ?_⟩
    rw [known_concat, ← h.processed]
    dsimp only
    split
    · rename_i hid
      simp [hid, key, or_comm, eq_comm]
    · rename_i hid
      simp [hid]

/-- At a batch that the loops do not get past, they stay. -/
theorem Reached.turn_stays {r r' : Run} (h : Reached cli output certs done r)
    (htodo : r.todo = (cert, digest) :: rest)
    (hpasses : ¬ Passes cli output certs done (cert, digest)) {before : Option Records}
    (hr' : (r.turn before max_retries cli).run = some r') : Reached cli output certs done r' := by
  unfold Passes at hpasses
  rw [not_or, ← h.has_processed_iff] at hpasses
  unfold Run.turn at hr'
  rw [htodo] at hr'
  dsimp only at hr'
  rw [if_neg hpasses.1, Option.not_isSome_iff_eq_none.mp hpasses.2] at hr'
  dsimp only at hr'
  split at hr'
  · cases hr'
  · cases hr'
    exact ⟨htodo ▸ h.todo, h.passes, h.processed⟩

/-- At a batch that is not skipped, with a list for it. -/
theorem Reached.turn_adds {r : Run} (h : Reached cli output certs done r)
    (htodo : r.todo = (cert, digest) :: rest)
    (hnew : ¬ Skipped output certs done (cert, digest)) {texts : List String}
    (hfetch : fetch cli cert digest = some texts) (before : Option Records) :
    r.turn before max_retries cli = r.add cert digest texts rest := by
  rw [← h.has_processed_iff] at hnew
  unfold Run.turn
  rw [htodo]
  dsimp only
  rw [if_neg hnew, hfetch]

/-! ## The turns on a file -/

theorem extraction_succ {k : ℕ} {r : Run}
    (hr : (extraction crates dbs max_retries output certs k).run = some r) :
    extraction crates dbs max_retries output certs (k + 1) =
      r.turn (extraction crates dbs max_retries output certs k).output max_retries
        (run_sailfish_cli crates dbs) := by
  rw [extraction, step, hr]

theorem reached_of_extraction {k : ℕ} {r : Run}
    (hr : (extraction crates dbs max_retries output certs k).run = some r) :
    ∃ done, Reached (run_sailfish_cli crates dbs) output certs done r := by
  induction k generalizing r with
  | zero =>
    cases hr
    exact ⟨[], reached_start⟩
  | succ k ih =>
    rcases hbefore : (extraction crates dbs max_retries output certs k).run with _ | before
    · rw [extraction, step, hbefore] at hr
      cases hbefore.symm.trans hr
    · obtain ⟨done, h⟩ := ih hbefore
      rw [extraction_succ hbefore] at hr
      rcases htodo : before.todo with _ | ⟨⟨cert, digest⟩, rest⟩
      · rw [Run.turn, htodo] at hr
        cases hr
      · by_cases hpasses : Passes (run_sailfish_cli crates dbs) output certs done (cert, digest)
        · obtain ⟨r', hr', -, h'⟩ := h.turn_passes htodo hpasses max_retries
            (extraction crates dbs max_retries output certs k).output
          rw [hr'] at hr
          cases hr
          exact ⟨_, h'⟩
        · exact ⟨done, h.turn_stays htodo hpasses hr⟩

/-- The loops come to a batch when they get past all the batches before it. -/
theorem extraction_of_passes (hfile : batches certs = done ++ rest)
    (hpasses : Each (Passes (run_sailfish_cli crates dbs) output certs) done) (max_retries : ℤ) :
    ∃ r, (extraction crates dbs max_retries output certs done.length).run = some r ∧
      r.todo = rest ∧ Reached (run_sailfish_cli crates dbs) output certs done r := by
  induction done using List.reverseRecOn generalizing rest with
  | nil => exact ⟨_, rfl, hfile, reached_start⟩
  | append_singleton done p ih =>
    rw [List.append_assoc, List.singleton_append] at hfile
    obtain ⟨r, hr, htodo, h⟩ := ih hfile hpasses.of_append
    rw [List.length_append, List.length_singleton, extraction_succ hr]
    exact h.turn_passes htodo hpasses.last max_retries _

/-- A batch that is not skipped is emitted when the loops get past the batches before it, and its
transactions are found. -/
theorem emits_iff {texts : List String} (hfile : batches certs = done ++ (cert, digest) :: rest)
    (hnew : ¬ Skipped output certs done (cert, digest)) :
    Emits crates dbs max_retries output certs cert digest rest texts ↔
      Each (Passes (run_sailfish_cli crates dbs) output certs) done ∧
        ∃ found, fetch (run_sailfish_cli crates dbs) cert digest = some found ∧
          found.map normalize_tx_hex = texts := by
  constructor
  · rintro ⟨k, r, r', hr, htodo, hnext, hrest, rec, hrec, -, -, htexts⟩
    obtain ⟨done', h⟩ := reached_of_extraction hr
    have hsame : done' = done := by
      have hsplit := h.todo
      rw [htodo, hfile] at hsplit
      exact (List.append_cancel_right hsplit).symm
    subst hsame
    rw [extraction_succ hr] at hnext
    have hpasses : Passes (run_sailfish_cli crates dbs) output certs done' (cert, digest) := by
      by_contra hstays
      have hr' := h.turn_stays htodo hstays (congrArg Extractor.run hnext)
      have hsplit := hr'.todo
      rw [hrest, hfile] at hsplit
      have hlength := congrArg List.length hsplit
      simp at hlength
    obtain ⟨found, hfound⟩ := Option.isSome_iff_exists.mp (hpasses.resolve_left hnew)
    refine ⟨h.passes, found, hfound, ?_⟩
    rw [h.turn_adds htodo hnew hfound] at hnext
    obtain rfl := Option.some.inj (Extractor.mk.inj hnext).2
    have hinserted : some (record cert digest found) = some rec :=
      ExtTreeMap.getElem?_insert_self.symm.trans hrec
    obtain rfl := Option.some.inj hinserted
    exact htexts
  · rintro ⟨hpasses, found, hfound, htexts⟩
    obtain ⟨r, hr, htodo, h⟩ := extraction_of_passes hfile hpasses max_retries
    have hnext := (extraction_succ hr).trans (h.turn_adds htodo hnew hfound _)
    refine ⟨done.length, r, (r.add cert digest found rest).run.get rfl, hr, htodo, hnext, rfl,
      record cert digest found, ?_, rfl, rfl, htexts⟩
    exact ExtTreeMap.getElem?_insert_self

/-- For every file, every output that is there at the start and every batch of the file that is
not in the output yet and is in one of the databases: the extractor emits the record of the batch,
with exactly its transactions in order, and goes on, if and only if the loops get past the batches
before it and the batch is extractable. -/
theorem stored_batch_is_extracted_iff (crates : Crates) (hhex : crates.LawfulHex) (dbs : List Db)
    (max_retries : ℤ) (output : Option Records) (certs : List Cert)
    (done rest : List (Cert × Digest)) (cert : Cert) (digest : Digest) (txs : Batch)
    (hfile : batches certs = done ++ (cert, digest) :: rest)
    (hnew : ¬ Skipped output certs done (cert, digest)) (hstored : Stored crates dbs digest txs) :
    Emits crates dbs max_retries output certs cert digest rest (txs.map (prefixed crates)) ↔
      Each (Passes (run_sailfish_cli crates dbs) output certs) done ∧
        Extractable crates cert digest txs := by
  rw [emits_iff hfile hnew, extractable_iff hhex hstored]

/-! ## An empty batch -/

/-- The text of the digest of 32 zeros. -/
def zero_digest : Digest := ⟨"AAAAAAAAAAAAAAAAAAAAAAAAAAAAAAAAAAAAAAAAAAA=", by decide +kernel⟩

/-- The crates on the texts and the values that occur here: the digest of 32 zeros, the empty
batch and the batch of one transaction of one byte. -/
def sample_crates : Crates where
  hex_encode := batch_cli.hex.encode
  hex_decode := batch_cli.hex.decode
  decode_base64 := fun text => if text = zero_digest then some (List.replicate 32 0) else none
  deserialize := fun value =>
    if value = List.replicate 12 0 then some (.Batch [])
    else if value = [0, 0, 0, 0, 1, 0, 0, 0, 0, 0, 0, 0, 1, 0, 0, 0, 0, 0, 0, 0, 42] then
      some (.Batch [[42]])
    else none

/-- A database with one value, under the digest of 32 zeros. -/
def one_value (value : List UInt8) : Db :=
  fun key_bytes => if key_bytes = List.replicate 32 0 then some value else none

/-- A certificate with one batch, and what it says about it. -/
def cert_of (field : Field) : Cert where
  id := some "A"
  author := some "P"
  round := some 1
  payload := [(zero_digest, 0)]
  transactions := [(zero_digest, field)]

theorem stored_one_value {value : List UInt8} {txs : Batch}
    (h : sample_crates.deserialize value = some (.Batch txs)) :
    Stored sample_crates [one_value value] zero_digest txs := by
  have hhas : ∀ txs', batch_cli.Has sample_crates (one_value value) (List.replicate 32 0) txs' ↔
      txs' = txs := by
    intro txs'
    unfold batch_cli.Has one_value
    simp [h, eq_comm]
  refine ⟨List.replicate 32 0, by decide +kernel, ⟨_, List.mem_cons_self, (hhas txs).mpr rfl⟩, ?_⟩
  intro db hdb txs' htxs'
  rw [List.mem_singleton.mp hdb, hhas] at htxs'
  exact htxs'

theorem batches_cert_of (field : Field) :
    batches [cert_of field] = [] ++ (cert_of field, zero_digest) :: [] := rfl

theorem not_skipped_cert_of (field : Field) :
    ¬ Skipped none [cert_of field] [] (cert_of field, zero_digest) := by
  rintro ⟨-, h | ⟨_, h, -⟩⟩
  · cases h
  · cases h

theorem stored_batch_is_extracted_iff_missing :
    Emits sample_crates
      [one_value [0, 0, 0, 0, 1, 0, 0, 0, 0, 0, 0, 0, 1, 0, 0, 0, 0, 0, 0, 0, 42]] 120 none
      [cert_of (.text "missing")] (cert_of (.text "missing")) zero_digest [] ["0x2a"] := by
  have hextractable : Extractable sample_crates (cert_of (.text "missing")) zero_digest [[42]] := by
    have hnone : extract_transactions_from_cert_transactions_field
        (cert_of (.text "missing")).transactions zero_digest = none := by decide +kernel
    rw [Extractable, hnone]
    decide
  exact (stored_batch_is_extracted_iff sample_crates (batch_cli.hex.lawful _ _) _ 120 none
    [cert_of (.text "missing")] [] [] (cert_of (.text "missing")) zero_digest [[42]]
    (batches_cert_of _) (not_skipped_cert_of _) (stored_one_value rfl)).mpr ⟨each_nil, hextractable⟩

/-- The empty batch is in the database, but the extractor exits after 120 attempts without a record
for it. It has one at once on a node whose certificate has the empty list. -/
theorem empty_batch_is_not_extracted :
    Stored sample_crates [one_value (List.replicate 12 0)] zero_digest [] ∧
    (∀ max_retries, ¬ Emits sample_crates [one_value (List.replicate 12 0)] max_retries none
      [cert_of (.text "missing")] (cert_of (.text "missing")) zero_digest [] []) ∧
    (extraction sample_crates [one_value (List.replicate 12 0)] 120 none
      [cert_of (.text "missing")] 120).run.isNone = true ∧
    ∀ max_retries, Emits sample_crates [one_value (List.replicate 12 0)] max_retries none
      [cert_of (.list [])] (cert_of (.list [])) zero_digest [] [] := by
  refine ⟨stored_one_value rfl, fun max_retries h => ?_, by decide +kernel, fun max_retries => ?_⟩
  · obtain ⟨-, found, hfound, -⟩ := (emits_iff (batches_cert_of _) (not_skipped_cert_of _)).mp h
    have hnone : fetch (run_sailfish_cli sample_crates [one_value (List.replicate 12 0)])
        (cert_of (.text "missing")) zero_digest = none := by decide +kernel
    rw [hnone] at hfound
    cases hfound
  · exact (emits_iff (batches_cert_of _) (not_skipped_cert_of _)).mpr ⟨each_nil, [], rfl, rfl⟩

end sailfish.extractor
