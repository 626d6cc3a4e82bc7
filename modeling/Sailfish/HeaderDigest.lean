-- The law of header digests: whether the bytes of a header say what is in it. The entries
-- of the payload have 36 bytes and the parents 32, and nothing says where the parents
-- begin, so eight entries may read as nine parents.
import Mathlib
import Sailfish.SignedMessages

open Std sailfish.crypto sailfish.config

/-! ## Blocks of one size -/

namespace blocks

variable {α β : Type*} {f : α → List β} {n : ℕ} {l l' : List α}

theorem length_flatMap (h : ∀ x ∈ l, (f x).length = n) : (l.flatMap f).length = n * l.length := by
  induction l with
  | nil => simp
  | cons x l ih =>
    rw [List.forall_mem_cons] at h
    rw [List.flatMap_cons, List.length_append, h.1, ih h.2, List.length_cons, Nat.mul_succ,
      Nat.add_comm]

/-- Blocks of one size, each with one meaning, have one meaning together. -/
theorem flatMap_inj (hn : 0 < n) (hl : ∀ x ∈ l, (f x).length = n)
    (hl' : ∀ x ∈ l', (f x).length = n) (hf : ∀ x ∈ l, ∀ y ∈ l', f x = f y → x = y)
    (h : l.flatMap f = l'.flatMap f) : l = l' := by
  induction l generalizing l' with
  | nil =>
    have hlength := length_flatMap hl'
    rw [← h, List.flatMap_nil, List.length_nil] at hlength
    rcases Nat.mul_eq_zero.mp hlength.symm with h0 | h0
    · omega
    · exact (List.length_eq_zero_iff.mp h0).symm
  | cons x l ih =>
    cases l' with
    | nil =>
      have hlength := length_flatMap hl
      rw [h, List.flatMap_nil, List.length_nil, List.length_cons] at hlength
      rcases Nat.mul_eq_zero.mp hlength.symm with h0 | h0 <;> omega
    | cons y l' =>
      rw [List.forall_mem_cons] at hl hl'
      rw [List.flatMap_cons, List.flatMap_cons] at h
      obtain ⟨hhead, htail⟩ := List.append_inj h (hl.1.trans hl'.1.symm)
      rw [hf x List.mem_cons_self y List.mem_cons_self hhead]
      rw [ih hl.2 hl'.2 (fun a ha b hb => hf a (List.mem_cons_of_mem x ha) b
        (List.mem_cons_of_mem y hb)) htail]

end blocks

namespace sailfish.primary

/-! ## The bytes of a header -/

/-- The bytes of an entry of the payload. -/
def entry_bytes (entry : Digest × ℕ) : List UInt8 := as_ref entry.1 ++ to_le_bytes 4 entry.2

theorem length_entry_bytes (entry : Digest × ℕ) : (entry_bytes entry).length = 36 := by
  rw [entry_bytes, List.length_append, length_as_ref, length_to_le_bytes]

theorem entry_bytes_inj {x y : Digest × ℕ} (hx : x.2 < 2 ^ 32) (hy : y.2 < 2 ^ 32)
    (h : entry_bytes x = entry_bytes y) : x = y := by
  obtain ⟨hdigest, hworker⟩ := List.append_inj h (by rw [length_as_ref, length_as_ref])
  exact Prod.ext (as_ref_inj hdigest) (to_le_bytes_inj (by omega) (by omega) hworker)

/-- The round and the worker ids fit their types. -/
structure Header.Fits (h : Header) : Prop where
  round : h.round < 2 ^ 64
  workers : ∀ entry ∈ h.payload.toList, entry.2 < 2 ^ 32

/-- The headers agree on what the digest is about. -/
structure Header.Agrees (h h' : Header) : Prop where
  author : h.author = h'.author
  round : h.round = h'.round
  payload : h.payload = h'.payload
  parents : h.parents = h'.parents

variable {h h' : Header}

theorem Header.bytes_eq : h.bytes = as_ref h.author ++ (to_le_bytes 8 h.round ++
    (h.payload.toList.flatMap entry_bytes ++ h.parents.toList.flatMap as_ref)) := by
  simp only [Header.bytes, List.append_assoc]
  rfl

/-- The author and the round are told apart, and what comes after them. -/
theorem Header.bytes_prefix (hf : h.Fits) (hf' : h'.Fits) (heq : h.bytes = h'.bytes) :
    h.author = h'.author ∧ h.round = h'.round ∧
      h.payload.toList.flatMap entry_bytes ++ h.parents.toList.flatMap as_ref =
        h'.payload.toList.flatMap entry_bytes ++ h'.parents.toList.flatMap as_ref := by
  rw [Header.bytes_eq, Header.bytes_eq] at heq
  obtain ⟨hauthor, heq⟩ := List.append_inj heq (by rw [length_as_ref, length_as_ref])
  obtain ⟨hround, heq⟩ := List.append_inj heq (by rw [length_to_le_bytes, length_to_le_bytes])
  have hfits := hf.round
  have hfits' := hf'.round
  exact ⟨as_ref_inj hauthor, to_le_bytes_inj (by omega) (by omega) hround, heq⟩

theorem Header.length_payload_bytes :
    (h.payload.toList.flatMap entry_bytes).length = 36 * h.payload.size := by
  rw [blocks.length_flatMap fun entry _ => length_entry_bytes entry, ExtTreeMap.length_toList]

theorem Header.length_parents_bytes :
    (h.parents.toList.flatMap as_ref).length = 32 * h.parents.size := by
  rw [blocks.length_flatMap fun digest _ => length_as_ref digest, ExtTreeSet.length_toList]

/-- Eight entries of the payload have as many bytes as nine parents, and no fewer do. -/
theorem Header.payload_size_mod (hf : h.Fits) (hf' : h'.Fits) (heq : h.bytes = h'.bytes) :
    9 * h.payload.size + 8 * h.parents.size = 9 * h'.payload.size + 8 * h'.parents.size ∧
      h.payload.size % 8 = h'.payload.size % 8 := by
  have hlength := congrArg List.length (Header.bytes_prefix hf hf' heq).2.2
  rw [List.length_append, List.length_append, Header.length_payload_bytes,
    Header.length_payload_bytes, Header.length_parents_bytes, Header.length_parents_bytes] at hlength
  omega

/-- Headers with the same bytes and as many entries in their payloads are the same. -/
theorem Header.agrees_of_bytes (hf : h.Fits) (hf' : h'.Fits) (heq : h.bytes = h'.bytes)
    (hsize : h.payload.size = h'.payload.size) : h.Agrees h' := by
  obtain ⟨hauthor, hround, heq⟩ := Header.bytes_prefix hf hf' heq
  obtain ⟨hpayload, hparents⟩ := List.append_inj heq (by
    rw [Header.length_payload_bytes, Header.length_payload_bytes, hsize])
  refine ⟨hauthor, hround, ?_, ?_⟩
  · refine ExtTreeMap.toList_inj.mp (blocks.flatMap_inj (by omega : 0 < 36) ?_ ?_ ?_ hpayload)
    · exact fun entry _ => length_entry_bytes entry
    · exact fun entry _ => length_entry_bytes entry
    · exact fun x hx y hy => entry_bytes_inj (hf.workers x hx) (hf'.workers y hy)
  · refine ExtTreeSet.toList_inj.mp (blocks.flatMap_inj (by omega : 0 < 32) ?_ ?_ ?_ hparents)
    · exact fun digest _ => length_as_ref digest
    · exact fun digest _ => length_as_ref digest
    · exact fun _ _ _ _ => as_ref_inj

/-- For every two headers, with payloads and parents of any size: the bytes that are hashed tell
them apart if and only if headers with the same bytes have as many entries in their payloads. -/
theorem header_bytes_inj_iff (h h' : Header) (hf : h.Fits) (hf' : h'.Fits) :
    (h.bytes = h'.bytes → h.Agrees h') ↔ (h.bytes = h'.bytes → h.payload.size = h'.payload.size) := by
  constructor
  · intro hall heq
    rw [(hall heq).payload]
  · exact fun hsize heq => Header.agrees_of_bytes hf hf' heq (hsize heq)

section

attribute [local instance] crypto.sample

/-- The digest with the bytes. -/
def digest_of (bytes : List UInt8) : Digest :=
  BitVec.ofNat 256 (bytes.foldl (fun n byte => n * 256 + byte.toNat) 0)

/-- Eight batches of worker 0. Each byte of the digest of batch `i` is `i`. -/
def eight_batches : List (Digest × ℕ) :=
  (List.range 8).map fun i => (digest_of (List.replicate 32 (UInt8.ofNat i)), 0)

/-- The same bytes, read as nine digests. -/
def nine_digests : List Digest :=
  (List.range 9).map fun j =>
    digest_of (((eight_batches.flatMap entry_bytes).drop (32 * j)).take 32)

/-- A header of authority 2 with eight batches, and the genesis certificates as parents. -/
def with_batches : Header :=
  let parents := ExtTreeSet.ofList ((Certificate.genesis .four).map Certificate.digest)
  let payload := ExtTreeMap.ofList eight_batches
  { Header.default with author := 2, round := 1, payload, parents }.signed

/-- The header without batches, and with nine more parents instead. -/
def with_digests : Header :=
  let parents := ExtTreeSet.ofList
    (nine_digests ++ (Certificate.genesis .four).map Certificate.digest)
  { with_batches with payload := ∅, parents }

/-- The header as another authority makes it. -/
def with_another_author : Header := { with_batches with author := 3 }

theorem header_bytes_inj_iff_proposals : with_batches.bytes ≠ with_another_author.bytes := by
  intro heq
  have hagrees := (header_bytes_inj_iff with_batches with_another_author
    ⟨by decide +kernel, by decide +kernel⟩ ⟨by decide +kernel, by decide +kernel⟩).mpr
    (fun _ => rfl) heq
  exact absurd hagrees.author (by decide)

/-- The headers have one id and one signature, and both are in order. -/
theorem batches_read_as_parents :
    with_batches.bytes = with_digests.bytes ∧ with_batches.payload ≠ with_digests.payload ∧
      with_batches.parents ≠ with_digests.parents ∧ with_batches.id = with_digests.id ∧
      with_batches.verify .four = .ok () ∧ with_digests.verify .four = .ok () := by
  refine ⟨by decide +kernel, fun h => ?_, fun h => ?_, rfl, by decide +kernel, by decide +kernel⟩
  · have hsize := congrArg ExtTreeMap.size h
    revert hsize
    decide +kernel
  · have hsize := congrArg ExtTreeSet.size h
    revert hsize
    decide +kernel

end

end sailfish.primary
