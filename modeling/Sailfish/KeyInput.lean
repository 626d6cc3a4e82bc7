-- The law of the digests on the command line of the batch CLI (`decode_key_input`): the hex text
-- and the base64 text of a digest name one key. Hex is tried first, but the base64 text of 32 bytes
-- ends in padding, which is no hex digit.
import Mathlib
import Sailfish.BatchCli
import Sailfish.Lib.Base64
import Sailfish.SignedMessages

open sailfish.crypto sailfish.primary

namespace sailfish.batch_cli

section

variable {crates : Crates} {encode : List UInt8 → String}

/-- What the documentation of the crate `base64` says: the text of bytes that are not in threes ends
in padding, and is decoded to the bytes. -/
structure LawfulBase64 (encode : List UInt8 → String)
    (decode : String → Option (List UInt8)) : Prop where
  decode_encode : ∀ bytes, decode (encode bytes) = some bytes
  pad_mem_encode : ∀ bytes : List UInt8, bytes.length % 3 ≠ 0 → '=' ∈ (encode bytes).toList

/-- A base64 text with padding is no hex text. -/
theorem hex_decode_encode_base64 (hhex : crates.LawfulHex)
    (hbase64 : LawfulBase64 encode crates.decode_base64) {bytes : List UInt8}
    (h : bytes.length % 3 ≠ 0) : crates.hex_decode (encode bytes) = none := by
  rcases hdecode : crates.hex_decode (encode bytes) with _ | key_bytes
  · rfl
  · have hpad := hhex.digits_of_decode _ _ hdecode _ (hbase64.pad_mem_encode bytes h)
    exact absurd hpad (by decide)

/-- Both texts of a digest are decoded to its bytes, so both find the same batch, and the base64
text is no hex text. -/
theorem digest_in_both_notations (crates : Crates) (encode : List UInt8 → String)
    (hhex : crates.LawfulHex) (hbase64 : LawfulBase64 encode crates.decode_base64) (d : Digest) :
    decode_key_input crates (crates.hex_encode (as_ref d)) = some (as_ref d) ∧
    decode_key_input crates (encode (as_ref d)) = some (as_ref d) ∧
    crates.hex_decode (encode (as_ref d)) = none ∧
    ∀ dbs, print_batch_from_dbs crates dbs (crates.hex_encode (as_ref d)) =
      print_batch_from_dbs crates dbs (encode (as_ref d)) := by
  have hnone : crates.hex_decode (encode (as_ref d)) = none :=
    hex_decode_encode_base64 hhex hbase64 (by rw [length_as_ref]; decide)
  have hkey : decode_key_input crates (crates.hex_encode (as_ref d)) = some (as_ref d) := by
    unfold decode_key_input
    rw [hhex.decode_encode]
  have hkey' : decode_key_input crates (encode (as_ref d)) = some (as_ref d) := by
    unfold decode_key_input
    rw [hnone]
    exact hbase64.decode_encode (as_ref d)
  refine ⟨hkey, hkey', hnone, ?_⟩
  intro dbs
  unfold print_batch_from_dbs
  rw [hkey, hkey']

end

def standard_crates : Crates where
  hex_encode := hex.encode
  hex_decode := hex.decode
  decode_base64 := base64.decode
  deserialize := fun _ => none

theorem digest_in_both_notations_standard :
    decode_key_input standard_crates (base64.encode (as_ref 7)) =
      decode_key_input standard_crates (hex.encode (as_ref 7)) := by
  obtain ⟨hhex, hbase64, -, -⟩ := digest_in_both_notations standard_crates base64.encode
    (hex.lawful _ _) ⟨base64.decode_encode, fun _ h => base64.pad_mem_encode h⟩ 7
  exact hbase64.trans hhex.symm

end sailfish.batch_cli
