-- Base64 with the standard alphabet and padding: each three bytes are four digits, and
-- the digits of a last group of one or two bytes are padded to four.
import Mathlib

namespace base64

def alphabet : List Char :=
  "ABCDEFGHIJKLMNOPQRSTUVWXYZabcdefghijklmnopqrstuvwxyz0123456789+/".toList

def digit (n : ℕ) : Char := alphabet.getD n 'A'

def value (c : Char) : Option ℕ := alphabet.idxOf? c

def encode_chars : List UInt8 → List Char
  | [] => []
  | [a] => [digit (a.toNat / 4), digit (a.toNat % 4 * 16), '=', '=']
  | [a, b] =>
    [digit (a.toNat / 4), digit (a.toNat % 4 * 16 + b.toNat / 16), digit (b.toNat % 16 * 4), '=']
  | a :: b :: c :: rest =>
    digit (a.toNat / 4) :: digit (a.toNat % 4 * 16 + b.toNat / 16) ::
      digit (b.toNat % 16 * 4 + c.toNat / 64) :: digit (c.toNat % 64) :: encode_chars rest

def encode (bytes : List UInt8) : String := .ofList (encode_chars bytes)

/-- Padding ends the text, and the bits that the digits before it do not need are zero. -/
def decode_chars : List Char → Option (List UInt8)
  | [] => some []
  | c₀ :: c₁ :: c₂ :: c₃ :: rest => do
    let n₀ ← value c₀
    let n₁ ← value c₁
    let a := UInt8.ofNat (4 * n₀ + n₁ / 16)
    if c₂ = '=' then
      if c₃ = '=' ∧ rest = [] ∧ n₁ % 16 = 0 then some [a] else none
    else
      let n₂ ← value c₂
      let b := UInt8.ofNat (n₁ % 16 * 16 + n₂ / 4)
      if c₃ = '=' then
        if rest = [] ∧ n₂ % 4 = 0 then some [a, b] else none
      else
        let n₃ ← value c₃
        return a :: b :: .ofNat (n₂ % 4 * 64 + n₃) :: (← decode_chars rest)
  | _ => none

def decode (text : String) : Option (List UInt8) := decode_chars text.toList

theorem value_digit {n : ℕ} (h : n < 64) : value (digit n) = some n := by
  have hnodup : alphabet.Nodup := by decide
  have hlt : n < alphabet.length := h
  unfold value digit
  rw [List.getD_eq_getElem _ _ hlt, List.idxOf?_eq_some_iff]
  refine ⟨hlt, rfl, ?_⟩
  intro j hj heq
  exact hj.ne (hnodup.getElem_inj_iff.mp heq)

theorem digit_ne_pad {n : ℕ} (h : n < 64) : digit n ≠ '=' := by
  have hlt : n < alphabet.length := h
  have hpad : '=' ∉ alphabet := by decide
  unfold digit
  rw [List.getD_eq_getElem _ _ hlt]
  exact fun heq => hpad (heq ▸ List.getElem_mem hlt)

theorem ofNat_toNat_of_eq {a : UInt8} {n : ℕ} (h : n = a.toNat) : UInt8.ofNat n = a := by
  rw [h, UInt8.ofNat_toNat]

theorem decode_chars_encode_chars (bytes : List UInt8) :
    decode_chars (encode_chars bytes) = some bytes := by
  fun_induction encode_chars bytes with
  | case1 => rfl
  | case2 a =>
    have ha := a.toNat_lt
    rw [decode_chars, value_digit (by omega), value_digit (by omega)]
    simp only [Option.bind_eq_bind, Option.bind_some]
    rw [if_pos trivial, if_pos ⟨trivial, trivial, by omega⟩, ofNat_toNat_of_eq (a := a) (by omega)]
  | case3 a b =>
    have ha := a.toNat_lt
    have hb := b.toNat_lt
    rw [decode_chars, value_digit (by omega), value_digit (by omega), value_digit (by omega)]
    simp only [Option.bind_eq_bind, Option.bind_some]
    rw [if_neg (digit_ne_pad (by omega)), if_pos trivial, if_pos ⟨trivial, by omega⟩,
      ofNat_toNat_of_eq (a := a) (by omega), ofNat_toNat_of_eq (a := b) (by omega)]
  | case4 a b c rest ih =>
    have ha := a.toNat_lt
    have hb := b.toNat_lt
    have hc := c.toNat_lt
    rw [decode_chars, value_digit (by omega), value_digit (by omega), value_digit (by omega),
      value_digit (by omega), ih]
    simp only [Option.bind_eq_bind, Option.bind_some]
    rw [if_neg (digit_ne_pad (by omega)), if_neg (digit_ne_pad (by omega)),
      ofNat_toNat_of_eq (a := a) (by omega), ofNat_toNat_of_eq (a := b) (by omega),
      ofNat_toNat_of_eq (a := c) (by omega)]
    rfl

/-- Decoding undoes encoding. -/
theorem decode_encode (bytes : List UInt8) : decode (encode bytes) = some bytes := by
  unfold decode encode
  rw [String.toList_ofList, decode_chars_encode_chars]

/-- The text of bytes that are not in threes is padded. -/
theorem pad_mem_encode {bytes : List UInt8} (h : bytes.length % 3 ≠ 0) :
    '=' ∈ (encode bytes).toList := by
  unfold encode
  rw [String.toList_ofList]
  fun_induction encode_chars bytes with
  | case1 => exact absurd rfl h
  | case2 a => simp
  | case3 a b => simp
  | case4 a b c rest ih =>
    have hpad := ih (by simpa only [List.length_cons, Nat.add_assoc, Nat.add_mod_right] using h)
    simp [hpad]

end base64
