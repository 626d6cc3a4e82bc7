-- JSON: its grammar, and a reader that goes through a text one character at a time, with a
-- stack of the arrays and objects that are open. The reader takes the texts of the grammar, with
-- whitespace around them, and no others.
import Mathlib

namespace json

/-- A string, as its code points. An escape may name half of a surrogate pair. -/
abbrev Str := List ℕ

/-- A number is known by its literal. The members of an object have different keys. -/
inductive Value
  | null
  | bool (b : Bool)
  | number (literal : List Char)
  | string (s : Str)
  | array (items : List Value)
  | object (members : List (Str × Value))

/-- A later member takes the place of an earlier one with the same key. -/
def upsert (members : List (Str × Value)) (key : Str) (v : Value) : List (Str × Value) :=
  match members with
  | [] => [(key, v)]
  | (k, w) :: rest => if k = key then (k, v) :: rest else (k, w) :: upsert rest key v

def is_blank (c : Char) : Bool := c == ' ' || c == '\t' || c == '\n' || c == '\r'

def Blank (t : List Char) : Prop := ∀ c ∈ t, is_blank c = true

/-! ## Numbers -/

/-- The part of a number that its last character belongs to. -/
inductive Part
  | minus
  | zero
  | int
  | point
  | frac
  | exp_mark
  | exp_sign
  | exp

/-- A number, or the first part of one, is `[-] int [. digits] [e [+ or -] digits]`, and a
longer `int` does not begin with a zero. -/
def Part.start (c : Char) : Option Part :=
  if c = '-' then some .minus
  else if c = '0' then some .zero
  else if c.isDigit then some .int
  else none

def Part.next (c : Char) : Part → Option Part
  | .minus => if c = '0' then some .zero else if c.isDigit then some .int else none
  | .zero => if c = '.' then some .point else if c.toLower = 'e' then some .exp_mark else none
  | .int =>
    if c.isDigit then some .int
    else if c = '.' then some .point
    else if c.toLower = 'e' then some .exp_mark
    else none
  | .point => if c.isDigit then some .frac else none
  | .frac => if c.isDigit then some .frac else if c.toLower = 'e' then some .exp_mark else none
  | .exp_mark =>
    if c = '+' ∨ c = '-' then some .exp_sign else if c.isDigit then some .exp else none
  | .exp_sign => if c.isDigit then some .exp else none
  | .exp => if c.isDigit then some .exp else none

/-- A number may end here. -/
def Part.ends : Part → Bool
  | .zero | .int | .frac | .exp => true
  | .minus | .point | .exp_mark | .exp_sign => false

/-- The part at the end of a number, or of the first part of one. -/
def part : List Char → Option Part
  | [] => none
  | c :: literal => do literal.foldlM (fun p c => p.next c) (← Part.start c)

def Number (literal : List Char) : Prop := ∃ p, part literal = some p ∧ p.ends = true

theorem part_concat {literal : List Char} (h : literal ≠ []) (c : Char) :
    part (literal ++ [c]) = (part literal).bind (Part.next c) := by
  cases literal with
  | nil => exact absurd rfl h
  | cons c' literal =>
    rw [List.cons_append, part, part]
    rcases Part.start c' with _ | p
    · rfl
    · simp only [Option.bind_eq_bind, Option.bind_some, List.foldlM_append]
      rcases literal.foldlM (fun p c => Part.next c p) p with _ | p' <;> simp

theorem ne_nil_of_part {literal : List Char} {p : Part} (h : part literal = some p) :
    literal ≠ [] := by
  rintro rfl
  cases h

/-! ## Strings -/

/-- What a character stands for after a backslash. -/
def escaped : Char → Option ℕ
  | '"' => some 0x22
  | '\\' => some 0x5c
  | '/' => some 0x2f
  | 'b' => some 0x08
  | 'f' => some 0x0c
  | 'n' => some 0x0a
  | 'r' => some 0x0d
  | 't' => some 0x09
  | _ => none

def hex_value (c : Char) : Option ℕ := "0123456789abcdef".toList.idxOf? c.toLower

def hex_number (hex : List Char) : Option ℕ :=
  hex.foldlM (fun n c => (hex_value c).map (16 * n + ·)) 0

/-- Adds the code unit of an escape. The second half of a surrogate pair joins the first. -/
def join (s : Str) (n : ℕ) : Str :=
  match s.getLast? with
  | some m =>
    if 0xd800 ≤ m ∧ m < 0xdc00 ∧ 0xdc00 ≤ n ∧ n < 0xe000 then
      s.dropLast ++ [0x10000 + (m - 0xd800) * 0x400 + (n - 0xdc00)]
    else s ++ [n]
  | none => [n]

/-- The character stands for itself in a string. -/
def Plain (c : Char) : Prop := c ≠ '"' ∧ c ≠ '\\' ∧ 0x20 ≤ c.toNat

instance instDecidablePlain (c : Char) : Decidable (Plain c) :=
  inferInstanceAs (Decidable (_ ∧ _ ∧ _))

/-- The text between the quotes of a string. -/
inductive Quoted : Str → List Char → Prop
  | nil : Quoted [] []
  | plain {s : Str} {t : List Char} {c : Char} :
      Quoted s t → Plain c → Quoted (s ++ [c.toNat]) (t ++ [c])
  | escape {s : Str} {t : List Char} {c : Char} {n : ℕ} :
      Quoted s t → escaped c = some n → Quoted (s ++ [n]) (t ++ ['\\', c])
  | unicode {s : Str} {t hex : List Char} {n : ℕ} :
      Quoted s t → hex.length = 4 → hex_number hex = some n →
        Quoted (join s n) (t ++ '\\' :: 'u' :: hex)

/-! ## The grammar -/

/-- The symbols of the grammar, with what their texts stand for. -/
inductive Symbol
  | value (v : Value)
  /-- The first items of an array, up to where another one begins. -/
  | items (items : List Value)
  /-- The first members of an object, up to where another one begins. -/
  | members (members : List (Str × Value))
  /-- The first members of an object and one more key, up to where its value begins. -/
  | key (members : List (Str × Value)) (key : Str)

inductive Derives : Symbol → List Char → Prop
  | null : Derives (.value .null) ['n', 'u', 'l', 'l']
  | true : Derives (.value (.bool true)) ['t', 'r', 'u', 'e']
  | false : Derives (.value (.bool false)) ['f', 'a', 'l', 's', 'e']
  | number {literal : List Char} : Number literal → Derives (.value (.number literal)) literal
  | string {s : Str} {t : List Char} :
      Quoted s t → Derives (.value (.string s)) ('"' :: t ++ ['"'])
  | empty_array {w : List Char} : Blank w → Derives (.value (.array [])) ('[' :: w ++ [']'])
  | array {items : List Value} {v : Value} {t u w : List Char} :
      Derives (.items items) t → Derives (.value v) u → Blank w →
        Derives (.value (.array (items ++ [v]))) ('[' :: t ++ u ++ w ++ [']'])
  | empty_object {w : List Char} : Blank w → Derives (.value (.object [])) ('{' :: w ++ ['}'])
  | object {members : List (Str × Value)} {key : Str} {v : Value} {t u w : List Char} :
      Derives (.key members key) t → Derives (.value v) u → Blank w →
        Derives (.value (.object (upsert members key v))) ('{' :: t ++ u ++ w ++ ['}'])
  | no_items {w : List Char} : Blank w → Derives (.items []) w
  | item {items : List Value} {v : Value} {t u w w' : List Char} :
      Derives (.items items) t → Derives (.value v) u → Blank w → Blank w' →
        Derives (.items (items ++ [v])) (t ++ u ++ w ++ ',' :: w')
  | no_members {w : List Char} : Blank w → Derives (.members []) w
  | member {members : List (Str × Value)} {key : Str} {v : Value} {t u w w' : List Char} :
      Derives (.key members key) t → Derives (.value v) u → Blank w → Blank w' →
        Derives (.members (upsert members key v)) (t ++ u ++ w ++ ',' :: w')
  | key {members : List (Str × Value)} {key : Str} {t u w w' : List Char} :
      Derives (.members members) t → Quoted key u → Blank w → Blank w' →
        Derives (.key members key) (t ++ '"' :: u ++ '"' :: w ++ ':' :: w')

/-! ## The reader -/

/-- An array or an object that is open, with what is read of it before the value that is next. -/
inductive Frame
  | array (items : List Value)
  | object (members : List (Str × Value)) (key : Str)

/-- What the reader is at. -/
inductive Mode
  /-- A value comes. -/
  | value
  /-- The first item of an array comes, or its end. -/
  | first_item
  /-- The first key of an object comes, or its end. -/
  | first_key
  /-- Another key of an object comes. -/
  | key (members : List (Str × Value))
  /-- The colon after the key of the top frame comes. -/
  | colon
  /-- Inside a string, which is a value, or the key after some members. -/
  | string (members : Option (List (Str × Value))) (s : Str)
  /-- Inside such a string, after a backslash. -/
  | escape (members : Option (List (Str × Value))) (s : Str)
  /-- Inside such a string, after a backslash, `u` and some digits. -/
  | unicode (members : Option (List (Str × Value))) (s : Str) (hex : List Char)
  | number (literal : List Char) (p : Part)
  /-- The rest of a word comes. -/
  | word (rest : List Char) (v : Value)
  /-- A value is complete. -/
  | after (v : Value)

structure State where
  mode : Mode
  stack : List Frame

/-- The first character of a value. -/
def start (stack : List Frame) (c : Char) : Option State :=
  if c = '"' then some ⟨.string none [], stack⟩
  else if c = '[' then some ⟨.first_item, stack⟩
  else if c = '{' then some ⟨.first_key, stack⟩
  else if c = 'n' then some ⟨.word ['u', 'l', 'l'] .null, stack⟩
  else if c = 't' then some ⟨.word ['r', 'u', 'e'] (.bool true), stack⟩
  else if c = 'f' then some ⟨.word ['a', 'l', 's', 'e'] (.bool false), stack⟩
  else (Part.start c).map fun p => ⟨.number [c] p, stack⟩

/-- A character after a complete value. -/
def next (v : Value) (c : Char) : List Frame → Option State
  | [] => if is_blank c then some ⟨.after v, []⟩ else none
  | .array items :: stack =>
    if is_blank c then some ⟨.after v, .array items :: stack⟩
    else if c = ',' then some ⟨.value, .array (items ++ [v]) :: stack⟩
    else if c = ']' then some ⟨.after (.array (items ++ [v])), stack⟩
    else none
  | .object members key :: stack =>
    if is_blank c then some ⟨.after v, .object members key :: stack⟩
    else if c = ',' then some ⟨.key (upsert members key v), stack⟩
    else if c = '}' then some ⟨.after (.object (upsert members key v)), stack⟩
    else none

/-- The end of a string. -/
def end_string (s : Str) (stack : List Frame) : Option (List (Str × Value)) → State
  | none => ⟨.after (.string s), stack⟩
  | some members => ⟨.colon, .object members s :: stack⟩

def step (s : State) (c : Char) : Option State :=
  match s.mode with
  | .value => if is_blank c then some s else start s.stack c
  | .first_item =>
    if is_blank c then some s
    else if c = ']' then some ⟨.after (.array []), s.stack⟩
    else start (.array [] :: s.stack) c
  | .first_key =>
    if is_blank c then some s
    else if c = '}' then some ⟨.after (.object []), s.stack⟩
    else if c = '"' then some ⟨.string (some []) [], s.stack⟩
    else none
  | .key members =>
    if is_blank c then some s
    else if c = '"' then some ⟨.string (some members) [], s.stack⟩
    else none
  | .colon => if is_blank c then some s else if c = ':' then some ⟨.value, s.stack⟩ else none
  | .string members str =>
    if c = '"' then some (end_string str s.stack members)
    else if c = '\\' then some ⟨.escape members str, s.stack⟩
    else if Plain c then some ⟨.string members (str ++ [c.toNat]), s.stack⟩
    else none
  | .escape members str =>
    if c = 'u' then some ⟨.unicode members str [], s.stack⟩
    else (escaped c).map fun n => ⟨.string members (str ++ [n]), s.stack⟩
  | .unicode members str hex => do
    let n ← hex_number (hex ++ [c])
    if hex.length = 3 then some ⟨.string members (join str n), s.stack⟩
    else some ⟨.unicode members str (hex ++ [c]), s.stack⟩
  | .number literal p =>
    match p.next c with
    | some p => some ⟨.number (literal ++ [c]) p, s.stack⟩
    | none => if p.ends then next (.number literal) c s.stack else none
  | .word rest v =>
    if rest = [c] then some ⟨.after v, s.stack⟩
    else if rest.head? = some c then some ⟨.word rest.tail v, s.stack⟩
    else none
  | .after v => next v c s.stack

def run (s : State) (t : List Char) : Option State := t.foldlM step s

/-- The value of a complete text. -/
def finish (s : State) : Option Value :=
  match s.mode, s.stack with
  | .after v, [] => some v
  | .number literal p, [] => if p.ends then some (.number literal) else none
  | _, _ => none

def loads (t : List Char) : Option Value := (run ⟨.value, []⟩ t).bind finish

/-! ## What the reader takes is derived -/

/-- The text up to where the value inside the open arrays and objects begins. -/
inductive Opens : List Frame → List Char → Prop
  | nil {w : List Char} : Blank w → Opens [] w
  | array {stack : List Frame} {items : List Value} {t u : List Char} :
      Opens stack t → Derives (.items items) u → Opens (.array items :: stack) (t ++ '[' :: u)
  | object {stack : List Frame} {members : List (Str × Value)} {key : Str} {t u : List Char} :
      Opens stack t → Derives (.key members key) u →
        Opens (.object members key :: stack) (t ++ '{' :: u)

/-- The text up to where a string begins. -/
def OpensString (stack : List Frame) : Option (List (Str × Value)) → List Char → Prop
  | none, t => Opens stack t
  | some members, t => ∃ u w, t = u ++ '{' :: w ∧ Opens stack u ∧ Derives (.members members) w

/-- The text that the reader has taken. -/
def Reads (s : State) (t : List Char) : Prop :=
  match s.mode with
  | .value => Opens s.stack t
  | .first_item => ∃ u w, t = u ++ '[' :: w ∧ Opens s.stack u ∧ Blank w
  | .first_key => ∃ u w, t = u ++ '{' :: w ∧ Opens s.stack u ∧ Blank w
  | .key members => ∃ u w, t = u ++ '{' :: w ∧ Opens s.stack u ∧ Derives (.members members) w
  | .colon => ∃ members key stack u w x, s.stack = .object members key :: stack ∧
      t = u ++ '"' :: w ++ '"' :: x ∧ OpensString stack (some members) u ∧ Quoted key w ∧ Blank x
  | .string members str => ∃ u w, t = u ++ '"' :: w ∧ OpensString s.stack members u ∧ Quoted str w
  | .escape members str =>
    ∃ u w, t = u ++ '"' :: w ++ ['\\'] ∧ OpensString s.stack members u ∧ Quoted str w
  | .unicode members str hex => ∃ u w, t = u ++ '"' :: w ++ '\\' :: 'u' :: hex ∧
      OpensString s.stack members u ∧ Quoted str w ∧ hex.length < 4
  | .number literal p => ∃ u, t = u ++ literal ∧ Opens s.stack u ∧ part literal = some p
  | .word rest v => ∃ u w, t = u ++ w ∧ Opens s.stack u ∧ Derives (.value v) (w ++ rest)
  | .after v => ∃ u w x, t = u ++ w ++ x ∧ Opens s.stack u ∧ Derives (.value v) w ∧ Blank x

variable {s s' : State} {t t' : List Char} {c : Char} {v v' : Value} {stack : List Frame}

theorem blank_nil : Blank [] := by
  intro c hc
  cases hc

theorem Blank.append (h : Blank t) (h' : Blank t') : Blank (t ++ t') := by
  intro c hc
  rcases List.mem_append.mp hc with hc | hc
  · exact h c hc
  · exact h' c hc

theorem blank_singleton (hc : is_blank c = true) : Blank [c] := by
  intro c' hc'
  rw [List.mem_singleton.mp hc']
  exact hc

theorem Blank.concat (h : Blank t) (hc : is_blank c = true) : Blank (t ++ [c]) :=
  h.append (blank_singleton hc)

theorem items_blank {items : List Value} (h : Derives (.items items) t) (ht : Blank t') :
    Derives (.items items) (t ++ t') := by
  cases h with
  | no_items hw => exact .no_items (hw.append ht)
  | item hitems hv hw hw' => simpa using Derives.item hitems hv hw (hw'.append ht)

theorem members_blank {members : List (Str × Value)} (h : Derives (.members members) t)
    (ht : Blank t') : Derives (.members members) (t ++ t') := by
  cases h with
  | no_members hw => exact .no_members (hw.append ht)
  | member hkey hv hw hw' => simpa using Derives.member hkey hv hw (hw'.append ht)

theorem key_blank {members : List (Str × Value)} {key : Str} (h : Derives (.key members key) t)
    (ht : Blank t') : Derives (.key members key) (t ++ t') := by
  cases h with
  | key hmembers hkey hw hw' => simpa using Derives.key hmembers hkey hw (hw'.append ht)

theorem Opens.blank (h : Opens stack t) (ht : Blank t') : Opens stack (t ++ t') := by
  cases h with
  | nil hw => exact .nil (hw.append ht)
  | array hopens hitems => simpa using hopens.array (items_blank hitems ht)
  | object hopens hkey => simpa using hopens.object (key_blank hkey ht)

theorem start_reads (h : Opens stack t) (hstart : start stack c = some s') :
    Reads s' (t ++ [c]) := by
  unfold start at hstart
  split_ifs at hstart with h1 h2 h3 h4 h5 h6
  · cases hstart
    exact ⟨t, [], by rw [h1], h, .nil⟩
  · cases hstart
    exact ⟨t, [], by rw [h2], h, blank_nil⟩
  · cases hstart
    exact ⟨t, [], by rw [h3], h, blank_nil⟩
  · cases hstart
    exact ⟨t, [c], rfl, h, h4 ▸ .null⟩
  · cases hstart
    exact ⟨t, [c], rfl, h, h5 ▸ .true⟩
  · cases hstart
    exact ⟨t, [c], rfl, h, h6 ▸ .false⟩
  · obtain ⟨p, hp, rfl⟩ := Option.map_eq_some_iff.mp hstart
    refine ⟨t, rfl, h, ?_⟩
    rw [part, hp]
    rfl

theorem next_reads {u w x : List Char} (h : Opens stack u) (hv : Derives (.value v) w)
    (hx : Blank x) (hnext : next v c stack = some s') : Reads s' (u ++ w ++ x ++ [c]) := by
  unfold next at hnext
  split at hnext
  · split_ifs at hnext with hc
    cases hnext
    exact ⟨u, w, x ++ [c], by simp, h, hv, hx.concat hc⟩
  · rename_i items stack
    split_ifs at hnext with hc h1 h2
    · cases hnext
      exact ⟨u, w, x ++ [c], by simp, h, hv, hx.concat hc⟩
    · cases hnext
      cases h with
      | array hopens hitems =>
        change Opens (.array (items ++ [v]) :: stack) _
        simpa [h1] using hopens.array (hitems.item hv hx blank_nil)
    · cases hnext
      cases h with
      | @array _ _ t y hopens hitems =>
        exact ⟨t, '[' :: y ++ w ++ x ++ [']'], [], by simp [h2], hopens, hitems.array hv hx,
          blank_nil⟩
  · rename_i members key stack
    split_ifs at hnext with hc h1 h2
    · cases hnext
      exact ⟨u, w, x ++ [c], by simp, h, hv, hx.concat hc⟩
    · cases hnext
      cases h with
      | @object _ _ _ t y hopens hkey =>
        exact ⟨t, y ++ w ++ x ++ [','], by simp [h1], hopens, hkey.member hv hx blank_nil⟩
    · cases hnext
      cases h with
      | @object _ _ _ t y hopens hkey =>
        exact ⟨t, '{' :: y ++ w ++ x ++ ['}'], [], by simp [h2], hopens, hkey.object hv hx,
          blank_nil⟩

theorem end_string_reads {members : Option (List (Str × Value))} {str : Str} {u w : List Char}
    (h : OpensString stack members u) (hstr : Quoted str w) :
    Reads (end_string str stack members) (u ++ '"' :: w ++ ['"']) := by
  cases members with
  | none => exact ⟨u, '"' :: w ++ ['"'], [], by simp, h, .string hstr, blank_nil⟩
  | some members => exact ⟨members, str, stack, u, w, [], rfl, by simp, h, hstr, blank_nil⟩

theorem string_reads {members : Option (List (Str × Value))} {str : Str}
    (h : Reads ⟨.string members str, stack⟩ t)
    (hstep : step ⟨.string members str, stack⟩ c = some s') : Reads s' (t ++ [c]) := by
  obtain ⟨u, w, rfl, hopens, hstr⟩ := h
  unfold step at hstep
  dsimp only at hstep
  split_ifs at hstep with h1 h2 h3
  · cases hstep
    rw [h1]
    exact end_string_reads hopens hstr
  · cases hstep
    exact ⟨u, w, by simp [h2], hopens, hstr⟩
  · cases hstep
    exact ⟨u, w ++ [c], by simp, hopens, hstr.plain h3⟩

theorem escape_reads {members : Option (List (Str × Value))} {str : Str}
    (h : Reads ⟨.escape members str, stack⟩ t)
    (hstep : step ⟨.escape members str, stack⟩ c = some s') : Reads s' (t ++ [c]) := by
  obtain ⟨u, w, rfl, hopens, hstr⟩ := h
  unfold step at hstep
  dsimp only at hstep
  split_ifs at hstep with h1
  · cases hstep
    exact ⟨u, w, by simp [h1], hopens, hstr, by simp⟩
  · obtain ⟨n, hn, rfl⟩ := Option.map_eq_some_iff.mp hstep
    exact ⟨u, w ++ ['\\', c], by simp, hopens, hstr.escape hn⟩

/-- The fourth digit ends the escape. -/
theorem unicode_reads {members : Option (List (Str × Value))} {str : Str} {hex : List Char}
    (h : Reads ⟨.unicode members str hex, stack⟩ t)
    (hstep : step ⟨.unicode members str hex, stack⟩ c = some s') : Reads s' (t ++ [c]) := by
  obtain ⟨u, w, rfl, hopens, hstr, hlength⟩ := h
  unfold step at hstep
  dsimp only at hstep
  obtain ⟨n, hn, hstep⟩ := Option.bind_eq_some_iff.mp hstep
  split_ifs at hstep with h1
  · cases hstep
    exact ⟨u, w ++ '\\' :: 'u' :: (hex ++ [c]), by simp, hopens, hstr.unicode (by simp [h1]) hn⟩
  · cases hstep
    exact ⟨u, w, by simp, hopens, hstr, by simp; omega⟩

/-- Each character that the reader takes goes on with a derivation. -/
theorem step_reads (h : Reads s t) (hstep : step s c = some s') : Reads s' (t ++ [c]) := by
  obtain ⟨mode, stack⟩ := s
  unfold step at hstep
  cases mode with
  | value =>
    dsimp only at hstep
    split_ifs at hstep with hc
    · cases hstep
      exact Opens.blank h (blank_singleton hc)
    · exact start_reads h hstep
  | first_item =>
    obtain ⟨u, w, rfl, hopens, hw⟩ := h
    dsimp only at hstep
    split_ifs at hstep with hc h1
    · cases hstep
      exact ⟨u, w ++ [c], by simp, hopens, hw.concat hc⟩
    · cases hstep
      exact ⟨u, '[' :: w ++ [']'], [], by simp [h1], hopens, .empty_array hw, blank_nil⟩
    · exact start_reads (hopens.array (.no_items hw)) hstep
  | first_key =>
    obtain ⟨u, w, rfl, hopens, hw⟩ := h
    dsimp only at hstep
    split_ifs at hstep with hc h1 h2
    · cases hstep
      exact ⟨u, w ++ [c], by simp, hopens, hw.concat hc⟩
    · cases hstep
      exact ⟨u, '{' :: w ++ ['}'], [], by simp [h1], hopens, .empty_object hw, blank_nil⟩
    · cases hstep
      exact ⟨u ++ '{' :: w, [], by simp [h2], ⟨u, w, rfl, hopens, .no_members hw⟩, .nil⟩
  | key members =>
    obtain ⟨u, w, rfl, hopens, hmembers⟩ := h
    dsimp only at hstep
    split_ifs at hstep with hc h1
    · cases hstep
      exact ⟨u, w ++ [c], by simp, hopens, members_blank hmembers (blank_singleton hc)⟩
    · cases hstep
      exact ⟨u ++ '{' :: w, [], by simp [h1], ⟨u, w, rfl, hopens, hmembers⟩, .nil⟩
  | colon =>
    obtain ⟨members, key, stack, u, w, x, rfl, rfl, hopens, hkey, hx⟩ := h
    dsimp only at hstep
    split_ifs at hstep with hc h1
    · cases hstep
      exact ⟨members, key, stack, u, w, x ++ [c], rfl, by simp, hopens, hkey, hx.concat hc⟩
    · cases hstep
      obtain ⟨y, z, rfl, hopens, hmembers⟩ := hopens
      change Opens (.object members key :: stack) _
      simpa [h1] using hopens.object (hmembers.key hkey hx blank_nil)
  | string members str => exact string_reads h hstep
  | escape members str => exact escape_reads h hstep
  | unicode members str hex => exact unicode_reads h hstep
  | number literal p =>
    obtain ⟨u, rfl, hopens, hp⟩ := h
    dsimp only at hstep
    split at hstep
    · rename_i p' hp'
      cases hstep
      exact ⟨u, by simp, hopens, by rw [part_concat (ne_nil_of_part hp), hp, Option.bind_some, hp']⟩
    · split_ifs at hstep with hends
      simpa using next_reads hopens (.number ⟨p, hp, hends⟩) blank_nil hstep
  | word rest v =>
    obtain ⟨u, w, rfl, hopens, hv⟩ := h
    dsimp only at hstep
    split_ifs at hstep with h1 h2
    · cases hstep
      exact ⟨u, w ++ [c], [], by simp, hopens, h1 ▸ hv, blank_nil⟩
    · cases hstep
      refine ⟨u, w ++ [c], by simp, hopens, ?_⟩
      rw [List.append_assoc, List.singleton_append, List.cons_head?_tail h2]
      exact hv
  | after v =>
    obtain ⟨u, w, x, rfl, hopens, hv, hx⟩ := h
    exact next_reads hopens hv hx hstep

theorem run_concat (s : State) (t : List Char) (c : Char) :
    run s (t ++ [c]) = (run s t).bind (step · c) := by
  unfold run
  rw [List.foldlM_append]
  rcases t.foldlM step s with _ | s' <;> simp

theorem run_reads (h : Reads s t) (hrun : run s t' = some s') : Reads s' (t ++ t') := by
  induction t' using List.reverseRecOn generalizing s' with
  | nil =>
    cases hrun
    rwa [List.append_nil]
  | append_singleton t' c ih =>
    rw [run_concat] at hrun
    obtain ⟨s₁, hrun, hstep⟩ := Option.bind_eq_some_iff.mp hrun
    rw [← List.append_assoc]
    exact step_reads (ih hrun) hstep

theorem derives_of_finish (h : Reads s t) (hv : finish s = some v) :
    ∃ w u x, t = w ++ u ++ x ∧ Blank w ∧ Derives (.value v) u ∧ Blank x := by
  obtain ⟨mode, stack⟩ := s
  unfold finish at hv
  split at hv
  · rename_i v' hmode hstack
    cases hv
    cases hmode
    cases hstack
    obtain ⟨w, u, x, rfl, hopens, hv, hx⟩ := h
    cases hopens with
    | nil hw => exact ⟨w, u, x, rfl, hw, hv, hx⟩
  · rename_i literal p hmode hstack
    cases hmode
    cases hstack
    split_ifs at hv with hends
    cases hv
    obtain ⟨w, rfl, hopens, hp⟩ := h
    cases hopens with
    | nil hw => exact ⟨w, literal, [], by simp, hw, .number ⟨p, hp, hends⟩, blank_nil⟩
  · cases hv

/-! ## What is derived, the reader takes -/

/-- The reader has read the value. A number may still go on. -/
def Settled (stack : List Frame) (v : Value) (s : State) : Prop :=
  s = ⟨.after v, stack⟩ ∨
    ∃ literal p, v = .number literal ∧ p.ends = true ∧ s = ⟨.number literal p, stack⟩

/-- A character that may come after a value. -/
def Follows (c : Char) : Prop := is_blank c = true ∨ c = ',' ∨ c = ']' ∨ c = '}'

instance instDecidableFollows (c : Char) : Decidable (Follows c) :=
  inferInstanceAs (Decidable (_ ∨ _ ∨ _ ∨ _))

theorem part_next_of_follows {p : Part} (h : Follows c) : p.next c = none := by
  unfold Follows is_blank at h
  simp only [Bool.or_eq_true, beq_iff_eq, or_assoc] at h
  rcases h with rfl | rfl | rfl | rfl | rfl | rfl | rfl <;> cases p <;> decide

theorem start_of_follows (h : Follows c) : start stack c = none := by
  unfold Follows is_blank at h
  simp only [Bool.or_eq_true, beq_iff_eq, or_assoc] at h
  rcases h with rfl | rfl | rfl | rfl | rfl | rfl | rfl <;> rfl

theorem next_of_blank (h : is_blank c = true) : next v c stack = some ⟨.after v, stack⟩ := by
  rcases stack with _ | ⟨items | ⟨members, key⟩, stack⟩
  · exact if_pos h
  · exact if_pos h
  · exact if_pos h

theorem Settled.step_eq (h : Settled stack v s) (hc : Follows c) : step s c = next v c stack := by
  rcases h with rfl | ⟨literal, p, rfl, hends, rfl⟩
  · rfl
  · unfold step
    dsimp only
    rw [part_next_of_follows hc]
    exact if_pos hends

theorem run_cons (s : State) (c : Char) (t : List Char) :
    run s (c :: t) = (step s c).bind (run · t) := by
  unfold run
  rw [List.foldlM_cons]
  rfl

theorem run_append (s : State) (t t' : List Char) :
    run s (t ++ t') = (run s t).bind (run · t') := by
  unfold run
  rw [List.foldlM_append]
  rfl

theorem Settled.run_blank (h : Settled stack v s) (ht : Blank t) :
    ∃ s', run s t = some s' ∧ Settled stack v s' := by
  induction t generalizing s with
  | nil => exact ⟨s, rfl, h⟩
  | cons c t ih =>
    have hc := ht c List.mem_cons_self
    rw [run_cons, h.step_eq (.inl hc), next_of_blank hc, Option.bind_some]
    exact ih (.inl rfl) fun c' hc' => ht c' (List.mem_cons_of_mem c hc')

theorem hex_number_of_append (hex hex' : List Char) {n : ℕ}
    (h : hex_number (hex ++ hex') = some n) : ∃ m, hex_number hex = some m := by
  unfold hex_number at h ⊢
  rw [List.foldlM_append] at h
  obtain ⟨m, hm, -⟩ := Option.bind_eq_some_iff.mp h
  exact ⟨m, hm⟩

/-- The four digits of an escape. -/
theorem run_hex {members : Option (List (Str × Value))} {str : Str} {hex : List Char} {n : ℕ}
    (hlength : hex.length = 4) (hn : hex_number hex = some n) :
    run ⟨.unicode members str [], stack⟩ hex = some ⟨.string members (join str n), stack⟩ := by
  obtain ⟨c₀, c₁, c₂, c₃, rfl⟩ := List.length_eq_four.mp hlength
  obtain ⟨n₀, h₀⟩ := hex_number_of_append [c₀] [c₁, c₂, c₃] hn
  obtain ⟨n₁, h₁⟩ := hex_number_of_append [c₀, c₁] [c₂, c₃] hn
  obtain ⟨n₂, h₂⟩ := hex_number_of_append [c₀, c₁, c₂] [c₃] hn
  simp [step, h₀, h₁, h₂, hn, run]

theorem run_quoted {members : Option (List (Str × Value))} {str : Str} (h : Quoted str t) :
    run ⟨.string members [], stack⟩ t = some ⟨.string members str, stack⟩ := by
  induction h with
  | nil => rfl
  | plain h hc ih =>
    rw [run_concat, ih, Option.bind_some]
    unfold step
    dsimp only
    rw [if_neg hc.1, if_neg hc.2.1, if_pos hc]
  | @escape str t c n h hn ih =>
    have hu : c ≠ 'u' := by
      rintro rfl
      cases hn
    rw [run_append, ih, Option.bind_some]
    simp [step, hu, hn, run]
  | @unicode str t hex n h hlength hn ih =>
    rw [run_append, ih, Option.bind_some]
    exact run_hex hlength hn

theorem start_of_part {p : Part} (h : Part.start c = some p) :
    start stack c = some ⟨.number [c] p, stack⟩ := by
  unfold start
  split_ifs with h1 h2 h3 h4 h5 h6
  · rw [h1] at h; cases h
  · rw [h2] at h; cases h
  · rw [h3] at h; cases h
  · rw [h4] at h; cases h
  · rw [h5] at h; cases h
  · rw [h6] at h; cases h
  · rw [h]
    rfl

theorem run_number {literal : List Char} {p p' : Part} (hstart : Part.start c = some p)
    (hp : part (c :: literal) = some p') :
    run ⟨.number [c] p, stack⟩ literal = some ⟨.number (c :: literal) p', stack⟩ := by
  induction literal using List.reverseRecOn generalizing p' with
  | nil =>
    rw [part, hstart] at hp
    cases hp
    rfl
  | append_singleton literal c' ih =>
    rw [← List.cons_append, part_concat (List.cons_ne_nil c literal)] at hp
    obtain ⟨p₁, hpart, hnext⟩ := Option.bind_eq_some_iff.mp hp
    rw [run_concat, ih hpart, Option.bind_some]
    unfold step
    dsimp only
    rw [hnext]
    rfl

/-- The reader on a text of a symbol. It may read the items of an array from where the first one
begins, and so the members of an object. -/
def Runs (x : Symbol) (t : List Char) : Prop :=
  match x with
  | .value v => ∀ stack, ∃ c u s s', t = c :: u ∧ start stack c = some s ∧ run s u = some s' ∧
      Settled stack v s'
  | .items items => ∀ stack, ∃ s, run ⟨.first_item, stack⟩ t = some s ∧
      (items = [] ∧ s = ⟨.first_item, stack⟩ ∨ s = ⟨.value, .array items :: stack⟩)
  | .members members => ∀ stack, ∃ s, run ⟨.first_key, stack⟩ t = some s ∧
      (members = [] ∧ s = ⟨.first_key, stack⟩ ∨ s = ⟨.key members, stack⟩)
  | .key members key => ∀ stack,
      run ⟨.first_key, stack⟩ t = some ⟨.value, .object members key :: stack⟩

theorem run_blank (hs : ∀ c, is_blank c = true → step s c = some s) (ht : Blank t) :
    run s t = some s := by
  induction t with
  | nil => rfl
  | cons c t ih =>
    rw [run_cons, hs c (ht c List.mem_cons_self), Option.bind_some]
    exact ih fun c' hc' => ht c' (List.mem_cons_of_mem c hc')

theorem run_value (h : Runs (.value v) t) (stack : List Frame) :
    ∃ s, run ⟨.value, stack⟩ t = some s ∧ Settled stack v s := by
  obtain ⟨c, u, s, s', rfl, hstart, hrun, hsettled⟩ := h stack
  refine ⟨s', ?_, hsettled⟩
  have hc : is_blank c ≠ true := by
    intro hc
    rw [start_of_follows (.inl hc)] at hstart
    cases hstart
  have hstep : step ⟨.value, stack⟩ c = some s := (if_neg hc).trans hstart
  rw [run_cons, hstep]
  exact hrun

/-- An item of an array, with what comes after it. -/
theorem run_item {items : List Value} {t u w : List Char} (hitems : Runs (.items items) t)
    (hv : Runs (.value v) u) (hw : Blank w) (hc : Follows c) :
    run ⟨.first_item, stack⟩ (t ++ u ++ w ++ [c]) = next v c (.array items :: stack) := by
  obtain ⟨s, hrun, hs⟩ := hitems stack
  have hitem : ∃ s', run s u = some s' ∧ Settled (.array items :: stack) v s' := by
    rcases hs with ⟨rfl, rfl⟩ | rfl
    · obtain ⟨c', u, s, s', rfl, hstart, hrun', hsettled⟩ := hv (.array [] :: stack)
      have hnot : ¬ Follows c' := by
        intro hc'
        rw [start_of_follows hc'] at hstart
        cases hstart
      unfold Follows at hnot
      rw [not_or, not_or, not_or] at hnot
      have hstep : step ⟨.first_item, stack⟩ c' = some s :=
        (if_neg hnot.1).trans ((if_neg hnot.2.2.1).trans hstart)
      refine ⟨s', ?_, hsettled⟩
      rw [run_cons, hstep]
      exact hrun'
    · exact run_value hv _
  obtain ⟨s₁, hrun₁, hsettled⟩ := hitem
  obtain ⟨s₂, hrun₂, hsettled⟩ := hsettled.run_blank hw
  rw [run_concat, run_append, run_append, hrun, Option.bind_some, hrun₁, Option.bind_some, hrun₂,
    Option.bind_some, hsettled.step_eq hc]

/-- A value of an object, with what comes after it. -/
theorem run_member {members : List (Str × Value)} {key : Str} {t u w : List Char}
    (hkey : Runs (.key members key) t) (hv : Runs (.value v) u) (hw : Blank w) (hc : Follows c) :
    run ⟨.first_key, stack⟩ (t ++ u ++ w ++ [c]) = next v c (.object members key :: stack) := by
  obtain ⟨s₁, hrun₁, hsettled⟩ := run_value hv (.object members key :: stack)
  obtain ⟨s₂, hrun₂, hsettled⟩ := hsettled.run_blank hw
  rw [run_concat, run_append, run_append, hkey stack, Option.bind_some, hrun₁, Option.bind_some,
    hrun₂, Option.bind_some, hsettled.step_eq hc]

/-- A key of an object, with the colon after it. -/
theorem run_key {members : List (Str × Value)} {key : Str} {t u w w' : List Char}
    (hmembers : Runs (.members members) t) (hkey : Quoted key u) (hw : Blank w) (hw' : Blank w') :
    Runs (.key members key) (t ++ '"' :: u ++ '"' :: w ++ ':' :: w') := by
  intro stack
  obtain ⟨s, hrun, hs⟩ := hmembers stack
  have hquote : step s '"' = some ⟨.string (some members) [], stack⟩ := by
    rcases hs with ⟨rfl, rfl⟩ | rfl <;> rfl
  have hend : step ⟨.string (some members) key, stack⟩ '"' =
      some ⟨.colon, .object members key :: stack⟩ := rfl
  have hcolon : step ⟨.colon, .object members key :: stack⟩ ':' =
      some ⟨.value, .object members key :: stack⟩ := rfl
  simp only [List.append_assoc, List.cons_append]
  rw [run_append, hrun, Option.bind_some, run_cons, hquote, Option.bind_some, run_append,
    run_quoted hkey, Option.bind_some, run_cons, hend, Option.bind_some, run_append,
    run_blank (s := ⟨.colon, .object members key :: stack⟩) (fun c hc => if_pos hc) hw,
    Option.bind_some, run_cons, hcolon]
  exact run_blank (fun c hc => if_pos hc) hw'

theorem runs_of_derives {x : Symbol} (h : Derives x t) : Runs x t := by
  induction h with
  | null => exact fun stack => ⟨_, _, _, _, rfl, rfl, rfl, .inl rfl⟩
  | true => exact fun stack => ⟨_, _, _, _, rfl, rfl, rfl, .inl rfl⟩
  | false => exact fun stack => ⟨_, _, _, _, rfl, rfl, rfl, .inl rfl⟩
  | @number literal h =>
    intro stack
    obtain ⟨p, hp, hends⟩ := h
    rcases literal with _ | ⟨c, literal⟩
    · cases hp
    · obtain ⟨p₀, hstart, -⟩ := Option.bind_eq_some_iff.mp hp
      exact ⟨c, literal, _, _, rfl, start_of_part hstart, run_number hstart hp,
        .inr ⟨_, p, rfl, hends, rfl⟩⟩
  | @string str t h =>
    intro stack
    refine ⟨'"', t ++ ['"'], ⟨.string none [], stack⟩, _, rfl, rfl, ?_, .inl rfl⟩
    rw [run_append, run_quoted h]
    rfl
  | @empty_array w hw =>
    intro stack
    refine ⟨'[', w ++ [']'], ⟨.first_item, stack⟩, _, rfl, rfl, ?_, .inl rfl⟩
    rw [run_append, run_blank (s := ⟨.first_item, stack⟩) (fun c hc => if_pos hc) hw]
    rfl
  | @array items v t u w _ _ hw hitems hv =>
    intro stack
    refine ⟨'[', t ++ u ++ w ++ [']'], ⟨.first_item, stack⟩, _, rfl, rfl, ?_, .inl rfl⟩
    rw [run_item hitems hv hw (by decide)]
    rfl
  | @empty_object w hw =>
    intro stack
    refine ⟨'{', w ++ ['}'], ⟨.first_key, stack⟩, _, rfl, rfl, ?_, .inl rfl⟩
    rw [run_append, run_blank (s := ⟨.first_key, stack⟩) (fun c hc => if_pos hc) hw]
    rfl
  | @object members key v t u w _ _ hw hkey hv =>
    intro stack
    refine ⟨'{', t ++ u ++ w ++ ['}'], ⟨.first_key, stack⟩, _, rfl, rfl, ?_, .inl rfl⟩
    rw [run_member hkey hv hw (by decide)]
    rfl
  | no_items hw =>
    exact fun stack => ⟨_, run_blank (fun c hc => if_pos hc) hw, .inl ⟨rfl, rfl⟩⟩
  | @item items v t u w w' _ _ hw hw' hitems hv =>
    intro stack
    refine ⟨⟨.value, .array (items ++ [v]) :: stack⟩, ?_, .inr rfl⟩
    rw [← List.singleton_append, ← List.append_assoc, run_append,
      run_item hitems hv hw (by decide)]
    exact run_blank (fun c hc => if_pos hc) hw'
  | no_members hw =>
    exact fun stack => ⟨_, run_blank (fun c hc => if_pos hc) hw, .inl ⟨rfl, rfl⟩⟩
  | @member members key v t u w w' _ _ hw hw' hkey hv =>
    intro stack
    refine ⟨⟨.key (upsert members key v), stack⟩, ?_, .inr rfl⟩
    rw [← List.singleton_append, ← List.append_assoc, run_append,
      run_member hkey hv hw (by decide)]
    exact run_blank (fun c hc => if_pos hc) hw'
  | @key members key t u w w' _ hkey hw hw' hmembers =>
    exact run_key hmembers hkey hw hw'

/-- The reader takes the texts of the grammar, with whitespace around them, and no others. -/
theorem loads_eq_some : loads t = some v ↔
    ∃ w u x, t = w ++ u ++ x ∧ Blank w ∧ Derives (.value v) u ∧ Blank x := by
  unfold loads
  rw [Option.bind_eq_some_iff]
  constructor
  · rintro ⟨s, hrun, hv⟩
    have hreads : Reads ⟨.value, []⟩ [] := Opens.nil blank_nil
    exact derives_of_finish (run_reads hreads hrun) hv
  · rintro ⟨w, u, x, rfl, hw, hv, hx⟩
    obtain ⟨s₁, hrun₁, hsettled⟩ := run_value (runs_of_derives hv) []
    obtain ⟨s₂, hrun₂, hsettled⟩ := hsettled.run_blank hx
    refine ⟨s₂, ?_, ?_⟩
    · rw [run_append, run_append, run_blank (s := ⟨.value, []⟩) (fun c hc => if_pos hc) hw,
        Option.bind_some, hrun₁]
      exact hrun₂
    · rcases hsettled with rfl | ⟨literal, p, rfl, hends, rfl⟩
      · rfl
      · exact if_pos hends

example : loads " [1, -2.5e3 , \"\\u00e9\\ud83d\\ude00\"]".toList =
    some (.array [.number ['1'], .number "-2.5e3".toList, .string [0xe9, 0x1f600]]) := rfl

theorem blank_of_run_after (h : run ⟨.after v, []⟩ t = some s) : Blank t := by
  induction t with
  | nil => exact blank_nil
  | cons c t ih =>
    rw [run_cons] at h
    obtain ⟨s₁, hstep, hrun⟩ := Option.bind_eq_some_iff.mp h
    change (if is_blank c then some (⟨.after v, []⟩ : State) else none) = some s₁ at hstep
    split_ifs at hstep with hc
    cases hstep
    exact (blank_singleton hc).append (ih hrun)

/-- A text that begins as an object is read as a number nowhere. -/
theorem after_of_finish (h : Reads s ('{' :: t)) (hv : finish s = some v) : s = ⟨.after v, []⟩ := by
  obtain ⟨mode, stack⟩ := s
  unfold finish at hv
  split at hv
  · rename_i v' hmode hstack
    cases hv
    cases hmode
    cases hstack
    rfl
  · rename_i literal p hmode hstack
    cases hmode
    cases hstack
    obtain ⟨w, heq, hopens, hp⟩ := h
    cases hopens with
    | nil hw =>
      rcases w with _ | ⟨c, w⟩
      · rw [List.nil_append] at heq
        rw [← heq] at hp
        cases hp
      · have hc := hw c List.mem_cons_self
        rw [← (List.cons.inj heq).1] at hc
        cases hc
  · cases hv

/-- After a complete object only whitespace may come. -/
theorem blank_of_loads (h : loads ('{' :: t) = some v) (h' : loads ('{' :: t ++ t') = some v') :
    Blank t' := by
  obtain ⟨s, hrun, hv⟩ := Option.bind_eq_some_iff.mp h
  obtain ⟨s', hrun', -⟩ := Option.bind_eq_some_iff.mp h'
  have hreads : Reads ⟨.value, []⟩ [] := Opens.nil blank_nil
  rw [run_append, hrun, Option.bind_some, after_of_finish (run_reads hreads hrun) hv] at hrun'
  exact blank_of_run_after hrun'

end json
