-- Pretty-printed JSON: each item and each member is on lines of its own, two spaces further
-- in than the brackets around it. The text of a value is read as that value.
import Mathlib
import Sailfish.Lib.Json

namespace json

/-- What the short escapes stand for. -/
def short : List (ℕ × Char) :=
  [(0x22, '"'), (0x5c, '\\'), (0x08, 'b'), (0x0c, 'f'), (0x0a, 'n'), (0x0d, 'r'), (0x09, 't')]

def hex_digit (n : ℕ) : Char := "0123456789abcdef".toList.getD n '0'

/-- A code point in a string: only quotes, backslashes and control characters are escaped. -/
def escape (n : ℕ) : List Char :=
  match short.lookup n with
  | some c => ['\\', c]
  | none =>
    if n < 0x20 then ['\\', 'u', '0', '0', hex_digit (n / 16), hex_digit (n % 16)]
    else [.ofNat n]

def quote (s : Str) : List Char := '"' :: s.flatMap escape ++ ['"']

def newline (depth : ℕ) : List Char := '\n' :: List.replicate (2 * depth) ' '

mutual

def pretty (depth : ℕ) : Value → List Char
  | .null => ['n', 'u', 'l', 'l']
  | .bool true => ['t', 'r', 'u', 'e']
  | .bool false => ['f', 'a', 'l', 's', 'e']
  | .number literal => literal
  | .string s => quote s
  | .array [] => ['[', ']']
  | .array (v :: items) =>
    '[' :: newline (depth + 1) ++ pretty (depth + 1) v ++ pretty_items (depth + 1) items ++
      newline depth ++ [']']
  | .object [] => ['{', '}']
  | .object ((key, v) :: members) =>
    '{' :: newline (depth + 1) ++ quote key ++ [':', ' '] ++ pretty (depth + 1) v ++
      pretty_members (depth + 1) members ++ newline depth ++ ['}']

/-- The items of an array after the first one. -/
def pretty_items (depth : ℕ) : List Value → List Char
  | [] => []
  | v :: items => ',' :: newline depth ++ pretty depth v ++ pretty_items depth items

/-- The members of an object after the first one. -/
def pretty_members (depth : ℕ) : List (Str × Value) → List Char
  | [] => []
  | (key, v) :: members =>
    ',' :: newline depth ++ quote key ++ [':', ' '] ++ pretty depth v ++
      pretty_members depth members

end

/-- The string is of characters, with no half of a surrogate pair alone. -/
def Scalar (s : Str) : Prop := ∀ n ∈ s, n.isValidChar

/-- A value that a program can hold: its strings are of characters, its literals are numbers and
the members of its objects have different keys. -/
inductive Held : Value → Prop
  | null : Held .null
  | bool (b : Bool) : Held (.bool b)
  | number {literal : List Char} : Number literal → Held (.number literal)
  | string {s : Str} : Scalar s → Held (.string s)
  | array {items : List Value} : (∀ v ∈ items, Held v) → Held (.array items)
  | object {members : List (Str × Value)} : (members.map (·.1)).Nodup →
      (∀ m ∈ members, Scalar m.1) → (∀ m ∈ members, Held m.2) → Held (.object members)

/-! ## Strings -/

theorem mem_of_lookup {l : List (ℕ × Char)} {n : ℕ} {c : Char} (h : l.lookup n = some c) :
    (n, c) ∈ l := by
  obtain ⟨l₁, l₂, rfl, -⟩ := List.lookup_eq_some_iff.mp h
  simp

theorem escaped_of_short {n : ℕ} {c : Char} (h : short.lookup n = some c) :
    escaped c = some n := by
  have hall : ∀ e ∈ short, escaped e.2 = some e.1 := by decide
  exact hall _ (mem_of_lookup h)

theorem join_of_lt {s : Str} {n : ℕ} (h : n < 0x20) : join s n = s ++ [n] := by
  unfold join
  split
  · exact if_neg (by omega)
  · rename_i hnone
    rw [List.getLast?_eq_none_iff.mp hnone]
    rfl

theorem hex_number_of_lt {n : ℕ} (h : n < 0x20) :
    hex_number ['0', '0', hex_digit (n / 16), hex_digit (n % 16)] = some n := by
  have hall : ∀ n < 0x20,
      hex_number ['0', '0', hex_digit (n / 16), hex_digit (n % 16)] = some n := by decide
  exact hall n h

theorem quoted_escape {s : Str} (h : Scalar s) : Quoted s (s.flatMap escape) := by
  induction s using List.reverseRecOn with
  | nil => exact .nil
  | append_singleton s n ih =>
    have hquoted := ih fun m hm => h m (List.mem_append_left _ hm)
    rw [List.flatMap_append, List.flatMap_singleton]
    unfold escape
    rcases hshort : short.lookup n with _ | c
    · dsimp only
      split_ifs with hn
      · rw [← join_of_lt hn]
        exact hquoted.unicode rfl (hex_number_of_lt hn)
      · have hn' : (Char.ofNat n).toNat = n := by rw [Char.toNat_ofNat, if_pos (h n (by simp))]
        have hplain : Plain (Char.ofNat n) := by
          refine ⟨?_, ?_, by omega⟩
          · intro hc
            rw [hc] at hn'
            rw [← hn'] at hshort
            cases hshort
          · intro hc
            rw [hc] at hn'
            rw [← hn'] at hshort
            cases hshort
        have hchar := hquoted.plain hplain
        rwa [hn'] at hchar
    · exact hquoted.escape (escaped_of_short hshort)

/-! ## Arrays and objects -/

theorem blank_newline (depth : ℕ) : Blank (newline depth) := by
  intro c hc
  rcases List.mem_cons.mp hc with rfl | hc
  · rfl
  · rw [List.eq_of_mem_replicate hc]
    rfl

theorem upsert_of_not_mem {members : List (Str × Value)} {key : Str} (v : Value)
    (h : key ∉ members.map (·.1)) : upsert members key v = members ++ [(key, v)] := by
  induction members with
  | nil => rfl
  | cons m members ih =>
    rw [List.map_cons, List.mem_cons, not_or] at h
    rw [upsert, if_neg (Ne.symm h.1), ih h.2, List.cons_append]

theorem key_not_mem {members rest : List (Str × Value)} {key : Str} {v : Value}
    (h : ((members ++ (key, v) :: rest).map (·.1)).Nodup) : key ∉ members.map (·.1) := by
  rw [List.map_append, List.map_cons] at h
  exact fun hmem => (List.nodup_append.mp h).2.2 key hmem key List.mem_cons_self rfl

theorem derives_items {items rest : List Value} {v : Value} {t u w : List Char} {depth : ℕ}
    (ht : Derives (.items items) t) (hu : Derives (.value v) u)
    (hrest : ∀ x ∈ rest, Derives (.value x) (pretty depth x)) (hw : Blank w) :
    Derives (.value (.array (items ++ v :: rest)))
      ('[' :: t ++ u ++ pretty_items depth rest ++ w ++ [']']) := by
  induction rest generalizing items v t u with
  | nil => simpa [pretty_items] using ht.array hu hw
  | cons x rest ih =>
    rw [List.forall_mem_cons] at hrest
    have hitems := ht.item hu blank_nil (blank_newline depth)
    simpa [pretty_items] using ih hitems hrest.1 hrest.2

theorem derives_members {members rest : List (Str × Value)} {key : Str} {v : Value}
    {t u w : List Char} {depth : ℕ} (ht : Derives (.key members key) t)
    (hu : Derives (.value v) u) (hkeys : ((members ++ (key, v) :: rest).map (·.1)).Nodup)
    (hscalar : ∀ m ∈ rest, Scalar m.1)
    (hrest : ∀ m ∈ rest, Derives (.value m.2) (pretty depth m.2)) (hw : Blank w) :
    Derives (.value (.object (members ++ (key, v) :: rest)))
      ('{' :: t ++ u ++ pretty_members depth rest ++ w ++ ['}']) := by
  induction rest generalizing members key v t u with
  | nil =>
    rw [← upsert_of_not_mem v (key_not_mem hkeys)]
    simpa [pretty_members] using ht.object hu hw
  | cons m rest ih =>
    obtain ⟨key', v'⟩ := m
    rw [List.forall_mem_cons] at hscalar hrest
    have hmembers := ht.member hu blank_nil (blank_newline depth)
    rw [upsert_of_not_mem v (key_not_mem hkeys)] at hmembers
    have hkey := hmembers.key (quoted_escape hscalar.1) blank_nil
      (blank_singleton (c := ' ') rfl)
    have hrest := ih hkey hrest.1 (by simpa using hkeys) hscalar.2 hrest.2
    simpa [pretty_members, quote] using hrest

/-- A pretty-printed value is a text of the value. -/
theorem derives_pretty {v : Value} (h : Held v) (depth : ℕ) :
    Derives (.value v) (pretty depth v) := by
  induction h generalizing depth with
  | null => exact .null
  | bool b =>
    cases b with
    | false => exact .false
    | true => exact .true
  | number hn => exact .number hn
  | string hs => exact .string (quoted_escape hs)
  | @array items hitems ih =>
    cases items with
    | nil => exact .empty_array blank_nil
    | cons v items =>
      have ht : Derives (.items []) (newline (depth + 1)) := .no_items (blank_newline _)
      have hu := ih v List.mem_cons_self (depth + 1)
      have hrest := fun x hx => ih x (List.mem_cons_of_mem v hx) (depth + 1)
      simpa [pretty] using derives_items ht hu hrest (blank_newline depth)
  | @object members hkeys hscalar hmembers ih =>
    cases members with
    | nil => exact .empty_object blank_nil
    | cons m members =>
      obtain ⟨key, v⟩ := m
      rw [List.forall_mem_cons] at hscalar
      have ht : Derives (.members []) (newline (depth + 1)) := .no_members (blank_newline _)
      have hkey := ht.key (quoted_escape hscalar.1) blank_nil (blank_singleton (c := ' ') rfl)
      have hu := ih (key, v) List.mem_cons_self (depth + 1)
      have hrest := fun x hx => ih x (List.mem_cons_of_mem _ hx) (depth + 1)
      simpa [pretty, quote] using
        derives_members hkey hu hkeys hscalar.2 hrest (blank_newline depth)

theorem loads_pretty {v : Value} (h : Held v) {w : List Char} (hw : Blank w) :
    loads (pretty 0 v ++ w) = some v :=
  loads_eq_some.mpr ⟨[], pretty 0 v, w, rfl, blank_nil, derives_pretty h 0, hw⟩

/-! ## The shape of the texts -/

theorem pretty_object (depth : ℕ) (members : List (Str × Value)) :
    ∃ t, pretty depth (.object members) = '{' :: t ++ ['}'] := by
  rcases members with _ | ⟨⟨key, v⟩, members⟩
  · exact ⟨[], rfl⟩
  · exact ⟨_, by rw [pretty, List.cons_append, List.cons_append, List.cons_append,
      List.cons_append, List.cons_append]⟩

theorem return_not_mem_escape (n : ℕ) : '\r' ∉ escape n := by
  unfold escape
  rcases hshort : short.lookup n with _ | c
  · dsimp only
    split_ifs with hn
    · have hall : ∀ n < 0x20,
          '\r' ∉ ['\\', 'u', '0', '0', hex_digit (n / 16), hex_digit (n % 16)] := by decide
      exact hall n hn
    · rw [List.mem_singleton]
      intro hc
      have htoNat : (Char.ofNat n).toNat = 0x0d := by rw [← hc]; rfl
      rw [Char.toNat_ofNat] at htoNat
      split_ifs at htoNat
      · omega
  · have hall : ∀ e ∈ short, '\r' ∉ ['\\', e.2] := by decide
    exact hall _ (mem_of_lookup hshort)

theorem return_not_mem_quote (s : Str) : '\r' ∉ quote s := by
  simp [quote, return_not_mem_escape]

theorem return_not_mem_newline (depth : ℕ) : '\r' ∉ newline depth := by simp [newline]

theorem return_not_mem_number {literal : List Char} {p : Part} (h : part literal = some p) :
    '\r' ∉ literal := by
  induction literal using List.reverseRecOn generalizing p with
  | nil => cases h
  | append_singleton literal c ih =>
    have hc : c ≠ '\r' := by
      rintro rfl
      rcases literal with _ | ⟨c, literal⟩
      · cases h
      · rw [part_concat (List.cons_ne_nil c literal)] at h
        obtain ⟨p₁, -, hnext⟩ := Option.bind_eq_some_iff.mp h
        rw [part_next_of_follows (by decide)] at hnext
        cases hnext
    rcases literal with _ | ⟨c', literal⟩
    · simpa using hc.symm
    · rw [part_concat (List.cons_ne_nil c' literal)] at h
      obtain ⟨p₁, hpart, -⟩ := Option.bind_eq_some_iff.mp h
      rw [List.mem_append, not_or]
      exact ⟨ih hpart, by simpa using hc.symm⟩

theorem return_not_mem_items {items : List Value} {depth : ℕ}
    (h : ∀ v ∈ items, '\r' ∉ pretty depth v) : '\r' ∉ pretty_items depth items := by
  induction items with
  | nil => simp [pretty_items]
  | cons v items ih =>
    rw [List.forall_mem_cons] at h
    simp [pretty_items, return_not_mem_newline, h.1, ih h.2]

theorem return_not_mem_members {members : List (Str × Value)} {depth : ℕ}
    (h : ∀ m ∈ members, '\r' ∉ pretty depth m.2) : '\r' ∉ pretty_members depth members := by
  induction members with
  | nil => simp [pretty_members]
  | cons m members ih =>
    rw [List.forall_mem_cons] at h
    simp [pretty_members, return_not_mem_newline, return_not_mem_quote, h.1, ih h.2]

/-- Every carriage return of a string is escaped, so the lines of the text end in newlines. -/
theorem return_not_mem_pretty {v : Value} (h : Held v) (depth : ℕ) : '\r' ∉ pretty depth v := by
  induction h generalizing depth with
  | null => simp [pretty]
  | bool b => cases b <;> simp [pretty]
  | number hn =>
    obtain ⟨p, hp, -⟩ := hn
    exact return_not_mem_number hp
  | string hs => exact return_not_mem_quote _
  | @array items hitems ih =>
    cases items with
    | nil => simp [pretty]
    | cons v items =>
      have hv := ih v List.mem_cons_self (depth + 1)
      have hrest := return_not_mem_items fun x hx => ih x (List.mem_cons_of_mem v hx) (depth + 1)
      simp [pretty, return_not_mem_newline, hv, hrest]
  | @object members hkeys hscalar hmembers ih =>
    cases members with
    | nil => simp [pretty]
    | cons m members =>
      have hm := ih m List.mem_cons_self (depth + 1)
      have hrest := return_not_mem_members fun x hx =>
        ih x (List.mem_cons_of_mem m hx) (depth + 1)
      simp [pretty, return_not_mem_newline, return_not_mem_quote, hm, hrest]

end json
