-- The file of the ordered certificates. A node writes them one after the other (`analyze2` in
-- `node/src/main.rs`) and the extractor reads them back (`iter_json_objects` in
-- `extract_batches_from_ordered_certs.py`), also from a file that is not written to its end.
import Mathlib
import Sailfish.Extractor
import Sailfish.Lib.PrettyJson

open json

namespace sailfish.extractor

/-! ## Writing and reading -/

/-- A `serde_json::Value` that is an object. -/
structure Object where
  members : List (Str × Value)
  held : Held (.object members)

def Object.value (o : Object) : Value := .object o.members

section

-- `serde_json::to_string_pretty`, on objects.
variable (to_string_pretty : Object → List Char)

/-- What `analyze2` writes into the file: `writeln!` for the object of each certificate. -/
def cert_file (objs : List Object) : List Char := objs.flatMap fun o => to_string_pretty o ++ ['\n']

/-- The text of the object at an index is complete in the first part of the file. -/
def Complete (objs : List Object) (text : List Char) (k : ℕ) : Prop :=
  ∃ o, objs[k]? = some o ∧ cert_file to_string_pretty (objs.take k) ++ to_string_pretty o <+: text

/-- What the crate writes is a JSON text of the object, from brace to brace. Control characters are
escaped in it, so that it has no carriage return. -/
structure Pretty : Prop where
  braces : ∀ o, ∃ t, to_string_pretty o = '{' :: t ++ ['}']
  reads : ∀ o w, Blank w → loads (to_string_pretty o ++ w) = some o.value
  no_return : ∀ o, '\r' ∉ to_string_pretty o

end

/-- The newlines of a file that is opened as text. -/
def universal_newlines : List Char → List Char
  | [] => []
  | c :: text =>
    if c ≠ '\r' then c :: universal_newlines text
    else if text.head? = some '\n' then universal_newlines text
    else '\n' :: universal_newlines text

/-- The lines of a file, each with its newline, which the last one may lack. -/
def lines : List Char → List (List Char)
  | [] => []
  | c :: text =>
    if c = '\n' then [c] :: lines text
    else
      match lines text with
      | [] => [[c]]
      | line :: rest => (c :: line) :: rest

structure Reader where
  buf : List Char
  yielded : List Value

/-- One turn of the loop. `json.loads` is taken to accept JSON texts alone: it also knows the words
`NaN` and `Infinity`, which no writer of JSON gives. -/
def Reader.read_line (s : Reader) (line : List Char) : Reader :=
  if s.buf = [] ∧ strip (.ofList line) = "" then s
  else
    match loads (s.buf ++ line) with
    | some obj => { buf := [], yielded := s.yielded ++ [obj] }
    | none => { s with buf := s.buf ++ line }

/-- The objects, and the `ValueError` after them, if one is raised. -/
def iter_json_objects (path : String) (text : List Char) : List Value × Option String :=
  let s := (lines (universal_newlines text)).foldl Reader.read_line { buf := [], yielded := [] }
  if strip (.ofList s.buf) ≠ "" then
    (s.yielded, some ("Incomplete JSON object at end of file: " ++ path))
  else (s.yielded, none)

variable {to_string_pretty : Object → List Char} {o : Object} {objs : List Object}
  {t text : List Char} {ys : List Value}

/-! ## Lines -/

theorem universal_newlines_eq (h : '\r' ∉ text) : universal_newlines text = text := by
  induction text with
  | nil => rfl
  | cons c text ih =>
    rw [List.mem_cons, not_or] at h
    rw [universal_newlines, if_pos (Ne.symm h.1), ih h.2]

theorem flatten_lines (text : List Char) : (lines text).flatten = text := by
  induction text with
  | nil => rfl
  | cons c text ih =>
    rw [lines]
    split_ifs
    · rw [List.flatten_cons, ih]
      rfl
    · split
      · rename_i hnil
        rw [hnil] at ih
        rw [← ih]
        rfl
      · rename_i line rest hcons
        rw [hcons] at ih
        rw [← ih]
        rfl

theorem ne_nil_of_mem_lines {line : List Char} (h : line ∈ lines text) : line ≠ [] := by
  induction text generalizing line with
  | nil => cases h
  | cons c text ih =>
    rw [lines] at h
    split_ifs at h
    · rcases List.mem_cons.mp h with rfl | h
      · exact List.cons_ne_nil _ _
      · exact ih h
    · split at h
      · rw [List.mem_singleton.mp h]
        exact List.cons_ne_nil _ _
      · rename_i line' rest hcons
        rcases List.mem_cons.mp h with rfl | h
        · exact List.cons_ne_nil _ _
        · exact ih (hcons ▸ List.mem_cons_of_mem line' h)

theorem lines_ne_nil (h : text ≠ []) : lines text ≠ [] := by
  intro hnil
  have hflatten := flatten_lines text
  rw [hnil] at hflatten
  exact h hflatten.symm

/-- A newline ends a line. -/
theorem lines_append (t text : List Char) :
    lines (t ++ '\n' :: text) = lines (t ++ ['\n']) ++ lines text := by
  induction t with
  | nil => rfl
  | cons c t ih =>
    rw [List.cons_append, List.cons_append, lines, lines, ih]
    split_ifs
    · rfl
    · have hne : lines (t ++ ['\n']) ≠ [] := lines_ne_nil (by simp)
      rcases hlines : lines (t ++ ['\n']) with _ | ⟨line, rest⟩
      · exact absurd hlines hne
      · rfl

/-- The newline after a text belongs to its last line. -/
theorem lines_concat {c : Char} (hc : c ≠ '\n') (t : List Char) :
    ∃ ls line, lines (t ++ [c]) = ls ++ [line] ∧
      lines (t ++ [c] ++ ['\n']) = ls ++ [line ++ ['\n']] := by
  induction t with
  | nil =>
    refine ⟨[], [c], ?_, ?_⟩
    · simp [lines, hc]
    · simp [lines, hc]
  | cons d t ih =>
    obtain ⟨ls, line, h, h'⟩ := ih
    rw [List.cons_append, List.cons_append, lines, lines, h, h']
    split_ifs
    · exact ⟨[d] :: ls, line, rfl, rfl⟩
    · rcases ls with _ | ⟨first, ls⟩
      · exact ⟨[], d :: line, rfl, rfl⟩
      · exact ⟨(d :: first) :: ls, line, rfl, rfl⟩

theorem strip_ne_empty {c : Char} (hc : is_space c = false) (text : List Char) :
    strip (.ofList (c :: text)) ≠ "" := by
  intro h
  have hnil := congrArg String.toList h
  rw [strip, String.toList_ofList, String.toList_ofList, List.dropWhile_cons, hc] at hnil
  simp only [List.reverse_eq_nil_iff, List.dropWhile_eq_nil_iff, String.toList_empty] at hnil
  have hall := hnil c (by simp)
  rw [hc] at hall
  cases hall

/-! ## The text of an object -/

/-- No part of the text that begins where it does is a JSON text. -/
def Partial (t : List Char) : Prop :=
  ∀ u, u ≠ [] → u <+: t → u.head? = some '{' ∧ loads u = none

theorem Partial.mono {u : List Char} (h : Partial t) (hu : u <+: t) : Partial u :=
  fun x hx hxu => h x hx (hxu.trans hu)

/-- A text is read as the object, and none of its proper parts as anything. -/
theorem Pretty.partial_of_append (hp : Pretty to_string_pretty) {u x : List Char}
    (h : to_string_pretty o = u ++ x) (hx : x ≠ []) : Partial u := by
  intro y hy hyu
  obtain ⟨z, rfl⟩ := hyu
  obtain ⟨t, ht⟩ := hp.braces o
  rw [h] at ht
  obtain ⟨d, y, rfl⟩ := List.exists_cons_of_ne_nil hy
  obtain rfl : d = '{' := (List.cons.inj ht).1
  refine ⟨rfl, ?_⟩
  rcases hloads : loads ('{' :: y) with _ | v
  · rfl
  · have hobject := hp.reads o [] blank_nil
    rw [List.append_nil, h, List.append_assoc] at hobject
    have hblank := blank_of_loads hloads hobject
    obtain ⟨x, c, rfl⟩ := List.eq_nil_or_concat' x |>.resolve_left hx
    rw [← List.append_assoc] at ht
    have hc : c = '}' := by
      have := (List.append_inj' ht rfl).2
      simpa using this
    have := hblank c (by simp)
    rw [hc] at this
    cases this

theorem Pretty.return_not_mem (hp : Pretty to_string_pretty) (objs : List Object) :
    '\r' ∉ cert_file to_string_pretty objs := by
  unfold cert_file
  simp only [List.mem_flatMap, List.mem_append, not_exists, not_and, not_or]
  exact fun o _ => ⟨hp.no_return o, by decide⟩

/-! ## Reading -/

/-- A line that goes on with an object, or begins one, is not skipped. -/
theorem not_skipped {buf line : List Char} (h : (buf ++ line).head? = some '{') :
    ¬ (buf = [] ∧ strip (.ofList line) = "") := by
  rintro ⟨rfl, hblank⟩
  rcases line with _ | ⟨c, line⟩
  · cases h
  · obtain rfl : c = '{' := Option.some.inj h
    exact strip_ne_empty rfl line hblank

theorem read_partial (ys : List Value) {ls : List (List Char)} (hne : ∀ line ∈ ls, line ≠ [])
    (h : Partial ls.flatten) :
    ls.foldl Reader.read_line { buf := [], yielded := ys } =
      { buf := ls.flatten, yielded := ys } := by
  induction ls using List.reverseRecOn with
  | nil => rfl
  | append_singleton ls line ih =>
    rw [List.flatten_concat] at h ⊢
    have hline : line ≠ [] := hne line (by simp)
    obtain ⟨hhead, hloads⟩ := h (ls.flatten ++ line) (by simp [hline]) List.prefix_rfl
    rw [List.foldl_append, List.foldl_cons, List.foldl_nil,
      ih (fun l hl => hne l (List.mem_append_left _ hl)) (h.mono (List.prefix_append _ _)),
      Reader.read_line, if_neg (not_skipped hhead)]
    dsimp only
    rw [hloads]

/-- The last line of an object, and the newline after it, complete the object. -/
theorem Pretty.read_object (hp : Pretty to_string_pretty) (ys : List Value)
    {ls : List (List Char)} {line w : List Char} (hne : ∀ l ∈ ls, l ≠ []) (hline : line ≠ [])
    (h : to_string_pretty o = ls.flatten ++ line) (hw : Blank w) :
    (ls ++ [line ++ w]).foldl Reader.read_line { buf := [], yielded := ys } =
      { buf := [], yielded := ys ++ [o.value] } := by
  obtain ⟨t, ht⟩ := hp.braces o
  have htext : ls.flatten ++ (line ++ w) = to_string_pretty o ++ w := by
    rw [← List.append_assoc, ← h]
  have hhead : (ls.flatten ++ (line ++ w)).head? = some '{' := by
    rw [htext, ht]
    rfl
  rw [List.foldl_append, List.foldl_cons, List.foldl_nil,
    read_partial ys hne (hp.partial_of_append h hline), Reader.read_line, if_neg (not_skipped hhead)]
  dsimp only
  rw [htext, hp.reads o w hw]

/-- The lines of an object, with or without the newline after it. -/
theorem Pretty.read_lines_object (hp : Pretty to_string_pretty) (o : Object) (ys : List Value) :
    (lines (to_string_pretty o)).foldl Reader.read_line { buf := [], yielded := ys } =
        { buf := [], yielded := ys ++ [o.value] } ∧
      (lines (to_string_pretty o ++ ['\n'])).foldl Reader.read_line { buf := [], yielded := ys } =
        { buf := [], yielded := ys ++ [o.value] } := by
  obtain ⟨t, ht⟩ := hp.braces o
  obtain ⟨ls, line, hlines, hlines'⟩ := lines_concat (c := '}') (by decide) ('{' :: t)
  rw [← ht] at hlines hlines'
  have hne : ∀ l ∈ ls ++ [line], l ≠ [] := fun l hl => ne_nil_of_mem_lines (hlines ▸ hl)
  rw [List.forall_mem_append] at hne
  have hline : line ≠ [] := hne.2 line List.mem_cons_self
  have hflatten : to_string_pretty o = ls.flatten ++ line := by
    rw [← List.flatten_concat, ← hlines, flatten_lines]
  rw [hlines, hlines']
  constructor
  · simpa using hp.read_object ys hne.1 hline hflatten blank_nil
  · exact hp.read_object ys hne.1 hline hflatten (blank_singleton rfl)

/-! ## The law -/

theorem cert_file_cons (o : Object) (objs : List Object) :
    cert_file to_string_pretty (o :: objs) =
      to_string_pretty o ++ '\n' :: cert_file to_string_pretty objs := by
  unfold cert_file
  rw [List.flatMap_cons, List.append_assoc]
  rfl

theorem complete_zero :
    Complete to_string_pretty (o :: objs) text 0 ↔ to_string_pretty o <+: text := by
  simp [Complete, cert_file]

theorem complete_succ {k : ℕ} :
    Complete to_string_pretty (o :: objs) (to_string_pretty o ++ '\n' :: text) (k + 1) ↔
      Complete to_string_pretty objs text k := by
  unfold Complete
  simp only [List.getElem?_cons_succ, List.take_succ_cons, cert_file_cons, List.append_assoc,
    List.cons_append, List.prefix_append_right_inj, List.prefix_cons_inj]

/-- No object is complete before the first one is, and no later one before the newline is there. -/
theorem length_le_of_complete {k : ℕ} (h : Complete to_string_pretty (o :: objs) text k) :
    (to_string_pretty o).length + min k 1 ≤ text.length := by
  cases k with
  | zero => exact (complete_zero.mp h).length_le
  | succ k =>
    obtain ⟨o', -, h⟩ := h
    rw [List.take_succ_cons, cert_file_cons] at h
    have hlength := h.length_le
    simp only [List.length_append, List.length_cons] at hlength
    omega

/-- The buffer holds what is left after the complete objects. -/
theorem Pretty.read_lines (hp : Pretty to_string_pretty) (objs : List Object) (m : ℕ)
    (ys : List Value) :
    let file := cert_file to_string_pretty
    ∃ n, (∀ k, Complete to_string_pretty objs ((file objs).take m) k ↔ k < n) ∧
      (lines ((file objs).take m)).foldl Reader.read_line { buf := [], yielded := ys } =
        { buf := ((file objs).take m).drop (file (objs.take n)).length
          yielded := ys ++ (objs.take n).map Object.value } := by
  dsimp only
  induction objs generalizing m ys with
  | nil =>
    refine ⟨0, ?_, ?_⟩
    · simp [Complete]
    · simp [cert_file, lines]
  | cons o objs ih =>
    rw [cert_file_cons]
    rcases Nat.lt_trichotomy m (to_string_pretty o).length with hm | rfl | hm
    · -- The text ends inside the first object.
      rw [List.take_append_of_le_length hm.le]
      refine ⟨0, ?_, ?_⟩
      · intro k
        refine iff_of_false ?_ (Nat.not_lt_zero k)
        intro hk
        have hlength := length_le_of_complete hk
        rw [List.length_take] at hlength
        omega
      · have hdrop : (to_string_pretty o).drop m ≠ [] := by
          rw [Ne, List.drop_eq_nil_iff]
          omega
        have hpartial : Partial ((to_string_pretty o).take m) :=
          hp.partial_of_append (List.take_append_drop m _).symm hdrop
        have hread := read_partial ys (fun _ => ne_nil_of_mem_lines)
          (by rwa [flatten_lines])
        rw [hread, flatten_lines]
        simp [cert_file]
    · -- The text ends after the first object, before its newline.
      rw [List.take_left]
      refine ⟨1, ?_, ?_⟩
      · intro k
        cases k with
        | zero => simp [complete_zero]
        | succ k =>
          refine iff_of_false ?_ (by omega)
          intro hk
          have hlength := length_le_of_complete hk
          omega
      · rw [(hp.read_lines_object o ys).1]
        simp [cert_file_cons]
    · obtain ⟨m, rfl⟩ : ∃ m', m = (to_string_pretty o).length + (m' + 1) :=
        ⟨m - (to_string_pretty o).length - 1, by omega⟩
      obtain ⟨n, hn, hread⟩ := ih m (ys ++ [o.value])
      rw [List.take_length_add_append, List.take_succ_cons]
      refine ⟨n + 1, ?_, ?_⟩
      · intro k
        cases k with
        | zero => simp [complete_zero]
        | succ k => rw [complete_succ, hn, Nat.succ_lt_succ_iff]
      · rw [lines_append, List.foldl_append, (hp.read_lines_object o ys).2, hread,
          List.take_succ_cons, cert_file_cons, List.length_append, List.drop_length_add_append]
        simp

/-- From the file, cut anywhere, the extractor reads the objects whose texts are complete, in order,
and raises an error just when something other than whitespace is left. -/
theorem reading_undoes_writing (to_string_pretty : Object → List Char)
    (hp : Pretty to_string_pretty) (path : String) (objs : List Object) (m : ℕ) :
    let file := cert_file to_string_pretty
    ∃ n, (∀ k, Complete to_string_pretty objs ((file objs).take m) k ↔ k < n) ∧
      (iter_json_objects path ((file objs).take m)).1 = (objs.take n).map Object.value ∧
      (iter_json_objects path ((file objs).take m)).2 =
        if strip (.ofList (((file objs).take m).drop (file (objs.take n)).length)) = "" then none
        else some ("Incomplete JSON object at end of file: " ++ path) := by
  intro file
  obtain ⟨n, hn, hread⟩ := hp.read_lines objs m []
  have hreturn : '\r' ∉ (file objs).take m :=
    fun hmem => hp.return_not_mem objs (List.mem_of_mem_take hmem)
  refine ⟨n, hn, ?_⟩
  unfold iter_json_objects
  rw [universal_newlines_eq hreturn, hread]
  dsimp only
  rw [List.nil_append]
  generalize strip (.ofList (((file objs).take m).drop (file (objs.take n)).length)) = left
  by_cases hleft : left = ""
  · rw [if_neg (not_not.mpr hleft), if_pos hleft]
    exact ⟨rfl, rfl⟩
  · rw [if_pos hleft, if_neg hleft]
    exact ⟨rfl, rfl⟩

/-- The writer of the library is lawful. -/
theorem pretty_pretty : Pretty fun o => pretty 0 o.value where
  braces := fun o => pretty_object 0 o.members
  reads := fun o _ hw => loads_pretty o.held hw
  no_return := fun o => return_not_mem_pretty o.held 0

/-- The object without members. -/
def empty_object : Object where
  members := []
  held := .object List.nodup_nil (fun _ h => nomatch h) fun _ h => nomatch h

/-- Two objects in a file that is cut after the first brace of the second one. -/
theorem reading_undoes_writing_pretty :
    iter_json_objects "f" "\x7b\x7d\n\x7b".toList =
      ([.object []], some "Incomplete JSON object at end of file: f") := by
  obtain ⟨n, hn, hread, herror⟩ := reading_undoes_writing (fun o => pretty 0 o.value)
    pretty_pretty "f" [empty_object, empty_object] 4
  have hfirst : 0 < n := (hn 0).mp (complete_zero.mpr (by decide))
  have hsecond : ¬ 1 < n := by
    intro h
    have hprefix := complete_zero.mp (complete_succ.mp ((hn 1).mpr h))
    revert hprefix
    decide
  obtain rfl : n = 1 := by omega
  exact Prod.ext hread (herror.trans (by decide))

end sailfish.extractor
