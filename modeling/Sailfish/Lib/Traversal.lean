-- The traversal of a graph with a stack and a set of keys seen so far: pop a
-- node, then push each of its next nodes whose key is new. Nodes with the same
-- key are pushed once.
import Mathlib

namespace traversal

variable {α κ : Type*} [DecidableEq κ] {next : α → List α} {key : α → κ}

/-- Pushes the nodes of a list whose keys are new, one after the other. -/
def push (key : α → κ) (stack : List α) (seen : List κ) : List α → List α × List κ
  | [] => (stack, seen)
  | a :: rest =>
    if key a ∈ seen then push key stack seen rest else push key (a :: stack) (key a :: seen) rest

/-- The nodes that the traversal pops, in order, with at most `n` turns of the loop. -/
def walk (next : α → List α) (key : α → κ) : ℕ → List α → List κ → List α
  | 0, _, _ => []
  | _, [], _ => []
  | n + 1, x :: stack, seen =>
    let (stack, seen) := push key stack seen (next x)
    x :: walk next key n stack seen

/-- A traversal that ends with an empty stack. -/
inductive Walk (next : α → List α) (key : α → κ) : List α → List κ → List α → Prop
  | done {seen : List κ} : Walk next key [] seen []
  | pop {x : α} {stack : List α} {seen : List κ} {out : List α} :
      Walk next key (push key stack seen (next x)).1 (push key stack seen (next x)).2 out →
      Walk next key (x :: stack) seen (x :: out)

/-! ## The nodes that a turn pushes -/

/-- The nodes of a list whose keys are new, the first one of each key. -/
def fresh (key : α → κ) (seen : List κ) : List α → List α
  | [] => []
  | a :: rest => if key a ∈ seen then fresh key seen rest else a :: fresh key (key a :: seen) rest

theorem push_eq (stack : List α) (seen : List κ) (l : List α) :
    push key stack seen l =
      ((fresh key seen l).reverse ++ stack, ((fresh key seen l).map key).reverse ++ seen) := by
  induction l generalizing stack seen with
  | nil => rfl
  | cons a rest ih =>
    unfold push fresh
    split
    · exact ih stack seen
    · rw [ih]; simp

theorem mem_of_mem_fresh {seen : List κ} {l : List α} {a : α} (h : a ∈ fresh key seen l) :
    a ∈ l ∧ key a ∉ seen := by
  induction l generalizing seen with
  | nil => simp [fresh] at h
  | cons b rest ih =>
    unfold fresh at h
    split at h
    · obtain ⟨hm, hn⟩ := ih h
      exact ⟨List.mem_cons_of_mem _ hm, hn⟩
    · rename_i hb
      rcases List.mem_cons.mp h with rfl | h
      · exact ⟨List.mem_cons_self, hb⟩
      · obtain ⟨hm, hn⟩ := ih h
        exact ⟨List.mem_cons_of_mem _ hm, fun hs => hn (List.mem_cons_of_mem _ hs)⟩

theorem nodup_map_fresh (seen : List κ) (l : List α) : ((fresh key seen l).map key).Nodup := by
  induction l generalizing seen with
  | nil => simp [fresh]
  | cons a rest ih =>
    unfold fresh
    split
    · exact ih seen
    · rw [List.map_cons, List.nodup_cons]
      refine ⟨?_, ih _⟩
      intro hm
      obtain ⟨b, hb, hk⟩ := List.mem_map.mp hm
      exact (mem_of_mem_fresh hb).2 (hk ▸ List.mem_cons_self)

/-- After a turn, the keys of all the nodes of the list are seen. -/
theorem key_mem_of_mem {seen : List κ} {l : List α} {a : α} (h : a ∈ l) :
    key a ∈ seen ∨ ∃ b ∈ fresh key seen l, key b = key a := by
  induction l generalizing seen with
  | nil => cases h
  | cons b rest ih =>
    unfold fresh
    rcases List.mem_cons.mp h with rfl | h
    · split
      · exact Or.inl ‹_›
      · exact Or.inr ⟨a, List.mem_cons_self, rfl⟩
    · split
      · exact ih h
      · have hb : key a ∈ key b :: seen ∨ ∃ c ∈ fresh key (key b :: seen) rest, key c = key a := ih h
        rcases hb with hs | ⟨c, hc, hk⟩
        · rcases List.mem_cons.mp hs with hk | hs
          · exact Or.inr ⟨b, List.mem_cons_self, hk.symm⟩
          · exact Or.inl hs
        · exact Or.inr ⟨c, List.mem_cons_of_mem _ hc, hk⟩

theorem mem_fresh_nil {l : List α} {a : α} (h : a ∈ l) : ∃ b ∈ fresh key [] l, key b = key a :=
  (key_mem_of_mem h).resolve_left List.not_mem_nil

theorem fresh_cons (seen : List κ) (a : α) (l : List α) : fresh key seen (a :: l) =
    if key a ∈ seen then fresh key seen l else a :: fresh key (key a :: seen) l := rfl

theorem fresh_append (seen : List κ) (l l' : List α) : fresh key seen (l ++ l') =
    fresh key seen l ++ fresh key (((fresh key seen l).map key).reverse ++ seen) l' := by
  induction l generalizing seen with
  | nil => rfl
  | cons a l ih =>
    rw [List.cons_append, fresh_cons, fresh_cons]
    by_cases h : key a ∈ seen
    · rw [if_pos h, if_pos h]
      exact ih seen
    · rw [if_neg h, if_neg h, ih]
      simp

/-- When the first `m` fresh nodes have the keys of all nodes before `a`, but not the one of `a`,
then `a` is the next fresh node. -/
theorem fresh_getElem? {done rest : List α} {a : α} {m : ℕ}
    (hdone : ∀ b ∈ done, key b ∈ ((fresh key [] (done ++ a :: rest)).take m).map key)
    (ha : key a ∉ ((fresh key [] (done ++ a :: rest)).take m).map key) :
    (fresh key [] (done ++ a :: rest))[m]? = some a := by
  have hnodup : ((fresh key [] (done ++ a :: rest)).map key).Nodup := nodup_map_fresh [] _
  set first := fresh key [] done with hfirst
  have hnew : key a ∉ (first.map key).reverse ++ [] := by
    rw [List.append_nil, List.mem_reverse]
    intro hm
    obtain ⟨b, hb, heq⟩ := List.mem_map.mp hm
    exact ha (heq ▸ hdone b (mem_of_mem_fresh hb).1)
  have hsplit : fresh key [] (done ++ a :: rest) =
      first ++ a :: fresh key (key a :: ((first.map key).reverse ++ [])) rest := by
    rw [fresh_append, fresh_cons, if_neg hnew]
  rw [hsplit] at hdone ha hnodup ⊢
  have hm : m = first.length := by
    apply Nat.le_antisymm
    · by_contra hlt
      apply ha
      rw [List.take_append, List.map_append, List.mem_append]
      right
      obtain ⟨n, hn⟩ := Nat.exists_eq_succ_of_ne_zero (show m - first.length ≠ 0 by omega)
      rw [hn, List.take_succ_cons]
      exact List.mem_cons_self
    · by_contra hlt
      have hlt : m < first.length := by omega
      have hmem := hdone _ (mem_of_mem_fresh (List.getElem_mem hlt)).1
      rw [← List.take_append_drop m (first ++ _), List.map_append, List.nodup_append] at hnodup
      apply hnodup.2.2 _ hmem (key first[m]) _ rfl
      rw [List.drop_append_of_le_length (Nat.le_of_lt hlt), List.drop_eq_getElem_cons hlt]
      exact List.mem_cons_self
  rw [hm]
  simp

/-! ## The loop ends -/

/-- Each turn pops one node, and pushes a node only with a new key. So the loop ends after
as many turns as there are nodes on the stack and keys not seen yet. -/
theorem walk_spec (U : Finset κ) (hU : ∀ x, ∀ a ∈ next x, key a ∈ U) {n : ℕ} {stack : List α}
    {seen : List κ} (h : stack.length + (U.filter (· ∉ seen)).card ≤ n) :
    Walk next key stack seen (walk next key n stack seen) := by
  induction n generalizing stack seen with
  | zero =>
    have hs : stack = [] := List.length_eq_zero_iff.mp (by omega)
    subst hs
    exact .done
  | succ n ih =>
    cases stack with
    | nil => exact .done
    | cons x stack =>
      unfold walk
      refine .pop (ih ?_)
      rw [push_eq]
      set new := fresh key seen (next x)
      have hsplit : (U.filter (· ∉ seen)).card =
          (new.map key).length + (U.filter (· ∉ (new.map key).reverse ++ seen)).card := by
        rw [← List.toFinset_card_of_nodup (nodup_map_fresh seen (next x)),
          ← Finset.card_union_of_disjoint]
        · congr 1
          ext k
          simp only [Finset.mem_filter, Finset.mem_union, List.mem_toFinset, List.mem_append,
            List.mem_reverse, not_or]
          constructor
          · rintro ⟨hk, hn⟩
            by_cases hm : k ∈ new.map key
            · exact Or.inl hm
            · exact Or.inr ⟨hk, hm, hn⟩
          · rintro (hm | ⟨hk, -, hn⟩)
            · obtain ⟨a, ha, rfl⟩ := List.mem_map.mp hm
              obtain ⟨hl, hn⟩ := mem_of_mem_fresh ha
              exact ⟨hU x a hl, hn⟩
            · exact ⟨hk, hn⟩
        · rw [Finset.disjoint_left]
          intro k hk hn
          simp only [Finset.mem_filter, List.mem_append, List.mem_reverse, not_or] at hn
          exact hn.2.1 (List.mem_toFinset.mp hk)
      simp only [List.length_cons, List.length_append, List.length_reverse, List.length_map]
        at h hsplit ⊢
      omega

/-! ## The nodes that a traversal pops -/

theorem Walk.mem_of_mem_stack {stack out : List α} {seen : List κ}
    (h : Walk next key stack seen out) {a : α} (ha : a ∈ stack) : a ∈ out := by
  induction h with
  | done => cases ha
  | @pop x stack seen out _ ih =>
    rcases List.mem_cons.mp ha with rfl | ha
    · exact List.mem_cons_self
    · apply List.mem_cons_of_mem
      apply ih
      rw [push_eq]
      exact List.mem_append_right _ ha

/-- Every node popped is reached from a node of the stack. -/
theorem Walk.reachable {stack out : List α} {seen : List κ} (h : Walk next key stack seen out)
    {a : α} (ha : a ∈ out) : ∃ s ∈ stack, Relation.ReflTransGen (fun x y => y ∈ next x) s a := by
  induction h with
  | done => cases ha
  | @pop x stack seen out _ ih =>
    rcases List.mem_cons.mp ha with rfl | ha
    · exact ⟨a, List.mem_cons_self, .refl⟩
    · obtain ⟨s, hs, hr⟩ := ih ha
      rw [push_eq, List.mem_append, List.mem_reverse] at hs
      rcases hs with hs | hs
      · exact ⟨x, List.mem_cons_self, .head (mem_of_mem_fresh hs).1 hr⟩
      · exact ⟨s, List.mem_cons_of_mem _ hs, hr⟩

section Closed

/-! A set `R` of nodes with distinct keys that is closed under `next`. -/

variable {R : Set α} (hR : ∀ x ∈ R, ∀ a ∈ next x, a ∈ R)
  (hkey : ∀ a ∈ R, ∀ b ∈ R, key a = key b → a = b)

include hR

/-- The stack stays in `R`. -/
theorem push_subset {x : α} {stack : List α} {seen : List κ} (hx : x ∈ R)
    (hs : ∀ a ∈ stack, a ∈ R) : ∀ a ∈ (push key stack seen (next x)).1, a ∈ R := by
  intro a ha
  rw [push_eq, List.mem_append, List.mem_reverse] at ha
  rcases ha with ha | ha
  · exact hR x hx a (mem_of_mem_fresh ha).1
  · exact hs a ha

theorem Walk.subset {stack out : List α} {seen : List κ} (h : Walk next key stack seen out)
    (hs : ∀ a ∈ stack, a ∈ R) : ∀ a ∈ out, a ∈ R := by
  induction h with
  | done => intro a ha; cases ha
  | @pop x stack seen out _ ih =>
    intro a ha
    have hx := hs x List.mem_cons_self
    rcases List.mem_cons.mp ha with rfl | ha
    · exact hx
    · exact ih (push_subset hR hx fun a ha => hs a (List.mem_cons_of_mem _ ha)) a ha

include hkey

/-- A next node of a node popped has a key that was seen at the start, or is popped. -/
theorem Walk.closed {stack out : List α} {seen : List κ} (h : Walk next key stack seen out)
    (hs : ∀ a ∈ stack, a ∈ R) : ∀ y ∈ out, ∀ a ∈ next y, key a ∈ seen ∨ a ∈ out := by
  induction h with
  | done => intro y hy; cases hy
  | @pop x stack seen out hw ih =>
    have hx := hs x List.mem_cons_self
    have hs' : ∀ a ∈ (push key stack seen (next x)).1, a ∈ R :=
      push_subset hR hx fun a ha => hs a (List.mem_cons_of_mem _ ha)
    -- a key that this turn adds belongs to a node that it pushes
    have hnew : ∀ a ∈ R, key a ∈ (push key stack seen (next x)).2 → key a ∈ seen ∨ a ∈ x :: out := by
      intro a ha hk
      rw [push_eq, List.mem_append, List.mem_reverse] at hk
      rcases hk with hk | hk
      · obtain ⟨b, hb, hbk⟩ := List.mem_map.mp hk
        have hba : b = a := hkey b (hR x hx b (mem_of_mem_fresh hb).1) a ha hbk
        subst hba
        right
        apply List.mem_cons_of_mem
        apply hw.mem_of_mem_stack
        rw [push_eq]
        exact List.mem_append_left _ (List.mem_reverse.mpr hb)
      · exact Or.inl hk
    intro y hy a ha
    rcases List.mem_cons.mp hy with rfl | hy
    · apply hnew a (hR y hx a ha)
      rw [push_eq, List.mem_append, List.mem_reverse]
      have hseen : key a ∈ seen ∨ ∃ b ∈ fresh key seen (next y), key b = key a := key_mem_of_mem ha
      rcases hseen with hk | ⟨b, hb, hk⟩
      · exact Or.inr hk
      · exact Or.inl (hk ▸ List.mem_map_of_mem hb)
    · rcases ih hs' y hy a ha with hk | ha'
      · exact hnew a (hR y (hw.subset hR hs' y hy) a ha) hk
      · exact Or.inr (List.mem_cons_of_mem _ ha')

/-- A traversal from one node, with no key seen, pops exactly the nodes that it reaches. -/
theorem Walk.mem_iff_reachable {x : α} {out : List α} (h : Walk next key [x] [] out)
    (hx : ∀ a ∈ next x, a ∈ R) {a : α} :
    a ∈ out ↔ Relation.ReflTransGen (fun x y => y ∈ next x) x a := by
  constructor
  · intro ha
    obtain ⟨s, hs, hr⟩ := h.reachable ha
    rw [List.mem_singleton.mp hs] at hr
    exact hr
  · cases h with
    | @pop _ _ _ rest h =>
    rw [push_eq, List.append_nil, List.append_nil] at h
    have hstack : ∀ b ∈ (fresh key [] (next x)).reverse, b ∈ R :=
      fun b hb => hx b (mem_of_mem_fresh (List.mem_reverse.mp hb)).1
    -- a node of a key that the first turn pushes is the one that it pushes
    have hpushed : ∀ b ∈ R, key b ∈ ((fresh key [] (next x)).map key).reverse → b ∈ rest := by
      intro b hb hk
      rw [List.mem_reverse] at hk
      obtain ⟨c, hc, heq⟩ := List.mem_map.mp hk
      obtain rfl := hkey c (hx c (mem_of_mem_fresh hc).1) b hb heq
      exact h.mem_of_mem_stack (List.mem_reverse.mpr hc)
    intro hr
    induction hr with
    | refl => exact List.mem_cons_self
    | @tail b c _ hstep ih =>
      apply List.mem_cons_of_mem
      rcases List.mem_cons.mp ih with rfl | hb
      · apply hpushed c (hx c hstep)
        rw [List.mem_reverse]
        have hseen : key c ∈ ([] : List κ) ∨ ∃ d ∈ fresh key [] (next b), key d = key c :=
          key_mem_of_mem hstep
        obtain ⟨d, hd, hk⟩ := hseen.resolve_left List.not_mem_nil
        exact hk ▸ List.mem_map_of_mem hd
      · have hbR : b ∈ R := h.subset hR hstack b hb
        rcases h.closed hR hkey hstack b hb c hstep with hk | hm
        · exact hpushed c (hR b hbR c hstep) hk
        · exact hm

end Closed

/-! ## No node twice -/

/-- When the keys of the stack are distinct and seen, no key is popped twice. -/
theorem Walk.nodup {stack out : List α} {seen : List κ} (h : Walk next key stack seen out)
    (hs : ∀ a ∈ stack, key a ∈ seen) (hnd : (stack.map key).Nodup) :
    (out.map key).Nodup ∧ ∀ k ∈ out.map key, k ∈ stack.map key ∨ k ∉ seen := by
  induction h with
  | done => simp
  | @pop x stack seen out _ ih =>
    rw [push_eq] at ih
    set new := fresh key seen (next x) with hnew
    have hfresh : ∀ k ∈ new.map key, k ∉ seen := by
      intro k hk
      obtain ⟨b, hb, rfl⟩ := List.mem_map.mp hk
      exact (mem_of_mem_fresh hb).2
    rw [List.map_cons, List.nodup_cons] at hnd
    have hx : key x ∈ seen := hs x List.mem_cons_self
    have hstack : ∀ k ∈ stack.map key, k ∈ seen := by
      intro k hk
      obtain ⟨b, hb, rfl⟩ := List.mem_map.mp hk
      exact hs b (List.mem_cons_of_mem _ hb)
    obtain ⟨hout, hmem⟩ := ih
      (by
        intro a ha
        rw [List.mem_append, List.mem_reverse] at ha ⊢
        rcases ha with ha | ha
        · exact Or.inl (List.mem_map_of_mem ha)
        · exact Or.inr (hs a (List.mem_cons_of_mem _ ha)))
      (by
        rw [List.map_append, List.map_reverse, List.nodup_append]
        refine ⟨List.nodup_reverse.mpr (nodup_map_fresh seen (next x)), hnd.2, ?_⟩
        rintro k hk _ hk' rfl
        exact hfresh k (List.mem_reverse.mp hk) (hstack k hk'))
    have hsub : ∀ k ∈ out.map key, k ∈ stack.map key ∨ k ∉ seen := by
      intro k hk
      rcases hmem k hk with hk' | hk'
      · rw [List.map_append, List.mem_append, List.map_reverse, List.mem_reverse] at hk'
        rcases hk' with hk' | hk'
        · exact Or.inr (hfresh k hk')
        · exact Or.inl hk'
      · exact Or.inr fun hs => hk' (List.mem_append_right _ hs)
    refine ⟨?_, ?_⟩
    · rw [List.map_cons, List.nodup_cons]
      refine ⟨?_, hout⟩
      intro hk
      rcases hsub _ hk with hk' | hk'
      · exact hnd.1 hk'
      · exact hk' hx
    · intro k hk
      rw [List.map_cons, List.mem_cons] at hk
      rcases hk with rfl | hk
      · exact Or.inl List.mem_cons_self
      · rcases hsub k hk with hk' | hk'
        · exact Or.inl (List.mem_cons_of_mem _ hk')
        · exact Or.inr hk'

/-- A traversal from one node pops it, then nodes with distinct keys that its next nodes reach. -/
theorem Walk.from_one {x : α} {out : List α} (h : Walk next key [x] [] out) :
    ∃ rest, out = x :: rest ∧ (rest.map key).Nodup ∧
      ∀ a ∈ rest, ∃ b ∈ next x, Relation.ReflTransGen (fun x y => y ∈ next x) b a := by
  cases h with
  | @pop _ _ _ rest h =>
    rw [push_eq, List.append_nil, List.append_nil] at h
    refine ⟨rest, rfl, ?_, ?_⟩
    · refine (h.nodup ?_ ?_).1
      · intro a ha
        rw [List.mem_reverse] at ha ⊢
        exact List.mem_map_of_mem ha
      · rw [List.map_reverse, List.nodup_reverse]
        exact nodup_map_fresh [] (next x)
    · intro a ha
      obtain ⟨b, hb, hr⟩ := h.reachable ha
      exact ⟨b, (mem_of_mem_fresh (List.mem_reverse.mp hb)).1, hr⟩

/-! ## Two traversals -/

theorem Walk.unique {stack out out' : List α} {seen : List κ} (h : Walk next key stack seen out)
    (h' : Walk next key stack seen out') : out = out' := by
  induction h generalizing out' with
  | done =>
    cases h'
    rfl
  | pop _ ih =>
    cases h' with
    | pop h' => rw [ih h']

/-- Two functions that agree on a closed set make the same traversals of it. -/
theorem Walk.congr {next' : α → List α} {R : Set α} (hR : ∀ x ∈ R, ∀ a ∈ next x, a ∈ R)
    (heq : ∀ x ∈ R, next x = next' x) {stack out : List α} {seen : List κ}
    (h : Walk next key stack seen out) (hs : ∀ a ∈ stack, a ∈ R) :
    Walk next' key stack seen out := by
  induction h with
  | done => exact .done
  | @pop x stack seen out _ ih =>
    have hx := hs x List.mem_cons_self
    have hrest := ih (push_subset hR hx fun a ha => hs a (List.mem_cons_of_mem _ ha))
    rw [heq x hx] at hrest
    exact .pop hrest

section Filter

/-! A part of the nodes that a traversal never enters again once it left it. -/

variable {R : Set α} {p : α → Bool}
  (hkey : ∀ a ∈ R, ∀ b ∈ R, key a = key b → a = b)

include hkey

theorem fresh_filter {l : List α} (hl : ∀ a ∈ l, a ∈ R) {seen seen' : List κ}
    (hseen : ∀ a ∈ R, p a = true → (key a ∈ seen ↔ key a ∈ seen')) :
    fresh key seen' (l.filter p) = (fresh key seen l).filter p := by
  induction l generalizing seen seen' with
  | nil => rfl
  | cons a l ih =>
    rw [List.forall_mem_cons] at hl
    cases ha : p a with
    | true =>
      rw [List.filter_cons_of_pos ha]
      unfold fresh
      by_cases hs : key a ∈ seen
      · rw [if_pos hs, if_pos ((hseen a hl.1 ha).mp hs)]
        exact ih hl.2 hseen
      · rw [if_neg hs, if_neg (fun hm => hs ((hseen a hl.1 ha).mpr hm)), List.filter_cons_of_pos ha]
        congr 1
        apply ih hl.2
        intro b hb hpb
        simp only [List.mem_cons, hseen b hb hpb]
    | false =>
      rw [List.filter_cons_of_neg (by simp [ha])]
      conv_rhs => unfold fresh
      split
      · exact ih hl.2 hseen
      · rw [List.filter_cons_of_neg (by simp [ha])]
        apply ih hl.2
        intro b hb hpb
        have hne : key b ≠ key a := by
          intro heq
          rw [hkey b hb a hl.1 heq, ha] at hpb
          cases hpb
        simp only [List.mem_cons, hne, false_or, hseen b hb hpb]

/-- The nodes of that part are popped in the order of a traversal of the part alone. -/
theorem Walk.filter (hR : ∀ x ∈ R, ∀ a ∈ next x, a ∈ R)
    (hp : ∀ x ∈ R, p x = false → ∀ a ∈ next x, p a = false) {stack out : List α} {seen : List κ}
    (h : Walk next key stack seen out) (hs : ∀ a ∈ stack, a ∈ R) {seen' : List κ}
    (hseen : ∀ a ∈ R, p a = true → (key a ∈ seen ↔ key a ∈ seen')) :
    Walk (fun x => (next x).filter p) key (stack.filter p) seen' (out.filter p) := by
  induction h generalizing seen' with
  | done => exact .done
  | @pop x stack seen out _ ih =>
    have hx := hs x List.mem_cons_self
    have hs' : ∀ a ∈ (push key stack seen (next x)).1, a ∈ R :=
      push_subset hR hx fun a ha => hs a (List.mem_cons_of_mem _ ha)
    have hfresh := fresh_filter hkey (hR x hx) hseen
    rw [push_eq] at ih hs'
    rw [List.filter_append, List.filter_reverse, ← hfresh] at ih
    cases ha : p x with
    | true =>
      rw [List.filter_cons_of_pos ha, List.filter_cons_of_pos ha]
      apply Walk.pop
      rw [push_eq]
      apply ih hs'
      intro a haR hpa
      simp only [List.mem_append, List.mem_reverse, hseen a haR hpa]
      apply or_congr_left
      rw [hfresh]
      constructor
      · intro hm
        obtain ⟨b, hb, heq⟩ := List.mem_map.mp hm
        obtain rfl := hkey b (hR x hx b (mem_of_mem_fresh hb).1) a haR heq
        exact List.mem_map_of_mem (List.mem_filter.mpr ⟨hb, hpa⟩)
      · intro hm
        exact List.map_subset _ (List.filter_subset_self _) hm
    | false =>
      have hnil : (next x).filter p = [] := by
        rw [List.filter_eq_nil_iff]
        intro a ham
        simp [hp x hx ha a ham]
      rw [List.filter_cons_of_neg (by simp [ha]), List.filter_cons_of_neg (by simp [ha])]
      rw [hnil] at ih
      apply ih hs'
      intro a haR hpa
      rw [← hseen a haR hpa, List.mem_append, List.mem_reverse]
      refine ⟨fun hm => hm.resolve_left ?_, Or.inr⟩
      intro hm
      obtain ⟨b, hb, heq⟩ := List.mem_map.mp hm
      have hbn := (mem_of_mem_fresh hb).1
      rw [← hkey b (hR x hx b hbn) a haR heq, hp x hx ha b hbn] at hpa
      cases hpa

end Filter

/-! ## Renamed nodes -/

section Map

variable {β : Type*} {next' : β → List β} {key' : β → κ} {g : α → β}

theorem push_map (hkey : ∀ a, key' (g a) = key a) (stack : List α) (seen : List κ) (l : List α) :
    push key' (stack.map g) seen (l.map g) =
      ((push key stack seen l).1.map g, (push key stack seen l).2) := by
  induction l generalizing stack seen with
  | nil => rfl
  | cons a rest ih =>
    rw [List.map_cons]
    unfold push
    rw [hkey]
    split
    · exact ih stack seen
    · exact ih (a :: stack) (key a :: seen)

/-- Nodes with other names, but the same keys and next nodes, are popped in the same order. -/
theorem walk_map (hkey : ∀ a, key' (g a) = key a) (hnext : ∀ a, next' (g a) = (next a).map g)
    (n : ℕ) (stack : List α) (seen : List κ) :
    walk next' key' n (stack.map g) seen = (walk next key n stack seen).map g := by
  induction n generalizing stack seen with
  | zero => rfl
  | succ n ih =>
    cases stack with
    | nil => rfl
    | cons x stack =>
      rw [List.map_cons]
      unfold walk
      rw [hnext, push_map hkey]
      exact congrArg (g x :: ·) (ih _ _)

end Map

end traversal
