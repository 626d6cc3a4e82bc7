-- What holds of every element of a list together with the elements before it, as
-- of every step of a run together with the steps before it.
import Mathlib

namespace splits

variable {α : Type*} {P Q : List α → α → Prop} {l l' : List α} {a : α}

/-- `P` holds of every element of the list, with the elements before it. -/
def Each (P : List α → α → Prop) (l : List α) : Prop :=
  ∀ pre a post, l = pre ++ a :: post → P pre a

theorem Each.of_append (h : Each P (l ++ l')) : Each P l := by
  intro pre a post heq
  exact h pre a (post ++ l') (by rw [heq]; simp)

theorem Each.last (h : Each P (l ++ [a])) : P l a := h l a [] rfl

theorem Each.of_mem (h : Each P l) (ha : a ∈ l) : ∃ pre post, l = pre ++ a :: post ∧ P pre a := by
  obtain ⟨pre, post, heq⟩ := List.append_of_mem ha
  exact ⟨pre, post, heq, h pre a post heq⟩

theorem Each.imp (h : Each P l) (hPQ : ∀ pre a, P pre a → Q pre a) : Each Q l :=
  fun pre a post heq => hPQ pre a (h pre a post heq)

theorem each_nil : Each P [] := by
  intro pre a post heq
  simp at heq

theorem Each.concat (h : Each P l) (ha : P l a) : Each P (l ++ [a]) := by
  intro pre b post heq
  rcases List.eq_nil_or_concat' post with rfl | ⟨post, c, rfl⟩
  · obtain ⟨rfl, hb⟩ := List.append_inj' heq rfl
    cases hb
    exact ha
  · rw [← List.cons_append, ← List.append_assoc] at heq
    exact h pre b post (List.append_inj' heq rfl).1

/-- What holds of the elements of a list holds of those that a filter picks out, with the ones that
it picks out before them. -/
theorem Each.filterMap {β : Type*} {R : List β → β → Prop} {g : α → Option β} (h : Each P l)
    (hPR : ∀ pre a b, P pre a → g a = some b → R (pre.filterMap g) b) : Each R (l.filterMap g) := by
  induction l using List.reverseRecOn with
  | nil => exact each_nil
  | append_singleton l a ih =>
    rw [List.filterMap_append]
    rcases hb : g a with _ | b
    · rw [List.filterMap_cons_none hb, List.filterMap_nil, List.append_nil]
      exact ih h.of_append
    · rw [List.filterMap_cons_some hb, List.filterMap_nil]
      exact (ih h.of_append).concat (hPR l a b h.last hb)

theorem Each.map {β : Type*} {R : List β → β → Prop} {f : α → β} (h : Each P l)
    (hPR : ∀ pre a, P pre a → R (pre.map f) (f a)) : Each R (l.map f) := by
  induction l using List.reverseRecOn with
  | nil => exact each_nil
  | append_singleton l a ih =>
    rw [List.map_append, List.map_singleton]
    exact (ih h.of_append).concat (hPR l a h.last)

/-- `P` holds of an element of the list, with the elements before it, and no later one resets. -/
def Since (P : List α → α → Prop) (Reset : α → Prop) (l : List α) : Prop :=
  ∃ pre a post, l = pre ++ a :: post ∧ (∀ b ∈ post, ¬ Reset b) ∧ P pre a

theorem not_since_nil {Reset : α → Prop} : ¬ Since P Reset [] := by
  rintro ⟨pre, a, post, heq, -⟩
  simp at heq

theorem since_concat {Reset : α → Prop} :
    Since P Reset (l ++ [a]) ↔ Since P Reset l ∧ ¬ Reset a ∨ P l a := by
  constructor
  · rintro ⟨pre, b, post, heq, hreset, hb⟩
    rcases List.eq_nil_or_concat' post with rfl | ⟨post, c, rfl⟩
    · obtain ⟨rfl, hab⟩ := List.append_inj' heq rfl
      cases hab
      exact Or.inr hb
    · rw [← List.cons_append, ← List.append_assoc] at heq
      obtain ⟨rfl, hac⟩ := List.append_inj' heq rfl
      cases hac
      rw [List.forall_mem_append] at hreset
      exact Or.inl ⟨⟨pre, b, post, rfl, hreset.1, hb⟩, hreset.2 _ List.mem_cons_self⟩
  · rintro (⟨⟨pre, b, post, rfl, hreset, hb⟩, ha⟩ | ha)
    · refine ⟨pre, b, post ++ [a], by simp, ?_, hb⟩
      rw [List.forall_mem_append]
      exact ⟨hreset, by simpa using ha⟩
    · exact ⟨l, a, [], rfl, List.forall_mem_nil _, ha⟩

/-- `P` holds of an element of the list, with the elements before it, and no later one resets, with
the elements before that one. -/
def Lasts (P Reset : List α → α → Prop) (l : List α) : Prop :=
  ∃ pre a post, l = pre ++ a :: post ∧ P pre a ∧
    Each (fun mid b => ¬ Reset (pre ++ a :: mid) b) post

theorem not_lasts_nil {Reset : List α → α → Prop} : ¬ Lasts P Reset [] := by
  rintro ⟨pre, a, post, heq, -⟩
  simp at heq

theorem lasts_concat {Reset : List α → α → Prop} :
    Lasts P Reset (l ++ [a]) ↔ Lasts P Reset l ∧ ¬ Reset l a ∨ P l a := by
  constructor
  · rintro ⟨pre, b, post, heq, hb, hreset⟩
    rcases List.eq_nil_or_concat' post with rfl | ⟨post, c, rfl⟩
    · obtain ⟨rfl, hab⟩ := List.append_inj' heq rfl
      cases hab
      exact Or.inr hb
    · rw [← List.cons_append, ← List.append_assoc] at heq
      obtain ⟨rfl, hac⟩ := List.append_inj' heq rfl
      cases hac
      exact Or.inl ⟨⟨pre, b, post, rfl, hb, hreset.of_append⟩, hreset.last⟩
  · rintro (⟨⟨pre, b, post, rfl, hb, hreset⟩, ha⟩ | ha)
    · exact ⟨pre, b, post ++ [a], by simp, hb, hreset.concat ha⟩
    · exact ⟨l, a, [], rfl, ha, each_nil⟩

/-- `Each` in one pass over the list, with the elements known so far. -/
def each (P : List α → α → Bool) : List α → List α → Bool
  | _, [] => true
  | known, a :: rest => P known a && each P (known ++ [a]) rest

theorem each_iff {P : List α → α → Bool} {known : List α} : each P known l = true ↔
    Each (fun pre a => P (known ++ pre) a = true) l := by
  induction l generalizing known with
  | nil => simp [each, Each]
  | cons a rest ih =>
    rw [each, Bool.and_eq_true, ih]
    constructor
    · rintro ⟨ha, hrest⟩ pre b post heq
      rcases List.cons_eq_append_iff.mp heq with ⟨rfl, hb⟩ | ⟨pre', rfl, hb⟩
      · cases hb
        simpa using ha
      · simpa using hrest pre' b post hb
    · intro h
      refine ⟨by simpa using h [] a rest rfl, ?_⟩
      intro pre b post heq
      simpa using h (a :: pre) b post (by rw [heq]; rfl)

end splits
