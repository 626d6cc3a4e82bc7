-- Logs that grow by the chains of anchors: a descent from an anchor down to the last one that
-- was taken goes on top of what is there. Logs whose descents never miss an anchor agree.
import Mathlib
import Sailfish.Lib.Layered

namespace layered

variable {α : Type*} {rank : α → ℕ} {link : α → α → Prop} {Anchor : α → Prop}

/-- What was taken so far, oldest first, and the rank up to which it goes: nothing yet, or the whole
chain of an anchor. -/
inductive Log (rank : α → ℕ) (link : α → α → Prop) (Anchor : α → Prop) : List α → ℕ → Prop
  | empty : Log rank link Anchor [] 0
  | chain {top : α} {l : List α} : Anchor top → Chain rank link 0 top l →
      Log rank link Anchor (top :: l).reverse (rank top)

/-- There is one anchor for a rank, and one node of a rank that a node is linked to. No descent from
an anchor misses an anchor: what is above it on the chain is linked to it. -/
structure Anchored (rank : α → ℕ) (link : α → α → Prop) (Anchor : α → Prop) : Prop where
  positive : ∀ a, Anchor a → 0 < rank a
  unique : ∀ a b, Anchor a → Anchor b → rank a = rank b → a = b
  link_unique : ∀ a b c, link a b → link a c → rank b = rank c → b = c
  linked : ∀ a top floor l, Anchor a → Anchor top → Chain rank link floor top l →
    ∀ x ∈ top :: l, rank a < rank x → link x a

namespace Log

variable {log log' : List α} {n n' : ℕ}

/-- The chain of an anchor, down to the rank that the log goes up to, goes on top of the log. -/
theorem take (hA : Anchored rank link Anchor) (h : Log rank link Anchor log n) {top : α} {l : List α}
    (htop : Anchor top) (hlt : n < rank top) (hl : Chain rank link n top l) :
    Log rank link Anchor (log ++ (top :: l).reverse) (rank top) := by
  cases h with
  | empty => exact .chain htop hl
  | @chain last older hlast holder =>
    rw [← List.reverse_append, List.cons_append]
    refine .chain htop (hl.join hlt (fun x hx => ?_) (hA.positive last hlast) holder)
    apply hA.linked last top _ l hlast htop hl x hx
    rcases List.mem_cons.mp hx with rfl | hm
    · exact hlt
    · exact (hl.rank_bounds hm).1

/-- Of two logs, the one that goes up to the lower rank is a prefix of the other one. -/
theorem prefix_of_le (hA : Anchored rank link Anchor) (h : Log rank link Anchor log n)
    (h' : Log rank link Anchor log' n') (hle : n ≤ n') : log <+: log' := by
  cases h with
  | empty => exact List.nil_prefix
  | @chain top l htop hl =>
    cases h' with
    | empty => exact absurd hle (Nat.not_le_of_lt (hA.positive top htop))
    | @chain top' l' htop' hl' =>
      rcases Nat.lt_or_eq_of_le hle with hlt | heq
      · have hm : top ∈ l' := hl'.mem_of_linked hA.link_unique (hA.positive top htop) hlt
          (hA.linked top top' 0 l' htop htop' hl')
        obtain ⟨pre, post, rfl⟩ := List.append_of_mem hm
        obtain rfl := hl.unique hA.link_unique hl'.split.2
        rw [← List.cons_append, List.reverse_append]
        exact List.prefix_append _ _
      · obtain rfl := hA.unique top top' htop htop' heq
        rw [hl.unique hA.link_unique hl']

theorem prefix_total (hA : Anchored rank link Anchor) (h : Log rank link Anchor log n)
    (h' : Log rank link Anchor log' n') : log <+: log' ∨ log' <+: log :=
  (Nat.le_total n n').imp (h.prefix_of_le hA h') (h'.prefix_of_le hA h)

end Log

end layered
