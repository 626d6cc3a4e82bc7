-- Parties that take turns in any order, each with a state of its own: what each
-- step of a party keeps of its own state holds in every run of all of them.
import Mathlib
import Sailfish.Lib.Splits

open splits

namespace parties

variable {ι σ ε : Type*} [DecidableEq ι]

section

variable (one : ι → σ → ε → Option σ)

/-- One party makes a step, and the others stay as they are. -/
def step (s : ι → σ) (e : ι × ε) : Option (ι → σ) :=
  (one e.1 (s e.1) e.2).map (Function.update s e.1)

def run (start : ι → σ) (events : List (ι × ε)) : Option (ι → σ) :=
  events.foldlM (step one) start

end

/-- The events of one party, in their order. -/
def events_of (i : ι) (events : List (ι × ε)) : List ε :=
  events.filterMap fun e => if e.1 = i then some e.2 else none

variable {one : ι → σ → ε → Option σ} {start s s' : ι → σ} {events : List (ι × ε)} {e : ι × ε}

theorem step_eq_some : step one s e = some s' ↔
    ∃ t, one e.1 (s e.1) e.2 = some t ∧ Function.update s e.1 t = s' := by
  unfold step
  rw [Option.map_eq_some_iff]

theorem run_concat : run one start (events ++ [e]) = some s' ↔
    ∃ s, run one start events = some s ∧ step one s e = some s' := by
  unfold run
  rw [List.foldlM_append]
  simp [Option.bind_eq_some_iff]

/-- What the steps of each party keep of its state holds in every run. -/
theorem invariant_of_run {I : ι → σ → Prop} (hrun : run one start events = some s)
    (hstart : ∀ i, I i (start i))
    (hstep : Each (fun pre e => ∀ before t, run one start pre = some before →
      one e.1 (before e.1) e.2 = some t → I e.1 (before e.1) → I e.1 t) events) (i : ι) :
    I i (s i) := by
  induction events using List.reverseRecOn generalizing s i with
  | nil =>
    cases hrun
    exact hstart i
  | append_singleton events e ih =>
    obtain ⟨before, hbefore, hlast⟩ := run_concat.mp hrun
    obtain ⟨t, ht, rfl⟩ := step_eq_some.mp hlast
    have hkept := ih hbefore hstep.of_append
    by_cases hi : i = e.1
    · subst hi
      rw [Function.update_self]
      exact hstep.last before t hbefore ht (hkept e.1)
    · rw [Function.update_of_ne hi]
      exact hkept i

/-- A run of all the parties is a run of each one, on its own events. -/
theorem run_of_party (hrun : run one start events = some s) (i : ι) :
    (events_of i events).foldlM (one i) (start i) = some (s i) := by
  induction events using List.reverseRecOn generalizing s with
  | nil =>
    cases hrun
    rfl
  | append_singleton events e ih =>
    obtain ⟨before, hbefore, hlast⟩ := run_concat.mp hrun
    obtain ⟨t, ht, rfl⟩ := step_eq_some.mp hlast
    unfold events_of
    rw [List.filterMap_append, List.foldlM_append]
    have hown := ih hbefore
    unfold events_of at hown
    rw [hown]
    by_cases hi : e.1 = i
    · subst hi
      simp [ht]
    · rw [Function.update_of_ne (Ne.symm hi)]
      simp [hi]

end parties
