-- Computations that change a state and may fail halfway, seen as the steps that
-- they make: a failure keeps the state, so it keeps the steps made before it.
import Mathlib

open Relation

namespace effects

variable {σ ε α β : Type} {Step : σ → σ → Prop} {s : σ} {Q R : α → σ → Prop}

theorem bind_eq_ok {x : EStateM ε σ α} {f : α → EStateM ε σ β} {b : β} {s'' : σ} :
    (x >>= f) s = .ok b s'' ↔ ∃ a s', x s = .ok a s' ∧ f a s' = .ok b s'' := by
  change EStateM.bind x f s = .ok b s'' ↔ _
  unfold EStateM.bind
  rcases hx : x s with ⟨a, s'⟩ | ⟨e, s'⟩
  · constructor
    · intro h
      exact ⟨a, s', rfl, h⟩
    · rintro ⟨_, _, ⟨⟩, h⟩
      exact h
  · simp

theorem bind_eq_error {x : EStateM ε σ α} {f : α → EStateM ε σ β} {e : ε} {s'' : σ} :
    (x >>= f) s = .error e s'' ↔
      x s = .error e s'' ∨ ∃ a s', x s = .ok a s' ∧ f a s' = .error e s'' := by
  change EStateM.bind x f s = .error e s'' ↔ _
  unfold EStateM.bind
  rcases hx : x s with ⟨a, s'⟩ | ⟨e, s'⟩
  · constructor
    · intro h
      exact Or.inr ⟨a, s', rfl, h⟩
    · rintro (h | ⟨_, _, ⟨⟩, h⟩)
      · cases h
      · exact h
  · simp

theorem bind_of_ok {x : EStateM ε σ α} {f : α → EStateM ε σ β} {a : α} {s' : σ}
    (h : x s = .ok a s') : (x >>= f) s = f a s' := by
  change EStateM.bind x f s = f a s'
  unfold EStateM.bind
  rw [h]

theorem bind_of_error {x : EStateM ε σ α} {f : α → EStateM ε σ β} {e : ε} {s' : σ}
    (h : x s = .error e s') : (x >>= f) s = .error e s' := by
  change EStateM.bind x f s = .error e s'
  unfold EStateM.bind
  rw [h]

theorem bind_congr_left {x x' : EStateM ε σ α} {f : α → EStateM ε σ β} {s' : σ}
    (h : x s = x' s') : (x >>= f) s = (x' >>= f) s' := by
  change EStateM.bind x f s = EStateM.bind x' f s'
  unfold EStateM.bind
  rw [h]

/-- From `s`, the computation makes steps of the relation only, also when it fails. A result
meets `Q` in the state that it leaves. -/
structure Runs (Step : σ → σ → Prop) (x : EStateM ε σ α) (s : σ) (Q : α → σ → Prop) : Prop where
  of_ok : ∀ a s', x s = .ok a s' → ReflTransGen Step s s' ∧ Q a s'
  of_error : ∀ e s', x s = .error e s' → ReflTransGen Step s s'

namespace Runs

theorem pure {a : α} (h : Q a s) : Runs Step (pure a : EStateM ε σ α) s Q where
  of_ok := by
    rintro _ _ ⟨⟩
    exact ⟨.refl, h⟩
  of_error := by rintro _ _ ⟨⟩

theorem throw {e : ε} : Runs Step (throw e : EStateM ε σ α) s Q where
  of_ok := by rintro _ _ ⟨⟩
  of_error := by
    rintro _ _ ⟨⟩
    exact .refl

theorem get {Q : σ → σ → Prop} (h : Q s s) : Runs Step (get : EStateM ε σ σ) s Q where
  of_ok := by
    rintro _ _ ⟨⟩
    exact ⟨.refl, h⟩
  of_error := by rintro _ _ ⟨⟩

theorem modify {f : σ → σ} {Q : Unit → σ → Prop} (hstep : Step s (f s)) (h : Q () (f s)) :
    Runs Step (modify f : EStateM ε σ Unit) s Q where
  of_ok := by
    rintro _ _ ⟨⟩
    exact ⟨.single hstep, h⟩
  of_error := by rintro _ _ ⟨⟩

theorem bind {x : EStateM ε σ α} {f : α → EStateM ε σ β} {R : β → σ → Prop}
    (hx : Runs Step x s Q)
    (hf : ∀ a s', ReflTransGen Step s s' → Q a s' → Runs Step (f a) s' R) :
    Runs Step (x >>= f) s R where
  of_ok := by
    intro b s'' h
    obtain ⟨a, s', hxs, hfs⟩ := bind_eq_ok.mp h
    obtain ⟨hsteps, hQ⟩ := hx.of_ok a s' hxs
    obtain ⟨hsteps', hR⟩ := (hf a s' hsteps hQ).of_ok b s'' hfs
    exact ⟨hsteps.trans hsteps', hR⟩
  of_error := by
    intro e s'' h
    rcases bind_eq_error.mp h with hxs | ⟨a, s', hxs, hfs⟩
    · exact hx.of_error e s'' hxs
    · obtain ⟨hsteps, hQ⟩ := hx.of_ok a s' hxs
      exact hsteps.trans ((hf a s' hsteps hQ).of_error e s'' hfs)

theorem mono {Step' : σ → σ → Prop} {x : EStateM ε σ α} (h : ∀ s s', Step s s' → Step' s s')
    (hx : Runs Step x s Q) : Runs Step' x s Q where
  of_ok := fun a s' hxs => (hx.of_ok a s' hxs).imp_left (ReflTransGen.mono h _ _)
  of_error := fun e s' hxs => ReflTransGen.mono h _ _ (hx.of_error e s' hxs)

/-- Some steps, and then what another computation does from there. -/
theorem steps {x y : EStateM ε σ α} {s' : σ} (heq : x s = y s') (hsteps : ReflTransGen Step s s')
    (hy : Runs Step y s' Q) : Runs Step x s Q where
  of_ok := by
    intro a s'' h
    obtain ⟨hsteps', hQ⟩ := hy.of_ok a s'' (heq ▸ h)
    exact ⟨hsteps.trans hsteps', hQ⟩
  of_error := fun e s'' h => hsteps.trans (hy.of_error e s'' (heq ▸ h))

/-- One step, and then what another computation does from there. -/
theorem step {x y : EStateM ε σ α} {s' : σ} (heq : x s = y s') (hstep : Step s s')
    (hy : Runs Step y s' Q) : Runs Step x s Q :=
  steps heq (.single hstep) hy

/-- Two continuations that agree on what the computation leaves. -/
theorem bind_congr {x : EStateM ε σ α} {f f' : α → EStateM ε σ β} (hx : Runs Step x s Q)
    (hf : ∀ a s', ReflTransGen Step s s' → Q a s' → f a s' = f' a s') :
    (x >>= f) s = (x >>= f') s := by
  change EStateM.bind x f s = EStateM.bind x f' s
  unfold EStateM.bind
  rcases hxs : x s with ⟨a, s'⟩ | ⟨e, s'⟩
  · obtain ⟨hsteps, hQ⟩ := hx.of_ok a s' hxs
    exact hf a s' hsteps hQ
  · rfl

end Runs

/-- The state that a computation leaves, also when it fails. -/
def after (x : EStateM ε σ α) (s : σ) : σ :=
  match x s with
  | .ok _ s' => s'
  | .error _ s' => s'

theorem Runs.steps_after {x : EStateM ε σ α} (h : Runs Step x s Q) :
    ReflTransGen Step s (after x s) := by
  unfold after
  rcases hx : x s with ⟨a, s'⟩ | ⟨e, s'⟩
  · exact (h.of_ok a s' hx).1
  · exact h.of_error e s' hx

theorem after_of_eq {x y : EStateM ε σ α} {s' : σ} (h : x s = y s') : after x s = after y s' := by
  unfold after
  rw [h]

theorem after_bind_of_ok {x : EStateM ε σ α} {f : α → EStateM ε σ β} {a : α} {s' : σ}
    (h : x s = .ok a s') : after (x >>= f) s = after (f a) s' :=
  after_of_eq (bind_of_ok h)

/-- From what a computation leaves, the rest makes its steps, if it is reached. -/
theorem steps_after_bind {x : EStateM ε σ α} {f : α → EStateM ε σ β} {R : β → σ → Prop}
    (hf : ∀ a s', x s = .ok a s' → Runs Step (f a) s' R) :
    ReflTransGen Step (after x s) (after (x >>= f) s) := by
  rcases hx : x s with ⟨a, s'⟩ | ⟨e, s'⟩
  · rw [after_bind_of_ok hx, after, hx]
    exact (hf a s' hx).steps_after
  · have hafter : after (x >>= f) s = after x s := by
      unfold after
      rw [bind_of_error hx, hx]
    rw [hafter]

/-- From `s`, the computation fails only with an error and a state that meet `E`. -/
def Fails (E : ε → σ → Prop) (x : EStateM ε σ α) (s : σ) : Prop :=
  ∀ e s', x s = .error e s' → E e s'

namespace Fails

variable {E : ε → σ → Prop}

theorem of_ok {x : EStateM ε σ α} {a : α} {s' : σ} (h : x s = .ok a s') : Fails E x s := by
  intro e s'' hx
  rw [h] at hx
  cases hx

theorem pure {a : α} : Fails E (pure a : EStateM ε σ α) s := of_ok rfl

theorem throw {e : ε} (h : E e s) : Fails E (throw e : EStateM ε σ α) s := by
  rintro _ _ ⟨⟩
  exact h

theorem bind {x : EStateM ε σ α} {f : α → EStateM ε σ β} (hx : Fails E x s)
    (hf : ∀ a s', x s = .ok a s' → Fails E (f a) s') : Fails E (x >>= f) s := by
  intro e s'' h
  rcases bind_eq_error.mp h with hxs | ⟨a, s', hxs, hfs⟩
  · exact hx e s'' hxs
  · exact hf a s' hxs e s'' hfs

theorem bind_of_ok {x : EStateM ε σ α} {f : α → EStateM ε σ β} {a : α} {s' : σ}
    (hx : x s = .ok a s') (hf : Fails E (f a) s') : Fails E (x >>= f) s :=
  bind (of_ok hx) fun b s'' h => by
    rw [hx] at h
    cases h
    exact hf

end Fails

/-- From `s`, the computation fails, with an error that meets `E`. -/
def Stops (E : ε → Prop) (x : EStateM ε σ α) (s : σ) : Prop := ∃ e s', x s = .error e s' ∧ E e

namespace Stops

variable {E : ε → Prop}

theorem not_of_ok {x : EStateM ε σ α} {a : α} {s' : σ} (h : x s = .ok a s') : ¬ Stops E x s := by
  rintro ⟨e, s'', hx, -⟩
  rw [h] at hx
  cases hx

theorem iff_of_error {x : EStateM ε σ α} {e : ε} {s' : σ} (h : x s = .error e s') :
    Stops E x s ↔ E e := by
  constructor
  · rintro ⟨e', s'', hx, hE⟩
    rw [h] at hx
    cases hx
    exact hE
  · exact fun hE => ⟨e, s', h, hE⟩

theorem bind_of_ok {x : EStateM ε σ α} {f : α → EStateM ε σ β} {a : α} {s' : σ}
    (h : x s = .ok a s') : Stops E (x >>= f) s ↔ Stops E (f a) s' := by
  unfold Stops
  rw [effects.bind_of_ok h]

/-- The rest of a computation that cannot fail does not matter. -/
theorem bind_of_total {x : EStateM ε σ α} {f : α → EStateM ε σ β}
    (h : ∀ a s', ¬ Stops E (f a) s') : Stops E (x >>= f) s ↔ Stops E x s := by
  constructor
  · rintro ⟨e, s'', heq, hE⟩
    rcases bind_eq_error.mp heq with hx | ⟨a, s', -, hf⟩
    · exact ⟨e, s'', hx, hE⟩
    · exact absurd ⟨e, s'', hf, hE⟩ (h a s')
  · rintro ⟨e, s'', hx, hE⟩
    exact ⟨e, s'', effects.bind_of_error hx, hE⟩

end Stops

/-- What every step keeps, any number of steps keeps. -/
theorem of_steps {P : σ → Prop} (hP : ∀ s s', Step s s' → P s → P s') {s s' : σ}
    (h : ReflTransGen Step s s') (hs : P s) : P s' := by
  induction h with
  | refl => exact hs
  | tail _ hstep ih => exact hP _ _ hstep ih

end effects
