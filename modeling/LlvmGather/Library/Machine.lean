import Mathlib.Tactic

/-!
Machines that take one event at a time, send outputs and may fail: runs over lists of
events, and invariants of the states that permitted events reach.
-/

namespace Machine

variable {S E O : Type*}

def run (step : S → E → Option (S × List O)) : S → List E → Option (S × List O)
  | state, [] => some (state, [])
  | state, event :: rest => do
      let moved ← step state event
      let later ← run step moved.1 rest
      return (later.1, moved.2 ++ later.2)

variable {step : S → E → Option (S × List O)}

theorem run_cons_eq_some {state final : S} {event : E} {rest : List E} {outputs : List O} :
    run step state (event :: rest) = some (final, outputs) ↔
      ∃ next sent later, step state event = some (next, sent) ∧
        run step next rest = some (final, later) ∧ outputs = sent ++ later := by
  simp only [run, Option.bind_eq_bind, Option.bind_eq_some_iff, Option.pure_def,
    Option.some.injEq, Prod.mk.injEq]
  constructor
  · rintro ⟨⟨next, sent⟩, moved, ⟨last, later⟩, runs, rfl, rfl⟩
    exact ⟨next, sent, later, moved, runs, rfl⟩
  · rintro ⟨next, sent, later, moved, runs, rfl⟩
    exact ⟨(next, sent), moved, (final, later), runs, rfl, rfl⟩

theorem run_append_eq_some {state final : S} {first second : List E} {outputs : List O} :
    run step state (first ++ second) = some (final, outputs) ↔
      ∃ middle before after, run step state first = some (middle, before) ∧
        run step middle second = some (final, after) ∧ outputs = before ++ after := by
  induction first generalizing state outputs with
  | nil => simp [run]
  | cons event rest ih =>
      rw [List.cons_append, run_cons_eq_some]
      simp only [ih, run_cons_eq_some]
      constructor
      · rintro ⟨next, sent, later, moved, ⟨middle, before, after, runs, ends, rfl⟩, rfl⟩
        exact ⟨middle, sent ++ before, after, ⟨next, sent, before, moved, runs, rfl⟩, ends,
          by rw [List.append_assoc]⟩
      · rintro ⟨middle, _, after, ⟨next, sent, before, moved, runs, rfl⟩, ends, rfl⟩
        exact ⟨next, sent, before ++ after, moved, ⟨middle, before, after, runs, ends, rfl⟩,
          by rw [List.append_assoc]⟩

theorem run_rule {P : List O → S → Prop}
    (keeps : ∀ sent state event next more, P sent state → step state event = some (next, more) →
      P (sent ++ more) next)
    (before : List O) {state final : S} {events : List E} {outputs : List O}
    (base : P before state)
    (runs : run step state events = some (final, outputs)) : P (before ++ outputs) final := by
  induction events generalizing state before outputs with
  | nil =>
      simp only [run, Option.some.injEq, Prod.mk.injEq] at runs
      obtain ⟨rfl, rfl⟩ := runs
      rwa [List.append_nil]
  | cons event rest ih =>
      obtain ⟨next, sent, later, moved, rest, rfl⟩ := run_cons_eq_some.mp runs
      rw [← List.append_assoc]
      exact ih (before ++ sent) (keeps before state event next sent base moved) rest

/-- The states that a machine gets to while its environment keeps to `permitted`, with the
outputs sent on the way. -/
inductive Reachable (step : S → E → Option (S × List O)) (permitted : S → E → Prop)
    (initial : S → Prop) : S → List O → Prop
  | start {state : S} (base : initial state) : Reachable step permitted initial state []
  | step {state next : S} {sent more : List O}
      (reached : Reachable step permitted initial state sent) (event : E)
      (allowed : permitted state event) (moved : step state event = some (next, more)) :
      Reachable step permitted initial next (sent ++ more)

theorem Reachable.invariant {permitted : S → E → Prop} {initial : S → Prop}
    {P : S → List O → Prop} (base : ∀ state, initial state → P state [])
    (keeps : ∀ state event next sent more, P state sent → permitted state event →
      step state event = some (next, more) → P next (sent ++ more))
    {state : S} {sent : List O} (reached : Reachable step permitted initial state sent) :
    P state sent := by
  induction reached with
  | start holds => exact base _ holds
  | step _ event allowed moved ih => exact keeps _ _ _ _ _ ih allowed moved

end Machine
