import Mathlib.Data.List.Basic
import Mathlib.Tactic.Common

/-! Properties of every state of a finite run, and conditions on each of its steps. A
run is a list of actions from a start state; its states are those after its prefixes. -/

namespace X300.RunPrefixes

variable {σ α : Type}

def Always (step : σ → α → σ) (P : σ → Prop) (s : σ) (run : List α) : Prop :=
  ∀ done, done <+: run → P (done.foldl step s)

/-- Every action of the run meets `H` in the state it is taken in. -/
def Steps (step : σ → α → σ) (H : σ → α → Prop) (s : σ) (run : List α) : Prop :=
  ∀ done a, done ++ [a] <+: run → H (done.foldl step s) a

variable {step : σ → α → σ} {P I : σ → Prop} {H : σ → α → Prop} {s : σ} {a : α} {run : List α}

theorem always_nil : Always step P s [] ↔ P s := by
  simp [Always]

theorem always_cons : Always step P s (a :: run) ↔ P s ∧ Always step P (step s a) run := by
  constructor
  · intro always
    refine ⟨always [] List.nil_prefix, fun done reached => ?_⟩
    exact always (a :: done) ((List.prefix_cons_inj a).mpr reached)
  · rintro ⟨here, later⟩ done reached
    cases done with
    | nil => exact here
    | cons b done =>
        obtain ⟨rfl, rest⟩ := List.cons_prefix_cons.mp reached
        exact later done rest

theorem steps_nil : Steps step H s [] := by
  intro done a reached
  have length := reached.length_le
  simp at length

theorem steps_cons : Steps step H s (a :: run) ↔ H s a ∧ Steps step H (step s a) run := by
  constructor
  · intro steps
    refine ⟨steps [] a ((List.prefix_cons_inj a).mpr List.nil_prefix), fun done b reached => ?_⟩
    exact steps (a :: done) b ((List.prefix_cons_inj a).mpr reached)
  · rintro ⟨here, later⟩ done b reached
    cases done with
    | nil =>
        obtain ⟨rfl, _⟩ := List.cons_prefix_cons.mp reached
        exact here
    | cons c done =>
        obtain ⟨rfl, rest⟩ := List.cons_prefix_cons.mp reached
        exact later done b rest

theorem always_of_steps (keeps : ∀ s a, I s → H s a → I (step s a)) (start : I s)
    (steps : Steps step H s run) : Always step I s run := by
  induction run generalizing s with
  | nil => exact always_nil.mpr start
  | cons a run ih =>
      obtain ⟨here, later⟩ := steps_cons.mp steps
      exact always_cons.mpr ⟨start, ih (keeps s a start here) later⟩

theorem steps_iff_steps {Q : σ → α → Prop} (keeps : ∀ s a, I s → H s a → I (step s a))
    (same : ∀ s a, I s → (Q s a ↔ H s a)) (start : I s) :
    Steps step Q s run ↔ Steps step H s run := by
  induction run generalizing s with
  | nil => exact iff_of_true steps_nil steps_nil
  | cons a run ih =>
      rw [steps_cons, steps_cons, same s a start]
      exact and_congr_right fun here => ih (keeps s a start here)

/-- When a step out of a good state ends in a good state exactly under `H`, a run stays
good exactly when all its steps meet `H`. -/
theorem always_iff_steps (inv : ∀ s a, I s → I (step s a))
    (preserved : ∀ s a, I s → P s → (P (step s a) ↔ H s a)) (start : I s) (good : P s) :
    Always step P s run ↔ Steps step H s run := by
  induction run generalizing s with
  | nil => exact iff_of_true (always_nil.mpr good) steps_nil
  | cons a run ih =>
      have one := preserved s a start good
      rw [always_cons, steps_cons]
      constructor
      · rintro ⟨_, later⟩
        have next : P (step s a) := later [] List.nil_prefix
        exact ⟨one.mp next, (ih (inv s a start) next).mp later⟩
      · rintro ⟨here, later⟩
        exact ⟨good, (ih (inv s a start) (one.mpr here)).mpr later⟩

end X300.RunPrefixes
