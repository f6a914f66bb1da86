import Mathlib.Logic.Function.Basic
import Mathlib.Tactic.Common

/-! Shared objects whose operations first look at the state without holding the lock,
where they may return at once on what they see, and otherwise run a body under the
lock. The look and the body of an operation are two atomic steps, so by the time the
body runs the state may be another one. Threads interleave in any way. -/

namespace X300.LockedObject

/-- `test` is the result of an early return, if the operation makes one. -/
structure Object (σ ω ρ : Type) where
  test : σ → ω → Option ρ
  body : σ → ω → σ × ρ

inductive Act (τ ω : Type) where
  | test (thread : τ) (op : ω)
  | body (thread : τ)

/-- The shared state, and the operation whose body each thread has yet to run. -/
structure Config (σ τ ω : Type) where
  shared : σ
  pending : τ → Option ω

def Config.start {σ τ ω : Type} (s : σ) : Config σ τ ω := ⟨s, fun _ => none⟩

structure Return (τ ω ρ : Type) where
  thread : τ
  op : ω
  result : ρ

namespace Object

variable {σ σ' τ ω ρ : Type} [DecidableEq τ]

/-- One atomic step. A thread that is inside an operation begins no other one, and
a thread that is in none has no body to run. -/
def step (O : Object σ ω ρ) (c : Config σ τ ω) :
    Act τ ω → Config σ τ ω × List (Return τ ω ρ)
  | .test t op =>
      match c.pending t with
      | some _ => (c, [])
      | none =>
          match O.test c.shared op with
          | some result => (c, [⟨t, op, result⟩])
          | none => (⟨c.shared, Function.update c.pending t (some op)⟩, [])
  | .body t =>
      match c.pending t with
      | none => (c, [])
      | some op =>
          (⟨(O.body c.shared op).1, Function.update c.pending t none⟩,
            [⟨t, op, (O.body c.shared op).2⟩])

def run (O : Object σ ω ρ) (c : Config σ τ ω) :
    List (Act τ ω) → Config σ τ ω × List (Return τ ω ρ)
  | [] => (c, [])
  | act :: acts =>
      ((O.run (O.step c act).1 acts).1, (O.step c act).2 ++ (O.run (O.step c act).1 acts).2)

def call (O : Object σ ω ρ) (s : σ) (op : ω) : σ × ρ :=
  match O.test s op with
  | some result => (s, result)
  | none => O.body s op

theorem call_early {O : Object σ ω ρ} {s : σ} {op : ω} {result : ρ}
    (early : O.test s op = some result) : O.call s op = (s, result) := by
  rw [call, early]

theorem call_body {O : Object σ ω ρ} {s : σ} {op : ω} (late : O.test s op = none) :
    O.call s op = O.body s op := by
  rw [call, late]

theorem run_uninterrupted (O : Object σ ω ρ) {c : Config σ τ ω} {t : τ}
    (idle : c.pending t = none) (op : ω) :
    O.run c [.test t op, .body t] =
      match O.test c.shared op with
      | some result => (c, [⟨t, op, result⟩])
      | none => (⟨(O.body c.shared op).1, c.pending⟩, [⟨t, op, (O.body c.shared op).2⟩]) := by
  have closed : Function.update (Function.update c.pending t (some op)) t none = c.pending := by
    rw [Function.update_idem, ← idle, Function.update_eq_self]
  cases early : O.test c.shared op with
  | some result => simp [run, step, idle, early]
  | none => simp [run, step, idle, early, closed]

structure Simulates (O : Object σ ω ρ) (A : Object σ' ω ρ) (R : σ → σ' → Prop) : Prop where
  test : ∀ s s' op, R s s' → O.test s op = A.test s' op
  body : ∀ s s' op, R s s' → R (O.body s op).1 (A.body s' op).1 ∧
    (O.body s op).2 = (A.body s' op).2

variable {O : Object σ ω ρ} {A : Object σ' ω ρ} {R : σ → σ' → Prop}

theorem Simulates.call (h : Simulates O A R) {s : σ} {s' : σ'} (related : R s s') (op : ω) :
    R (O.call s op).1 (A.call s' op).1 ∧ (O.call s op).2 = (A.call s' op).2 := by
  have same := h.test s s' op related
  cases early : A.test s' op with
  | some result =>
      rw [call_early early, call_early (same.trans early)]
      exact ⟨related, rfl⟩
  | none =>
      rw [call_body early, call_body (same.trans early)]
      exact h.body s s' op related

structure Agree (R : σ → σ' → Prop) (c : Config σ τ ω) (c' : Config σ' τ ω) : Prop where
  shared : R c.shared c'.shared
  pending : c.pending = c'.pending

theorem Simulates.step (h : Simulates O A R) {c : Config σ τ ω} {c' : Config σ' τ ω}
    (agree : Agree R c c') (act : Act τ ω) :
    Agree R (O.step c act).1 (A.step c' act).1 ∧ (O.step c act).2 = (A.step c' act).2 := by
  obtain ⟨shared, pending⟩ := agree
  cases act with
  | test t op =>
      simp only [Object.step, pending, h.test _ _ op shared]
      cases c'.pending t with
      | some _ => exact ⟨⟨shared, pending⟩, rfl⟩
      | none =>
          cases A.test c'.shared op with
          | some _ => exact ⟨⟨shared, pending⟩, rfl⟩
          | none => exact ⟨⟨shared, rfl⟩, rfl⟩
  | body t =>
      simp only [Object.step, pending]
      cases c'.pending t with
      | none => exact ⟨⟨shared, pending⟩, rfl⟩
      | some op =>
          obtain ⟨related, same⟩ := h.body _ _ op shared
          exact ⟨⟨related, rfl⟩, by simp only [same]⟩

/-- Every interleaving of the two objects returns the same, and keeps them related. -/
theorem Simulates.run (h : Simulates O A R) {c : Config σ τ ω} {c' : Config σ' τ ω}
    (agree : Agree R c c') (acts : List (Act τ ω)) :
    Agree R (O.run c acts).1 (A.run c' acts).1 ∧ (O.run c acts).2 = (A.run c' acts).2 := by
  induction acts generalizing c c' with
  | nil => exact ⟨agree, rfl⟩
  | cons act acts ih =>
      obtain ⟨next, returned⟩ := h.step agree act
      obtain ⟨final, later⟩ := ih next
      exact ⟨final, by simp only [Object.run, returned, later]⟩

end Object

end X300.LockedObject
