import Mathlib.Algebra.Ring.Int.Defs
import Mathlib.Tactic.Common

/-! An allocator that may refuse any request, seen through the number of blocks in use. -/

namespace X300.BlockCount

/-- `serves n` says whether the `n`-th request is served. -/
structure Heap where
  serves : Nat → Bool
  requests : Nat
  live : Int

namespace Heap

def malloc (h : Heap) : Bool × Heap :=
  (h.serves h.requests,
    { h with requests := h.requests + 1, live := h.live + if h.serves h.requests then 1 else 0 })

def realloc (h : Heap) (held : Bool) : Bool × Heap :=
  if held then (h.serves h.requests, { h with requests := h.requests + 1 }) else h.malloc

def free (h : Heap) (blocks : Nat) : Heap := { h with live := h.live - blocks }

def Generous (h : Heap) : Prop := ∀ n, h.serves n = true

/-- `after` is the same allocator with `blocks` more blocks in use. -/
structure Moves (h after : Heap) (blocks : Int) : Prop where
  serves : after.serves = h.serves
  live : after.live = h.live + blocks

theorem Moves.refl (h : Heap) : h.Moves h 0 := ⟨rfl, (add_zero _).symm⟩

theorem Moves.trans {a b c : Heap} {m n : Int} (first : a.Moves b m) (second : b.Moves c n) :
    a.Moves c (m + n) :=
  ⟨second.serves.trans first.serves, by rw [second.live, first.live, add_assoc]⟩

theorem Moves.cast {a b : Heap} {m n : Int} (move : a.Moves b m) (same : m = n) : a.Moves b n :=
  same ▸ move

theorem Moves.generous {a b : Heap} {n : Int} (move : a.Moves b n) : b.Generous ↔ a.Generous := by
  rw [Generous, Generous, move.serves]

theorem moves_free (h : Heap) (blocks : Nat) : h.Moves (h.free blocks) (-blocks) :=
  ⟨rfl, rfl⟩

theorem Moves.around {a b c : Heap} {k : Nat} {n : Int} (taken : a.Moves (b.free k) 0)
    (work : b.Moves c n) : a.Moves (c.free k) n := by
  refine ⟨work.serves.trans taken.serves, ?_⟩
  have start := taken.live
  simp only [free, work.live] at start ⊢
  omega

theorem free_free (h : Heap) (m n : Nat) : (h.free m).free n = h.free (m + n) := by
  simp only [free, Nat.cast_add, sub_sub]

theorem malloc_cases (h : Heap) :
    (∃ after, h.malloc = (true, after) ∧ h.Moves after 1) ∨
      ∃ after, h.malloc = (false, after) ∧ h.Moves after 0 ∧ ¬h.Generous := by
  cases served : h.serves h.requests with
  | true => exact .inl ⟨h.malloc.2, Prod.ext served rfl, rfl, by simp [malloc, served]⟩
  | false =>
      refine .inr ⟨h.malloc.2, Prod.ext served rfl, ⟨rfl, by simp [malloc, served]⟩, fun all => ?_⟩
      rw [all] at served
      cases served

theorem realloc_cases (h : Heap) (held : Bool) :
    (∃ after, h.realloc held = (true, after) ∧ h.Moves after (if held then 0 else 1)) ∨
      ∃ after, h.realloc held = (false, after) ∧ h.Moves after 0 ∧ ¬h.Generous := by
  cases held with
  | false => simpa [realloc] using h.malloc_cases
  | true =>
      cases served : h.serves h.requests with
      | true => exact .inl ⟨(h.realloc true).2, Prod.ext served rfl, rfl, by simp [realloc]⟩
      | false =>
          refine .inr ⟨(h.realloc true).2, Prod.ext served rfl, ⟨rfl, by simp [realloc]⟩, fun all => ?_⟩
          rw [all] at served
          cases served

end Heap

end X300.BlockCount
