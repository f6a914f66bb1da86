import Mathlib.Algebra.Ring.Int.Defs
import Mathlib.Algebra.Ring.Nat
import Mathlib.Data.Int.Basic
import Mathlib.Data.List.Basic
import Mathlib.Logic.Function.Basic
import Mathlib.Tactic.Common

/-! Traced runs of C code over byte objects. A run returns a value together with
everything it did on the way: each array access, with the size of the object it
went to, and each call that the caller wants to observe. Memory is total: what
lies around an object reads as some byte, and an access out of bounds is a fact
about the trace, not an end of the run. -/

namespace X300.CMemory

structure Access where
  size : Int
  index : Int
  deriving DecidableEq, Repr

def Access.InBounds (a : Access) : Prop := 0 ≤ a.index ∧ a.index < a.size

instance (a : Access) : Decidable a.InBounds :=
  inferInstanceAs (Decidable (_ ∧ _))

inductive Step (ε : Type) where
  | access (a : Access)
  | call (e : ε)

def Step.InBounds {ε : Type} : Step ε → Prop
  | .access a => a.InBounds
  | .call _ => True

instance {ε : Type} : (s : Step ε) → Decidable s.InBounds
  | .access a => inferInstanceAs (Decidable a.InBounds)
  | .call _ => isTrue trivial

structure Run (ε α : Type) where
  value : α
  trace : List (Step ε)

namespace Run

variable {ε α β : Type}

def pure (a : α) : Run ε α := ⟨a, []⟩

def bind (x : Run ε α) (f : α → Run ε β) : Run ε β :=
  ⟨(f x.value).value, x.trace ++ (f x.value).trace⟩

instance : Monad (Run ε) where
  pure := Run.pure
  bind := Run.bind

def emit (e : ε) : Run ε Unit := ⟨(), [.call e]⟩

def emitAll (es : List ε) : Run ε Unit := ⟨(), es.map .call⟩

def calls (x : Run ε α) : List ε :=
  x.trace.filterMap fun
    | .access _ => none
    | .call e => some e

/-- Every access of the run is inside the object it indexes. -/
def Safe (x : Run ε α) : Prop := ∀ s ∈ x.trace, s.InBounds

instance (x : Run ε α) : Decidable x.Safe := inferInstanceAs (Decidable (∀ s ∈ x.trace, s.InBounds))

@[simp] theorem value_pure (a : α) : (Pure.pure a : Run ε α).value = a := rfl

@[simp] theorem calls_pure (a : α) : (Pure.pure a : Run ε α).calls = [] := rfl

@[simp] theorem safe_pure (a : α) : (Pure.pure a : Run ε α).Safe := by
  intro step member
  cases member

@[simp] theorem value_bind (x : Run ε α) (f : α → Run ε β) :
    (x >>= f).value = (f x.value).value := rfl

@[simp] theorem calls_bind (x : Run ε α) (f : α → Run ε β) :
    (x >>= f).calls = x.calls ++ (f x.value).calls := by
  change (x.trace ++ (f x.value).trace).filterMap _ = _
  rw [List.filterMap_append]
  rfl

@[simp] theorem safe_bind (x : Run ε α) (f : α → Run ε β) :
    (x >>= f).Safe ↔ x.Safe ∧ (f x.value).Safe := by
  change (∀ s ∈ x.trace ++ (f x.value).trace, s.InBounds) ↔ _
  simp only [List.mem_append, or_imp, forall_and]
  rfl

@[simp] theorem calls_ite (c : Prop) [Decidable c] (x y : Run ε α) :
    (if c then x else y).calls = if c then x.calls else y.calls := apply_ite _ _ _ _

theorem bind_const (x : Run ε α) (f : α → Run ε β) : x >>= f = x >>= fun _ => f x.value := rfl

@[simp] theorem calls_emit (e : ε) : (emit e).calls = [e] := rfl

@[simp] theorem safe_emit (e : ε) : (emit e).Safe := by
  simp [Safe, emit, Step.InBounds]

@[simp] theorem calls_emitAll (es : List ε) : (emitAll es).calls = es := by
  simp [emitAll, calls]

@[simp] theorem safe_emitAll (es : List ε) : (emitAll es).Safe := by
  simp [Safe, emitAll, Step.InBounds]

end Run

/-- A pointer into an object of `size` bytes, `off` bytes after its start.
`cell` gives the byte at every distance from that start, in the object or not. -/
structure Ptr where
  cell : Int → UInt8
  size : Int
  off : Int

namespace Ptr

variable {ε : Type}

def add (p : Ptr) (k : Int) : Ptr := { p with off := p.off + k }

@[simp] theorem add_cell (p : Ptr) (k : Int) : (p.add k).cell = p.cell := rfl
@[simp] theorem add_size (p : Ptr) (k : Int) : (p.add k).size = p.size := rfl
@[simp] theorem add_off (p : Ptr) (k : Int) : (p.add k).off = p.off + k := rfl

theorem add_add (p : Ptr) (j k : Int) : (p.add j).add k = p.add (j + k) := by
  simp [add, Int.add_assoc]

@[simp] theorem add_zero (p : Ptr) : p.add 0 = p := by simp [add]

def null : Ptr := ⟨fun _ => 0, 0, 0⟩

def load (p : Ptr) (i : Int) : Run ε UInt8 :=
  ⟨p.cell (p.off + i), [.access ⟨p.size, p.off + i⟩]⟩

def store (p : Ptr) (i : Int) (v : UInt8) : Run ε Ptr :=
  ⟨{ p with cell := Function.update p.cell (p.off + i) v }, [.access ⟨p.size, p.off + i⟩]⟩

def loadU16 (p : Ptr) (i : Int) : Run ε Nat := do
  let low ← p.load i
  let high ← p.load (i + 1)
  pure (low.toNat + 256 * high.toNat)

@[simp] theorem load_value (p : Ptr) (i : Int) :
    (p.load i : Run ε UInt8).value = p.cell (p.off + i) := (rfl)

@[simp] theorem load_calls (p : Ptr) (i : Int) : (p.load i : Run ε UInt8).calls = [] := rfl

@[simp] theorem load_safe (p : Ptr) (i : Int) :
    (p.load i : Run ε UInt8).Safe ↔ 0 ≤ p.off + i ∧ p.off + i < p.size := by
  simp [Run.Safe, load, Step.InBounds, Access.InBounds]

@[simp] theorem loadU16_value (p : Ptr) (i : Int) : (p.loadU16 i : Run ε Nat).value =
    (p.cell (p.off + i)).toNat + 256 * (p.cell (p.off + (i + 1))).toNat := (rfl)

@[simp] theorem loadU16_calls (p : Ptr) (i : Int) : (p.loadU16 i : Run ε Nat).calls = [] := by
  simp [loadU16]

@[simp] theorem loadU16_safe (p : Ptr) (i : Int) :
    (p.loadU16 i : Run ε Nat).Safe ↔ 0 ≤ p.off + i ∧ p.off + i + 2 ≤ p.size := by
  simp only [loadU16, Run.safe_bind, load_safe, Run.safe_pure, and_true]
  omega

@[simp] theorem store_value (p : Ptr) (i : Int) (v : UInt8) :
    (p.store i v : Run ε Ptr).value =
      { p with cell := Function.update p.cell (p.off + i) v } := rfl

@[simp] theorem store_calls (p : Ptr) (i : Int) (v : UInt8) :
    (p.store i v : Run ε Ptr).calls = [] := rfl

@[simp] theorem store_safe (p : Ptr) (i : Int) (v : UInt8) :
    (p.store i v : Run ε Ptr).Safe ↔ 0 ≤ p.off + i ∧ p.off + i < p.size := by
  simp [Run.Safe, store, Step.InBounds, Access.InBounds]

def block (around : Int → UInt8) (xs : List UInt8) : Ptr where
  cell k := if 0 ≤ k ∧ k < xs.length then xs.getD k.toNat 0 else around k
  size := xs.length
  off := 0

def bytes (p : Ptr) (n : Int) : List UInt8 :=
  (List.range n.toNat).map fun i : Nat => p.cell (p.off + i)

/-- The bytes `xs` are found at `p`, all of them inside its object. -/
structure Holds (p : Ptr) (xs : List UInt8) : Prop where
  lower : 0 ≤ p.off
  upper : p.off + xs.length ≤ p.size
  entry : ∀ i (h : i < xs.length), p.cell (p.off + i) = xs[i]

theorem block_holds (around : Int → UInt8) (xs : List UInt8) : (block around xs).Holds xs where
  lower := by simp [block]
  upper := by simp [block]
  entry i h := by simp [block, h]

namespace Holds

variable {p : Ptr} {x : UInt8} {xs ys : List UInt8}

theorem head (h : p.Holds (x :: xs)) :
    p.cell p.off = x ∧ 0 ≤ p.off ∧ p.off < p.size := by
  have entry := h.entry 0 (by simp)
  have lower := h.lower
  have upper := h.upper
  simp only [List.length_cons] at upper
  exact ⟨by simpa using entry, lower, by omega⟩

theorem tail (h : p.Holds (x :: xs)) : (p.add 1).Holds xs where
  lower := by have := h.lower; simp; omega
  upper := by have := h.upper; simp at this ⊢; omega
  entry i hi := by
    have entry := h.entry (i + 1) (by simpa using hi)
    simp only [List.getElem_cons_succ] at entry
    rw [← entry, add_cell, add_off]
    congr 1
    omega

theorem left (h : p.Holds (xs ++ ys)) : p.Holds xs where
  lower := h.lower
  upper := by have := h.upper; simp at this; omega
  entry i hi := by
    have entry := h.entry i (by simp; omega)
    rwa [List.getElem_append_left hi] at entry

theorem right (h : p.Holds (xs ++ ys)) : (p.add xs.length).Holds ys where
  lower := by have := h.lower; simp; omega
  upper := by have := h.upper; simp at this ⊢; omega
  entry i hi := by
    have entry := h.entry (xs.length + i) (by simpa using hi)
    rw [List.getElem_append_right (by omega)] at entry
    simp only [Nat.add_sub_cancel_left] at entry
    rw [← entry, add_cell, add_off]
    congr 1
    omega

theorem load_safe {ε : Type} (h : p.Holds xs) {i : Nat} (hi : i < xs.length) :
    (p.load i : Run ε UInt8).Safe := by
  have lower := h.lower
  have upper := h.upper
  rw [Ptr.load_safe]
  omega

theorem store {ε : Type} (h : p.Holds xs) {i : Int} {k : Nat} (index : i = k) (v : UInt8) :
    (p.store i v : Run ε Ptr).value.Holds (xs.set k v) where
  lower := h.lower
  upper := by simpa using h.upper
  entry j hj := by
    subst index
    rw [List.length_set] at hj
    rw [store_value]
    by_cases same : k = j
    · subst same
      simp
    · rw [List.getElem_set_ne same]
      simp only
      rw [Function.update_of_ne (by omega)]
      exact h.entry j hj

theorem store_safe {ε : Type} (h : p.Holds xs) {i : Int} {k : Nat} (index : i = k)
    (hk : k < xs.length) (v : UInt8) : (p.store i v : Run ε Ptr).Safe := by
  have lower := h.lower
  have upper := h.upper
  rw [Ptr.store_safe]
  omega

theorem bytes_eq (h : p.Holds xs) : p.bytes xs.length = xs := by
  apply List.ext_getElem
  · simp [bytes]
  · intro i _ hi
    simpa [bytes] using h.entry i hi

end Holds

def write (p : Ptr) (j : Int) : List UInt8 → Ptr
  | [] => p
  | x :: xs => write { p with cell := Function.update p.cell (p.off + j) x } (j + 1) xs

@[simp] theorem write_size (p : Ptr) (j : Int) (xs : List UInt8) :
    (p.write j xs).size = p.size := by
  induction xs generalizing p j with
  | nil => rfl
  | cons x xs ih => exact ih _ _

@[simp] theorem write_off (p : Ptr) (j : Int) (xs : List UInt8) :
    (p.write j xs).off = p.off := by
  induction xs generalizing p j with
  | nil => rfl
  | cons x xs ih => exact ih _ _

theorem add_write (p : Ptr) (k j : Int) (xs : List UInt8) :
    (p.add k).write j xs = (p.write (k + j) xs).add k := by
  induction xs generalizing p j with
  | nil => rfl
  | cons x xs ih =>
      have moved : (⟨Function.update p.cell (p.off + k + j) x, p.size, p.off + k⟩ : Ptr) =
          (⟨Function.update p.cell (p.off + (k + j)) x, p.size, p.off⟩ : Ptr).add k := by
        simp [add, Int.add_assoc]
      rw [write, write, Int.add_assoc k j 1, ← ih]
      exact congrArg (fun q : Ptr => q.write (j + 1) xs) moved

theorem write_append (p : Ptr) (j : Int) (xs ys : List UInt8) :
    p.write j (xs ++ ys) = (p.write j xs).write (j + xs.length) ys := by
  induction xs generalizing p j with
  | nil => simp [write]
  | cons x xs ih =>
      have shift : j + ((x :: xs).length : Int) = j + 1 + xs.length := by
        simp only [List.length_cons]
        omega
      rw [List.cons_append, write, ih, shift]
      rfl

theorem write_cell_below (p : Ptr) (j : Int) (xs : List UInt8) {k : Int} (h : k < p.off + j) :
    (p.write j xs).cell k = p.cell k := by
  induction xs generalizing p j with
  | nil => rfl
  | cons x xs ih =>
      rw [write, ih _ _ (by simp only; omega)]
      exact Function.update_of_ne (by omega) _ _

theorem write_cell_above (p : Ptr) (j : Int) (xs : List UInt8) {k : Int}
    (h : p.off + j + xs.length ≤ k) : (p.write j xs).cell k = p.cell k := by
  induction xs generalizing p j with
  | nil => rfl
  | cons x xs ih =>
      simp only [List.length_cons] at h
      rw [write, ih _ _ (by simp only; omega)]
      exact Function.update_of_ne (by omega) _ _

theorem write_cell_congr {p q : Ptr} (off : p.off = q.off) (j : Int) (xs : List UInt8) {k : Int}
    (same : p.cell k = q.cell k) : (p.write j xs).cell k = (q.write j xs).cell k := by
  induction xs generalizing p q j with
  | nil => exact same
  | cons x xs ih =>
      rw [write, write]
      apply ih
      · exact off
      · simp only [Function.update_apply, off, same]

theorem write_entry (p : Ptr) (j : Int) (xs : List UInt8) (i : Nat) (h : i < xs.length) :
    (p.write j xs).cell (p.off + j + i) = xs[i] := by
  induction xs generalizing p j i with
  | nil => simp at h
  | cons x xs ih =>
      cases i with
      | zero =>
          rw [write, write_cell_below _ _ _ (by simp only; omega)]
          simp
      | succ i =>
          have entry := ih { p with cell := Function.update p.cell (p.off + j) x } (j + 1) i
            (by simpa using h)
          simp only [List.getElem_cons_succ]
          rw [write, ← entry]
          congr 1
          simp only
          omega

theorem write_holds (p : Ptr) (j : Int) (xs : List UInt8) (lower : 0 ≤ p.off + j)
    (upper : p.off + j + xs.length ≤ p.size) : ((p.write j xs).add j).Holds xs where
  lower := by simpa using lower
  upper := by simpa using upper
  entry i h := by simpa using p.write_entry j xs i h

@[simp] theorem bytes_length (p : Ptr) (n : Int) : (p.bytes n).length = n.toNat := by
  simp [bytes]

theorem add_write_back (p : Ptr) (k : Int) (xs : List UInt8) :
    ((p.add k).write 0 xs).add (-k) = p.write k xs := by
  rw [add_write, add_add, Int.add_zero, Int.add_right_neg, add_zero]

/-- `memcpy`, one byte after another; the target as it is left. -/
def memcpyLoop (src : Ptr) : Nat → Int → Ptr → Run ε Ptr
  | 0, _, dest => pure dest
  | n + 1, i, dest => do
      let c ← src.load i
      let dest ← dest.store i c
      memcpyLoop src n (i + 1) dest

def memcpy (dest src : Ptr) (n : Int) : Run ε Ptr := memcpyLoop src n.toNat 0 dest

@[simp] theorem memcpy_calls (dest src : Ptr) (n : Int) :
    (memcpy dest src n : Run ε Ptr).calls = [] := by
  have loop : ∀ n i dest, (memcpyLoop src n i dest : Run ε Ptr).calls = [] := by
    intro n
    induction n with
    | zero => intro i dest; rfl
    | succ n ih => intro i dest; simp [memcpyLoop, ih]
  exact loop _ _ _

theorem memcpyLoop_value (src : Ptr) (xs : List UInt8) (i : Int) (dest : Ptr)
    (h : (src.add i).Holds xs) :
    (memcpyLoop src xs.length i dest : Run ε Ptr).value = dest.write i xs := by
  induction xs generalizing i dest with
  | nil => rfl
  | cons x xs ih =>
      have first : src.cell (src.off + i) = x := h.head.1
      have rest : (src.add (i + 1)).Holds xs := by simpa [add_add] using h.tail
      simp only [List.length_cons, memcpyLoop, Run.value_bind, load_value, first, ih _ _ rest]
      rfl

theorem memcpyLoop_safe (src : Ptr) (xs : List UInt8) (i : Int) (dest : Ptr)
    (h : (src.add i).Holds xs) (lower : 0 ≤ dest.off + i)
    (upper : dest.off + i + xs.length ≤ dest.size) :
    (memcpyLoop src xs.length i dest : Run ε Ptr).Safe := by
  induction xs generalizing i dest with
  | nil => exact Run.safe_pure _
  | cons x xs ih =>
      have rest : (src.add (i + 1)).Holds xs := by simpa [add_add] using h.tail
      simp only [List.length_cons] at upper
      simp only [List.length_cons, memcpyLoop, Run.safe_bind, load_safe, store_safe]
      exact ⟨h.head.2, ⟨by omega, by omega⟩, ih _ _ rest (by simp only [store_value]; omega)
        (by simp only [store_value]; omega)⟩

theorem memcpy_value {src : Ptr} {xs : List UInt8} (h : src.Holds xs) (dest : Ptr) {n : Int}
    (count : n = xs.length) : (memcpy dest src n : Run ε Ptr).value = dest.write 0 xs := by
  subst count
  exact memcpyLoop_value src xs 0 dest (by simpa using h)

theorem memcpy_safe {src : Ptr} {xs : List UInt8} (h : src.Holds xs) {dest : Ptr} {n : Int}
    (count : n = xs.length) (lower : 0 ≤ dest.off) (upper : dest.off + xs.length ≤ dest.size) :
    (memcpy dest src n : Run ε Ptr).Safe := by
  subst count
  exact memcpyLoop_safe src xs 0 dest (by simpa using h) (by omega) (by omega)

end Ptr

/-! 32-bit machine integers, as the integers they stand for. -/

def u32 (x : Int) : Int := x % 2 ^ 32

def s32 (x : Int) : Int := if u32 x < 2 ^ 31 then u32 x else u32 x - 2 ^ 32

theorem u32_eq {x : Int} (lower : 0 ≤ x) (upper : x < 2 ^ 32) : u32 x = x :=
  Int.emod_eq_of_lt lower upper

theorem s32_eq {x : Int} (lower : 0 ≤ x) (upper : x < 2 ^ 31) : s32 x = x := by
  rw [s32, u32_eq lower (by omega), if_pos upper]

/-- Conversion of a C `int` to `unsigned int`: exact on every value an `int` takes. -/
def toUnsigned (x : Int) : Int := if x < 0 then x + 2 ^ 32 else x

theorem toUnsigned_of_nonneg {x : Int} (h : 0 ≤ x) : toUnsigned x = x := by
  simp [toUnsigned, Int.not_lt.mpr h]

end X300.CMemory
