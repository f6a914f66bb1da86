import X300.CMemory

/-! Packed little-endian integers in byte objects: reading them through a pointer, the
bytes they are stored as, and two views of traced code that uses them. One holds every
access to a part of an object, the other keeps some of the observed calls. -/

namespace X300.PackedFields
open CMemory

def toLE : Nat → Nat → List UInt8
  | 0, _ => []
  | w + 1, n => UInt8.ofNat n :: toLE w (n / 256)

def ofLE : List UInt8 → Nat
  | [] => 0
  | b :: bs => b.toNat + 256 * ofLE bs

@[simp] theorem toLE_length (w n : Nat) : (toLE w n).length = w := by
  induction w generalizing n with
  | zero => rfl
  | succ w ih => rw [toLE, List.length_cons, ih]

theorem ofLE_toLE {w n : Nat} (bound : n < 256 ^ w) : ofLE (toLE w n) = n := by
  induction w generalizing n with
  | zero =>
      rw [Nat.pow_zero] at bound
      rw [toLE, ofLE]
      omega
  | succ w ih =>
      have high : n / 256 < 256 ^ w := by
        rw [Nat.pow_succ] at bound
        omega
      rw [toLE, ofLE, ih high, UInt8.toNat_ofNat']
      omega

theorem toLE_ofLE {w : Nat} {bs : List UInt8} (size : bs.length = w) : toLE w (ofLE bs) = bs := by
  induction bs generalizing w with
  | nil =>
      subst size
      rfl
  | cons b bs ih =>
      subst size
      have low := b.toNat_lt
      have first : UInt8.ofNat (b.toNat + 256 * ofLE bs) = b := by
        apply UInt8.toNat_inj.mp
        rw [UInt8.toNat_ofNat']
        omega
      have rest : (b.toNat + 256 * ofLE bs) / 256 = ofLE bs := by omega
      rw [List.length_cons, toLE, ofLE, first, rest, ih rfl]

section Loads

variable {ε : Type}

def loadLE (p : Ptr) : Nat → Int → Run ε Nat
  | 0, _ => pure 0
  | w + 1, i => do
      let low ← p.load i
      let high ← loadLE p w (i + 1)
      pure (low.toNat + 256 * high)

theorem bytes_succ (p : Ptr) (n : Nat) :
    p.bytes (n + 1 : Nat) = p.cell p.off :: (p.add 1).bytes n := by
  simp only [Ptr.bytes, Int.toNat_natCast, List.range_succ_eq_map, List.map_cons, List.map_map,
    Ptr.add_cell, Ptr.add_off]
  congr 1
  · simp
  · apply List.map_congr_left
    intro i _
    simp only [Function.comp_apply]
    congr 1
    omega

theorem bytes_entry {p q : Ptr} {n i : Nat} (same : p.bytes n = q.bytes n) (inside : i < n) :
    p.cell (p.off + i) = q.cell (q.off + i) := by
  have left : (p.bytes n)[i]? = some (p.cell (p.off + i)) := by simp [Ptr.bytes, inside]
  have right : (q.bytes n)[i]? = some (q.cell (q.off + i)) := by simp [Ptr.bytes, inside]
  rw [same, right, Option.some.injEq] at left
  exact left.symm

theorem bytes_take (p : Ptr) {k n : Nat} (short : k ≤ n) : (p.bytes n).take k = p.bytes k := by
  simp only [Ptr.bytes, Int.toNat_natCast, ← List.map_take, List.take_range, Nat.min_eq_left short]

theorem bytes_slice {p : Ptr} {xs : List UInt8} (h : p.Holds xs) {i n : Nat}
    (inside : i + n ≤ xs.length) : (p.add i).bytes n = (xs.drop i).take n := by
  apply List.ext_getElem
  · simp only [Ptr.bytes_length, Int.toNat_natCast, List.length_take, List.length_drop]
    omega
  · intro k hk _
    rw [Ptr.bytes_length, Int.toNat_natCast] at hk
    have entry := h.entry (i + k) (by omega)
    simp only [Ptr.bytes, List.getElem_map, List.getElem_range, Ptr.add_cell, Ptr.add_off,
      List.getElem_take, List.getElem_drop]
    rw [← entry, Int.add_assoc, Int.natCast_add]

theorem loadLE_value (p : Ptr) (w : Nat) (i : Int) :
    (loadLE p w i : Run ε Nat).value = ofLE ((p.add i).bytes w) := by
  induction w generalizing i with
  | zero => rfl
  | succ w ih =>
      rw [bytes_succ, ofLE, loadLE]
      simp only [Run.value_bind, Ptr.load_value, Run.value_pure, ih, Ptr.add_add, Ptr.add_cell,
        Ptr.add_off]

theorem toLE_loadLE (p : Ptr) (w : Nat) (i : Int) :
    toLE w (loadLE p w i : Run ε Nat).value = (p.add i).bytes w := by
  rw [loadLE_value]
  exact toLE_ofLE (Ptr.bytes_length _ _)

theorem loadU16_eq (p : Ptr) (i : Int) :
    (p.loadU16 i : Run ε Nat).value = (loadLE p 2 i : Run ε Nat).value := by
  simp [loadLE]

@[simp] theorem loadLE_calls (p : Ptr) (w : Nat) (i : Int) :
    (loadLE p w i : Run ε Nat).calls = [] := by
  induction w generalizing i with
  | zero => rfl
  | succ w ih => simp [loadLE, ih]

theorem loadLE_safe (p : Ptr) {w : Nat} (some_bytes : 0 < w) (i : Int) :
    (loadLE p w i : Run ε Nat).Safe ↔ 0 ≤ p.off + i ∧ p.off + i + w ≤ p.size := by
  induction w generalizing i with
  | zero => omega
  | succ w ih =>
      simp only [loadLE, Run.safe_bind, Ptr.load_safe, Run.safe_pure, and_true]
      cases w with
      | zero =>
          have none : (loadLE p 0 (i + 1) : Run ε Nat).Safe := Run.safe_pure _
          simp only [none, and_true]
          omega
      | succ w =>
          rw [ih (Nat.succ_pos w)]
          omega

end Loads

/-- The pointer with its object cut down to the bytes from `lo` to before `hi`. The
memory behind it stays as it is. -/
def narrow (p : Ptr) (lo hi : Int) : Ptr := ⟨fun k => p.cell (lo + k), hi - lo, p.off - lo⟩

section Observe

variable {ε δ α : Type}

/-- The run seen by an observer who is told of some of its calls. -/
def observe (f : ε → Option δ) (x : Run ε α) : Run δ α :=
  ⟨x.value, x.trace.filterMap fun
    | .access a => some (.access a)
    | .call e => (f e).map .call⟩

@[simp] theorem observe_value (f : ε → Option δ) (x : Run ε α) : (observe f x).value = x.value := rfl

@[simp] theorem observe_calls (f : ε → Option δ) (x : Run ε α) :
    (observe f x).calls = x.calls.filterMap f := by
  rw [Run.calls, Run.calls, observe, List.filterMap_filterMap, List.filterMap_filterMap]
  congr 1
  funext step
  cases step with
  | access a => rfl
  | call e => cases seen : f e <;> simp [seen]

@[simp] theorem observe_safe (f : ε → Option δ) (x : Run ε α) : (observe f x).Safe ↔ x.Safe := by
  constructor
  · intro safe step member
    cases step with
    | access a => exact safe (.access a) (List.mem_filterMap.mpr ⟨_, member, rfl⟩)
    | call e => trivial
  · intro safe step member
    obtain ⟨source, recorded, seen⟩ := List.mem_filterMap.mp member
    cases source with
    | access a =>
        cases seen
        exact safe _ recorded
    | call e =>
        obtain ⟨d, _, rfl⟩ := Option.map_eq_some_iff.mp seen
        trivial

end Observe

end X300.PackedFields
