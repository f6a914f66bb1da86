import Mathlib.Data.Int.Basic
import Mathlib.Data.List.Basic
import Mathlib.Tactic.Common

/-! Lists kept in a ring of cells: places counted around the ring from a start, the
list found at a number of successive places, and what writing behind it does. -/

namespace X300.RingView

def place (n start i : Int) : Int := (start + i) % n

theorem place_eq {n start i : Int} (hs : 0 ≤ start) (hn : start < n) (hi : 0 ≤ i) (hin : i ≤ n) :
    place n start i = if start + i < n then start + i else start + i - n := by
  unfold place
  split_ifs with h
  · exact Int.emod_eq_of_lt (by omega) h
  · rw [← Int.sub_emod_right]
    exact Int.emod_eq_of_lt (by omega) (by omega)

theorem place_nonneg {n : Int} (hn : 0 < n) (start i : Int) : 0 ≤ place n start i :=
  Int.emod_nonneg _ (by omega)

theorem place_lt {n : Int} (hn : 0 < n) (start i : Int) : place n start i < n :=
  Int.emod_lt_of_pos _ hn

theorem place_place (n start i j : Int) : place n (place n start i) j = place n start (i + j) := by
  rw [place, place, place, Int.emod_add_emod, Int.add_assoc]

variable {α : Type}

def row (cell : Int → α) (start : Int) (len : Nat) : List α :=
  (List.range len).map fun i : Nat => cell (start + i)

/-- The `len` cells from `start` on, around a ring of `n` cells. -/
def view (cell : Int → α) (n start : Int) (len : Nat) : List α :=
  (List.range len).map fun i : Nat => cell (place n start i)

@[simp] theorem view_length (cell : Int → α) (n start : Int) (len : Nat) :
    (view cell n start len).length = len := by simp [view]

@[simp] theorem view_getElem (cell : Int → α) (n start : Int) (len : Nat) (i : Nat)
    (h : i < (view cell n start len).length) :
    (view cell n start len)[i] = cell (place n start i) := by simp [view]

theorem view_take (cell : Int → α) (n start : Int) (len k : Nat) :
    (view cell n start len).take k = view cell n start (min k len) := by
  rw [view, ← List.map_take, List.take_range, view]

theorem view_drop (cell : Int → α) (n start : Int) (len k : Nat) :
    (view cell n start len).drop k = view cell n (place n start k) (len - k) := by
  apply List.ext_getElem
  · simp
  · intro i _ _
    rw [List.getElem_drop, view_getElem, view_getElem, place_place]
    simp

theorem view_row (cell : Int → α) {n start : Int} {len : Nat} (hs : 0 ≤ start)
    (hn : start + len ≤ n) : view cell n start len = row cell start len := by
  apply List.map_congr_left
  intro i hi
  rw [List.mem_range] at hi
  rw [place_eq hs (by omega) (by omega) (by omega), if_pos (by omega)]

theorem view_wrap (cell : Int → α) {n start : Int} {len first : Nat} (hs : 0 ≤ start)
    (hn : start < n) (end_eq : start + first = n) (wrapped : first ≤ len) (fits : len ≤ n) :
    view cell n start len = row cell start first ++ row cell 0 (len - first) := by
  apply List.ext_getElem
  · simp [row]
    omega
  · intro i hi _
    rw [view_length] at hi
    rw [view_getElem]
    by_cases low : i < first
    · rw [List.getElem_append_left (by simpa [row] using low),
        place_eq hs hn (by omega) (by omega), if_pos (by omega)]
      simp [row]
    · have rowLength : (row cell start first).length = first := by simp [row]
      rw [List.getElem_append_right (by omega), place_eq hs hn (by omega) (by omega),
        if_neg (by omega)]
      simp only [row, List.getElem_map, List.getElem_range]
      congr 1
      simp only [List.length_map, List.length_range]
      omega

/-- Writing the places behind a view appends to it. -/
theorem view_append {cell cell' : Int → α} {n start : Int} {len : Nat} (xs : List α)
    (kept : ∀ i < len, cell' (place n start i) = cell (place n start i))
    (written : ∀ j, (h : j < xs.length) → cell' (place n start (len + j)) = xs[j]) :
    view cell' n start (len + xs.length) = view cell n start len ++ xs := by
  apply List.ext_getElem
  · simp
  · intro i hi _
    rw [view_length] at hi
    rw [view_getElem]
    by_cases low : i < len
    · rw [List.getElem_append_left (by simpa using low), view_getElem, kept i low]
    · rw [List.getElem_append_right (by simpa using low)]
      have entry := written (i - len) (by omega)
      rw [show ((len : Int) + (i - len : Nat)) = i by omega] at entry
      simpa using entry

end X300.RingView
