import X300.CMemory
import Mathlib.Data.List.TakeWhile

/-! C strings in byte objects, and the functions of `string.h` on them, written from their
documented behaviour. A scan that leaves its object is followed as far as the first byte
outside: that access is in the trace, and what the code does after it is undefined. -/

namespace X300.CStrings
open CMemory

variable {ε : Type}

/-- The bytes at `p` up to the first NUL, in the object of `p` or not. -/
structure StringAt (p : Ptr) (xs : List UInt8) : Prop where
  plain : 0 ∉ xs
  bytes : p.bytes (xs.length + 1 : Nat) = xs ++ [0]

/-- A string that lies in its object together with its NUL. -/
structure Terminated (p : Ptr) (xs : List UInt8) : Prop where
  plain : 0 ∉ xs
  holds : p.Holds (xs ++ [0])

def scanLoop (stop : UInt8 → Bool) (p : Ptr) : Nat → Int → Run ε Int
  | 0, i => pure i
  | fuel + 1, i => do
      let c ← p.load i
      if stop c = true then pure i else scanLoop stop p fuel (i + 1)

def scan (stop : UInt8 → Bool) (p : Ptr) (i : Int) : Run ε Int :=
  scanLoop stop p (p.size - (p.off + i) + 1).toNat i

section Scans

variable {stop : UInt8 → Bool} {p : Ptr}

@[simp] theorem scanLoop_calls (fuel : Nat) (i : Int) :
    (scanLoop stop p fuel i : Run ε Int).calls = [] := by
  induction fuel generalizing i with
  | zero => rfl
  | succ fuel ih => simp [scanLoop, ih]

@[simp] theorem scan_calls (i : Int) : (scan stop p i : Run ε Int).calls = [] :=
  scanLoop_calls _ i

theorem scanLoop_stop {i : Int} (hit : stop (p.cell (p.off + i)) = true) (fuel : Nat) :
    (scanLoop stop p (fuel + 1) i : Run ε Int).value = i ∧
      ((scanLoop stop p (fuel + 1) i : Run ε Int).Safe ↔ 0 ≤ p.off + i ∧ p.off + i < p.size) := by
  simp [scanLoop, hit]

theorem scanLoop_next {i : Int} (miss : stop (p.cell (p.off + i)) = false) (fuel : Nat) :
    (scanLoop stop p (fuel + 1) i : Run ε Int).value =
        (scanLoop stop p fuel (i + 1) : Run ε Int).value ∧
      ((scanLoop stop p (fuel + 1) i : Run ε Int).Safe ↔ (0 ≤ p.off + i ∧ p.off + i < p.size) ∧
        (scanLoop stop p fuel (i + 1) : Run ε Int).Safe) := by
  simp [scanLoop, miss]

theorem scanLoop_spec {i : Int} {n fuel : Nat} (lower : 0 ≤ p.off + i)
    (upper : p.off + i + n < p.size) (enough : n < fuel)
    (before : ∀ k < n, stop (p.cell (p.off + i + (k : Nat))) = false)
    (hit : stop (p.cell (p.off + i + n)) = true) :
    (scanLoop stop p fuel i : Run ε Int).value = i + n ∧
      (scanLoop stop p fuel i : Run ε Int).Safe := by
  induction n generalizing i fuel with
  | zero =>
      obtain ⟨fuel, rfl⟩ := Nat.exists_eq_succ_of_ne_zero (Nat.ne_of_gt enough)
      rw [Int.natCast_zero, Int.add_zero] at hit upper
      obtain ⟨value, safe⟩ := scanLoop_stop (ε := ε) hit fuel
      exact ⟨by simpa using value, safe.mpr ⟨lower, upper⟩⟩
  | succ n ih =>
      obtain ⟨fuel, rfl⟩ := Nat.exists_eq_succ_of_ne_zero (Nat.ne_of_gt (Nat.zero_lt_of_lt enough))
      have shift : ∀ k : Nat, p.off + (i + 1) + k = p.off + i + (k + 1 : Nat) := by
        intro k
        omega
      have miss := before 0 (Nat.succ_pos n)
      rw [Int.natCast_zero, Int.add_zero] at miss
      obtain ⟨value, safe⟩ := scanLoop_next (ε := ε) miss fuel
      have fewer : n < fuel := by omega
      obtain ⟨found, rest⟩ := ih (i := i + 1) (by omega) (by omega) fewer
        (fun k inside => by rw [shift]; exact before (k + 1) (by omega)) (by rw [shift]; exact hit)
      refine ⟨?_, safe.mpr ⟨⟨lower, by omega⟩, rest⟩⟩
      rw [value, found]
      omega

theorem scan_spec {i : Int} {n : Nat} (lower : 0 ≤ p.off + i) (upper : p.off + i + n < p.size)
    (before : ∀ k < n, stop (p.cell (p.off + i + (k : Nat))) = false)
    (hit : stop (p.cell (p.off + i + n)) = true) :
    (scan stop p i : Run ε Int).value = i + n ∧ (scan stop p i : Run ε Int).Safe :=
  scanLoop_spec lower upper (by omega) before hit

theorem scan_unsafe {i : Int} (upper : p.off + i ≤ p.size)
    (before : ∀ k : Nat, p.off + i + k < p.size → stop (p.cell (p.off + i + k)) = false) :
    ¬(scan stop p i : Run ε Int).Safe := by
  have loop : ∀ (n : Nat) (i : Int), p.off + i + n = p.size →
      (∀ k : Nat, p.off + i + k < p.size → stop (p.cell (p.off + i + k)) = false) →
      ¬(scanLoop stop p (n + 1) i : Run ε Int).Safe := by
    intro n
    induction n with
    | zero =>
        intro i last _ safe
        simp only [scanLoop, Run.safe_bind, Ptr.load_safe] at safe
        omega
    | succ n ih =>
        intro i last quiet safe
        have miss := quiet 0 (by omega)
        rw [Int.natCast_zero, Int.add_zero] at miss
        refine ih (i + 1) (by omega) (fun k inside => ?_)
          ((scanLoop_next (ε := ε) miss (n + 1)).2.mp safe).2
        have shift : p.off + (i + 1) + k = p.off + i + (k + 1 : Nat) := by omega
        rw [shift] at inside ⊢
        exact quiet (k + 1) inside
  have fuel : (p.size - (p.off + i) + 1).toNat = (p.size - (p.off + i)).toNat + 1 := by omega
  rw [scan, fuel]
  exact loop _ i (by omega) before

end Scans

def isNul (c : UInt8) : Bool := c = 0

def strlen (p : Ptr) : Run ε Int := scan isNul p 0

def strnlen (p : Ptr) (n : Nat) : Run ε Int := scanLoop isNul p n 0

@[simp] theorem strlen_calls (p : Ptr) : (strlen p : Run ε Int).calls = [] := scan_calls 0

@[simp] theorem strnlen_calls (p : Ptr) (n : Nat) : (strnlen p n : Run ε Int).calls = [] :=
  scanLoop_calls n 0

namespace Terminated

variable {p : Ptr} {xs : List UInt8} (h : Terminated p xs)
include h

theorem upper : p.off + xs.length < p.size := by
  have upper := h.holds.upper
  simp only [List.length_append, List.length_cons, List.length_nil] at upper
  omega

theorem nul : p.cell (p.off + xs.length) = 0 := by
  have entry := h.holds.entry xs.length (by simp)
  simpa using entry

theorem entry {i : Nat} (inside : i < xs.length) :
    p.cell (p.off + i) = xs[i] ∧ isNul (p.cell (p.off + i)) = false := by
  have entry := h.holds.left.entry i inside
  refine ⟨entry, ?_⟩
  rw [entry, isNul, decide_eq_false_iff_not]
  exact fun zero => h.plain (zero ▸ List.getElem_mem inside)

theorem stringAt : StringAt p xs where
  plain := h.plain
  bytes := by simpa using h.holds.bytes_eq

theorem strlen_spec : (strlen p : Run ε Int).value = xs.length ∧ (strlen p : Run ε Int).Safe := by
  have before : ∀ k < xs.length, isNul (p.cell (p.off + 0 + (k : Nat))) = false := by
    intro k inside
    simpa using (h.entry inside).2
  have hit : isNul (p.cell (p.off + 0 + xs.length)) = true := by simp [h.nul, isNul]
  have scanned := scan_spec (ε := ε) (by simpa using h.holds.lower) (by simpa using h.upper)
    before hit
  simpa [strlen] using scanned

theorem strnlen_spec (n : Nat) : (strnlen p n : Run ε Int).value = (xs.take n).length ∧
    (strnlen p n : Run ε Int).Safe := by
  have lower := h.holds.lower
  have upper := h.upper
  have loop : ∀ n k : Nat, k ≤ xs.length →
      (scanLoop isNul p n k : Run ε Int).value = k + ((xs.drop k).take n).length ∧
        (scanLoop isNul p n k : Run ε Int).Safe := by
    intro n
    induction n with
    | zero =>
        intro k _
        refine ⟨?_, Run.safe_pure _⟩
        simp [scanLoop]
    | succ n ih =>
        intro k inside
        rcases Nat.lt_or_eq_of_le inside with before | rfl
        · obtain ⟨value, safe⟩ := scanLoop_next (ε := ε) (h.entry before).2 n
          obtain ⟨found, rest⟩ := ih (k + 1) before
          rw [Int.natCast_add, Int.natCast_one] at found rest
          refine ⟨?_, safe.mpr ⟨⟨by omega, by omega⟩, rest⟩⟩
          rw [value, found, List.drop_eq_getElem_cons before, List.take_succ_cons,
            List.length_cons]
          omega
        · have hit : isNul (p.cell (p.off + (xs.length : Nat))) = true := by
            simp [h.nul, isNul]
          obtain ⟨value, safe⟩ := scanLoop_stop (ε := ε) hit n
          refine ⟨?_, safe.mpr ⟨by omega, upper⟩⟩
          rw [value]
          simp
  simpa [strnlen] using loop n 0 (Nat.zero_le _)

end Terminated

theorem terminated_takeWhile {p : Ptr} {xs : List UInt8} (h : p.Holds xs) (nul : 0 ∈ xs) :
    Terminated p (xs.takeWhile (· ≠ 0)) := by
  obtain ⟨front, rest, rfl, plain⟩ := List.eq_append_cons_of_mem nul
  have text : (front ++ 0 :: rest).takeWhile (· ≠ 0) = front := by
    rw [List.takeWhile_append_of_pos, List.takeWhile_cons_of_neg (by decide), List.append_nil]
    intro c member
    exact decide_eq_true fun zero => plain (zero ▸ member)
  rw [text]
  rw [← List.singleton_append, ← List.append_assoc] at h
  exact ⟨plain, h.left⟩

/-- Bytes with one more behind them, read as a string: they are cut at their first NUL, and
when they have none the string ends with them only if the next byte is a NUL. -/
theorem stringAt_takeWhile_iff {p : Ptr} {ys : List UInt8} {x : UInt8} (h : p.Holds (ys ++ [x])) :
    StringAt p (ys.takeWhile (· ≠ 0)) ↔ 0 ∈ ys ∨ x = 0 := by
  by_cases cut : 0 ∈ ys
  · refine iff_of_true ?_ (.inl cut)
    exact (terminated_takeWhile h.left cut).stringAt
  · have text : ys.takeWhile (· ≠ 0) = ys := by
      rw [List.takeWhile_eq_self_iff]
      intro c member
      exact decide_eq_true fun zero => cut (zero ▸ member)
    rw [text, or_iff_right cut]
    constructor
    · intro string
      have bytes := h.bytes_eq
      rw [List.length_append, List.length_singleton, string.bytes] at bytes
      exact (List.cons.inj (List.append_cancel_left bytes)).1.symm
    · rintro rfl
      exact (Terminated.mk cut h).stringAt

def storeAll (p : Ptr) : Int → List UInt8 → Run ε Ptr
  | _, [] => pure p
  | i, x :: xs => do
      let p ← p.store i x
      storeAll p (i + 1) xs

def memset (p : Ptr) (v : UInt8) (n : Nat) : Run ε Ptr := storeAll p 0 (List.replicate n v)

def strcpy (dest src : Ptr) : Run ε Ptr := do
  let n ← strlen src
  Ptr.memcpy dest src (n + 1)

def strcat (dest src : Ptr) : Run ε Ptr := do
  let k ← strlen dest
  let dest ← strcpy (dest.add k) src
  pure (dest.add (-k))

def strncat (dest src : Ptr) (n : Nat) : Run ε Ptr := do
  let k ← strlen dest
  let m ← strnlen src n
  let dest ← Ptr.memcpy (dest.add k) src m
  let dest ← dest.store m 0
  pure (dest.add (-k))

@[simp] theorem storeAll_calls (p : Ptr) (i : Int) (xs : List UInt8) :
    (storeAll p i xs : Run ε Ptr).calls = [] := by
  induction xs generalizing p i with
  | nil => rfl
  | cons x xs ih => simp [storeAll, ih]

@[simp] theorem memset_calls (p : Ptr) (v : UInt8) (n : Nat) :
    (memset p v n : Run ε Ptr).calls = [] := storeAll_calls p 0 _

@[simp] theorem strcpy_calls (dest src : Ptr) : (strcpy dest src : Run ε Ptr).calls = [] := by
  simp [strcpy]

@[simp] theorem strcat_calls (dest src : Ptr) : (strcat dest src : Run ε Ptr).calls = [] := by
  simp [strcat]

@[simp] theorem strncat_calls (dest src : Ptr) (n : Nat) :
    (strncat dest src n : Run ε Ptr).calls = [] := by
  simp [strncat]

theorem storeAll_value (p : Ptr) (i : Int) (xs : List UInt8) :
    (storeAll p i xs : Run ε Ptr).value = p.write i xs := by
  induction xs generalizing p i with
  | nil => rfl
  | cons x xs ih => exact ih _ _

theorem storeAll_safe {p : Ptr} {i : Int} {xs : List UInt8} (lower : 0 ≤ p.off + i)
    (upper : p.off + i + xs.length ≤ p.size) : (storeAll p i xs : Run ε Ptr).Safe := by
  induction xs generalizing p i with
  | nil => exact Run.safe_pure _
  | cons x xs ih =>
      simp only [List.length_cons] at upper
      simp only [storeAll, Run.safe_bind, Ptr.store_safe]
      exact ⟨⟨lower, by omega⟩, ih (by simp only [Ptr.store_value]; omega)
        (by simp only [Ptr.store_value]; omega)⟩

theorem memset_spec {p : Ptr} {n : Nat} (lower : 0 ≤ p.off) (upper : p.off + n ≤ p.size)
    (v : UInt8) : (memset p v n : Run ε Ptr).value.Holds (List.replicate n v) ∧
      (memset p v n : Run ε Ptr).value = p.write 0 (List.replicate n v) ∧
      (memset p v n : Run ε Ptr).Safe := by
  have value := storeAll_value (ε := ε) p 0 (List.replicate n v)
  have holds := p.write_holds 0 (List.replicate n v) (by simpa using lower) (by simpa using upper)
  refine ⟨?_, value, storeAll_safe (by simpa using lower) (by simpa using upper)⟩
  rw [memset, value]
  simpa using holds

theorem terminated_zeros {p : Ptr} {n : Nat} (pos : 0 < n) (h : p.Holds (List.replicate n 0)) :
    Terminated p [] where
  plain := List.not_mem_nil
  holds := by
    obtain ⟨n, rfl⟩ := Nat.exists_eq_succ_of_ne_zero (Nat.ne_of_gt pos)
    rw [List.replicate_succ, ← List.singleton_append] at h
    exact h.left

theorem memcpyLoop_safe_iff (src : Ptr) {xs : List UInt8} (some_bytes : xs ≠ []) (i : Int)
    (dest : Ptr) (h : (src.add i).Holds xs) :
    (Ptr.memcpyLoop src xs.length i dest : Run ε Ptr).Safe ↔
      0 ≤ dest.off + i ∧ dest.off + i + xs.length ≤ dest.size := by
  constructor
  · intro safe
    induction xs generalizing i dest with
    | nil => contradiction
    | cons x xs ih =>
        have rest : (src.add (i + 1)).Holds xs := by simpa [Ptr.add_add] using h.tail
        simp only [List.length_cons, Ptr.memcpyLoop, Run.safe_bind, Ptr.store_safe] at safe
        obtain ⟨_, here, later⟩ := safe
        refine ⟨here.1, ?_⟩
        by_cases last : xs = []
        · simp only [last, List.length_cons, List.length_nil]
          omega
        · have bound := (ih last _ _ rest later).2
          simp only [Ptr.store_value] at bound
          rw [List.length_cons]
          omega
  · rintro ⟨lower, upper⟩
    exact Ptr.memcpyLoop_safe src xs i dest h lower upper

section Copies

variable {dest src : Ptr} {xs ys : List UInt8}

theorem strcpy_spec (h : Terminated src ys) (dest : Ptr) :
    (strcpy dest src : Run ε Ptr).value = dest.write 0 (ys ++ [0]) ∧
      ((strcpy dest src : Run ε Ptr).Safe ↔
        0 ≤ dest.off ∧ dest.off + ys.length + 1 ≤ dest.size) := by
  obtain ⟨length, safe⟩ := h.strlen_spec (ε := ε)
  have count : (ys.length : Int) + 1 = (ys ++ [0]).length := by simp
  have whole : (src.add 0).Holds (ys ++ [0]) := by simpa using h.holds
  have copied := memcpyLoop_safe_iff (ε := ε) src (by simp) 0 dest whole
  simp only [strcpy, Run.value_bind, Run.safe_bind, length, count, safe,
    Ptr.memcpy_value h.holds dest rfl, true_and]
  rw [Ptr.memcpy, Int.toNat_natCast, copied]
  simp only [Int.add_zero, List.length_append, List.length_cons, List.length_nil]
  omega

theorem Terminated.append (h : Terminated dest xs) (plain : 0 ∉ ys)
    (room : dest.off + xs.length + ys.length + 1 ≤ dest.size) :
    Terminated (dest.write xs.length (ys ++ [0])) (xs ++ ys) where
  plain := by simp [h.plain, plain]
  holds := by
    have lower := h.holds.lower
    have written := dest.write_holds xs.length (ys ++ [0]) (by omega) (by simp; omega)
    refine ⟨by simpa using lower, by simp; omega, fun i inside => ?_⟩
    rw [Ptr.write_off]
    simp only [List.append_assoc] at inside ⊢
    by_cases old : i < xs.length
    · rw [List.getElem_append_left old, Ptr.write_cell_below _ _ _ (by omega)]
      exact (h.entry old).1
    · have new := written.entry (i - xs.length) (by simp at inside ⊢; omega)
      rw [List.getElem_append_right (by omega), ← new]
      simp only [Ptr.add_cell, Ptr.add_off, Ptr.write_off]
      congr 1
      omega

theorem strcat_spec (hd : Terminated dest xs) (hs : Terminated src ys) :
    (strcat dest src : Run ε Ptr).value = dest.write xs.length (ys ++ [0]) ∧
      ((strcat dest src : Run ε Ptr).Safe ↔
        dest.off + xs.length + ys.length + 1 ≤ dest.size) := by
  have lower := hd.holds.lower
  obtain ⟨length, safe⟩ := hd.strlen_spec (ε := ε)
  obtain ⟨value, copied⟩ := strcpy_spec (ε := ε) hs (dest.add xs.length)
  simp only [strcat, Run.value_bind, Run.safe_bind, length, value, safe, copied, Run.value_pure,
    Run.safe_pure, true_and, and_true, Ptr.add_write_back, Ptr.add_off, Ptr.add_size]
  omega

theorem strncat_spec (hd : Terminated dest xs) (hs : Terminated src ys) {n : Nat}
    (room : dest.off + xs.length + (ys.take n).length + 1 ≤ dest.size) :
    (strncat dest src n : Run ε Ptr).value = dest.write xs.length (ys.take n ++ [0]) ∧
      (strncat dest src n : Run ε Ptr).Safe := by
  have lower := hd.holds.lower
  obtain ⟨length, scanned⟩ := hd.strlen_spec (ε := ε)
  obtain ⟨count, counted⟩ := hs.strnlen_spec (ε := ε) n
  have part : src.Holds (ys.take n) := by
    have whole := hs.holds.left
    rw [← List.take_append_drop n ys] at whole
    exact whole.left
  have copied := Ptr.memcpy_value (ε := ε) part (dest.add xs.length) rfl
  have safe : (Ptr.memcpy (dest.add xs.length) src (ys.take n).length : Run ε Ptr).Safe :=
    Ptr.memcpy_safe part rfl (by simp; omega) (by simp only [Ptr.add_off, Ptr.add_size]; omega)
  have stored : (((dest.add xs.length).write 0 (ys.take n)).store (ys.take n).length 0 :
      Run ε Ptr).value = (dest.add xs.length).write 0 (ys.take n ++ [0]) := by
    rw [Ptr.write_append, Ptr.store_value]
    simp [Ptr.write]
  simp only [strncat, Run.value_bind, Run.safe_bind, length, count, copied, stored,
    Run.value_pure, Run.safe_pure, Ptr.add_write_back]
  refine ⟨trivial, scanned, counted, safe, ?_, trivial⟩
  rw [Ptr.store_safe, Ptr.write_off, Ptr.write_size, Ptr.add_off, Ptr.add_size]
  omega

end Copies

/-- A line as `fgets` leaves it: at most `most` characters, and what lies behind them in
the buffer. -/
structure Line (most : Nat) where
  text : List UInt8
  plain : 0 ∉ text
  short : text.length ≤ most
  around : Int → UInt8

def Line.buf {most : Nat} (l : Line most) (size : Nat) : Ptr :=
  { Ptr.block l.around (l.text ++ [0]) with size := size }

/-- A process behind `popen`: the lines it prints, and whether `pclose` succeeds. -/
structure Process (most : Nat) where
  lines : List (Line most)
  closes : Bool

def printed {most : Nat} (lines : List (Line most)) : List UInt8 := lines.flatMap Line.text

theorem Line.terminated {most : Nat} (l : Line most) {size : Nat} (room : most < size) :
    Terminated (l.buf size) l.text where
  plain := l.plain
  holds := by
    have holds := Ptr.block_holds l.around (l.text ++ [0])
    have short := l.short
    refine ⟨holds.lower, ?_, holds.entry⟩
    simp [Line.buf, Ptr.block]
    omega

end X300.CStrings
