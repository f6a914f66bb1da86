import Mathlib.Algebra.Ring.Nat
import Mathlib.Data.Int.Basic
import Mathlib.Tactic.Common

/-! Numbers as sysfs attributes carry them: one decimal line, written with `%d\n` on
one side and read by `strict_strtoul` in base 0 or by `atoi` on the other. Neither
parser is part of the sources; both are written from their documented behaviour, with
an `unsigned long` of 32 bits. -/

namespace X300.SysfsText

def decimal (n : Int) : List Char :=
  if n < 0 then '-' :: Nat.toDigits 10 n.natAbs else Nat.toDigits 10 n.natAbs

def line (n : Int) : List Char := decimal n ++ ['\n']

def digitValue (c : Char) : Option Nat :=
  if c.isDigit then some (c.toNat - '0'.toNat)
  else if 'a' ≤ c ∧ c ≤ 'f' then some (c.toNat - 'a'.toNat + 10)
  else if 'A' ≤ c ∧ c ≤ 'F' then some (c.toNat - 'A'.toNat + 10)
  else none

def digitIn (base : Nat) (c : Char) : Option Nat :=
  (digitValue c).filter (· < base)

def parseInteger (base : Nat) : Nat → List Char → Nat × List Char
  | acc, [] => (acc, [])
  | acc, c :: cs =>
      match digitIn base c with
      | some d => parseInteger base (base * acc + d) cs
      | none => (acc, c :: cs)

/-- Base 0: a leading `0x` that a digit follows means 16, another leading `0` means 8. -/
def fixupRadix : List Char → Nat × List Char
  | '0' :: x :: c :: cs =>
      if (x = 'x' ∨ x = 'X') ∧ (digitIn 16 c).isSome then (16, c :: cs) else (8, '0' :: x :: c :: cs)
  | '0' :: cs => (8, '0' :: cs)
  | cs => (10, cs)

def skipPlus : List Char → List Char
  | '+' :: cs => cs
  | cs => cs

/-- `strict_strtoul(text, 0, &val)`: at least one digit, then nothing but one newline. -/
def strictStrtoul (text : List Char) : Option Nat :=
  let number := fixupRadix (skipPlus text)
  let parsed := parseInteger number.1 0 number.2
  if parsed.2.length = number.2.length then none
  else if 2 ^ 32 ≤ parsed.1 then none
  else if parsed.2 = [] ∨ parsed.2 = ['\n'] then some parsed.1
  else none

def isSpace (c : Char) : Bool := c = ' ' ∨ 9 ≤ c.toNat ∧ c.toNat ≤ 13

def atoi (text : List Char) : Int :=
  match text.dropWhile isSpace with
  | '-' :: cs => -(parseInteger 10 0 cs).1
  | '+' :: cs => (parseInteger 10 0 cs).1
  | cs => (parseInteger 10 0 cs).1

theorem digitIn_of_isDigit {c : Char} (h : c.isDigit) :
    digitIn 10 c = some (c.toNat - '0'.toNat) := by
  have bounds := Char.isDigit_iff_toNat.mp h
  simp only [Char.reduceToNat] at bounds
  simp only [digitIn, digitValue, h, if_true, Char.reduceToNat, Option.filter_some]
  rw [if_pos (by simp; omega)]

theorem digitIn_newline (base : Nat) : digitIn base '\n' = none := rfl

theorem parseInteger_digits (acc : Nat) {ds rest : List Char} (digits : ∀ c ∈ ds, c.isDigit)
    (stop : ∀ c ∈ rest.head?, digitIn 10 c = none) :
    parseInteger 10 acc (ds ++ rest) = (Nat.ofDigitChars 10 ds acc, rest) := by
  induction ds generalizing acc with
  | nil =>
      cases rest with
      | nil => rfl
      | cons c cs =>
          have none : digitIn 10 c = none := stop c rfl
          simp [parseInteger, none]
  | cons d ds ih =>
      have here : d.isDigit := digits d List.mem_cons_self
      rw [List.cons_append, parseInteger, digitIn_of_isDigit here, Nat.ofDigitChars_cons]
      exact ih _ fun c member => digits c (List.mem_cons_of_mem _ member)

theorem isDigit_of_mem {n : Nat} {c : Char} (member : c ∈ Nat.toDigits 10 n) : c.isDigit :=
  Nat.isDigit_of_mem_toDigits (by decide) (by decide) member

theorem parseInteger_line (n : Nat) :
    parseInteger 10 0 (Nat.toDigits 10 n ++ ['\n']) = (n, ['\n']) := by
  rw [parseInteger_digits 0 (fun c => isDigit_of_mem) (by simp [digitIn_newline]),
    Nat.ofDigitChars_ten_toDigits]

theorem toDigits_head {n : Nat} (pos : 0 < n) : ∃ c cs, Nat.toDigits 10 n = c :: cs ∧ c ≠ '0' := by
  induction n using Nat.strongRecOn with
  | ind n ih =>
      rw [Nat.toDigits_eq_if (by decide)]
      split_ifs with small
      · refine ⟨_, _, rfl, ?_⟩
        rw [Ne, Nat.digitChar_eq_zero]
        omega
      · obtain ⟨c, cs, digits, first⟩ := ih (n / 10) (by omega) (by omega)
        exact ⟨c, cs ++ [Nat.digitChar (n % 10)], by rw [digits]; rfl, first⟩

theorem fixupRadix_of_ne {c : Char} (first : c ≠ '0') (cs : List Char) :
    fixupRadix (c :: cs) = (10, c :: cs) := by
  unfold fixupRadix
  split
  · rename_i heads
    exact absurd (List.cons.inj heads).1 first
  · rename_i heads
    exact absurd (List.cons.inj heads).1 first
  · rfl

theorem isDigit_ne {c d : Char} (h : c.isDigit) (other : d.isDigit = false) : c ≠ d := by
  rintro rfl
  rw [other] at h
  contradiction

theorem skipPlus_of_isDigit {c : Char} (h : c.isDigit) (cs : List Char) :
    skipPlus (c :: cs) = c :: cs := by
  unfold skipPlus
  split
  · rename_i heads
    exact absurd (List.cons.inj heads).1 (isDigit_ne h rfl)
  · rfl

theorem line_natCast (n : Nat) : line n = Nat.toDigits 10 n ++ ['\n'] := by
  have sign : ¬(n : Int) < 0 := by omega
  rw [line, decimal, if_neg sign, Int.natAbs_natCast]

theorem line_negSucc (n : Nat) :
    line (Int.negSucc n) = '-' :: (Nat.toDigits 10 (n + 1) ++ ['\n']) := by
  rw [line, decimal, if_pos (Int.negSucc_lt_zero n), Int.natAbs_negSucc]
  rfl

theorem strictStrtoul_line {n : Nat} (small : n < 2 ^ 32) : strictStrtoul (line n) = some n := by
  rw [line_natCast]
  rcases Nat.eq_zero_or_pos n with rfl | pos
  · rfl
  · obtain ⟨c, cs, digits, first⟩ := toDigits_head pos
    have digit : c.isDigit := isDigit_of_mem (n := n) (by rw [digits]; exact List.mem_cons_self)
    have number : fixupRadix (skipPlus (Nat.toDigits 10 n ++ ['\n'])) =
        (10, Nat.toDigits 10 n ++ ['\n']) := by
      rw [digits, List.cons_append, skipPlus_of_isDigit digit, fixupRadix_of_ne first]
    rw [strictStrtoul, number]
    simp only [parseInteger_line]
    rw [if_neg (by simp), if_neg (by omega)]
    simp

theorem strictStrtoul_line_negSucc (n : Nat) : strictStrtoul (line (Int.negSucc n)) = none := by
  rw [line_negSucc]
  have number : fixupRadix (skipPlus ('-' :: (Nat.toDigits 10 (n + 1) ++ ['\n']))) =
      (10, '-' :: (Nat.toDigits 10 (n + 1) ++ ['\n'])) := fixupRadix_of_ne (by decide) _
  have stuck : parseInteger 10 0 ('-' :: (Nat.toDigits 10 (n + 1) ++ ['\n'])) =
      (0, '-' :: (Nat.toDigits 10 (n + 1) ++ ['\n'])) := rfl
  rw [strictStrtoul, number]
  simp only [stuck, if_true]

theorem isSpace_of_isDigit {c : Char} (h : c.isDigit) : isSpace c = false := by
  have bounds := Char.isDigit_iff_toNat.mp h
  simp only [Char.reduceToNat] at bounds
  have blank : c ≠ ' ' := isDigit_ne h rfl
  simp only [isSpace, blank, false_or, decide_eq_false_iff_not]
  omega

theorem atoi_line (n : Int) : atoi (line n) = n := by
  cases n with
  | ofNat n =>
      change atoi (line n) = n
      obtain ⟨c, cs, digits⟩ := List.exists_cons_of_ne_nil (Nat.toDigits_ne_nil (n := n) (b := 10))
      have digit : c.isDigit := isDigit_of_mem (n := n) (by rw [digits]; exact List.mem_cons_self)
      have parsed := parseInteger_line n
      rw [digits, List.cons_append] at parsed
      rw [line_natCast, digits, List.cons_append, atoi,
        List.dropWhile_cons_of_neg (by simp [isSpace_of_isDigit digit])]
      split
      · rename_i heads
        exact absurd (List.cons.inj heads).1 (isDigit_ne digit rfl)
      · rename_i heads
        exact absurd (List.cons.inj heads).1 (isDigit_ne digit rfl)
      · rw [parsed]
  | negSucc n =>
      rw [line_negSucc]
      change -((parseInteger 10 0 (Nat.toDigits 10 (n + 1) ++ ['\n'])).1 : Int) = _
      rw [parseInteger_line]
      rfl

end X300.SysfsText
