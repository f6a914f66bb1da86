import X300.SysfsText
import Mathlib.Data.List.Infix
import Mathlib.Data.List.TakeWhile

/-! `strstr`, `strsep` and `simple_strtoul` of the kernel, on the text in front of the NUL,
and the occurrences of a word in a text that is taken apart at a character. -/

namespace X300.KernelText
open SysfsText

def strstr (word : List Char) : List Char → Option (List Char)
  | [] => if word = [] then some [] else none
  | c :: cs => if word <+: c :: cs then some (c :: cs) else strstr word cs

def strsep (sep : Char) (text : List Char) : List Char × Option (List Char) :=
  (text.takeWhile (· ≠ sep), (text.dropWhile (· ≠ sep)).tail?)

/-- `simple_strtoul(text, NULL, 16)`, before the result is cut to a machine word. -/
def simpleStrtoul : List Char → Nat
  | '0' :: x :: cs =>
      if x = 'x' ∨ x = 'X' then (parseInteger 16 0 cs).1 else (parseInteger 16 0 ('0' :: x :: cs)).1
  | cs => (parseInteger 16 0 cs).1

def occurrences (word text : List Char) : Nat := text.tails.countP (word <+: ·)

section
variable {word : List Char} {sep : Char}

theorem strstr_isSome_iff (text : List Char) : (strstr word text).isSome ↔ word <:+: text := by
  induction text with
  | nil =>
      rw [strstr, List.infix_nil]
      split_ifs with empty <;> simp [empty]
  | cons c cs ih =>
      rw [strstr, List.infix_cons_iff]
      split_ifs with here
      · simp [here]
      · rw [ih, or_iff_right here]

theorem occurrences_nil (filled : word ≠ []) : occurrences word [] = 0 := by
  simp [occurrences, filled]

theorem occurrences_cons (c : Char) (cs : List Char) : occurrences word (c :: cs) =
    occurrences word cs + if word <+: c :: cs then 1 else 0 := by
  simp only [occurrences, List.tails_cons, List.countP_cons, decide_eq_true_eq]

theorem strstr_spec (filled : word ≠ []) (text : List Char) :
    match strstr word text with
    | none => occurrences word text = 0
    | some found => found.tail.length < text.length ∧
        occurrences word text = occurrences word found.tail + 1 := by
  induction text with
  | nil => simpa [strstr, filled] using occurrences_nil filled
  | cons c cs ih =>
      rw [strstr, occurrences_cons]
      by_cases here : word <+: c :: cs
      · simp [here]
      · simp only [if_neg here, Nat.add_zero]
        cases found : strstr word cs with
        | none =>
            rw [found] at ih
            exact ih
        | some rest =>
            rw [found] at ih
            exact ⟨Nat.lt_succ_of_lt ih.1, ih.2⟩

theorem occurrences_pos_iff (filled : word ≠ []) (text : List Char) :
    0 < occurrences word text ↔ word <:+: text := by
  have spec := strstr_spec filled text
  rw [← strstr_isSome_iff]
  cases found : strstr word text with
  | none =>
      rw [found] at spec
      simp [spec]
  | some rest =>
      rw [found] at spec
      simp [spec.2]

theorem strsep_eq (sep : Char) (text : List Char) :
    sep ∉ (strsep sep text).1 ∧
    match (strsep sep text).2 with
    | none => text = (strsep sep text).1
    | some rest => text = (strsep sep text).1 ++ sep :: rest := by
  have whole : text.takeWhile (· ≠ sep) ++ text.dropWhile (· ≠ sep) = text :=
    List.takeWhile_append_dropWhile
  refine ⟨fun member => by simpa using List.mem_takeWhile_imp member, ?_⟩
  cases behind : text.dropWhile (· ≠ sep) with
  | nil =>
      rw [behind, List.append_nil] at whole
      simpa only [strsep, behind, List.tail?_nil] using whole.symm
  | cons c rest =>
      have first : c = sep := by
        have stop := List.head?_dropWhile_not (· ≠ sep) text
        rw [behind] at stop
        simpa using stop
      rw [behind, first] at whole
      simpa only [strsep, behind, List.tail?_cons] using whole.symm

theorem strsep_length {text rest : List Char} (more : (strsep sep text).2 = some rest) :
    rest.length < text.length := by
  have whole := (strsep_eq sep text).2
  rw [more] at whole
  have length := congrArg List.length whole
  simp only [List.length_append, List.length_cons] at length
  omega

theorem splitOn_eq_strsep (sep : Char) (text : List Char) : text.splitOn sep =
    (strsep sep text).1 :: (strsep sep text).2.elim [] (List.splitOn sep) := by
  obtain ⟨clean, whole⟩ := strsep_eq sep text
  cases more : (strsep sep text).2 with
  | none =>
      rw [more] at whole
      nth_rewrite 1 [whole]
      exact List.splitOn_eq_singleton clean
  | some rest =>
      rw [more] at whole
      nth_rewrite 1 [whole]
      exact List.splitOn_append_cons_self_of_not_mem clean rest

theorem prefix_append_sep_iff (plain : sep ∉ word) (front rest : List Char) :
    word <+: front ++ sep :: rest ↔ word <+: front := by
  constructor
  · intro begins
    rcases Nat.le_total word.length front.length with short | long
    · exact List.prefix_of_prefix_length_le begins (List.prefix_append _ _) short
    · obtain ⟨more, eq⟩ :=
        List.prefix_of_prefix_length_le (List.prefix_append front (sep :: rest)) begins long
      rw [← eq, List.prefix_append_right_inj] at begins
      cases more with
      | nil =>
          rw [← eq, List.append_nil]
      | cons c more =>
          obtain ⟨rfl, _⟩ := List.cons_prefix_cons.mp begins
          exact absurd (eq ▸ List.mem_append_right front List.mem_cons_self) plain
  · exact fun begins => begins.trans (List.prefix_append _ _)

theorem occurrences_append_sep (filled : word ≠ []) (plain : sep ∉ word) (front rest : List Char) :
    occurrences word (front ++ sep :: rest) = occurrences word front + occurrences word rest := by
  induction front with
  | nil =>
      have none : ¬word <+: sep :: rest := by
        rw [← List.nil_append (sep :: rest), prefix_append_sep_iff plain]
        simpa using filled
      rw [List.nil_append, occurrences_cons, if_neg none, occurrences_nil filled, Nat.add_zero,
        Nat.zero_add]
  | cons c front ih =>
      have same := prefix_append_sep_iff plain (c :: front) rest
      rw [List.cons_append] at same
      rw [List.cons_append, occurrences_cons, occurrences_cons, ih]
      simp only [same]
      omega

theorem occurrences_splitOn (filled : word ≠ []) (plain : sep ∉ word) (text : List Char) :
    ((text.splitOn sep).map (occurrences word)).sum = occurrences word text := by
  induction size : text.length using Nat.strongRecOn generalizing text with
  | ind n ih =>
      have whole := (strsep_eq sep text).2
      rw [splitOn_eq_strsep]
      cases more : (strsep sep text).2 with
      | none =>
          rw [more] at whole
          simpa using congrArg (occurrences word) whole.symm
      | some rest =>
          have shorter := strsep_length more
          rw [more] at whole
          have split := occurrences_append_sep filled plain (strsep sep text).1 rest
          rw [← whole] at split
          simp only [Option.elim_some, List.map_cons, List.sum_cons, split,
            ih rest.length (by omega) rest rfl]

theorem countP_le_sum {α : Type} (f : α → Nat) (xs : List α) :
    xs.countP (0 < f ·) ≤ (xs.map f).sum ∧
    (xs.countP (0 < f ·) < (xs.map f).sum ↔ ∃ x ∈ xs, 2 ≤ f x) := by
  induction xs with
  | nil => simp
  | cons x xs ih =>
      obtain ⟨le, lt⟩ := ih
      rw [List.countP_cons, List.map_cons, List.sum_cons, List.exists_mem_cons_iff, ← lt]
      by_cases pos : 0 < f x
      · simp only [pos, decide_true, if_true]
        omega
      · simp only [pos, decide_false, Bool.false_eq_true, if_false]
        omega

/-- There are fewer tokens with the word in them than occurrences of the word exactly when
it occurs twice in some token. -/
theorem tokens_le_occurrences (filled : word ≠ []) (plain : sep ∉ word) (text : List Char) :
    ((text.splitOn sep).filter (word <:+: ·)).length ≤ occurrences word text ∧
    (((text.splitOn sep).filter (word <:+: ·)).length < occurrences word text ↔
      ∃ t ∈ text.splitOn sep, 2 ≤ occurrences word t) := by
  have counted := countP_le_sum (occurrences word) (text.splitOn sep)
  simp only [occurrences_pos_iff filled] at counted
  rw [List.countP_eq_length_filter, occurrences_splitOn filled plain] at counted
  exact counted

end

end X300.KernelText
