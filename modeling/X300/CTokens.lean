import X300.CStrings

/-! `strtok` with one separator, on a string in a byte object: the words of the string, one
with each call, a NUL stored behind every word but the last. -/

namespace X300.CTokens
open CMemory CStrings

variable {ε : Type}

def words (sep : UInt8) (text : List UInt8) : List (List UInt8) :=
  (text.splitOn sep).filter (· ≠ [])

/-- The buffer as a call leaves it, the word found, and where the next call goes on. -/
structure Token where
  buf : Ptr
  token : Option Int
  saved : Int

def strtok (sep : UInt8) (buf : Ptr) (pos : Int) : Run ε Token := do
  let first ← scan (· ≠ sep) buf pos
  let c ← buf.load first
  if c = 0 then pure ⟨buf, none, first⟩
  else do
    let last ← scan (fun c => c = sep ∨ c = 0) buf first
    let c ← buf.load last
    if c = 0 then pure ⟨buf, some first, last⟩
    else do
      let buf ← buf.store last 0
      pure ⟨buf, some first, last + 1⟩

@[simp] theorem strtok_calls (sep : UInt8) (buf : Ptr) (pos : Int) :
    (strtok sep buf pos : Run ε Token).calls = [] := by
  simp [strtok]

def cut (buf : Ptr) (i : Int) : Ptr :=
  { buf with cell := Function.update buf.cell (buf.off + i) 0 }

section Words
variable {sep : UInt8} {word : List UInt8}

theorem words_nil (sep : UInt8) : words sep [] = [] := rfl

theorem words_replicate_append (sep : UInt8) (n : Nat) (text : List UInt8) :
    words sep (List.replicate n sep ++ text) = words sep text := by
  induction n with
  | zero => rfl
  | succ n ih =>
      have empty : (sep :: (List.replicate n sep ++ text)).splitOn sep = [] :: _ :=
        List.splitOn_append_cons_self_of_not_mem List.not_mem_nil _
      rw [List.replicate_succ, List.cons_append, words, empty, List.filter_cons_of_neg (by simp)]
      exact ih

theorem words_last (filled : word ≠ []) (plain : sep ∉ word) : words sep word = [word] := by
  rw [words, List.splitOn_eq_singleton plain, List.filter_cons_of_pos (by simpa using filled)]
  rfl

theorem words_append (filled : word ≠ []) (plain : sep ∉ word) (rest : List UInt8) :
    words sep (word ++ sep :: rest) = word :: words sep rest := by
  rw [words, List.splitOn_append_cons_self_of_not_mem plain,
    List.filter_cons_of_pos (by simpa using filled)]
  rfl

theorem text_cases (sep : UInt8) (text : List UInt8) :
    (∃ n, text = List.replicate n sep) ∨
    ∃ n word, word ≠ [] ∧ sep ∉ word ∧ (text = List.replicate n sep ++ word ∨
      ∃ rest, text = List.replicate n sep ++ (word ++ sep :: rest)) := by
  induction text with
  | nil => exact .inl ⟨0, rfl⟩
  | cons c text ih =>
      by_cases blank : c = sep
      · subst blank
        rcases ih with ⟨n, rfl⟩ | ⟨n, word, filled, plain, rfl | ⟨rest, rfl⟩⟩
        · exact .inl ⟨n + 1, rfl⟩
        · exact .inr ⟨n + 1, word, filled, plain, .inl rfl⟩
        · exact .inr ⟨n + 1, word, filled, plain, .inr ⟨rest, rfl⟩⟩
      · by_cases more : sep ∈ c :: text
        · obtain ⟨word, rest, eq, plain⟩ := List.eq_append_cons_of_mem more
          have filled : word ≠ [] := by
            rintro rfl
            exact blank (List.cons.inj eq).1
          exact .inr ⟨0, word, filled, plain, .inr ⟨rest, eq⟩⟩
        · exact .inr ⟨0, c :: text, List.cons_ne_nil _ _, more, .inl rfl⟩

end Words

section Frames
variable {p q : Ptr} {xs : List UInt8}

theorem holds_of_cells (h : p.Holds xs) (off : q.off = p.off) (size : q.size = p.size)
    (same : ∀ i < xs.length, q.cell (p.off + (i : Nat)) = p.cell (p.off + i)) : q.Holds xs where
  lower := off ▸ h.lower
  upper := by rw [off, size]; exact h.upper
  entry i inside := by rw [off, same i inside]; exact h.entry i inside

theorem terminated_of_cells (h : Terminated p xs) (off : q.off = p.off) (size : q.size = p.size)
    (same : ∀ i ≤ xs.length, q.cell (p.off + (i : Nat)) = p.cell (p.off + i)) :
    Terminated q xs where
  plain := h.plain
  holds := holds_of_cells h.holds off size fun i inside =>
    same i (by simp at inside; omega)

end Frames

section Calls
variable {buf : Ptr} {pos : Int} {xs rest word : List UInt8} {c sep : UInt8} {n : Nat}

theorem entry_eq (h : (buf.add pos).Holds (xs ++ c :: rest)) :
    buf.cell (buf.off + (pos + xs.length)) = c ∧ 0 ≤ buf.off + (pos + xs.length) ∧
      buf.off + (pos + xs.length) < buf.size := by
  have found := h.right.head
  simp only [Ptr.add_add, Ptr.add_cell, Ptr.add_off, Ptr.add_size] at found
  exact found

theorem scan_holds {stop : UInt8 → Bool} (h : (buf.add pos).Holds (xs ++ c :: rest))
    (pass : ∀ x ∈ xs, stop x = false) (hit : stop c = true) :
    (scan stop buf pos : Run ε Int).value = pos + xs.length ∧
      (scan stop buf pos : Run ε Int).Safe := by
  obtain ⟨found, _, upper⟩ := entry_eq h
  rw [← Int.add_assoc] at found upper
  apply scan_spec h.lower upper
  · intro k inside
    have entry := h.left.entry k inside
    rw [Ptr.add_cell, Ptr.add_off] at entry
    rw [entry]
    exact pass _ (List.getElem_mem inside)
  · rw [found]
    exact hit

theorem load_holds (h : (buf.add pos).Holds (xs ++ c :: rest)) :
    (buf.load (pos + xs.length) : Run ε UInt8).value = c ∧
      (buf.load (pos + xs.length) : Run ε UInt8).Safe := by
  obtain ⟨found, inside⟩ := entry_eq h
  exact ⟨found, (Ptr.load_safe _ _).mpr inside⟩

theorem skip_blanks (h : (buf.add pos).Holds (List.replicate n sep ++ c :: rest))
    (other : c ≠ sep) :
    (scan (· ≠ sep) buf pos : Run ε Int).value = pos + n ∧
      (scan (· ≠ sep) buf pos : Run ε Int).Safe := by
  have pass : ∀ x ∈ List.replicate n sep, decide (x ≠ sep) = false := by
    intro x member
    simp [List.eq_of_mem_replicate member]
  have hit : decide (c ≠ sep) = true := decide_eq_true other
  have scanned := scan_holds (ε := ε) h pass hit
  rwa [List.length_replicate] at scanned

theorem strtok_blank (nonzero : sep ≠ 0)
    (h : Terminated (buf.add pos) (List.replicate n sep)) :
    (strtok sep buf pos : Run ε Token).value = ⟨buf, none, pos + n⟩ ∧
      (strtok sep buf pos : Run ε Token).Safe := by
  obtain ⟨first, skipped⟩ := skip_blanks (ε := ε) h.holds nonzero.symm
  obtain ⟨nul, loaded⟩ := load_holds (ε := ε) h.holds
  rw [List.length_replicate] at nul loaded
  simp only [strtok, Run.value_bind, Run.safe_bind, first, nul, if_true]
  exact ⟨rfl, skipped, loaded, Run.safe_pure _⟩

theorem strtok_word (filled : word ≠ []) (plain : sep ∉ word) (text : 0 ∉ word)
    (h : (buf.add pos).Holds (List.replicate n sep ++ (word ++ c :: rest)))
    (stop : c = sep ∨ c = 0) :
    (strtok sep buf pos : Run ε Token).value =
      (if c = 0 then ⟨buf, some (pos + n), pos + n + word.length⟩
        else ⟨cut buf (pos + n + word.length), some (pos + n), pos + n + word.length + 1⟩) ∧
      (strtok sep buf pos : Run ε Token).Safe := by
  obtain ⟨w, tail, rfl⟩ := List.exists_cons_of_ne_nil filled
  have other : w ≠ sep := fun same => plain (same ▸ List.mem_cons_self)
  have nonzero : w ≠ 0 := fun same => text (same ▸ List.mem_cons_self)
  have behind : (buf.add (pos + n)).Holds (w :: tail ++ c :: rest) := by
    have right := h.right
    rwa [List.length_replicate, Ptr.add_add] at right
  obtain ⟨first, skipped⟩ := skip_blanks (ε := ε) h other
  obtain ⟨begins, loaded⟩ := load_holds (ε := ε) h
  have pass : ∀ x ∈ w :: tail, decide (x = sep ∨ x = 0) = false := by
    rintro x member
    apply decide_eq_false
    rintro (rfl | rfl)
    · exact plain member
    · exact text member
  obtain ⟨ends, scanned⟩ := scan_holds (ε := ε) behind pass (decide_eq_true stop)
  obtain ⟨stops, last_loaded⟩ := load_holds (ε := ε) behind
  have inside := (entry_eq behind).2
  rw [List.length_replicate] at begins loaded
  simp only [strtok, Run.value_bind, Run.safe_bind, first, begins, if_neg nonzero, ends, stops]
  by_cases nul : c = 0
  · simp only [if_pos nul]
    exact ⟨rfl, skipped, loaded, scanned, last_loaded, Run.safe_pure _⟩
  · simp only [if_neg nul]
    exact ⟨rfl, skipped, loaded, scanned, last_loaded,
      (Run.safe_bind _ _).mpr ⟨(Ptr.store_safe _ _ _).mpr inside, Run.safe_pure _⟩⟩

theorem strtok_last (filled : word ≠ []) (plain : sep ∉ word)
    (h : Terminated (buf.add pos) (List.replicate n sep ++ word)) :
    ((strtok sep buf pos : Run ε Token).value = ⟨buf, some (pos + n), pos + n + word.length⟩ ∧
      (strtok sep buf pos : Run ε Token).Safe) ∧
    Terminated (buf.add (pos + n)) word ∧ Terminated (buf.add (pos + n + word.length)) [] := by
  have text : 0 ∉ word := fun zero => h.plain (List.mem_append_right _ zero)
  have holds := h.holds
  rw [List.append_assoc] at holds
  have behind := holds.right
  rw [List.length_replicate, Ptr.add_add] at behind
  have stop := behind.right
  rw [Ptr.add_add] at stop
  exact ⟨strtok_word filled plain text holds (.inr rfl), ⟨text, behind⟩, List.not_mem_nil, stop⟩

/-- A word with more behind it: its separator becomes its NUL. -/
theorem strtok_more (nonzero : sep ≠ 0) (filled : word ≠ []) (plain : sep ∉ word)
    (h : Terminated (buf.add pos) (List.replicate n sep ++ (word ++ sep :: rest))) :
    let next := cut buf (pos + n + word.length)
    ((strtok sep buf pos : Run ε Token).value =
        ⟨next, some (pos + n), pos + n + word.length + 1⟩ ∧
      (strtok sep buf pos : Run ε Token).Safe) ∧
    Terminated (next.add (pos + n)) word ∧
    Terminated (next.add (pos + n + word.length + 1)) rest := by
  intro next
  have text : 0 ∉ word := fun zero =>
    h.plain (List.mem_append_right _ (List.mem_append_left _ zero))
  have texts : 0 ∉ rest := fun zero =>
    h.plain (List.mem_append_right _ (List.mem_append_right _ (List.mem_cons_of_mem _ zero)))
  have holds := h.holds
  rw [List.append_assoc, List.append_assoc, List.cons_append] at holds
  have call := strtok_word (ε := ε) filled plain text holds (.inl rfl)
  rw [if_neg nonzero] at call
  have behind := holds.right
  rw [List.length_replicate, Ptr.add_add] at behind
  have stored : (next.add (pos + n)).Holds (word ++ [0] ++ (rest ++ [0])) := by
    have set := behind.store (ε := ε) (i := word.length) rfl 0
    have bytes : (word ++ sep :: (rest ++ [0])).set word.length 0 =
        word ++ [0] ++ (rest ++ [0]) := by simp
    have same : ((buf.add (pos + n)).store word.length 0 : Run ε Ptr).value =
        next.add (pos + n) := by
      simp [next, cut, Ptr.add, Int.add_assoc]
    rwa [bytes, same] at set
  have later := stored.right
  rw [Ptr.add_add, List.length_append, List.length_singleton, Int.natCast_add, Int.natCast_one,
    ← Int.add_assoc] at later
  exact ⟨call, ⟨text, stored.left⟩, texts, later⟩

end Calls

end X300.CTokens
