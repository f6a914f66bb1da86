import X300.CTokens
import Mathlib.Data.List.Forall2

/-! Requests to the SuAgent server (`SuAgentServer.c`). The bytes read from a client are
taken apart at their blanks; a pointer to each word goes to an array of 1024 bytes, and
`combineArg` joins the words from the third on in a buffer of 1024 bytes. -/

namespace X300.SuAgentRequest
open CMemory CStrings CTokens

def startArg : Nat := 2

def maxArgsSize : Nat := 1024

def bufsize : Nat := 4096

def blank : UInt8 := 32

inductive Syscall where
  | popen (command : Ptr)
  | write (response : List UInt8)

inductive PointerSize where
  | four | eight
  deriving DecidableEq, Repr

def PointerSize.bytes : PointerSize → Nat
  | .four => 4
  | .eight => 8

/-- What `read` returns for a client that has not closed its end. -/
structure Request where
  bytes : List UInt8
  pos : 1 ≤ bytes.length
  short : bytes.length ≤ bufsize

/-- What lies around `buf` and in `args` when they are declared, and in the blocks of the
heap, by their sizes. -/
structure Memory where
  buf : Int → UInt8
  args : Int → UInt8
  heap : Int → Int → UInt8

def literal (text : List UInt8) : Ptr := .block (fun _ => 0) (text ++ [0])

def printString (p : Ptr) : Run Syscall Unit := do
  let _ ← strlen p
  pure ()

/-- An access to `paras[j]`, in the block of `malloc(1024)`. -/
def paras (w : PointerSize) (j : Nat) : Run Syscall Unit :=
  ⟨(), (List.range w.bytes).map fun i => .access ⟨1024, w.bytes * j + i⟩⟩

def Request.buf (r : Request) (m : Memory) : Ptr :=
  .block m.buf (r.bytes ++ List.replicate (bufsize - r.bytes.length) 0)

def tokenLoop (w : PointerSize) : Nat → Ptr → Int → Nat → Run Syscall (Ptr × List Int)
  | 0, buf, _, _ => pure (buf, [])
  | fuel + 1, buf, pos, j => do
      let next ← strtok blank buf pos
      match next.token with
      | none => pure (next.buf, [])
      | some token => do
          paras w j
          printString (next.buf.add token)
          let rest ← tokenLoop w fuel next.buf next.saved (j + 1)
          pure (rest.1, token :: rest.2)

def catWord (args word : Ptr) : Run Syscall Ptr := do
  let args ← strcat args word
  strcat args (literal [blank])

def combineLoop (w : PointerSize) (buf : Ptr) : Nat → List Int → Ptr → Run Syscall Ptr
  | _, [], args => pure args
  | i, token :: tokens, args => do
      paras w i
      printString (buf.add token)
      let args ← catWord args (buf.add token)
      combineLoop w buf (i + 1) tokens args

def combineArg (m : Memory) (w : PointerSize) (buf : Ptr) (argv : List Int) : Run Syscall Ptr := do
  let args ← memset ⟨m.args, maxArgsSize, 0⟩ 0 maxArgsSize
  let args ← combineLoop w buf startArg (argv.drop startArg) args
  printString args
  pure args

/-- `execute_and_response_client` up to `runAndGetOutPut`: the request is printed and taken
apart. -/
def splitRequest (m : Memory) (w : PointerSize) (r : Request) : Run Syscall (Ptr × List Int) := do
  printString (r.buf m)
  tokenLoop w (bufsize + 1) (r.buf m) 0 0

def requestCommand (m : Memory) (w : PointerSize) (r : Request) : Run Syscall Ptr := do
  let argv ← splitRequest m w r
  combineArg m w argv.1 argv.2

def Request.text (r : Request) : List UInt8 := r.bytes.takeWhile (· ≠ 0)

def Request.words (r : Request) : List (List UInt8) := CTokens.words blank r.text

def joined (words : List (List UInt8)) : List UInt8 := words.flatMap (· ++ [blank])

/-! Before `popen` nothing is called that the client could see. -/

@[simp] theorem printString_calls (p : Ptr) : (printString p).calls = [] := by
  simp [printString]

@[simp] theorem paras_calls (w : PointerSize) (j : Nat) : (paras w j).calls = [] := by
  simp [paras, Run.calls]

@[simp] theorem tokenLoop_calls (w : PointerSize) (fuel : Nat) (buf : Ptr) (pos : Int) (j : Nat) :
    (tokenLoop w fuel buf pos j).calls = [] := by
  induction fuel generalizing buf pos j with
  | zero => rfl
  | succ fuel ih =>
      simp only [tokenLoop, Run.calls_bind, strtok_calls, List.nil_append]
      split <;> simp [ih]

@[simp] theorem combineLoop_calls (w : PointerSize) (buf : Ptr) (i : Nat) (tokens : List Int)
    (args : Ptr) : (combineLoop w buf i tokens args).calls = [] := by
  induction tokens generalizing i args with
  | nil => rfl
  | cons token tokens ih => simp [combineLoop, catWord, ih]

@[simp] theorem combineArg_calls (m : Memory) (w : PointerSize) (buf : Ptr) (argv : List Int) :
    (combineArg m w buf argv).calls = [] := by
  simp [combineArg]

@[simp] theorem splitRequest_calls (m : Memory) (w : PointerSize) (r : Request) :
    (splitRequest m w r).calls = [] := by
  simp [splitRequest]

theorem paras_safe (w : PointerSize) (j : Nat) :
    (paras w j).Safe ↔ w.bytes * (j + 1) ≤ 1024 := by
  cases w <;> simp [paras, Run.Safe, PointerSize.bytes, List.range_succ, Step.InBounds,
    Access.InBounds] <;> omega

theorem printString_safe {p : Ptr} {text : List UInt8} (h : Terminated p text) :
    (printString p).Safe :=
  (Run.safe_bind _ _).mpr ⟨h.strlen_spec.2, Run.safe_pure _⟩

theorem literal_terminated {text : List UInt8} (plain : 0 ∉ text) :
    Terminated (literal text) text := ⟨plain, Ptr.block_holds _ _⟩

/-- The `strtok` loop from `pos` on has left every word as a string, and changed nothing
before `pos`. -/
structure Split (buf : Ptr) (pos : Int) (text : List UInt8) (split : Ptr × List Int) : Prop where
  off : split.1.off = buf.off
  size : split.1.size = buf.size
  before : ∀ k < buf.off + pos, split.1.cell k = buf.cell k
  idle : text = [] → split.1 = buf
  words : List.Forall₂ (fun token word => Terminated (split.1.add token) word) split.2
    (CTokens.words blank text)

theorem split_cons {buf next : Ptr} {pos saved token : Int} {word rest text : List UInt8}
    {split : Ptr × List Int} (first : Terminated (next.add token) word)
    (later : Split next saved rest split) (off : next.off = buf.off) (size : next.size = buf.size)
    (before : ∀ k < buf.off + pos, next.cell k = buf.cell k) (filled : text ≠ [])
    (order : pos ≤ token ∧ pos ≤ saved)
    (kept : token + word.length < saved ∨ rest = [])
    (words : CTokens.words blank text = word :: CTokens.words blank rest) :
    Split buf pos text (split.1, token :: split.2) where
  off := later.off.trans off
  size := later.size.trans size
  before k inside := by
    rw [← before k inside]
    exact later.before k (by rw [off]; omega)
  idle empty := absurd empty filled
  words := by
    rw [words]
    refine .cons ?_ later.words
    rcases kept with inside | empty
    · apply terminated_of_cells first
      · simp [later.off]
      · exact later.size
      · intro i short
        exact later.before _ (by simp only [Ptr.add_off]; omega)
    · rw [later.idle empty]
      exact first

theorem tokenLoop_none (w : PointerSize) (fuel : Nat) {buf next : Ptr} {pos saved : Int} (j : Nat)
    (value : (strtok blank buf pos : Run Syscall Token).value = ⟨next, none, saved⟩)
    (safe : (strtok blank buf pos : Run Syscall Token).Safe) :
    (tokenLoop w (fuel + 1) buf pos j).value = (next, []) ∧
      (tokenLoop w (fuel + 1) buf pos j).Safe := by
  simp only [tokenLoop, Run.value_bind, Run.safe_bind, value]
  exact ⟨rfl, safe, Run.safe_pure _⟩

theorem tokenLoop_some (w : PointerSize) (fuel : Nat) {buf next : Ptr} {pos saved token : Int}
    {word : List UInt8} (j : Nat)
    (value : (strtok blank buf pos : Run Syscall Token).value = ⟨next, some token, saved⟩)
    (safe : (strtok blank buf pos : Run Syscall Token).Safe)
    (first : Terminated (next.add token) word) :
    let rest := tokenLoop w fuel next saved (j + 1)
    (tokenLoop w (fuel + 1) buf pos j).value = (rest.value.1, token :: rest.value.2) ∧
      ((tokenLoop w (fuel + 1) buf pos j).Safe ↔ w.bytes * (j + 1) ≤ 1024 ∧ rest.Safe) := by
  have shown := printString_safe first
  simp only [tokenLoop, Run.value_bind, Run.safe_bind, value, safe, shown, paras_safe,
    Run.value_pure, Run.safe_pure, true_and, and_true]

theorem pointers_cons (w : PointerSize) (j : Nat) {words : List (List UInt8)}
    {word : List UInt8} :
    (w.bytes * (j + 1) ≤ 1024 ∧ (words = [] ∨ w.bytes * (j + 1 + words.length) ≤ 1024)) ↔
      (word :: words = [] ∨ w.bytes * (j + (word :: words).length) ≤ 1024) := by
  rw [← List.length_eq_zero_iff, ← List.length_eq_zero_iff, List.length_cons]
  cases w <;> simp only [PointerSize.bytes] <;> omega

theorem tokenLoop_spec (w : PointerSize) {fuel : Nat} {buf : Ptr} {pos : Int} {text : List UInt8}
    (h : Terminated (buf.add pos) text) (enough : text.length < fuel) (j : Nat) :
    Split buf pos text (tokenLoop w fuel buf pos j).value ∧
    ((tokenLoop w fuel buf pos j).Safe ↔ CTokens.words blank text = [] ∨
      w.bytes * (j + (CTokens.words blank text).length) ≤ 1024) := by
  induction fuel generalizing buf pos text j with
  | zero => omega
  | succ fuel ih =>
      rcases text_cases blank text with
        ⟨n, rfl⟩ | ⟨n, word, filled, plain, rfl | ⟨rest, rfl⟩⟩
      · obtain ⟨value, safe⟩ := strtok_blank (ε := Syscall) (by decide) h
        obtain ⟨split, inside⟩ := tokenLoop_none w fuel j value safe
        have none : CTokens.words blank (List.replicate n blank) = [] := by
          have skipped := words_replicate_append blank n []
          rwa [List.append_nil] at skipped
        rw [split]
        refine ⟨⟨rfl, rfl, fun _ _ => rfl, fun _ => rfl, ?_⟩, iff_of_true inside (.inl none)⟩
        rw [none]
        exact .nil
      · obtain ⟨⟨value, safe⟩, first, last⟩ := strtok_last (ε := Syscall) filled plain h
        obtain ⟨split, inside⟩ := tokenLoop_some w fuel j value safe first
        have length := List.length_pos_of_ne_nil filled
        have words : CTokens.words blank (List.replicate n blank ++ word) =
            word :: CTokens.words blank [] := by
          rw [words_replicate_append, words_last filled plain, words_nil]
        rw [List.length_append] at enough
        obtain ⟨later, rest⟩ := ih last (by rw [List.length_nil]; omega) (j + 1)
        rw [split, inside, rest, words]
        exact ⟨split_cons first later rfl rfl (fun _ _ => rfl) (by simp [filled]) (by omega)
          (.inr rfl) words, pointers_cons w j⟩
      · obtain ⟨⟨value, safe⟩, first, last⟩ :=
          strtok_more (ε := Syscall) (by decide) filled plain h
        obtain ⟨split, inside⟩ := tokenLoop_some w fuel j value safe first
        have words : CTokens.words blank (List.replicate n blank ++ (word ++ blank :: rest)) =
            word :: CTokens.words blank rest := by
          rw [words_replicate_append, words_append filled plain]
        rw [List.length_append, List.length_append, List.length_cons] at enough
        obtain ⟨later, others⟩ := ih last (by omega) (j + 1)
        have before : ∀ k < buf.off + pos,
            (cut buf (pos + n + word.length)).cell k = buf.cell k := by
          intro k before
          exact Function.update_of_ne (by omega) _ _
        rw [split, inside, others, words]
        exact ⟨split_cons first later rfl rfl before (by simp) (by omega) (.inl (by omega)) words,
          pointers_cons w j⟩

theorem catWord_spec {args src : Ptr} {text word : List UInt8} (h : Terminated args text)
    (string : Terminated src word) :
    ((catWord args src).Safe ↔ args.off + text.length + (word ++ [blank]).length + 1 ≤ args.size) ∧
    ((catWord args src).Safe → (catWord args src).value.off = args.off ∧
      (catWord args src).value.size = args.size ∧
      Terminated (catWord args src).value (text ++ (word ++ [blank]))) := by
  have space : Terminated (literal [blank]) [blank] := literal_terminated (by decide)
  obtain ⟨value, safe⟩ := strcat_spec (ε := Syscall) h string
  simp only [catWord, Run.value_bind, Run.safe_bind, value, safe, List.length_append,
    List.length_singleton]
  by_cases room : args.off + text.length + word.length + 1 ≤ args.size
  · have longer := h.append string.plain room
    obtain ⟨value, safe⟩ := strcat_spec (ε := Syscall) longer space
    simp only [value, safe, room, true_and, Ptr.write_off, Ptr.write_size, List.length_append,
      List.length_singleton]
    refine ⟨by omega, fun more => ?_⟩
    have both := longer.append space.plain (by simpa using more)
    rwa [List.append_assoc, List.length_append] at both
  · exact ⟨iff_of_false (fun both => room both.1) (by omega), fun both => absurd both.1 room⟩

theorem joined_cons (word : List UInt8) (words : List (List UInt8)) :
    joined (word :: words) = word ++ [blank] ++ joined words := rfl

theorem combineLoop_spec (w : PointerSize) {buf args : Ptr} {tokens : List Int}
    {words : List (List UInt8)} {text : List UInt8} {i : Nat}
    (strings : List.Forall₂ (fun token word => Terminated (buf.add token) word) tokens words)
    (pointers : words = [] ∨ w.bytes * (i + words.length) ≤ 1024) (h : Terminated args text) :
    ((combineLoop w buf i tokens args).Safe ↔
      args.off + text.length + (joined words).length + 1 ≤ args.size) ∧
    ((combineLoop w buf i tokens args).Safe →
      Terminated (combineLoop w buf i tokens args).value (text ++ joined words)) := by
  induction strings generalizing args text i with
  | nil =>
      have upper := h.upper
      simp only [combineLoop, joined, List.flatMap_nil, List.append_nil, Run.value_pure,
        List.length_nil]
      exact ⟨iff_of_true (Run.safe_pure _) (by omega), fun _ => h⟩
  | @cons token word tokens words string strings ih =>
      obtain ⟨near, far⟩ := (pointers_cons w i).mpr pointers
      obtain ⟨safe, next⟩ := catWord_spec h string
      have length : (joined (word :: words)).length =
          (word ++ [blank]).length + (joined words).length := by
        rw [joined_cons, List.length_append]
      simp only [combineLoop, Run.value_bind, Run.safe_bind, paras_safe, near, true_and,
        printString_safe string, length]
      by_cases fits : (catWord args (buf.add token)).Safe
      · obtain ⟨off, size, longer⟩ := next fits
        obtain ⟨inside, result⟩ := ih far longer
        rw [off, size, List.length_append] at inside
        rw [List.append_assoc, ← joined_cons] at result
        refine ⟨?_, fun both => result both.2⟩
        rw [inside, and_iff_right fits]
        omega
      · have long := mt safe.mpr fits
        exact ⟨iff_of_false (fun both => fits both.1) (by omega), fun both => absurd both.1 fits⟩

theorem combineArg_spec (m : Memory) (w : PointerSize) {buf : Ptr} {argv : List Int}
    {words : List (List UInt8)}
    (strings : List.Forall₂ (fun token word => Terminated (buf.add token) word) argv words)
    (pointers : w.bytes * words.length ≤ 1024) :
    ((combineArg m w buf argv).Safe ↔ (joined (words.drop startArg)).length + 1 ≤ maxArgsSize) ∧
    ((combineArg m w buf argv).Safe →
      Terminated (combineArg m w buf argv).value (joined (words.drop startArg))) := by
  obtain ⟨zeros, value, cleared⟩ := memset_spec (ε := Syscall)
    (p := ⟨m.args, maxArgsSize, 0⟩) (n := maxArgsSize) (Int.le_refl 0) (by simp) 0
  have empty := terminated_zeros (by decide) zeros
  have later : words.drop startArg = [] ∨
      w.bytes * (startArg + (words.drop startArg).length) ≤ 1024 := by
    by_cases few : words.length ≤ startArg
    · exact .inl (List.drop_eq_nil_of_le few)
    · rw [List.length_drop, Nat.add_sub_cancel' (Nat.le_of_not_le few)]
      exact .inr pointers
  obtain ⟨safe, result⟩ := combineLoop_spec w (List.forall₂_drop startArg strings) later empty
  rw [value, Ptr.write_off, Ptr.write_size, ← value] at safe
  rw [List.nil_append] at result
  simp only [combineArg, Run.value_bind, Run.value_pure, Run.safe_bind, cleared, true_and,
    Run.safe_pure, and_true]
  refine ⟨?_, fun both => result both.1⟩
  rw [and_iff_left_of_imp fun inside => printString_safe (result inside), safe]
  simp only [List.length_nil]
  omega

theorem Request.holds (r : Request) (m : Memory) :
    (r.buf m).Holds (r.bytes ++ List.replicate (bufsize - r.bytes.length) 0) :=
  Ptr.block_holds _ _

theorem Request.size (r : Request) (m : Memory) : (r.buf m).size = bufsize := by
  have short := r.short
  simp only [Request.buf, Ptr.block, List.length_append, List.length_replicate]
  omega

theorem Request.terminated (r : Request) (m : Memory)
    (ends : 0 ∈ r.bytes ∨ r.bytes.length < bufsize) : Terminated (r.buf m) r.text := by
  have nul : 0 ∈ r.bytes ++ List.replicate (bufsize - r.bytes.length) 0 := by
    rw [List.mem_append, List.mem_replicate]
    exact ends.imp_right fun room => ⟨by omega, rfl⟩
  have same : (r.bytes ++ List.replicate (bufsize - r.bytes.length) 0).takeWhile (· ≠ 0) =
      r.text := by
    have zeros : ∀ n, (List.replicate n (0 : UInt8)).takeWhile (· ≠ 0) = [] := by
      simp
    rw [List.takeWhile_append, zeros, List.append_nil]
    split_ifs with whole
    · exact (List.IsPrefix.eq_of_length (List.takeWhile_prefix _) whole).symm
    · rfl
  have string := terminated_takeWhile (r.holds m) nul
  rwa [same] at string

theorem Request.unterminated (r : Request) (m : Memory) (plain : 0 ∉ r.bytes)
    (full : ¬r.bytes.length < bufsize) : ¬(printString (r.buf m)).Safe := by
  have size := r.size m
  have short := r.short
  have overrun : ¬(strlen (r.buf m) : Run Syscall Int).Safe := by
    have off : (r.buf m).off = 0 := rfl
    apply scan_unsafe
    · rw [off, size]
      omega
    · intro k inside
      have here : k < r.bytes.length := by
        rw [off, size] at inside
        omega
      have entry := (r.holds m).left.entry k here
      rw [Int.add_zero, entry, isNul, decide_eq_false_iff_not]
      exact fun zero => plain (zero ▸ List.getElem_mem here)
  exact fun safe => overrun ((Run.safe_bind _ _).mp safe).1

theorem splitRequest_spec (m : Memory) (w : PointerSize) (r : Request)
    (ends : 0 ∈ r.bytes ∨ r.bytes.length < bufsize) :
    Split (r.buf m) 0 r.text (splitRequest m w r).value ∧
    ((splitRequest m w r).Safe ↔ w.bytes * r.words.length ≤ 1024) := by
  have string := r.terminated m ends
  have length : r.text.length ≤ r.bytes.length := (List.takeWhile_prefix _).length_le
  have short := r.short
  have enough : r.text.length < bufsize + 1 := by omega
  have first : Terminated ((r.buf m).add 0) r.text := by rwa [Ptr.add_zero]
  obtain ⟨split, safe⟩ := tokenLoop_spec w first enough 0
  rw [splitRequest, Run.value_bind, Run.safe_bind, and_iff_right (printString_safe string), safe,
    Nat.zero_add]
  refine ⟨split, or_iff_right_of_imp fun none => ?_⟩
  rw [none, List.length_nil, Nat.mul_zero]
  exact Nat.zero_le _

theorem requestCommand_spec (m : Memory) (w : PointerSize) (r : Request)
    (ends : 0 ∈ r.bytes ∨ r.bytes.length < bufsize) :
    ((requestCommand m w r).Safe ↔ w.bytes * r.words.length ≤ 1024 ∧
      (joined (r.words.drop startArg)).length + 1 ≤ maxArgsSize) ∧
    ((requestCommand m w r).Safe →
      Terminated (requestCommand m w r).value (joined (r.words.drop startArg))) := by
  obtain ⟨split, pointers⟩ := splitRequest_spec m w r ends
  rw [requestCommand, Run.safe_bind, Run.value_bind, pointers]
  by_cases inside : w.bytes * r.words.length ≤ 1024
  · obtain ⟨safe, command⟩ := combineArg_spec m w split.words inside
    exact ⟨and_congr_right fun _ => safe, fun both => command both.2⟩
  · exact ⟨iff_of_false (fun both => inside both.1) (fun both => inside both.1),
      fun both => absurd both.1 inside⟩

theorem full_request_overrun (m : Memory) (w : PointerSize) {r : Request} (plain : 0 ∉ r.bytes)
    (full : ¬r.bytes.length < bufsize) : ¬(requestCommand m w r).Safe := by
  simp only [requestCommand, splitRequest, Run.safe_bind]
  exact fun safe => r.unterminated m plain full safe.1.1

/-- A request stays in its buffers exactly when a NUL ends it in `buf`, its words have no
more pointers than `paras` takes, and the words from the third on, with their blanks and a
NUL, fit into `args`. -/
theorem request_in_bounds_iff (m : Memory) (w : PointerSize) (r : Request) :
    (requestCommand m w r).Safe ↔
      (0 ∈ r.bytes ∨ r.bytes.length < bufsize) ∧ r.words.length ≤ 1024 / w.bytes ∧
      (joined (r.words.drop startArg)).length + 1 ≤ maxArgsSize := by
  have pointers : r.words.length ≤ 1024 / w.bytes ↔ w.bytes * r.words.length ≤ 1024 := by
    cases w <;> simp only [PointerSize.bytes] <;> omega
  rw [pointers]
  by_cases ends : 0 ∈ r.bytes ∨ r.bytes.length < bufsize
  · rw [(requestCommand_spec m w r ends).1, and_iff_right ends]
  · obtain ⟨plain, full⟩ := not_or.mp ends
    exact iff_of_false (full_request_overrun m w plain full) fun inside => ends inside.1

section Overruns
variable {r : Request} {n : Nat} (m : Memory) (w : PointerSize)

theorem Request.text_eq (plain : 0 ∉ r.bytes) : r.text = r.bytes := by
  rw [Request.text, List.takeWhile_eq_self_iff]
  intro c member
  exact decide_eq_true fun zero => plain (zero ▸ member)

theorem words_letter (rest : List UInt8) :
    CTokens.words blank ([97] ++ blank :: rest) = [97] :: CTokens.words blank rest :=
  words_append (by decide) (by decide) rest

theorem words_repeat (n : Nat) :
    CTokens.words blank (List.replicate n [97, blank]).flatten = List.replicate n [97] := by
  induction n with
  | zero => rfl
  | succ n ih =>
      have next := words_letter (List.replicate n [97, blank]).flatten
      rw [ih] at next
      exact next

theorem many_words_overrun (bytes : r.bytes = (List.replicate n [97, blank]).flatten)
    (room : r.bytes.length < bufsize) (many : 256 < n) : ¬(requestCommand m w r).Safe := by
  have plain : 0 ∉ r.bytes := by
    rw [bytes]
    simp [blank]
  have words : r.words = List.replicate n [97] := by
    rw [Request.words, Request.text_eq plain, bytes, words_repeat]
  rw [(requestCommand_spec m w r (.inr room)).1, words, List.length_replicate]
  cases w <;> simp only [PointerSize.bytes] <;> omega

theorem long_word_overrun (bytes : r.bytes = [97, blank, 97, blank] ++ List.replicate n 97)
    (room : r.bytes.length < bufsize) (long : 1023 ≤ n) : ¬(requestCommand m w r).Safe := by
  have plain : 0 ∉ r.bytes := by
    rw [bytes]
    simp [blank, List.mem_replicate]
  have words : r.words = [[97], [97], List.replicate n 97] := by
    rw [Request.words, Request.text_eq plain, bytes]
    have third : CTokens.words blank (List.replicate n 97) = [List.replicate n 97] :=
      words_last (by simp; omega) (by simp [blank])
    have all : CTokens.words blank ([97] ++ blank :: ([97] ++ blank :: List.replicate n 97)) =
        [[97], [97], List.replicate n 97] := by
      rw [words_letter, words_letter, third]
    exact all
  rw [(requestCommand_spec m w r (.inr room)).1, words]
  simp only [startArg, List.drop_succ_cons, List.drop_zero, joined, List.flatMap_cons,
    List.flatMap_nil, List.append_nil, List.length_append, List.length_replicate,
    List.length_singleton, maxArgsSize]
  omega

theorem exists_request {bytes : List UInt8} (length : bytes.length = n) (pos : 1 ≤ n)
    (short : n ≤ bufsize) : ∃ r : Request, r.bytes = bytes :=
  ⟨⟨bytes, length ▸ pos, length ▸ short⟩, rfl⟩

end Overruns

theorem request_overruns :
    let m : Memory := ⟨fun _ => 0, fun _ => 0, fun _ _ => 0⟩
    (∃ r : Request, r.bytes = (List.replicate 300 [97, blank]).flatten ∧
      ∀ w, ¬(requestCommand m w r).Safe) ∧
    (∃ r : Request, r.bytes = [97, blank, 97, blank] ++ List.replicate 1023 97 ∧
      ∀ w, ¬(requestCommand m w r).Safe) ∧
    ∃ r : Request, r.bytes = List.replicate 4096 97 ∧ ∀ w, ¬(requestCommand m w r).Safe := by
  intro m
  have repeated : ∀ n, (List.replicate n [97, blank]).flatten.length = n * 2 := by
    intro n
    simp
  have many := repeated 300
  have long : ([97, blank, 97, blank] ++ List.replicate 1023 97 : List UInt8).length = 1027 := by
    rw [List.length_append, List.length_replicate]
    rfl
  have full : (List.replicate 4096 (97 : UInt8)).length = 4096 := List.length_replicate
  refine ⟨?_, ?_, ?_⟩
  · obtain ⟨r, bytes⟩ := exists_request many (by decide) (by decide)
    refine ⟨r, bytes, fun w => many_words_overrun (n := 300) m w bytes ?_ (by decide)⟩
    rw [bytes, many]
    decide
  · obtain ⟨r, bytes⟩ := exists_request long (by decide) (by decide)
    refine ⟨r, bytes, fun w => long_word_overrun (n := 1023) m w bytes ?_ (by decide)⟩
    rw [bytes, long]
    decide
  · obtain ⟨r, bytes⟩ := exists_request full (by decide) (by decide)
    have plain : 0 ∉ r.bytes := by
      rw [bytes, List.mem_replicate]
      exact fun zero => absurd zero.2 (by decide)
    have whole : ¬r.bytes.length < bufsize := by
      rw [bytes, full]
      decide
    exact ⟨r, bytes, fun w => full_request_overrun m w plain whole⟩

end X300.SuAgentRequest
