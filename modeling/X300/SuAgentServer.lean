import X300.SuAgentRequest

/-! The SuAgent server (`SuAgentServer.c`): what the command of a request prints is
collected line by line, in a buffer that grows by 1024 bytes at a time, and written back to
the client. `malloc` succeeds; `popen`, `fgets` and `pclose` are a process. -/

namespace X300.SuAgentServer
open CMemory CStrings SuAgentRequest

def singleLineSize : Nat := 800

abbrev OutputLine := Line 798

abbrev OutputProcess := Process 798

structure Output where
  curSize : Int
  bufSize : Int
  out : Ptr

/-- A block of `n` bytes. No two blocks of a run have the same size, and `heap` tells what
each of them holds at first. -/
def malloc (heap : Int → Int → UInt8) (n : Int) : Ptr := ⟨heap n, n, 0⟩

def newOut (heap : Int → Int → UInt8) (bufSize : Int) : Run Syscall Ptr :=
  memset (malloc heap bufSize) 0 bufSize.toNat

def grow (heap : Int → Int → UInt8) (s : Output) : Run Syscall Output :=
  if s.curSize ≥ s.bufSize then do
    let bufSize := s32 (s.bufSize + maxArgsSize)
    let out ← newOut heap bufSize
    let out ← strcpy out s.out
    pure ⟨s.curSize, bufSize, out⟩
  else pure s

def appendLine (heap : Int → Int → UInt8) (s : Output) (line : OutputLine) :
    Run Syscall Output := do
  let buf := line.buf singleLineSize
  let length ← strlen buf
  let s ← grow heap { s with curSize := s32 (s.curSize + length) }
  let length ← strlen buf
  let out ← strncat s.out buf length.toNat
  pure { s with out := out }

def appendLines (heap : Int → Int → UInt8) : List OutputLine → Output → Run Syscall Output
  | [], s => pure s
  | line :: lines, s => do
      let s ← appendLine heap s line
      appendLines heap lines s

def start (heap : Int → Int → UInt8) : Run Syscall Output := do
  let out ← newOut heap maxArgsSize
  pure ⟨0, maxArgsSize, out⟩

def popenFailed : Ptr := literal ("popen failed!".toList.map Char.toUInt8)

def pcloseFailed : Ptr := literal ("pclose failed!".toList.map Char.toUInt8)

def runAndGetOutPut (m : Memory) (w : PointerSize) (process : Option OutputProcess) (buf : Ptr)
    (argv : List Int) : Run Syscall Ptr := do
  let s ← start m.heap
  let command ← combineArg m w buf argv
  Run.emit (.popen command)
  match process with
  | none => pure popenFailed
  | some process => do
      let s ← appendLines m.heap process.lines s
      if process.closes = false then pure pcloseFailed
      else do
        printString s.out
        pure s.out

/-- `listening` is `FD_ISSET(listen_sockfd, ready_set)`. -/
def executeAndResponseClient (m : Memory) (w : PointerSize) (process : Option OutputProcess)
    (listening : Bool) (r : Request) : Run Syscall Unit := do
  let argv ← splitRequest m w r
  let response ← runAndGetOutPut m w process argv.1 argv.2
  if listening = true then do
    let length ← strlen response
    Run.emit (.write (response.bytes length))
  else pure ()

@[simp] theorem newOut_calls (heap : Int → Int → UInt8) (bufSize : Int) :
    (newOut heap bufSize).calls = [] := memset_calls _ _ _

@[simp] theorem start_calls (heap : Int → Int → UInt8) : (start heap).calls = [] := by
  simp [start]

@[simp] theorem appendLines_calls (heap : Int → Int → UInt8) (lines : List OutputLine)
    (s : Output) : (appendLines heap lines s).calls = [] := by
  induction lines generalizing s with
  | nil => rfl
  | cons line lines ih => simp [appendLines, appendLine, grow, ih]

structure Collected (s : Output) (text : List UInt8) : Prop where
  length : s.curSize = text.length
  room : s.curSize < s.bufSize
  base : s.out.off = 0
  size : s.out.size = s.bufSize
  string : Terminated s.out text

theorem newOut_spec (heap : Int → Int → UInt8) {n : Int} (pos : 0 < n) :
    Terminated (newOut heap n).value [] ∧ (newOut heap n).value.off = 0 ∧
      (newOut heap n).value.size = n ∧ (newOut heap n).Safe := by
  have upper : (malloc heap n).off + n.toNat ≤ (malloc heap n).size := by
    simp only [malloc]
    omega
  obtain ⟨zeros, value, safe⟩ := memset_spec (ε := Syscall) (p := malloc heap n) (Int.le_refl 0)
    upper 0
  refine ⟨terminated_zeros (by omega) zeros, ?_, ?_, safe⟩
  · rw [newOut, value, Ptr.write_off]
    rfl
  · rw [newOut, value, Ptr.write_size]
    rfl

theorem collected_newOut (heap : Int → Int → UInt8) {n : Int} (pos : 0 < n) :
    Collected ⟨0, n, (newOut heap n).value⟩ [] ∧ (newOut heap n).Safe := by
  obtain ⟨string, base, size, safe⟩ := newOut_spec heap pos
  exact ⟨⟨rfl, pos, base, size, string⟩, safe⟩

theorem start_spec (heap : Int → Int → UInt8) :
    Collected (start heap).value [] ∧ (start heap).Safe := by
  have pos : (0 : Int) < maxArgsSize := by decide
  obtain ⟨collected, safe⟩ := collected_newOut heap pos
  rw [start, Run.value_bind, Run.value_pure, Run.safe_bind]
  exact ⟨collected, safe, Run.safe_pure _⟩

/-- With the size of a further line added, there is room for the line behind the text. -/
structure Roomy (s : Output) (text line : List UInt8) : Prop where
  length : s.curSize = text.length + line.length
  room : s.curSize < s.bufSize
  base : s.out.off = 0
  size : s.out.size = s.bufSize
  string : Terminated s.out text

theorem grow_spec (heap : Int → Int → UInt8) {s : Output} {text line : List UInt8}
    (h : Collected s text) (short : line.length ≤ 798)
    (small : text.length + line.length < 2 ^ 31 - maxArgsSize) :
    let sized : Output := { s with curSize := text.length + line.length }
    Roomy (grow heap sized).value text line ∧ (grow heap sized).Safe := by
  intro sized
  have step : (maxArgsSize : Int) = 1024 := rfl
  have fits := h.room
  rw [h.length] at fits
  by_cases full : sized.curSize ≥ sized.bufSize
  · have full' : (text.length + line.length : Int) ≥ s.bufSize := full
    have noWrap : s32 (s.bufSize + maxArgsSize) = s.bufSize + maxArgsSize :=
      s32_eq (by omega) (by omega)
    obtain ⟨empty, base, size, cleared⟩ :=
      newOut_spec heap (n := s.bufSize + maxArgsSize) (by omega)
    obtain ⟨value, safe⟩ := strcpy_spec (ε := Syscall) h.string
      (newOut heap (s.bufSize + maxArgsSize)).value
    have copied := empty.append h.string.plain (by
      rw [base, size, List.length_nil]
      omega)
    have room : (text.length + line.length : Int) < s.bufSize + maxArgsSize := by omega
    simp only [grow, if_pos full, sized, noWrap, Run.value_bind, Run.value_pure, Run.safe_bind,
      Run.safe_pure, and_true, value, cleared, true_and, safe, base, size]
    exact ⟨⟨rfl, room, by simpa using base, by simpa using size, copied⟩, by omega⟩
  · simp only [grow, if_neg full, Run.value_pure]
    exact ⟨⟨rfl, Int.not_le.mp full, h.base, h.size, h.string⟩, Run.safe_pure _⟩

theorem appendLine_spec (heap : Int → Int → UInt8) {s : Output} {text : List UInt8}
    (h : Collected s text) (line : OutputLine)
    (small : text.length + line.text.length < 2 ^ 31 - maxArgsSize) :
    Collected (appendLine heap s line).value (text ++ line.text) ∧
      (appendLine heap s line).Safe := by
  have step : (maxArgsSize : Int) = 1024 := rfl
  have buffer := line.terminated (by decide : 798 < singleLineSize)
  obtain ⟨length, scanned⟩ := buffer.strlen_spec (ε := Syscall)
  have sum : s32 (s.curSize + line.text.length) = text.length + line.text.length := by
    rw [h.length, s32_eq (by omega) (by omega)]
  obtain ⟨roomy, grown⟩ := grow_spec heap h line.short small
  generalize next : grow heap { s with curSize := text.length + line.text.length } = run
    at roomy grown
  have all : line.text.take line.text.length = line.text := List.take_length
  have room : run.value.out.off + text.length + (line.text.take line.text.length).length + 1 ≤
      run.value.out.size := by
    rw [all, roomy.base, roomy.size]
    have := roomy.room
    rw [roomy.length] at this
    omega
  obtain ⟨value, safe⟩ := strncat_spec (ε := Syscall) roomy.string buffer room
  rw [all] at value room
  have appended := roomy.string.append line.plain room
  simp only [appendLine, Run.value_bind, Run.value_pure, Run.safe_bind, Run.safe_pure, and_true,
    length, sum, next, Int.toNat_natCast, value]
  refine ⟨⟨?_, roomy.room, ?_, ?_, appended⟩, scanned, grown, scanned, safe⟩
  · simp [roomy.length]
  · simpa using roomy.base
  · simpa using roomy.size

theorem appendLines_spec (heap : Int → Int → UInt8) {s : Output} {text : List UInt8}
    (h : Collected s text) (lines : List OutputLine)
    (small : text.length + (printed lines).length < 2 ^ 31 - maxArgsSize) :
    Collected (appendLines heap lines s).value (text ++ printed lines) ∧
      (appendLines heap lines s).Safe := by
  induction lines generalizing s text with
  | nil =>
      rw [printed, List.flatMap_nil, List.append_nil]
      exact ⟨h, Run.safe_pure _⟩
  | cons line lines ih =>
      have cons : printed (line :: lines) = line.text ++ printed lines := rfl
      rw [cons, List.length_append] at small
      obtain ⟨next, safe⟩ := appendLine_spec heap h line (by omega)
      obtain ⟨last, rest⟩ := ih next (by rw [List.length_append]; omega)
      rw [cons, ← List.append_assoc]
      exact ⟨last, (Run.safe_bind _ _).mpr ⟨safe, rest⟩⟩

theorem collect_spec (heap : Int → Int → UInt8) (lines : List OutputLine)
    (small : (printed lines).length < 2 ^ 31 - maxArgsSize) :
    Collected (appendLines heap lines (start heap).value).value (printed lines) ∧
      (start heap >>= appendLines heap lines).Safe := by
  obtain ⟨empty, cleared⟩ := start_spec heap
  obtain ⟨last, safe⟩ := appendLines_spec heap empty lines (by rwa [List.length_nil, Nat.zero_add])
  rw [List.nil_append] at last
  exact ⟨last, (Run.safe_bind _ _).mpr ⟨cleared, safe⟩⟩

theorem runAndGetOutPut_spec (m : Memory) (w : PointerSize) (buf : Ptr) (argv : List Int)
    (lines : List OutputLine) (small : (printed lines).length < 2 ^ 31 - maxArgsSize) :
    let run := runAndGetOutPut m w (some ⟨lines, true⟩) buf argv
    Terminated run.value (printed lines) ∧ (run.Safe ↔ (combineArg m w buf argv).Safe) ∧
      run.calls = [.popen (combineArg m w buf argv).value] := by
  obtain ⟨collected, safe⟩ := collect_spec m.heap lines small
  rw [Run.safe_bind] at safe
  have shown := printString_safe collected.string
  simp only [runAndGetOutPut, Run.value_bind, Run.value_pure, Run.safe_bind, Run.safe_pure,
    Run.safe_emit, Run.calls_bind, Run.calls_pure, Run.calls_emit, start_calls, combineArg_calls,
    appendLines_calls, printString_calls, Bool.true_eq_false, if_false, safe, shown, true_and,
    and_true, List.nil_append, List.append_nil]
  exact collected.string

/-- Whatever is printed, `curSize` is the length of the string in the buffer after every
line and smaller than `bufSize`, no copy leaves the buffer, and the printed is returned. -/
theorem output_exact (m : Memory) (w : PointerSize) (buf : Ptr) (argv : List Int)
    (lines : List OutputLine) (small : (printed lines).length < 2 ^ 31 - maxArgsSize) :
    (∀ done, done <+: lines →
      let s := (appendLines m.heap done (start m.heap).value).value
      s.curSize = (strlen s.out : Run Syscall Int).value ∧ s.curSize < s.bufSize ∧
        s.out.size = s.bufSize) ∧
    (start m.heap >>= appendLines m.heap lines).Safe ∧
    Terminated (runAndGetOutPut m w (some ⟨lines, true⟩) buf argv).value (printed lines) := by
  refine ⟨fun done reached => ?_, (collect_spec m.heap lines small).2,
    (runAndGetOutPut_spec m w buf argv lines small).1⟩
  have shorter : (printed done).length ≤ (printed lines).length := by
    obtain ⟨rest, rfl⟩ := reached
    rw [printed, printed, List.flatMap_append, List.length_append]
    exact Nat.le_add_right _ _
  obtain ⟨collected, _⟩ := collect_spec m.heap done (Nat.lt_of_le_of_lt shorter small)
  have length := (collected.string.strlen_spec (ε := Syscall)).1
  exact ⟨collected.length.trans length.symm, collected.room, collected.size⟩

theorem fullLine_plain : (0 : UInt8) ∉ List.replicate 798 97 :=
  fun zero => absurd (List.eq_of_mem_replicate zero) (by decide)

theorem fullLine_short : (List.replicate 798 (97 : UInt8)).length ≤ 798 :=
  Nat.le_of_eq List.length_replicate

def fullLine : OutputLine := ⟨List.replicate 798 97, fullLine_plain, fullLine_short, fun _ => 0⟩

theorem output_exact_grown :
    let m : Memory := ⟨fun _ => 0, fun _ => 0, fun _ _ => 255⟩
    let text := (List.replicate 798 97 : List UInt8)
    (start m.heap >>= appendLines m.heap [fullLine, fullLine]).Safe ∧
    Terminated (runAndGetOutPut m .four (some ⟨[fullLine, fullLine], true⟩) .null []).value
      (text ++ text) := by
  intro m text
  have lines : printed [fullLine, fullLine] = text ++ text := by
    rw [printed, List.flatMap_cons, List.flatMap_cons, List.flatMap_nil, List.append_nil]
    rfl
  have small : (printed [fullLine, fullLine]).length < 2 ^ 31 - maxArgsSize := by
    rw [lines, List.length_append, List.length_replicate]
    decide
  have result := output_exact m .four .null [] [fullLine, fullLine] small
  rw [lines] at result
  exact result.2

/-- A request whose command prints `lines` is served inside all buffers exactly when it is
taken apart inside them; the client is sent what the command printed. -/
theorem executeAndResponseClient_spec (m : Memory) (w : PointerSize) (r : Request)
    (lines : List OutputLine) (listening : Bool)
    (small : (printed lines).length < 2 ^ 31 - maxArgsSize) :
    let run := executeAndResponseClient m w (some ⟨lines, true⟩) listening r
    (run.Safe ↔ (requestCommand m w r).Safe) ∧
    run.calls = .popen (requestCommand m w r).value ::
      if listening = true then [.write (printed lines)] else [] := by
  obtain ⟨string, safe, calls⟩ := runAndGetOutPut_spec m w (splitRequest m w r).value.1
    (splitRequest m w r).value.2 lines small
  obtain ⟨length, scanned⟩ := string.strlen_spec (ε := Syscall)
  have answer := string.holds.left.bytes_eq
  simp only [executeAndResponseClient, requestCommand, Run.safe_bind, Run.calls_bind,
    Run.value_bind, splitRequest_calls, safe, calls, List.nil_append, List.cons_append]
  cases listening with
  | true =>
      simp only [if_true, Run.safe_bind, Run.safe_emit, Run.calls_bind, Run.calls_emit,
        strlen_calls, scanned, length, answer, and_true, List.nil_append]
  | false =>
      simp only [Bool.false_eq_true, if_false, Run.safe_pure, Run.calls_pure, and_true]

end X300.SuAgentServer
