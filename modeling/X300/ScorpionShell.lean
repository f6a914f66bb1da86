import X300.CStrings
import X300.ScorpionRelay

/-! Shell requests of the APK: `scorpion_shell_respond` runs the payload of a request as a
command and sends back what it prints. The command is the C string at the payload; the
reply is collected line by line in a block of 40960 bytes. -/

namespace X300.ScorpionShell
open CMemory PackedFields CStrings ByteStuffing DelimitedScan ScorpionCodec ScorpionDecoder
open ScorpionSegments ScorpionFrames ScorpionStacks ScorpionEncoder ScorpionAyalyze
open ScorpionRoundTrip ScorpionHandlers ScorpionRelay

def maxLine : Nat := 512
def lineSize : Nat := 80

abbrev ShellLine := Line 79

abbrev ShellProcess := Process 79

inductive Syscall where
  | popen (command : Ptr)
  | socketSend (wire : List UInt8)

def u16 (x : Int) : Int := x % 2 ^ 16

def appendLine (out_size : Int) (size : Int) (out_buf : Ptr) (line : ShellLine) :
    Run Syscall (Int × Ptr) := do
  let line_buf := line.buf lineSize
  let n ← strlen line_buf
  if out_size - 1 ≤ size + u16 n then do
    let out_buf ← strncat out_buf line_buf (toUnsigned (out_size - 1 - size)).toNat
    let out_buf ← out_buf.store (out_size - 1) 0
    pure (u16 (out_size - 1), out_buf)
  else do
    let n ← strlen line_buf
    let out_buf ← strncat out_buf line_buf n.toNat
    let n ← strlen line_buf
    pure (u16 (size + n), out_buf)

def appendLines (out_size : Int) : List ShellLine → Int → Ptr → Run Syscall (Int × Ptr)
  | [], size, out_buf => pure (size, out_buf)
  | line :: lines, size, out_buf => do
      let next ← appendLine out_size size out_buf line
      appendLines out_size lines next.1 next.2

/-- A text in place of the printed; its length does not count its NUL. -/
def failed (out_buf : Ptr) (out_size : Int) (text : List UInt8) : Run Syscall (Int × Ptr) := do
  let out_buf ← memset out_buf 0 out_size.toNat
  let out_buf ← strcpy out_buf (.block (fun _ => 0) (text ++ [0]))
  let n ← strlen out_buf
  pure (u16 n, out_buf)

def popenFailed : List UInt8 := "popen failed!".toList.map Char.toUInt8

def pcloseFailed : List UInt8 := "pclose failed!".toList.map Char.toUInt8

def shellRun (process : Option ShellProcess) (in_buf out_buf : Ptr) (out_size : Int) :
    Run Syscall (Int × Ptr) := do
  Run.emit (.popen in_buf)
  match process with
  | none => failed out_buf out_size popenFailed
  | some process => do
      let out_buf ← memset out_buf 0 out_size.toNat
      let filled ← appendLines out_size process.lines 0 out_buf
      if process.closes = false then failed filled.2 out_size pcloseFailed
      else pure (u16 (filled.1 + 1), filled.2)

@[simp] theorem appendLine_calls (out_size size : Int) (out_buf : Ptr) (line : ShellLine) :
    (appendLine out_size size out_buf line).calls = [] := by
  simp [appendLine]

@[simp] theorem appendLines_calls (out_size : Int) (lines : List ShellLine) (size : Int)
    (out_buf : Ptr) : (appendLines out_size lines size out_buf).calls = [] := by
  induction lines generalizing size out_buf with
  | nil => rfl
  | cons line lines ih => simp [appendLines, ih]

@[simp] theorem failed_calls (out_buf : Ptr) (out_size : Int) (text : List UInt8) :
    (failed out_buf out_size text).calls = [] := by
  simp [failed]

@[simp] theorem shellRun_calls (process : Option ShellProcess) (in_buf out_buf : Ptr)
    (out_size : Int) : (shellRun process in_buf out_buf out_size).calls = [.popen in_buf] := by
  cases process with
  | none => simp [shellRun]
  | some process => simp [shellRun]

theorem u16_eq {x : Int} (lower : 0 ≤ x) (upper : x < 2 ^ 16) : u16 x = x :=
  Int.emod_eq_of_lt lower upper

/-- After lines with this text: `out_buf` holds its first `out_size - 1` characters, and
`size` is their number. -/
structure Collected (out_size : Nat) (text : List UInt8) (size : Int) (out_buf : Ptr) : Prop where
  string : Terminated out_buf (text.take (out_size - 1))
  counted : size = (text.take (out_size - 1)).length
  off : out_buf.off = 0
  whole : out_buf.size = out_size

section Lines

variable {out_size : Nat} (pos : 1 ≤ out_size) (small : out_size ≤ 65535)
include pos small

theorem appendLine_spec {text : List UInt8} {size : Int} {out_buf : Ptr}
    (h : Collected out_size text size out_buf) (line : ShellLine) :
    let run := appendLine out_size size out_buf line
    Collected out_size (text ++ line.text) run.value.1 run.value.2 ∧ run.Safe := by
  have src : Terminated (line.buf lineSize) line.text := line.terminated (by decide)
  obtain ⟨length, scanned⟩ := src.strlen_spec (ε := Syscall)
  have short := line.short
  have off := h.off
  have whole := h.whole
  have counted := h.counted
  rw [List.length_take] at counted
  have narrow : u16 (line.text.length : Int) = line.text.length := u16_eq (by omega) (by omega)
  have joined : (text ++ line.text).take (out_size - 1) =
      text.take (out_size - 1) ++ line.text.take (out_size - 1 - text.length) := List.take_append
  by_cases full : (out_size : Int) - 1 ≤ size + line.text.length
  · have count : (toUnsigned ((out_size : Int) - 1 - size)).toNat = out_size - 1 - text.length := by
      rw [toUnsigned_of_nonneg (by omega)]
      omega
    have fits : out_buf.off + (text.take (out_size - 1)).length +
        (line.text.take (out_size - 1 - text.length)).length + 1 ≤ out_buf.size := by
      simp only [List.length_take]
      omega
    obtain ⟨value, safe⟩ := strncat_spec (ε := Syscall) h.string src fits
    have appended := h.string.append
      (fun member => line.plain (List.mem_of_mem_take member)) fits
    rw [← joined] at appended
    have filled : ((text ++ line.text).take (out_size - 1)).length = out_size - 1 := by
      simp only [List.length_take, List.length_append]
      omega
    have index : (out_size : Int) - 1 = ((text ++ line.text).take (out_size - 1)).length := by
      omega
    have stored := appended.holds.store (ε := Syscall) index 0
    have same : ((text ++ line.text).take (out_size - 1) ++ [0]).set
        ((text ++ line.text).take (out_size - 1)).length 0 =
        (text ++ line.text).take (out_size - 1) ++ [0] := by
      simp
    rw [same] at stored
    simp only [appendLine, Run.value_bind, Run.safe_bind, length, narrow, if_pos full, count, value,
      scanned, safe, Run.value_pure, Run.safe_pure, true_and, and_true]
    refine ⟨⟨⟨appended.plain, stored⟩, ?_, ?_, ?_⟩, ?_⟩
    · rw [u16_eq (by omega) (by omega), index]
    · simpa using off
    · simpa using whole
    · exact appended.holds.store_safe index (by simp) 0
  · have before : text.length ≤ out_size - 1 := by omega
    have all : line.text.take line.text.length = line.text := List.take_length
    have fits : out_buf.off + (text.take (out_size - 1)).length +
        (line.text.take line.text.length).length + 1 ≤ out_buf.size := by
      simp only [List.length_take]
      omega
    obtain ⟨value, safe⟩ := strncat_spec (ε := Syscall) h.string src fits
    rw [all] at value fits
    have appended := h.string.append line.plain fits
    have joined : (text ++ line.text).take (out_size - 1) =
        text.take (out_size - 1) ++ line.text := by
      rw [joined, List.take_of_length_le (l := line.text) (by omega)]
    rw [← joined] at appended
    simp only [appendLine, Run.value_bind, Run.safe_bind, length, narrow, if_neg full,
      Int.toNat_natCast, value, scanned, safe, Run.value_pure, Run.safe_pure, and_true]
    refine ⟨appended, ?_, ?_, ?_⟩
    · rw [u16_eq (by omega) (by omega), joined, List.length_append, List.length_take]
      omega
    · simpa using off
    · simpa using whole

theorem appendLines_spec {text : List UInt8} {size : Int} {out_buf : Ptr}
    (h : Collected out_size text size out_buf) (lines : List ShellLine) :
    let run := appendLines out_size lines size out_buf
    Collected out_size (text ++ printed lines) run.value.1 run.value.2 ∧ run.Safe := by
  induction lines generalizing text size out_buf with
  | nil =>
      refine ⟨?_, Run.safe_pure _⟩
      simpa [printed, appendLines] using h
  | cons line lines ih =>
      obtain ⟨next, safe⟩ := appendLine_spec pos small h line
      obtain ⟨last, later⟩ := ih next
      rw [printed, List.flatMap_cons, ← List.append_assoc]
      simp only [appendLines, Run.value_bind, Run.safe_bind]
      exact ⟨last, safe, later⟩

omit small in
theorem collected_start (cell : Int → UInt8) :
    let run : Run Syscall Ptr := memset ⟨cell, out_size, 0⟩ 0 (out_size : Int).toNat
    Collected out_size [] 0 run.value ∧ run.Safe := by
  obtain ⟨zeros, value, safe⟩ := memset_spec (ε := Syscall) (p := ⟨cell, out_size, 0⟩)
    (n := out_size) (by simp) (by simp) 0
  rw [Int.toNat_natCast]
  refine ⟨⟨?_, ?_, ?_, ?_⟩, safe⟩
  · rw [List.take_nil]
    exact terminated_zeros pos zeros
  · rw [List.take_nil]
    rfl
  · rw [value, Ptr.write_off]
  · rw [value, Ptr.write_size]

theorem shellRun_spec (lines : List ShellLine) (in_buf : Ptr) (cell : Int → UInt8) :
    let run := shellRun (some ⟨lines, true⟩) in_buf ⟨cell, out_size, 0⟩ out_size
    Collected out_size (printed lines) (run.value.1 - 1) run.value.2 ∧ run.Safe := by
  obtain ⟨start, cleared⟩ := collected_start pos cell
  obtain ⟨last, safe⟩ := appendLines_spec pos small start lines
  have bound := last.counted
  rw [List.length_take] at bound
  have grown : u16 ((appendLines out_size lines 0
      (memset ⟨cell, out_size, 0⟩ 0 (out_size : Int).toNat : Run Syscall Ptr).value).value.1 + 1) =
      (appendLines out_size lines 0
      (memset ⟨cell, out_size, 0⟩ 0 (out_size : Int).toNat : Run Syscall Ptr).value).value.1 + 1 :=
    u16_eq (by omega) (by omega)
  simp only [shellRun, Run.value_bind, Run.safe_bind, Run.safe_emit, Bool.true_eq_false, if_false,
    Run.value_pure, Run.safe_pure, grown, Int.add_sub_cancel]
  exact ⟨last, trivial, cleared, safe, trivial⟩

end Lines

def scorpion2apkShellRep : Nat := 0x8010

/-- The blocks that `malloc` returns: for the printed, for the reply, and for its wire bytes. -/
structure Blocks where
  new_buf : Int → UInt8
  shell_rep_buf : Int → UInt8
  wire : Option (Int → UInt8)

def buildReply (cell : Int → UInt8) (header : List UInt8) (new_buf : Ptr) (new_len : Int)
    (shell_rep_len : Int) : Run Syscall Ptr := do
  let shell_rep_buf ← storeAll ⟨cell, shell_rep_len, 0⟩ 1 header
  let payload ← Ptr.memcpy (shell_rep_buf.add (1 + headerSize)) new_buf new_len
  pure (payload.add (-(1 + headerSize)))

def sendReply (m : Blocks) (new_buf : Ptr) (new_len : Int) (seq : Nat) : Run Syscall Unit := do
  let shell_rep_len := u16 (new_len + headerSize + 3)
  let shell_rep_buf ← buildReply m.shell_rep_buf
    (buildHeader scorpion2apkShellRep new_len.toNat seq) new_buf new_len shell_rep_len
  let _ ← observe (fun | .send wire => some (.socketSend wire) | _ => none)
    (protocolSendData scorpionCode m.wire shell_rep_buf shell_rep_len)

def scorpionShellRespond (m : Blocks) (process : Option ShellProcess) (buf : Ptr) (s : Service) :
    Run Syscall Service := do
  let ran ← shellRun process buf ⟨m.new_buf, (maxLine * lineSize : Nat), 0⟩
    (maxLine * lineSize : Nat)
  sendReply m ran.2 ran.1 s.scorpion_seq
  pure { s with scorpion_seq := nextSeq s.scorpion_seq }

/-- The service is left as the dispatch of the messages has it. -/
theorem scorpionShellRespond_value (m : Blocks) (scratch : Scratch)
    (process : Option ShellProcess) (buf : Ptr) (arg : Int) (s : Service) :
    (scorpionShellRespond m process buf s).value =
      (callHandler scratch .shellRespond buf arg s).value := rfl

@[simp] theorem buildReply_calls (cell : Int → UInt8) (header : List UInt8) (new_buf : Ptr)
    (new_len shell_rep_len : Int) :
    (buildReply cell header new_buf new_len shell_rep_len).calls = [] := by
  simp [buildReply]

theorem buildReply_spec (cell : Int → UInt8) {header : List UInt8} (size : header.length = 8)
    {new_buf : Ptr} {payload : List UInt8} (h : new_buf.Holds payload) :
    let run := buildReply cell header new_buf payload.length (payload.length + headerSize + 3)
    run.value = packed cell (header ++ payload) ∧ run.Safe := by
  have place : (1 : Int) + headerSize + 0 = 1 + header.length := by
    rw [size]
    rfl
  have room : (payload.length : Int) + headerSize + 3 = (header ++ payload).length + 3 := by
    rw [List.length_append, size, headerSize]
    omega
  have stored := storeAll_value (ε := Syscall) ⟨cell, payload.length + headerSize + 3, 0⟩ 1 header
  have copied := Ptr.memcpy_value (ε := Syscall) h
    (((⟨cell, payload.length + headerSize + 3, 0⟩ : Ptr).write 1 header).add (1 + headerSize)) rfl
  simp only [buildReply, Run.value_bind, Run.safe_bind, stored, copied, Run.value_pure,
    Run.safe_pure, and_true]
  refine ⟨?_, ?_, ?_⟩
  · rw [Ptr.add_write, place, ← Ptr.write_append, Ptr.add_add, Int.add_right_neg, Ptr.add_zero,
      packed, room]
  · apply storeAll_safe (by simp)
    change 0 + 1 + (header.length : Int) ≤ payload.length + headerSize + 3
    rw [size, headerSize]
    omega
  · apply Ptr.memcpy_safe h rfl
    · simp only [Ptr.add_off, Ptr.write_off, headerSize]
      omega
    · simp only [Ptr.add_off, Ptr.add_size, Ptr.write_off, Ptr.write_size]
      omega

theorem sendReply_spec (m : Blocks) {new_buf : Ptr} {payload : List UInt8}
    (h : new_buf.Holds payload) (small : payload.length + 11 < 2 ^ 16) (seq : Nat) :
    let run := sendReply m new_buf payload.length seq
    (∃ wire, packets .apk wire = [⟨scorpion2apkShellRep, payload.length, payload⟩] ∧
      run.calls = if m.wire.isSome then [.socketSend wire] else []) ∧ run.Safe := by
  have size := buildHeader_length scorpion2apkShellRep payload.length seq
  have room := header_room scorpion2apkShellRep payload.length seq payload
  have len : u16 ((payload.length : Int) + headerSize + 3) = payload.length + headerSize + 3 :=
    u16_eq (by rw [headerSize]; omega) (by rw [headerSize]; omega)
  have total : (payload.length : Int) + headerSize + 3 =
      (buildHeader scorpion2apkShellRep payload.length seq ++ payload).length + 3 := by
    rw [List.length_append, size, headerSize]
    omega
  obtain ⟨built, copied⟩ := buildReply_spec m.shell_rep_buf size h
  obtain ⟨sent, safe⟩ := packed_sendData_spec scorpionCode ⟨m.shell_rep_buf, m.wire⟩ _ room
  rw [← total, ← built] at sent safe
  simp only [sendReply, Run.calls_bind, Run.safe_bind, len, Int.toNat_natCast, buildReply_calls,
    copied, observe_calls, observe_safe, sent, safe]
  refine ⟨⟨_, packets_packed (m := ⟨m.shell_rep_buf, m.wire⟩) (by decide) (by omega) payload .apk
    seq, ?_⟩, ?_⟩
  · split_ifs <;> rfl
  · simp

section Reply

variable (m : Blocks) (lines : List ShellLine) (buf : Ptr) (s : Service)

def replyPayload : List UInt8 := (printed lines).take (maxLine * lineSize - 1) ++ [0]

theorem replyPayload_length : (replyPayload lines).length ≤ 40960 := by
  simp only [replyPayload, maxLine, lineSize, List.length_append, List.length_take,
    List.length_cons, List.length_nil]
  omega

theorem scorpionShellRespond_spec :
    let run := scorpionShellRespond m (some ⟨lines, true⟩) buf s
    (∃ wire, packets .apk wire =
        [⟨scorpion2apkShellRep, (replyPayload lines).length, replyPayload lines⟩] ∧
      run.calls = .popen buf :: if m.wire.isSome then [.socketSend wire] else []) ∧ run.Safe := by
  obtain ⟨last, safe⟩ := shellRun_spec (by decide : 1 ≤ maxLine * lineSize) (by decide) lines
    buf m.new_buf
  have short := replyPayload_length lines
  have counted : (shellRun (some ⟨lines, true⟩) buf ⟨m.new_buf, (maxLine * lineSize : Nat), 0⟩
      (maxLine * lineSize : Nat)).value.1 = (replyPayload lines).length := by
    have counted := last.counted
    rw [replyPayload, List.length_append, List.length_singleton]
    omega
  obtain ⟨⟨wire, found, sent⟩, copied⟩ := sendReply_spec m last.string.holds
    (Nat.lt_of_le_of_lt (Nat.add_le_add_right short 11) (by decide)) s.scorpion_seq
  simp only [scorpionShellRespond, Run.calls_bind, Run.safe_bind, shellRun_calls, safe, counted,
    Run.calls_pure, Run.safe_pure, List.append_nil]
  exact ⟨⟨wire, found, congrArg (Syscall.popen buf :: ·) sent⟩, trivial, copied, trivial⟩

end Reply

/-- Whatever is printed, `shell_run` leaves its first `out_size - 1` characters and a NUL in
`out_buf`, with `size` the length of the string after every line; and the reply of
`scorpion_shell_respond` carries the output cut to the block, with its NUL. -/
theorem shell_reply_exact (out_size : Nat) (pos : 1 ≤ out_size) (small : out_size ≤ 65535)
    (lines : List ShellLine) (in_buf : Ptr) (cell : Int → UInt8) :
    let run := shellRun (some ⟨lines, true⟩) in_buf ⟨cell, out_size, 0⟩ out_size
    (run.value.2.Holds ((printed lines).take (out_size - 1) ++ [0]) ∧ run.Safe ∧
      run.value.1 = (strlen run.value.2 : Run Syscall Int).value + 1 ∧ run.value.1 ≤ out_size) ∧
    (∀ done, done <+: lines →
      let cleared : Run Syscall Ptr := memset ⟨cell, out_size, 0⟩ 0 out_size
      let state := (appendLines out_size done 0 cleared.value).value
      state.1 = (strlen state.2 : Run Syscall Int).value ∧
        state.1 = ((printed done).take (out_size - 1)).length) ∧
    ∀ (m : Blocks) (s : Service),
      let run := scorpionShellRespond m (some ⟨lines, true⟩) in_buf s
      (∃ wire, packets .apk wire =
          [⟨scorpion2apkShellRep, (replyPayload lines).length, replyPayload lines⟩] ∧
        run.calls = .popen in_buf :: if m.wire.isSome then [.socketSend wire] else []) ∧
      run.Safe ∧ u16 ((replyPayload lines).length + headerSize + 3) =
        (replyPayload lines).length + headerSize + 3 := by
  refine ⟨?_, fun done _ => ?_, fun m s => ?_⟩
  · obtain ⟨last, safe⟩ := shellRun_spec pos small lines in_buf cell
    have counted := last.counted
    have length := (last.string.strlen_spec (ε := Syscall)).1
    refine ⟨last.string.holds, safe, ?_, ?_⟩
    · rw [length]
      omega
    · rw [List.length_take] at counted
      omega
  · obtain ⟨start, _⟩ := collected_start pos cell
    obtain ⟨last, _⟩ := appendLines_spec pos small start done
    have length := (last.string.strlen_spec (ε := Syscall)).1
    rw [List.nil_append] at last length
    exact ⟨last.counted.trans length.symm, last.counted⟩
  · obtain ⟨reply, safe⟩ := scorpionShellRespond_spec m lines in_buf s
    have short := replyPayload_length lines
    exact ⟨reply, safe, u16_eq (by rw [headerSize]; omega) (by rw [headerSize]; omega)⟩

theorem shell_reply_exact_cut :
    let lines : List ShellLine := [⟨[97, 98, 10], by decide, by decide, fun _ => 0⟩,
      ⟨[99, 100, 10], by decide, by decide, fun _ => 0⟩]
    let run := shellRun (some ⟨lines, true⟩) .null ⟨fun _ => 255, 5, 0⟩ 5
    run.value.2.Holds [97, 98, 10, 99, 0] ∧ run.Safe := by
  intro lines run
  obtain ⟨⟨holds, safe, _⟩, _⟩ := shell_reply_exact 5 (by decide) (by decide) lines .null
    fun _ => 255
  exact ⟨holds, safe⟩

structure ShellReq where
  message : Message
  request : field message.inner 0 = apk2scorpionShellReq
  around : Int → UInt8
  heap : Nat → Int → UInt8

def serveShell (m : Blocks) (process : Option ShellProcess) : List Call → Service →
    Run Syscall Service
  | [], s => pure s
  | .handler .shellRespond buf _ :: calls, s => do
      let s ← scorpionShellRespond m process buf s
      serveShell m process calls s
  | _ :: calls, s => serveShell m process calls s

def commands (calls : List Syscall) : List Ptr :=
  calls.filterMap fun | .popen command => some command | _ => none

def ShellReq.commands (req : ShellReq) (m : Blocks) (process : Option ShellProcess)
    (s : Service) : List Ptr :=
  let w := stream scorpionCode [req.message]
  ScorpionShell.commands (serveShell m process
    (scorpionProtocolAyalyze (succeeding req.heap) (.block req.around w) w.length).calls s).calls

def ShellReq.payload (req : ShellReq) : List UInt8 := ScorpionRelay.payload req.message

def ShellReq.text (req : ShellReq) : List UInt8 := req.payload.takeWhile (· ≠ 0)

theorem commands_sends (calls : List Call) :
    commands (calls.filterMap fun | .send wire => some (.socketSend wire) | _ => none) = [] := by
  rw [commands, List.filterMap_filterMap, List.filterMap_eq_nil_iff]
  intro call _
  cases call <;> rfl

/-- Each request runs just one command, the string at the pointer it is given. -/
theorem scorpionShellRespond_commands (m : Blocks) (process : Option ShellProcess) (buf : Ptr)
    (s : Service) : commands (scorpionShellRespond m process buf s).calls = [buf] := by
  have quiet : ∀ new_buf new_len,
      commands (sendReply m new_buf new_len s.scorpion_seq).calls = [] := by
    intro new_buf new_len
    simp only [sendReply, Run.calls_bind, buildReply_calls, observe_calls, Run.calls_pure,
      List.nil_append, List.append_nil]
    exact commands_sends _
  simp only [scorpionShellRespond, Run.calls_bind, shellRun_calls, Run.calls_pure, List.append_nil]
  rw [commands, List.singleton_append, List.filterMap_cons]
  exact congrArg (buf :: ·) (quiet _ _)

theorem ShellReq.commands_eq (req : ShellReq) (m : Blocks) (process : Option ShellProcess)
    (s : Service) : ∃ cell, req.commands m process s =
      [(receivedFrame scorpion cell req.message).buf.add (1 + headerSize)] := by
  obtain ⟨ts, bodies, calls⟩ := ayalyze_stream_calls scorpion [req.message] req.heap req.around
  obtain ⟨⟨cell, body⟩, later, rfl, first, rest⟩ := List.map_eq_cons_iff.mp bodies
  obtain rfl : body = scorpionCode.escape req.message.body := first
  obtain rfl : later = [] := List.map_eq_nil_iff.mp rest
  obtain ⟨msg_len, switched⟩ := scorpion_frame_calls cell req.message
  have verified := receivedFrame_calls scorpion cell req.message
  have treated : treatedCalls scorpion [(cell, scorpionCode.escape req.message.body)] =
      [_] ++ (verify scorpion (receivedFrame scorpion cell req.message)).calls ++ [] :=
    treatedCalls_cons scorpion _ []
  have handlers : scorpionSwitch (receivedFrame scorpion cell req.message) apk2scorpionShellReq
      msg_len = [.handler .shellRespond
        ((receivedFrame scorpion cell req.message).buf.add (1 + headerSize)) msg_len] := rfl
  rw [req.request, handlers] at switched
  rw [verified, switched] at treated
  refine ⟨cell, ?_⟩
  have served : req.commands m process s = ScorpionShell.commands (serveShell m process
      (treatedCalls scorpion [(cell, scorpionCode.escape req.message.body)]) s).calls :=
    congrArg (fun c => ScorpionShell.commands (serveShell m process c s).calls) calls
  rw [served, treated]
  simp only [List.singleton_append, List.append_nil, serveShell, Run.calls_bind, Run.calls_pure]
  exact scorpionShellRespond_commands m process _ s

theorem payload_holds (cell : Int → UInt8) (m : Message) :
    ((receivedFrame scorpion cell m).buf.add (1 + headerSize)).Holds
      (payload m ++ [xorAll m.inner]) := by
  have size := m.inner_length
  have room := m.room
  have split : m.inner.take 8 ++ (payload m ++ [xorAll m.inner]) = m.body := by
    rw [Message.body, payload, ← List.append_assoc, List.take_append_drop]
  have body : ((receivedFrame scorpion cell m).buf.add 1).Holds
      (m.inner.take 8 ++ (payload m ++ [xorAll m.inner])) := by
    rw [split]
    exact (decodedFrame_holds scorpionCode cell (scorpionCode.unescape_escape m.body)).tail.left
  have held := body.right
  rw [Ptr.add_add, List.length_take, Nat.min_eq_left (by omega)] at held
  exact held

def ShellReq.RunsPayload (req : ShellReq) (m : Blocks) (process : Option ShellProcess)
    (s : Service) : Prop :=
  ∃ command, req.commands m process s = [command] ∧ StringAt command req.text

theorem ShellReq.runsPayload_iff (req : ShellReq) (m : Blocks) (process : Option ShellProcess)
    (s : Service) :
    req.RunsPayload m process s ↔ 0 ∈ req.payload ∨ xorAll req.message.inner = 0 := by
  obtain ⟨cell, only⟩ := req.commands_eq m process s
  have string := stringAt_takeWhile_iff (payload_holds cell req.message)
  rw [RunsPayload, only]
  constructor
  · rintro ⟨command, same, found⟩
    rw [← (List.cons.inj same).1] at found
    exact string.mp found
  · exact fun cut => ⟨_, rfl, string.mpr cut⟩

def requestMessage (seq : Nat) (p : List UInt8) : Message :=
  packedMessage (fun _ => 0) (buildHeader apk2scorpionShellReq p.length seq ++ p)
    (header_room apk2scorpionShellReq p.length seq p)

theorem requestMessage_inner (seq : Nat) (p : List UInt8) :
    (requestMessage seq p).inner = buildHeader apk2scorpionShellReq p.length seq ++ p :=
  packedMessage_inner _ _ (header_room _ _ _ _)

theorem requestMessage_field (seq : Nat) (p : List UInt8) :
    field (requestMessage seq p).inner 0 = apk2scorpionShellReq := by
  rw [requestMessage_inner]
  rfl

def request (seq : Nat) (p : List UInt8) : ShellReq :=
  ⟨requestMessage seq p, requestMessage_field seq p, fun _ => 0, fun _ _ => 0⟩

theorem request_inner (seq : Nat) (p : List UInt8) :
    (request seq p).message.inner = buildHeader apk2scorpionShellReq p.length seq ++ p :=
  requestMessage_inner seq p

theorem request_payload (seq : Nat) (p : List UInt8) : (request seq p).payload = p := by
  rw [ShellReq.payload, payload, request_inner, List.drop_left' (buildHeader_length _ _ _)]

/-- Requests with two serial numbers do not have the same xor byte. -/
theorem request_xor (p : List UInt8) :
    xorAll (request 0 p).message.inner ≠ xorAll (request 1 p).message.inner := by
  intro same
  simp only [request_inner, buildHeader, xorAll_append, UInt8.xor_left_inj, UInt8.xor_right_inj]
    at same
  contradiction

/-- A request runs its payload, cut at the first NUL, exactly when there is a NUL in the
payload or the xor byte behind it is one; so a payload is run whatever the header exactly
when there is a NUL in it. -/
theorem shell_command_iff (m : Blocks) (process : Option ShellProcess) (s : Service) :
    (∀ req : ShellReq, req.RunsPayload m process s ↔
      0 ∈ req.payload ∨ xorAll req.message.inner = 0) ∧
    ∀ p, (∀ req : ShellReq, req.payload = p → req.RunsPayload m process s) ↔ 0 ∈ p := by
  refine ⟨fun req => req.runsPayload_iff m process s, fun p => ⟨fun all => ?_, ?_⟩⟩
  · by_contra plain
    have ends : ∀ seq, xorAll (request seq p).message.inner = 0 := by
      intro seq
      have cut := ((request seq p).runsPayload_iff m process s).mp (all _ (request_payload seq p))
      rw [request_payload] at cut
      exact cut.resolve_left plain
    exact request_xor p ((ends 0).trans (ends 1).symm)
  · rintro cut req rfl
    exact (req.runsPayload_iff m process s).mpr (.inl cut)

theorem shell_command_follows_header :
    let m : Blocks := ⟨fun _ => 0, fun _ => 0, some fun _ => 0⟩
    (request 31 [0x69, 0x64]).RunsPayload m none .start ∧
      ¬(request 0 [0x69, 0x64]).RunsPayload m none .start := by
  intro m
  rw [ShellReq.runsPayload_iff, ShellReq.runsPayload_iff, request_payload, request_payload,
    request_inner, request_inner]
  decide

end X300.ScorpionShell
