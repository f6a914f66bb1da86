import X300.ScorpionFrames
import X300.ScorpionStacks

/-! The send side of the two stacks: `stm32_protocol_send_data` and
`scorpion_protocol_send_data`. A message is handed over as a packed buffer; the
function fills in its delimiters and its xor byte and escapes what lies between
the delimiters into a fresh block, whose bytes go to the UART or the socket. -/

namespace X300.ScorpionEncoder
open CMemory ByteStuffing DelimitedScan ScorpionCodec ScorpionDecoder ScorpionSegments
open ScorpionFrames ScorpionStacks

/-- `*_protocol_send_data` up to its `malloc`: the delimiters and the xor byte. -/
def fill (code : Stuffing UInt8) (buf : Ptr) (len : Int) : Run Call Ptr := do
  let buf ← buf.store (len - 1) code.delim
  let buf ← buf.store 0 code.delim
  let val ← xor8Computer (buf.add 1) (toUnsigned (len - 3))
  buf.store (len - 2) val

def stuff (code : Stuffing UInt8) (cell : Int → UInt8) (buf : Ptr) (len : Int) :
    Run Call BuffMgr := do
  let new_buf : Ptr := ⟨cell, len * 2, 0⟩
  let first ← buf.load 0
  let new_buf ← new_buf.store 0 first
  let escaped ← protocolEscape code (new_buf.add 1) (buf.add 1) (len - 2)
  let new_len := escaped.1 + 1
  let last ← buf.load (len - 1)
  let new_buf ← (escaped.2.add (-1)).store new_len last
  let new_len := new_len + 1
  pure ⟨new_buf, new_len⟩

def protocolSendData (code : Stuffing UInt8) (block : Option (Int → UInt8)) (buf : Ptr)
    (len : Int) : Run Call (Int × Ptr) := do
  let buf ← fill code buf len
  match block with
  | none => pure (-1, buf)
  | some cell => do
      let sent ← stuff code cell buf len
      dump true sent
      Run.emit (.send sent.bytes)
      pure (sent.len, buf)

def stm32ProtocolSendData : Option (Int → UInt8) → Ptr → Int → Run Call (Int × Ptr) :=
  protocolSendData stm32Code

def scorpionProtocolSendData : Option (Int → UInt8) → Ptr → Int → Run Call (Int × Ptr) :=
  protocolSendData scorpionCode

def sends (calls : List Call) : List (List UInt8) :=
  calls.filterMap fun | .send wire => some wire | _ => none

/-- A packed message buffer: start byte, header, payload, xor byte, end byte. -/
structure Message where
  bytes : List UInt8
  room : 11 ≤ bytes.length

namespace Message

def inner (m : Message) : List UInt8 := (m.bytes.drop 1).take (m.bytes.length - 3)

def body (m : Message) : List UInt8 := m.inner ++ [xorAll m.inner]

variable (code : Stuffing UInt8)

def filled (m : Message) : List UInt8 := (frames code).segment m.body

def wire (m : Message) : List UInt8 := (frames code).segment (code.escape m.body)

theorem inner_length (m : Message) : m.inner.length = m.bytes.length - 3 := by
  have room := m.room
  simp only [inner, List.length_take, List.length_drop]
  omega

theorem body_length (m : Message) : m.body.length = m.bytes.length - 2 := by
  have room := m.room
  simp only [body, List.length_append, inner_length, List.length_cons, List.length_nil]
  omega

theorem xorAll_body (m : Message) : xorAll m.body = 0 := by
  simp [body]

theorem bytes_shape (m : Message) : ∃ a x y, m.bytes = a :: (m.inner ++ [x, y]) := by
  have room := m.room
  obtain ⟨a, tail, shape⟩ := List.exists_cons_of_ne_nil
    (List.ne_nil_of_length_pos (show 0 < m.bytes.length by omega))
  have last : (tail.drop (m.bytes.length - 3)).length = 2 := by
    rw [List.length_drop]
    simp only [shape, List.length_cons] at room ⊢
    omega
  obtain ⟨x, y, ends⟩ := List.length_eq_two.mp last
  refine ⟨a, x, y, ?_⟩
  rw [inner, ← ends, shape, List.drop_one, List.tail_cons]
  simp

end Message

theorem fill_spec (code : Stuffing UInt8) (m : Message) {buf : Ptr} (h : buf.Holds m.bytes) :
    let run := fill code buf m.bytes.length
    run.value.Holds (m.filled code) ∧ run.calls = [] ∧ run.Safe := by
  have room := m.room
  have size := m.inner_length
  obtain ⟨a, x, y, shape⟩ := m.bytes_shape
  have lastIndex : (m.bytes.length : Int) - 1 = (m.inner.length + 2 : Nat) := by omega
  have checkIndex : (m.bytes.length : Int) - 2 = (m.inner.length + 1 : Nat) := by omega
  have counted : toUnsigned ((m.bytes.length : Int) - 3) = m.inner.length := by
    rw [toUnsigned_of_nonneg] <;> omega
  have closed := h.store (ε := Call) lastIndex code.delim
  have opened := closed.store (ε := Call) (show (0 : Int) = (0 : Nat) from rfl) code.delim
  have between : (m.bytes.set (m.inner.length + 2) code.delim).set 0 code.delim =
      code.delim :: (m.inner ++ [x, code.delim]) := by
    rw [shape]
    simp
  rw [between] at opened
  have xored := xor8Computer_value (ε := Call) opened.tail.left
  have whole := opened.store (ε := Call) checkIndex (xorAll m.inner)
  have result : (code.delim :: (m.inner ++ [x, code.delim])).set (m.inner.length + 1)
      (xorAll m.inner) = m.filled code := by
    simp [Message.filled, Message.body, Framing.segment, frames]
  rw [result] at whole
  have inBounds : (xor8Computer
      (((buf.store (m.bytes.length - 1) code.delim : Run Call Ptr).value.store 0
        code.delim : Run Call Ptr).value.add 1) m.inner.length : Run Call UInt8).Safe := by
    have lower := opened.tail.left.lower
    have upper := opened.tail.left.upper
    rw [xor8Computer, xor8Loop_safe]
    omega
  simp only [fill, Run.value_bind, Run.calls_bind, Run.safe_bind, counted, xored]
  refine ⟨whole, ?_, h.store_safe lastIndex (by omega) _,
    closed.store_safe (show (0 : Int) = (0 : Nat) from rfl) (by simp; omega) _, inBounds,
    opened.store_safe checkIndex (by simp) _⟩
  simp

theorem stuff_spec (code : Stuffing UInt8) (m : Message) {buf : Ptr}
    (h : buf.Holds (m.filled code)) (cell : Int → UInt8) :
    let run := stuff code cell buf m.bytes.length
    run.value.len = (m.wire code).length ∧ run.value.buf.Holds (m.wire code) ∧ run.calls = [] ∧
      run.Safe := by
  have room := m.room
  have size := m.body_length
  have nonempty : m.body ≠ [] := List.ne_nil_of_length_pos (by omega)
  have bound := code.length_escape_le m.body
  have counted : (m.bytes.length : Int) - 2 = m.body.length := by omega
  let new_buf : Ptr := ⟨cell, m.bytes.length * 2, 0⟩
  have first : buf.cell (buf.off + 0) = code.delim := by simpa using h.head.1
  have last : buf.cell (buf.off + (m.bytes.length - 1)) = code.delim := by
    have entry := h.entry (m.body.length + 1) (by simp [Message.filled])
    rw [show ((m.bytes.length : Int) - 1) = (m.body.length + 1 : Nat) by omega, entry]
    simp [Message.filled, Framing.segment, frames]
  have opened : (new_buf.store 0 code.delim : Run Call Ptr).value = new_buf.write 0 [code.delim] :=
    rfl
  have escaped := protocolEscape_value (ε := Call) code h.tail.left nonempty
    ((new_buf.write 0 [code.delim]).add 1)
  have moved : (((new_buf.write 0 [code.delim]).add 1).write 0 (code.escape m.body)).add (-1) =
      new_buf.write 0 (code.delim :: code.escape m.body) := by
    rw [Ptr.add_write, Ptr.add_add]
    exact Ptr.add_zero _
  have whole : ((new_buf.write 0 (code.delim :: code.escape m.body)).store
      ((code.escape m.body).length + 1) code.delim : Run Call Ptr).value =
      new_buf.write 0 (m.wire code) := by
    rw [Message.wire, Framing.segment, ← List.cons_append, Ptr.write_append]
    simp [Ptr.write, frames]
  have built := new_buf.write_holds 0 (m.wire code) (by simp [new_buf])
    (by simp [new_buf, Message.wire]; omega)
  simp only [stuff, Run.value_bind, Run.calls_bind, Run.safe_bind, Ptr.load_value, first, last,
    counted]
  rw [show (⟨cell, m.bytes.length * 2, 0⟩ : Ptr) = new_buf from rfl, opened, escaped]
  simp only [moved, whole]
  refine ⟨?_, by simpa using built, by simp, ?_⟩
  · simp [Message.wire]
    omega
  · have lower := h.lower
    have upper := h.upper
    simp only [Message.filled, Framing.segment_length] at upper
    have stuffed : (protocolEscape code ((new_buf.write 0 [code.delim]).add 1) (buf.add 1)
        m.body.length : Run Call (Int × Ptr)).Safe :=
      protocolEscape_safe code h.tail.left (by simp [new_buf]) (by simp [new_buf]; omega)
    refine ⟨?_, ?_, stuffed, ?_, ?_, Run.safe_pure _⟩ <;>
      simp only [Ptr.load_safe, Ptr.store_safe, Ptr.write_off, Ptr.write_size, new_buf] <;> omega

theorem protocolSendData_spec (code : Stuffing UInt8) (m : Message) {buf : Ptr}
    (h : buf.Holds m.bytes) (cell : Int → UInt8) :
    let run := protocolSendData code (some cell) buf m.bytes.length
    run.value.1 = (m.wire code).length ∧ run.value.2.Holds (m.filled code) ∧
    run.calls = [.send (m.wire code)] ∧ run.Safe := by
  obtain ⟨filled, quiet, safe⟩ := fill_spec code m h
  obtain ⟨len, sent, silent, stuffed⟩ := stuff_spec code m filled cell
  have bytes : (stuff code cell (fill code buf m.bytes.length).value m.bytes.length).value.bytes =
      m.wire code := by
    rw [BuffMgr.bytes, len, sent.bytes_eq]
  have shown : (dump true
      (stuff code cell (fill code buf m.bytes.length).value m.bytes.length).value).Safe :=
    dump_safe _ _ fun _ => ⟨sent.lower, by rw [len]; exact sent.upper⟩
  simp only [protocolSendData, Run.value_bind, Run.calls_bind, Run.safe_bind, quiet, silent, len,
    bytes]
  simp [filled, safe, stuffed, shown]

end X300.ScorpionEncoder
