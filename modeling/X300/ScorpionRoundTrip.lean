import X300.ScorpionAyalyze
import X300.ScorpionEncoder

/-! Whole streams of frames through the codec: what `*_protocol_send_data` puts on
the wire for a list of messages is decoded, by one call of `*_protocol_ayalyze`, to
exactly these messages. -/

namespace X300.ScorpionRoundTrip
open CMemory ByteStuffing DelimitedScan ScorpionCodec ScorpionDecoder ScorpionSegments
open ScorpionFrames ScorpionStacks ScorpionEncoder ScorpionAyalyze

/-- A call of `*_protocol_send_data`: the message, the bytes around its buffer, and
the block that `malloc` returns. -/
structure Sending where
  message : Message
  around : Int → UInt8
  cell : Int → UInt8

namespace Sending

variable (code : Stuffing UInt8)

def run (s : Sending) : Run Call (Int × Ptr) :=
  protocolSendData code (some s.cell) (.block s.around s.message.bytes) s.message.bytes.length

def sent (s : Sending) : List UInt8 := (sends (s.run code).calls).flatten

def left (s : Sending) : List UInt8 := (s.run code).value.2.bytes s.message.bytes.length

theorem sent_eq (s : Sending) : s.sent code = s.message.wire code := by
  obtain ⟨_, _, calls, _⟩ := protocolSendData_spec code s.message
    (Ptr.block_holds s.around s.message.bytes) s.cell
  rw [sent, run, calls]
  simp [sends]

theorem left_eq (s : Sending) : s.left code = s.message.filled code := by
  obtain ⟨_, filled, _, _⟩ := protocolSendData_spec code s.message
    (Ptr.block_holds s.around s.message.bytes) s.cell
  have size : (s.message.filled code).length = s.message.bytes.length := by
    have := s.message.room
    simp only [Message.filled, Framing.segment_length, Message.body_length]
    omega
  have bytes := filled.bytes_eq
  rw [size] at bytes
  exact bytes

end Sending

section Streams

variable (code : Stuffing UInt8) (ms : List Message)

def stream : List UInt8 := (ms.map (Message.wire code)).flatten

theorem stream_eq_segments :
    stream code ms = ((ms.map fun m => code.escape m.body).map (frames code).segment).flatten := by
  rw [stream, List.map_map]
  rfl

theorem wire_fits (m : Message) : (frames code).delim ∉ code.escape m.body ∧
    (frames code).least ≤ (code.escape m.body).length + 2 := by
  have room := m.room
  have size := m.body_length
  have bound := code.length_le_escape m.body
  exact ⟨code.delim_not_mem_escape _, by rw [frames_least]; omega⟩

theorem scan_stream (tail : List UInt8) :
    (frames code).scan (stream code ms ++ tail) =
      ⟨(ms.map fun m => code.escape m.body) ++ ((frames code).scan tail).bodies,
        ((frames code).scan tail).rest⟩ := by
  rw [stream_eq_segments]
  apply Framing.scan_segments
  intro body member
  obtain ⟨m, _, rfl⟩ := List.mem_map.mp member
  exact wire_fits code m

theorem wire_whole (m : Message) : ∃ d ∈ code.unescape (code.escape m.body), d ≠ [] := by
  have room := m.room
  have size := m.body_length
  exact ⟨m.body, code.unescape_escape _, List.ne_nil_of_length_pos (by omega)⟩

theorem accepted_wire (m : Message) : accepted code (code.escape m.body) = some m.body := by
  rw [accepted_of_unescape (code.unescape_escape _), if_pos m.xorAll_body]

theorem accepted_stream :
    (ms.map fun m => code.escape m.body).filterMap (accepted code) = ms.map Message.body := by
  rw [List.filterMap_map]
  have each : accepted code ∘ (fun m : Message => code.escape m.body) =
      fun m => some (Message.body m) := by
    funext m
    exact accepted_wire code m
  rw [each, List.filterMap_eq_map']

theorem scan_stream_all :
    (frames code).scan (stream code ms) = ⟨ms.map fun m => code.escape m.body, []⟩ := by
  have scanned := scan_stream code ms []
  rw [List.append_nil, Framing.scan_nil, List.append_nil] at scanned
  exact scanned

theorem decodedFrames_stream (heap : Nat → Int → UInt8) (k : Nat) :
    ((decodedFrames code heap k (ms.map fun m => code.escape m.body)).filter passes).map
      BuffMgr.bytes = ms.map (Message.filled code) := by
  have whole : ∀ body ∈ ms.map fun m => code.escape m.body,
      ∃ d ∈ code.unescape body, d ≠ [] := by
    intro body member
    obtain ⟨m, _, rfl⟩ := List.mem_map.mp member
    exact wire_whole code m
  rw [decodedFrames_accepted heap code whole, accepted_stream, List.map_map]
  rfl

end Streams

theorem sent_stream (code : Stuffing UInt8) (ss : List Sending) :
    ss.flatMap (Sending.sent code) = stream code (ss.map Sending.message) := by
  rw [List.flatMap_def, stream, List.map_map]
  exact congrArg List.flatten (List.map_congr_left fun s _ => s.sent_eq code)

theorem left_filled (code : Stuffing UInt8) (ss : List Sending) :
    ss.map (Sending.left code) = (ss.map Sending.message).map (Message.filled code) := by
  rw [List.map_map]
  exact List.map_congr_left fun s _ => s.left_eq code

theorem ayalyze_stream (P : Protocol) (ms : List Message) (heap : Nat → Int → UInt8)
    {buf : Ptr} (h : buf.Holds (stream P.code ms)) :
    let run := protocolAyalyze P (succeeding heap) buf (stream P.code ms).length
    (parses run.calls).map BuffMgr.bytes = ms.map (Message.filled P.code) ∧
      run.value = (stream P.code ms).length := by
  obtain ⟨value, treats⟩ := protocolAyalyze_spec (P := P) heap h
  rw [scan_stream_all] at value treats
  refine ⟨?_, ?_⟩
  · rw [treats.parses]
    exact decodedFrames_stream P.code ms heap 0
  · simpa using value

/-- Every list of messages arrives: as many frames are parsed, in order, each with
the bytes of its message as sending left them, and the stream is consumed. -/
theorem stm32_roundTrip (ss : List Sending) (heap : Nat → Int → UInt8) (around : Int → UInt8) :
    let w := ss.flatMap (Sending.sent stm32Code)
    let run := stm32ProtocolAyalyze (succeeding heap) (.block around w) w.length
    (parses run.calls).map BuffMgr.bytes = ss.map (Sending.left stm32Code) ∧
      run.value = w.length := by
  simp only [sent_stream, left_filled]
  exact ayalyze_stream stm32 (ss.map Sending.message) heap (Ptr.block_holds around _)

end X300.ScorpionRoundTrip
