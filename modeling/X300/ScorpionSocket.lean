import X300.ScorpionRoundTrip

/-! The socket receive path of `scorpion_socket.c`: each `recv()` of the APK client's
stream fills a cleared buffer that goes to the decoder at once. What the decoder does
not consume is dropped with the buffer; the read ring of the socket is never used.
Connecting, and the end of the service, are left out. -/

namespace X300.ScorpionSocket
open CMemory ByteStuffing DelimitedScan ScorpionDecoder ScorpionSegments ScorpionFrames
open ScorpionStacks ScorpionEncoder ScorpionAyalyze ScorpionRoundTrip

def maxTempBuffSize : Nat := 256

/-- A `recv()`, failed or with its bytes, and the memory at that time: `buff` with
what surrounds it, and the blocks that `malloc` then returns. -/
structure Reception where
  result : Option (List UInt8)
  short : ∀ bytes ∈ result, bytes.length ≤ maxTempBuffSize
  buff : Int → UInt8
  heap : Nat → Int → UInt8

def Reception.bytes (r : Reception) : List UInt8 := r.result.getD []

/-- One round of `scorpion_socket_recv_treat`. The result of the decoder is not used. -/
def socketRecv (r : Reception) : Run Call Unit :=
  -- memset(buff, 0, sizeof(buff))
  let buff := (⟨r.buff, maxTempBuffSize, 0⟩ : Ptr).write 0 (List.replicate maxTempBuffSize 0)
  match r.result with
  | none => pure ()
  | some bytes => do
      let _ ← scorpionProtocolAyalyze (succeeding r.heap) (buff.write 0 bytes) bytes.length
      pure ()

def socketRecvTreat : List Reception → Run Call Unit
  | [] => pure ()
  | r :: rs => do
      socketRecv r
      socketRecvTreat rs

def dispatched (rs : List Reception) : List (List UInt8) :=
  (switches (socketRecvTreat rs).calls).map BuffMgr.bytes

theorem socketRecv_switches (r : Reception) :
    switches (socketRecv r).calls = (decodedFrames scorpionCode r.heap 0
      ((frames scorpionCode).scan r.bytes).bodies).filter passes := by
  cases received : r.result with
  | none => simp [socketRecv, Reception.bytes, received, decodedFrames]
  | some bytes =>
      have short := r.short bytes (by simp [received])
      have holds := ((⟨r.buff, maxTempBuffSize, 0⟩ : Ptr).write 0
        (List.replicate maxTempBuffSize 0)).write_holds 0 bytes (by simp) (by simpa using short)
      rw [Ptr.add_zero] at holds
      obtain ⟨_, treats⟩ := protocolAyalyze_spec (P := scorpion) r.heap holds
      simp only [socketRecv, received, Reception.bytes, Run.calls_bind, Run.calls_pure,
        List.append_nil, Option.getD_some]
      exact treats.switches

theorem dispatched_cons (r : Reception) (rs : List Reception) :
    dispatched (r :: rs) = (switches (socketRecv r).calls).map BuffMgr.bytes ++ dispatched rs := by
  simp only [dispatched, socketRecvTreat, Run.calls_bind, switches_append, List.map_append]

theorem socketRecv_sent {r : Reception} {ss : List Sending}
    (received : r.bytes = ss.flatMap (Sending.sent scorpionCode)) :
    (switches (socketRecv r).calls).map BuffMgr.bytes = ss.map (Sending.left scorpionCode) := by
  rw [socketRecv_switches, received, sent_stream, scan_stream_all, left_filled]
  exact decodedFrames_stream scorpionCode _ r.heap 0

theorem dispatched_groups {rs : List Reception} {groups : List (List Sending)}
    (received : rs.map Reception.bytes = groups.map (List.flatMap (Sending.sent scorpionCode))) :
    dispatched rs = groups.flatten.map (Sending.left scorpionCode) := by
  induction rs generalizing groups with
  | nil =>
      obtain rfl : groups = [] := List.map_eq_nil_iff.mp received.symm
      rfl
  | cons r rs ih =>
      obtain ⟨g, groups, rfl, first, later⟩ := List.map_eq_cons_iff.mp received.symm
      rw [dispatched_cons, socketRecv_sent first.symm, ih later.symm, List.flatten_cons,
        List.map_append]

theorem wire_of_decodedFrame {code : Stuffing UInt8} {cell : Int → UInt8} {body : List UInt8}
    {m : Message} (free : code.delim ∉ body)
    (bytes : (decodedFrame code cell body).bytes = m.filled code) :
    (frames code).segment body = m.wire code := by
  have room := m.room
  have size := m.body_length
  cases good : code.unescape body with
  | none =>
      have lengths := congrArg List.length bytes
      rw [BuffMgr.bytes, decodedFrame_failed code cell good, Ptr.bytes_length, Message.filled,
        Framing.segment_length] at lengths
      simp at lengths
  | some d =>
      rw [decodedFrame_bytes code cell good, Message.filled, Framing.segment, Framing.segment,
        List.cons.injEq, List.append_left_inj] at bytes
      rw [Message.wire, ← bytes.2, code.escape_of_unescape good free]

theorem stream_sublist_segments {code : Stuffing UInt8} (heap : Nat → Int → UInt8) {k : Nat}
    {bodies : List (List UInt8)} {ms : List Message} (free : ∀ body ∈ bodies, code.delim ∉ body)
    (decoded : ((decodedFrames code heap k bodies).filter passes).map BuffMgr.bytes =
      ms.map (Message.filled code)) :
    (stream code ms).Sublist (bodies.map (frames code).segment).flatten := by
  induction bodies generalizing k ms with
  | nil =>
      obtain rfl : ms = [] := List.map_eq_nil_iff.mp decoded.symm
      exact List.Sublist.refl _
  | cons body bodies ih =>
      have later := fun b (hb : b ∈ bodies) => free b (List.mem_cons_of_mem _ hb)
      rw [List.map_cons, List.flatten_cons]
      rw [decodedFrames, List.filter_cons] at decoded
      split_ifs at decoded with passed
      · obtain ⟨m, ms, rfl, first, others⟩ := List.map_eq_cons_iff.mp decoded.symm
        rw [wire_of_decodedFrame (free body List.mem_cons_self) first.symm, stream, List.map_cons,
          List.flatten_cons]
        exact (ih later others.symm).append_left _
      · exact (ih later decoded).trans (List.sublist_append_right _ _)

theorem sent_sublist_bytes {r : Reception} {ss : List Sending}
    (decoded : (switches (socketRecv r).calls).map BuffMgr.bytes =
      ss.map (Sending.left scorpionCode)) :
    (ss.flatMap (Sending.sent scorpionCode)).Sublist r.bytes := by
  rw [socketRecv_switches, left_filled] at decoded
  rw [sent_stream]
  exact (stream_sublist_segments r.heap (fun body => Framing.delim_not_mem_of_mem_scan)
    decoded).trans (Framing.scan_sublist r.bytes)

theorem dispatched_split {r : Reception} {rs : List Reception} {ss : List Sending}
    (same : dispatched (r :: rs) = ss.map (Sending.left scorpionCode)) :
    ∃ g ss', ss = g ++ ss' ∧ (g.flatMap (Sending.sent scorpionCode)).Sublist r.bytes ∧
      dispatched rs = ss'.map (Sending.left scorpionCode) := by
  rw [dispatched_cons] at same
  obtain ⟨g, ss', rfl, first, later⟩ := List.map_eq_append_iff.mp same.symm
  exact ⟨g, ss', rfl, sent_sublist_bytes first.symm, later.symm⟩

theorem sent_length_le {rs : List Reception} {ss : List Sending}
    (same : dispatched rs = ss.map (Sending.left scorpionCode)) :
    (ss.flatMap (Sending.sent scorpionCode)).length ≤ (rs.flatMap Reception.bytes).length := by
  induction rs generalizing ss with
  | nil =>
      obtain rfl : ss = [] := List.map_eq_nil_iff.mp same.symm
      exact Nat.le_refl 0
  | cons r rs ih =>
      obtain ⟨g, ss', rfl, first, later⟩ := dispatched_split same
      have bound := first.length_le
      have rest := ih later
      rw [List.flatMap_append, List.flatMap_cons, List.length_append, List.length_append]
      omega

/-- As many bytes as were received: then each round received whole frames only. -/
theorem groups_of_dispatched {rs : List Reception} {ss : List Sending}
    (same : dispatched rs = ss.map (Sending.left scorpionCode))
    (all : (rs.flatMap Reception.bytes).length =
      (ss.flatMap (Sending.sent scorpionCode)).length) :
    ∃ groups : List (List Sending), groups.flatten = ss ∧
      rs.map Reception.bytes = groups.map (List.flatMap (Sending.sent scorpionCode)) := by
  induction rs generalizing ss with
  | nil =>
      obtain rfl : ss = [] := List.map_eq_nil_iff.mp same.symm
      exact ⟨[], rfl, rfl⟩
  | cons r rs ih =>
      obtain ⟨g, ss', rfl, first, later⟩ := dispatched_split same
      have bound := first.length_le
      have rest := sent_length_le later
      rw [List.flatMap_append, List.flatMap_cons, List.length_append, List.length_append] at all
      obtain ⟨groups, joined, received⟩ := ih later (by omega)
      refine ⟨g :: groups, by rw [List.flatten_cons, joined], ?_⟩
      rw [List.map_cons, List.map_cons, received, first.eq_of_length (by omega)]

/-- The receptions of a stream dispatch its messages, no more and no fewer, exactly
when no frame is split between two of them. -/
theorem socket_chunking_iff (ss : List Sending) (rs : List Reception)
    (received : rs.flatMap Reception.bytes = ss.flatMap (Sending.sent scorpionCode)) :
    dispatched rs = ss.map (Sending.left scorpionCode) ↔
      ∃ groups : List (List Sending), groups.flatten = ss ∧
        rs.map Reception.bytes = groups.map (List.flatMap (Sending.sent scorpionCode)) := by
  constructor
  · intro same
    exact groups_of_dispatched same (congrArg List.length received)
  · rintro ⟨groups, rfl, each⟩
    exact dispatched_groups each

def heartBeat : Sending :=
  ⟨⟨[0, 0x02, 0, 0, 0, 0, 0, 0, 0, 0, 0], by decide⟩, fun _ => 0, fun _ => 0⟩

def reception (bytes : List UInt8) (short : bytes.length ≤ maxTempBuffSize) : Reception :=
  ⟨some bytes, by simpa using short, fun _ => 0, fun _ _ => 0⟩

theorem socket_chunking_heartBeat :
    let rs := [reception (heartBeat.sent scorpionCode) (by decide)]
    rs.flatMap Reception.bytes = [heartBeat].flatMap (Sending.sent scorpionCode) ∧
    dispatched rs = [heartBeat].map (Sending.left scorpionCode) := by
  intro rs
  have received : rs.flatMap Reception.bytes =
      [heartBeat].flatMap (Sending.sent scorpionCode) := by decide
  exact ⟨received, (socket_chunking_iff [heartBeat] rs received).mpr ⟨[[heartBeat]], rfl, by decide⟩⟩

theorem heartBeat_lost :
    let rs := [reception [0x7E, 0x02, 0, 0, 0] (by decide),
      reception [0, 0, 0, 0, 0x02, 0x7E] (by decide)]
    let whole := [0x7E, 0x02, 0, 0, 0, 0, 0, 0, 0, 0x02, 0x7E]
    rs.flatMap Reception.bytes = [heartBeat].flatMap (Sending.sent scorpionCode) ∧
    [heartBeat].flatMap (Sending.sent scorpionCode) = whole ∧
    dispatched rs = [] ∧
    (switches (scorpionProtocolAyalyze (succeeding fun _ _ => 0) (.block (fun _ => 0) whole)
      11).calls).map BuffMgr.bytes = [heartBeat].map (Sending.left scorpionCode) := by
  intro rs whole
  refine ⟨by decide, by decide, ?_, by decide⟩
  have front : ((frames scorpionCode).scan [0x7E, 0x02, 0, 0, 0]).bodies = [] := by
    rw [Framing.scan_of_wait (show (frames scorpionCode).cut _ = .wait [] _ from rfl)]
  have back : ((frames scorpionCode).scan [0, 0, 0, 0, 0x02, 0x7E]).bodies = [] := by
    rw [Framing.scan_of_wait (show (frames scorpionCode).cut _ = .wait [0, 0, 0, 0, 0x02] _ from rfl)]
  simp only [rs, dispatched_cons, socketRecv_switches, reception, Reception.bytes,
    Option.getD_some, front, back]
  rfl

end X300.ScorpionSocket
