import X300.ScorpionPayload
import X300.ScorpionRoundTrip

/-! What the decoder makes of a disturbed line: noise in front of a stream of frames,
and a frame one of whose bytes was changed on the way. -/

namespace X300.ScorpionNoise
open CMemory ByteStuffing DelimitedScan ScorpionCodec ScorpionDecoder ScorpionSegments
open ScorpionFrames ScorpionStacks ScorpionEncoder ScorpionAyalyze ScorpionRoundTrip
open ScorpionHandlers ScorpionPayload

section Resync

variable (code : Stuffing UInt8)

theorem stream_cons (m : Message) (ms : List Message) :
    stream code (m :: ms) = code.delim :: (code.escape m.body ++ code.delim :: stream code ms) := by
  simp [stream, Message.wire, Framing.segment]

theorem stream_tail_length (m : Message) (ms : List Message) :
    (frames code).least ≤ (code.escape m.body ++ code.delim :: stream code ms).length + 1 := by
  have fits := (wire_fits code m).2
  simp only [List.length_append, List.length_cons]
  omega

theorem wire_sound (m : Message) : Sound code (code.escape m.body) := by
  have room := m.room
  have size := m.body_length
  exact ⟨m.body, code.unescape_escape _, List.ne_nil_of_length_pos (by omega), fun _ => by omega⟩

theorem scan_noise_even {g : List UInt8} (even : Even (g.count code.delim)) :
    ∃ noise, ∀ m ms, ((frames code).scan (g ++ stream code (m :: ms))).bodies =
      noise ++ (m :: ms).map fun m => code.escape m.body := by
  obtain ⟨noise, scanned⟩ := Framing.scan_even (F := frames code) even
  refine ⟨noise, fun m ms => ?_⟩
  have shape := scanned _ (stream_tail_length code m ms)
  rw [frames_delim, ← stream_cons] at shape
  rw [shape, scan_stream_all]

theorem scan_noise_odd {g : List UInt8} (odd : ¬ Even (g.count code.delim)) (m m' : Message)
    (ms : List Message) :
    [] ∈ ((frames code).scan (g ++ stream code (m :: m' :: ms))).bodies := by
  obtain ⟨noise, scanned⟩ := Framing.scan_odd (F := frames code) odd
  have shape := scanned _ (stream_tail_length code m (m' :: ms))
  rw [frames_delim, ← stream_cons] at shape
  have skip := Framing.scan_skip (wire_fits code m).1 (stream code (m' :: ms))
  have gap : (frames code).scan ([] ++ ((frames code).segment [] ++
      (code.escape m'.body ++ code.delim :: stream code ms))) = _ :=
    Framing.scan_segment (by simp) (by simp) (by
      have := stream_tail_length code m' ms
      simp only [List.length_nil]
      omega)
  have adjacent : (frames code).delim :: stream code (m' :: ms) =
      [] ++ ((frames code).segment [] ++
        (code.escape m'.body ++ code.delim :: stream code ms)) := by
    rw [stream_cons]
    simp [Framing.segment]
  rw [shape]
  rw [frames_delim] at skip adjacent
  rw [skip, adjacent, gap]
  simp

theorem sound_noise_iff (noise : List (List UInt8)) (ms : List Message) :
    (∀ body ∈ noise ++ ms.map fun m => code.escape m.body, Sound code body) ↔
      ∀ body ∈ noise, Sound code body := by
  simp only [List.forall_mem_append, List.forall_mem_map, wire_sound, implies_true, and_true]

end Resync

theorem switches_suffix (P : Protocol) {g : List UInt8} {noise : List (List UInt8)}
    {ms : List Message} (heap : Nat → Int → UInt8) {buf : Ptr}
    (h : buf.Holds (g ++ stream P.code ms))
    (cut : ((frames P.code).scan (g ++ stream P.code ms)).bodies =
      noise ++ ms.map fun m => P.code.escape m.body)
    (sound : ∀ body ∈ noise, Sound P.code body) :
    let run := protocolAyalyze P (succeeding heap) buf (g ++ stream P.code ms).length
    ms.map (Message.filled P.code) <:+ (switches run.calls).map BuffMgr.bytes := by
  obtain ⟨_, treats⟩ := protocolAyalyze_spec (P := P) heap h
  have whole : ∀ body ∈ noise ++ ms.map fun m => P.code.escape m.body,
      ∃ d ∈ P.code.unescape body, d ≠ [] := fun body member =>
    (((sound_noise_iff P.code noise ms).mpr sound) body member).imp fun d hd => ⟨hd.1, hd.2.1⟩
  rw [cut] at treats
  simp only [treats.switches]
  rw [decodedFrames_accepted heap P.code whole, List.filterMap_append, accepted_stream,
    List.map_append, List.map_map]
  exact List.suffix_append _ _

/-- A message long enough for what the handlers of its id read: header, payload, and up to
two bytes of the payload missing, for which they read the xor byte and the end delimiter. -/
def Full (m : Message) : Prop := stm32PayloadSize (msgIdField m.inner) + 6 ≤ m.inner.length

theorem msgIdField_body (m : Message) : msgIdField m.body = msgIdField m.inner := by
  have room := m.room
  have length := m.inner_length
  have entry : ∀ i < 8, m.body.getD i 0 = m.inner.getD i 0 := by
    intro i small
    rw [List.getD_eq_getElem?_getD, List.getD_eq_getElem?_getD, Message.body,
      List.getElem?_append_left (by omega)]
  rw [msgIdField, msgIdField, entry 0 (by decide), entry 1 (by decide)]

theorem reached_wire_iff (m : Message) :
    Reached stm32PayloadSize stm32Code (stm32Code.escape m.body) ↔ Full m := by
  have room := m.room
  have inner := m.inner_length
  have body := m.body_length
  rw [Reached, stm32Code.unescape_escape, Full, ← msgIdField_body]
  simp only [Option.mem_some_iff, forall_eq', m.xorAll_body, true_implies]
  omega

theorem fits_noise_iff (noise : List (List UInt8)) (ms : List Message) :
    (∀ body ∈ noise ++ ms.map fun m => stm32Code.escape m.body,
      Sound stm32Code body ∧ Reached stm32PayloadSize stm32Code body) ↔
    (∀ body ∈ noise, Sound stm32Code body ∧ Reached stm32PayloadSize stm32Code body) ∧
      ∀ m ∈ ms, Full m := by
  simp only [List.forall_mem_append, List.forall_mem_map, wire_sound, true_and, reached_wire_iff]

theorem resync_messages (g : List UInt8) (ms : List Message) (heap : Nat → Int → UInt8)
    (env : Nat → Scratch) (s : Service) {buf : Ptr} (h : buf.Holds (g ++ stream stm32Code ms)) :
    let run := protocolAyalyze stm32 (succeeding heap) buf (g ++ stream stm32Code ms).length
    ((run.Safe ∧ (serve env 0 run.calls s).Safe) ∧
      ms.tail.map (Message.filled stm32Code) <:+ (switches run.calls).map BuffMgr.bytes) ↔
      (ms.length ≤ 1 ∨ Even (g.count stm32Code.delim)) ∧
      (∀ body ∈ ((frames stm32Code).scan (g ++ stream stm32Code (ms.take 1))).bodies,
        Sound stm32Code body ∧ Reached stm32PayloadSize stm32Code body) ∧
      ∀ m ∈ ms.tail, Full m := by
  have safe := served_safe_iff h heap env s
  simp only [safe]
  match ms with
  | [] => simp
  | [m] => simp
  | m :: m' :: ms =>
      by_cases even : Even (g.count stm32Code.delim)
      · obtain ⟨noise, cut⟩ := scan_noise_even stm32Code even
        have dispatched := switches_suffix stm32 heap h (cut m (m' :: ms))
        rw [cut, List.take_one, List.head?_cons, Option.toList_some, cut, fits_noise_iff,
          fits_noise_iff, List.forall_mem_cons, List.forall_mem_singleton, List.tail_cons]
        simp only [even, or_true, true_and, and_assoc]
        refine ⟨fun all => ⟨all.1, all.2.1, all.2.2.1⟩, fun fine => ⟨fine.1, fine.2.1, fine.2.2, ?_⟩⟩
        have sound : ∀ body ∈ noise, Sound stm32Code body := fun body member =>
          (fine.1 body member).1
        exact (List.suffix_cons _ _).trans (dispatched sound)
      · have gap := scan_noise_odd stm32Code even m m' ms
        have empty : ¬ Sound stm32Code [] := by simp [Sound]
        constructor
        · intro both
          exact absurd (both.1 [] gap).1 empty
        · intro cond
          simp [even] at cond

/-- After noise, the decoder and the handlers it calls stay in bounds and all frames but the
first are dispatched exactly when the noise holds an even number of delimiters or one frame
follows at most, everything cut from the noise and the first frame is sound and as long as
its handlers read, and so is every later frame. -/
theorem resync_iff (g : List UInt8) (ss : List Sending) (around : Int → UInt8)
    (heap : Nat → Int → UInt8) (env : Nat → Scratch) (s : Service) :
    let b := g ++ ss.flatMap (Sending.sent stm32Code)
    let run := stm32ProtocolAyalyze (succeeding heap) (.block around b) b.length
    ((run.Safe ∧ (serve env 0 run.calls s).Safe) ∧
      ss.tail.map (Sending.left stm32Code) <:+ (switches run.calls).map BuffMgr.bytes) ↔
      (ss.length ≤ 1 ∨ Even (g.count 0x7E)) ∧
      (∀ body ∈ ((frames stm32Code).scan
        (g ++ (ss.take 1).flatMap (Sending.sent stm32Code))).bodies,
        Sound stm32Code body ∧ Reached stm32PayloadSize stm32Code body) ∧
      ∀ sending ∈ ss.tail, Full sending.message := by
  have resync := resync_messages g (ss.map Sending.message) heap env s
    (Ptr.block_holds around _)
  simp only [sent_stream, left_filled, List.map_take]
  rw [List.length_map, ← List.map_tail, List.forall_mem_map] at resync
  exact resync

def ack : Sending where
  message := ⟨[0, 0x01, 0x80, 0, 0, 0, 0, 0, 0, 0, 0], by decide⟩
  around := fun _ => 0
  cell := fun _ => 0

theorem resync_lost :
    let b := [0x7E] ++ [ack, ack].flatMap (Sending.sent stm32Code)
    let run := stm32ProtocolAyalyze (succeeding fun _ _ => 0) (.block (fun _ => 0) b) b.length
    ¬ (run.Safe ∧
      [ack].map (Sending.left stm32Code) <:+ (switches run.calls).map BuffMgr.bytes) := by
  simp only [sent_stream]
  rintro ⟨safe, -⟩
  have odd : ¬ Even ([0x7E].count stm32Code.delim) := by decide
  have gap := scan_noise_odd stm32Code odd ack.message ack.message []
  have sound := (protocolAyalyze_spec (P := stm32) _ (Ptr.block_holds _ _)).2.safe.mp safe [] gap
  exact absurd sound (by decide)

/-- A segment body that no memory contents make the decoder accept. -/
def Rejected (code : Stuffing UInt8) (body : List UInt8) : Prop :=
  ∃ d ∈ code.unescape body, d ≠ [] ∧ xorAll d ≠ 0

instance (code : Stuffing UInt8) (body : List UInt8) : Decidable (Rejected code body) :=
  inferInstanceAs (Decidable (∃ d ∈ code.unescape body, d ≠ [] ∧ xorAll d ≠ 0))

theorem never_passes_iff (code : Stuffing UInt8) (body : List UInt8) :
    (∀ cell, passes (decodedFrame code cell body) = true → False) ↔ Rejected code body := by
  rw [Rejected]
  cases good : code.unescape body with
  | none =>
      obtain ⟨cell, passed⟩ := passes_failed code good
      simp only [Option.not_mem_none, false_and, exists_false, iff_false]
      exact fun never => never cell passed
  | some d =>
      simp only [Option.mem_some_iff, exists_eq_left']
      by_cases empty : d = []
      · subst empty
        simp only [ne_eq, not_true_eq_false, false_and, iff_false]
        exact fun never => never _ (passes_empty code good)
      · simp only [passes_iff code _ good empty, ne_eq, empty, not_false_eq_true, true_and]
        exact ⟨fun never => never fun _ => 0, fun h _ => h⟩

theorem no_dispatch_iff (P : Protocol) (xs : List UInt8) (around : Int → UInt8) :
    (∀ malloc, switches
        (protocolAyalyze P malloc (.block around xs) xs.length).calls = []) ↔
      ∀ body ∈ ((frames P.code).scan xs).bodies, Rejected P.code body := by
  have none := switches_forall_iff P xs around fun _ => False
  simp only [List.eq_nil_iff_forall_not_mem]
  exact none.trans (forall₂_congr fun body _ => never_passes_iff P.code body)

theorem xorAll_exchange {before mid after : List UInt8} (mid' : List UInt8)
    (h : xorAll (before ++ (mid ++ after)) = 0) :
    xorAll (before ++ (mid' ++ after)) = 0 ↔ xorAll mid = xorAll mid' := by
  simp only [xorAll_append] at h ⊢
  have outer : xorAll before ^^^ xorAll after = xorAll mid := by
    rw [← UInt8.xor_eq_zero_iff, ← h]
    ac_rfl
  rw [← outer, ← UInt8.xor_eq_zero_iff (a := _ ^^^ xorAll after)]
  have regroup : xorAll before ^^^ xorAll after ^^^ xorAll mid' =
      xorAll before ^^^ (xorAll mid' ^^^ xorAll after) := by ac_rfl
  rw [regroup]

theorem rejected_exchange (code : Stuffing UInt8) {before after changed : List UInt8}
    (mid mid' : List UInt8) (h : xorAll (before ++ (mid ++ after)) = 0)
    (decoded : code.unescape changed = some (mid' ++ after)) (some_bytes : mid' ≠ []) :
    Rejected code (code.escape before ++ changed) ↔ xorAll mid ≠ xorAll mid' := by
  have exchanged := not_congr (xorAll_exchange mid' h)
  rw [Rejected, code.unescape_escape_append, decoded, ne_eq, ← exchanged]
  simp [some_bytes]

theorem xor_eq_iff (x y z : UInt8) : x ^^^ y = z ↔ x = z ^^^ y := by
  constructor
  · rintro rfl
    rw [UInt8.xor_assoc, UInt8.xor_self, UInt8.xor_zero]
  · rintro rfl
    rw [UInt8.xor_assoc, UInt8.xor_self, UInt8.xor_zero]

theorem not_rejected_of_unescape {code : Stuffing UInt8} {body : List UInt8}
    (bad : code.unescape body = none) : ¬ Rejected code body := by
  simp [Rejected, bad]

structure Corruption (s : Sending) where
  pre : List UInt8
  x : UInt8
  post : List UInt8
  v : UInt8
  split : s.sent stm32Code = 0x7E :: (pre ++ x :: post ++ [0x7E])
  differs : v ≠ x

namespace Corruption

variable {s : Sending} (c : Corruption s)

def received : List UInt8 := 0x7E :: (c.pre ++ c.v :: c.post ++ [0x7E])

/-- The changes that the xor check sees. On the second byte of an escape pair it must
be the other code. A new delimiter cuts the frame, so what it leaves in front must
fail the check. The first byte of a pair must not become `7C`, which together with
the code behind it leaves the xor as it was. A new escape character must find a code
behind it, and must not replace `7C` for the same reason. -/
def Detected : Prop :=
  if stm32Code.unescape c.pre = none then c.v = 0x01 ∨ c.v = 0x02
  else if c.v = 0x7E then Rejected stm32Code c.pre
  else if c.x = 0x7D then c.v ≠ 0x7C
  else if c.v = 0x7D then (c.post.head? = some 0x01 ∨ c.post.head? = some 0x02) ∧ c.x ≠ 0x7C
  else True

theorem escaped : stm32Code.escape s.message.body = c.pre ++ c.x :: c.post := by
  have wire := c.split
  rw [Sending.sent_eq, Message.wire, Framing.segment, List.cons.injEq] at wire
  exact List.append_cancel_right wire.2

theorem free : 0x7E ∉ c.pre ∧ 0x7E ∉ c.post := by
  have free := stm32Code.delim_not_mem_escape s.message.body
  rw [c.escaped, List.mem_append, List.mem_cons, not_or, not_or] at free
  exact ⟨free.1, free.2.2⟩

theorem length : 9 ≤ c.pre.length + c.post.length + 1 := by
  have fits := (wire_fits stm32Code s.message).2
  rw [c.escaped] at fits
  simp only [frames_least, List.length_append, List.length_cons] at fits
  omega

theorem scan_cut (cut : c.v = 0x7E) : ((frames stm32Code).scan c.received).bodies = [c.pre] := by
  have long := c.length
  have shape : c.received = [] ++ ((frames stm32Code).segment c.pre ++ (c.post ++ [0x7E])) := by
    rw [received, cut, Framing.segment_append]
    simp [stm32Code]
  have rest : (frames stm32Code).scan (c.post ++ (frames stm32Code).delim :: []) =
      ⟨[], [(frames stm32Code).delim]⟩ := Framing.scan_open c.free.2 (.inl (by simp))
  rw [shape, Framing.scan_segment (by simp) c.free.1 (by simp; omega)]
  exact congrArg (fun r : Scan UInt8 => c.pre :: r.bodies) rest

theorem scan_changed (other : c.v ≠ 0x7E) :
    ((frames stm32Code).scan c.received).bodies = [c.pre ++ c.v :: c.post] := by
  have long := c.length
  have shape : c.received = [] ++ ((frames stm32Code).segment (c.pre ++ c.v :: c.post) ++ []) := by
    simp [received, Framing.segment, stm32Code]
  have free : (frames stm32Code).delim ∉ c.pre ++ c.v :: c.post := by
    rw [List.mem_append, List.mem_cons, not_or, not_or]
    exact ⟨c.free.1, Ne.symm other, c.free.2⟩
  rw [shape, Framing.scan_segment (by simp) free (by simp; omega), Framing.scan_nil]

/-- A new escape character that finds a code behind it: the two bytes are read as
one, and the xor is as before where the replaced byte was `7C`. -/
theorem rejected_paired {before after tail : List UInt8} {code e : UInt8}
    (body : s.message.body = before ++ c.x :: after) (post : c.post = stm32Code.escape after)
    (shape : c.post = code :: tail) (plain : code ≠ stm32Code.esc)
    (paired : ∀ ys, stm32Code.unescape (stm32Code.esc :: code :: ys) =
      (stm32Code.unescape ys).map (e :: ·)) (sum : e = 0x7C ^^^ code) :
    Rejected stm32Code (stm32Code.escape before ++ stm32Code.esc :: c.post) ↔ c.x ≠ 0x7C := by
  have zero := s.message.xorAll_body
  have whole := stm32Code.unescape_escape after
  rw [← post, shape, stm32Code.unescape_plain plain, Option.map_eq_some_iff] at whole
  obtain ⟨more, good, rfl⟩ := whole
  rw [body] at zero
  have decoded : stm32Code.unescape (stm32Code.esc :: c.post) = some ([e] ++ more) := by
    rw [shape, paired, good]
    rfl
  rw [rejected_exchange stm32Code [c.x, code] [e] zero decoded (by simp)]
  have cancel := xor_eq_iff c.x code (0x7C ^^^ code)
  rw [UInt8.xor_assoc, UInt8.xor_self, UInt8.xor_zero] at cancel
  simp [sum, cancel]

theorem rejected_plain {before after : List UInt8}
    (body : s.message.body = before ++ c.x :: after) (pre : c.pre = stm32Code.escape before)
    (post : c.post = stm32Code.escape after) :
    Rejected stm32Code (c.pre ++ c.v :: c.post) ↔
      (c.v = 0x7D → (c.post.head? = some 0x01 ∨ c.post.head? = some 0x02) ∧ c.x ≠ 0x7C) := by
  by_cases esc : c.v = stm32Code.esc
  · have escaped : stm32Code.esc = 0x7D := rfl
    rw [pre, esc]
    simp only [escaped, forall_const]
    rw [← escaped]
    match shape : c.post with
    | [] =>
        have bad : stm32Code.unescape (stm32Code.escape before ++ [stm32Code.esc]) = none := by
          rw [stm32Code.unescape_escape_append]
          rfl
        simp [not_rejected_of_unescape bad]
    | code :: tail =>
        by_cases one : code = stm32Code.escCode
        · subst one
          rw [← shape, c.rejected_paired body post shape (by decide)
            stm32Code.unescape_escCode (by decide), shape]
          simp [stm32Code]
        · by_cases two : code = stm32Code.delimCode
          · subst two
            rw [← shape, c.rejected_paired body post shape (by decide)
              stm32Code.unescape_delimCode (by decide), shape]
            simp [stm32Code]
          · have bad : stm32Code.unescape
                (stm32Code.escape before ++ stm32Code.esc :: code :: tail) = none := by
              rw [stm32Code.unescape_escape_append, stm32Code.unescape_badCode one two,
                Option.map_none]
            have neither : code ≠ 0x01 ∧ code ≠ 0x02 := ⟨one, two⟩
            simp [not_rejected_of_unescape bad, neither]
  · have zero := s.message.xorAll_body
    rw [body] at zero
    have decoded : stm32Code.unescape (c.v :: c.post) = some ([c.v] ++ after) := by
      rw [stm32Code.unescape_plain esc, post, stm32Code.unescape_escape]
      rfl
    rw [pre, rejected_exchange stm32Code [c.x] [c.v] zero decoded (by simp)]
    have other : c.v ≠ 0x7D := esc
    simp [other, Ne.symm c.differs]

theorem rejected_first {before after : List UInt8} {b code : UInt8}
    (body : s.message.body = before ++ b :: after)
    (pair : stm32Code.escapeOne b = [c.x, code]) (pre : c.pre = stm32Code.escape before)
    (post : c.post = code :: stm32Code.escape after) :
    Rejected stm32Code (c.pre ++ c.v :: c.post) ↔ c.v ≠ 0x7C := by
  have zero := s.message.xorAll_body
  rw [body] at zero
  obtain ⟨first, which⟩ := stm32Code.escapeOne_eq_pair pair
  have plain : c.v ≠ stm32Code.esc := first ▸ c.differs
  have codePlain : code ≠ stm32Code.esc := by
    rcases which with ⟨-, rfl⟩ | ⟨-, rfl⟩ <;> decide
  have sum : b = 0x7C ^^^ code := by
    rcases which with ⟨rfl, rfl⟩ | ⟨rfl, rfl⟩ <;> decide
  have decoded : stm32Code.unescape (c.v :: c.post) = some ([c.v, code] ++ after) := by
    rw [stm32Code.unescape_plain plain, post, stm32Code.unescape_plain codePlain,
      stm32Code.unescape_escape]
    rfl
  rw [pre, rejected_exchange stm32Code [b] [c.v, code] zero decoded (by simp), sum]
  have cancel := xor_eq_iff c.v code (0x7C ^^^ code)
  rw [UInt8.xor_assoc, UInt8.xor_self, UInt8.xor_zero] at cancel
  simp [eq_comm (a := (0x7C ^^^ code : UInt8)), cancel]

theorem rejected_recoded {before after : List UInt8} {b e code : UInt8}
    (body : s.message.body = before ++ b :: after)
    (paired : ∀ ys, stm32Code.unescape (stm32Code.esc :: code :: ys) =
      (stm32Code.unescape ys).map (e :: ·)) :
    Rejected stm32Code
      (stm32Code.escape before ++ (stm32Code.esc :: code :: stm32Code.escape after)) ↔ b ≠ e := by
  have zero := s.message.xorAll_body
  rw [body] at zero
  have decoded : stm32Code.unescape (stm32Code.esc :: code :: stm32Code.escape after) =
      some ([e] ++ after) := by
    rw [paired, stm32Code.unescape_escape]
    rfl
  rw [rejected_exchange stm32Code [b] [e] zero decoded (by simp)]
  simp

theorem rejected_second {before after : List UInt8} {b first : UInt8}
    (body : s.message.body = before ++ b :: after)
    (pair : stm32Code.escapeOne b = [first, c.x])
    (pre : c.pre = stm32Code.escape before ++ [first])
    (post : c.post = stm32Code.escape after) :
    Rejected stm32Code (c.pre ++ c.v :: c.post) ↔ c.v = 0x01 ∨ c.v = 0x02 := by
  obtain ⟨rfl, which⟩ := stm32Code.escapeOne_eq_pair pair
  have shape : c.pre ++ c.v :: c.post =
      stm32Code.escape before ++ (stm32Code.esc :: c.v :: stm32Code.escape after) := by
    rw [pre, post]
    simp
  have differs := c.differs
  rw [shape]
  by_cases one : c.v = stm32Code.escCode
  · have other : b = stm32Code.delim := by
      rcases which with ⟨-, same⟩ | ⟨delim, -⟩
      · exact absurd (one.trans same.symm) differs
      · exact delim
    rw [one, rejected_recoded body stm32Code.unescape_escCode, other]
    decide
  · by_cases two : c.v = stm32Code.delimCode
    · have other : b = stm32Code.esc := by
        rcases which with ⟨esc, -⟩ | ⟨-, same⟩
        · exact esc
        · exact absurd (two.trans same.symm) differs
      rw [two, rejected_recoded body stm32Code.unescape_delimCode, other]
      decide
    · have bad : stm32Code.unescape (stm32Code.escape before ++
          (stm32Code.esc :: c.v :: stm32Code.escape after)) = none := by
        rw [stm32Code.unescape_escape_append, stm32Code.unescape_badCode one two, Option.map_none]
      have neither : ¬ (c.v = 0x01 ∨ c.v = 0x02) := not_or.mpr ⟨one, two⟩
      simp [not_rejected_of_unescape bad, neither]

theorem rejected_iff (other : c.v ≠ 0x7E) :
    Rejected stm32Code (c.pre ++ c.v :: c.post) ↔ c.Detected := by
  obtain ⟨before, b, after, body, shape⟩ := stm32Code.escape_split c.escaped
  rcases shape with ⟨one, pre, post⟩ | ⟨code, pair, pre, post⟩ | ⟨first, pair, pre, post⟩
  · obtain ⟨rfl, plain, -⟩ := stm32Code.escapeOne_eq_single one
    have whole : stm32Code.unescape c.pre ≠ none := by
      rw [pre, stm32Code.unescape_escape]
      simp
    have single : c.x ≠ 0x7D := plain
    rw [c.rejected_plain body pre post, Detected, if_neg whole, if_neg other, if_neg single]
    by_cases esc : c.v = 0x7D
    · simp [esc]
    · simp [esc]
  · have whole : stm32Code.unescape c.pre ≠ none := by
      rw [pre, stm32Code.unescape_escape]
      simp
    have escape : c.x = 0x7D := (stm32Code.escapeOne_eq_pair pair).1
    rw [c.rejected_first body pair pre post, Detected, if_neg whole, if_neg other, if_pos escape]
  · have halved : stm32Code.unescape c.pre = none := by
      rw [pre, (stm32Code.escapeOne_eq_pair pair).1, stm32Code.unescape_escape_append]
      rfl
    rw [c.rejected_second body pair pre post, Detected, if_pos halved]

end Corruption

/-- No memory contents make the decoder dispatch anything from the changed frame
exactly when the change is one of those the xor check sees. -/
theorem corruption_detected_iff (s : Sending) (c : Corruption s) (around : Int → UInt8) :
    (∀ malloc, switches (stm32ProtocolAyalyze malloc (.block around c.received)
        c.received.length).calls = []) ↔ c.Detected := by
  apply (no_dispatch_iff stm32 c.received around).trans
  by_cases cut : c.v = 0x7E
  · have bodies : ((frames stm32.code).scan c.received).bodies = [c.pre] := c.scan_cut cut
    rw [bodies, List.forall_mem_singleton, Corruption.Detected, cut]
    by_cases halved : stm32Code.unescape c.pre = none
    · rw [if_pos halved]
      simp only [not_rejected_of_unescape (show stm32.code.unescape c.pre = none from halved)]
      decide
    · rw [if_neg halved, if_pos rfl]
      rfl
  · have bodies : ((frames stm32.code).scan c.received).bodies = [c.pre ++ c.v :: c.post] :=
      c.scan_changed cut
    rw [bodies, List.forall_mem_singleton]
    exact c.rejected_iff cut

def changedAck : Corruption
    ⟨⟨[0, 0x01, 0x80, 0x01, 0, 0, 0, 0, 0, 0x7D, 0, 0], by decide⟩, fun _ => 0, fun _ => 0⟩ where
  pre := [0x01, 0x80, 0x01, 0, 0, 0, 0, 0]
  x := 0x7D
  post := [0x01, 0xFD]
  v := 0x7C
  split := by decide
  differs := by decide

theorem changedAck_dispatched :
    (switches (stm32ProtocolAyalyze (succeeding fun _ _ => 0) (.block (fun _ => 0)
      changedAck.received) changedAck.received.length).calls).map BuffMgr.bytes =
      [[0x7E, 0x01, 0x80, 0x01, 0, 0, 0, 0, 0, 0x7C, 0x01, 0xFD, 0x7E]] := by
  decide

end X300.ScorpionNoise
