import X300.CMemory
import X300.RingView

/-! The circular buffer of `scorpion_cb.c`. Each operation but `cb_read_move_offset`
first tests, without the lock, whether the buffer is full or empty; the locked part
of an operation is the definition whose name ends in `Locked`. Signed and unsigned
32-bit arithmetic is explicit wherever the source mixes the two. -/

namespace X300.CircleBuffer
open CMemory RingView

variable {ε : Type}

/-- The mutex is left out: a locked part is one step. -/
structure CircleBufferMngr where
  bufptr : Ptr
  buflen : Int
  datalen : Int
  readpos : Int
  writepos : Int

def cbFull (pmngr : CircleBufferMngr) : Bool := pmngr.buflen = pmngr.datalen

def cbEmpty (pmngr : CircleBufferMngr) : Bool := 0 = pmngr.datalen

/-- The result, and `*ppmngr` after the call. The blocks are assumed to be had. -/
def cbInit (ppmngr : Option CircleBufferMngr) (buflen : Int) : Bool × Option CircleBufferMngr :=
  if ppmngr.isSome then (false, ppmngr)
  else if buflen = 0 then (false, none)
  else (true, some ⟨⟨fun _ => 0, buflen, 0⟩, s32 buflen, 0, 0, 0⟩)

def cbDatalen (pmngr : CircleBufferMngr) : Int := pmngr.datalen

def cbFreelen (pmngr : CircleBufferMngr) : Int := pmngr.buflen - pmngr.datalen

def copyOut (pmngr : CircleBufferMngr) (outbuf : Option Ptr) (readlen tmplen : Int) :
    Run ε (Option Ptr) :=
  match outbuf with
  | none => pure none
  | some outbuf =>
      if readlen ≤ tmplen then do
        let outbuf ← outbuf.memcpy (pmngr.bufptr.add pmngr.readpos) readlen
        pure (some outbuf)
      else do
        let outbuf ← outbuf.memcpy (pmngr.bufptr.add pmngr.readpos) tmplen
        let outbuf ← (outbuf.add tmplen).memcpy pmngr.bufptr (u32 (readlen - tmplen))
        pure (some (outbuf.add (-tmplen)))

/-- The length `cb_read` and `cb_read_no_offset` read, an unsigned value. -/
def readLength (pmngr : CircleBufferMngr) (buflen : Int) : Int :=
  u32 (if buflen > pmngr.datalen then pmngr.datalen else buflen)

def cbReadLocked (pmngr : CircleBufferMngr) (outbuf : Option Ptr) (buflen : Int) :
    Run ε (Int × Option Ptr × CircleBufferMngr) := do
  let readlen := readLength pmngr buflen
  let tmplen := u32 (pmngr.buflen - pmngr.readpos)
  let outbuf ← copyOut pmngr outbuf readlen tmplen
  pure (s32 readlen, outbuf,
    { pmngr with
      readpos := u32 (pmngr.readpos + readlen) % u32 pmngr.buflen
      datalen := s32 (pmngr.datalen - readlen) })

def cbRead (pmngr : CircleBufferMngr) (outbuf : Option Ptr) (buflen : Int) :
    Run ε (Int × Option Ptr × CircleBufferMngr) :=
  if cbEmpty pmngr then pure (0, outbuf, pmngr) else cbReadLocked pmngr outbuf buflen

def cbReadNoOffsetLocked (pmngr : CircleBufferMngr) (outbuf : Option Ptr) (buflen : Int) :
    Run ε (Int × Option Ptr) := do
  let readlen := readLength pmngr buflen
  let tmplen := u32 (pmngr.buflen - pmngr.readpos)
  let outbuf ← copyOut pmngr outbuf readlen tmplen
  pure (s32 readlen, outbuf)

def cbReadNoOffset (pmngr : CircleBufferMngr) (outbuf : Option Ptr) (buflen : Int) :
    Run ε (Int × Option Ptr) :=
  if cbEmpty pmngr then pure (0, outbuf) else cbReadNoOffsetLocked pmngr outbuf buflen

def cbReadMoveOffset (pmngr : CircleBufferMngr) (offset : Int) : CircleBufferMngr :=
  let len := cbDatalen pmngr
  if len ≤ offset then { pmngr with readpos := pmngr.writepos, datalen := 0 }
  else
    { pmngr with
      readpos := u32 (pmngr.readpos + offset) % u32 pmngr.buflen
      datalen := s32 (pmngr.datalen - offset) }

def copyIn (pmngr : CircleBufferMngr) (datptr : Ptr) (writelen : Int) : Run ε Ptr :=
  if pmngr.writepos < pmngr.readpos then do
    let ring ← (pmngr.bufptr.add pmngr.writepos).memcpy datptr (u32 writelen)
    pure (ring.add (-pmngr.writepos))
  else
    let tmplen := s32 (pmngr.buflen - pmngr.writepos)
    if writelen ≤ tmplen then do
      let ring ← (pmngr.bufptr.add pmngr.writepos).memcpy datptr (u32 writelen)
      pure (ring.add (-pmngr.writepos))
    else do
      let ring ← (pmngr.bufptr.add pmngr.writepos).memcpy datptr (u32 tmplen)
      (ring.add (-pmngr.writepos)).memcpy (datptr.add tmplen) (u32 (writelen - tmplen))

def cbWriteLocked (pmngr : CircleBufferMngr) (datptr : Ptr) (datlen : Int) :
    Run ε (Int × CircleBufferMngr) := do
  let tmplen := s32 (pmngr.buflen - pmngr.datalen)
  let writelen := if tmplen > datlen then datlen else tmplen
  let ring ← copyIn pmngr datptr writelen
  pure (writelen,
    { pmngr with
      bufptr := ring
      writepos := u32 (pmngr.writepos + writelen) % u32 pmngr.buflen
      datalen := s32 (pmngr.datalen + writelen) })

def cbWrite (pmngr : CircleBufferMngr) (datptr : Ptr) (datlen : Int) :
    Run ε (Int × CircleBufferMngr) :=
  if cbFull pmngr then pure (0, pmngr) else cbWriteLocked pmngr datptr datlen

theorem copyOut_calls (pmngr : CircleBufferMngr) (outbuf : Option Ptr) (readlen tmplen : Int) :
    (copyOut pmngr outbuf readlen tmplen : Run ε (Option Ptr)).calls = [] := by
  cases outbuf with
  | none => rfl
  | some out => simp [copyOut]

@[simp] theorem cbReadNoOffset_calls (pmngr : CircleBufferMngr) (outbuf : Option Ptr)
    (buflen : Int) : (cbReadNoOffset pmngr outbuf buflen : Run ε (Int × Option Ptr)).calls = [] := by
  simp [cbReadNoOffset, cbReadNoOffsetLocked, copyOut_calls]

@[simp] theorem cbWrite_calls (pmngr : CircleBufferMngr) (datptr : Ptr) (datlen : Int) :
    (cbWrite pmngr datptr datlen : Run ε (Int × CircleBufferMngr)).calls = [] := by
  simp [cbWrite, cbWriteLocked, copyIn]

/-- The invariant of a buffer of `n` bytes. -/
structure WellFormed (n : Int) (pmngr : CircleBufferMngr) : Prop where
  pos : 0 < n
  small : n < 2 ^ 31
  size : pmngr.bufptr.size = n
  off : pmngr.bufptr.off = 0
  buflen : pmngr.buflen = n
  readpos_nonneg : 0 ≤ pmngr.readpos
  readpos_lt : pmngr.readpos < n
  writepos_nonneg : 0 ≤ pmngr.writepos
  writepos_lt : pmngr.writepos < n
  datalen_nonneg : 0 ≤ pmngr.datalen
  datalen_le : pmngr.datalen ≤ n
  writepos_eq : pmngr.writepos = (pmngr.readpos + pmngr.datalen) % n

/-- The queued bytes: `datalen` of them from `readpos` on, wrapping. -/
def queue (pmngr : CircleBufferMngr) : List UInt8 :=
  view pmngr.bufptr.cell pmngr.buflen pmngr.readpos pmngr.datalen.toNat

theorem cbInit_wellFormed {n : Int} (pos : 0 < n) (small : n < 2 ^ 31) :
    ∃ pmngr, cbInit none n = (true, some pmngr) ∧ WellFormed n pmngr ∧ queue pmngr = [] := by
  refine ⟨⟨⟨fun _ => 0, n, 0⟩, s32 n, 0, 0, 0⟩, ?_, ?_, rfl⟩
  · simp [cbInit, show n ≠ 0 by omega]
  · have buflen : s32 n = n := s32_eq (by omega) small
    exact ⟨pos, small, rfl, rfl, buflen, by simp, pos, by simp, pos, by simp, by simp; omega,
      by simp⟩

section Reading

variable {n : Int} {pmngr : CircleBufferMngr} (wf : WellFormed n pmngr)
include wf

theorem queue_length : ((queue pmngr).length : Int) = pmngr.datalen := by
  have := wf.datalen_nonneg
  simp only [queue, view_length]
  omega

theorem readLength_eq {k : Nat} (small : k < 2 ^ 31) :
    readLength pmngr k = (min k (queue pmngr).length : Nat) := by
  have := wf.datalen_nonneg
  have := wf.datalen_le
  have := wf.small
  have := queue_length wf
  unfold readLength
  split_ifs <;> rw [u32_eq (by omega) (by omega)] <;> omega

theorem row_holds {start : Int} {len : Nat} (lower : 0 ≤ start) (upper : start + len ≤ n) :
    (pmngr.bufptr.add start).Holds (row pmngr.bufptr.cell start len) where
  lower := by rw [Ptr.add_off, wf.off]; omega
  upper := by
    rw [Ptr.add_off, Ptr.add_size, wf.off, wf.size]
    simp only [row, List.length_map, List.length_range]
    omega
  entry i hi := by simp [row, wf.off]

theorem copyOut_some {len : Nat} (le : (len : Int) ≤ pmngr.datalen) {out : Ptr}
    (lower : 0 ≤ out.off) (upper : out.off + len ≤ out.size) :
    let run := (copyOut pmngr (some out) len (u32 (pmngr.buflen - pmngr.readpos)) :
      Run ε (Option Ptr))
    run.value = some (out.write 0 ((queue pmngr).take len)) ∧ run.Safe := by
  have := wf.small
  have hr := wf.readpos_nonneg
  have hrn := wf.readpos_lt
  have hd := wf.datalen_le
  have rest : u32 (pmngr.buflen - pmngr.readpos) = n - pmngr.readpos := by
    rw [wf.buflen, u32_eq (by omega) (by omega)]
  have front : (queue pmngr).take len = view pmngr.bufptr.cell n pmngr.readpos len := by
    rw [queue, view_take, wf.buflen, Nat.min_eq_left (by omega)]
  rw [rest, front]
  by_cases whole : (len : Int) ≤ n - pmngr.readpos
  · have holds := row_holds wf hr (show pmngr.readpos + len ≤ n by omega)
    have count : (len : Int) = (row pmngr.bufptr.cell pmngr.readpos len).length := by simp [row]
    simp only [copyOut, if_pos whole, Run.value_bind, Run.safe_bind, Run.safe_pure, and_true]
    rw [Ptr.memcpy_value holds out count, view_row _ hr (by omega)]
    exact ⟨rfl, Ptr.memcpy_safe holds count lower (by rw [← count]; exact upper)⟩
  · obtain ⟨first, hfirst⟩ := Int.eq_ofNat_of_zero_le (show 0 ≤ n - pmngr.readpos by omega)
    have highHolds := row_holds wf hr (show pmngr.readpos + first ≤ n by omega)
    have lowHolds := row_holds wf (Int.le_refl 0) (show 0 + (len - first : Nat) ≤ n by omega)
    rw [Ptr.add_zero] at lowHolds
    have highCount : n - pmngr.readpos = (row pmngr.bufptr.cell pmngr.readpos first).length := by
      simp [row, hfirst]
    have lowCount : u32 ((len : Int) - (n - pmngr.readpos)) =
        (row pmngr.bufptr.cell 0 (len - first)).length := by
      rw [u32_eq (by omega) (by omega)]
      simp only [row, List.length_map, List.length_range]
      omega
    simp only [copyOut, if_neg whole, Run.value_bind, Run.safe_bind, Run.safe_pure, and_true]
    rw [Ptr.memcpy_value highHolds out highCount, Ptr.memcpy_value lowHolds _ lowCount,
      Ptr.add_write_back, view_wrap _ hr hrn (by omega) (show first ≤ len by omega) (by omega),
      Ptr.write_append, ← highCount, Int.zero_add]
    refine ⟨rfl, Ptr.memcpy_safe highHolds highCount lower (by omega), ?_⟩
    apply Ptr.memcpy_safe lowHolds lowCount
    · simp only [Ptr.add_off, Ptr.write_off]
      omega
    · rw [← lowCount, u32_eq (by omega) (by omega)]
      simp only [Ptr.add_off, Ptr.write_off, Ptr.add_size, Ptr.write_size]
      omega

theorem copyOut_spec {len : Nat} (le : len ≤ (queue pmngr).length) {outbuf : Option Ptr}
    (room : ∀ out ∈ outbuf, 0 ≤ out.off ∧ out.off + len ≤ out.size) :
    let run := (copyOut pmngr outbuf len (u32 (pmngr.buflen - pmngr.readpos)) :
      Run ε (Option Ptr))
    run.value = outbuf.map (fun out => out.write 0 ((queue pmngr).take len)) ∧ run.Safe := by
  have length := queue_length wf
  cases outbuf with
  | none => exact ⟨rfl, Run.safe_pure _⟩
  | some out =>
      obtain ⟨lower, upper⟩ := room out rfl
      exact copyOut_some wf (by omega) lower upper

theorem drop_front {len : Nat} (le : len ≤ (queue pmngr).length) :
    let left := { pmngr with
      readpos := u32 (pmngr.readpos + len) % u32 pmngr.buflen
      datalen := s32 (pmngr.datalen - len) }
    WellFormed n left ∧ queue left = (queue pmngr).drop len := by
  have length := queue_length wf
  have hr := wf.readpos_nonneg
  have hrn := wf.readpos_lt
  have hd := wf.datalen_le
  have pos := wf.pos
  have small := wf.small
  have readpos : u32 (pmngr.readpos + len) % u32 pmngr.buflen = place n pmngr.readpos len := by
    rw [wf.buflen, u32_eq (by omega) (by omega), u32_eq (by omega) (by omega), place]
  have datalen : s32 (pmngr.datalen - len) = pmngr.datalen - len := s32_eq (by omega) (by omega)
  have writepos : pmngr.writepos =
      (place n pmngr.readpos len + (pmngr.datalen - len)) % n := by
    rw [place, Int.emod_add_emod, wf.writepos_eq]
    congr 1
    omega
  simp only [readpos, datalen]
  refine ⟨⟨pos, small, wf.size, wf.off, wf.buflen, place_nonneg pos _ _, place_lt pos _ _,
    wf.writepos_nonneg, wf.writepos_lt, ?_, ?_, writepos⟩, ?_⟩
  · simp only
    omega
  · simp only
    omega
  · rw [queue, queue, view_drop, wf.buflen]
    simp only
    congr 1
    omega

theorem cbReadLocked_spec {k : Nat} (small : k < 2 ^ 31) {outbuf : Option Ptr}
    (room : ∀ out ∈ outbuf, 0 ≤ out.off ∧ out.off + k ≤ out.size) :
    let run := (cbReadLocked pmngr outbuf k : Run ε (Int × Option Ptr × CircleBufferMngr))
    run.value.1 = (min k (queue pmngr).length : Nat) ∧
    run.value.2.1 = outbuf.map (fun out => out.write 0 ((queue pmngr).take k)) ∧
    WellFormed n run.value.2.2 ∧ queue run.value.2.2 = (queue pmngr).drop k ∧ run.Safe := by
  have length := queue_length wf
  have hd := wf.datalen_le
  have bound := wf.small
  have front : (queue pmngr).take (min k (queue pmngr).length) = (queue pmngr).take k := by simp
  have behind : (queue pmngr).drop (min k (queue pmngr).length) = (queue pmngr).drop k := by
    rcases Nat.le_total k (queue pmngr).length with h | h
    · rw [Nat.min_eq_left h]
    · rw [Nat.min_eq_right h, List.drop_length, List.drop_eq_nil_of_le h]
  obtain ⟨copied, safe⟩ := copyOut_spec (ε := ε) wf (Nat.min_le_right k (queue pmngr).length)
    (fun out member => ⟨(room out member).1, by have := (room out member).2; omega⟩)
  obtain ⟨kept, left⟩ := drop_front wf (Nat.min_le_right k (queue pmngr).length)
  simp only [cbReadLocked, readLength_eq wf small, Run.value_bind, Run.value_pure, Run.safe_bind,
    Run.safe_pure, and_true]
  refine ⟨s32_eq (by omega) (by omega), ?_, kept, ?_, safe⟩
  · rw [copied, front]
  · rw [left, behind]

theorem cbReadNoOffsetLocked_spec {k : Nat} (small : k < 2 ^ 31) {outbuf : Option Ptr}
    (room : ∀ out ∈ outbuf, 0 ≤ out.off ∧ out.off + k ≤ out.size) :
    let run := (cbReadNoOffsetLocked pmngr outbuf k : Run ε (Int × Option Ptr))
    run.value.1 = (min k (queue pmngr).length : Nat) ∧
    run.value.2 = outbuf.map (fun out => out.write 0 ((queue pmngr).take k)) ∧ run.Safe := by
  obtain ⟨length, copied, _, _, safe⟩ := cbReadLocked_spec (ε := ε) wf small room
  refine ⟨length, copied, ?_⟩
  simpa only [cbReadLocked, cbReadNoOffsetLocked, Run.safe_bind, Run.safe_pure] using safe

theorem cbReadMoveOffset_spec {k : Nat} :
    WellFormed n (cbReadMoveOffset pmngr k) ∧
      queue (cbReadMoveOffset pmngr k) = (queue pmngr).drop k := by
  have length := queue_length wf
  by_cases all : pmngr.datalen ≤ k
  · have moved : cbReadMoveOffset pmngr k = { pmngr with readpos := pmngr.writepos, datalen := 0 } :=
      if_pos all
    have writepos : pmngr.writepos = (pmngr.writepos + 0) % n := by
      rw [Int.add_zero, Int.emod_eq_of_lt wf.writepos_nonneg wf.writepos_lt]
    rw [moved, List.drop_eq_nil_of_le (by omega)]
    exact ⟨⟨wf.pos, wf.small, wf.size, wf.off, wf.buflen, wf.writepos_nonneg, wf.writepos_lt,
      wf.writepos_nonneg, wf.writepos_lt, Int.le_refl 0, Int.le_of_lt wf.pos, writepos⟩, rfl⟩
  · have moved : cbReadMoveOffset pmngr k = { pmngr with
        readpos := u32 (pmngr.readpos + k) % u32 pmngr.buflen
        datalen := s32 (pmngr.datalen - k) } := if_neg all
    rw [moved]
    exact drop_front wf (by omega)

end Reading

section Writing

variable {n : Int} {pmngr : CircleBufferMngr} (wf : WellFormed n pmngr)
include wf

/-- A ring that has `xs` in the places behind its queue, and nothing else changed
that counts. -/
structure Appended (n : Int) (pmngr : CircleBufferMngr) (xs : List UInt8) (ring : Ptr) :
    Prop where
  size : ring.size = n
  off : ring.off = 0
  kept : ∀ i < (queue pmngr).length, ring.cell (place n pmngr.readpos i) =
    pmngr.bufptr.cell (place n pmngr.readpos i)
  written : ∀ j, (h : j < xs.length) →
    ring.cell (place n pmngr.readpos ((queue pmngr).length + j)) = xs[j]

theorem writepos_cases : pmngr.writepos =
    if pmngr.readpos + pmngr.datalen < n then pmngr.readpos + pmngr.datalen
    else pmngr.readpos + pmngr.datalen - n := by
  rw [wf.writepos_eq]
  exact place_eq wf.readpos_nonneg wf.readpos_lt wf.datalen_nonneg wf.datalen_le

theorem appended_row {xs : List UInt8} (fits : pmngr.datalen + xs.length ≤ n)
    (inside : pmngr.writepos + xs.length ≤ n) :
    Appended n pmngr xs (pmngr.bufptr.write pmngr.writepos xs) := by
  have length := queue_length wf
  have hr := wf.readpos_nonneg
  have hrn := wf.readpos_lt
  have cases := writepos_cases wf
  refine ⟨?_, ?_, ?_, ?_⟩
  · rw [Ptr.write_size, wf.size]
  · rw [Ptr.write_off, wf.off]
  · intro i hi
    have here := place_eq hr hrn (show (0 : Int) ≤ i by omega) (by omega)
    by_cases low : place n pmngr.readpos i < pmngr.writepos
    · exact Ptr.write_cell_below _ _ _ (by rw [wf.off]; omega)
    · apply Ptr.write_cell_above
      rw [wf.off]
      split_ifs at here cases <;> omega
  · intro j hj
    have here := place_eq hr hrn (show (0 : Int) ≤ (queue pmngr).length + j by omega) (by omega)
    have entry := pmngr.bufptr.write_entry pmngr.writepos xs j hj
    rw [wf.off, Int.zero_add] at entry
    rw [← entry]
    congr 1
    split_ifs at here cases <;> omega

theorem appended_wrap {xs ys : List UInt8} (fits : pmngr.datalen + (xs ++ ys).length ≤ n)
    (end_eq : pmngr.writepos + xs.length = n) (behind : pmngr.readpos ≤ pmngr.writepos)
    (more : 0 < ys.length) :
    Appended n pmngr (xs ++ ys) ((pmngr.bufptr.write pmngr.writepos xs).write 0 ys) := by
  have length := queue_length wf
  have hr := wf.readpos_nonneg
  have hrn := wf.readpos_lt
  have cases := writepos_cases wf
  rw [List.length_append] at fits
  refine ⟨?_, ?_, ?_, ?_⟩
  · rw [Ptr.write_size, Ptr.write_size, wf.size]
  · rw [Ptr.write_off, Ptr.write_off, wf.off]
  · intro i hi
    have here := place_eq hr hrn (show (0 : Int) ≤ i by omega) (by omega)
    rw [Ptr.write_cell_above _ 0 ys (by rw [Ptr.write_off, wf.off]; split_ifs at here cases <;> omega),
      Ptr.write_cell_below _ _ _ (by rw [wf.off]; split_ifs at here cases <;> omega)]
  · intro j hj
    have here := place_eq hr hrn (show (0 : Int) ≤ (queue pmngr).length + j by omega)
      (by rw [List.length_append] at hj; omega)
    by_cases first : j < xs.length
    · rw [List.getElem_append_left first,
        Ptr.write_cell_above _ 0 ys
          (by rw [Ptr.write_off, wf.off]; split_ifs at here cases <;> omega)]
      have entry := pmngr.bufptr.write_entry pmngr.writepos xs j first
      rw [wf.off, Int.zero_add] at entry
      rw [← entry]
      congr 1
      split_ifs at here cases <;> omega
    · rw [List.length_append] at hj
      rw [List.getElem_append_right (by omega)]
      have entry := (pmngr.bufptr.write pmngr.writepos xs).write_entry 0 ys (j - xs.length)
        (by omega)
      rw [Ptr.write_off, wf.off, Int.zero_add, Int.zero_add] at entry
      rw [← entry]
      congr 1
      split_ifs at here cases <;> omega

theorem memcpy_row {datptr : Ptr} {xs : List UInt8} (h : datptr.Holds xs)
    (inside : pmngr.writepos + xs.length ≤ n) {count : Int} (length : count = xs.length) :
    let run := ((pmngr.bufptr.add pmngr.writepos).memcpy datptr count : Run ε Ptr)
    run.value.add (-pmngr.writepos) = pmngr.bufptr.write pmngr.writepos xs ∧ run.Safe := by
  have hw := wf.writepos_nonneg
  refine ⟨?_, Ptr.memcpy_safe h length ?_ ?_⟩
  · rw [Ptr.memcpy_value h _ length, Ptr.add_write_back]
  · rw [Ptr.add_off, wf.off]
    omega
  · rw [Ptr.add_off, Ptr.add_size, wf.off, wf.size]
    omega

theorem copyIn_spec {datptr : Ptr} {xs : List UInt8} (h : datptr.Holds xs)
    (fits : pmngr.datalen + xs.length ≤ n) :
    let run := (copyIn pmngr datptr xs.length : Run ε Ptr)
    Appended n pmngr xs run.value ∧ run.Safe := by
  have hr := wf.readpos_nonneg
  have hrn := wf.readpos_lt
  have hd := wf.datalen_nonneg
  have hw := wf.writepos_nonneg
  have hwn := wf.writepos_lt
  have small := wf.small
  have cases := writepos_cases wf
  have count : u32 xs.length = xs.length := u32_eq (by omega) (by omega)
  have rest : s32 (pmngr.buflen - pmngr.writepos) = n - pmngr.writepos := by
    rw [wf.buflen, s32_eq (by omega) (by omega)]
  by_cases ahead : pmngr.writepos < pmngr.readpos
  · have inside : pmngr.writepos + xs.length ≤ n := by split_ifs at cases <;> omega
    obtain ⟨value, safe⟩ := memcpy_row (ε := ε) wf h inside count
    simp only [copyIn, if_pos ahead, Run.value_bind, Run.value_pure, Run.safe_bind,
      Run.safe_pure, and_true, value]
    exact ⟨appended_row wf fits inside, safe⟩
  · by_cases whole : (xs.length : Int) ≤ n - pmngr.writepos
    · have inside : pmngr.writepos + xs.length ≤ n := by omega
      obtain ⟨value, safe⟩ := memcpy_row (ε := ε) wf h inside count
      simp only [copyIn, if_neg ahead, rest, if_pos whole, Run.value_bind, Run.value_pure,
        Run.safe_bind, Run.safe_pure, and_true, value]
      exact ⟨appended_row wf fits inside, safe⟩
    · obtain ⟨first, hfirst⟩ := Int.eq_ofNat_of_zero_le (show 0 ≤ n - pmngr.writepos by omega)
      have firstLength : (xs.take first).length = first := by
        rw [List.length_take]
        omega
      have halves : xs = xs.take first ++ xs.drop first := (List.take_append_drop first xs).symm
      have low : datptr.Holds (xs.take first) := by
        rw [halves] at h
        exact h.left
      have high : (datptr.add (n - pmngr.writepos)).Holds (xs.drop first) := by
        rw [halves] at h
        have right := h.right
        rwa [firstLength, ← hfirst] at right
      have lowCount : u32 (n - pmngr.writepos) = (xs.take first).length := by
        rw [u32_eq (by omega) (by omega), firstLength, hfirst]
      have highCount : u32 ((xs.length : Int) - (n - pmngr.writepos)) = (xs.drop first).length := by
        rw [u32_eq (by omega) (by omega), List.length_drop]
        omega
      obtain ⟨value, safe⟩ := memcpy_row (ε := ε) wf low (by rw [firstLength]; omega) lowCount
      have wrapped := appended_wrap wf (by rw [← halves]; exact fits)
        (show pmngr.writepos + (xs.take first).length = n by rw [firstLength]; omega) (by omega)
        (show 0 < (xs.drop first).length by rw [List.length_drop]; omega)
      rw [← halves] at wrapped
      simp only [copyIn, if_neg ahead, rest, if_neg whole, Run.value_bind, Run.safe_bind, value]
      rw [Ptr.memcpy_value high _ highCount]
      refine ⟨wrapped, safe, Ptr.memcpy_safe high highCount ?_ ?_⟩
      · simp [wf.off]
      · rw [Ptr.write_off, Ptr.write_size, wf.off, wf.size, List.length_drop]
        omega

theorem cbWriteLocked_spec {datptr : Ptr} {d : List UInt8} (h : datptr.Holds d)
    (short : d.length < 2 ^ 31) :
    let run := (cbWriteLocked pmngr datptr d.length : Run ε (Int × CircleBufferMngr))
    run.value.1 = (min d.length (n.toNat - (queue pmngr).length) : Nat) ∧
    WellFormed n run.value.2 ∧
    queue run.value.2 = queue pmngr ++ d.take (n.toNat - (queue pmngr).length) ∧ run.Safe := by
  have length := queue_length wf
  have pos := wf.pos
  have small := wf.small
  have hd := wf.datalen_nonneg
  have hdn := wf.datalen_le
  have hw := wf.writepos_nonneg
  have hwn := wf.writepos_lt
  generalize stored : d.take (n.toNat - (queue pmngr).length) = xs
  have storedLength : xs.length = min d.length (n.toNat - (queue pmngr).length) := by
    rw [← stored, List.length_take, Nat.min_comm]
  have holds : datptr.Holds xs := by
    rw [← List.take_append_drop (n.toNat - (queue pmngr).length) d, stored] at h
    exact h.left
  have free : s32 (pmngr.buflen - pmngr.datalen) = n - pmngr.datalen := by
    rw [wf.buflen, s32_eq (by omega) (by omega)]
  have writelen : (if n - pmngr.datalen > d.length then (d.length : Int) else n - pmngr.datalen) =
      xs.length := by
    split_ifs <;> omega
  obtain ⟨appended, safe⟩ := copyIn_spec (ε := ε) wf holds (by omega)
  have writepos : u32 (pmngr.writepos + xs.length) % u32 pmngr.buflen =
      (pmngr.readpos + (pmngr.datalen + xs.length)) % n := by
    rw [wf.buflen, u32_eq (by omega) (by omega), u32_eq (by omega) (by omega), wf.writepos_eq,
      Int.emod_add_emod, Int.add_assoc]
  have datalen : s32 (pmngr.datalen + xs.length) = pmngr.datalen + xs.length :=
    s32_eq (by omega) (by omega)
  simp only [cbWriteLocked, free, writelen, Run.value_bind, Run.value_pure, Run.safe_bind,
    Run.safe_pure, and_true, writepos, datalen]
  refine ⟨by omega, ⟨pos, small, appended.size, appended.off, wf.buflen, wf.readpos_nonneg,
    wf.readpos_lt, Int.emod_nonneg _ (by omega), Int.emod_lt_of_pos _ pos, ?_, ?_, rfl⟩, ?_, safe⟩
  · simp only
    omega
  · simp only
    omega
  · have view := view_append xs appended.kept appended.written
    have total : (pmngr.datalen + xs.length).toNat = (queue pmngr).length + xs.length := by omega
    have front : RingView.view pmngr.bufptr.cell n pmngr.readpos (queue pmngr).length =
        queue pmngr := by
      simp [queue, wf.buflen]
    rw [front] at view
    rw [queue]
    simp only [total, wf.buflen, view]

end Writing

end X300.CircleBuffer
