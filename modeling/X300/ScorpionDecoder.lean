import X300.ScorpionCodec

/-! The receive side of the two protocol stacks of the scorpion daemon, from the
delimiter search to the message switch. `scorpion_stm32.c` (MCU, over the UART)
and `scorpion_protocol.c` (APK, over the socket) hold two copies of the same code;
what they share is written once over a `Protocol`, and each copy is an instance.

`int` lengths are unbounded integers here; every conversion to `unsigned int` that
can meet a negative value is explicit. `malloc` is given by what it returns: a null
pointer, or a fresh block with some contents and some bytes around it. -/

namespace X300.ScorpionDecoder
open CMemory ByteStuffing ScorpionCodec

structure BuffMgr where
  buf : Ptr
  len : Int

def BuffMgr.zero : BuffMgr := ⟨.null, 0⟩

def BuffMgr.bytes (msg : BuffMgr) : List UInt8 := msg.buf.bytes msg.len

inductive Handler where
  | commonAckTreat | gpioInTreat | getAdcTreat | evalTreat | volumnTreat | gpioInRepTreat
  | getVersionTreat | sendAck
  | heartBeat | delayTimeTreat | shellRespond | reboot
  deriving DecidableEq, Repr

inductive Call where
  -- `*_protocol_unescape` on a raw segment
  | unescape (raw : List UInt8)
  -- `*_parse_a_full_msg` on a decoded frame
  | parse (now : BuffMgr)
  -- the message switch of `*_parse_protocol` is reached
  | switch (now : BuffMgr)
  | handler (h : Handler) (buf : Ptr) (arg : Int)
  -- `scorpion_uart_send` or `scorpion_socket_send`
  | send (wire : List UInt8)

def raws (calls : List Call) : List (List UInt8) :=
  calls.filterMap fun | .unescape raw => some raw | _ => none

def parses (calls : List Call) : List BuffMgr :=
  calls.filterMap fun | .parse now => some now | _ => none

def switches (calls : List Call) : List BuffMgr :=
  calls.filterMap fun | .switch now => some now | _ => none

def headerSize : Int := 8

def findMagicLoop (magic : UInt8) (buf : Ptr) : Nat → Int → Run Call (Bool × Int)
  | 0, _ => pure (false, 0)
  | n + 1, index => do
      let c ← buf.load index
      if c = magic then pure (true, index)
      else findMagicLoop magic buf n (index + 1)

def findMagicChar (magic : UInt8) (buf : Ptr) (len : Int) : Run Call (Bool × Int) :=
  findMagicLoop magic buf len.toNat 0

def getAFullMsg (magic : UInt8) (buf : Ptr) (len : Int) (msg : BuffMgr) :
    Run Call (Int × BuffMgr) := do
  let head ← findMagicChar magic buf len
  let head_offset := head.2
  if head.1 = true ∧ headerSize + 3 ≤ toUnsigned (len - head_offset) then
    let tail ← findMagicChar magic (buf.add (head_offset + 1)) (len - head_offset - 1)
    let tail_offset := tail.2 + (head_offset + 1)
    if tail.1 = true then
      pure (tail_offset + 1, ⟨buf.add head_offset, tail_offset - head_offset + 1⟩)
    else pure (head_offset, msg)
  else pure (head_offset, msg)

def dumpLoop (buf : Ptr) : Nat → Int → Run Call Unit
  | 0, _ => pure ()
  | n + 1, i => do
      let _ ← buf.load i
      dumpLoop buf n (i + 1)

def dump (on : Bool) (msg : BuffMgr) : Run Call Unit :=
  if on then dumpLoop msg.buf msg.len.toNat 0 else pure ()

def debugHeader (header : Ptr) : Run Call Unit := do
  let _ ← header.loadU16 0
  let _ ← header.loadU16 2
  let _ ← header.loadU16 4

def parseHeader (msg : BuffMgr) : Run Call Bool := do
  let header := msg.buf.add 1
  debugHeader header
  let _ ← header.loadU16 0
  let _ ← header.loadU16 2
  let _ ← header.loadU16 4
  let msg_len ← header.loadU16 2
  if (msg_len : Int) ≠ toUnsigned (msg.len - headerSize - 3) then pure false
  else pure true

/-- One of the two stacks. The `dump` of the wire bytes is compiled into one of
them only; each has its own message switch, which does nothing before reading the
message id and reaching the `switch`, and reads no byte past the header. -/
structure Protocol where
  code : Stuffing UInt8
  dump : Bool
  parseProtocol : BuffMgr → Run Call Unit
  switch_once : ∀ msg, switches (parseProtocol msg).calls = [msg]
  switch_only : ∀ msg, raws (parseProtocol msg).calls = [] ∧ parses (parseProtocol msg).calls = []
  switch_safe : ∀ msg, 0 ≤ msg.buf.off → msg.buf.off + 7 ≤ msg.buf.size →
    (parseProtocol msg).Safe

/-- `*_parse_a_full_msg`. The `bool` of `*_parse_header` lands in an `int`. -/
def parseAFullMsg (P : Protocol) (msg : BuffMgr) : Run Call Unit := do
  Run.emit (.parse msg)
  let valid ← parseHeader msg
  let ret : Int := if valid then 1 else 0
  if ret < 0 then pure ()
  else P.parseProtocol msg

abbrev Malloc := Nat → Option (Int → UInt8)

def succeeding (heap : Nat → Int → UInt8) : Malloc := fun n => some (heap n)

def verify (P : Protocol) (now : BuffMgr) : Run Call Unit := do
  let check ← now.buf.load (now.len - 2)
  let xor ← xor8Computer (now.buf.add 1) (toUnsigned (now.len - 3))
  if check ≠ xor then pure ()
  else parseAFullMsg P now

/-- The part of `*_protocol_ayalyze` that treats one raw segment, from its `malloc`
to its `free`; false when the function returns -1 there. The decoded bytes are
the first `now.len` bytes of the block, and reads of it are held to these. -/
def treatRaw (P : Protocol) (block : Option (Int → UInt8)) (raw : BuffMgr) : Run Call Bool :=
  match block with
  | none => pure false
  | some cell => do
      Run.emit (.unescape raw.bytes)
      let decoded ← protocolUnescape P.code ⟨cell, raw.len, 0⟩ raw.buf raw.len
      let now : BuffMgr := ⟨{ decoded.2 with size := decoded.1 }, decoded.1⟩
      dump true now
      verify P now
      pure true

def treatFound (P : Protocol) (block : Option (Int → UInt8)) (offset : Int) (raw : BuffMgr) :
    Run Call Bool :=
  if offset ≠ 0 ∧ raw.len ≠ 0 then treatRaw P block raw else pure true

/-- The `do` loop, after `k` allocations; `none` for the return of -1. -/
def ayalyzeLoop (P : Protocol) (malloc : Malloc) : Nat → Nat → Ptr → Int → Run Call (Option Int)
  | 0, _, _, msg_len => pure (some msg_len)
  | fuel + 1, k, msg_buf, msg_len => do
      let found ← getAFullMsg P.code.delim msg_buf msg_len .zero
      let offset := found.1
      let raw := found.2
      dump P.dump raw
      let going ← treatFound P (malloc k) offset raw
      if going = true then
        let msg_buf := msg_buf.add offset
        let msg_len := msg_len - offset
        if offset ≠ 0 ∧ raw.len ≠ 0 ∧ 0 < msg_len then
          ayalyzeLoop P malloc fuel (k + 1) msg_buf msg_len
        else pure (some msg_len)
      else pure none

def protocolAyalyze (P : Protocol) (malloc : Malloc) (buf : Ptr) (len : Int) : Run Call Int := do
  dump P.dump ⟨buf, len⟩
  let left ← ayalyzeLoop P malloc (len.toNat + 1) 0 buf len
  pure (left.elim (-1) fun msg_len => len - msg_len)

end X300.ScorpionDecoder
