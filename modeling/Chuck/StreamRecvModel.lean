import Chuck.ByteChunkModel

/-!
# Source-shaped receive path of a stream socket

`packet_decoder` of `chk_decoder.c` and the receiving half of
`chk_stream_socket.c`, without SSL. The kernel's `readv` is a list of bytes
that it scatters over the iovecs. The callback is told every event so far, the
delivered packet last, and answers with the sizes it drains from that packet by
`chk_bytebuffer_read_drain`; it does not close the socket.

As in `ByteChunkModel` a function returns `none` where the source would leave
the memory it owns or use an uninitialised value.
-/

namespace Chuck.StreamRecvModel

open Support.SharedChain ByteChunkModel

/-! ## The packet decoder -/

structure PacketDecoder where
  b : Option Nat
  spos : Nat
  size : Nat
  max : Nat
  deriving DecidableEq, Repr

def packetDecoderNew (max : Nat) : PacketDecoder where
  b := none
  spos := 0
  size := 0
  max := max

inductive UnpackError where
  | packetTooLarge
  | invaildPacketSize
  deriving DecidableEq, Repr

inductive Unpacked where
  | packet (b : ByteBuffer)
  | error (code : UnpackError)
  | incomplete

def packetDecoderUpdate (mem : Memory) (d : PacketDecoder) (b : Option Nat) (spos size : Nat) :
    Option (Memory × PacketDecoder) :=
  match d.b with
  | none =>
    (bytechunkRetain mem b).map fun mem =>
      (mem, { d with b := b, spos := spos, size := size % 2 ^ 32 })
  | some _ => some (mem, { d with size := (d.size + size) % 2 ^ 32 })

def networkOrder (bytes : List Byte) : Nat := bytes.foldl (fun n byte => n * 256 + byte.toNat) 0

def headerSize : Nat := 4

/-- The loop of `packet_decoder_unpack` that moves the decoder behind a packet. -/
def skipLoop : Nat → Memory → PacketDecoder → Nat → Option (Memory × PacketDecoder)
  | 0, _, _, _ => none
  | fuel + 1, mem, d, pkTotal => do
      let head ← d.b
      let chunk ← mem.cells head
      let size := min (chunk.payload.length - d.spos) pkTotal
      if d.spos + size ≥ chunk.payload.length then
        let mem ← bytechunkRetain mem chunk.next
        let mem ← bytechunkRelease mem head
        let d := { d with b := chunk.next, spos := 0, size := d.size - size }
        if d.b = none ∨ pkTotal - size = 0 then some (mem, d)
        else skipLoop fuel mem d (pkTotal - size)
      else
        let d := { d with spos := d.spos + size, size := d.size - size }
        if pkTotal - size = 0 then some (mem, d) else skipLoop fuel mem d (pkTotal - size)

section Receiving

variable (junk : Nat → Nat → Byte)

/-- The end of `packet_decoder_unpack`: the packet becomes a buffer over the chunks. -/
def takePacket (mem : Memory) (d : PacketDecoder) (pkTotal : Nat) :
    Option (Unpacked × Memory × PacketDecoder) := do
  let (mem, ret) ← bytebufferNewBychunk junk mem d.b d.spos pkTotal
  let (mem, d) ← skipLoop (mem.fresh + 1) mem d pkTotal
  some (.packet ret, mem, d)

/-- `packet_decoder_unpack`. `pk_total` is computed in 32 bits. If the chain ends
inside the header, `pk_len` is not initialised. -/
def packetDecoderUnpack (mem : Memory) (d : PacketDecoder) :
    Option (Unpacked × Memory × PacketDecoder) :=
  if d.size ≤ headerSize then some (.incomplete, mem, d)
  else do
    let (header, _, _) ← bytechunkRead mem d.b d.spos headerSize
    if header.length < headerSize then none
    else
      let pkLen := networkOrder header
      let pkTotal := (headerSize + pkLen) % 2 ^ 32
      if pkLen = 0 then some (.error .invaildPacketSize, mem, d)
      else if pkTotal > d.max then some (.error .packetTooLarge, mem, d)
      else if pkTotal > d.size then some (.incomplete, mem, d)
      else takePacket junk mem d pkTotal

/-! ## The socket -/

structure RecvSocket where
  nextRecvBuf : Option Nat
  nextRecvPos : Nat
  recvBufferSize : Nat
  decoder : PacketDecoder

def recvSocketNew (recvBufferSize max : Nat) : RecvSocket where
  nextRecvBuf := none
  nextRecvPos := 0
  recvBufferSize :=
    if 1024 > sizeOfPow2 recvBufferSize then 1024 else sizeOfPow2 recvBufferSize
  decoder := packetDecoderNew max

/-- An entry of `wrecvbuf`: a chunk, a position in it and a length. -/
structure Iovec where
  chunk : Nat
  pos : Nat
  len : Nat
  deriving DecidableEq, Repr

def nextChunk (mem : Memory) (address len : Nat) : Option (Memory × Nat) := do
  let chunk ← mem.cells address
  match chunk.next with
  | some next => some (mem, next)
  | none => (mem.extend address (rawData junk mem len)).map fun grown => (grown, mem.fresh)

/-- The loop of `prepare_recv`; the fuel is the room left in `wrecvbuf`. -/
def prepareLoop (recvBufferSize : Nat) : Nat → Memory → Nat → Nat → Option (Memory × List Iovec)
  | 0, _, _, _ => none
  | room + 1, mem, address, pos => do
      let chunk ← mem.cells address
      let recvSize := chunk.payload.length - pos
      if recvSize < recvBufferSize then
        let (mem, next) ← nextChunk junk mem address recvBufferSize
        let (mem, iovecs) ← prepareLoop recvBufferSize room mem next 0
        some (mem, { chunk := address, pos := pos, len := recvSize } :: iovecs)
      else some (mem, [{ chunk := address, pos := pos, len := recvSize }])

def openRecvBuf (mem : Memory) (s : RecvSocket) : Memory × RecvSocket × Nat :=
  match s.nextRecvBuf with
  | some address => (mem, s, address)
  | none =>
    let (address, mem) := bytechunkNew junk mem s.recvBufferSize
    (mem, { s with nextRecvBuf := some address, nextRecvPos := 0 }, address)

def prepareRecv (mem : Memory) (s : RecvSocket) : Option (Memory × RecvSocket × List Iovec) :=
  let (mem, s, address) := openRecvBuf junk mem s
  (prepareLoop junk s.recvBufferSize 2 mem address s.nextRecvPos).map fun (mem, iovecs) =>
    (mem, s, iovecs)

def readv : Memory → List Iovec → List Byte → Option Memory
  | mem, _, [] => some mem
  | _, [], _ :: _ => none
  | mem, io :: iovecs, bytes => do
      let chunk ← mem.cells io.chunk
      let data ← splice chunk.payload io.pos (bytes.take io.len)
      readv (mem.set io.chunk (some { chunk with payload := data })) iovecs (bytes.drop io.len)

def updateNextRecvPos : Nat → Memory → RecvSocket → Nat → Option (Memory × RecvSocket)
  | _, mem, s, 0 => some (mem, s)
  | 0, _, _, _ + 1 => none
  | fuel + 1, mem, s, bytes + 1 => do
      let head ← s.nextRecvBuf
      let chunk ← mem.cells head
      let size := min (chunk.payload.length - s.nextRecvPos) (bytes + 1)
      if s.nextRecvPos + size ≥ chunk.payload.length then
        let (mem, next) ← nextChunk junk mem head s.recvBufferSize
        let mem ← bytechunkRetain mem (some next)
        let mem ← bytechunkRelease mem head
        updateNextRecvPos fuel mem { s with nextRecvBuf := some next, nextRecvPos := 0 }
          (bytes + 1 - size)
      else
        updateNextRecvPos fuel mem { s with nextRecvPos := s.nextRecvPos + size }
          (bytes + 1 - size)

end Receiving

/-! ## Reading -/

inductive Event where
  | packet (bytes : List Byte)
  | error (code : UnpackError)
  deriving DecidableEq, Repr

structure Session where
  mem : Memory
  socket : RecvSocket
  events : List Event

def drainAll : Memory → ByteBuffer → List Nat → Option (Memory × ByteBuffer)
  | mem, b, [] => some (mem, b)
  | mem, b, size :: sizes => do
      let (_, mem, b) ← bytebufferReadDrain mem b size
      drainAll mem b sizes

section Reads

variable (junk : Nat → Nat → Byte) (callback : List Event → List Nat)

def deliver (session : Session) (b : ByteBuffer) : Option Session := do
  let bytes ← bytebufferRead session.mem b 0 b.datasize
  let events := session.events ++ [.packet bytes]
  let (mem, b) ← drainAll session.mem b (callback events)
  let (mem, _) ← bytebufferFinalize mem b
  some { session with mem := mem, events := events }

/-- The `for(;;)` of `process_read`. The flag tells whether it was left; it may
go on for ever. -/
def unpackLoop : Nat → Session → Option (Session × Bool)
  | 0, session => some (session, false)
  | fuel + 1, session => do
      let (unpacked, mem, d) ← packetDecoderUnpack junk session.mem session.socket.decoder
      let session := { session with mem := mem, socket := { session.socket with decoder := d } }
      match unpacked with
      | .packet b => do
          let session ← deliver callback session b
          unpackLoop fuel session
      | .error code => some ({ session with events := session.events ++ [.error code] }, true)
      | .incomplete => some (session, true)

def processRead (fuel : Nat) (session : Session) (bytes : List Byte) :
    Option (Session × Bool) := do
  let (mem, s, iovecs) ← prepareRecv junk session.mem session.socket
  let mem ← readv mem iovecs bytes
  let (mem, d) ← packetDecoderUpdate mem s.decoder s.nextRecvBuf s.nextRecvPos bytes.length
  let (session, left) ← unpackLoop junk callback fuel
    { session with mem := mem, socket := { s with decoder := d } }
  if left then do
    let (mem, s) ← updateNextRecvPos junk bytes.length session.mem session.socket bytes.length
    some ({ session with mem := mem, socket := s }, true)
  else some (session, false)

def processReads (fuel : Nat) : Session → List (List Byte) → Option (Session × Bool)
  | session, [] => some (session, true)
  | session, bytes :: reads => do
      let (session, left) ← processRead junk callback fuel session bytes
      if left then processReads fuel session reads else some (session, false)

end Reads

def newSession (mem : Memory) (recvBufferSize max : Nat) : Session where
  mem := mem
  socket := recvSocketNew recvBufferSize max
  events := []

end Chuck.StreamRecvModel
