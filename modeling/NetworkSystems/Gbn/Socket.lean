import NetworkSystems.Gbn.ReceiveWindow

/-!
# A GBN socket

The state of a socket and the two threads that work on it. The write thread is the state machine of
`gbn_write.c`, one constructor of `WriterState` for each of its functions. A pass of the read thread
handles one datagram. A datagram on the wire is the packet that `gbn_socket_serialize` wrote and
`gbn_socket_deserialize` will rebuild.

The payload of a packet in the sending window is a pointer. `send_packet` frees what it points to right
after the first transmission, so a retransmission reads freed memory, whose content is up to the
environment.
-/

namespace NetworkSystems.Gbn

/-- A pointer to a payload. `NULL` is 0. -/
abbrev Ref := Nat

/-- What the environment leaves in freed memory: a byte for each pointer and offset. -/
abbrev Junk := Ref → Nat → UInt8

abbrev Datagram := GbnPacket Bytes

/-- The payload buffers that are allocated now, and the next pointer `malloc` returns. -/
structure Heap where
  cell : Ref → Option Bytes
  next : Nat

namespace Heap

def empty : Heap := ⟨fun _ => none, 1⟩

/-- `malloc`, followed by the copy that fills the buffer. -/
def malloc (h : Heap) (bytes : Bytes) : Heap :=
  ⟨Function.update h.cell h.next (some bytes), h.next + 1⟩

def free (h : Heap) (ref : Ref) : Heap :=
  { h with cell := Function.update h.cell ref none }

/-- The bytes that `memcpy` finds behind a pointer. -/
def read (h : Heap) (junk : Junk) (ref : Ref) (size : Nat) : Bytes :=
  match h.cell ref with
  | some bytes => bytes.take size
  | none => (List.range size).map (junk ref)

end Heap

inductive SocketStatus
  | opened
  | closed
  deriving DecidableEq

/-- The state functions of the write thread. `retransmitFrom i` is the loop of `retransmit` about to
send slot `i`, `stopped` is the `NULL` that ends the thread. -/
inductive WriterState
  | windowEmptyQ
  | blockOnQueue
  | sendPacket
  | isWinFullQ
  | waitOnRead
  | retransmit
  | retransmitFrom (i : Fin defaultQueueSize)
  | closeConnection
  | stopped
  deriving DecidableEq

/-- `gbn_socket_t`, with the heap its payload pointers lead to and the control state of its two
threads. -/
structure GbnSocket where
  status : SocketStatus
  readStatus : SocketStatus
  sendingBuffer : BlockQueue Ref
  receiveBuffer : BlockQueue Bytes
  sendingWindow : GbnWindow Ref
  receiveWindow : GbnWindow Bytes
  seqNumber : UInt32
  heap : Heap
  writer : WriterState
  /-- The read thread has not returned. -/
  reading : Bool

/-- A socket as `calloc` and `init_gbn_socket` leave it. -/
def initGbnSocket : GbnSocket where
  status := .opened
  readStatus := .opened
  sendingBuffer := .empty
  receiveBuffer := .empty
  sendingWindow := .zeroed 0
  receiveWindow := .zeroed []
  seqNumber := 0
  heap := .empty
  writer := .windowEmptyQ
  reading := true

/-! ### The sending window -/

namespace GbnWindow

/-- `GET_SEND_FRAME_id_delta`: how far the number lies behind the one in the head slot, or -2. -/
def getSendFrameIdDelta (w : GbnWindow Ref) (seqNumber : UInt32) : Int :=
  let headFrame := w.frame 0
  if headFrame.seqNumber ≤ seqNumber then
    if seqNumber < headFrame.seqNumber + 6 then
      (seqNumber - headFrame.seqNumber).toNat
    else -2
  else -2

/-- The window update of the ack case. The size of the window takes no part in the test. -/
def acknowledge (w : GbnWindow Ref) (seqNumber : UInt32) : GbnWindow Ref :=
  let framediff := w.getSendFrameIdDelta seqNumber + 1
  if framediff ≠ -1 then
    { w with
      head := (w.head + UInt8.ofInt framediff) % 6
      size := w.size - UInt8.ofInt framediff }
  else w

/-- The window update of `send_packet`. -/
def append (w : GbnWindow Ref) (packet : GbnPacket Ref) : GbnWindow Ref :=
  { w with
    packetBuffer := Function.update w.packetBuffer (Fin.ofNat 6 w.tail.toNat) packet
    tail := UInt8.ofNat ((w.tail.toNat + 1) % 6)
    size := w.size + 1 }

end GbnWindow

namespace GbnSocket

/-! ### The application's calls -/

def writeBlocks (bytes : Bytes) : List Bytes :=
  let wholeBlocks := bytes.length / defaultPacketSize
  let whole := (List.range wholeBlocks).map fun cntr =>
    (bytes.drop (cntr * defaultPacketSize)).take defaultPacketSize
  if wholeBlocks * defaultPacketSize < bytes.length then
    whole ++ [bytes.drop (wholeBlocks * defaultPacketSize)]
  else whole

/-- Copy one block to the heap and push it on the sending buffer. -/
def pushBlock (sock : GbnSocket) (bytes : Bytes) : GbnSocket :=
  { sock with
    heap := sock.heap.malloc bytes
    sendingBuffer := sock.sendingBuffer.pushChunk
      ⟨sock.heap.next, UInt32.ofNat bytes.length, 0⟩ }

def write (sock : GbnSocket) (bytes : Bytes) : GbnSocket :=
  (writeBlocks bytes).foldl pushBlock sock

/-- `gbn_socket_close`, up to the point where it waits for one of the threads. -/
def close (sock : GbnSocket) : GbnSocket :=
  match sock.status with
  | .opened =>
      { sock with sendingBuffer := sock.sendingBuffer.pushChunk ⟨0, 0, isClosing⟩ }
  | .closed => sock

/-! ### The write thread -/

/-- The datagram of a packet whose payload is behind a pointer. -/
def serialize (sock : GbnSocket) (junk : Junk) (packet : GbnPacket Ref) : Datagram :=
  { packet with payload := sock.heap.read junk packet.payload packet.size.toNat }

/-- `send_packet` after the block has been popped, for a block that is not the closing marker. -/
def sendBlock (sock : GbnSocket) (junk : Junk) (block : DataBlock Ref) : GbnSocket × List Datagram :=
  let packet : GbnPacket Ref := ⟨.data, sock.seqNumber, block.len, block.data⟩
  ({ sock with
      seqNumber := sock.seqNumber + 1
      sendingWindow := sock.sendingWindow.append packet
      heap := sock.heap.free block.data
      writer := .isWinFullQ },
    [sock.serialize junk packet])

def sendPacket (sock : GbnSocket) (junk : Junk) : Option (GbnSocket × List Datagram) :=
  sock.sendingBuffer.peekChunk.map fun block =>
    let sock := { sock with sendingBuffer := sock.sendingBuffer.popChunk }
    if block.flags &&& isClosing ≠ 0 then
      ({ sock with writer := .closeConnection }, [])
    else sock.sendBlock junk block

/-- One pass of the loop of `retransmit`. -/
def retransmitSlot (sock : GbnSocket) (junk : Junk) (i : Fin defaultQueueSize) :
    GbnSocket × List Datagram :=
  let next : Fin defaultQueueSize := Fin.ofNat 6 (i.val + 1)
  ({ sock with
      writer := if next.val ≠ sock.sendingWindow.tail.toNat then .retransmitFrom next
        else .waitOnRead },
    [sock.serialize junk (sock.sendingWindow.packetBuffer i)])

/-- `close_connection` -/
def eofDatagram : Datagram := ⟨.eof, 0, 0, []⟩

/-- One step of the write thread: the socket after it and the datagrams it hands to `sendto`. `none`
means that the thread waits or has ended; `timedOut` is the outcome of the timed wait. -/
def writerStep (sock : GbnSocket) (timedOut : Bool) (junk : Junk) :
    Option (GbnSocket × List Datagram) :=
  match sock.writer with
  | .windowEmptyQ =>
      if sock.sendingWindow.size = 0 then some ({ sock with writer := .blockOnQueue }, [])
      else some ({ sock with writer := .isWinFullQ }, [])
  | .blockOnQueue =>
      sock.sendingBuffer.peekChunk.map fun _ => ({ sock with writer := .sendPacket }, [])
  | .sendPacket => sock.sendPacket junk
  | .isWinFullQ =>
      if sock.sendingWindow.size < 6 ∧ ¬ sock.sendingBuffer.isEmpty then
        some ({ sock with writer := .sendPacket }, [])
      else some ({ sock with writer := .waitOnRead }, [])
  | .waitOnRead =>
      if timedOut then some ({ sock with writer := .retransmit }, [])
      else some ({ sock with writer := .windowEmptyQ }, [])
  | .retransmit =>
      if sock.sendingWindow.size = 0 then some ({ sock with writer := .waitOnRead }, [])
      else some ({ sock with
        writer := .retransmitFrom (Fin.ofNat 6 sock.sendingWindow.head.toNat) }, [])
  | .retransmitFrom i => some (sock.retransmitSlot junk i)
  | .closeConnection => some ({ sock with writer := .stopped }, [eofDatagram])
  | .stopped => none

/-! ### The read thread -/

/-- The data case: accept the packet, push what has become deliverable, acknowledge all of it. -/
def receiveData (sock : GbnSocket) (packet : Datagram) : GbnSocket × List Datagram :=
  let removed := (sock.receiveWindow.accept packet).removeFront defaultQueueSize
  ({ sock with
      receiveWindow := removed.2
      receiveBuffer := removed.1.foldl BlockQueue.pushChunk sock.receiveBuffer },
    [⟨.ack, removed.2.recvCounter - 1, 0, []⟩])

/-- The marker an EOF packet leaves on the receive buffer. -/
def closingMarker : DataBlock Bytes := ⟨[], 0, isClosing⟩

/-- The EOF case: answer, and push the closing marker on both buffers. -/
def receiveEof (sock : GbnSocket) : GbnSocket × List Datagram :=
  ({ sock with
      readStatus := .closed
      sendingBuffer := sock.sendingBuffer.pushChunk ⟨0, 0, isClosing⟩
      receiveBuffer := sock.receiveBuffer.pushChunk closingMarker
      reading := false },
    [⟨.ackEof, 0, 0, []⟩])

/-- One pass of the loop of `gbn_socket_read_thread_main`, on the datagram that `recvfrom` returns:
the socket after it and the datagrams it hands to `sendto`. -/
def readThread (sock : GbnSocket) (incoming : Datagram) : GbnSocket × List Datagram :=
  if sock.readStatus = .closed ∧ sock.receiveWindow.size = 0 then
    ({ sock with reading := false }, [])
  else
    match incoming.type with
    | .ack =>
        ({ sock with sendingWindow := sock.sendingWindow.acknowledge incoming.seqNumber }, [])
    | .data => sock.receiveData incoming
    | .ackEof => ({ sock with reading := false }, [])
    | .eof => sock.receiveEof
    | .uninitialized => (sock, [])
    | .other _ => (sock, [])

end GbnSocket

end NetworkSystems.Gbn
