import NetworkSystems.Gbn.Delivery

/-!
# The two-party protocol

A sending and a receiving socket over a network. The sending application writes and then closes, the
write and read threads of both sockets take their steps in any order, and the network delivers any
datagram that has been sent, any number of times and at any later moment, or never: it is the set of
all datagrams handed to `sendto`, and nothing is ever taken out of it.
-/

namespace NetworkSystems.Gbn

/-- The two sockets, every datagram sent in each direction, and what the sending application did. -/
structure Protocol where
  sender : GbnSocket
  receiver : GbnSocket
  toReceiver : List Datagram
  toSender : List Datagram
  /-- The blocks that `gbn_socket_write` has queued, in order. -/
  queued : List Bytes
  /-- `gbn_socket_close` has been called. -/
  closed : Bool

/-- Who moves, and what the environment chooses for the move. A call of `gbn_socket_write` is one step;
one that is interrupted between two blocks is a sequence of shorter writes. -/
inductive Action
  | write (bytes : Bytes)
  | close
  | senderWriter (timedOut : Bool) (junk : Junk)
  | senderRead (datagram : Datagram)
  | receiverWriter (timedOut : Bool) (junk : Junk)
  | receiverRead (datagram : Datagram)

namespace Protocol

def initial : Protocol where
  sender := initGbnSocket
  receiver := initGbnSocket
  toReceiver := []
  toSender := []
  queued := []
  closed := false

def step (s : Protocol) : Action → Option Protocol
  | .write bytes =>
      if s.closed then none
      else some { s with
        sender := s.sender.write bytes
        queued := s.queued ++ GbnSocket.writeBlocks bytes }
  | .close => if s.closed then none else some { s with sender := s.sender.close, closed := true }
  | .senderWriter timedOut junk =>
      (s.sender.writerStep timedOut junk).map fun next =>
        { s with sender := next.1, toReceiver := s.toReceiver ++ next.2 }
  | .senderRead datagram =>
      if datagram ∈ s.toSender ∧ s.sender.reading then
        let next := s.sender.readThread datagram
        some { s with sender := next.1, toReceiver := s.toReceiver ++ next.2 }
      else none
  | .receiverWriter timedOut junk =>
      (s.receiver.writerStep timedOut junk).map fun next =>
        { s with receiver := next.1, toSender := s.toSender ++ next.2 }
  | .receiverRead datagram =>
      if datagram ∈ s.toReceiver ∧ s.receiver.reading then
        let next := s.receiver.readThread datagram
        some { s with receiver := next.1, toSender := s.toSender ++ next.2 }
      else none

end Protocol

def protocol : Machine Protocol Action := ⟨Protocol.step⟩

end NetworkSystems.Gbn
