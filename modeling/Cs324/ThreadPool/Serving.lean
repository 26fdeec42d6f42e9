import Cs324.Base.Descriptors
import Cs324.Base.Machine

namespace Cs324.ThreadPool
set_option autoImplicit true

inductive Side
  | client
  | server
  deriving DecidableEq

/-- What a descriptor refers to: a file that was open before the first `accept`, or the socket to
one side of a connection. -/
inductive Socket
  | inherited
  | peer (number : Nat) (side : Side)
  deriving DecidableEq

/-- What is done next for a connection, up to the `close` in `thread`. `addresses` counts those that
`rp` still goes through. -/
inductive Stage
  | queued
  | request
  | lookup (serverReq : List UInt8)
  | socket (serverReq : List UInt8) (addresses : Nat)
  | connect (serverReq : List UInt8) (addresses sfd : Nat)
  | closeServer (serverReq : List UInt8) (addresses sfd : Nat)
  | send (sfd charsLeft : Nat)
  | receive (sfd numBytesRead : Nat)
  | respond (sfd charsLeft : Nat)
  | closeClient (sfd : Nat)
  | finished (sfd : Nat)
  deriving DecidableEq

structure Conn where
  connfd : Nat
  stage : Stage
  deriving DecidableEq

/-- A call that the worker makes for its connection, with the result. -/
inductive Call
  | remove
  | request (serverReq : List UInt8)
  | getaddrinfo (addresses : Nat)
  | socket (sfd : Option Nat)
  | connect (connected : Bool)
  | write (charsWritten : Nat)
  | read (curRead : Nat)
  | close
  deriving DecidableEq

/-- The next round of the loop over the addresses. -/
def addressLoop (serverReq : List UInt8) : Nat → Option Stage
  | 0 => none
  | addresses + 1 => some (.socket serverReq (addresses + 1))

def sendLoop (sfd : Nat) : Nat → Stage
  | 0 => .receive sfd 0
  | charsLeft + 1 => .send sfd (charsLeft + 1)

def respondLoop (sfd : Nat) : Nat → Stage
  | 0 => .closeClient sfd
  | charsLeft + 1 => .respond sfd (charsLeft + 1)

/-- One call for the connection with a number. There is none where the code exits. -/
def Conn.next (c : Conn) (number : Nat) (t : Descriptors Socket) (call : Call) :
    Option (Stage × Descriptors Socket) :=
  match c.stage, call with
  | .queued, .remove => some (.request, t)
  | .request, .request serverReq => some (.lookup serverReq, t)
  | .lookup serverReq, .getaddrinfo addresses =>
    (addressLoop serverReq addresses).map fun stage => (stage, t)
  | .socket serverReq addresses, .socket none =>
    (addressLoop serverReq (addresses - 1)).map fun stage => (stage, t)
  | .socket serverReq addresses, .socket (some sfd) =>
    (t.install sfd (.peer number .server)).map fun t => (.connect serverReq addresses sfd, t)
  | .connect serverReq _ sfd, .connect true => some (sendLoop sfd serverReq.length, t)
  | .connect serverReq addresses sfd, .connect false =>
    some (.closeServer serverReq addresses sfd, t)
  | .closeServer serverReq addresses sfd, .close =>
    (addressLoop serverReq (addresses - 1)).map fun stage => (stage, Function.update t sfd none)
  | .send sfd charsLeft, .write charsWritten =>
    if charsWritten ≤ charsLeft then some (sendLoop sfd (charsLeft - charsWritten), t) else none
  | .receive sfd numBytesRead, .read 0 => some (respondLoop sfd numBytesRead, t)
  | .receive sfd numBytesRead, .read curRead => some (.receive sfd (numBytesRead + curRead), t)
  | .respond sfd charsLeft, .write charsWritten =>
    if charsWritten ≤ charsLeft then some (respondLoop sfd (charsLeft - charsWritten), t) else none
  | .closeClient sfd, .close => some (.finished sfd, Function.update t c.connfd none)
  | _, _ => none

/-- The connections are in the order they were accepted in. -/
structure Serving where
  descriptors : Descriptors Socket
  conns : List Conn

inductive Event
  | accept (connfd : Nat)
  | call (number : Nat) (call : Call)
  deriving DecidableEq

def Serving.next (s : Serving) : Event → Option Serving
  | .accept connfd =>
    (s.descriptors.install connfd (.peer s.conns.length .client)).map fun descriptors =>
      { descriptors, conns := s.conns ++ [⟨connfd, .queued⟩] }
  | .call number call => do
    let conn ← s.conns[number]?
    let (stage, descriptors) ← conn.next number s.descriptors call
    return { descriptors, conns := s.conns.set number { conn with stage } }

/-- The proxy from the first `accept` on, with the descriptors that are open then. -/
def serving (opened : Nat → Bool) : Machine Serving Event where
  start := ⟨fun fd => if opened fd then some .inherited else none, []⟩
  next := Serving.next

end Cs324.ThreadPool
