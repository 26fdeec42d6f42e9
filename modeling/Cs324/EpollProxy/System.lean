import Cs324.Base.Machine
import Cs324.EpollProxy.ConnState
import Mathlib.Data.Finset.Basic

namespace Cs324.EpollProxy
set_option autoImplicit true

/-- The descriptors of the process. `attached` is the slot with which an open client socket is
registered and `accepted` numbers the event of the listen socket that brought it; `sent` and
`received` are the bytes that a socket has taken from `write` and given to `read` since it was
opened. -/
structure Sockets where
  opened : Finset Int
  attached : Int → Option (Fin maxStates)
  accepted : Int → Option Nat
  sent : Int → List UInt8
  received : Int → List UInt8

/-- `accept`, `socket` and `connect` hand out a descriptor that is not open. -/
def Sockets.openSocket (k : Sockets) (fd : Int) : Sockets :=
  { k with
    opened := insert fd k.opened
    sent := Function.update k.sent fd []
    received := Function.update k.received fd [] }

def Sockets.attach (k : Sockets) (fd : Int) (i : Fin maxStates) (event : Nat) : Sockets :=
  { k with
    attached := Function.update k.attached fd (some i)
    accepted := Function.update k.accepted fd (some event) }

def Sockets.close (k : Sockets) (fd : Int) : Sockets :=
  { k with
    opened := k.opened.erase fd
    attached := Function.update k.attached fd none
    accepted := Function.update k.accepted fd none }

def Sockets.read (k : Sockets) (fd : Int) (bytes : List UInt8) : Sockets :=
  { k with received := Function.update k.received fd (k.received fd ++ bytes) }

def Sockets.write (k : Sockets) (fd : Int) (bytes : List UInt8) : Sockets :=
  { k with sent := Function.update k.sent fd (k.sent fd ++ bytes) }

/-- The system call that the proxy is about to make, for a slot of `conn_states`. -/
inductive Pc
  | main
  | readRequest (i : Fin maxStates)
  | rewriting (i : Fin maxStates)
  | connecting (i : Fin maxStates)
  | sendRequest (i : Fin maxStates)
  | watchServer (i : Fin maxStates)
  | readResponse (i : Fin maxStates)
  | watchClient (i : Fin maxStates)
  | sendResponse (i : Fin maxStates)
  | exited
  | undefined
  deriving DecidableEq

/-- The proxy. `listens` counts the events of the listen socket that were handled. -/
structure Sys where
  pc : Pc
  connStates : Fin maxStates → ConnState
  connStateIdx : Fin maxStates
  listens : Nat
  sockets : Sockets

/-- What `read` gives: bytes (none if it returns 0), or -1 with `EAGAIN` or another `errno`. -/
inductive ReadResult
  | data (bytes : List UInt8)
  | again
  | error
  deriving DecidableEq

inductive WriteResult
  | count (n : Nat)
  | again
  | error
  deriving DecidableEq

/-- `EPOLLERR`, `EPOLLHUP` and `EPOLLRDHUP` of an event. -/
structure Flags where
  err : Bool
  hup : Bool
  rdhup : Bool
  deriving DecidableEq

def Flags.none : Flags := ⟨false, false, false⟩

/-- Events with one of the flags are skipped. -/
def Flags.skip (flags : Flags) : Bool := flags.err || flags.hup || flags.rdhup

/-- What `accept` gives when the listen socket is handled: the descriptors of the clients that are
waiting, then 0 or -1, and whether each descriptor could be registered. -/
structure Accepts where
  clients : List Int
  zero : Bool
  registered : Bool
  deriving DecidableEq

def Accepts.of (clients : List Int) : Accepts := ⟨clients, false, true⟩

/-- What the proxy gets from the system. `ptr` is `data.ptr` of an event, which points to a slot or
to `listen_conn_state`; `malloc` gives the contents of the block for `uri`; `connect` is about the
whole of `connect_to_server`. -/
inductive Action
  | event (ptr : Option (Fin maxStates)) (flags : Flags) (accepts : Accepts)
  | read (r : ReadResult)
  | write (r : WriteResult)
  | malloc (block : List UInt8)
  | connect (result : Option Int) (registered : Bool)
  | epollCtl (registered : Bool)
  deriving DecidableEq

def Sys.setConn (s : Sys) (i : Fin maxStates) (c : ConnState) : Sys :=
  { s with connStates := Function.update s.connStates i c }

/-- The turn of the loop of `connect_to_client` for one client. -/
def Sys.attach (s : Sys) (i : Fin maxStates) (fd : Int) : Sys :=
  { s.setConn i { s.connStates i with clientSocketFd := fd } with
    sockets := (s.sockets.openSocket fd).attach fd i s.listens }

/-- `connect_to_client`, up to the last client. -/
def Sys.connectToClient (s : Sys) (i : Fin maxStates) : List Int → Option Sys
  | [] => some s
  | fd :: fds =>
    if 0 < fd ∧ fd ∉ s.sockets.opened then (s.attach i fd).connectToClient i fds else none

def nextIdx (i : Fin maxStates) : Fin maxStates :=
  if h : i + 1 < maxStates then ⟨i + 1, h⟩ else 0

/-- The branch of `main` for the listen socket. -/
def Sys.listen (s : Sys) (accepts : Accepts) : Option Sys := do
  let t ← s.connectToClient s.connStateIdx accepts.clients
  let t := { t with connStateIdx := nextIdx s.connStateIdx, listens := s.listens + 1 }
  if !accepts.registered then return { t with pc := .exited }
  if !accepts.zero then return t
  if 0 ∈ t.sockets.opened then none else return { t with sockets := t.sockets.openSocket 0 }

def State.handler (i : Fin maxStates) : State → Pc
  | .readReq => .readRequest i
  | .sendReq => .sendRequest i
  | .readRes => .readResponse i
  | .sendRes => .sendResponse i

/-- The body of the loop of `main`, up to the first call of the handler. -/
def Sys.handle (s : Sys) (listenfd : Int) (ptr : Option (Fin maxStates)) (flags : Flags)
    (accepts : Accepts) : Option Sys :=
  if flags.skip then some s
  else match ptr with
    | none => s.listen accepts
    | some i =>
      if (s.connStates i).clientSocketFd = listenfd then s.listen accepts
      else some { s with pc := (s.connStates i).state.handler i }

/-- `read_request`, for one result of `read`. -/
def Sys.readRequest (s : Sys) (i : Fin maxStates) : ReadResult → Option Sys
  | .data bytes =>
    let c := s.connStates i
    if bytes.length ≤ sizeT (maxObjectSize - c.bytesReadFromClient) then
      let c' := { c with
        clientRequest := store c.clientRequest c.bytesReadFromClient bytes
        bytesReadFromClient := c.bytesReadFromClient + bytes.length }
      some { s.setConn i c' with
        pc := if isCompleteRequest c'.requestString then .rewriting i else .readRequest i
        sockets := s.sockets.read c.clientSocketFd bytes }
    else none
  | .again => some { s with pc := .main }
  | .error =>
    let c := s.connStates i
    some { s with
      pc := .main
      sockets := (s.sockets.close c.clientSocketFd).close c.serverSocketFd }

/-- `reformat_client_request`, called by `read_request`. -/
def Sys.rewrite (s : Sys) (i : Fin maxStates) (block : List UInt8) : Sys :=
  match reformatClientRequest block (s.connStates i) with
  | some c => { s.setConn i c with pc := .connecting i }
  | none => { s with pc := .undefined }

/-- `connect_to_server` and the rest of `read_request`. -/
def Sys.connect (s : Sys) (i : Fin maxStates) (registered : Bool) : Option Int → Option Sys
  | some fd =>
    if 0 ≤ fd ∧ fd ∉ s.sockets.opened then
      let c := { s.connStates i with serverSocketFd := fd }
      let t := { s with sockets := s.sockets.openSocket fd }
      some (if registered then { t.setConn i { c with state := .sendReq } with pc := .main }
        else { t.setConn i c with pc := .exited })
    else none
  | none => some { s with pc := .exited }

/-- `send_request`, for one result of `write`. A socket takes 0 bytes only if asked to. -/
def Sys.sendRequest (s : Sys) (i : Fin maxStates) : WriteResult → Option Sys
  | .count n =>
    let c := s.connStates i
    let asked := sizeT (c.bytesToWriteServer - c.bytesWrittenToServer)
    if n ≤ asked ∧ (n = 0 → asked = 0) then
      if n = 0 then some { s with pc := .watchServer i }
      else some { s.setConn i { c with bytesWrittenToServer := c.bytesWrittenToServer + n } with
        sockets := s.sockets.write c.serverSocketFd
          (load c.serverRequest c.bytesWrittenToServer n) }
    else none
  | .again => some { s with pc := .main }
  | .error =>
    let c := s.connStates i
    some { s with
      pc := .main
      sockets := (s.sockets.close c.clientSocketFd).close c.serverSocketFd }

/-- The end of `send_request` and of `read_response`, which register a socket for what comes
next. -/
def Sys.watch (s : Sys) (i : Fin maxStates) (state : State) (registered : Bool) : Sys :=
  if registered then { s.setConn i { s.connStates i with state } with pc := .main }
  else { s with pc := .exited }

/-- `read_response`, for one result of `read`. -/
def Sys.readResponse (s : Sys) (i : Fin maxStates) (r : ReadResult) : Option Sys :=
  let c := s.connStates i
  let ended := { c with bytesToWriteClient := c.bytesReadFromServer }
  match r with
  | .data bytes =>
    if bytes.length ≤ sizeT (maxObjectSize - c.bytesReadFromServer) then
      if bytes = [] then
        some { s.setConn i ended with
          pc := .watchClient i
          sockets := s.sockets.close c.serverSocketFd }
      else
        some { s.setConn i { c with
            serverResponse := store c.serverResponse c.bytesReadFromServer bytes
            bytesReadFromServer := c.bytesReadFromServer + bytes.length } with
          sockets := s.sockets.read c.serverSocketFd bytes }
    else none
  | .again => some { s.setConn i ended with pc := .main }
  | .error =>
    some { s.setConn i ended with
      pc := .main
      sockets := (s.sockets.close c.clientSocketFd).close c.serverSocketFd }

/-- `send_response`, for one result of `write`. However it ends, `main` calls `init_conn_state`. -/
def Sys.sendResponse (s : Sys) (i : Fin maxStates) (r : WriteResult) : Option Sys :=
  let c := s.connStates i
  match r with
  | .count n =>
    let asked := sizeT (c.bytesToWriteClient - c.bytesWrittenToClient)
    if n ≤ asked ∧ (n = 0 → asked = 0) then
      if n = 0 then
        some { s.setConn i initConnState with
          pc := .main
          sockets := s.sockets.close c.clientSocketFd }
      else some { s.setConn i { c with bytesWrittenToClient := c.bytesWrittenToClient + n } with
        sockets := s.sockets.write c.clientSocketFd
          (load c.serverResponse c.bytesWrittenToClient n) }
    else none
  | .again => some { s.setConn i initConnState with pc := .main }
  | .error =>
    some { s.setConn i initConnState with
      pc := .main
      sockets := s.sockets.close c.clientSocketFd }

def Sys.next (listenfd : Int) (s : Sys) (a : Action) : Option Sys :=
  match s.pc, a with
  | .main, .event ptr flags accepts => s.handle listenfd ptr flags accepts
  | .readRequest i, .read r => s.readRequest i r
  | .rewriting i, .malloc block => some (s.rewrite i block)
  | .connecting i, .connect result registered => s.connect i registered result
  | .sendRequest i, .write r => s.sendRequest i r
  | .watchServer i, .epollCtl registered => some (s.watch i .readRes registered)
  | .readResponse i, .read r => s.readResponse i r
  | .watchClient i, .epollCtl registered => some (s.watch i .sendRes registered)
  | .sendResponse i, .write r => s.sendResponse i r
  | _, _ => none

/-- The proxy when `main` enters its loop, with the descriptors that are open by then. -/
def proxy (listenfd : Int) (fds : Finset Int) : Machine Sys Action where
  start :=
    { pc := .main
      connStates := fun _ => initConnState
      connStateIdx := 0
      listens := 0
      sockets :=
        { opened := fds
          attached := fun _ => none
          accepted := fun _ => none
          sent := fun _ => []
          received := fun _ => [] } }
  next := Sys.next listenfd

end Cs324.EpollProxy
