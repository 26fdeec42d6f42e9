import Cs324.Base.Block
import Cs324.Base.CLib
import Mathlib.Algebra.Ring.Nat
import Mathlib.Data.Option.Basic

namespace Cs324.EpollProxy
set_option autoImplicit true

def maxObjectSize : Nat := 102400
def maxStates : Nat := 100
def maxHostSize : Nat := 1024
def maxPortSize : Nat := 16
def maxMethodSize : Nat := 32
def maxUriSize : Nat := 4096

instance : NeZero maxStates := ⟨by decide⟩

def userAgentHdr : List UInt8 :=
  chars "User-Agent: Mozilla/5.0 (X11; Linux x86_64; rv:10.0.3) Gecko/20120305 Firefox/10.0.3\r\n"
def connHdr : List UInt8 := chars "Connection: close\r\n"
def proxyConnHdr : List UInt8 := chars "Proxy-Connection: close\r\n"

/-- `STATE_READ_REQ`, `STATE_SEND_REQ`, `STATE_READ_RES` and `STATE_SEND_RES`. -/
inductive State
  | readReq
  | sendReq
  | readRes
  | sendRes
  deriving DecidableEq

/-- `conn_state_t`. `host` and `port` are the strings in those arrays, the three blocks are given
up to the last byte that was stored. -/
structure ConnState where
  clientSocketFd : Int
  serverSocketFd : Int
  host : List UInt8
  port : List UInt8
  clientRequest : List UInt8
  serverRequest : List UInt8
  serverResponse : List UInt8
  state : State
  bytesReadFromClient : Nat
  bytesToWriteServer : Nat
  bytesWrittenToServer : Nat
  bytesReadFromServer : Nat
  bytesToWriteClient : Nat
  bytesWrittenToClient : Nat
  deriving DecidableEq

/-- `init_conn_state`. The two `memset` of `MAX_OBJECT_SIZE` bytes at `host` and `port` stay inside
the structure, in blocks that are cleared anyway. -/
def initConnState : ConnState where
  clientSocketFd := 0
  serverSocketFd := 0
  host := []
  port := []
  clientRequest := []
  serverRequest := []
  serverResponse := []
  state := .readReq
  bytesReadFromClient := 0
  bytesToWriteServer := 0
  bytesWrittenToServer := 0
  bytesReadFromServer := 0
  bytesToWriteClient := 0
  bytesWrittenToClient := 0

/-- The string at `client_request`. If the block is full and has no terminator, it goes on in
`server_request`, the next field. -/
def ConnState.requestString (c : ConnState) : List UInt8 :=
  if c.clientRequest.length < maxObjectSize then cstring c.clientRequest
  else cstring (c.clientRequest ++ c.serverRequest)

theorem requestString_eq (hreq : ConnState.clientRequest c = p) (hempty : c.serverRequest = []) :
    c.requestString = cstring p := by
  simp [ConnState.requestString, hreq, hempty]

def blankLine : List UInt8 := [13, 10, 13, 10]

def isCompleteRequest (request : List UInt8) : Bool := (strstr request blankLine).isSome

/-- What `reformat_client_request` takes from a request. -/
structure Target where
  method : List UInt8
  uri : List UInt8
  host : List UInt8
  port : List UInt8
  deriving DecidableEq

/-- The host and the port in the URL up to its path. -/
def splitHost (hostPort : List UInt8) : List UInt8 × List UInt8 :=
  match strstr hostPort [58] with
  | some portStr => (strtokLeft hostPort 58, portStr.drop 1)
  | none => (hostPort, chars "80")

theorem splitHost_port (hne : host ≠ []) (hc : 58 ∉ host) (port : List UInt8) :
    splitHost (host ++ 58 :: port) = (host, port) := by
  rw [splitHost, strstr_char hc, strtokLeft_append hne hc]
  rfl

theorem splitHost_default (hc : 58 ∉ host) : splitHost host = (host, chars "80") := by
  rw [splitHost, strstr_char_none hc]

/-- The first half of `reformat_client_request`. It is `none` where a string does not fit its array
or a token or a terminator is missing. `block` is what the block allocated for `uri` holds, which
is read as it is if there is no slash. -/
def parseRequest (block request : List UInt8) : Option Target := do
  guard (request.length < maxObjectSize)
  let (skipped, method) ← strtok request 32
  guard (method.length < maxMethodSize)
  let temp := request.set (skipped + method.length) 0
  let start := method.length + 1 + 7
  let (before, url) ← strtok (cstring (temp.drop start)) 32
  let temp := temp.set (start + before + url.length) 0
  guard (url.length < maxHostSize + maxPortSize)
  let hostPort := strtokLeft url 47
  guard (hostPort.length < maxHostSize)
  let (host, port) := splitHost hostPort
  guard (port.length < maxPortSize)
  if url.contains 47 then
    let uriStart := start + before + hostPort.length + 1
    guard (uriStart ≤ request.length)
    let uri := cstring (temp.drop uriStart)
    guard (uri.length < maxUriSize)
    return { method, uri, host, port }
  else
    guard (0 ∈ block.take maxUriSize)
    return { method, uri := cstring block, host, port }

/-- The request that the second half builds. -/
def Target.request (t : Target) : List UInt8 :=
  t.method ++ chars " /" ++ t.uri ++ chars " HTTP/1.0" ++ chars "\r\n" ++
    chars "Host: " ++ t.host ++ chars ":" ++ t.port ++ chars "\r\n" ++
    userAgentHdr ++ connHdr ++ proxyConnHdr ++ chars "\r\n"

theorem Target.request_length (t : Target) : t.request.length =
    t.method.length + t.uri.length + t.host.length + t.port.length + 154 := by
  have hheaders : userAgentHdr.length + connHdr.length + proxyConnHdr.length = 130 := by
    decide +kernel
  have hfixed : (chars " /").length + (chars " HTTP/1.0").length + (chars "\r\n").length +
      (chars "Host: ").length + (chars ":").length = 20 := by
    decide +kernel
  have hline : (chars "\r\n").length = 2 := rfl
  simp only [Target.request, List.length_append]
  omega

def reformatClientRequest (block : List UInt8) (c : ConnState) : Option ConnState :=
  if isCompleteRequest c.requestString then do
    let t ← parseRequest block c.requestString
    let serverRequest := cstring c.serverRequest ++ t.request
    guard (serverRequest.length < maxObjectSize)
    return { c with
      host := t.host
      port := t.port
      serverRequest
      bytesToWriteServer := (cstring serverRequest).length }
  else some c

theorem reformatClientRequest_some (h : reformatClientRequest block c = some c')
    (hc : isCompleteRequest c.requestString) :
    ∃ t, parseRequest block c.requestString = some t ∧
      (cstring c.serverRequest ++ t.request).length < maxObjectSize ∧
      c' = { c with
        host := t.host
        port := t.port
        serverRequest := cstring c.serverRequest ++ t.request
        bytesToWriteServer := (cstring (cstring c.serverRequest ++ t.request)).length } := by
  simp only [reformatClientRequest, hc, ↓reduceIte, Option.bind_eq_bind, Option.bind_eq_some_iff,
    Option.guard_eq_some', Option.pure_def, Option.some.injEq] at h
  obtain ⟨t, ht, _, hl, rfl⟩ := h
  exact ⟨t, ht, hl, rfl⟩

theorem reformatClientRequest_lt (h : reformatClientRequest block c = some c')
    (hc : isCompleteRequest c.requestString) : c'.serverRequest.length < maxObjectSize := by
  obtain ⟨_, _, hlt, rfl⟩ := reformatClientRequest_some h hc
  exact hlt

theorem reformatClientRequest_fds (h : reformatClientRequest block c = some c') :
    c'.clientSocketFd = c.clientSocketFd ∧ c'.serverSocketFd = c.serverSocketFd := by
  by_cases hc : isCompleteRequest c.requestString
  · obtain ⟨_, _, _, rfl⟩ := reformatClientRequest_some h hc
    exact ⟨rfl, rfl⟩
  · rw [reformatClientRequest, if_neg hc] at h
    cases h
    exact ⟨rfl, rfl⟩

example : reformatClientRequest []
    { initConnState with clientRequest := chars "GET http://a:81/b/c HTTP/1.1\r\nX: y\r\n\r\n" } =
    some { initConnState with
      clientRequest := chars "GET http://a:81/b/c HTTP/1.1\r\nX: y\r\n\r\n"
      host := chars "a"
      port := chars "81"
      serverRequest := chars "GET /b/c HTTP/1.0\r\nHost: a:81\r\n" ++ userAgentHdr ++ connHdr ++
        proxyConnHdr ++ chars "\r\n"
      bytesToWriteServer := 163 } := by
  decide +kernel

end Cs324.EpollProxy
