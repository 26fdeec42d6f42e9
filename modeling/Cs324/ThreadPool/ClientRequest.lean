import Cs324.Base.Except
import Cs324.EpollProxy.ConnState
import Mathlib.Data.Vector.Defs

namespace Cs324.ThreadPool
set_option autoImplicit true
open EpollProxy (maxObjectSize blankLine isCompleteRequest Target splitHost)

def httpRequestMaxSize : Nat := 4096
def hostnameMaxSize : Nat := 512
def portMaxSize : Nat := 6
def uriMaxSize : Nat := 4096
def methodSize : Nat := 32
def tempRequestSize : Nat := 500

/-- What the blocks hold when `malloc` returns them, and `temp_request` when it is declared. -/
structure Memory where
  clientReq : List.Vector UInt8 maxObjectSize
  uri : List.Vector UInt8 uriMaxSize
  tempRequest : List.Vector UInt8 tempRequestSize
  serverReq : List.Vector UInt8 httpRequestMaxSize
  serverRes : List.Vector UInt8 maxObjectSize

def cleared : Memory where
  clientReq := List.Vector.replicate _ 0
  uri := List.Vector.replicate _ 0
  tempRequest := List.Vector.replicate _ 0
  serverReq := List.Vector.replicate _ 0
  serverRes := List.Vector.replicate _ 0

/-- Why a worker does not come back from its connection: the process exits, `NULL` and the arrays
`hostname` and `port` are used as they are, or some other access is undefined. -/
inductive Stop
  | exits
  | unset
  | undefined
  deriving DecidableEq

/-- What one call of `read` returns, unless it is 0 or -1. -/
abbrev Chunk := { bytes : List UInt8 // bytes ≠ [] }

def received (reads : List Chunk) : List UInt8 := (reads.map (·.1)).flatten

/-- All that can be read from a socket: after these reads the next one returns -1 or 0. -/
structure Stream where
  reads : List Chunk
  reset : Bool

/-- The loop of `get_client_request`, with the block and the reads that are left at its end. String
functions need a terminator inside the block. -/
def getClientRequest (clientReq : List UInt8) (offset : Nat) (reset : Bool) :
    List Chunk → Except Stop (List UInt8 × List Chunk)
  | [] =>
    if reset then .error .exits
    else if 0 ∈ clientReq then .ok (clientReq, []) else .error .undefined
  | chunk :: reads => do
    let clientReq ← orError .undefined (storeIn clientReq offset chunk.1)
    if 0 ∈ clientReq then
      if isCompleteRequest (cstring clientReq) then return (clientReq, reads)
      else getClientRequest clientReq (offset + chunk.1.length) reset reads
    else .error .undefined

/-- The first half of `reformat_client_request`: `none` where a string does not fit its array or a
token or a terminator is missing. -/
def parseRequest (m : Memory) (request : List UInt8) : Option Target := do
  guard (request.length < tempRequestSize)
  let temp := store m.tempRequest.1 0 (request ++ [0])
  let (skipped, method) ← strtok request 32
  guard (method.length < methodSize)
  let temp := temp.set (skipped + method.length) 0
  let start := method.length + 1 + 7
  guard (0 ∈ temp.drop start)
  let (before, url) ← strtok (cstring (temp.drop start)) 32
  let temp := temp.set (start + before + url.length) 0
  guard (url.length < hostnameMaxSize + portMaxSize)
  let hostPort := strtokLeft url 47
  guard (hostPort.length < hostnameMaxSize)
  let (host, port) := splitHost hostPort
  guard (port.length < portMaxSize)
  let uri := if url.contains 47 then temp.drop (start + before + hostPort.length + 1) else m.uri.1
  guard (0 ∈ uri ∧ (cstring uri).length < uriMaxSize)
  return { method, uri := cstring uri, host, port }

/-- What `strcpy` puts into `temp_request`. -/
theorem store_tempRequest (m : Memory) (request : List UInt8) :
    store m.tempRequest.1 0 (request ++ [0]) =
      request ++ 0 :: m.tempRequest.1.drop (request.length + 1) := by
  simp [store]

/-- What the arrays `hostname` and `port` are set to, and the block that is returned. -/
structure Reformatted where
  hostname : List UInt8
  port : List UInt8
  serverReq : List UInt8
  deriving DecidableEq

def reformatClientRequest (m : Memory) (request : List UInt8) : Except Stop (Option Reformatted) :=
  if isCompleteRequest request then do
    let t ← orError .undefined (parseRequest m request)
    let serverReq := cstring m.serverReq.1 ++ t.request
    if 0 ∈ m.serverReq.1 ∧ serverReq.length < httpRequestMaxSize then
      return some { hostname := t.host, port := t.port, serverReq }
    else .error .undefined
  else return none

/-- The first part of `act_as_server_and_client`, with the reads that are left. -/
def clientToProxy (m : Memory) (client : Stream) :
    Except Stop (Option Reformatted × List Chunk) := do
  let (clientReq, unread) ← getClientRequest m.clientReq.1 0 client.reset client.reads
  let reformatted ← reformatClientRequest m (cstring clientReq)
  return (reformatted, unread)

end Cs324.ThreadPool
