import Cs324.Base.Except
import Cs324.Tiny.Headers

namespace Cs324.Tiny
set_option autoImplicit true
open Csapp

def MAXBUF : Nat := 8192

/-- What goes wrong when `doit` leaves its arrays or reads one that holds no string. -/
inductive Fault
  | unset
  | uri
  | filename
  | body
  deriving DecidableEq

/-- What `stat` says about a file, whether `Open` succeeds on it, and its bytes. -/
structure File where
  regular : Bool
  readable : Bool
  executable : Bool
  opens : Bool
  content : List UInt8
  deriving DecidableEq

/-- The files by their names, and what a program writes to its standard output, given its file and
its query string. -/
structure World where
  file : List UInt8 → Option File
  program : List UInt8 → List UInt8 → List UInt8

/-- What the arrays of `doit` and its callees hold before they are filled. -/
structure Stack where
  method : List UInt8
  uri : List UInt8
  version : List UInt8
  filename : List UInt8
  header : List UInt8
  body : List UInt8

structure Stack.Sized (stack : Stack) : Prop where
  method : stack.method.length = MAXLINE
  uri : stack.uri.length = MAXLINE
  version : stack.version.length = MAXLINE
  filename : stack.filename.length = MAXLINE
  body : stack.body.length = MAXBUF

/-- The string in an array. -/
def string (array : List UInt8) : Except Fault (List UInt8) :=
  if 0 ∈ array then .ok (cstring array) else .error .unset

/-- `strcpy` and `sprintf` into an array. -/
def strcpy (fault : Fault) (array text : List UInt8) : Except Fault (List UInt8) :=
  orError fault (storeIn array 0 (text ++ [0]))

def strcat (fault : Fault) (array text : List UInt8) : Except Fault (List UInt8) :=
  orError fault (storeIn array (cstring array).length (text ++ [0]))

/-- The next token that `%s` finds, and the text behind it. -/
def scanToken (text : List UInt8) : Option (List UInt8 × List UInt8) :=
  let text := text.dropWhile isspace
  let token := text.takeWhile (!isspace ·)
  if token = [] then none else some (token, text.dropWhile (!isspace ·))

/-- `sscanf(buf, "%s %s %s", method, uri, version)`: a token of `buf` is shorter than the array it
goes to. -/
def scan (stack : Stack) (buf : List UInt8) : Stack :=
  match scanToken (cstring buf) with
  | none => stack
  | some (method, text) =>
    let stack := { stack with method := store stack.method 0 (method ++ [0]) }
    match scanToken text with
    | none => stack
    | some (uri, text) =>
      let stack := { stack with uri := store stack.uri 0 (uri ++ [0]) }
      match scanToken text with
      | none => stack
      | some (version, _) => { stack with version := store stack.version 0 (version ++ [0]) }

/-- The messages that are given to `Rio_writen`, and whether the function returns; it ends the
process otherwise, as a `Rio_writen` that fails does. -/
structure Reply where
  sent : List (List UInt8)
  returns : Bool
  deriving DecidableEq

def clienterror (body cause errnum shortmsg longmsg : List UInt8) : Except Fault Reply := do
  let body ← strcpy .body body (chars "<html><title>Tiny Error</title>")
  let body ← strcpy .body body (cstring body ++ chars "<body bgcolor=ffffff>\r\n")
  let body ← strcpy .body body (cstring body ++ (errnum ++ chars ": " ++ shortmsg ++ crlf))
  let body ← strcpy .body body
    (cstring body ++ (chars "<p>" ++ longmsg ++ chars ": " ++ cause ++ crlf))
  let body ← strcpy .body body
    (cstring body ++ chars "<hr><em>The Tiny Web server</em>\r\n")
  return ⟨[chars "HTTP/1.0 " ++ errnum ++ [32] ++ shortmsg ++ crlf,
    chars "Content-type: text/html\r\n",
    chars "Content-length: " ++ decimal (int32 (cstring body).length) ++ crlf ++ crlf,
    cstring body], true⟩

/-- `parse_uri`: whether the content is static, the file and the query string. -/
def parseUri (stack : Stack) : Except Fault (Bool × List UInt8 × List UInt8) := do
  let uri ← string stack.uri
  let cgiargs := (uri.dropWhile (· != 63)).drop 1
  let uri := uri.takeWhile (· != 63)
  let filename ← strcpy .filename stack.filename [46]
  let filename ← strcat .filename filename uri
  if strstr uri (chars "cgi-bin") = none then
    match uri.getLast? with
    | none => .error .uri
    | some 47 =>
      let filename ← strcat .filename filename (chars "home.html")
      return (true, cstring filename, cgiargs)
    | some _ => return (true, cstring filename, cgiargs)
  else return (false, cstring filename, cgiargs)

def getFiletype (filename : List UInt8) : List UInt8 :=
  if (strstr filename (chars ".html")).isSome then chars "text/html"
  else if (strstr filename (chars ".gif")).isSome then chars "image/gif"
  else if (strstr filename (chars ".png")).isSome then chars "image/png"
  else if (strstr filename (chars ".jpg")).isSome then chars "image/jpeg"
  else chars "text/plain"

/-- `Mmap` of no bytes, or of a negative number of them, fails. -/
def serveStatic (filename : List UInt8) (file : File) : Reply :=
  let filesize := int32 file.content.length
  let buf := chars "HTTP/1.0 200 OK\r\n" ++ chars "Server: Tiny Web Server\r\n" ++
    chars "Connection: close\r\n" ++ (chars "Content-length: " ++ decimal filesize ++ crlf) ++
    (chars "Content-type: " ++ getFiletype filename ++ crlf ++ crlf)
  if !file.opens || filesize ≤ 0 then ⟨[buf], false⟩
  else ⟨[buf, file.content.take filesize.toNat], true⟩

def serveDynamic (world : World) (filename cgiargs : List UInt8) : Reply :=
  ⟨[chars "HTTP/1.0 200 OK\r\n", chars "Server: Tiny Web Server\r\n",
    world.program filename cgiargs], true⟩

/-- `doit` behind the headers. -/
def respond (world : World) (stack : Stack) : Except Fault Reply := do
  let (isStatic, filename, cgiargs) ← parseUri stack
  match world.file filename with
  | none =>
    clienterror stack.body filename (chars "404") (chars "Not found")
      (chars "Tiny couldn't find this file")
  | some file =>
    if isStatic then
      if !file.regular || !file.readable then
        clienterror stack.body filename (chars "403") (chars "Forbidden")
          (chars "Tiny couldn't read the file")
      else return serveStatic filename file
    else if !file.regular || !file.executable then
      clienterror stack.body filename (chars "403") (chars "Forbidden")
        (chars "Tiny couldn't run the CGI program")
    else return serveDynamic world filename cgiargs

/-- What `doit` does once `read_requesthdrs` has returned or ended the process. -/
def proceed (world : World) (stack : Stack) : Option Rio → Except Fault Reply
  | none => .ok ⟨[], false⟩
  | some _ => respond world stack

/-- `tolower` in the C locale, for `strcasecmp`. -/
def tolower (c : UInt8) : UInt8 := if 65 ≤ c ∧ c ≤ 90 then c + 32 else c

/-- `doit`, unless it takes more passes than this to read the headers. -/
def doit (world : World) (stack : Stack) (passes : Nat) (rp : Rio) :
    Option (Except Fault Reply) :=
  let (n, buf, rp) := rioReadlineb rp MAXLINE
  if n < 0 then some (.ok ⟨[], false⟩)
  else if n = 0 then some (.ok ⟨[], true⟩)
  else
    let stack := scan stack buf
    match string stack.method with
    | .error fault => some (.error fault)
    | .ok method =>
      if method.map tolower = (chars "GET").map tolower then
        (readRequesthdrs passes rp stack.header).map (proceed world stack)
      else
        some (clienterror stack.body method (chars "501") (chars "Not Implemented")
          (chars "Tiny does not implement this method"))

end Cs324.Tiny
