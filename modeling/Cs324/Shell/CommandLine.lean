import Cs324.Base.CLib

namespace Cs324.Shell
set_option autoImplicit true

/-- `strchr` and the cut at what it finds: the bytes before it and those after it. -/
def cutAt (delim : UInt8) (buf : List UInt8) : Option (List UInt8 × List UInt8) :=
  if delim ∈ buf then some (buf.takeWhile (· != delim), (buf.dropWhile (· != delim)).drop 1)
  else none

/-- The next argument of a line: what a quote or a space ends, once leading spaces are skipped. -/
def nextArgument (buf : List UInt8) : Option (List UInt8 × List UInt8) :=
  match buf.dropWhile (· == 32) with
  | 39 :: buf => cutAt 39 buf
  | buf => cutAt 32 buf

/-- The loop of `parseline`. An entry of `argv` is the memory from its pointer on: the argument,
the `NUL` that replaced its delimiter, and the rest of the line. -/
def arguments : Nat → List UInt8 → List (List UInt8)
  | 0, _ => []
  | fuel + 1, buf =>
    match nextArgument buf with
    | some (argument, rest) => (argument ++ 0 :: rest) :: arguments fuel rest
    | none => []

/-- `parseline` with the `argv` it fills, up to the `NULL` that ends it, as if its arrays had room
for every line. `parselineIn` is the function over the arrays. -/
def parseline (cmdline : List UInt8) : Bool × List (List UInt8) :=
  let argv := arguments (cmdline.length + 1) (cmdline.dropLast ++ [32])
  match argv.getLast? with
  | none => (true, [])
  | some last => if last.head? = some 38 then (true, argv.dropLast) else (false, argv)

inductive Command
  | fg | bg
  deriving DecidableEq, Repr

def Command.word : Command → List UInt8
  | .fg => chars "fg"
  | .bg => chars "bg"

/-- What `eval` does with a line before it forks. -/
inductive Request
  | nothing
  | quit
  | bgfg (command : Command) (argument : Option (List UInt8))
  | jobs
  | launch (bg : Bool)
  deriving DecidableEq

/-- `eval` up to `builtin_cmd`. -/
def request (cmdline : List UInt8) : Request :=
  let (bg, argv) := parseline cmdline
  match argv with
  | [] => .nothing
  | command :: argv =>
    if cstring command = chars "quit" then .quit
    else if cstring command = chars "fg" then .bgfg .fg argv.head?
    else if cstring command = chars "bg" then .bgfg .bg argv.head?
    else if cstring command = chars "jobs" then .jobs
    else .launch bg

example : request (chars "./myspin '4 5' &\n") = .launch true := by decide
example : request (chars "  fg   %2\n") = .bgfg .fg (some (chars "%2" ++ [0])) := by decide

end Cs324.Shell
