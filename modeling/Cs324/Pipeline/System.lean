import Cs324.Base.Descriptors
import Cs324.Base.Machine
import Cs324.Base.Processes
import Cs324.Pipeline.Arguments

namespace Cs324.Pipeline
set_option autoImplicit true

/-- What a descriptor refers to: what the shell had there, an end of a pipe of `eval`, or a file
that has been opened to be read or to be written. -/
inductive File
  | shell (fd : Nat)
  | readEnd (i : Nat)
  | writeEnd (i : Nat)
  | input (name : List UInt8)
  | output (name : List UInt8)
  deriving DecidableEq

def stdin : Nat := 0
def stdout : Nat := 1

/-- A redirection of a child: `Fopen` returns `fd`, which then takes the place of `std`. -/
def redirect (argv : List (Option (List UInt8))) (redir : Int) (file : List UInt8 → File)
    (fd std : Nat) (t : Descriptors File) : Option (Descriptors File) :=
  if 0 < redir then do
    let name ← argv[redir.toNat]?.join
    let t ← t.install fd (file name)
    let t ← t.dup2 fd std
    t.close fd
  else some t

/-- The end of a pipe takes the place of `std` if it is to. -/
def connect (needed : Prop) [Decidable needed] (fd : Option Nat) (std : Nat)
    (t : Descriptors File) : Option (Descriptors File) :=
  if needed then fd.bind fun fd => t.dup2 fd std else some t

def pipeFds (pipes : List (Nat × Nat)) : List Nat := pipes.flatMap fun (r, w) => [r, w]

/-- What the child for command `i` does to its descriptors before it calls `Execve`, if `Fopen`
returns `inFile` and then `outFile`. -/
def childDescriptors (argv : List (Option (List UInt8))) (cmds : List Cmd)
    (pipes : List (Nat × Nat)) (i inFile outFile : Nat) (t : Descriptors File) :
    Option (Descriptors File) := do
  let cmd ← cmds[i]?
  let t ← redirect argv cmd.stdinRedir .input inFile stdin t
  let t ← redirect argv cmd.stdoutRedir .output outFile stdout t
  let t ← connect (i + 1 < cmds.length ∧ ¬0 < cmd.stdoutRedir) (pipes[i]?.map Prod.snd) stdout t
  let t ← connect (0 < i ∧ ¬0 < cmd.stdinRedir) (pipes[i - 1]?.map Prod.fst) stdin t
  t.closeAll (pipeFds (pipes.take (cmds.length - 1)))

/-- The call that the shell is about to make, in a turn of one of the loops of `eval`. -/
inductive Pc
  | pipe (i : Nat)
  | fork (i : Nat)
  | setpgid (i : Nat)
  | close (i : Nat)
  | waitpid (i : Nat)
  | returned
  | exited
  deriving DecidableEq

/-- A child of `eval`, `children[i]` in the place of `childPids[i]`. `ready` is set when it calls
`Execve`. -/
structure Child where
  pid : Int
  descriptors : Descriptors File
  ready : Bool
  ended : Bool

structure Sys where
  pc : Pc
  descriptors : Descriptors File
  pipes : List (Nat × Nat)
  children : List Child
  family : Family

/-- The heads of the four loops. -/
def waitLoop (numCmds i : Nat) : Pc := if i < numCmds then .waitpid i else .returned

def closeLoop (numCmds i : Nat) : Pc := if i + 1 < numCmds then .close i else waitLoop numCmds 0

def forkLoop (numCmds i : Nat) : Pc := if i < numCmds then .fork i else closeLoop numCmds 0

def pipeLoop (numCmds i : Nat) : Pc := if i + 1 < numCmds then .pipe i else forkLoop numCmds 0

/-- What happens next. `Pipe` or `Fork` returns, `Setpgid`, the two calls of `Close` for a pipe or
`Waitpid` is called by the shell; or a child arrives at `Execve`, performs the exec, or ends. -/
inductive Action
  | pipe (r w : Nat)
  | fork (pid : Int)
  | setpgid
  | close
  | waitpid
  | redirect (i inFile outFile : Nat)
  | execve (i : Nat)
  | exit (i : Nat)
  deriving DecidableEq

/-- `eval` from `parseargs` on, with the children. A call fails only where it has to. -/
def Sys.next (args : List (List UInt8)) (own : Int) (s : Sys) (a : Action) : Option Sys :=
  let (argv, cmds) := parseargs args
  let numCmds := cmds.length
  match a, s.pc with
  | .pipe r w, .pipe i => do
    let t ← s.descriptors.install r (.readEnd i)
    let t ← t.install w (.writeEnd i)
    return { s with descriptors := t, pipes := s.pipes ++ [(r, w)], pc := pipeLoop numCmds (i + 1) }
  | .fork pid, .fork i =>
    if 1 ≤ pid ∧ pid ∉ s.family.members then
      some { s with
        children := s.children ++ [⟨pid, s.descriptors, false, false⟩]
        family := s.family.fork pid own
        pc := .setpgid i }
    else none
  | .setpgid, .setpgid i => do
    let child ← s.children[i]?
    let first ← s.children[0]?
    match s.family.setpgid child.pid first.pid with
    | .ok family => some { s with family, pc := forkLoop numCmds (i + 1) }
    | .error _ => some { s with pc := .exited }
  | .close, .close i => do
    let (r, w) ← s.pipes[i]?
    let t ← s.descriptors.closeAll [r, w]
    return { s with descriptors := t, pc := closeLoop numCmds (i + 1) }
  | .waitpid, .waitpid i => do
    let child ← s.children[i]?
    if child.ended then
      some { s with
        family.members := s.family.members.erase child.pid
        pc := waitLoop numCmds (i + 1) }
    else none
  | .redirect i inFile outFile, _ => do
    let child ← s.children[i]?
    if child.ready ∨ child.ended then none
    else
      let t ← childDescriptors argv cmds s.pipes i inFile outFile child.descriptors
      return { s with
        children := s.children.set i { child with descriptors := t, ready := true } }
  | .execve i, _ => do
    let child ← s.children[i]?
    if child.ready ∧ ¬child.ended ∧ ¬s.family.execed child.pid then
      some { s with family := s.family.exec child.pid }
    else none
  | .exit i, _ => do
    let child ← s.children[i]?
    if child.ended then none
    else some { s with children := s.children.set i { child with ended := true } }
  | _, _ => none

def shellDescriptors (opened : Nat → Bool) : Descriptors File := fun fd =>
  if opened fd then some (.shell fd) else none

/-- `eval` in a shell with these open descriptors, in the process group `own`. -/
def pipeline (args : List (List UInt8)) (opened : Nat → Bool) (own : Int) : Machine Sys Action where
  start :=
    { pc := pipeLoop (parseargs args).2.length 0
      descriptors := shellDescriptors opened
      pipes := []
      children := []
      family := ⟨∅, fun _ => own, fun _ => false⟩ }
  next := Sys.next args own

end Cs324.Pipeline
