import Cs324.Base.Machine
import Cs324.Shell.CommandLine
import Cs324.Shell.Jobs
import Mathlib.Data.Finset.Basic

namespace Cs324.Shell
set_option autoImplicit true

/-- What has become of a child; a stop or an end stays to be reported by `waitpid`. -/
inductive ChildStatus
  | running
  | stopped (sig : Int) (reported : Bool)
  | killed (sig : Int)
  | exited (code : Int)
  deriving DecidableEq

/-- The three kinds of status that the handler tells apart. -/
inductive Report
  | stopped (sig : Int)
  | killed (sig : Int)
  | exited
  deriving DecidableEq

def ChildStatus.report : ChildStatus → Option Report
  | .running | .stopped _ true => none
  | .stopped sig false => some (.stopped sig)
  | .killed sig => some (.killed sig)
  | .exited _ => some .exited

def ChildStatus.Ended : ChildStatus → Prop
  | .running | .stopped _ _ => False
  | .killed _ | .exited _ => True

instance (status : ChildStatus) : Decidable status.Ended := by
  cases status <;> unfold ChildStatus.Ended <;> infer_instance

/-- The effect of `SIGCONT` on a child. -/
def ChildStatus.continued : ChildStatus → ChildStatus
  | .stopped _ _ => .running
  | status => status

/-- The statement that the main flow is about to execute. `slot` stands for the pointer `job` of
`do_bgfg` and `cpid`, `jid`, `pid` for the local variables of those names. -/
inductive Pc
  | prompt
  | block (bg : Bool) (cmdline : List UInt8)
  | fork (bg : Bool) (cmdline : List UInt8)
  | setpgid (bg : Bool) (cmdline : List UInt8) (cpid : Int)
  | addjob (bg : Bool) (cmdline : List UInt8) (cpid : Int)
  | unblock (bg : Bool) (cmdline : List UInt8) (cpid : Int)
  | announce (cmdline : List UInt8) (cpid : Int)
  | waitfg (pid : Int)
  | sleep (pid : Int)
  | bgfg (command : Command) (argument : Option (List UInt8))
  | jidPid (command : Command) (jid : Int) (slot : Fin maxJobs)
  | jidState (command : Command) (jid : Int) (slot : Fin maxJobs) (pid : Int)
  | jidPrint (jid : Int) (slot : Fin maxJobs) (pid : Int)
  | jidCont (command : Command) (slot : Fin maxJobs) (pid : Int)
  | jidWait (slot : Fin maxJobs)
  | pidCont (command : Command) (slot : Fin maxJobs) (pid : Int)
  | pidState (command : Command) (slot : Fin maxJobs) (pid : Int)
  | pidPrint (slot : Fin maxJobs) (pid : Int)
  | pidWait (slot : Fin maxJobs)
  | listjobs (slot : Nat)
  | exited
  | crashed
  deriving DecidableEq

/-- The part of `eval` between its two calls of `sigprocmask`. -/
def Pc.masked : Pc → Bool
  | .fork _ _ | .setpgid _ _ _ | .addjob _ _ _ | .unblock _ _ _ => true
  | _ => false

/-- The child that `eval` has forked and not yet added to the table. -/
def Pc.newborn : Pc → Option Int
  | .setpgid _ _ cpid | .addjob _ _ cpid => some cpid
  | _ => none

def Pc.Live (pc : Pc) : Prop := pc ≠ .exited ∧ pc ≠ .crashed

instance (pc : Pc) : Decidable pc.Live := inferInstanceAs (Decidable (_ ∧ _))

inductive Event
  | started (pid : Int)
  | continued (pid : Int)
  | reported (pid : Int) (report : Report)
  | signalled (pid sig : Int)
  | printed (output : Output)
  deriving DecidableEq

/-- The shell with its children. `pending` and `blocked` are about `SIGCHLD`, `handling` is set
while `sigchld_handler` runs, `children` are those that `waitpid` has not reported as ended, and
`log` has the newest event first. -/
structure Sys where
  vars : Globals
  pc : Pc
  blocked : Bool
  handling : Bool
  pending : Bool
  children : Finset Int
  status : Int → ChildStatus
  log : List Event

/-- What a statement of the main flow does besides moving on. -/
inductive Effect
  | nothing
  | mask (blocked : Bool)
  | addjob (pid pgid : Int) (state : JobState) (cmdline : List UInt8)
  | setState (slot : Fin maxJobs) (state : JobState)
  | sigcont (pid : Int)
  | print (output : Output)

def Command.state : Command → JobState
  | .fg => .fg
  | .bg => .bg

/-- The argument checks and the lookup of `do_bgfg`. -/
def bgfgLookup (jobs : JobTable) (command : Command) : Option (List UInt8) → Effect × Pc
  | none => (.print (.needsArgument command.word), .prompt)
  | some argument =>
    if argument.headD 0 = 37 then
      match getjobjid jobs (atoi (argument.drop 1)) with
      | some slot => (.nothing, .jidPid command (atoi (argument.drop 1)) slot)
      | none => (.print (.noSuchJob (cstring argument)), .prompt)
    else if isdigit (argument.getD 1 0) then
      match getjobpid jobs (atoi (cstring argument)) with
      | some slot => (.nothing, .pidCont command slot (atoi (cstring argument)))
      | none => (.print (.noSuchProcess (atoi (cstring argument))), .prompt)
    else (.print (.badArgument command.word), .prompt)

/-- The statements of `eval`, `do_bgfg`, `waitfg` and `listjobs`: what each one does and which one
comes next. -/
def stmt (jobs : JobTable) : Pc → Option (Effect × Pc)
  | .prompt | .fork _ _ | .exited | .crashed => none
  | .block bg cmdline => some (.mask true, .fork bg cmdline)
  | .setpgid bg cmdline cpid => some (.nothing, .addjob bg cmdline cpid)
  | .addjob bg cmdline cpid =>
    some (.addjob cpid 0 (if bg then .bg else .fg) cmdline, .unblock bg cmdline cpid)
  | .unblock bg cmdline cpid =>
    some (.mask false, if bg then .announce cmdline cpid else .waitfg cpid)
  | .announce cmdline cpid =>
    some (.print (.jobLine (pid2jid jobs cpid) cpid cmdline), .waitfg cpid)
  | .waitfg pid => some (.nothing, if fgpid jobs = pid then .sleep pid else .prompt)
  | .sleep pid => some (.nothing, .waitfg pid)
  | .bgfg command argument => some (bgfgLookup jobs command argument)
  | .jidPid command jid slot => some (.nothing, .jidState command jid slot (jobs slot).pid)
  | .jidState command jid slot pid =>
    some (.setState slot command.state,
      match command with
      | .fg => .jidCont .fg slot pid
      | .bg => .jidPrint jid slot pid)
  | .jidPrint jid slot pid =>
    some (.print (.jobLine jid pid (jobs slot).cmdline), .jidCont .bg slot pid)
  | .jidCont command slot pid =>
    some (.sigcont pid,
      match command with
      | .fg => .jidWait slot
      | .bg => .prompt)
  | .jidWait slot => some (.nothing, .waitfg (jobs slot).pid)
  | .pidCont command slot pid => some (.sigcont pid, .pidState command slot pid)
  | .pidState command slot pid =>
    some (.setState slot command.state,
      match command with
      | .fg => .pidWait slot
      | .bg => .pidPrint slot pid)
  | .pidPrint slot pid =>
    some (.print (.jobLine (jobs slot).jid pid (jobs slot).cmdline), .prompt)
  | .pidWait slot => some (.nothing, .waitfg (jobs slot).pid)
  | .listjobs slot =>
    if h : slot < maxJobs then
      some (if Occupied jobs ⟨slot, h⟩ then .print (.listedJob slot (jobs ⟨slot, h⟩)) else .nothing,
        .listjobs (slot + 1))
    else some (.nothing, .prompt)

def setState (jobs : JobTable) (slot : Fin maxJobs) (state : JobState) : JobTable :=
  Function.update jobs slot { jobs slot with state }

def Sys.perform (s : Sys) : Effect → Sys
  | .nothing => s
  | .mask blocked => { s with blocked }
  | .addjob pid pgid state cmdline =>
    let added := addjob s.vars pid pgid state cmdline
    { s with vars := added.2.1, log := added.2.2.map .printed ++ s.log }
  | .setState slot state => { s with vars.jobs := setState s.vars.jobs slot state }
  | .sigcont pid =>
    { s with
      status := Function.update s.status pid (s.status pid).continued
      log := .continued pid :: s.log }
  | .print output => { s with log := .printed output :: s.log }

/-- What happens next. A line or the end of the input is read, the main flow executes a statement,
`fork` returns, or a system call of `eval` fails; the handler is entered, reports on a child, or
finds nothing more to report; a signal other than `SIGCHLD` is handled; a child changes its
status, or `SIGCHLD` comes for another reason. -/
inductive Action
  | line (cmdline : List UInt8)
  | eof
  | stmt
  | fork (pid : Int)
  | fail
  | deliver
  | report (pid : Int)
  | handled
  | sigint
  | sigtstp
  | sigquit
  | stop (pid sig : Int)
  | resume (pid : Int)
  | exit (pid code : Int)
  | kill (pid sig : Int)
  | sigchld
  deriving DecidableEq

/-- Where `main` is after it has read a line. -/
def Request.pc (cmdline : List UInt8) : Request → Pc
  | .nothing => .prompt
  | .quit => .exited
  | .bgfg command argument => .bgfg command argument
  | .jobs => .listjobs 0
  | .launch bg => .block bg cmdline

/-- One turn of the loop of `sigchld_handler`, for a child that `waitpid` reports. -/
def Sys.handle (s : Sys) (pid : Int) (report : Report) : Sys :=
  let jid := pid2jid s.vars.jobs pid
  match report with
  | .stopped sig =>
    match getjobpid s.vars.jobs pid with
    | some slot =>
      { s with
        vars.jobs := setState s.vars.jobs slot .st
        status := Function.update s.status pid (.stopped sig true)
        log := .printed (.stoppedBy jid pid sig) :: .reported pid report :: s.log }
    | none => { s with pc := .crashed, log := .reported pid report :: s.log }
  | .killed sig =>
    { s with
      vars := (deletejob s.vars pid).2
      children := s.children.erase pid
      log := .printed (.terminatedBy jid pid sig) :: .reported pid report :: s.log }
  | .exited =>
    { s with
      vars := (deletejob s.vars pid).2
      children := s.children.erase pid
      log := .reported pid report :: s.log }

/-- `sigint_handler` and `sigtstp_handler`, which differ in the signal they pass on. -/
def Sys.forward (s : Sys) (sig : Int) : Sys :=
  let pid := fgpid s.vars.jobs
  if pid ≠ 0 then { s with log := .signalled (-1 * pid) sig :: s.log } else s

def Sys.become (s : Sys) (pid : Int) (status : ChildStatus) : Sys :=
  { s with status := Function.update s.status pid status, pending := true }

def ChildStatus.isStopped : ChildStatus → Bool
  | .stopped _ _ => true
  | _ => false

/-- Actions of the main flow wait while the handler runs; a live shell takes the others at any
time. -/
def Sys.next (s : Sys) (a : Action) : Option Sys :=
  if s.pc.Live then
    match a with
    | .line cmdline =>
      if s.pc = .prompt ∧ !s.handling then
        some { s with pc := (request (cstring cmdline)).pc (cstring cmdline) }
      else none
    | .eof => if s.pc = .prompt ∧ !s.handling then some { s with pc := .exited } else none
    | .stmt =>
      if s.handling then none
      else (stmt s.vars.jobs s.pc).map fun (effect, pc) => { s.perform effect with pc }
    | .fork pid =>
      match s.pc with
      | .fork bg cmdline =>
        if 1 ≤ pid ∧ pid ∉ s.children then
          some { s with
            pc := .setpgid bg cmdline pid
            children := insert pid s.children
            status := Function.update s.status pid .running
            log := .started pid :: s.log }
        else none
      | _ => none
    | .fail =>
      match s.pc with
      | .fork _ _ | .setpgid _ _ _ => some { s with pc := .exited }
      | _ => none
    | .deliver =>
      if s.pending ∧ !s.blocked ∧ !s.handling then
        some { s with pending := false, handling := true }
      else none
    | .report pid =>
      if s.handling ∧ pid ∈ s.children then (s.status pid).report.map (s.handle pid) else none
    | .handled =>
      if s.handling ∧ ∀ pid ∈ s.children, (s.status pid).report = none then
        some { s with handling := false }
      else none
    | .sigint => some (s.forward 2)
    | .sigtstp => some (s.forward 20)
    | .sigquit => some { s with pc := .exited }
    | .stop pid sig =>
      if pid ∈ s.children ∧ s.status pid = .running then some (s.become pid (.stopped sig false))
      else none
    | .resume pid =>
      if pid ∈ s.children ∧ (s.status pid).isStopped then some (s.become pid .running) else none
    | .exit pid code =>
      if pid ∈ s.children ∧ s.status pid = .running then some (s.become pid (.exited code))
      else none
    | .kill pid sig =>
      if pid ∈ s.children ∧ (s.status pid = .running ∨ (s.status pid).isStopped) then
        some (s.become pid (.killed sig))
      else none
    | .sigchld => some { s with pending := true }
  else none

/-- The shell when `main` enters its loop. -/
def shell (verbose : Bool) (memory : JobTable) : Machine Sys Action where
  start :=
    { vars := ⟨verbose, 1, initjobs memory⟩
      pc := .prompt
      blocked := false
      handling := false
      pending := false
      children := ∅
      status := fun _ => .running
      log := [] }
  next := Sys.next

end Cs324.Shell
