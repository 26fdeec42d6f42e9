import Cs324.Base.CString
import Cs324.Base.Cursor

namespace Cs324.Pipeline
set_option autoImplicit true

/-- An entry of `cmds`, of `stdin_redir` and of `stdout_redir`: indexes of `argv`. -/
structure Cmd where
  start : Nat
  stdinRedir : Int
  stdoutRedir : Int
  deriving DecidableEq

/-- The loop of `parseargs`, from the argument at `argindex` on, in the command `cmd`. An operator
becomes `NULL`, and what follows it is not looked at again; at the end of the line it does nothing
more. -/
def parseLoop : List (List UInt8) → Nat → Cmd → List (Option (List UInt8)) × List Cmd
  | [], _, cmd => ([], [cmd])
  | [arg], _, cmd =>
    (if arg = chars "<" ∨ arg = chars ">" ∨ arg = chars "|" then [none] else [some arg], [cmd])
  | arg :: next :: rest, argindex, cmd =>
    if arg = chars "<" then
      let (argv, cmds) := parseLoop rest (argindex + 2) { cmd with stdinRedir := argindex + 1 }
      (none :: some next :: argv, cmds)
    else if arg = chars ">" then
      let (argv, cmds) := parseLoop rest (argindex + 2) { cmd with stdoutRedir := argindex + 1 }
      (none :: some next :: argv, cmds)
    else if arg = chars "|" then
      let (argv, cmds) := parseLoop rest (argindex + 2) ⟨argindex + 1, -1, -1⟩
      (none :: some next :: argv, cmd :: cmds)
    else
      let (argv, cmds) := parseLoop (next :: rest) (argindex + 1) cmd
      (some arg :: argv, cmds)

/-- `parseargs`: what it leaves in `argv`, and the commands of the pipeline. -/
def parseargs : List (List UInt8) → List (Option (List UInt8)) × List Cmd
  | [] => ([], [])
  | arg :: rest =>
    let (argv, cmds) := parseLoop rest 1 ⟨0, -1, -1⟩
    (some arg :: argv, cmds)

/-- A redirection is absent, or the index of a file name that is still in `argv`, and then not 0. -/
def NamesFile (argv : List (Option (List UInt8))) (redir : Int) : Prop :=
  redir = -1 ∨ ∃ (k : Nat) (name : List UInt8), redir = k ∧ 0 < k ∧ argv[k]? = some (some name)

def Cmd.NamesFiles (argv : List (Option (List UInt8))) (cmd : Cmd) : Prop :=
  NamesFile argv cmd.stdinRedir ∧ NamesFile argv cmd.stdoutRedir

theorem namesFile_after (pre : List (Option (List UInt8))) (name : List UInt8) (rest) :
    NamesFile (pre ++ none :: some name :: rest) (pre.length + 1) :=
  .inr ⟨pre.length + 1, name, by simp, by omega, getElem?_next pre rest none (some name)⟩

theorem parseLoop_namesFiles (pre : List (Option (List UInt8))) (hpre : pre.length = argindex)
    (h : cmd.NamesFiles (pre ++ (parseLoop args argindex cmd).1)) :
    ∀ c ∈ (parseLoop args argindex cmd).2,
      c.NamesFiles (pre ++ (parseLoop args argindex cmd).1) := by
  have hmove : ∀ a b argv, pre ++ a :: b :: argv = (pre ++ [a, b]) ++ argv := by simp
  fun_induction parseLoop args argindex cmd generalizing pre with
  | case1 => simpa using h
  | case2 => simpa using h
  | case3 next rest argindex cmd argv cmds he ih =>
    have hfile := namesFile_after pre next argv
    rw [he] at ih
    rw [hpre, hmove] at hfile
    rw [hmove] at h ⊢
    exact ih _ (by simp [hpre]) ⟨hfile, h.2⟩ (by simp)
  | case4 next rest argindex cmd argv cmds he _ ih =>
    have hfile := namesFile_after pre next argv
    rw [he] at ih
    rw [hpre, hmove] at hfile
    rw [hmove] at h ⊢
    exact ih _ (by simp [hpre]) ⟨h.1, hfile⟩ (by simp)
  | case5 next rest argindex cmd argv cmds he _ _ ih =>
    rw [he] at ih
    rw [hmove] at h ⊢
    rintro c (_ | ⟨_, hc⟩)
    · exact h
    · exact ih _ (by simp [hpre]) ⟨.inl rfl, .inl rfl⟩ (by simp) c hc
  | case6 arg next rest argindex cmd _ _ _ argv cmds he ih =>
    rw [he] at ih
    rw [List.append_cons] at h ⊢
    exact ih _ (by simp [hpre]) h (by simp)

/-- The indexes that `parseargs` gives for redirections lead to file names. -/
theorem parseargs_namesFiles (args : List (List UInt8)) :
    ∀ cmd ∈ (parseargs args).2, cmd.NamesFiles (parseargs args).1 := by
  cases args with
  | nil => simp [parseargs]
  | cons arg rest => exact parseLoop_namesFiles [some arg] rfl ⟨.inl rfl, .inl rfl⟩

end Cs324.Pipeline
