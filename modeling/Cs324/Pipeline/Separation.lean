import Cs324.Base.Except
import Cs324.Pipeline.Parsing
import Mathlib.Data.List.Chain

namespace Cs324.Pipeline
set_option autoImplicit true

def maxArgs : Nat := 128

/-- An access of `parseargs` behind the `NULL` of `argv`, or behind the end of the arrays for the
commands. -/
inductive Fault
  | argv (index : Nat)
  | cmds (index : Nat)
  deriving DecidableEq

/-- The loop of `parseargs` over the entries of `argv`, with the commands before `cmd`, whose
number is `cmdindex`. Each turn moves `argindex` on, so that it is behind the `NULL` when there have
been more turns than `argv` has entries. -/
def parseFrom : Nat → List (Option (List UInt8)) → Nat → List Cmd → Cmd →
    Except Fault (List (Option (List UInt8)) × List Cmd)
  | 0, _, argindex, _, _ => .error (.argv argindex)
  | turns + 1, argv, argindex, cmds, cmd => do
    match ← orError (.argv argindex) argv[argindex]? with
    | none => pure (argv, cmds ++ [cmd])
    | some arg =>
      if arg = chars "<" then
        let argv := argv.set argindex none
        match ← orError (.argv (argindex + 1)) argv[argindex + 1]? with
        | none => pure (argv, cmds ++ [cmd])
        | some _ =>
          parseFrom turns argv (argindex + 2) cmds { cmd with stdinRedir := argindex + 1 }
      else if arg = chars ">" then
        let argv := argv.set argindex none
        match ← orError (.argv (argindex + 1)) argv[argindex + 1]? with
        | none => pure (argv, cmds ++ [cmd])
        | some _ =>
          parseFrom turns argv (argindex + 2) cmds { cmd with stdoutRedir := argindex + 1 }
      else if arg = chars "|" then
        let argv := argv.set argindex none
        match ← orError (.argv (argindex + 1)) argv[argindex + 1]? with
        | none => pure (argv, cmds ++ [cmd])
        | some _ =>
          if cmds.length + 1 < maxArgs then
            parseFrom turns argv (argindex + 2) (cmds ++ [cmd]) ⟨argindex + 1, -1, -1⟩
          else throw (.cmds (cmds.length + 1))
      else parseFrom turns argv (argindex + 1) cmds cmd

/-- `parseargs` over the entries of `argv` up to its `NULL`. -/
def parseargsIn (argv : List (Option (List UInt8))) :
    Except Fault (List (Option (List UInt8)) × List Cmd) := do
  match ← orError (.argv 0) argv[0]? with
  | none => pure (argv, [])
  | some _ => parseFrom argv.length argv 1 [] ⟨0, -1, -1⟩

/-- The entries of a vector of arguments. -/
def entries (args : List (List UInt8)) : List (Option (List UInt8)) := args.map some ++ [none]

/-- How the loop goes through the arguments. What follows an operator is not looked at. -/
inductive Turns : List (List UInt8) → Prop
  | done : Turns []
  | word (hp : ¬IsOperator arg) (h : Turns rest) : Turns (arg :: rest)
  | last (ho : IsOperator arg) : Turns [arg]
  | redirect (direction : Direction) (file : List UInt8) (h : Turns rest) :
      Turns (direction.operator :: file :: rest)
  | pipe (first : List UInt8) (h : Turns rest) : Turns (pipeSign :: first :: rest)

theorem turns : (args : List (List UInt8)) → Turns args
  | [] => .done
  | [arg] => by
    by_cases ho : IsOperator arg
    · exact .last ho
    · exact .word ho .done
  | arg :: next :: rest => by
    by_cases ho : IsOperator arg
    · rcases ho with rfl | rfl | rfl
      · exact .redirect .input next (turns rest)
      · exact .redirect .output next (turns rest)
      · exact .pipe next (turns rest)
    · exact .word ho (turns (next :: rest))

theorem parseLoop_last (ho : IsOperator arg) (argindex : Nat) (cmd : Cmd) :
    parseLoop [arg] argindex cmd = ([none], [cmd]) := by
  rw [parseLoop]
  exact congrArg (·, [cmd]) (if_pos ho)

section turn
variable {argv : List (Option (List UInt8))} {argindex n : Nat} {cmds : List Cmd} {cmd : Cmd}

theorem parseFrom_done (h : argv[argindex]? = some none) :
    parseFrom (n + 1) argv argindex cmds cmd = .ok (argv, cmds ++ [cmd]) := by
  rw [parseFrom, h]
  rfl

theorem parseFrom_word (h : argv[argindex]? = some (some arg)) (hp : ¬IsOperator arg) :
    parseFrom (n + 1) argv argindex cmds cmd = parseFrom n argv (argindex + 1) cmds cmd := by
  simp only [IsOperator, not_or] at hp
  rw [parseFrom, h]
  exact (if_neg hp.1).trans ((if_neg hp.2.1).trans (if_neg hp.2.2))

/-- The entry behind an operator is read in `argv` as the operator has been taken out of it. -/
theorem getElem?_behind (a : Option (List UInt8)) :
    (argv.set argindex a)[argindex + 1]? = argv[argindex + 1]? :=
  List.getElem?_set_ne (Nat.succ_ne_self argindex).symm

theorem parseFrom_last (h : argv[argindex]? = some (some arg)) (ho : IsOperator arg)
    (hn : argv[argindex + 1]? = some none) :
    parseFrom (n + 1) argv argindex cmds cmd = .ok (argv.set argindex none, cmds ++ [cmd]) := by
  rw [parseFrom, h]
  simp only [getElem?_behind, hn]
  rcases ho with rfl | rfl | rfl <;> rfl

theorem parseFrom_redirect (direction : Direction)
    (h : argv[argindex]? = some (some direction.operator))
    (hn : argv[argindex + 1]? = some (some file)) :
    parseFrom (n + 1) argv argindex cmds cmd =
      parseFrom n (argv.set argindex none) (argindex + 2) cmds
        (cmd.setRedir (argindex + 1) direction) := by
  rw [parseFrom, h]
  simp only [getElem?_behind, hn]
  cases direction <;> rfl

theorem parseFrom_pipe (h : argv[argindex]? = some (some pipeSign))
    (hn : argv[argindex + 1]? = some (some first)) (hroom : cmds.length + 1 < maxArgs) :
    parseFrom (n + 1) argv argindex cmds cmd =
      parseFrom n (argv.set argindex none) (argindex + 2) (cmds ++ [cmd])
        ⟨argindex + 1, -1, -1⟩ := by
  rw [parseFrom, h]
  simp only [getElem?_behind, hn]
  exact if_pos hroom

end turn

theorem parseLoop_length (args : List (List UInt8)) (argindex : Nat) (cmd : Cmd) :
    (parseLoop args argindex cmd).1.length = args.length ∧
      (parseLoop args argindex cmd).2.length ≤ args.length + 1 := by
  induction turns args generalizing argindex cmd with
  | done => exact ⟨rfl, le_rfl⟩
  | @word arg rest hp _ ih =>
    obtain ⟨h1, h2⟩ := ih (argindex + 1) cmd
    rw [parseLoop_word hp]
    exact ⟨congrArg (· + 1) h1, h2.trans (Nat.le_succ _)⟩
  | last ho =>
    rw [parseLoop_last ho]
    exact ⟨rfl, Nat.le_succ _⟩
  | redirect direction file _ ih =>
    obtain ⟨h1, h2⟩ := ih (argindex + 2) (cmd.setRedir (argindex + 1) direction)
    rw [parseLoop_redirect]
    simp only [List.length_cons]
    omega
  | pipe first _ ih =>
    obtain ⟨h1, h2⟩ := ih (argindex + 2) ⟨argindex + 1, -1, -1⟩
    rw [parseLoop_pipe]
    simp only [List.length_cons]
    omega

theorem entries_cons (arg : List UInt8) (rest : List (List UInt8)) :
    entries (arg :: rest) = some arg :: entries rest := rfl

/-- The loop leaves in `argv` and says of the commands what `parseLoop` does, and reads no entry
behind the `NULL`. -/
theorem parseFrom_eq {args : List (List UInt8)} (hturns : args.length < n)
    (hroom : cmds.length + args.length < maxArgs) (pre : List (Option (List UInt8))) (cmd : Cmd) :
    parseFrom n (pre ++ entries args) pre.length cmds cmd =
      .ok (pre ++ ((parseLoop args pre.length cmd).1 ++ [none]),
        cmds ++ (parseLoop args pre.length cmd).2) := by
  induction turns args generalizing n cmds pre cmd with
  | done =>
    obtain ⟨n, rfl⟩ := Nat.exists_eq_add_one.2 (Nat.zero_lt_of_lt hturns)
    exact parseFrom_done (getElem?_entry pre [] none)
  | @word arg rest hp _ ih =>
    obtain ⟨n, rfl⟩ := Nat.exists_eq_add_one.2 (Nat.zero_lt_of_lt hturns)
    rw [List.length_cons] at hturns hroom
    have hrest := ih (Nat.lt_of_succ_lt_succ hturns) (Nat.lt_of_succ_lt hroom)
      (pre ++ [some arg]) cmd
    rw [← List.append_cons, List.length_append, List.length_singleton] at hrest
    rw [entries_cons, parseFrom_word (getElem?_entry pre _ _) hp, hrest, parseLoop_word hp,
      ← List.append_cons]
    rfl
  | @last arg ho =>
    obtain ⟨n, rfl⟩ := Nat.exists_eq_add_one.2 (Nat.zero_lt_of_lt hturns)
    have hargv : pre ++ entries [arg] = pre ++ [some arg, none] := rfl
    rw [hargv, parseFrom_last (getElem?_entry pre _ _) ho (getElem?_next pre _ _ _), set_entry,
      parseLoop_last ho]
    rfl
  | @redirect rest direction file _ ih =>
    obtain ⟨n, rfl⟩ := Nat.exists_eq_add_one.2 (Nat.zero_lt_of_lt hturns)
    simp only [List.length_cons] at hturns hroom
    have hturns' : rest.length < n := by omega
    have hroom' : cmds.length + rest.length < maxArgs := by omega
    have hrest := ih hturns' hroom' (pre ++ [none, some file])
      (cmd.setRedir (pre.length + 1) direction)
    rw [List.append_assoc, List.length_append] at hrest
    rw [entries_cons, entries_cons, parseFrom_redirect direction (getElem?_entry pre _ _)
      (getElem?_next pre _ _ _), set_entry, parseLoop_redirect]
    refine hrest.trans ?_
    rw [List.append_assoc]
    rfl
  | @pipe rest first _ ih =>
    obtain ⟨n, rfl⟩ := Nat.exists_eq_add_one.2 (Nat.zero_lt_of_lt hturns)
    simp only [List.length_cons] at hturns hroom
    have hturns' : rest.length < n := by omega
    have hroom' : (cmds ++ [cmd]).length + rest.length < maxArgs := by
      rw [List.length_append, List.length_singleton]
      omega
    have hrest := ih hturns' hroom' (pre ++ [none, some first]) ⟨pre.length + 1, -1, -1⟩
    rw [List.append_assoc, List.length_append] at hrest
    rw [entries_cons, entries_cons, parseFrom_pipe (getElem?_entry pre _ _)
      (getElem?_next pre _ _ _) (by omega), set_entry, parseLoop_pipe]
    refine hrest.trans ?_
    rw [List.append_assoc, List.append_assoc]
    rfl

/-- The indexes of `parseargs` stay within its arrays, for as many arguments as `argv` has room
for. -/
theorem parseargsIn_eq {args : List (List UInt8)} (h : args.length < maxArgs) :
    parseargsIn (entries args) = .ok ((parseargs args).1 ++ [none], (parseargs args).2) := by
  cases args with
  | nil => rfl
  | cons arg rest =>
    rw [List.length_cons] at h
    have hturns : rest.length < (entries (arg :: rest)).length := by
      simp only [entries, List.length_append, List.length_map, List.length_cons]
      omega
    have hroom : ([] : List Cmd).length + rest.length < maxArgs := by
      rw [List.length_nil]
      omega
    exact parseFrom_eq hturns hroom [some arg] ⟨0, -1, -1⟩

/-- The vector at `start`: the entries from there up to a `NULL`. -/
structure VectorTo (argv : List (Option (List UInt8))) (start stop : Nat) : Prop where
  lt : start < stop
  words : ∀ k, start ≤ k → k < stop → ∃ word, argv[k]? = some (some word)
  null : argv[stop]? = some none

/-- A redirection is absent, or the index of a file name between two others. -/
def FileBetween (argv : List (Option (List UInt8))) (low high : Nat) (redir : Int) : Prop :=
  redir = -1 ∨ ∃ (k : Nat) (name : List UInt8), redir = k ∧ low < k ∧ k < high ∧
    argv[k]? = some (some name)

/-- The vector of a command ends before an index, and between that end and the index are the files
of its redirections. -/
def SeparatedBy (argv : List (Option (List UInt8))) (cmd : Cmd) (bound : Nat) : Prop :=
  ∃ stop, VectorTo argv cmd.start stop ∧ stop < bound ∧
    ∀ direction, FileBetween argv stop bound (cmd.redir direction)

/-- The start of the command behind the `i`th one, or the end of `argv`. -/
def nextStart (argv : List (Option (List UInt8))) (cmds : List Cmd) (i : Nat) : Nat :=
  (cmds[i + 1]?.map Cmd.start).getD argv.length

/-- Commands from `start` on, each separated from the next, and the last one within `argv`. -/
inductive Separated (argv : List (Option (List UInt8))) : Nat → List Cmd → Prop
  | last (h : SeparatedBy argv cmd argv.length) : Separated argv cmd.start [cmd]
  | next (h : SeparatedBy argv cmd start) (hs : Separated argv start cmds) :
      Separated argv cmd.start (cmd :: cmds)

/-- What `argv` has of a command when the loop is at `argindex`: no operator yet, or all of its
vector. -/
inductive Started (argv : List (Option (List UInt8))) (argindex : Nat) (cmd : Cmd) : Prop
  | words (hlt : cmd.start < argindex)
      (hwords : ∀ k, cmd.start ≤ k → k < argindex → ∃ word, argv[k]? = some (some word))
      (hredir : ∀ direction, cmd.redir direction = -1)
  | files (h : SeparatedBy argv cmd argindex)

section started
variable {argv : List (Option (List UInt8))} {argindex : Nat} {cmd : Cmd}

theorem FileBetween.mono (h : FileBetween argv low high redir) (hle : high ≤ high') :
    FileBetween argv low high' redir :=
  h.imp_right fun ⟨k, name, he, hlow, hhigh, hname⟩ =>
    ⟨k, name, he, hlow, hhigh.trans_le hle, hname⟩

theorem SeparatedBy.mono (h : SeparatedBy argv cmd bound) (hle : bound ≤ bound') :
    SeparatedBy argv cmd bound' := by
  obtain ⟨stop, hvector, hlt, hfiles⟩ := h
  exact ⟨stop, hvector, hlt.trans_le hle, fun direction => (hfiles direction).mono hle⟩

theorem Started.word (h : Started argv argindex cmd) (hword : argv[argindex]? = some (some arg)) :
    Started argv (argindex + 1) cmd := by
  cases h with
  | words hlt hwords hredir =>
    refine .words (Nat.lt_succ_of_lt hlt) (fun k hk hlt => ?_) hredir
    rcases Nat.lt_succ_iff_lt_or_eq.1 hlt with hlt | rfl
    · exact hwords k hk hlt
    · exact ⟨arg, hword⟩
  | files h => exact .files (h.mono (Nat.le_succ _))

/-- The first `NULL` ends the vector, and a later one is behind it. -/
theorem Started.null (h : Started argv argindex cmd) (hnull : argv[argindex]? = some none) :
    SeparatedBy argv cmd (argindex + 1) := by
  cases h with
  | words hlt hwords hredir =>
    exact ⟨argindex, ⟨hlt, hwords, hnull⟩, Nat.lt_succ_self _,
      fun direction => .inl (hredir direction)⟩
  | files h => exact h.mono (Nat.le_succ _)

theorem SeparatedBy.redirect (h : SeparatedBy argv cmd argindex) (direction : Direction)
    (hfile : argv[argindex]? = some (some file)) :
    SeparatedBy argv (cmd.setRedir argindex direction) (argindex + 1) := by
  obtain ⟨stop, hvector, hlt, hfiles⟩ := h
  refine ⟨stop, ?_, Nat.lt_succ_of_lt hlt, fun other => ?_⟩
  · cases direction <;> exact hvector
  · by_cases hd : direction = other
    · subst hd
      rw [setRedir_self]
      exact .inr ⟨argindex, file, rfl, hlt, Nat.lt_succ_self _, hfile⟩
    · rw [setRedir_other hd]
      exact (hfiles other).mono (Nat.le_succ _)

theorem started_at (hfirst : argv[start]? = some (some first)) :
    Started argv (start + 1) ⟨start, -1, -1⟩ := by
  refine .words (Nat.lt_succ_self _) (fun k hk hlt => ?_) fun direction => ?_
  · obtain rfl : k = start := Nat.le_antisymm (Nat.le_of_lt_succ hlt) hk
    exact ⟨first, hfirst⟩
  · cases direction <;> rfl

end started

/-- The commands that the loop finds are separated in the `argv` that it leaves. -/
theorem parseLoop_separated {args : List (List UInt8)} {argv : List (Option (List UInt8))}
    (hargv : argv.drop argindex = (parseLoop args argindex cmd).1 ++ [none])
    (h : Started argv argindex cmd) :
    Separated argv cmd.start (parseLoop args argindex cmd).2 := by
  -- `argv` is the one that is left in the end, so what is known of the entries so far stays true
  induction turns args generalizing argindex cmd with
  | done =>
    obtain ⟨hnull, -⟩ := getElem?_of_drop hargv
    have hend : argv.length = argindex + 1 := length_of_drop hargv
    exact .last (hend ▸ h.null hnull)
  | @word arg rest hp _ ih =>
    rw [parseLoop_word hp] at hargv ⊢
    obtain ⟨hword, hargv⟩ := getElem?_of_drop hargv
    exact ih hargv (h.word hword)
  | last ho =>
    rw [parseLoop_last ho] at hargv ⊢
    obtain ⟨hnull, -⟩ := getElem?_of_drop hargv
    have hend : argv.length = argindex + 2 := length_of_drop hargv
    exact .last ((h.null hnull).mono (by omega))
  | @redirect rest direction file _ ih =>
    rw [parseLoop_redirect] at hargv ⊢
    obtain ⟨hnull, hargv⟩ := getElem?_of_drop hargv
    obtain ⟨hfile, hargv⟩ := getElem?_of_drop hargv
    have hseparated := ih hargv (.files ((h.null hnull).redirect direction hfile))
    cases direction <;> exact hseparated
  | @pipe rest first _ ih =>
    rw [parseLoop_pipe] at hargv ⊢
    obtain ⟨hnull, hargv⟩ := getElem?_of_drop hargv
    obtain ⟨hfirst, hargv⟩ := getElem?_of_drop hargv
    exact .next (h.null hnull) (ih hargv (started_at hfirst))

theorem Separated.head (h : Separated argv start cmds) :
    ∃ cmd more, cmds = cmd :: more ∧ cmd.start = start := by
  cases h with
  | last => exact ⟨_, _, rfl, rfl⟩
  | next => exact ⟨_, _, rfl, rfl⟩

theorem SeparatedBy.lt (h : SeparatedBy argv cmd bound) : cmd.start < bound := by
  obtain ⟨stop, hvector, hlt, -⟩ := h
  exact hvector.lt.trans hlt

/-- The starts of the commands increase. -/
theorem Separated.increasing (h : Separated argv start cmds) :
    (cmds.map Cmd.start).Pairwise (· < ·) := by
  rw [← List.isChain_iff_pairwise]
  induction h with
  | last => exact .singleton _
  | next h hs ih =>
    obtain ⟨cmd, more, rfl, rfl⟩ := hs.head
    exact .cons_cons h.lt ih

theorem Separated.getElem (h : Separated argv start cmds) (hi : cmds[i]? = some cmd) :
    SeparatedBy argv cmd (nextStart argv cmds i) := by
  induction h generalizing i with
  | last h =>
    cases i with
    | zero =>
      cases hi
      exact h
    | succ i => cases hi
  | next h hs ih =>
    cases i with
    | zero =>
      cases hi
      obtain ⟨cmd, more, rfl, rfl⟩ := hs.head
      exact h
    | succ i => exact ih hi

/-- However the operators stand among the arguments, `parseargs` stays within its arrays, and finds
at least one command and no more than there are arguments. Each command has a vector that is
`NULL`-terminated before the next command, with the files of its redirections behind it. -/
theorem commands_separated {args : List (List UInt8)} (hpos : 1 ≤ args.length)
    (hmax : args.length ≤ maxArgs - 1) : ∃ argv cmds,
    parseargsIn (entries args) = .ok (argv, cmds) ∧ argv.length = args.length + 1 ∧
      (1 ≤ cmds.length ∧ cmds.length ≤ args.length) ∧
      (cmds.map Cmd.start).head? = some 0 ∧ (cmds.map Cmd.start).Pairwise (· < ·) ∧
      ∀ (i : Nat) cmd, cmds[i]? = some cmd → SeparatedBy argv cmd (nextStart argv cmds i) := by
  cases args with
  | nil => cases hpos
  | cons arg rest =>
    have hfit : (arg :: rest).length < maxArgs := Nat.lt_of_le_pred (by decide) hmax
    obtain ⟨hentries, hcount⟩ := parseLoop_length rest 1 ⟨0, -1, -1⟩
    have hseparated : Separated ((parseargs (arg :: rest)).1 ++ [none]) 0
        (parseargs (arg :: rest)).2 := parseLoop_separated rfl (started_at rfl)
    obtain ⟨first, more, hcmds, hfirst⟩ := hseparated.head
    refine ⟨_, _, parseargsIn_eq hfit, ?_, ⟨?_, hcount⟩, ?_, hseparated.increasing,
      fun i cmd hi => hseparated.getElem hi⟩
    · rw [List.length_append]
      exact congrArg (· + 2) hentries
    · rw [hcmds]
      exact Nat.le_add_left 1 _
    · rw [hcmds, ← hfirst]
      rfl

/-- `| < < | | >`: operators as commands and as a file, and one with the `NULL` behind it. -/
theorem operators_separated : ∃ argv cmds,
    parseargsIn (entries (["|", "<", "<", "|", "|", ">"].map chars)) = .ok (argv, cmds) ∧
      argv.length = 7 ∧ (1 ≤ cmds.length ∧ cmds.length ≤ 6) ∧
      (cmds.map Cmd.start).head? = some 0 ∧ (cmds.map Cmd.start).Pairwise (· < ·) ∧
      ∀ (i : Nat) cmd, cmds[i]? = some cmd → SeparatedBy argv cmd (nextStart argv cmds i) :=
  commands_separated (by decide) (by decide)

end Cs324.Pipeline
