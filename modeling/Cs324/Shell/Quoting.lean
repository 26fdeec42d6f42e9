import Cs324.Shell.CommandLine

namespace Cs324.Shell
set_option autoImplicit true

def maxLine : Nat := 1024
def maxArgs : Nat := 128

/-- An argument as it is typed. -/
inductive Argument
  | bare (text : List UInt8)
  | quoted (text : List UInt8)

namespace Argument

def text : Argument → List UInt8
  | bare text | quoted text => text

def bytes : Argument → List UInt8
  | bare text => text
  | quoted text => 39 :: text ++ [39]

def WellFormed : Argument → Prop
  | bare text => text ≠ [] ∧ text.head? ≠ some 39 ∧ ∀ c ∈ text, c ≠ 32 ∧ c ≠ 10 ∧ c ≠ 0
  | quoted text => ∀ c ∈ text, c ≠ 39 ∧ c ≠ 10 ∧ c ≠ 0

instance : (arg : Argument) → Decidable arg.WellFormed
  | .bare text => inferInstanceAs (Decidable (text ≠ [] ∧ _ ∧ ∀ c ∈ text, _))
  | .quoted text => inferInstanceAs (Decidable (∀ c ∈ text, _))

end Argument

def spaces (n : Nat) : List UInt8 := List.replicate n 32

/-- Arguments with the number of spaces after each, besides the one that separates it from the
next. -/
def typed : List (Argument × Nat) → List UInt8
  | [] => [10]
  | [(arg, n)] => arg.bytes ++ spaces n ++ [10]
  | (arg, n) :: rest => arg.bytes ++ spaces (n + 1) ++ typed rest

/-- A command line. -/
structure CommandLine where
  leading : Nat
  args : List (Argument × Nat)
  wellFormed : ∀ p ∈ args, p.1.WellFormed
  few : args.length < maxArgs
  short : (spaces leading ++ typed args).length < maxLine

namespace CommandLine

def bytes (l : CommandLine) : List UInt8 := spaces l.leading ++ typed l.args

def texts (l : CommandLine) : List (List UInt8) := l.args.map fun p => p.1.text

/-- The job runs in the background, or there is none. -/
def background (l : CommandLine) : Bool :=
  match l.texts.getLast? with
  | some last => last.head? == some 38
  | none => true

def stored (l : CommandLine) : List (List UInt8) :=
  if l.background then l.texts.dropLast else l.texts

end CommandLine

/-- The copy of the line and its arguments with the `NULL` after them fit their arrays. -/
def ParselineFits (cmdline : List UInt8) : Prop :=
  cmdline.length < maxLine ∧
    (arguments (cmdline.length + 1) (cmdline.dropLast ++ [32])).length < maxArgs

theorem cutAt_append (hd : delim ∉ text) (rest : List UInt8) :
    cutAt delim (text ++ delim :: rest) = some (text, rest) := by
  have hdrop : (text ++ delim :: rest).dropWhile (· != delim) = delim :: rest := by
    rw [List.dropWhile_append_of_pos]
    · simp
    · intro c hc
      have : c ≠ delim := fun he => hd (he ▸ hc)
      simpa using this
  rw [cutAt, if_pos (by simp), takeWhile_append_delim hd, hdrop, List.drop_one, List.tail_cons]

theorem dropWhile_spaces (n : Nat) (buf : List UInt8) :
    (spaces n ++ buf).dropWhile (· == 32) = buf.dropWhile (· == 32) := by
  apply List.dropWhile_append_of_pos
  intro c hc
  rw [List.eq_of_mem_replicate hc]
  rfl

theorem nextArgument_spaces (n : Nat) : nextArgument (spaces n) = none := by
  rw [nextArgument, ← List.append_nil (spaces n), dropWhile_spaces]
  rfl

theorem nextArgument_bare (h : (Argument.bare text).WellFormed) (n : Nat) (rest : List UInt8) :
    nextArgument (spaces n ++ (text ++ 32 :: rest)) = some (text, rest) := by
  obtain ⟨hne, hquote, hplain⟩ := h
  have hspace : 32 ∉ text := fun hm => (hplain 32 hm).1 rfl
  rw [nextArgument, dropWhile_spaces, (skip_token hne hspace _).1, ← cutAt_append hspace rest]
  cases text with
  | nil => exact absurd rfl hne
  | cons c text =>
    have hc : c ≠ 39 := fun he => hquote (congrArg some he)
    rw [List.cons_append]
    split
    next he => exact absurd (List.cons.inj he).1 hc
    next => rfl

theorem nextArgument_quoted (h : (Argument.quoted text).WellFormed) (n : Nat) (rest : List UInt8) :
    nextArgument (spaces n ++ (39 :: text ++ 39 :: rest)) = some (text, rest) := by
  have hquote : 39 ∉ text := fun hm => (h 39 hm).1 rfl
  rw [nextArgument, dropWhile_spaces]
  exact cutAt_append hquote rest

/-- After an argument the scanner stands at spaces that lead to the next one. -/
theorem nextArgument_typed {arg : Argument} (h : arg.WellFormed) (n m : Nat) (rest : List UInt8) :
    ∃ k, nextArgument (spaces n ++ (arg.bytes ++ spaces (m + 1) ++ rest)) =
      some (arg.text, spaces k ++ rest) := by
  cases arg with
  | bare text =>
    refine ⟨m, ?_⟩
    rw [List.append_assoc]
    exact nextArgument_bare h n (spaces m ++ rest)
  | quoted text =>
    refine ⟨m + 1, ?_⟩
    rw [Argument.bytes, List.append_assoc, List.append_assoc]
    exact nextArgument_quoted h n (spaces (m + 1) ++ rest)

/-- The line with a space for its newline. -/
theorem typed_space (p : Argument × Nat) (args : List (Argument × Nat)) :
    (typed (p :: args)).dropLast ++ [32] =
      (p :: args).flatMap fun p => p.1.bytes ++ spaces (p.2 + 1) := by
  induction args generalizing p with
  | nil =>
    obtain ⟨arg, n⟩ := p
    simp [typed, spaces, List.replicate_succ']
  | cons q args ih =>
    obtain ⟨arg, n⟩ := p
    have hne : typed (q :: args) ≠ [] := by
      obtain ⟨arg', n'⟩ := q
      cases args <;> simp [typed, spaces]
    have htyped : typed ((arg, n) :: q :: args) =
        arg.bytes ++ spaces (n + 1) ++ typed (q :: args) := rfl
    rw [htyped, List.dropLast_append_of_ne_nil hne, List.append_assoc, ih]
    rfl

section arguments
variable {args : List (Argument × Nat)}

theorem Argument.WellFormed.not_mem_text {arg : Argument} (h : arg.WellFormed) : 0 ∉ arg.text := by
  intro hm
  cases arg with
  | bare text => exact (h.2.2 0 hm).2.2 rfl
  | quoted text => exact (h 0 hm).2.2 rfl

theorem arguments_texts (hw : ∀ p ∈ args, p.1.WellFormed) (hfuel : args.length < fuel) (n : Nat) :
    (arguments fuel (spaces n ++ args.flatMap fun p => p.1.bytes ++ spaces (p.2 + 1))).map cstring =
      args.map fun p => p.1.text := by
  induction args generalizing fuel n with
  | nil =>
    cases fuel with
    | zero => rfl
    | succ fuel => rw [List.flatMap_nil, List.append_nil, arguments, nextArgument_spaces]; rfl
  | cons p args ih =>
    obtain ⟨fuel, rfl⟩ : ∃ f, fuel = f + 1 := ⟨fuel - 1, by omega⟩
    have hp := hw p List.mem_cons_self
    obtain ⟨k, hk⟩ := nextArgument_typed hp n p.2
      (args.flatMap fun p => p.1.bytes ++ spaces (p.2 + 1))
    have hrest := ih (fun q hq => hw q (List.mem_cons_of_mem _ hq)) (Nat.lt_of_succ_lt_succ hfuel) k
    have hstring : cstring (p.1.text ++ 0 :: (spaces k ++
        args.flatMap fun p => p.1.bytes ++ spaces (p.2 + 1))) = p.1.text := by
      rw [cstring_append hp.not_mem_text]
      exact List.append_nil _
    rw [List.flatMap_cons, arguments, hk, List.map_cons, List.map_cons, hstring, hrest]

theorem length_le_typed (hw : ∀ p ∈ args, p.1.WellFormed) : args.length ≤ (typed args).length := by
  fun_induction typed args with
  | case1 => exact Nat.zero_le _
  | case2 arg n =>
    rw [List.length_append, List.length_singleton, List.length_singleton]
    exact Nat.le_add_left _ _
  | case3 arg n rest _ ih =>
    have hrest := ih fun q hq => hw q (List.mem_cons_of_mem _ hq)
    simp only [spaces, List.length_append, List.length_replicate, List.length_cons]
    omega

end arguments

theorem head?_cstring (hc : c ≠ 0) (p : List UInt8) :
    (cstring p).head? = some c ↔ p.head? = some c := by
  cases p with
  | nil => rfl
  | cons d p =>
    by_cases hd : d = 0
    · simp [cstring, hd, Ne.symm hc]
    · simp [cstring, hd]

theorem CommandLine.arguments_eq (l : CommandLine) :
    (arguments (l.bytes.length + 1) (l.bytes.dropLast ++ [32])).map cstring = l.texts := by
  have hlength : l.args.length ≤ l.bytes.length := by
    have := length_le_typed l.wellFormed
    rw [bytes, List.length_append]
    omega
  have hne : typed l.args ≠ [] := by
    cases hargs : l.args with
    | nil => nofun
    | cons p args => cases args <;> simp [typed, spaces]
  rw [bytes, List.dropLast_append_of_ne_nil hne, List.append_assoc]
  cases hargs : l.args with
  | nil =>
    have hspaces : spaces l.leading ++ ((typed []).dropLast ++ [32]) = spaces (l.leading + 1) := by
      simp [typed, spaces, List.replicate_succ']
    rw [hspaces, arguments, nextArgument_spaces, texts, hargs]
    rfl
  | cons p args =>
    rw [typed_space, texts, ← hargs]
    exact arguments_texts l.wellFormed (Nat.lt_succ_of_le hlength) l.leading

/-- What `parseline` makes of the entries of `argv` depends on their strings. -/
theorem CommandLine.parseline_eq (l : CommandLine) : parseline l.bytes = (l.background,
    let argv := arguments (l.bytes.length + 1) (l.bytes.dropLast ++ [32])
    if l.background then argv.dropLast else argv) := by
  have hlast : l.texts.getLast? =
      (arguments (l.bytes.length + 1) (l.bytes.dropLast ++ [32])).getLast?.map cstring := by
    rw [← l.arguments_eq, List.getLast?_map]
  rw [parseline, background, hlast]
  cases h : (arguments (l.bytes.length + 1) (l.bytes.dropLast ++ [32])).getLast? with
  | none => rw [List.getLast?_eq_none_iff.1 h]; rfl
  | some last =>
    have hhead : (cstring last).head? = some 38 ↔ last.head? = some 38 :=
      head?_cstring (by decide) last
    by_cases hamp : last.head? = some 38
    · simp [hamp, hhead.2 hamp]
    · have hc : ¬(cstring last).head? = some 38 := fun hc => hamp (hhead.1 hc)
      simp [hamp, hc]

/-- `parseline` recovers the arguments that were typed, bare or quoted, in both shells. -/
theorem parseline_typed (l : CommandLine) : (parseline l.bytes).1 = l.background ∧
    (parseline l.bytes).2.map cstring = l.stored ∧ ParselineFits l.bytes := by
  have hargs := l.arguments_eq
  have hlength := congrArg List.length hargs
  rw [List.length_map, CommandLine.texts, List.length_map] at hlength
  rw [l.parseline_eq]
  refine ⟨rfl, ?_, l.short, hlength ▸ l.few⟩
  rw [CommandLine.stored, ← hargs]
  cases l.background with
  | true => exact List.map_dropLast ..
  | false => rfl

/-- A bare word, a quoted one and a trailing `&`. -/
def quotedInBackground : CommandLine where
  leading := 1
  args := [(.bare (chars "./myspin"), 0), (.quoted (chars "4 5"), 1), (.bare (chars "&"), 0)]
  wellFormed := by decide +kernel
  few := by decide
  short := by decide +kernel

theorem quotedInBackground_typed :
    quotedInBackground.bytes = chars " ./myspin '4 5'  &\n" ∧
      (parseline quotedInBackground.bytes).1 = true ∧
      (parseline quotedInBackground.bytes).2.map cstring = [chars "./myspin", chars "4 5"] := by
  obtain ⟨hbg, hargs, -⟩ := parseline_typed quotedInBackground
  exact ⟨by decide +kernel, hbg, hargs⟩

end Cs324.Shell
