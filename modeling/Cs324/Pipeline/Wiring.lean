import Cs324.Pipeline.Steps

namespace Cs324.Pipeline
set_option autoImplicit true

/-- The pipes are open, except so many at the front, and besides them what is open in the shell. -/
structure HasPipes (opened : Nat → Bool) (pipes : List (Nat × Nat)) (closed : Nat)
    (t : Descriptors File) : Prop where
  ends : ∀ i pipe, closed ≤ i → pipes[i]? = some pipe →
    t pipe.1 = some (.readEnd i) ∧ t pipe.2 = some (.writeEnd i)
  others : ∀ fd ∉ pipeFds (pipes.drop closed), t fd = shellDescriptors opened fd

/-- The descriptors of the pipes are different ones that the shell does not use. -/
structure Unused (opened : Nat → Bool) (pipes : List (Nat × Nat)) : Prop where
  nodup : (pipeFds pipes).Nodup
  unused : ∀ fd ∈ pipeFds pipes, opened fd = false

def fileName (argv : List (Option (List UInt8))) (redir : Int) : List UInt8 :=
  argv[redir.toNat]?.join.getD []

/-- The file of the redirection `<`, or the pipe before command `i`, or what the shell has. -/
def standardInput (argv : List (Option (List UInt8))) (cmd : Cmd) (i : Nat) : File :=
  if 0 ≤ cmd.stdinRedir then .input (fileName argv cmd.stdinRedir)
  else if 0 < i then .readEnd (i - 1)
  else .shell stdin

/-- The file of the redirection `>`, or the pipe after command `i`, or what the shell has. -/
def standardOutput (argv : List (Option (List UInt8))) (cmd : Cmd) (numCmds i : Nat) : File :=
  if 0 ≤ cmd.stdoutRedir then .output (fileName argv cmd.stdoutRedir)
  else if i < numCmds - 1 then .writeEnd i
  else .shell stdout

/-- The descriptors that the program for command `i` is to find. -/
structure Wired (args : List (List UInt8)) (opened : Nat → Bool) (i : Nat)
    (t : Descriptors File) : Prop where
  command : ∃ cmd, (parseargs args).2[i]? = some cmd ∧
    t stdin = some (standardInput (parseargs args).1 cmd i) ∧
    t stdout = some (standardOutput (parseargs args).1 cmd (parseargs args).2.length i)
  others : ∀ fd, 2 ≤ fd → t fd = shellDescriptors opened fd

theorem NamesFile.index (h : NamesFile argv redir) :
    redir = -1 ∨ 0 < redir ∧ argv[redir.toNat]?.join = some (fileName argv redir) := by
  rcases h with rfl | ⟨k, name, rfl, hk, hname⟩
  · exact .inl rfl
  · refine .inr ⟨by omega, ?_⟩
    simp [fileName, hname]

theorem mem_pipeFds {pipes : List (Nat × Nat)} :
    fd ∈ pipeFds pipes ↔ ∃ (i : Nat) (pipe : Nat × Nat), pipes[i]? = some pipe ∧
      (fd = pipe.1 ∨ fd = pipe.2) := by
  simp only [pipeFds, List.mem_flatMap, List.mem_cons, List.not_mem_nil, or_false]
  constructor
  · rintro ⟨pipe, hm, he⟩
    obtain ⟨i, hi⟩ := List.mem_iff_getElem?.1 hm
    exact ⟨i, pipe, hi, he⟩
  · rintro ⟨i, pipe, hi, he⟩
    exact ⟨pipe, List.mem_of_getElem? hi, he⟩

/-- What a child puts in the place of a standard descriptor. -/
def place (t : Descriptors File) (std : Nat) : Option File → Descriptors File
  | none => t
  | some file => Function.update t std (some file)

@[simp] theorem place_of_ne (h : fd ≠ std) (file : Option File) : place t std file fd = t fd := by
  cases file with
  | none => rfl
  | some file => exact Function.update_of_ne h _ _

@[simp] theorem place_self (file : Option File) : place t std file std = file.or (t std) := by
  cases file with
  | none => rfl
  | some file => exact Function.update_self _ _ _

def redirection (argv : List (Option (List UInt8))) (redir : Int) (file : List UInt8 → File) :
    Option File :=
  if 0 < redir then some (file (fileName argv redir)) else none

theorem redirect_unused (file : List UInt8 → File) (hn : NamesFile argv redir)
    (hstd : t std ≠ none) (hfd : t fd = none) :
    redirect argv redir file fd std t = some (place t std (redirection argv redir file)) := by
  rcases hn.index with rfl | ⟨hpos, hname⟩
  · rfl
  · have hne : fd ≠ std := by
      rintro rfl
      exact hstd hfd
    rw [redirect, redirection, if_pos hpos, if_pos hpos, hname]
    exact Descriptors.install_dup2_close hfd hne _

theorem redirect_eq_some (hn : NamesFile argv redir) (hstd : t std ≠ none)
    (h : redirect argv redir file fd std t = some u) :
    u = place t std (redirection argv redir file) := by
  rcases hn.index with rfl | ⟨hpos, hname⟩
  · exact (Option.some.inj h).symm
  · have hfd : t fd = none := by
      rw [redirect, if_pos hpos, hname] at h
      simp only [Option.bind_eq_bind, Option.bind_some, Option.bind_eq_some_iff,
        Descriptors.install_eq_some] at h
      obtain ⟨_, ⟨hfd, _⟩, _⟩ := h
      exact hfd
    exact (Option.some.inj ((redirect_unused _ hn hstd hfd).symm.trans h)).symm

theorem connect_place {needed : Prop} [Decidable needed]
    (h : needed → ∃ fd', fd = some fd' ∧ t fd' = some file) :
    connect needed fd std t = some (place t std (if needed then some file else none)) := by
  rw [connect]
  by_cases hc : needed
  · obtain ⟨_, rfl, hopen⟩ := h hc
    rw [if_pos hc, if_pos hc, Option.bind_some, Descriptors.dup2_open hopen]
    rfl
  · rw [if_neg hc, if_neg hc]
    rfl

section child
variable (hp : HasPipes opened pipes 0 t) (hu : Unused opened pipes)
  (hopen : ∀ fd < 3, opened fd = true)
include hp hu hopen

theorem HasPipes.std (fd : Nat) (h : fd < 3) : fd ∉ pipeFds pipes ∧ t fd = some (.shell fd) := by
  have hn : fd ∉ pipeFds pipes := by
    intro hm
    have := hu.unused fd hm
    rw [hopen fd h] at this
    cases this
  refine ⟨hn, ?_⟩
  rw [hp.others fd hn, shellDescriptors, if_pos (hopen fd h)]

theorem HasPipes.pipe_ne (h : fd ∈ pipeFds pipes) : fd ≠ stdin ∧ fd ≠ stdout := by
  constructor
  · rintro rfl
    exact (hp.std hu hopen stdin (by decide)).1 h
  · rintro rfl
    exact (hp.std hu hopen stdout (by decide)).1 h

omit hu hopen in
theorem HasPipes.isOpen (h : fd ∈ pipeFds pipes) : t fd ≠ none := by
  obtain ⟨i, pipe, hi, rfl | rfl⟩ := mem_pipeFds.1 h
  · rw [(hp.ends i pipe (Nat.zero_le i) hi).1]
    exact Option.some_ne_none _
  · rw [(hp.ends i pipe (Nat.zero_le i) hi).2]
    exact Option.some_ne_none _

/-- Once its redirections are done, no call of a child fails, and it has the descriptors it is to
have. -/
theorem childDescriptors_wired (hcmd : (parseargs args).2[i]? = some cmd)
    (hlen : pipes.length = (parseargs args).2.length - 1)
    (hin : redirect (parseargs args).1 cmd.stdinRedir .input inFile stdin t = some t₁)
    (hout : redirect (parseargs args).1 cmd.stdoutRedir .output outFile stdout t₁ = some t₂)
    (h₁ : t₁ = place t stdin (redirection (parseargs args).1 cmd.stdinRedir .input))
    (h₂ : t₂ = place t₁ stdout (redirection (parseargs args).1 cmd.stdoutRedir .output)) :
    ∃ u, childDescriptors (parseargs args).1 (parseargs args).2 pipes i inFile outFile t = some u ∧
      Wired args opened i u := by
  obtain ⟨hnin, hnout⟩ := parseargs_namesFiles args cmd (List.mem_of_getElem? hcmd)
  have hi := (List.getElem?_eq_some_iff.1 hcmd).1
  have hkeep : ∀ fd ∈ pipeFds pipes, t₂ fd = t fd := by
    intro fd hfd
    obtain ⟨h0, h1⟩ := hp.pipe_ne hu hopen hfd
    rw [h₂, place_of_ne h1, h₁, place_of_ne h0]
  obtain ⟨hstdin, hinput⟩ := hp.std hu hopen stdin (by decide)
  obtain ⟨hstdout, houtput⟩ := hp.std hu hopen stdout (by decide)
  obtain ⟨t₃, hwrite, h₃⟩ : ∃ t₃, connect (i + 1 < (parseargs args).2.length ∧
      ¬0 < cmd.stdoutRedir) (pipes[i]?.map Prod.snd) stdout t₂ = some t₃ ∧
      t₃ = place t₂ stdout (if i + 1 < (parseargs args).2.length ∧ ¬0 < cmd.stdoutRedir then
        some (.writeEnd i) else none) := by
    refine ⟨_, connect_place fun ⟨hlt, _⟩ => ?_, rfl⟩
    have hlast : i < pipes.length := by omega
    have hpipe := List.getElem?_eq_getElem hlast
    refine ⟨_, by rw [hpipe, Option.map_some], ?_⟩
    rw [hkeep _ (mem_pipeFds.2 ⟨i, _, hpipe, .inr rfl⟩), (hp.ends i _ (Nat.zero_le i) hpipe).2]
  obtain ⟨t₄, hread, h₄⟩ : ∃ t₄, connect (0 < i ∧ ¬0 < cmd.stdinRedir)
      (pipes[i - 1]?.map Prod.fst) stdin t₃ = some t₄ ∧
      t₄ = place t₃ stdin (if 0 < i ∧ ¬0 < cmd.stdinRedir then some (.readEnd (i - 1))
        else none) := by
    refine ⟨_, connect_place fun ⟨hlt, _⟩ => ?_, rfl⟩
    have hfirst : i - 1 < pipes.length := by omega
    have hpipe := List.getElem?_eq_getElem hfirst
    have hmem := mem_pipeFds.2 ⟨i - 1, _, hpipe, .inl rfl⟩
    refine ⟨_, by rw [hpipe, Option.map_some], ?_⟩
    rw [h₃, place_of_ne (hp.pipe_ne hu hopen hmem).2, hkeep _ hmem,
      (hp.ends _ _ (Nat.zero_le _) hpipe).1]
  have hkeep' : ∀ fd, fd ≠ stdin → fd ≠ stdout → t₄ fd = t fd := by
    intro fd h0 h1
    rw [h₄, place_of_ne h0, h₃, place_of_ne h1, h₂, place_of_ne h1, h₁, place_of_ne h0]
  have hclose := Descriptors.closeAll_open (t := t₄) hu.nodup fun fd hfd => by
    obtain ⟨h0, h1⟩ := hp.pipe_ne hu hopen hfd
    rw [hkeep' fd h0 h1]
    exact hp.isOpen hfd
  refine ⟨fun fd => if fd ∈ pipeFds pipes then none else t₄ fd, ?_, ⟨cmd, hcmd, ?_, ?_⟩, ?_⟩
  · rw [childDescriptors, hcmd]
    simp only [Option.bind_eq_bind, Option.bind_some]
    rw [hin, Option.bind_some, hout, Option.bind_some, hwrite, Option.bind_some, hread,
      Option.bind_some, ← hlen, List.take_length, hclose]
  · have hne : stdin ≠ stdout := by decide
    simp only [if_neg hstdin, h₄, place_self, h₃, h₂, h₁, place_of_ne hne, hinput, standardInput]
    rcases hnin.index with hr | ⟨hr, _⟩
    · simp only [redirection, hr]
      split <;> simp_all
    · simp [redirection, hr, hr.le]
  · have hne : stdout ≠ stdin := by decide
    simp only [if_neg hstdout, h₄, place_self, h₃, h₂, h₁, place_of_ne hne, houtput, standardOutput]
    rcases hnout.index with hr | ⟨hr, _⟩
    · simp only [redirection, hr]
      split <;> simp_all
    · simp [redirection, hr, hr.le]
  · intro fd hfd
    split
    next hm =>
      rw [shellDescriptors, if_neg (by simp [hu.unused fd hm])]
    next hm =>
      rw [hkeep' fd (by rintro rfl; cases hfd) (by rintro rfl; exact absurd hfd (by decide)),
        hp.others fd hm]

end child

/-- What a child has open before it calls `Execve` and then. -/
def Child.Holds (args : List (List UInt8)) (opened : Nat → Bool) (pipes : List (Nat × Nat))
    (i : Nat) (child : Child) : Prop :=
  if child.ready then Wired args opened i child.descriptors
  else HasPipes opened pipes 0 child.descriptors

structure Wiring (args : List (List UInt8)) (opened : Nat → Bool) (s : Sys) : Prop where
  counts : s.pc.Counts (parseargs args).2.length s.pipes.length s.children.length
  pipes : Unused opened s.pipes
  descriptors :
    HasPipes opened s.pipes (s.pc.closed (parseargs args).2.length) s.descriptors
  children : ∀ i (child : Child), s.children[i]? = some child → child.Holds args opened s.pipes i
  waited : ∀ i child, i < s.pc.waited (parseargs args).2.length → s.children[i]? = some child →
    child.ended = true

theorem Unused.append (h : Unused opened pipes) (hr : r ∉ pipeFds pipes) (hw : w ∉ pipeFds pipes)
    (hne : w ≠ r) (hor : opened r = false) (how : opened w = false) :
    Unused opened (pipes ++ [(r, w)]) := by
  have hfds : pipeFds (pipes ++ [(r, w)]) = pipeFds pipes ++ [r, w] := by simp [pipeFds]
  constructor
  · rw [hfds, List.nodup_append]
    refine ⟨h.nodup, by simpa using hne.symm, ?_⟩
    rintro fd hfd fd' hfd' rfl
    rcases List.mem_pair.1 hfd' with rfl | rfl
    · exact hr hfd
    · exact hw hfd
  · intro fd hfd
    rw [hfds, List.mem_append, List.mem_pair] at hfd
    rcases hfd with hfd | rfl | rfl
    · exact h.unused fd hfd
    · exact hor
    · exact how

theorem HasPipes.unopened (h : HasPipes opened pipes 0 t) (hfd : t fd = none) :
    fd ∉ pipeFds pipes ∧ opened fd = false := by
  have hn : fd ∉ pipeFds pipes := fun hm => h.isOpen hm hfd
  have := h.others fd hn
  rw [hfd, shellDescriptors] at this
  split at this
  · cases this
  · exact ⟨hn, by simp_all⟩

theorem HasPipes.append (h : HasPipes opened pipes 0 t) (hr : t r = none) (hw : t w = none)
    (hne : w ≠ r) : HasPipes opened (pipes ++ [(r, w)]) 0
      (Function.update (Function.update t r (some (.readEnd pipes.length))) w
        (some (.writeEnd pipes.length))) := by
  have hfds : pipeFds (pipes ++ [(r, w)]) = pipeFds pipes ++ [r, w] := by simp [pipeFds]
  constructor
  · intro i pipe _ hi
    rw [List.getElem?_append] at hi
    split at hi
    next hlt =>
      obtain ⟨h1, h2⟩ := h.ends i pipe (Nat.zero_le i) hi
      have hoff : ∀ fd, t fd ≠ none → fd ≠ r ∧ fd ≠ w := by
        rintro fd hfd
        exact ⟨by rintro rfl; exact hfd hr, by rintro rfl; exact hfd hw⟩
      obtain ⟨hr1, hw1⟩ := hoff pipe.1 (by rw [h1]; exact Option.some_ne_none _)
      obtain ⟨hr2, hw2⟩ := hoff pipe.2 (by rw [h2]; exact Option.some_ne_none _)
      rw [Function.update_of_ne hw1, Function.update_of_ne hr1, Function.update_of_ne hw2,
        Function.update_of_ne hr2]
      exact ⟨h1, h2⟩
    next hge =>
      obtain ⟨rfl, rfl⟩ : i = pipes.length ∧ pipe = (r, w) := by
        have := List.getElem?_eq_some_iff.1 hi
        obtain ⟨hlt, he⟩ := this
        simp only [List.length_singleton] at hlt
        obtain rfl : i = pipes.length := by omega
        exact ⟨rfl, by simpa using he.symm⟩
      rw [Function.update_self, Function.update_of_ne hne.symm, Function.update_self]
      exact ⟨rfl, rfl⟩
  · intro fd hfd
    rw [List.drop_zero, hfds, List.mem_append, List.mem_pair, not_or, not_or] at hfd
    rw [Function.update_of_ne hfd.2.2, Function.update_of_ne hfd.2.1]
    exact h.others fd hfd.1

theorem HasPipes.close (h : HasPipes opened pipes k t) (hu : Unused opened pipes)
    (hk : pipes[k]? = some pipe) (hd : t.closeAll [pipe.1, pipe.2] = some u) :
    HasPipes opened pipes (k + 1) u := by
  obtain ⟨hlt, he⟩ := List.getElem?_eq_some_iff.1 hk
  have hdrop : pipeFds (pipes.drop k) = [pipe.1, pipe.2] ++ pipeFds (pipes.drop (k + 1)) := by
    rw [List.drop_eq_getElem_cons hlt, he]
    rfl
  have hsub : (pipeFds (pipes.drop k)).Sublist (pipeFds pipes) := by
    nth_rewrite 2 [← List.take_append_drop k pipes]
    rw [pipeFds, pipeFds, List.flatMap_append]
    exact List.sublist_append_right _ _
  have hnodup := hu.nodup.sublist hsub
  rw [hdrop, List.nodup_append] at hnodup
  obtain ⟨hpair, _, hdisj⟩ := hnodup
  obtain ⟨h1, h2⟩ := h.ends k pipe le_rfl hk
  have hopen : ∀ fd ∈ [pipe.1, pipe.2], t fd ≠ none := by
    intro fd hfd
    rcases List.mem_pair.1 hfd with rfl | rfl
    · rw [h1]
      exact Option.some_ne_none _
    · rw [h2]
      exact Option.some_ne_none _
  rw [Descriptors.closeAll_open hpair hopen, Option.some.injEq] at hd
  subst hd
  constructor
  · intro i pipe' hi hpipe'
    have hmem : ∀ fd, fd = pipe'.1 ∨ fd = pipe'.2 → fd ∈ pipeFds (pipes.drop (k + 1)) := by
      intro fd hfd
      refine mem_pipeFds.2 ⟨i - (k + 1), pipe', ?_, hfd⟩
      rw [List.getElem?_drop, Nat.add_sub_cancel' hi]
      exact hpipe'
    rw [if_neg fun hm => hdisj _ hm _ (hmem _ (.inl rfl)) rfl,
      if_neg fun hm => hdisj _ hm _ (hmem _ (.inr rfl)) rfl]
    exact h.ends i pipe' (by omega) hpipe'
  · intro fd hfd
    split
    next hm =>
      have hin : fd ∈ pipeFds pipes := hsub.subset (hdrop ▸ List.mem_append_left _ hm)
      rw [shellDescriptors, if_neg (by simp [hu.unused fd hin])]
    next hm =>
      apply h.others
      rw [hdrop, List.mem_append, not_or]
      exact ⟨hm, hfd⟩

theorem Child.Holds.of_ready (h : Child.Holds args opened pipes i child) (hr : child.ready = true) :
    Wired args opened i child.descriptors := by
  rwa [Child.Holds, if_pos hr] at h

theorem Child.Holds.of_not_ready (h : Child.Holds args opened pipes i child)
    (hr : child.ready = false) : HasPipes opened pipes 0 child.descriptors := by
  rwa [Child.Holds, if_neg (by simp [hr])] at h

section run
variable {opened : Nat → Bool} (hopen : ∀ fd < 3, opened fd = true)
include hopen

theorem Wiring.child_ready (h : Wiring args opened s) (hc : s.children[i]? = some child)
    (hr : child.ready = false)
    (hlen : s.pipes.length = (parseargs args).2.length - 1)
    (hd : childDescriptors (parseargs args).1 (parseargs args).2 s.pipes i inFile outFile
      child.descriptors = some t) : Wired args opened i t := by
  have hp := (h.children i child hc).of_not_ready hr
  have hd' := hd
  simp only [childDescriptors, Option.bind_eq_bind, Option.bind_eq_some_iff] at hd'
  obtain ⟨cmd, hcmd, t₁, hin, t₂, hout, _⟩ := hd'
  obtain ⟨hnin, hnout⟩ := parseargs_namesFiles args cmd (List.mem_of_getElem? hcmd)
  have h₁ := redirect_eq_some hnin (by
    rw [(hp.std h.pipes hopen stdin (by decide)).2]
    exact Option.some_ne_none _) hin
  have h₂ := redirect_eq_some hnout (by
    rw [h₁, place_of_ne (by decide), (hp.std h.pipes hopen stdout (by decide)).2]
    exact Option.some_ne_none _) hout
  obtain ⟨u, hu, hw⟩ := childDescriptors_wired hp h.pipes hopen hcmd hlen hin hout h₁ h₂
  cases hd.symm.trans hu
  exact hw

theorem Wiring.step (h : Wiring args opened s) (hs : Step args own s a t) :
    Wiring args opened t := by
  have hcounts := h.counts
  have hdesc := h.descriptors
  have hcounts' := counts_step hcounts hs
  cases hs with
  | @pipe i r w hpc hr hw hne =>
    rw [hpc] at hcounts hdesc
    obtain ⟨hlt, hi, hnone⟩ := hcounts
    obtain ⟨hrp, hro⟩ := HasPipes.unopened hdesc hr
    obtain ⟨hwp, hwo⟩ := HasPipes.unopened hdesc hw
    obtain ⟨_, hclosed, hwaited⟩ := pipeLoop_counts (n := (parseargs args).2.length) (i := i + 1)
      (by omega)
    have hchild : s.children = [] := List.eq_nil_of_length_eq_zero hnone
    refine ⟨hcounts', h.pipes.append hrp hwp hne hro hwo, ?_, ?_, ?_⟩
    · rw [hclosed, ← hi]
      exact HasPipes.append hdesc hr hw hne
    · simp [hchild]
    · simp [hchild]
  | @fork i pid hpc hp hf =>
    rw [hpc] at hcounts hdesc
    obtain ⟨hlt, hi, hnum⟩ := hcounts
    refine ⟨hcounts', h.pipes, hdesc, ?_, fun i _ hi => absurd hi (Nat.not_lt_zero i)⟩
    intro i' child hc
    rcases getElem?_append_some hc with ⟨-, hc⟩ | ⟨-, rfl⟩
    · exact h.children i' child hc
    · exact hdesc
  | @setpgid i child first family hpc hc h0 hs =>
    rw [hpc] at hcounts hdesc
    obtain ⟨hlt, hi, hnum⟩ := hcounts
    obtain ⟨_, hclosed, hwaited⟩ := forkLoop_counts (n := (parseargs args).2.length) (i := i + 1)
      hlt
    refine ⟨hcounts', h.pipes, ?_, h.children, ?_⟩
    · rw [hclosed]
      exact hdesc
    · rw [hwaited]
      exact fun i _ hi => absurd hi (Nat.not_lt_zero i)
  | fail hpc =>
    rw [hpc] at hcounts hdesc
    exact ⟨hcounts', h.pipes, hdesc, h.children, fun i _ hi => absurd hi (Nat.not_lt_zero i)⟩
  | @close i pipe t hpc hp hd =>
    rw [hpc] at hcounts hdesc
    obtain ⟨hlt, hi, hnum⟩ := hcounts
    obtain ⟨_, hclosed, hwaited⟩ := closeLoop_counts (n := (parseargs args).2.length) (i := i + 1)
      (by omega)
    refine ⟨hcounts', h.pipes, ?_, h.children, ?_⟩
    · rw [hclosed]
      exact hdesc.close h.pipes hp hd
    · rw [hwaited]
      exact fun i _ hi => absurd hi (Nat.not_lt_zero i)
  | @waitpid i child hpc hc he =>
    rw [hpc] at hcounts hdesc
    obtain ⟨hlt, hi, hnum⟩ := hcounts
    obtain ⟨_, hclosed, hwaited⟩ := waitLoop_counts (n := (parseargs args).2.length) (i := i + 1)
      hlt
    refine ⟨hcounts', h.pipes, ?_, h.children, ?_⟩
    · rw [hclosed]
      exact hdesc
    · rw [hwaited]
      intro j child' hj hc'
      rcases Nat.lt_succ_iff_lt_or_eq.1 hj with hj | rfl
      · exact h.waited j child' (by rw [hpc]; exact hj) hc'
      · cases hc.symm.trans hc'
        exact he
  | @redirect i child inFile outFile t hc hr he hd =>
    have hne : s.children.length ≠ 0 := by
      have := (List.getElem?_eq_some_iff.1 hc).1
      omega
    have hw := h.child_ready hopen hc hr (hcounts.pipes_eq hne) hd
    refine ⟨hcounts', h.pipes, hdesc, ?_, ?_⟩
    · intro i' child' hc'
      rcases getElem?_set_some hc' with ⟨rfl, rfl⟩ | hc'
      · exact hw
      · exact h.children i' child' hc'
    · intro i' child' hi' hc'
      rcases getElem?_set_some hc' with ⟨rfl, rfl⟩ | hc'
      · exact h.waited i' child hi' hc
      · exact h.waited i' child' hi' hc'
  | execve hc hr => exact ⟨hcounts', h.pipes, hdesc, h.children, h.waited⟩
  | @exit i child hc =>
    refine ⟨hcounts', h.pipes, hdesc, ?_, ?_⟩
    · intro i' child' hc'
      rcases getElem?_set_some hc' with ⟨rfl, rfl⟩ | hc'
      · exact h.children i' child hc
      · exact h.children i' child' hc'
    · intro i' child' hi' hc'
      rcases getElem?_set_some hc' with ⟨rfl, rfl⟩ | hc'
      · rfl
      · exact h.waited i' child' hi' hc'

theorem Wiring.reached (h : (pipeline args opened own).Reachable s) : Wiring args opened s := by
  apply h.invariant (I := Wiring args opened)
  · obtain ⟨hc, hclosed, hwaited⟩ := pipeLoop_counts (n := (parseargs args).2.length)
      (Nat.zero_le _)
    refine ⟨hc, ⟨List.nodup_nil, by simp [pipeline, pipeFds]⟩, ?_, by simp [pipeline],
      by simp [pipeline]⟩
    exact ⟨by simp [pipeline], fun fd _ => rfl⟩
  · intro s a t _ hs _ hn
    exact hs.step hopen (next_step hn)

/-- A child whose files can be opened gets as far as `Execve`: no call of `Dup2` or `Close` in it is
for a descriptor that is not open. -/
theorem child_reaches_execve (h : (pipeline args opened own).Reachable s)
    (hc : s.children[i]? = some child) (hr : child.ready = false) (he : child.ended = false)
    (hin : child.descriptors inFile = none) (hout : child.descriptors outFile = none) :
    ∃ t, Sys.next args own s (.redirect i inFile outFile) = some t := by
  have hw := Wiring.reached hopen h
  have hp := (hw.children i child hc).of_not_ready hr
  have hchildren := (List.getElem?_eq_some_iff.1 hc).1
  have hlen := hw.counts.pipes_eq (by omega)
  have hlt := hchildren.trans_le hw.counts.children_le
  have hcmd := List.getElem?_eq_getElem hlt
  obtain ⟨hnin, hnout⟩ := parseargs_namesFiles args _ (List.mem_of_getElem? hcmd)
  have hinput := (hp.std hw.pipes hopen stdin (by decide)).2
  have houtput := (hp.std hw.pipes hopen stdout (by decide)).2
  have hne : outFile ≠ stdin := by
    rintro rfl
    cases hinput.symm.trans hout
  have h₁ := redirect_unused .input hnin (hinput ▸ Option.some_ne_none _) hin
  set t₁ := place child.descriptors stdin _ with ht₁
  have hopen₁ : t₁ stdout ≠ none := by
    rw [ht₁, place_of_ne (by decide), houtput]
    exact Option.some_ne_none _
  have hunused₁ : t₁ outFile = none := by rw [ht₁, place_of_ne hne, hout]
  have h₂ := redirect_unused .output hnout hopen₁ hunused₁
  obtain ⟨u, hu, _⟩ := childDescriptors_wired hp hw.pipes hopen hcmd hlen h₁ h₂ ht₁ rfl
  rw [← Option.isSome_iff_exists]
  simp [Sys.next, hc, hu, hr, he]

end run

/-- Each child calls `Execve` with its own files, its two pipes and nothing more in place of what
the shell has; the shell waits once it has closed all pipes and forked all children, and returns
once they have all ended. -/
theorem pipeline_wired (hopen : ∀ fd < 3, opened fd = true)
    (h : (pipeline args opened own).Reachable s) :
    (∀ i child, s.children[i]? = some child → child.ready = true →
      Wired args opened i child.descriptors) ∧
    (∀ i, s.pc = .waitpid i → s.descriptors = shellDescriptors opened ∧
      s.children.length = (parseargs args).2.length) ∧
    (s.pc = .returned → s.children.length = (parseargs args).2.length ∧
      ∀ child ∈ s.children, child.ended = true) := by
  have hw := Wiring.reached hopen h
  have hcounts := hw.counts
  have hdesc := hw.descriptors
  refine ⟨fun i child hc hr => (hw.children i child hc).of_ready hr, ?_, ?_⟩
  · intro i hpc
    rw [hpc] at hcounts hdesc
    refine ⟨?_, hcounts.2.2⟩
    funext fd
    apply hdesc.others
    rw [Pc.closed, ← hcounts.2.1, List.drop_length]
    exact List.not_mem_nil
  · intro hpc
    rw [hpc] at hcounts
    refine ⟨hcounts.2, fun child hc => ?_⟩
    obtain ⟨i, hi⟩ := List.mem_iff_getElem?.1 hc
    apply hw.waited i child _ hi
    rw [hpc, Pc.waited, ← hcounts.2]
    exact (List.getElem?_eq_some_iff.1 hi).1

theorem pipeline_wired_two : ∃ s, (pipeline twoCommands (· < 3) 1).Reachable s ∧
    (∀ i child, s.children[i]? = some child → Wired twoCommands (· < 3) i child.descriptors) ∧
    s.descriptors = shellDescriptors (· < 3) ∧ s.children.length = 2 := by
  obtain ⟨s, hs, hpc, hready⟩ := (pipeline twoCommands (· < 3) 1).exists_reach_of_exec
    (fun _ _ => True) startTwo (P := fun s => s.pc = .waitpid 0 ∧ s.children.all Child.ready)
    (Machine.along_true _ _) (by decide +kernel)
  have hopen : ∀ fd < 3, decide (fd < 3) = true := fun fd h => decide_eq_true h
  have h := pipeline_wired hopen hs
  refine ⟨s, hs, fun i child hc => h.1 i child hc ?_, h.2.1 0 hpc⟩
  exact List.all_eq_true.1 hready child (List.mem_of_getElem? hc)

end Cs324.Pipeline
