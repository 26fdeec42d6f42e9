import Cs324.Base.Threads
import Cs324.Pipeline.Groups
import Cs324.Pipeline.Wiring
import Mathlib.Algebra.Order.BigOperators.Group.List
import Mathlib.Algebra.Order.Ring.Nat
import Mathlib.Data.Set.Finite.Basic
import Mathlib.Order.Interval.Set.Infinite

namespace Cs324.Pipeline
set_option autoImplicit true

/-- No process can write to pipe `j` any more, so a reader gets the end of the file. -/
def Sys.AtEnd (s : Sys) (j : Nat) : Prop :=
  (∀ fd, s.descriptors fd ≠ some (.writeEnd j)) ∧
    ∀ child ∈ s.children, child.ended = false → ∀ fd, child.descriptors fd ≠ some (.writeEnd j)

/-- A program ends only when it has read its input to the end. -/
def Patient (s : Sys) : Action → Prop
  | .exit i => ∀ child, s.children[i]? = some child →
      s.family.execed child.pid = true ∧
        ∀ j, child.descriptors stdin = some (.readEnd j) → s.AtEnd j
  | _ => True

/-- The calls that the shell still has to make for `n` commands. -/
def Pc.work (n : Nat) : Pc → Nat
  | .pipe i => (n - 1 - i) + (2 * n + (n - 1 + n))
  | .fork i => 2 * (n - i) + (n - 1 + n)
  | .setpgid i => 2 * (n - i) - 1 + (n - 1 + n)
  | .close i => n - 1 - i + n
  | .waitpid i => n - i
  | .returned | .exited => 0

/-- The steps that a child has left. -/
def Child.work (execed : Int → Bool) (child : Child) : Nat :=
  if child.ended then 0
  else if child.ready then (if execed child.pid then 1 else 2)
  else 3

def Sys.work (n : Nat) (s : Sys) : Nat :=
  s.pc.work n + 3 * (n - s.children.length) + (s.children.map (Child.work s.family.execed)).sum

theorem waitLoop_work (n i : Nat) : (waitLoop n i).work n ≤ n - i := by
  rw [waitLoop]
  split
  · exact le_rfl
  · exact Nat.zero_le _

theorem closeLoop_work (n i : Nat) : (closeLoop n i).work n ≤ n - 1 - i + n := by
  rw [closeLoop]
  split
  · exact le_rfl
  · have hwait := waitLoop_work n 0
    omega

theorem forkLoop_work (n i : Nat) : (forkLoop n i).work n ≤ 2 * (n - i) + (n - 1 + n) := by
  rw [forkLoop]
  split
  · exact le_rfl
  · have hclose := closeLoop_work n 0
    omega

theorem pipeLoop_work (n i : Nat) :
    (pipeLoop n i).work n ≤ (n - 1 - i) + (2 * n + (n - 1 + n)) := by
  rw [pipeLoop]
  split
  · exact le_rfl
  · have hfork := forkLoop_work n 0
    omega

/-- An exec uses up a step of its child, and none of the others gets one. -/
theorem exec_work {children : List Child} {child : Child} (execed : Int → Bool)
    (hm : child ∈ children) (he : child.ended = false) (hr : child.ready = true)
    (hx : execed child.pid = false) :
    (children.map (Child.work (Function.update execed child.pid true))).sum <
      (children.map (Child.work execed)).sum := by
  apply List.sum_lt_sum
  · intro c _
    by_cases hp : c.pid = child.pid
    · simp only [Child.work, hp, Function.update_self, hx]
      split
      · exact le_rfl
      · split <;> decide
    · simp only [Child.work, Function.update_of_ne hp]
      exact le_rfl
  · exact ⟨child, hm, by simp [Child.work, he, hr, hx]⟩

theorem setpgid_keeps {f g : Family} (h : f.setpgid pid pgid = .ok g) :
    g.members = f.members ∧ g.execed = f.execed := by
  simp only [Family.setpgid] at h
  split_ifs at h
  · cases h
    exact ⟨rfl, rfl⟩
  · cases h
    exact ⟨rfl, rfl⟩

/-- Until the shell waits, its children are all there. -/
theorem members_reached (h : (pipeline args opened own).Reachable s) :
    s.pc.starting → ∀ child ∈ s.children, child.pid ∈ s.family.members := by
  apply h.invariant (I := fun s : Sys => s.pc.starting → ∀ child ∈ s.children,
    child.pid ∈ s.family.members)
  · exact fun _ child hm => absurd hm List.not_mem_nil
  · intro s a t _ hI _ hn hstart child hm
    cases next_step hn with
    | pipe hpc | close hpc => exact hI (by rw [hpc]; trivial) child hm
    | fork hpc =>
      rcases List.mem_append.1 hm with hm | hm
      · exact Finset.mem_insert_of_mem (hI (by rw [hpc]; trivial) child hm)
      · rw [List.mem_singleton.1 hm]
        exact Finset.mem_insert_self _ _
    | setpgid hpc hc h0 hs =>
      rw [(setpgid_keeps hs).1]
      exact hI (by rw [hpc]; trivial) child hm
    | fail => exact absurd hstart id
    | waitpid =>
      simp only [waitLoop] at hstart
      split at hstart <;> exact absurd hstart id
    | redirect hc | exit hc =>
      rcases List.mem_or_eq_of_mem_set hm with hm | rfl
      · exact hI hstart child hm
      · have hold := hI hstart _ (List.mem_of_getElem? hc)
        exact hold
    | execve => exact hI hstart child hm

/-- A child that is forked is no other one yet. -/
theorem fork_work {children : List Child} {f : Family}
    (hmembers : ∀ child ∈ children, child.pid ∈ f.members) (hnew : pid ∉ f.members) (own : Int) :
    children.map (Child.work (f.fork pid own).execed) = children.map (Child.work f.execed) := by
  apply List.map_congr_left
  intro child hm
  have hne : child.pid ≠ pid := by
    rintro rfl
    exact hnew (hmembers child hm)
  simp only [Child.work, Family.fork, Function.update_of_ne hne]

/-- A call of the shell leaves its children the steps that they have. -/
theorem work_lt {s t : Sys} (hpc : t.pc.work n < s.pc.work n) (hchildren : t.children = s.children)
    (hexeced : t.family.execed = s.family.execed) : t.work n < s.work n := by
  rw [Sys.work, Sys.work, hchildren, hexeced]
  omega

/-- Every step uses up one that is left. -/
theorem work_step (hreach : (pipeline args opened own).Reachable s)
    (h : Sys.next args own s a = some t) :
    t.work (parseargs args).2.length < s.work (parseargs args).2.length := by
  have hcounts := counts_reached hreach
  cases next_step h with
  | @pipe i r w hpc =>
    rw [hpc] at hcounts
    obtain ⟨hlt, -, -⟩ := hcounts
    refine work_lt ((pipeLoop_work _ (i + 1)).trans_lt ?_) rfl rfl
    rw [hpc, Pc.work]
    omega
  | @fork i pid hpc hp hf =>
    have hold := fork_work (members_reached hreach (by rw [hpc]; trivial)) hf own
    rw [hpc] at hcounts
    obtain ⟨hlt, -, hnum⟩ := hcounts
    simp only [Sys.work, hpc, Pc.work, List.map_append, List.sum_append, hold, List.length_append,
      hnum, Child.work, List.map_cons, List.map_nil, List.sum_cons, List.sum_nil,
      List.length_singleton, Bool.false_eq_true, ↓reduceIte]
    omega
  | @setpgid i child first family hpc hc h0 hs =>
    rw [hpc] at hcounts
    obtain ⟨hlt, -, -⟩ := hcounts
    refine work_lt ((forkLoop_work _ (i + 1)).trans_lt ?_) rfl (setpgid_keeps hs).2
    rw [hpc, Pc.work]
    omega
  | fail hpc =>
    rw [hpc] at hcounts
    obtain ⟨hlt, -, -⟩ := hcounts
    refine work_lt ?_ rfl rfl
    rw [hpc, Pc.work, Pc.work]
    omega
  | @close i pipe u hpc =>
    rw [hpc] at hcounts
    obtain ⟨hlt, -, -⟩ := hcounts
    refine work_lt ((closeLoop_work _ (i + 1)).trans_lt ?_) rfl rfl
    rw [hpc, Pc.work]
    omega
  | @waitpid i child hpc =>
    rw [hpc] at hcounts
    obtain ⟨hlt, -, -⟩ := hcounts
    refine work_lt ((waitLoop_work _ (i + 1)).trans_lt ?_) rfl rfl
    rw [hpc, Pc.work]
    omega
  | @redirect i child inFile outFile u hc hr he hd =>
    have hsum := sum_map_set hc (Child.work s.family.execed)
      { child with descriptors := u, ready := true }
    have hold : child.work s.family.execed = 3 := by simp [Child.work, hr, he]
    have hnew : Child.work s.family.execed { child with descriptors := u, ready := true } ≤ 2 := by
      simp only [Child.work, he, Bool.false_eq_true, ↓reduceIte]
      split <;> decide
    simp only [Sys.work, List.length_set]
    omega
  | @execve i child hc hr =>
    simp only [Sys.next, hc, Option.bind_eq_bind, Option.bind_some,
      Option.ite_none_right_eq_some] at h
    obtain ⟨⟨-, he, hx⟩, -⟩ := h
    have hless := exec_work s.family.execed (List.mem_of_getElem? hc) (by simpa using he) hr
      (by simpa using hx)
    exact Nat.add_lt_add_left hless _
  | @exit i child hc =>
    simp only [Sys.next, hc, Option.bind_eq_bind, Option.bind_some,
      Option.ite_none_left_eq_some] at h
    obtain ⟨he, -⟩ := h
    have hsum := sum_map_set hc (Child.work s.family.execed) { child with ended := true }
    have hold : 1 ≤ child.work s.family.execed := by
      simp only [Child.work, he, Bool.false_eq_true, ↓reduceIte]
      split
      · split <;> decide
      · decide
    have hnew : Child.work s.family.execed { child with ended := true } = 0 := if_pos rfl
    simp only [Sys.work, List.length_set]
    omega

theorem Wired.reads (h : Wired args opened i t) (hfd : t stdin = some (.readEnd j)) :
    i = j + 1 := by
  obtain ⟨cmd, -, hinput, -⟩ := h.command
  rw [hinput, Option.some.injEq, standardInput] at hfd
  split_ifs at hfd
  cases hfd
  omega

theorem Wired.writes (h : Wired args opened i t) (hfd : t fd = some (.writeEnd j)) : i = j := by
  obtain ⟨cmd, -, hinput, houtput⟩ := h.command
  obtain rfl | rfl | hother : fd = stdin ∨ fd = stdout ∨ 2 ≤ fd := by
    simp only [stdin, stdout]
    omega
  · rw [hinput, Option.some.injEq, standardInput] at hfd
    split_ifs at hfd
  · rw [houtput, Option.some.injEq, standardOutput] at hfd
    split_ifs at hfd
    cases hfd
    rfl
  · rw [h.others fd hother, shellDescriptors] at hfd
    split_ifs at hfd
    cases hfd

/-- While there are descriptors to be had, one more is. -/
theorem HasPipes.exists_unused (h : HasPipes opened pipes closed t)
    (hfree : {fd | opened fd = false}.Infinite) (used : Finset Nat) :
    ∃ fd ∉ used, t fd = none := by
  obtain ⟨fd, hfd, hunused⟩ :=
    hfree.exists_notMem_finset (used ∪ (pipeFds (pipes.drop closed)).toFinset)
  rw [Finset.mem_union, List.mem_toFinset, not_or] at hunused
  refine ⟨fd, hunused.1, ?_⟩
  rw [h.others fd hunused.2, shellDescriptors, if_neg (by simpa using hfd)]

/-- The shell can close the two ends of the next pipe. -/
theorem HasPipes.close_next (h : HasPipes opened pipes i t) (hi : pipes[i]? = some pipe) :
    t.closeAll [pipe.1, pipe.2] ≠ none := by
  obtain ⟨hread, hwrite⟩ := h.ends i pipe le_rfl hi
  have hne : pipe.1 ≠ pipe.2 := by
    intro he
    rw [he, hwrite] at hread
    cases hread
  rw [Descriptors.closeAll_open (by simpa using hne)]
  · exact Option.some_ne_none _
  · intro fd hfd
    rcases List.mem_pair.1 hfd with rfl | rfl
    · exact hread ▸ Option.some_ne_none _
    · exact hwrite ▸ Option.some_ne_none _

theorem exists_first {l : List α} {p : α → Prop} (h : ∃ a ∈ l, p a) :
    ∃ (k : Nat) (a : α), l[k]? = some a ∧ p a ∧ ∀ j < k, ∀ b, l[j]? = some b → ¬p b := by
  classical
  obtain ⟨a₀, hm, ha₀⟩ := h
  obtain ⟨k₀, hk₀⟩ := List.mem_iff_getElem?.1 hm
  have hex : ∃ (k : Nat) (a : α), l[k]? = some a ∧ p a := ⟨k₀, a₀, hk₀, ha₀⟩
  obtain ⟨a, hk, ha⟩ := Nat.find_spec hex
  exact ⟨Nat.find hex, a, hk, ha, fun j hj b hb hp => Nat.find_min hex hj ⟨b, hb, hp⟩⟩

/-- The pipe after command `j` is at its end once that child has ended and the others have closed
the pipes that are not theirs. -/
theorem Wiring.atEnd (hw : Wiring args opened s) (hpc : s.pc = .waitpid i)
    (hready : ∀ child ∈ s.children, child.ended = false → child.ready = true)
    (hended : ∀ child : Child, s.children[j]? = some child → child.ended = true) : s.AtEnd j := by
  have hcounts := hw.counts
  have hdesc := hw.descriptors
  rw [hpc] at hcounts hdesc
  constructor
  · intro fd hfd
    rw [hdesc.others fd, shellDescriptors] at hfd
    · split_ifs at hfd
      cases hfd
    · rw [Pc.closed, ← hcounts.2.1, List.drop_length]
      exact List.not_mem_nil
  · intro child hm he fd hfd
    obtain ⟨k, hk⟩ := List.mem_iff_getElem?.1 hm
    have hwired := (hw.children k child hk).of_ready (hready child hm he)
    obtain rfl := hwired.writes hfd
    rw [hended child hk] at he
    cases he

section stuck
variable (hw : Wiring args opened s) (hfree : {fd | opened fd = false}.Infinite)
include hw hfree

/-- No call that the shell makes before it waits for a child waits for anything. -/
theorem shell_goes_on (hwait : ∀ i, s.pc ≠ .waitpid i) (hreturned : s.pc ≠ .returned)
    (hexited : s.pc ≠ .exited) (own : Int) :
    ∃ a, Patient s a ∧ Sys.next args own s a ≠ none := by
  have hcounts := hw.counts
  have hdesc := hw.descriptors
  cases hpc : s.pc with
  | pipe i =>
    obtain ⟨r, -, hr⟩ := hdesc.exists_unused hfree ∅
    obtain ⟨w, hne, hw⟩ := hdesc.exists_unused hfree {r}
    have hw' : Function.update s.descriptors r (some (.readEnd i)) w = none := by
      rw [Function.update_of_ne (by simpa using hne), hw]
    refine ⟨.pipe r w, trivial, ?_⟩
    simp [Sys.next, hpc, Descriptors.install_unused hr, Descriptors.install_unused hw']
  | fork i =>
    obtain ⟨pid, hpid, hnew⟩ := exists_pid s.family.members
    refine ⟨.fork pid, trivial, ?_⟩
    simp only [Sys.next, hpc]
    rw [if_pos ⟨hpid, hnew⟩]
    exact Option.some_ne_none _
  | setpgid i =>
    rw [hpc] at hcounts
    obtain ⟨-, -, hnum⟩ := hcounts
    have hc := List.getElem?_eq_getElem (l := s.children) (i := i) (by omega)
    have h0 := List.getElem?_eq_getElem (l := s.children) (i := 0) (by omega)
    refine ⟨.setpgid, trivial, ?_⟩
    simp only [Sys.next, hpc, hc, h0, Option.bind_eq_bind, Option.bind_some]
    split <;> exact Option.some_ne_none _
  | close i =>
    rw [hpc] at hcounts hdesc
    obtain ⟨hlt, hnum, -⟩ := hcounts
    have hpipe := List.getElem?_eq_getElem (l := s.pipes) (i := i) (by omega)
    obtain ⟨u, hu⟩ := Option.ne_none_iff_exists'.1 (HasPipes.close_next hdesc hpipe)
    refine ⟨.close, trivial, ?_⟩
    simp [Sys.next, hpc, hpipe, hu]
  | waitpid i => exact absurd hpc (hwait i)
  | returned => exact absurd hpc hreturned
  | exited => exact absurd hpc hexited

/-- The first child that has not ended gets to its `Execve`, performs the exec, or has read its
input to the end. -/
theorem child_goes_on (hopen : ∀ fd < 3, opened fd = true)
    (h : (pipeline args opened own).Reachable s) (hpc : s.pc = .waitpid i)
    (hrun : ∃ child ∈ s.children, child.ended = false) :
    ∃ a, Patient s a ∧ Sys.next args own s a ≠ none := by
  by_cases hready : ∀ child ∈ s.children, child.ended = false → child.ready = true
  · by_cases hexec : ∀ child ∈ s.children, child.ended = false → s.family.execed child.pid = true
    · obtain ⟨k, child, hk, he, hfirst⟩ := exists_first hrun
      have hm := List.mem_of_getElem? hk
      refine ⟨.exit k, ?_, by simp [Sys.next, hk, he]⟩
      intro child' hk'
      cases hk.symm.trans hk'
      refine ⟨hexec child hm he, fun j hj => ?_⟩
      have hprev := ((hw.children k child hk).of_ready (hready child hm he)).reads hj
      exact hw.atEnd hpc hready fun child' hc => by simpa using hfirst j (by omega) child' hc
    · push Not at hexec
      obtain ⟨child, hm, he, hx⟩ := hexec
      obtain ⟨k, hk⟩ := List.mem_iff_getElem?.1 hm
      refine ⟨.execve k, trivial, ?_⟩
      simp [Sys.next, hk, he, hready child hm he, hx]
  · push Not at hready
    obtain ⟨child, hm, he, hr⟩ := hready
    obtain ⟨k, hk⟩ := List.mem_iff_getElem?.1 hm
    have hr' : child.ready = false := by simpa using hr
    obtain ⟨fd, -, hfd⟩ := ((hw.children k child hk).of_not_ready hr').exists_unused hfree ∅
    obtain ⟨t, ht⟩ := child_reaches_execve hopen h hk hr' he hfd hfd
    exact ⟨.redirect k fd fd, trivial, by simp [ht]⟩

/-- A call of `Waitpid` returns once the children have ended. -/
theorem eval_goes_on (hopen : ∀ fd < 3, opened fd = true)
    (h : (pipeline args opened own).Reachable s) (hreturned : s.pc ≠ .returned)
    (hexited : s.pc ≠ .exited) : ∃ a, Patient s a ∧ Sys.next args own s a ≠ none := by
  by_cases hwait : ∃ i, s.pc = .waitpid i
  · obtain ⟨i, hpc⟩ := hwait
    by_cases hrun : ∃ child ∈ s.children, child.ended = false
    · exact child_goes_on hw hfree hopen h hpc hrun
    · push Not at hrun
      have hcounts := hw.counts
      rw [hpc] at hcounts
      obtain ⟨hlt, -, hnum⟩ := hcounts
      have hc := List.getElem?_eq_getElem (l := s.children) (i := i) (by omega)
      have he := hrun _ (List.mem_of_getElem? hc)
      refine ⟨.waitpid, trivial, ?_⟩
      simp [Sys.next, hpc, hc, he]
  · push Not at hwait
    exact shell_goes_on hw hfree hwait hreturned hexited own

end stuck

/-- The shell and its children take only so many steps, and where each program reads its input to
the end before it ends, they are not stuck until all children have ended and `eval` has returned,
or a `Setpgid` has failed. -/
theorem pipeline_ends (hopen : ∀ fd < 3, opened fd = true)
    (hfree : {fd | opened fd = false}.Infinite) (h : (pipeline args opened own).Reachable s) :
    (∀ as t, (pipeline args opened own).exec s as = some t →
      as.length ≤ s.work (parseargs args).2.length) ∧
    ((∀ a, Patient s a → Sys.next args own s a = none) → s.pc ≠ .exited →
      s.pc = .returned ∧ ∀ child ∈ s.children, child.ended = true) := by
  constructor
  · intro as t he
    have hreach := ((pipeline args opened own).along_true s as).with_invariant
      (I := (pipeline args opened own).Reachable) h fun hr _ hn => hr.step trivial hn
    have hlength := Machine.exec_length_le (Sys.work (parseargs args).2.length)
      (fun hr hn => work_step hr.1 hn) hreach he
    omega
  · intro hstuck hexited
    have hw := Wiring.reached hopen h
    have hpc : s.pc = .returned := by
      by_contra hreturned
      obtain ⟨a, ha, hn⟩ := eval_goes_on hw hfree hopen h hreturned hexited
      exact hn (hstuck a ha)
    have hcounts := hw.counts
    rw [hpc] at hcounts
    refine ⟨hpc, fun child hm => ?_⟩
    obtain ⟨i, hi⟩ := List.mem_iff_getElem?.1 hm
    apply hw.waited i child _ hi
    rw [hpc, Pc.waited, ← hcounts.2]
    exact (List.getElem?_eq_some_iff.1 hi).1

/-- Both programs are at their `Execve`: six steps are left at most, and there is one to take. -/
theorem two_commands_end : ∃ s, (pipeline twoCommands (· < 3) 1).Reachable s ∧
    (∀ as t, (pipeline twoCommands (· < 3) 1).exec s as = some t → as.length ≤ 6) ∧
    ∃ a, Patient s a ∧ Sys.next twoCommands 1 s a ≠ none := by
  obtain ⟨s, hs, hpc, hwork⟩ := (pipeline twoCommands (· < 3) 1).exists_reach_of_exec
    (fun _ _ => True) startTwo
    (P := fun s => s.pc = .waitpid 0 ∧ s.work (parseargs twoCommands).2.length = 6)
    (Machine.along_true _ _) (by decide +kernel)
  have hopen : ∀ fd < 3, decide (fd < 3) = true := fun fd h => decide_eq_true h
  have hfree : {fd | decide (fd < 3) = false}.Infinite :=
    (Set.Ici_infinite 3).mono fun fd h => decide_eq_false (not_lt.2 h)
  obtain ⟨hlength, hstuck⟩ := pipeline_ends hopen hfree hs
  rw [hwork] at hlength
  refine ⟨s, hs, hlength, ?_⟩
  by_contra hnone
  push Not at hnone
  obtain ⟨hreturned, -⟩ := hstuck hnone (by simp [hpc])
  rw [hpc] at hreturned
  cases hreturned

end Cs324.Pipeline
