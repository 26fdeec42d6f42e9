import Cs324.Pipeline.System

namespace Cs324.Pipeline
set_option autoImplicit true

inductive Step (args : List (List UInt8)) (own : Int) (s : Sys) : Action → Sys → Prop
  | pipe (hpc : s.pc = .pipe i) (hr : s.descriptors r = none) (hw : s.descriptors w = none)
      (hne : w ≠ r) : Step args own s (.pipe r w) { s with
        descriptors := Function.update (Function.update s.descriptors r (some (.readEnd i))) w
          (some (.writeEnd i))
        pipes := s.pipes ++ [(r, w)]
        pc := pipeLoop (parseargs args).2.length (i + 1) }
  | fork (hpc : s.pc = .fork i) (hp : 1 ≤ pid) (hf : pid ∉ s.family.members) :
      Step args own s (.fork pid) { s with
        children := s.children ++ [⟨pid, s.descriptors, false, false⟩]
        family := s.family.fork pid own
        pc := .setpgid i }
  | setpgid (hpc : s.pc = .setpgid i) (hc : s.children[i]? = some child)
      (h0 : s.children[0]? = some first) (hs : s.family.setpgid child.pid first.pid = .ok family) :
      Step args own s .setpgid { s with
        family, pc := forkLoop (parseargs args).2.length (i + 1) }
  | fail (hpc : s.pc = .setpgid i) (hc : s.children[i]? = some child)
      (h0 : s.children[0]? = some first) (hs : s.family.setpgid child.pid first.pid = .error e) :
      Step args own s .setpgid { s with pc := .exited }
  | close (hpc : s.pc = .close i) (hp : s.pipes[i]? = some pipe)
      (hd : s.descriptors.closeAll [pipe.1, pipe.2] = some t) :
      Step args own s .close { s with
        descriptors := t, pc := closeLoop (parseargs args).2.length (i + 1) }
  | waitpid (hpc : s.pc = .waitpid i) (hc : s.children[i]? = some child) (he : child.ended = true) :
      Step args own s .waitpid { s with
        family.members := s.family.members.erase child.pid
        pc := waitLoop (parseargs args).2.length (i + 1) }
  | redirect (hc : s.children[i]? = some child) (hr : child.ready = false)
      (he : child.ended = false)
      (hd : childDescriptors (parseargs args).1 (parseargs args).2 s.pipes i inFile outFile
        child.descriptors = some t) :
      Step args own s (.redirect i inFile outFile) { s with
        children := s.children.set i { child with descriptors := t, ready := true } }
  | execve (hc : s.children[i]? = some child) (hr : child.ready = true) :
      Step args own s (.execve i) { s with family := s.family.exec child.pid }
  | exit (hc : s.children[i]? = some child) : Step args own s (.exit i) { s with
      children := s.children.set i { child with ended := true } }

theorem next_step (h : Sys.next args own s a = some t) : Step args own s a t := by
  cases a with
  | pipe r w =>
    cases hpc : s.pc with
    | pipe i =>
      simp only [Sys.next, hpc, Option.bind_eq_bind, Option.bind_eq_some_iff,
        Descriptors.install_eq_some, Option.pure_def, Option.some.injEq] at h
      obtain ⟨_, ⟨hr, rfl⟩, _, ⟨hw, rfl⟩, rfl⟩ := h
      have hne : w ≠ r := by
        rintro rfl
        simp at hw
      rw [Function.update_of_ne hne] at hw
      exact .pipe hpc hr hw hne
    | _ => simp [Sys.next, hpc] at h
  | fork pid =>
    cases hpc : s.pc with
    | fork i =>
      simp only [Sys.next, hpc, Option.ite_none_right_eq_some, Option.some.injEq] at h
      obtain ⟨⟨hp, hf⟩, rfl⟩ := h
      exact .fork hpc hp hf
    | _ => simp [Sys.next, hpc] at h
  | setpgid =>
    cases hpc : s.pc with
    | setpgid i =>
      simp only [Sys.next, hpc, Option.bind_eq_bind, Option.bind_eq_some_iff] at h
      obtain ⟨child, hc, first, h0, h⟩ := h
      split at h
      · rename_i hs
        cases h
        exact .setpgid hpc hc h0 hs
      · rename_i hs
        cases h
        exact .fail hpc hc h0 hs
    | _ => simp [Sys.next, hpc] at h
  | close =>
    cases hpc : s.pc with
    | close i =>
      simp only [Sys.next, hpc, Option.bind_eq_bind, Option.bind_eq_some_iff, Option.pure_def,
        Option.some.injEq] at h
      obtain ⟨pipe, hp, _, hd, rfl⟩ := h
      exact .close hpc hp hd
    | _ => simp [Sys.next, hpc] at h
  | waitpid =>
    cases hpc : s.pc with
    | waitpid i =>
      simp only [Sys.next, hpc, Option.bind_eq_bind, Option.bind_eq_some_iff,
        Option.ite_none_right_eq_some, Option.some.injEq] at h
      obtain ⟨child, hc, he, rfl⟩ := h
      exact .waitpid hpc hc he
    | _ => simp [Sys.next, hpc] at h
  | redirect i inFile outFile =>
    simp only [Sys.next, Option.bind_eq_bind, Option.bind_eq_some_iff,
      Option.ite_none_left_eq_some, Option.pure_def, Option.some.injEq, not_or,
      Bool.not_eq_true] at h
    obtain ⟨child, hc, ⟨hr, he⟩, _, hd, rfl⟩ := h
    exact .redirect hc hr he hd
  | execve i =>
    simp only [Sys.next, Option.bind_eq_bind, Option.bind_eq_some_iff,
      Option.ite_none_right_eq_some, Option.some.injEq] at h
    obtain ⟨child, hc, ⟨hr, _, _⟩, rfl⟩ := h
    exact .execve hc hr
  | exit i =>
    simp only [Sys.next, Option.bind_eq_bind, Option.bind_eq_some_iff,
      Option.ite_none_left_eq_some, Option.some.injEq] at h
    obtain ⟨child, hc, _, rfl⟩ := h
    exact .exit hc

/-- How many pipes and children there are at each call. -/
def Pc.Counts (numCmds pipes children : Nat) : Pc → Prop
  | .pipe i => i + 1 < numCmds ∧ pipes = i ∧ children = 0
  | .fork i => i < numCmds ∧ pipes = numCmds - 1 ∧ children = i
  | .setpgid i => i < numCmds ∧ pipes = numCmds - 1 ∧ children = i + 1
  | .close i => i + 1 < numCmds ∧ pipes = numCmds - 1 ∧ children = numCmds
  | .waitpid i => i < numCmds ∧ pipes = numCmds - 1 ∧ children = numCmds
  | .returned => pipes = numCmds - 1 ∧ children = numCmds
  | .exited => pipes = numCmds - 1 ∧ children ≤ numCmds

/-- How many pipes the shell has closed. -/
def Pc.closed (numCmds : Nat) : Pc → Nat
  | .close i => i
  | .waitpid _ | .returned => numCmds - 1
  | _ => 0

/-- How many children the shell has waited for. -/
def Pc.waited (numCmds : Nat) : Pc → Nat
  | .waitpid i => i
  | .returned => numCmds
  | _ => 0

theorem waitLoop_counts (hi : i ≤ n) : (waitLoop n i).Counts n (n - 1) n ∧
    (waitLoop n i).closed n = n - 1 ∧ (waitLoop n i).waited n = i := by
  rw [waitLoop]
  split
  next hlt => exact ⟨⟨hlt, rfl, rfl⟩, rfl, rfl⟩
  next hge => exact ⟨⟨rfl, rfl⟩, rfl, by simp only [Pc.waited]; omega⟩

theorem closeLoop_counts (hi : i ≤ n - 1) : (closeLoop n i).Counts n (n - 1) n ∧
    (closeLoop n i).closed n = i ∧ (closeLoop n i).waited n = 0 := by
  rw [closeLoop]
  split
  next hlt => exact ⟨⟨hlt, rfl, rfl⟩, rfl, rfl⟩
  next hge =>
    obtain ⟨hc, hclosed, hwaited⟩ := waitLoop_counts (Nat.zero_le n)
    exact ⟨hc, by omega, hwaited⟩

theorem forkLoop_counts (hi : i ≤ n) : (forkLoop n i).Counts n (n - 1) i ∧
    (forkLoop n i).closed n = 0 ∧ (forkLoop n i).waited n = 0 := by
  rw [forkLoop]
  split
  next hlt => exact ⟨⟨hlt, rfl, rfl⟩, rfl, rfl⟩
  next hge =>
    obtain rfl : i = n := by omega
    exact closeLoop_counts (Nat.zero_le _)

theorem pipeLoop_counts (hi : i ≤ n - 1) : (pipeLoop n i).Counts n i 0 ∧
    (pipeLoop n i).closed n = 0 ∧ (pipeLoop n i).waited n = 0 := by
  rw [pipeLoop]
  split
  next hlt => exact ⟨⟨hlt, rfl, rfl⟩, rfl, rfl⟩
  next hge =>
    obtain rfl : i = n - 1 := by omega
    exact forkLoop_counts (Nat.zero_le _)

theorem Pc.Counts.pipes_eq (h : Pc.Counts n pipes children pc) (hc : children ≠ 0) :
    pipes = n - 1 := by
  cases pc with
  | pipe i => exact absurd h.2.2 hc
  | fork | setpgid | close | waitpid => exact h.2.1
  | returned | exited => exact h.1

theorem Pc.Counts.children_le (h : Pc.Counts n pipes children pc) : children ≤ n := by
  cases pc with
  | pipe | fork | setpgid | close | waitpid | returned | exited =>
    simp only [Pc.Counts] at h
    omega

theorem counts_step (h : s.pc.Counts (parseargs args).2.length s.pipes.length s.children.length)
    (hs : Step args own s a t) :
    t.pc.Counts (parseargs args).2.length t.pipes.length t.children.length := by
  cases hs with
  | pipe hpc =>
    rw [hpc] at h
    obtain ⟨hlt, hi, hnone⟩ := h
    rw [List.length_append, List.length_singleton, hi, hnone]
    exact (pipeLoop_counts (by omega)).1
  | fork hpc =>
    rw [hpc] at h
    obtain ⟨hlt, hi, hnum⟩ := h
    exact ⟨hlt, hi, by rw [List.length_append, hnum, List.length_singleton]⟩
  | setpgid hpc =>
    rw [hpc] at h
    obtain ⟨hlt, hi, hnum⟩ := h
    rw [hi, hnum]
    exact (forkLoop_counts hlt).1
  | fail hpc =>
    rw [hpc] at h
    obtain ⟨hlt, hi, hnum⟩ := h
    exact ⟨hi, hnum.trans_le hlt⟩
  | close hpc =>
    rw [hpc] at h
    obtain ⟨hlt, hi, hnum⟩ := h
    rw [hi, hnum]
    exact (closeLoop_counts (by omega)).1
  | waitpid hpc =>
    rw [hpc] at h
    obtain ⟨hlt, hi, hnum⟩ := h
    rw [hi, hnum]
    exact (waitLoop_counts hlt).1
  | redirect | exit => rwa [List.length_set]
  | execve => exact h

theorem counts_reached (h : (pipeline args opened own).Reach ok s) :
    s.pc.Counts (parseargs args).2.length s.pipes.length s.children.length := by
  apply h.invariant (I := fun s : Sys => s.pc.Counts (parseargs args).2.length s.pipes.length
    s.children.length)
  · exact (pipeLoop_counts (Nat.zero_le _)).1
  · intro s a t _ hs _ hn
    exact counts_step hs (next_step hn)

def twoCommands : List (List UInt8) := ["cat", "<", "in", "|", "wc", ">", "out"].map chars

/-- Both children are at `Execve`, and the shell waits. -/
def startTwo : List Action :=
  [.pipe 3 4, .fork 10, .setpgid, .redirect 0 5 5, .fork 11, .setpgid, .close, .redirect 1 5 5]

end Cs324.Pipeline
