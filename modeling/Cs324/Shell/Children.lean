import Cs324.Shell.PidSet
import Cs324.Shell.Steps

namespace Cs324.Shell
set_option autoImplicit true

/-- What holds in every run, also when children outnumber the slots: `SIGCHLD` is blocked exactly
in the middle of `eval`, the handler does not run there, the table holds only children that are
outstanding, each once, and the child that `eval` has just forked is not in it yet. -/
structure Consistent (s : Sys) : Prop where
  masked : s.pc.Live → s.blocked = s.pc.masked
  unmasked : s.handling = true → s.blocked = false
  positive : ∀ pid ∈ s.children, 1 ≤ pid
  tracked : pids s.vars.jobs ⊆ s.children
  distinct : Distinct s.vars.jobs
  newborn : ∀ pid, s.pc.newborn = some pid → pid ∈ s.children ∧ pid ∉ pids s.vars.jobs

theorem Request.pc_masked (cmdline : List UInt8) (r : Request) :
    (r.pc cmdline).masked = false := by
  cases r <;> rfl

theorem Request.pc_newborn (cmdline : List UInt8) (r : Request) :
    (r.pc cmdline).newborn = none := by
  cases r <;> rfl

theorem Moves.newborn (h : Moves jobs pc effect pc') :
    (∃ pid state cmdline, effect = .addjob pid 0 state cmdline ∧ pc.newborn = some pid ∧
      pc'.newborn = none) ∨
    (∀ pid pgid state cmdline, effect ≠ .addjob pid pgid state cmdline) ∧
      pc'.newborn = pc.newborn := by
  cases h with
  | addjob => exact .inl ⟨_, _, _, rfl, rfl, rfl⟩
  | _ => exact .inr ⟨fun _ _ _ _ => nofun, rfl⟩

theorem Moves.not_crashed (h : Moves jobs pc effect pc') : pc' ≠ .crashed := by
  cases h <;> nofun

theorem Pc.newborn_of_not_masked (h : Pc.masked pc = false) : pc.newborn = none := by
  cases pc <;> first | rfl | cases h

theorem Consistent.not_newborn (h : Consistent s) (hb : s.blocked = false) (hl : s.pc.Live) :
    s.pc.newborn = none :=
  Pc.newborn_of_not_masked ((h.masked hl).symm.trans hb)

theorem Consistent.stmt (h : Consistent s) (hl : s.pc.Live) (hh : s.handling = false)
    (hm : Moves s.vars.jobs s.pc effect pc) : Consistent { s.perform effect with pc } where
  masked _ := by
    have he := hm.masked
    change (s.perform effect).blocked = pc.masked
    rw [perform_blocked, he]
    cases effect <;> first | rfl | exact h.masked hl
  unmasked hh' := by
    change (s.perform effect).handling = true at hh'
    rw [perform_handling, hh] at hh'
    cases hh'
  positive pid hp := h.positive pid (by simpa using hp)
  tracked := by
    change pids (s.perform effect).vars.jobs ⊆ ((s.perform effect).children : Set Int)
    rw [perform_children]
    rcases hm.newborn with ⟨pid, state, cmdline, rfl, hn, _⟩ | ⟨he, _⟩
    · obtain ⟨hc, _⟩ := h.newborn pid hn
      rcases pids_addjob (g := s.vars) 0 state cmdline (h.positive pid hc) with hi | ⟨he, _⟩
      · change pids (addjob s.vars pid 0 state cmdline).2.1.jobs ⊆ _
        rw [hi]
        exact Set.insert_subset hc h.tracked
      · change pids (addjob s.vars pid 0 state cmdline).2.1.jobs ⊆ _
        rw [he]
        exact h.tracked
    · rw [pids_congr (perform_pid s he)]
      exact h.tracked
  distinct := by
    change Distinct (s.perform effect).vars.jobs
    rcases hm.newborn with ⟨pid, state, cmdline, rfl, hn, _⟩ | ⟨he, _⟩
    · exact h.distinct.addjob (h.newborn pid hn).2
    · exact h.distinct.congr fun i => (perform_pid s he i).symm
  newborn pid hn := by
    change pc.newborn = some pid at hn
    rcases hm.newborn with ⟨_, _, _, _, _, hn'⟩ | ⟨he, hn'⟩
    · rw [hn'] at hn
      cases hn
    · rw [hn'] at hn
      change pid ∈ (s.perform effect).children ∧ pid ∉ pids (s.perform effect).vars.jobs
      rw [perform_children, pids_congr (perform_pid s he)]
      exact h.newborn pid hn

theorem Consistent.fork (h : Consistent s) (hpc : s.pc = .fork bg cmdline) (hp : 1 ≤ pid)
    (hf : pid ∉ s.children) : Consistent { s with
      pc := .setpgid bg cmdline pid
      children := insert pid s.children
      status := Function.update s.status pid .running
      log := .started pid :: s.log } where
  masked _ := by
    have hm := h.masked (by rw [hpc]; exact ⟨nofun, nofun⟩)
    rw [hpc] at hm
    exact hm
  unmasked := h.unmasked
  positive p hm := by
    rcases Finset.mem_insert.1 hm with rfl | hm
    · exact hp
    · exact h.positive p hm
  tracked p hm := Finset.mem_insert_of_mem (h.tracked hm)
  distinct := h.distinct
  newborn p hn := by
    cases hn
    exact ⟨Finset.mem_insert_self _ _, fun hm => hf (h.tracked hm)⟩

theorem Consistent.handle (h : Consistent s) (hl : s.pc.Live) (hh : s.handling = true)
    (hc : pid ∈ s.children) (report : Report) : Consistent (s.handle pid report) := by
  have hn := h.not_newborn (h.unmasked hh) hl
  have hnew : ∀ p (P : Prop), s.pc.newborn = some p → P := fun p P he => by rw [hn] at he; cases he
  rcases handle_cases s pid report with ⟨_, _, he⟩ | ⟨_, slot, _, _, _, he⟩ | ⟨_, _, he⟩
  · rw [he]
    refine ⟨h.masked, h.unmasked, fun p hm => h.positive p (Finset.mem_of_mem_erase hm), ?_,
      h.distinct.deletejob pid, fun p => hnew p _⟩
    intro p hm
    rw [pids_deletejob h.distinct (h.positive pid hc)] at hm
    exact Finset.mem_erase.2 ⟨hm.2, h.tracked hm.1⟩
  · rw [he]
    have hp : ∀ i, (setState s.vars.jobs slot .st i).pid = (s.vars.jobs i).pid :=
      fun i => setState_pid _ _ _ _
    refine ⟨h.masked, h.unmasked, h.positive, ?_, h.distinct.congr fun i => (hp i).symm,
      fun p => hnew p _⟩
    rw [pids_congr hp]
    exact h.tracked
  · rw [he]
    exact ⟨fun hl => absurd rfl hl.2, h.unmasked, h.positive, h.tracked, h.distinct, nofun⟩

theorem Consistent.exit (h : Consistent s) : Consistent { s with pc := .exited } :=
  ⟨fun hl => absurd rfl hl.1, h.unmasked, h.positive, h.tracked, h.distinct, nofun⟩

theorem Consistent.step (h : Consistent s) (hl : s.pc.Live) (hs : Step s a t) : Consistent t := by
  cases hs with
  | line hpc hh =>
    refine ⟨fun _ => ?_, h.unmasked, h.positive, h.tracked, h.distinct, fun p hn => ?_⟩
    · have hm := h.masked hl
      rw [hpc] at hm
      rw [Request.pc_masked]
      exact hm
    · rw [Request.pc_newborn] at hn
      cases hn
  | eof | fail | sigquit => exact h.exit
  | stmt hh hm => exact h.stmt hl hh hm
  | fork hpc hp hf => exact h.fork hpc hp hf
  | deliver hb => exact ⟨h.masked, fun _ => hb, h.positive, h.tracked, h.distinct, h.newborn⟩
  | report hh hc hr => exact h.handle hl hh hc _
  | handled => exact ⟨h.masked, nofun, h.positive, h.tracked, h.distinct, h.newborn⟩
  | sigint | sigtstp =>
    unfold Sys.forward
    dsimp only
    split <;> exact ⟨h.masked, h.unmasked, h.positive, h.tracked, h.distinct, h.newborn⟩
  | become | sigchld => exact ⟨h.masked, h.unmasked, h.positive, h.tracked, h.distinct, h.newborn⟩

theorem consistent_start (verbose : Bool) (memory : JobTable) :
    Consistent (shell verbose memory).start where
  masked _ := rfl
  unmasked := nofun
  positive _ := nofun
  tracked := by
    change pids (initjobs memory) ⊆ _
    rw [pids_initjobs]
    exact Set.empty_subset _
  distinct := distinct_initjobs memory
  newborn _ := nofun

theorem consistent (h : (shell verbose memory).Reachable s) : Consistent s := by
  apply h.invariant (consistent_start verbose memory)
  intro t a u _ ht _ hn
  obtain ⟨hl, hs⟩ := next_step hn
  exact ht.step hl hs

/-- `eval` is about to call `addjob`. -/
def Pc.adds : Pc → Bool
  | .addjob _ _ _ => true
  | _ => false

/-- `addjob` finds an empty slot. -/
def FindsSlot (s : Sys) (a : Action) : Prop :=
  a = .stmt ∧ s.pc.adds = true → ∃ i, ¬Occupied s.vars.jobs i

instance (s : Sys) (a : Action) : Decidable (FindsSlot s a) :=
  inferInstanceAs (Decidable (_ → _))

/-- What holds besides when `addjob` never fails: no child is missing from the table, but for the
one that `eval` has just forked. -/
structure Managed (s : Sys) : Prop where
  held : s.pc.Live → ∀ pid ∈ s.children, s.pc.newborn = some pid ∨ pid ∈ pids s.vars.jobs
  alive : s.pc ≠ .crashed

theorem Moves.adds (h : Moves jobs pc (.addjob pid pgid state cmdline) pc') : pc.adds = true := by
  cases h
  rfl

theorem Pc.newborn_of_adds (h : Pc.adds pc = true) : ∃ pid, pc.newborn = some pid := by
  cases pc with
  | addjob bg cmdline cpid => exact ⟨cpid, rfl⟩
  | _ => cases h

theorem Managed.stmt (h : Managed s) (hc : Consistent s) (hl : s.pc.Live)
    (hslot : s.pc.adds = true → ∃ i, ¬Occupied s.vars.jobs i)
    (hm : Moves s.vars.jobs s.pc effect pc) : Managed { s.perform effect with pc } where
  held _ pid hp := by
    change pid ∈ (s.perform effect).children at hp
    change pc.newborn = some pid ∨ pid ∈ pids (s.perform effect).vars.jobs
    rw [perform_children] at hp
    rcases hm.newborn with ⟨p, state, cmdline, rfl, hn, _⟩ | ⟨he, hn⟩
    · right
      change pid ∈ pids (addjob s.vars p 0 state cmdline).2.1.jobs
      have hpos := hc.positive p (hc.newborn p hn).1
      rcases pids_addjob (g := s.vars) 0 state cmdline hpos with hadd | ⟨_, hfull⟩
      · rw [hadd]
        rcases h.held hl pid hp with hb | ht
        · rw [hn] at hb
          cases hb
          exact Set.mem_insert _ _
        · exact Set.mem_insert_of_mem _ ht
      · obtain ⟨i, hi⟩ := hslot hm.adds
        exact absurd (hfull i) hi
    · rw [hn, pids_congr (perform_pid s he)]
      exact h.held hl pid hp
  alive := hm.not_crashed

theorem Managed.fork (h : Managed s) (hpc : s.pc = .fork bg cmdline) : Managed { s with
      pc := .setpgid bg cmdline pid
      children := insert pid s.children
      status := Function.update s.status pid .running
      log := .started pid :: s.log } where
  held _ p hp := by
    rcases Finset.mem_insert.1 hp with rfl | hp
    · exact .inl rfl
    · have hb := h.held (by rw [hpc]; exact ⟨nofun, nofun⟩) p hp
      rw [hpc] at hb
      exact hb.elim nofun .inr
  alive := nofun

/-- While the handler runs every child is in the table. -/
theorem Managed.mem_pids (h : Managed s) (hc : Consistent s) (hl : s.pc.Live)
    (hh : s.handling = true) (hp : pid ∈ s.children) : pid ∈ pids s.vars.jobs := by
  have hb := h.held hl pid hp
  rw [hc.not_newborn (hc.unmasked hh) hl] at hb
  exact hb.elim nofun id

theorem Managed.handle (h : Managed s) (hc : Consistent s) (hl : s.pc.Live)
    (hh : s.handling = true) (hp : pid ∈ s.children) (report : Report) :
    Managed (s.handle pid report) := by
  have hheld : ∀ p ∈ s.children, p ∈ pids s.vars.jobs := fun p hp => h.mem_pids hc hl hh hp
  rcases handle_cases s pid report with ⟨_, _, he⟩ | ⟨_, slot, _, _, _, he⟩ | ⟨_, hg, _⟩
  · rw [he]
    refine ⟨fun _ p hm => .inr ?_, h.alive⟩
    obtain ⟨hne, hm⟩ := Finset.mem_erase.1 hm
    rw [pids_deletejob hc.distinct (hc.positive pid hp)]
    exact ⟨hheld p hm, hne⟩
  · rw [he]
    refine ⟨fun _ p hm => .inr ?_, h.alive⟩
    rw [pids_congr fun i => setState_pid _ _ _ _]
    exact hheld p hm
  · obtain ⟨i, _, hi⟩ := hheld pid hp
    exact absurd hi (firstWith_eq_none.1 hg (hc.positive pid hp) i)

theorem Managed.step (h : Managed s) (hc : Consistent s) (hslot : FindsSlot s a) (hl : s.pc.Live)
    (hs : Step s a t) : Managed t := by
  cases hs with
  | line hpc hh =>
    refine ⟨fun _ p hp => .inr ?_, ?_⟩
    · have hb := h.held hl p hp
      rw [hpc] at hb
      exact hb.elim nofun id
    · generalize request _ = r
      cases r <;> nofun
  | eof | fail | sigquit => exact ⟨fun hl => absurd rfl hl.1, nofun⟩
  | stmt hh hm => exact h.stmt hc hl (fun ha => hslot ⟨rfl, ha⟩) hm
  | fork hpc hp hf => exact h.fork hpc
  | report hh hp hr => exact h.handle hc hl hh hp _
  | sigint | sigtstp =>
    unfold Sys.forward
    dsimp only
    split <;> exact ⟨h.held, h.alive⟩
  | deliver | handled | become | sigchld => exact ⟨h.held, h.alive⟩

theorem managed (h : (shell verbose memory).Reach FindsSlot s) : Managed s := by
  apply h.invariant
  · exact ⟨fun _ _ => nofun, nofun⟩
  · intro t a u hr ht hok hn
    obtain ⟨hl, hs⟩ := next_step hn
    exact ht.step (consistent hr.reachable) hok hl hs

/-- `eval` forks only while fewer children are outstanding than the table has slots. -/
def Within (s : Sys) : Action → Prop
  | .fork _ => s.children.card < maxJobs
  | _ => True

instance (s : Sys) (a : Action) : Decidable (Within s a) := by
  cases a <;> unfold Within <;> infer_instance

/-- What holds besides when no more children are outstanding than there are slots. -/
structure Complete (s : Sys) : Prop where
  room : s.children.card ≤ maxJobs
  held : s.pc.Live → ∀ pid ∈ s.children, s.pc.newborn = some pid ∨ pid ∈ pids s.vars.jobs
  settled : s.handling = false → s.pending = false → ∀ pid ∈ s.children, ¬(s.status pid).Ended
  alive : s.pc ≠ .crashed

/-- The child that is to be added leaves a slot for it. -/
theorem Complete.findsSlot (h : Complete s) (hc : Consistent s) (a : Action) : FindsSlot s a := by
  rintro ⟨_, ha⟩
  obtain ⟨pid, hn⟩ := Pc.newborn_of_adds ha
  obtain ⟨hm, hf⟩ := hc.newborn pid hn
  by_contra hfull
  have hsub : pids s.vars.jobs ⊆ ((s.children.erase pid : Finset Int) : Set Int) := by
    intro p hp
    exact Finset.mem_coe.2 (Finset.mem_erase.2 ⟨fun he => hf (he ▸ hp), hc.tracked hp⟩)
  have hcard := card_le_of_full hc.distinct (fun i => by_contra fun hi => hfull ⟨i, hi⟩) hsub
  rw [Finset.card_erase_of_mem hm] at hcard
  have hr := h.room
  have hpos := Finset.card_pos.2 ⟨pid, hm⟩
  omega

theorem room_step (h : s.children.card ≤ maxJobs) (hw : Within s a) (hs : Step s a t) :
    t.children.card ≤ maxJobs := by
  cases hs with
  | stmt hh hm =>
    change (s.perform _).children.card ≤ maxJobs
    rwa [perform_children]
  | fork hpc hp hf =>
    change (insert _ s.children).card ≤ maxJobs
    rw [Finset.card_insert_of_notMem hf]
    exact hw
  | @report pid report hh hp hr =>
    rcases handle_cases s pid report with ⟨_, _, he⟩ | ⟨_, _, _, _, _, he⟩ | ⟨_, _, he⟩
    · rw [he]
      exact Finset.card_erase_le.trans h
    · rwa [he]
    · rwa [he]
  | sigint | sigtstp =>
    unfold Sys.forward
    dsimp only
    split <;> exact h
  | _ => exact h

/-- With no `SIGCHLD` pending and the handler not running no child has ended. -/
def Settled (s : Sys) : Prop :=
  s.handling = false → s.pending = false → ∀ pid ∈ s.children, ¬(s.status pid).Ended

theorem settled_step (h : Settled s) (hs : Step s a t) : Settled t := by
  cases hs with
  | @stmt effect pc hh hm =>
    intro hh hq pid hp
    change (s.perform effect).handling = false at hh
    change (s.perform effect).pending = false at hq
    change pid ∈ (s.perform effect).children at hp
    rw [perform_handling] at hh
    rw [perform_pending] at hq
    rw [perform_children] at hp
    change ¬((s.perform effect).status pid).Ended
    rw [perform_ended]
    exact h hh hq pid hp
  | @fork bg cmdline pid hpc hp hf =>
    intro hh hq p hp
    change ¬(Function.update s.status pid .running p).Ended
    rcases Finset.mem_insert.1 hp with rfl | hp
    · rw [Function.update_self]
      exact id
    · have hne : p ≠ pid := fun he => hf (he ▸ hp)
      rw [Function.update_of_ne hne]
      exact h hh hq p hp
  | deliver => exact nofun
  | @report pid report hh hp hr =>
    have hbusy : s.handling ≠ false := by simp [hh]
    rcases handle_cases s pid report with ⟨_, _, he⟩ | ⟨_, _, _, _, _, he⟩ | ⟨_, _, he⟩
    · rw [he]
      exact fun hf => absurd hf hbusy
    · rw [he]
      exact fun hf => absurd hf hbusy
    · rw [he]
      exact fun hf => absurd hf hbusy
  | handled hn => exact fun _ _ p hp => not_ended_of_no_report (hn p hp)
  | sigint | sigtstp =>
    unfold Sys.forward
    dsimp only
    split <;> exact h
  | become | sigchld => exact fun _ => nofun
  | line | eof | fail | sigquit => exact h

theorem Complete.step (h : Complete s) (hc : Consistent s) (hw : Within s a) (hl : s.pc.Live)
    (hs : Step s a t) : Complete t := by
  have hm : Managed s := ⟨h.held, h.alive⟩
  obtain ⟨hheld, halive⟩ := hm.step hc (h.findsSlot hc a) hl hs
  exact ⟨room_step h.room hw hs, hheld, settled_step h.settled hs, halive⟩

theorem complete (h : (shell verbose memory).Reach Within s) : Complete s := by
  apply h.invariant
  · exact ⟨Nat.zero_le _, fun _ _ => nofun, fun _ _ _ => nofun, nofun⟩
  · intro t a u hr ht hw hn
    obtain ⟨hl, hs⟩ := next_step hn
    exact ht.step (consistent hr.reachable) hw hl hs

/-- Outside the blocked part of `eval` and outside the handler the table holds exactly the
outstanding children, each in one slot, and with no `SIGCHLD` pending none of them has ended. -/
theorem table_tracks_children (h : (shell verbose memory).Reach Within s) (hl : s.pc.Live)
    (hm : s.pc.masked = false) (hh : s.handling = false) :
    pids s.vars.jobs = s.children ∧
      (∀ pid ∈ s.children, ∃! i, (s.vars.jobs i).pid = pid) ∧
      (s.pending = false → ∀ i, Occupied s.vars.jobs i →
        ¬(s.status (s.vars.jobs i).pid).Ended) := by
  have hc := consistent h.reachable
  have ht := complete h
  have hn : s.pc.newborn = none := Pc.newborn_of_not_masked hm
  have hheld : ∀ pid ∈ s.children, pid ∈ pids s.vars.jobs := by
    intro pid hp
    have hb := ht.held hl pid hp
    rw [hn] at hb
    exact hb.elim nofun id
  refine ⟨Set.Subset.antisymm hc.tracked hheld, fun pid hp => ?_, fun hq i hi => ?_⟩
  · obtain ⟨i, hi, rfl⟩ := hheld pid hp
    refine ⟨i, rfl, fun j hj => hc.distinct j i ?_ hi hj⟩
    change (s.vars.jobs j).pid ≠ 0
    rw [hj]
    exact hi
  · exact ht.settled hh hq _ (hc.tracked (mem_pids hi))

/-- Two background jobs, of which the first has ended and been reported. -/
def twoJobs : List Action :=
  [.line (chars "./myspin 1 &\n"), .stmt, .fork 100, .stmt, .stmt, .stmt, .stmt, .stmt,
    .line (chars "./myspin 2 &\n"), .stmt, .fork 101, .exit 100 0, .stmt, .stmt, .stmt, .deliver,
    .report 100, .handled, .stmt, .stmt]

theorem table_tracks_two_jobs : ∃ s : Sys, s.children = {101} ∧ pids s.vars.jobs = s.children ∧
    (∀ pid ∈ s.children, ∃! i, (s.vars.jobs i).pid = pid) ∧
    (s.pending = false → ∀ i, Occupied s.vars.jobs i →
      ¬(s.status (s.vars.jobs i).pid).Ended) := by
  obtain ⟨s, hr, hl, hm, hh, hc⟩ := Machine.exists_reach_of_exec
    (shell false fun _ => ⟨0, 0, 0, .undef, []⟩) Within twoJobs
    (P := fun s => s.pc.Live ∧ s.pc.masked = false ∧ s.handling = false ∧ s.children = {101})
    (by decide +kernel) (by decide +kernel)
  exact ⟨s, hc, table_tracks_children hr hl hm hh⟩

end Cs324.Shell
