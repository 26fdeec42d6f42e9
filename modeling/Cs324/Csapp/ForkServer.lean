import Cs324.Base.Machine
import Cs324.Base.Threads
import Mathlib.Data.List.ReduceOption

namespace Cs324.Csapp
set_option autoImplicit true

/-- What the parent does next: a connection is `none` when `accept` has failed. -/
inductive ParentPc
  | accept
  | fork (connfd : Option Nat)
  | close (connfd : Option Nat)
  | exited
  deriving DecidableEq

/-- What a child does next, or what has become of it. -/
inductive ChildPc
  | closeListen
  | serve
  | close
  | exit
  | zombie
  | reaped
  deriving DecidableEq

structure Forked where
  connfd : Option Nat
  pc : ChildPc
  deriving DecidableEq

/-- The servers that fork for each connection: that of `echoserverp`, which handles `SIGCHLD`, and
that of `tiny`, which does not, and which ends where `accept` or `fork` fails. -/
inductive Server
  | echoserverp
  | tiny
  deriving DecidableEq

/-- Whether `sigchld_handler` runs, whether a `SIGCHLD` is pending, how many connections the server
has accepted, and its children. -/
structure ForkServer where
  parent : ParentPc
  handler : Bool
  pending : Bool
  accepted : Nat
  children : List Forked
  deriving DecidableEq

inductive ForkAction
  | accept
  | acceptFails
  | parent
  | forkFails
  | child (i : Nat)
  | childFails (i : Nat)
  | deliver
  | waitpid
  | initReaps (i : Nat)
  deriving DecidableEq

def ForkServer.set (s : ForkServer) (i : Nat) (child : Forked) (pc : ChildPc) : ForkServer :=
  { s with children := s.children.set i { child with pc } }

/-- The first child that `waitpid` can report. -/
def ForkServer.zombie (s : ForkServer) : Option Nat :=
  s.children.findIdx? fun child => child.pc = .zombie

def ChildPc.runs (pc : ChildPc) : Bool :=
  pc = .closeListen || pc = .serve || pc = .close

/-- The parent does nothing while the handler runs. An error or a signal may end a child anywhere
before its `exit`. The wrappers `Accept` and `Fork` of `tiny` end the parent when they fail, and
`init` reaps the children that it leaves. -/
def ForkServer.next (server : Server) (s : ForkServer) : ForkAction → Option ForkServer
  | .accept =>
    if s.parent = .accept ∧ !s.handler then
      some { s with parent := .fork (some s.accepted), accepted := s.accepted + 1 }
    else none
  | .acceptFails =>
    if s.parent = .accept ∧ !s.handler then
      some { s with parent := if server = .tiny then .exited else .fork none }
    else none
  | .parent =>
    if s.handler then none
    else
      match s.parent with
      | .accept | .exited => none
      | .fork connfd =>
        some { s with parent := .close connfd, children := s.children ++ [⟨connfd, .closeListen⟩] }
      | .close _ => some { s with parent := .accept }
  | .forkFails =>
    if s.handler then none
    else
      match s.parent with
      | .fork connfd =>
        some { s with parent := if server = .tiny then .exited else .close connfd }
      | _ => none
  | .child i =>
    match s.children[i]? with
    | some child =>
      match child.pc with
      | .closeListen => some (s.set i child .serve)
      | .serve => some (s.set i child .close)
      | .close => some (s.set i child .exit)
      | .exit =>
        some { s.set i child .zombie with pending := s.pending || server = .echoserverp }
      | .zombie | .reaped => none
    | none => none
  | .childFails i =>
    match s.children[i]? with
    | some child => if child.pc.runs then some (s.set i child .exit) else none
    | none => none
  | .deliver =>
    if s.pending ∧ !s.handler then some { s with handler := true, pending := false } else none
  | .waitpid =>
    if s.handler then
      match s.zombie with
      | some i => (s.children[i]?).map fun child => s.set i child .reaped
      | none => some { s with handler := false }
    else none
  | .initReaps i =>
    if s.parent = .exited then
      match s.children[i]? with
      | some child => if child.pc = .zombie then some (s.set i child .reaped) else none
      | none => none
    else none

def forkServer (server : Server) : Machine ForkServer ForkAction where
  start := ⟨.accept, false, false, 0, []⟩
  next := ForkServer.next server

/-- A step of a child before its end. -/
def ChildPc.Moves (pc pc' : ChildPc) : Prop :=
  (pc = .closeListen ∧ pc' = .serve) ∨ (pc = .serve ∧ pc' = .close) ∨
    (pc.runs = true ∧ pc' = .exit)

/-- What a step does. -/
inductive Serves (server : Server) (s : ForkServer) : ForkAction → ForkServer → Prop
  | accept (hp : s.parent = .accept) : Serves server s .accept
      { s with parent := .fork (some s.accepted), accepted := s.accepted + 1 }
  | acceptFails (hserver : server = .echoserverp) (hp : s.parent = .accept) :
      Serves server s .acceptFails { s with parent := .fork none }
  | fork (hp : s.parent = .fork connfd) : Serves server s .parent
      { s with parent := .close connfd, children := s.children ++ [⟨connfd, .closeListen⟩] }
  | forkFails (hserver : server = .echoserverp) (hp : s.parent = .fork connfd) :
      Serves server s .forkFails { s with parent := .close connfd }
  | ends (hserver : server = .tiny)
      (ha : s.parent = .accept ∧ a = .acceptFails ∨
        (∃ connfd, s.parent = .fork connfd) ∧ a = .forkFails) :
      Serves server s a { s with parent := .exited }
  | close (hp : s.parent = .close connfd) : Serves server s .parent { s with parent := .accept }
  | serves (hc : s.children[i]? = some child) (hpc : child.pc.Moves pc)
      (ha : a = .child i ∨ a = .childFails i) : Serves server s a (s.set i child pc)
  | exit (hc : s.children[i]? = some child) (hpc : child.pc = .exit) : Serves server s (.child i)
      { s.set i child .zombie with pending := s.pending || server = .echoserverp }
  | deliver (hp : s.pending = true) (hh : s.handler = false) :
      Serves server s .deliver { s with handler := true, pending := false }
  | reap (ha : s.handler = true ∧ a = .waitpid ∨ s.parent = .exited ∧ a = .initReaps i)
      (hc : s.children[i]? = some child) (hpc : child.pc = .zombie) :
      Serves server s a (s.set i child .reaped)
  | done (hh : s.handler = true) (hz : ∀ child ∈ s.children, child.pc ≠ .zombie) :
      Serves server s .waitpid { s with handler := false }

theorem next_serves {s t : ForkServer} (h : s.next server a = some t) : Serves server s a t := by
  cases a with
  | accept =>
    rw [ForkServer.next, Option.ite_none_right_eq_some] at h
    obtain ⟨⟨hp, -⟩, h⟩ := h
    cases h
    exact .accept hp
  | acceptFails =>
    rw [ForkServer.next, Option.ite_none_right_eq_some] at h
    obtain ⟨⟨hp, -⟩, h⟩ := h
    cases h
    cases server with
    | echoserverp => exact .acceptFails rfl hp
    | tiny => exact .ends rfl (.inl ⟨hp, rfl⟩)
  | parent =>
    rw [ForkServer.next, Option.ite_none_left_eq_some] at h
    obtain ⟨-, h⟩ := h
    cases hp : s.parent with
    | accept | exited => simp [hp] at h
    | fork connfd =>
      simp only [hp] at h
      cases h
      exact .fork hp
    | close connfd =>
      simp only [hp] at h
      cases h
      exact .close hp
  | forkFails =>
    rw [ForkServer.next, Option.ite_none_left_eq_some] at h
    obtain ⟨-, h⟩ := h
    cases hp : s.parent with
    | fork connfd =>
      simp only [hp] at h
      cases h
      cases server with
      | echoserverp => exact .forkFails rfl hp
      | tiny => exact .ends rfl (.inr ⟨⟨connfd, hp⟩, rfl⟩)
    | _ => simp [hp] at h
  | child i =>
    rw [ForkServer.next] at h
    cases hc : s.children[i]? with
    | none => simp [hc] at h
    | some child =>
      simp only [hc] at h
      cases hpc : child.pc with
      | closeListen =>
        simp only [hpc] at h
        cases h
        exact .serves hc (.inl ⟨hpc, rfl⟩) (.inl rfl)
      | serve =>
        simp only [hpc] at h
        cases h
        exact .serves hc (.inr (.inl ⟨hpc, rfl⟩)) (.inl rfl)
      | close =>
        simp only [hpc] at h
        cases h
        exact .serves hc (.inr (.inr ⟨by simp [hpc, ChildPc.runs], rfl⟩)) (.inl rfl)
      | exit =>
        simp only [hpc] at h
        cases h
        exact .exit hc hpc
      | zombie | reaped => simp [hpc] at h
  | childFails i =>
    rw [ForkServer.next] at h
    cases hc : s.children[i]? with
    | none => simp [hc] at h
    | some child =>
      simp only [hc, Option.ite_none_right_eq_some] at h
      obtain ⟨hpc, h⟩ := h
      cases h
      exact .serves hc (.inr (.inr ⟨hpc, rfl⟩)) (.inr rfl)
  | deliver =>
    rw [ForkServer.next, Option.ite_none_right_eq_some] at h
    obtain ⟨⟨hp, hh⟩, h⟩ := h
    cases h
    exact .deliver hp (by simpa using hh)
  | waitpid =>
    rw [ForkServer.next, Option.ite_none_right_eq_some] at h
    obtain ⟨hh, h⟩ := h
    cases hz : s.zombie with
    | none =>
      simp only [hz] at h
      cases h
      rw [ForkServer.zombie, List.findIdx?_eq_none_iff] at hz
      exact .done hh fun child hm => by simpa using hz child hm
    | some i =>
      simp only [hz] at h
      obtain ⟨child, hc, rfl⟩ := Option.map_eq_some_iff.1 h
      rw [ForkServer.zombie, List.findIdx?_eq_some_iff_getElem] at hz
      obtain ⟨hlt, hpc, -⟩ := hz
      rw [List.getElem?_eq_getElem hlt] at hc
      cases hc
      exact .reap (.inl ⟨hh, rfl⟩) (List.getElem?_eq_getElem hlt) (by simpa using hpc)
  | initReaps i =>
    rw [ForkServer.next, Option.ite_none_right_eq_some] at h
    obtain ⟨hp, h⟩ := h
    cases hc : s.children[i]? with
    | none => simp [hc] at h
    | some child =>
      simp only [hc, Option.ite_none_right_eq_some] at h
      obtain ⟨hpc, h⟩ := h
      cases h
      exact .reap (.inr ⟨hp, rfl⟩) hc hpc

/-- The steps that are left for a process, with those of the handler for a child that ends. -/
def ChildPc.work : ChildPc → Nat
  | .closeListen => 7
  | .serve => 6
  | .close => 5
  | .exit => 4
  | .zombie => 1
  | .reaped => 0

def ParentPc.work : ParentPc → Nat
  | .accept | .exited => 0
  | .close _ => 1
  | .fork _ => 9

def ForkServer.work (s : ForkServer) : Nat :=
  s.parent.work + 2 * s.pending.toNat + s.handler.toNat +
    (s.children.map fun child => child.pc.work).sum

/-- A step of the processes, after `accept` has returned for the last time. -/
def Inside (_ : ForkServer) : ForkAction → Prop
  | .accept | .acceptFails => False
  | _ => True

instance : ∀ s a, Decidable (Inside s a)
  | _, .accept | _, .acceptFails => .isFalse id
  | _, .parent | _, .forkFails | _, .child _ | _, .childFails _ | _, .deliver | _, .waitpid
  | _, .initReaps _ => .isTrue trivial

section server
variable {server : Server} {s t : ForkServer}

theorem set_work (hc : s.children[i]? = some child) (pc : ChildPc) :
    ((s.set i child pc).children.map fun child => child.pc.work).sum + child.pc.work =
      (s.children.map fun child => child.pc.work).sum + pc.work :=
  sum_map_set hc (fun child => child.pc.work) { child with pc }

theorem work_of_runs {pc : ChildPc} (h : pc.runs = true) : ChildPc.exit.work < pc.work := by
  cases pc with
  | closeListen | serve | close => decide
  | exit | zombie | reaped => cases h

theorem ChildPc.Moves.work_lt {pc pc' : ChildPc} (h : pc.Moves pc') : pc'.work < pc.work := by
  rcases h with ⟨rfl, rfl⟩ | ⟨rfl, rfl⟩ | ⟨h, rfl⟩
  · decide
  · decide
  · exact work_of_runs h

theorem serves_work (ha : Inside s a) (h : Serves server s a t) : t.work < s.work := by
  cases h with
  | accept | acceptFails => exact ha.elim
  | ends _ hends =>
    rcases hends with ⟨-, rfl⟩ | ⟨⟨connfd, hp⟩, -⟩
    · exact ha.elim
    · simp only [ForkServer.work, hp, ParentPc.work]
      omega
  | fork hp | forkFails _ hp | close hp =>
    simp only [ForkServer.work, hp, ParentPc.work, List.map_append, List.sum_append, List.map_cons,
      List.map_nil, List.sum_cons, List.sum_nil, ChildPc.work]
    omega
  | @serves i child _ pc hc hpc _ =>
    have hsum := set_work hc pc
    have hless := hpc.work_lt
    change s.parent.work + 2 * s.pending.toNat + s.handler.toNat + _ < s.work
    rw [ForkServer.work]
    omega
  | @exit i child hc hpc =>
    have hsum := set_work hc .zombie
    have hpending : (s.pending || server = .echoserverp).toNat ≤ 1 := Bool.toNat_le _
    rw [hpc] at hsum
    simp only [ChildPc.work] at hsum
    change s.parent.work + 2 * (s.pending || server = .echoserverp).toNat + s.handler.toNat + _ <
      s.work
    rw [ForkServer.work]
    simp only [ChildPc.work]
    omega
  | deliver hp hh =>
    simp only [ForkServer.work, hp, hh, Bool.toNat_true, Bool.toNat_false]
    omega
  | @reap _ i child _ hc hpc =>
    have hsum := set_work hc .reaped
    rw [hpc] at hsum
    simp only [ChildPc.work] at hsum
    change s.parent.work + 2 * s.pending.toNat + s.handler.toNat + _ < s.work
    rw [ForkServer.work]
    simp only [ChildPc.work]
    omega
  | done hh hz =>
    simp only [ForkServer.work, hh, Bool.toNat_true, Bool.toNat_false]
    omega

/-- The handler runs or is due while `echoserverp` has a zombie, and `tiny` has none to run: its
children are reaped only after its own end. -/
structure Noticed (server : Server) (s : ForkServer) : Prop where
  due : server = .echoserverp → ∀ child ∈ s.children, child.pc = .zombie →
    s.pending = true ∨ s.handler = true
  stays : server = .echoserverp → s.parent ≠ .exited
  never : server = .tiny → s.pending = false ∧ s.handler = false ∧
    (s.parent ≠ .exited → ∀ child ∈ s.children, child.pc ≠ .reaped)

theorem mem_set {child' : Forked} (h : child' ∈ (s.set i child pc).children) :
    child' ∈ s.children ∨ child'.pc = pc := by
  rcases List.mem_or_eq_of_mem_set h with hm | rfl
  · exact .inl hm
  · exact .inr rfl

theorem not_ended {old pc : ChildPc} (h : old.Moves pc) : pc ≠ .zombie ∧ pc ≠ .reaped := by
  rcases h with ⟨-, rfl⟩ | ⟨-, rfl⟩ | ⟨-, rfl⟩ <;> exact ⟨nofun, nofun⟩

theorem Noticed.step (h : Noticed server s) (hs : Serves server s a t) : Noticed server t := by
  obtain ⟨hdue, hstays, hnever⟩ := h
  cases hs with
  | accept hp | close hp =>
    refine ⟨hdue, fun _ => nofun, fun hr => ?_⟩
    obtain ⟨hpending, hh, hall⟩ := hnever hr
    exact ⟨hpending, hh, fun _ => hall (by rw [hp]; exact nofun)⟩
  | acceptFails hr hp | forkFails hr hp =>
    subst hr
    exact ⟨hdue, fun _ => nofun, nofun⟩
  | ends hr ha =>
    subst hr
    obtain ⟨hpending, hh, -⟩ := hnever rfl
    exact ⟨nofun, nofun, fun _ => ⟨hpending, hh, fun hne => absurd rfl hne⟩⟩
  | fork hp =>
    refine ⟨fun hr child hm hz => ?_, fun _ => nofun, fun hr => ?_⟩
    · rcases List.mem_append.1 hm with hm | hm
      · exact hdue hr child hm hz
      · rw [List.mem_singleton.1 hm] at hz
        cases hz
    · obtain ⟨hpending, hh, hall⟩ := hnever hr
      refine ⟨hpending, hh, fun _ child hm => ?_⟩
      rcases List.mem_append.1 hm with hm | hm
      · exact hall (by rw [hp]; exact nofun) child hm
      · rw [List.mem_singleton.1 hm]
        exact nofun
  | serves hc hpc =>
    obtain ⟨hzombie, hreaped⟩ := not_ended hpc
    refine ⟨fun hr child' hm hz => ?_, hstays, fun hr => ?_⟩
    · rcases mem_set hm with hm | he
      · exact hdue hr child' hm hz
      · exact absurd (he.symm.trans hz) hzombie
    · obtain ⟨hp, hh, hall⟩ := hnever hr
      refine ⟨hp, hh, fun hne child' hm hz => ?_⟩
      rcases mem_set hm with hm | he
      · exact hall hne child' hm hz
      · exact absurd (he.symm.trans hz) hreaped
  | exit hc hpc =>
    refine ⟨fun hr child' _ _ => .inl (by simp [hr]), hstays, fun hr => ?_⟩
    obtain ⟨hp, hh, hall⟩ := hnever hr
    refine ⟨by simp [hp, hr], hh, fun hne child' hm => ?_⟩
    rcases mem_set hm with hm | he
    · exact hall hne child' hm
    · rw [he]
      exact nofun
  | deliver hp hh =>
    refine ⟨fun _ _ _ _ => .inr rfl, hstays, fun hr => ?_⟩
    rw [(hnever hr).1] at hp
    cases hp
  | reap ha hc hpc =>
    refine ⟨fun hr child' _ _ => ?_, hstays, fun hr => ?_⟩
    · rcases ha with ⟨hh, -⟩ | ⟨hp, -⟩
      · exact .inr hh
      · exact absurd hp (hstays hr)
    · obtain ⟨hpending, hh, -⟩ := hnever hr
      refine ⟨hpending, hh, fun hne => ?_⟩
      rcases ha with ⟨hh', -⟩ | ⟨hp, -⟩
      · cases hh.symm.trans hh'
      · exact absurd hp hne
  | done hh hz =>
    refine ⟨fun hr child hm hpc => absurd hpc (hz child hm), hstays, fun hr => ?_⟩
    rw [(hnever hr).2.1] at hh
    cases hh

theorem noticed (h : (forkServer server).Reachable s) : Noticed server s := by
  apply h.invariant
  · exact ⟨fun _ _ hm => (List.not_mem_nil hm).elim, fun _ => nofun,
      fun _ => ⟨rfl, rfl, fun _ _ hm => (List.not_mem_nil hm).elim⟩⟩
  · intro s a t _ hs _ hn
    exact hs.step (next_serves hn)

/-- The connection that the parent is about to fork for. -/
def ParentPc.held : ParentPc → Option Nat
  | .fork connfd => connfd
  | _ => none

/-- The connections of the children, in the order of the forks, and that of the parent. -/
def ForkServer.served (s : ForkServer) : List Nat :=
  (s.children.map Forked.connfd).reduceOption ++ s.parent.held.toList

theorem set_served (hc : s.children[i]? = some child) (pc : ChildPc) :
    (s.set i child pc).served = s.served := by
  change ((s.children.set i { child with pc }).map Forked.connfd).reduceOption ++ _ = _
  rw [map_set_of_eq hc (show ({ child with pc } : Forked).connfd = child.connfd from rfl)]
  rfl

theorem served_fork (hp : s.parent = .fork connfd) (t : ForkServer)
    (hparent : t.parent = .close connfd)
    (hchildren : t.children.map Forked.connfd = s.children.map Forked.connfd ++ [connfd]) :
    t.served = s.served := by
  rw [ForkServer.served, ForkServer.served, hp, hparent, hchildren, List.reduceOption_append]
  cases connfd <;> simp [ParentPc.held, List.reduceOption]

/-- No connection has two children, and they are forked in the order of the connections. -/
theorem served_sublist (h : (forkServer server).Reachable s) :
    s.served.Sublist (List.range s.accepted) := by
  apply h.invariant
  · exact .refl _
  · intro s a t _ hs _ hn
    cases next_serves hn with
    | accept hp =>
      rw [ForkServer.served, hp] at hs
      rw [ForkServer.served, List.range_succ]
      simpa [ParentPc.held] using hs
    | acceptFails _ hp | close hp =>
      rw [ForkServer.served, hp] at hs
      exact hs
    | fork hp =>
      rw [served_fork hp _ rfl (by simp)]
      exact hs
    | forkFails | ends =>
      refine .trans ?_ hs
      rw [ForkServer.served, ForkServer.served]
      exact List.Sublist.append_left (by simp [ParentPc.held]) _
    | serves hc | exit hc | reap _ hc =>
      exact set_served hc _ ▸ hs
    | deliver | done => exact hs

/-- The parent waits for a connection, or is that of `tiny` and has ended. Each child has ended, and
has been reaped unless `tiny` waits. -/
structure Settled (server : Server) (s : ForkServer) : Prop where
  parent : s.parent = .accept ∨ server = .tiny ∧ s.parent = .exited
  handler : s.handler = false
  pending : s.pending = false
  ended : ∀ child ∈ s.children,
    child.pc = if server = .tiny ∧ s.parent = .accept then .zombie else .reaped

theorem settled_of_blocked (hnoticed : Noticed server s)
    (h : ∀ a, Inside s a → s.next server a = none) : Settled server s := by
  have hhandler : s.handler = false := by
    by_contra hh
    have hwait := h .waitpid trivial
    rw [ForkServer.next, if_pos (by simpa using hh)] at hwait
    cases hz : s.zombie with
    | none => simp [hz] at hwait
    | some i =>
      simp only [hz, Option.map_eq_none_iff, List.getElem?_eq_none_iff] at hwait
      rw [ForkServer.zombie, List.findIdx?_eq_some_iff_getElem] at hz
      obtain ⟨hlt, -⟩ := hz
      omega
  have hpending : s.pending = false := by
    by_contra hp
    have hdeliver := h .deliver trivial
    simp [ForkServer.next, hhandler, hp] at hdeliver
  have hparent : s.parent = .accept ∨ server = .tiny ∧ s.parent = .exited := by
    have hstep := h .parent trivial
    rw [ForkServer.next, hhandler] at hstep
    cases hp : s.parent with
    | accept => exact .inl rfl
    | exited =>
      cases server with
      | echoserverp => exact absurd hp (hnoticed.stays rfl)
      | tiny => exact .inr ⟨rfl, rfl⟩
    | fork connfd | close connfd => simp [hp] at hstep
  refine ⟨hparent, hhandler, hpending, fun child hm => ?_⟩
  obtain ⟨i, hlt, rfl⟩ := List.getElem_of_mem hm
  have hchild := h (.child i) trivial
  rw [ForkServer.next, List.getElem?_eq_getElem hlt] at hchild
  have hended : s.children[i].pc = .zombie ∨ s.children[i].pc = .reaped := by
    cases hpc : s.children[i].pc with
    | zombie => exact .inl rfl
    | reaped => exact .inr rfl
    | closeListen | serve | close | exit => simp [hpc] at hchild
  have hdue := hnoticed.due
  rw [hpending, hhandler] at hdue
  cases server with
  | echoserverp =>
    rw [if_neg (by simp)]
    exact hended.resolve_left fun hz => by simpa using hdue rfl _ hm hz
  | tiny =>
    rcases hparent with hp | ⟨-, hp⟩
    · rw [if_pos ⟨rfl, hp⟩]
      exact hended.resolve_right ((hnoticed.never rfl).2.2 (by rw [hp]; exact nofun) _ hm)
    · have hreaps := h (.initReaps i) trivial
      rw [ForkServer.next, if_pos hp, List.getElem?_eq_getElem hlt] at hreaps
      rw [if_neg (by simp [hp])]
      exact hended.resolve_left fun hz => by simp [hz] at hreaps

/-- Once `accept` does not return any more, the processes take only so many more steps, in whatever
order. Where they have none left, `echoserverp` has reaped every child, and `tiny` has reaped none,
unless it has ended. -/
theorem fork_server_settles (s : ForkServer) (h : (forkServer server).Reachable s) :
    s.served.Sublist (List.range s.accepted) ∧
    (∀ as t, (forkServer server).Along Inside s as → (forkServer server).exec s as = some t →
      as.length ≤ s.work) ∧
    ∀ as t, (forkServer server).Along Inside s as → (forkServer server).exec s as = some t →
      (∀ a, Inside t a → t.next server a = none) → Settled server t := by
  refine ⟨served_sublist h, fun as t has he => ?_, fun as t has he hblocked => ?_⟩
  · have hlength := Machine.exec_length_le ForkServer.work
      (fun ha hnext => serves_work ha (next_serves hnext)) has he
    omega
  · exact settled_of_blocked (noticed (h.exec (has.mono fun _ => trivial) he)) hblocked

end server

/-- Two children, whose `SIGCHLD`s come as one. -/
def twoChildren : List ForkAction :=
  [.parent, .parent, .child 0, .child 1, .child 0, .child 0, .childFails 1, .child 0, .child 1,
    .deliver, .waitpid, .waitpid, .waitpid]

theorem two_children_reaped : ∃ s t, (forkServer .echoserverp).exec s twoChildren = some t ∧
    s.served = [0, 1] ∧ s.served.Sublist (List.range s.accepted) ∧
    twoChildren.length ≤ s.work ∧ Settled .echoserverp t := by
  let s : ForkServer := ⟨.fork (some 1), false, false, 2, [⟨some 0, .closeListen⟩]⟩
  have hs : (forkServer .echoserverp).Reachable s :=
    Machine.Reach.start.exec (Machine.along_true _ [.accept, .parent, .parent, .accept]) rfl
  let t : ForkServer := ⟨.accept, false, false, 2, [⟨some 0, .reaped⟩, ⟨some 1, .reaped⟩]⟩
  have ht : (forkServer .echoserverp).exec s twoChildren = some t := rfl
  have hinside : (forkServer .echoserverp).Along Inside s twoChildren := by decide
  have hblocked : ∀ a, Inside t a → t.next .echoserverp a = none := by
    intro a ha
    cases a with
    | accept | acceptFails => exact ha.elim
    | child i | childFails i => rcases i with _ | _ | i <;> rfl
    | parent | forkFails | deliver | waitpid | initReaps => rfl
  obtain ⟨hserved, hbound, hsettled⟩ := fork_server_settles s hs
  exact ⟨s, t, ht, rfl, hserved, hbound _ t hinside ht, hsettled _ t hinside ht hblocked⟩

end Cs324.Csapp
