import Cs324.Base.CString
import Cs324.ThreadPool.Serving

namespace Cs324.ThreadPool
set_option autoImplicit true

/-- The socket that was opened for the connection and is not closed again. -/
def Stage.server : Stage → Option Nat
  | .connect _ _ sfd | .closeServer _ _ sfd | .send sfd _ | .receive sfd _ | .respond sfd _
  | .closeClient sfd | .finished sfd => some sfd
  | .queued | .request | .lookup _ | .socket _ _ => none

def Stage.isFinished : Stage → Bool
  | .finished _ => true
  | _ => false

/-- No connection is waiting or being served. -/
def Serving.Idle (s : Serving) : Prop := ∀ conn ∈ s.conns, conn.stage.isFinished

instance (s : Serving) : Decidable s.Idle := inferInstanceAs (Decidable (∀ conn ∈ s.conns, _))

/-- The descriptors that the code still has to close for a connection. -/
def Conn.fd (c : Conn) : Side → Option Nat
  | .client => if c.stage.isFinished then none else some c.connfd
  | .server => c.stage.server

/-- What a call does to the table, seen with the descriptors of its connection. -/
inductive Effect (number : Nat) (t : Descriptors Socket) (c c' : Conn) : Descriptors Socket → Prop
  | same (h : c'.fd = c.fd) : Effect number t c c' t
  | opened (side : Side) (hu : t fd = none) (hn : c.fd side = none)
      (h : c'.fd = Function.update c.fd side (some fd)) :
      Effect number t c c' (Function.update t fd (some (.peer number side)))
  | closed (side : Side) (ho : c.fd side = some fd) (h : c'.fd = Function.update c.fd side none) :
      Effect number t c c' (Function.update t fd none)

theorem addressLoop_some (h : addressLoop serverReq addresses = some stage) :
    stage = .socket serverReq addresses := by
  cases addresses with
  | zero => cases h
  | succ addresses =>
    cases h
    rfl

theorem sendLoop_eq (sfd charsLeft : Nat) :
    (sendLoop sfd charsLeft).isFinished = false ∧ (sendLoop sfd charsLeft).server = some sfd := by
  cases charsLeft <;> exact ⟨rfl, rfl⟩

theorem respondLoop_eq (sfd charsLeft : Nat) :
    (respondLoop sfd charsLeft).isFinished = false ∧
      (respondLoop sfd charsLeft).server = some sfd := by
  cases charsLeft <;> exact ⟨rfl, rfl⟩

theorem fd_eq {stage stage' : Stage} (hf : stage'.isFinished = stage.isFinished)
    (hs : stage'.server = stage.server) :
    (Conn.mk connfd stage').fd = (Conn.mk connfd stage).fd := by
  funext side
  cases side with
  | client => simp only [Conn.fd, hf]
  | server => exact hs

theorem fd_server {stage stage' : Stage} (hf : stage'.isFinished = stage.isFinished)
    (hs : stage'.server = server) :
    (Conn.mk connfd stage').fd = Function.update (Conn.mk connfd stage).fd .server server := by
  funext side
  cases side with
  | client => simp [Conn.fd, hf]
  | server => simpa [Conn.fd] using hs

theorem next_effect (h : Conn.next c number t call = some (stage, t')) :
    Effect number t c { c with stage } t' := by
  obtain ⟨connfd, old⟩ := c
  cases old with
  | queued =>
    cases call with
    | remove =>
      cases h
      exact .same (fd_eq rfl rfl)
    | _ => cases h
  | request =>
    cases call with
    | request serverReq =>
      cases h
      exact .same (fd_eq rfl rfl)
    | _ => cases h
  | lookup serverReq =>
    cases call with
    | getaddrinfo addresses =>
      obtain ⟨stage, hl, he⟩ := Option.map_eq_some_iff.1 h
      cases he
      rw [addressLoop_some hl]
      exact .same (fd_eq rfl rfl)
    | _ => cases h
  | socket serverReq addresses =>
    cases call with
    | socket sfd =>
      cases sfd with
      | none =>
        obtain ⟨stage, hl, he⟩ := Option.map_eq_some_iff.1 h
        cases he
        rw [addressLoop_some hl]
        exact .same (fd_eq rfl rfl)
      | some sfd =>
        obtain ⟨t, hi, he⟩ := Option.map_eq_some_iff.1 h
        cases he
        obtain ⟨hu, rfl⟩ := Descriptors.install_eq_some.1 hi
        exact .opened .server hu rfl (fd_server rfl rfl)
    | _ => cases h
  | connect serverReq addresses sfd =>
    cases call with
    | connect connected =>
      cases connected with
      | true =>
        cases h
        obtain ⟨hf, hs⟩ := sendLoop_eq sfd serverReq.length
        exact .same (fd_eq hf hs)
      | false =>
        cases h
        exact .same (fd_eq rfl rfl)
    | _ => cases h
  | closeServer serverReq addresses sfd =>
    cases call with
    | close =>
      obtain ⟨stage, hl, he⟩ := Option.map_eq_some_iff.1 h
      cases he
      rw [addressLoop_some hl]
      exact .closed .server rfl (fd_server rfl rfl)
    | _ => cases h
  | send sfd charsLeft =>
    cases call with
    | write charsWritten =>
      obtain ⟨_, he⟩ := Option.ite_none_right_eq_some.1 h
      cases he
      obtain ⟨hf, hs⟩ := sendLoop_eq sfd (charsLeft - charsWritten)
      exact .same (fd_eq hf hs)
    | _ => cases h
  | receive sfd numBytesRead =>
    cases call with
    | read curRead =>
      cases curRead with
      | zero =>
        cases h
        obtain ⟨hf, hs⟩ := respondLoop_eq sfd numBytesRead
        exact .same (fd_eq hf hs)
      | succ curRead =>
        cases h
        exact .same (fd_eq rfl rfl)
    | _ => cases h
  | respond sfd charsLeft =>
    cases call with
    | write charsWritten =>
      obtain ⟨_, he⟩ := Option.ite_none_right_eq_some.1 h
      cases he
      obtain ⟨hf, hs⟩ := respondLoop_eq sfd (charsLeft - charsWritten)
      exact .same (fd_eq hf hs)
    | _ => cases h
  | closeClient sfd =>
    cases call with
    | close =>
      cases h
      refine .closed .client rfl (funext fun side => ?_)
      cases side with
      | client => rfl
      | server => rfl
    | _ => cases h
  | finished => cases h

/-- Which descriptor is used for what. -/
def Uses (opened : Nat → Bool) (conns : List Conn) (fd : Nat) : Socket → Prop
  | .inherited => opened fd
  | .peer number side => conns[number]?.bind (·.fd side) = some fd

section uses
variable {opened : Nat → Bool} {conns : List Conn} {c c' : Conn} {number : Nat}
  {t t' : Descriptors Socket}

theorem bind_set (hn : conns[number]? = some c) (c' : Conn) (f : Conn → Option Nat) (k : Nat) :
    (conns.set number c')[k]?.bind f = if k = number then f c' else conns[k]?.bind f := by
  obtain ⟨hlt, _⟩ := List.getElem?_eq_some_iff.1 hn
  rw [List.getElem?_set]
  by_cases hk : k = number
  · simp [hk, hlt]
  · simp [hk, Ne.symm hk]

theorem bind_append (c : Conn) (f : Conn → Option Nat) (k : Nat) :
    (conns ++ [c])[k]?.bind f = if k = conns.length then f c else conns[k]?.bind f := by
  rcases Nat.lt_trichotomy k conns.length with hk | rfl | hk
  · rw [List.getElem?_append_left hk, if_neg (Nat.ne_of_lt hk)]
  · simp
  · rw [if_neg (Nat.ne_of_gt hk), List.getElem?_eq_none (by simp; omega),
      List.getElem?_eq_none (Nat.le_of_lt hk)]

theorem describes_accept (h : t.Describes (Uses opened conns)) (hu : t connfd = none) :
    Descriptors.Describes (Function.update t connfd (some (.peer conns.length .client)))
      (Uses opened (conns ++ [⟨connfd, .queued⟩])) := by
  apply h.install hu
  intro fd socket
  cases socket with
  | inherited => simp [Uses]
  | peer k side =>
    simp only [Uses, bind_append]
    by_cases hk : k = conns.length
    · subst hk
      cases side with
      | client => simpa [Conn.fd, Stage.isFinished] using eq_comm
      | server => simp [Conn.fd, Stage.server]
    · simp [hk]

/-- A call keeps the table in step with what the connections use. -/
theorem Effect.describes (he : Effect number t c c' t') (hn : conns[number]? = some c)
    (h : t.Describes (Uses opened conns)) : t'.Describes (Uses opened (conns.set number c')) := by
  cases he with
  | same hfd =>
    apply h.congr
    intro fd socket
    cases socket with
    | inherited => exact Iff.rfl
    | peer k side =>
      simp only [Uses, bind_set hn]
      by_cases hk : k = number
      · simp [hk, hfd, hn]
      · simp [hk]
  | opened side hu h0 hfd =>
    apply h.install hu
    intro fd' socket
    cases socket with
    | inherited => simp [Uses]
    | peer k side' =>
      simp only [Uses, bind_set hn, hfd]
      by_cases hk : k = number
      · by_cases hs : side' = side
        · simp [hk, hs, hn, h0, eq_comm]
        · simp [hk, hs, hn]
      · simp [hk]
  | @closed fd side ho hfd =>
    have howner : t fd = some (.peer number side) := by
      rw [h]
      simp [Uses, hn, ho]
    apply h.close
    intro fd' socket
    have hother : Uses opened conns fd' socket → fd' = fd → socket = .peer number side := by
      rintro hu rfl
      exact Option.some.inj (((h _ _).2 hu).symm.trans howner)
    cases socket with
    | inherited =>
      constructor
      · intro hu
        exact ⟨hu, fun he => nomatch hother hu he⟩
      · exact And.left
    | peer k side' =>
      by_cases hown : k = number ∧ side' = side
      · obtain ⟨rfl, rfl⟩ := hown
        simp [Uses, bind_set hn, hfd, hn, ho, eq_comm]
      · have hsame : Uses opened (conns.set number c') fd' (.peer k side') ↔
            Uses opened conns fd' (.peer k side') := by
          simp only [Uses, bind_set hn, hfd]
          by_cases hk : k = number
          · simp [hk, hn, Function.update_of_ne fun hs => hown ⟨hk, hs⟩]
          · simp [hk]
        rw [hsame]
        constructor
        · intro hu
          exact ⟨hu, fun he => hown (by cases hother hu he; exact ⟨rfl, rfl⟩)⟩
        · exact And.left

end uses

/-- The table in a reachable state. -/
theorem describes (h : (serving opened).Reachable s) :
    s.descriptors.Describes (Uses opened s.conns) := by
  apply h.invariant (I := fun s => s.descriptors.Describes (Uses opened s.conns))
  · intro fd socket
    cases socket <;> simp [serving, Uses]
  · intro s a s' _ hs _ hn
    cases a with
    | accept connfd =>
      obtain ⟨t, hi, rfl⟩ := Option.map_eq_some_iff.1 hn
      obtain ⟨hu, rfl⟩ := Descriptors.install_eq_some.1 hi
      exact describes_accept hs hu
    | call number call =>
      simp only [serving, Serving.next, Option.bind_eq_bind, Option.bind_eq_some_iff,
        Option.pure_def, Option.some.injEq] at hn
      obtain ⟨c, hc, ⟨stage, t⟩, he, rfl⟩ := hn
      exact (next_effect he).describes hc hs

theorem isFinished_eq {stage : Stage} (h : stage.isFinished) : ∃ sfd, stage = .finished sfd := by
  cases stage with
  | finished sfd => exact ⟨sfd, rfl⟩
  | _ => cases h

section idle
variable {s : Serving} {opened : Nat → Bool} {conn : Conn} {number : Nat}

theorem finished_server (h : (serving opened).Reachable s) (hn : s.conns[number]? = some conn)
    (hf : conn.stage = .finished sfd) : s.descriptors sfd = some (.peer number .server) := by
  rw [describes h]
  simp [Uses, hn, Conn.fd, hf, Stage.server]

/-- When nothing is being served, each connection has left the socket to its server. -/
theorem idle_open_iff (h : (serving opened).Reachable s) (hi : s.Idle) (fd : Nat) :
    (s.descriptors fd).isSome ↔ opened fd ∨ ∃ (number : Nat) (conn : Conn),
      s.conns[number]? = some conn ∧ conn.stage = .finished fd := by
  rw [Option.isSome_iff_exists]
  constructor
  · rintro ⟨socket, hs⟩
    have hu := (describes h fd socket).1 hs
    cases socket with
    | inherited => exact .inl hu
    | peer number side =>
      obtain ⟨conn, hn, hfd⟩ := Option.bind_eq_some_iff.1 hu
      obtain ⟨sfd, hf⟩ := isFinished_eq (hi conn (List.mem_of_getElem? hn))
      refine .inr ⟨number, conn, hn, ?_⟩
      cases side with
      | client => simp [Conn.fd, hf, Stage.isFinished] at hfd
      | server => simpa [Conn.fd, hf, Stage.server] using hfd
  · rintro (ho | ⟨number, conn, hn, hf⟩)
    · exact ⟨.inherited, (describes h fd _).2 ho⟩
    · exact ⟨_, finished_server h hn hf⟩

end idle

/-- The open descriptors are those from before the first `accept` only as long as no connection
has been served. -/
theorem descriptors_restored_iff (opened : Nat → Bool) (s : Serving)
    (h : (serving opened).Reachable s) (hi : s.Idle) :
    (∀ fd, (s.descriptors fd).isSome = opened fd) ↔ s.conns = [] := by
  constructor
  · intro hall
    cases hc : s.conns with
    | nil => rfl
    | cons conn conns =>
      obtain ⟨sfd, hf⟩ := isFinished_eq (hi conn (by rw [hc]; exact List.mem_cons_self))
      have hn : s.conns[0]? = some conn := by rw [hc, List.getElem?_cons_zero]
      have hs := finished_server h hn hf
      have ho : s.descriptors sfd = some .inherited := by
        rw [describes h]
        exact (hall sfd).symm.trans (by rw [hs, Option.isSome_some])
      exact nomatch hs.symm.trans ho
  · intro hc fd
    have hopen := idle_open_iff h hi fd
    simp only [hc, List.getElem?_nil, reduceCtorEq, false_and, exists_false, or_false] at hopen
    exact Bool.eq_iff_iff.2 hopen

/-- One request, for which each call succeeds at once. -/
def oneServed : List Event :=
  [.accept 4, .call 0 .remove, .call 0 (.request (chars "GET / HTTP/1.0\r\n\r\n")),
    .call 0 (.getaddrinfo 1), .call 0 (.socket (some 5)), .call 0 (.connect true),
    .call 0 (.write 18), .call 0 (.read 7), .call 0 (.read 0), .call 0 (.write 7), .call 0 .close]

theorem server_socket_left_open : ∃ s, (serving (· < 4)).Reachable s ∧ s.Idle ∧
    (s.descriptors 5).isSome ≠ decide (5 < 4) := by
  apply Machine.exists_reach_of_exec (serving (· < 4)) _ oneServed
  · exact Machine.along_true _ _
  · decide +kernel

theorem descriptors_restored_iff_one : ∃ s, (serving (· < 4)).Reachable s ∧ s.Idle ∧
    ((∀ fd, (s.descriptors fd).isSome = decide (fd < 4)) ↔ s.conns = []) := by
  obtain ⟨s, hs, hi⟩ := Machine.exists_reach_of_exec (serving (· < 4)) (fun _ _ => True) oneServed
    (P := Serving.Idle) (Machine.along_true _ _) (by decide +kernel)
  exact ⟨s, hs, hi, descriptors_restored_iff _ s hs hi⟩

end Cs324.ThreadPool
