import Cs324.ThreadPool.Sockets
import Cs324.ThreadPool.Worker

namespace Cs324.ThreadPool
set_option autoImplicit true

/-- The calls of one worker for its connection. -/
def handling (connfd number : Nat) (t : Descriptors Socket) :
    Machine (Stage × Descriptors Socket) Call where
  start := (.request, t)
  next s call := Conn.next ⟨connfd, s.1⟩ number s.2 call

/-- The calls that the results of `connect` and `socket` are from, when the socket is `sfd`. -/
def connectCalls (sfd : Nat) : List Attempt → List Call
  | [] => []
  | .connected :: _ => [.socket (some sfd), .connect true]
  | .noSocket :: attempts => .socket none :: connectCalls sfd attempts
  | .refused :: attempts =>
    .socket (some sfd) :: .connect false :: .close :: connectCalls sfd attempts

def writeCalls : Nat → List Nat → List Call
  | 0, _ => []
  | charsLeft + 1, [] => [.write (charsLeft + 1)]
  | charsLeft + 1, count :: counts =>
    .write (min (count + 1) (charsLeft + 1)) :: writeCalls (charsLeft + 1 - (count + 1)) counts

def readCalls (reads : List Chunk) : List Call :=
  reads.map (fun chunk => .read chunk.1.length) ++ [.read 0]

section parts
variable {connfd number sfd : Nat} {t u : Descriptors Socket}

theorem addressLoop_of_connectLoop (h : connectLoop attempts = .ok ()) (serverReq : List UInt8) :
    addressLoop serverReq attempts.length = some (.socket serverReq attempts.length) := by
  cases attempts with
  | nil => cases h
  | cons attempt attempts => rfl

theorem connectLoop_calls (h : connectLoop attempts = .ok ()) (hfree : u sfd = none)
    (serverReq : List UInt8) :
    (handling connfd number t).exec (.socket serverReq attempts.length, u)
      (connectCalls sfd attempts) = some (sendLoop sfd serverReq.length,
        Function.update u sfd (some (.peer number .server))) := by
  induction attempts with
  | nil => cases h
  | cons attempt attempts ih =>
    have hopen : (handling connfd number t).next (.socket serverReq (attempts.length + 1), u)
        (.socket (some sfd)) = some (.connect serverReq (attempts.length + 1) sfd,
          Function.update u sfd (some (.peer number .server))) := by
      simp only [handling, Conn.next, Descriptors.install_unused hfree, Option.map_some]
    cases attempt with
    | connected => exact Machine.exec_of_next hopen _
    | noSocket =>
      replace h : connectLoop attempts = .ok () := h
      have hnext : (handling connfd number t).next (.socket serverReq (attempts.length + 1), u)
          (.socket none) = some (.socket serverReq attempts.length, u) := by
        simp only [handling, Conn.next, Nat.add_sub_cancel, addressLoop_of_connectLoop h,
          Option.map_some]
      exact (Machine.exec_of_next hnext _).trans (ih h)
    | refused =>
      replace h : connectLoop attempts = .ok () := h
      have hclose : (handling connfd number t).next
          (.closeServer serverReq (attempts.length + 1) sfd,
            Function.update u sfd (some (.peer number .server))) .close =
          some (.socket serverReq attempts.length, u) := by
        have hu : Function.update u sfd none = u := by
          rw [← hfree, Function.update_eq_self]
        simp only [handling, Conn.next, Nat.add_sub_cancel, addressLoop_of_connectLoop h,
          Option.map_some, Function.update_idem, hu]
      rw [connectCalls, List.length_cons, Machine.exec_of_next hopen, Machine.exec_of_next rfl,
        Machine.exec_of_next hclose]
      exact ih h

/-- Both loops that write: `loop` is where they are with so many bytes left. -/
theorem writeLoop_calls (loop : Nat → Stage)
    (hloop : ∀ charsLeft n, n ≤ charsLeft + 1 → (handling connfd number t).next
      (loop (charsLeft + 1), u) (.write n) = some (loop (charsLeft + 1 - n), u))
    (charsLeft : Nat) (counts : List Nat) :
    (handling connfd number t).exec (loop charsLeft, u) (writeCalls charsLeft counts) =
      some (loop 0, u) := by
  induction counts generalizing charsLeft with
  | nil =>
    cases charsLeft with
    | zero => rfl
    | succ charsLeft =>
      rw [writeCalls, Machine.exec_of_next (hloop charsLeft _ le_rfl), Nat.sub_self]
      rfl
  | cons count counts ih =>
    cases charsLeft with
    | zero => rfl
    | succ charsLeft =>
      have hmin : charsLeft + 1 - min (count + 1) (charsLeft + 1) =
          charsLeft + 1 - (count + 1) := by
        omega
      rw [writeCalls, Machine.exec_of_next (hloop charsLeft _ (Nat.min_le_right _ _)), hmin]
      exact ih _

theorem readLoop_calls (reads : List Chunk) (n : Nat) :
    (handling connfd number t).exec (.receive sfd n, u) (readCalls reads) =
      some (respondLoop sfd (n + (received reads).length), u) := by
  induction reads generalizing n with
  | nil => rfl
  | cons chunk reads ih =>
    have hread : (handling connfd number t).next (.receive sfd n, u) (.read chunk.1.length) =
        some (.receive sfd (n + chunk.1.length), u) := by
      obtain ⟨k, hk⟩ := Nat.exists_eq_succ_of_ne_zero (List.length_pos_iff.2 chunk.2).ne'
      rw [hk]
      rfl
    have hlength : (received (chunk :: reads)).length =
        chunk.1.length + (received reads).length := by
      simp [received]
    rw [readCalls, List.map_cons, List.cons_append, Machine.exec_of_next hread, hlength,
      ← Nat.add_assoc]
    exact ih _

end parts

/-- The calls for a connection up to the `close` in `thread`, with the results that its peers
give. -/
def Peers.calls (p : Peers) (sfd : Nat) (serverReq : List UInt8) (attempts : List Attempt) :
    List Call :=
  .request serverReq :: .getaddrinfo attempts.length :: (connectCalls sfd attempts ++
    (writeCalls serverReq.length p.toServer.counts ++ (readCalls p.server.reads ++
      (writeCalls (received p.server.reads).length p.toClient.counts ++ [.close]))))

/-- When the worker comes back, its calls have left the socket to the server open. -/
theorem handled_calls {p : Peers} {t : Descriptors Socket}
    (h : actAsServerAndClient m p = .ok handled) (hfree : t sfd = none) (connfd number : Nat) :
    ∃ r attempts, clientToProxy m p.client = .ok (some r, handled.unread) ∧
      p.lookup r.hostname r.port = some attempts ∧
      (handling connfd number t).exec (.request, t) (p.calls sfd r.serverReq attempts) =
        some (.finished sfd,
          Function.update (Function.update t sfd (some (.peer number .server))) connfd none) := by
  obtain ⟨r, hfirst, hsend, -⟩ := actAsServerAndClient_ok h
  obtain ⟨attempts, hl, hconnected, -⟩ := sendRequestToServer_ok.1 hsend
  have hloop := connectLoop_ok.2 hconnected
  have hlookup : (handling connfd number t).next (.lookup r.serverReq, t)
      (.getaddrinfo attempts.length) = some (.socket r.serverReq attempts.length, t) := by
    simp only [handling, Conn.next, addressLoop_of_connectLoop hloop, Option.map_some]
  have hsends : ∀ u charsLeft n, n ≤ charsLeft + 1 → (handling connfd number t).next
      (sendLoop sfd (charsLeft + 1), u) (.write n) =
        some (sendLoop sfd (charsLeft + 1 - n), u) := by
    intro u charsLeft n hn
    exact if_pos hn
  have hresponds : ∀ u charsLeft n, n ≤ charsLeft + 1 → (handling connfd number t).next
      (respondLoop sfd (charsLeft + 1), u) (.write n) =
        some (respondLoop sfd (charsLeft + 1 - n), u) := by
    intro u charsLeft n hn
    exact if_pos hn
  refine ⟨r, attempts, hfirst, hl, ?_⟩
  rw [Peers.calls, Machine.exec_of_next rfl, Machine.exec_of_next hlookup, Machine.exec_append,
    connectLoop_calls hloop hfree, Option.bind_some, Machine.exec_append,
    writeLoop_calls (sendLoop sfd) (hsends _), Option.bind_some, Machine.exec_append, sendLoop,
    readLoop_calls, Option.bind_some, Machine.exec_append, Nat.zero_add,
    writeLoop_calls (respondLoop sfd) (hresponds _), Option.bind_some]
  rfl

end Cs324.ThreadPool
