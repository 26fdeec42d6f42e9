import Cs324.Base.CLib
import Cs324.Base.Machine

namespace Cs324.SocketClient
set_option autoImplicit true

/-- What the client does next, with the `len` of its first loop. -/
inductive ClientPc
  | write (len : Nat)
  | read
  | done
  deriving DecidableEq

/-- What the server does next, with the bytes that it has to send back. -/
inductive ServerPc
  | recv
  | send (buf : List UInt8)
  | done
  deriving DecidableEq

/-- The two programs and the bytes on their way between them, with a record of what the client has
written and read. -/
structure Conversation where
  client : ClientPc
  server : ServerPc
  toServer : List UInt8
  toClient : List UInt8
  sent : List UInt8
  received : List UInt8
  deriving DecidableEq

/-- A call that returns, with the count that it returns. -/
inductive Talk
  | write (count : Nat)
  | writeFails
  | read (count : Nat)
  | readFails
  | clientEof
  | recv (count : Nat)
  | recvFails
  | serverEof
  | send (count : Nat)
  | sendFails
  deriving DecidableEq

/-- The test of the client's first loop. -/
def sending (request : List UInt8) (len : Nat) : ClientPc :=
  if len < request.length then .write len else .read

namespace Conversation

/-- A step, where the client takes `request` for its input. Each `write` starts at the front of
`buf`, and what a `send` does not take is dropped. A program reads the end of the stream when the
other has ended. -/
def next (request : List UInt8) (s : Conversation) : Talk → Option Conversation
  | .write count =>
    match s.client with
    | .write len =>
      if 1 ≤ count ∧ count ≤ request.length then
        some { s with
          client := sending request (len + count)
          toServer := s.toServer ++ request.take count
          sent := s.sent ++ request.take count }
      else none
    | _ => none
  | .writeFails =>
    match s.client with
    | .write len => some { s with client := sending request (sizeT (len - 1)) }
    | _ => none
  | .read count =>
    if s.client = .read ∧ 1 ≤ count ∧ count ≤ 4096 ∧ count ≤ s.toClient.length then
      some { s with
        toClient := s.toClient.drop count
        received := s.received ++ s.toClient.take count }
    else none
  | .readFails => if s.client = .read then some { s with client := .done } else none
  | .clientEof =>
    if s.client = .read ∧ s.server = .done ∧ s.toClient = [] then
      some { s with client := .done }
    else none
  | .recv count =>
    if s.server = .recv ∧ 1 ≤ count ∧ count ≤ 500 ∧ count ≤ s.toServer.length then
      some { s with
        server := .send (s.toServer.take count)
        toServer := s.toServer.drop count }
    else none
  | .recvFails => if s.server = .recv then some s else none
  | .serverEof =>
    if s.server = .recv ∧ s.client = .done ∧ s.toServer = [] then
      some { s with server := .done }
    else none
  | .send count =>
    match s.server with
    | .send buf =>
      if count ≤ buf.length then
        some { s with server := .recv, toClient := s.toClient ++ buf.take count }
      else none
    | _ => none
  | .sendFails =>
    match s.server with
    | .send _ => some { s with server := .recv }
    | _ => none

end Conversation

def conversation (request : List UInt8) : Machine Conversation Talk where
  start := ⟨sending request 0, .recv, [], [], [], []⟩
  next := Conversation.next request

/-- No call fails, and each `send` takes all that it is given. -/
def Undisturbed (s : Conversation) : Talk → Prop
  | .writeFails | .readFails | .recvFails | .sendFails => False
  | .send count => ∀ buf, s.server = .send buf → count = buf.length
  | _ => True

/-- What a step of an undisturbed conversation does. -/
inductive Talks (request : List UInt8) (s : Conversation) : Conversation → Prop
  | write (hc : s.client = .write len) (hpos : 1 ≤ count) (hle : count ≤ request.length) :
      Talks request s { s with
        client := sending request (len + count)
        toServer := s.toServer ++ request.take count
        sent := s.sent ++ request.take count }
  | read (hc : s.client = .read) (hpos : 1 ≤ count) (hle : count ≤ s.toClient.length) :
      Talks request s { s with
        toClient := s.toClient.drop count
        received := s.received ++ s.toClient.take count }
  | clientEof (hc : s.client = .read) (hs : s.server = .done) :
      Talks request s { s with client := .done }
  | recv (hs : s.server = .recv) (hpos : 1 ≤ count) (hle : count ≤ s.toServer.length) :
      Talks request s { s with
        server := .send (s.toServer.take count)
        toServer := s.toServer.drop count }
  | serverEof (hs : s.server = .recv) (hc : s.client = .done) :
      Talks request s { s with server := .done }
  | send (hs : s.server = .send buf) :
      Talks request s { s with server := .recv, toClient := s.toClient ++ buf }

theorem next_talks {s t : Conversation} (ha : Undisturbed s a) (h : s.next request a = some t) :
    Talks request s t := by
  cases a with
  | write count =>
    cases hc : s.client with
    | write len =>
      simp only [Conversation.next, hc, Option.ite_none_right_eq_some] at h
      obtain ⟨⟨hpos, hle⟩, h⟩ := h
      cases h
      exact .write hc hpos hle
    | read | done => simp [Conversation.next, hc] at h
  | read count =>
    rw [Conversation.next, Option.ite_none_right_eq_some] at h
    obtain ⟨⟨hc, hpos, -, hle⟩, h⟩ := h
    cases h
    exact .read hc hpos hle
  | clientEof =>
    rw [Conversation.next, Option.ite_none_right_eq_some] at h
    obtain ⟨⟨hc, hs, -⟩, h⟩ := h
    cases h
    exact .clientEof hc hs
  | recv count =>
    rw [Conversation.next, Option.ite_none_right_eq_some] at h
    obtain ⟨⟨hs, hpos, -, hle⟩, h⟩ := h
    cases h
    exact .recv hs hpos hle
  | serverEof =>
    rw [Conversation.next, Option.ite_none_right_eq_some] at h
    obtain ⟨⟨hs, hc, -⟩, h⟩ := h
    cases h
    exact .serverEof hs hc
  | send count =>
    cases hs : s.server with
    | send buf =>
      obtain rfl := ha buf hs
      simp only [Conversation.next, hs, le_refl, ↓reduceIte, List.take_length] at h
      cases h
      exact .send hs
    | recv | done => simp [Conversation.next, hs] at h
  | writeFails | readFails | recvFails | sendFails => exact ha.elim

/-- What the server holds. -/
def ServerPc.held : ServerPc → List UInt8
  | .send buf => buf
  | .recv | .done => []

/-- Neither program ends, and each byte that the client has written is on its way or back. -/
structure Echoing (request : List UInt8) (s : Conversation) : Prop where
  order : s.received ++ (s.toClient ++ (s.server.held ++ s.toServer)) = s.sent
  client : s.client ≠ .done
  server : s.server ≠ .done
  writing : ∀ {len}, s.client = .write len → len < request.length

theorem sending_cases (request : List UInt8) (len : Nat) :
    (sending request len = .write len ∧ len < request.length) ∨ sending request len = .read := by
  rw [sending]
  split
  · exact .inl ⟨rfl, ‹_›⟩
  · exact .inr rfl

theorem sending_writing (h : sending request len = .write len') : len' < request.length := by
  rcases sending_cases request len with ⟨he, hlt⟩ | he
  · rw [he] at h
    cases h
    exact hlt
  · rw [he] at h
    cases h

theorem sending_ne_done (request : List UInt8) (len : Nat) : sending request len ≠ .done := by
  rcases sending_cases request len with ⟨he, -⟩ | he <;> rw [he] <;> exact nofun

theorem Echoing.step {s t : Conversation} (h : Echoing request s) (ht : Talks request s t) :
    Echoing request t := by
  obtain ⟨horder, hclient, hserver, hwriting⟩ := h
  cases ht with
  | write hc hpos hle =>
    refine ⟨?_, sending_ne_done _ _, hserver, sending_writing⟩
    rw [← horder]
    simp
  | @read count hc hpos hle =>
    refine ⟨?_, hclient, hserver, hwriting⟩
    dsimp only
    rw [List.append_assoc, ← List.append_assoc (s.toClient.take count), List.take_append_drop]
    exact horder
  | clientEof hc hs => exact absurd hs hserver
  | @recv count hs hpos hle =>
    refine ⟨?_, hclient, nofun, hwriting⟩
    rw [← horder, hs]
    simp [ServerPc.held]
  | serverEof hs hc => exact absurd hc hclient
  | send hs =>
    refine ⟨?_, hclient, nofun, hwriting⟩
    rw [← horder, hs]
    simp [ServerPc.held]

theorem echoing {s : Conversation} (h : (conversation request).Reach Undisturbed s) :
    Echoing request s := by
  apply h.invariant
  · exact ⟨rfl, sending_ne_done _ _, nofun, sending_writing⟩
  · intro s a t _ hs ha hn
    exact hs.step (next_talks ha hn)

def ClientPc.work (size : Nat) : ClientPc → Nat
  | .write len => (size - len) * (4 * size + 1)
  | .read | .done => 0

def ServerPc.work : ServerPc → Nat
  | .send buf => 2 * buf.length + 1
  | .recv | .done => 0

/-- A bound on the steps that are left: each byte is received, sent back and read, and each `write`
may put the whole request on its way again. -/
def Conversation.work (request : List UInt8) (s : Conversation) : Nat :=
  s.client.work request.length + 4 * s.toServer.length + s.server.work + s.toClient.length

theorem sending_work (hpos : 1 ≤ count) (hle : count ≤ request.length)
    (hlt : len < request.length) :
    (sending request (len + count)).work request.length + 4 * count <
      ClientPc.work request.length (.write len) := by
  have hleft : (request.length - len - 1) * (4 * request.length + 1) + (4 * request.length + 1) =
      (request.length - len) * (4 * request.length + 1) := by
    rw [← Nat.succ_mul]
    congr 1
    omega
  rcases sending_cases request (len + count) with ⟨he, -⟩ | he
  · have hmul : (request.length - (len + count)) * (4 * request.length + 1) ≤
        (request.length - len - 1) * (4 * request.length + 1) :=
      Nat.mul_le_mul_right _ (by omega)
    rw [he, ClientPc.work, ClientPc.work]
    omega
  · rw [he, ClientPc.work, ClientPc.work]
    omega

theorem Echoing.work_lt {s t : Conversation} (h : Echoing request s) (ht : Talks request s t) :
    t.work request < s.work request := by
  cases ht with
  | write hc hpos hle =>
    have hless := sending_work hpos hle (h.writing hc)
    simp only [Conversation.work, hc, List.length_append, List.length_take]
    omega
  | read hc hpos hle =>
    simp only [Conversation.work, List.length_drop]
    omega
  | clientEof hc hs => exact absurd hs h.server
  | recv hs hpos hle =>
    simp only [Conversation.work, hs, ServerPc.work, List.length_drop, List.length_take]
    omega
  | serverEof hs hc => exact absurd hc h.client
  | send hs =>
    simp only [Conversation.work, hs, ServerPc.work, List.length_append]
    omega

/-- Each program waits for the other, and the client has got back what it has written. -/
structure Stalled (s : Conversation) : Prop where
  client : s.client = .read
  server : s.server = .recv
  toServer : s.toServer = []
  toClient : s.toClient = []
  received : s.received = s.sent

theorem Echoing.stalled {s : Conversation} (h : Echoing request s)
    (hblocked : ∀ a, Undisturbed s a → s.next request a = none) : Stalled s := by
  have hclient : s.client = .read := by
    cases hc : s.client with
    | read => rfl
    | done => exact absurd hc h.client
    | write len =>
      have hlt := h.writing hc
      have hwrite := hblocked (.write 1) trivial
      simp only [Conversation.next, hc] at hwrite
      rw [if_pos ⟨le_rfl, by omega⟩] at hwrite
      cases hwrite
  have hserver : s.server = .recv := by
    cases hs : s.server with
    | recv => rfl
    | done => exact absurd hs h.server
    | send buf =>
      have hsend := hblocked (.send buf.length) fun buf' he => by
        rw [hs] at he
        cases he
        rfl
      simp only [Conversation.next, hs, le_refl, ↓reduceIte, reduceCtorEq] at hsend
  have htoServer : s.toServer = [] := by
    by_contra hne
    have hpos := List.length_pos_iff.2 hne
    have hrecv := hblocked (.recv 1) trivial
    rw [Conversation.next, if_pos ⟨hserver, le_rfl, by decide, hpos⟩] at hrecv
    cases hrecv
  have htoClient : s.toClient = [] := by
    by_contra hne
    have hpos := List.length_pos_iff.2 hne
    have hread := hblocked (.read 1) trivial
    rw [Conversation.next, if_pos ⟨hclient, le_rfl, by decide, hpos⟩] at hread
    cases hread
  refine ⟨hclient, hserver, htoServer, htoClient, ?_⟩
  have horder := h.order
  rw [htoServer, htoClient, hserver] at horder
  simpa [ServerPc.held] using horder

/-- However the bytes are split on their way, the server sends all of them back in order; neither
program ever ends: after so many steps they wait for each other, and all bytes are back. -/
theorem conversation_stalls (request : List UInt8) (s : Conversation)
    (h : (conversation request).Reach Undisturbed s) :
    s.received ++ (s.toClient ++ (s.server.held ++ s.toServer)) = s.sent ∧
      s.client ≠ .done ∧ s.server ≠ .done ∧
      (∀ as t, (conversation request).Along Undisturbed s as →
        (conversation request).exec s as = some t → as.length ≤ s.work request) ∧
      ((∀ a, Undisturbed s a → s.next request a = none) → Stalled s) := by
  have hechoing := echoing h
  refine ⟨hechoing.order, hechoing.client, hechoing.server, fun as t has he => ?_,
    hechoing.stalled⟩
  have hkept := has.with_invariant hechoing fun hs ha hn => hs.step (next_talks ha hn)
  have hlength := Machine.exec_length_le (Conversation.work request)
    (fun ha hn => ha.1.work_lt (next_talks ha.2 hn)) hkept he
  omega

instance : ∀ s a, Decidable (Undisturbed s a)
  | _, .writeFails | _, .readFails | _, .recvFails | _, .sendFails => .isFalse id
  | _, .write _ | _, .read _ | _, .clientEof | _, .recv _ | _, .serverEof => .isTrue trivial
  | s, .send count => match h : s.server with
    | .send buf => decidable_of_iff (count = buf.length)
        ⟨fun hc buf' he => by cases h.symm.trans he; exact hc, fun hc => hc buf h⟩
    | .recv | .done => .isTrue fun _ he => by rw [h] at he; cases he

/-- A request that takes two calls each way. -/
def twoWrites : List Talk :=
  [.write 2, .recv 1, .write 3, .send 1, .recv 4, .read 1, .send 4, .read 4]

theorem two_writes_stall : ∃ s, (conversation [97, 98, 99]).Reach Undisturbed s ∧ Stalled s ∧
    s.received = [97, 98, 97, 98, 99] := by
  obtain ⟨s, hr, hs⟩ := (conversation [97, 98, 99]).exists_reach_of_exec Undisturbed twoWrites
    (P := fun s => s = ⟨.read, .recv, [], [], [97, 98, 97, 98, 99], [97, 98, 97, 98, 99]⟩)
    (by decide) (by decide)
  obtain ⟨-, -, -, -, hstalled⟩ := conversation_stalls _ s hr
  subst hs
  refine ⟨_, hr, hstalled fun a ha => ?_, rfl⟩
  cases a with
  | write | send | clientEof | serverEof => rfl
  | read count | recv count =>
    rw [Conversation.next, if_neg]
    rintro ⟨-, hpos, -, hle⟩
    exact absurd (Nat.le_trans hpos hle) (by decide)
  | writeFails | readFails | recvFails | sendFails => exact ha.elim

end Cs324.SocketClient
