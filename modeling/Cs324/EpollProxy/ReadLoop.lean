import Cs324.Base.Walk
import Cs324.EpollProxy.RequestParts
import Cs324.EpollProxy.Stages
import Mathlib.Data.Vector.Defs

namespace Cs324.EpollProxy
set_option autoImplicit true
open StateTransition

/-- What is still to come from a client. Each `read` returns one byte more than its count says, if
there are so many; after these counts, all that it is asked for. At the end the client closes, or
nothing comes for now. -/
structure Incoming where
  bytes : List UInt8
  counts : List Nat
  closes : Bool

/-- What `read` gives for a count, and what is still to come. -/
def Incoming.read (n : Incoming) (count : Nat) : ReadResult × Incoming :=
  if count = 0 then (.data [], n)
  else if n.bytes = [] then (if n.closes then .data [] else .again, n)
  else
    let taken := match n.counts with
      | [] => count
      | more :: _ => min (more + 1) count
    (.data (n.bytes.take taken), { n with bytes := n.bytes.drop taken, counts := n.counts.tail })

/-- A turn of the loop of `read_request`. -/
def readTurn (listenfd : Int) (i : Fin maxStates) : Sys × Incoming → Option (Sys × Incoming)
  | (s, n) =>
    if s.pc = .readRequest i then
      let (r, n) := n.read (sizeT (maxObjectSize - (s.connStates i).bytesReadFromClient))
      (Sys.next listenfd s (.read r)).map fun t => (t, n)
    else none

theorem Incoming.read_cases (n : Incoming) (count : Nat) :
    (count = 0 ∨ n.bytes = [] ∧ n.closes = true) ∧ n.read count = (.data [], n) ∨
    (0 < count ∧ n.bytes = [] ∧ n.closes = false) ∧ n.read count = (.again, n) ∨
    ∃ bytes rest counts, n.bytes = bytes ++ rest ∧ bytes ≠ [] ∧ bytes.length ≤ count ∧
      n.read count = (.data bytes, ⟨rest, counts, n.closes⟩) := by
  by_cases h0 : count = 0
  · exact .inl ⟨.inl h0, if_pos h0⟩
  by_cases hb : n.bytes = []
  · cases hc : n.closes with
    | true => exact .inl ⟨.inr ⟨hb, rfl⟩, by simp [Incoming.read, h0, hb, hc]⟩
    | false =>
      exact .inr (.inl ⟨⟨Nat.pos_of_ne_zero h0, hb, rfl⟩, by simp [Incoming.read, h0, hb, hc]⟩)
  right
  right
  obtain ⟨taken, hpos, hle, hread⟩ : ∃ taken, 0 < taken ∧ taken ≤ count ∧ n.read count =
      (.data (n.bytes.take taken), ⟨n.bytes.drop taken, n.counts.tail, n.closes⟩) := by
    rw [Incoming.read, if_neg h0, if_neg hb]
    cases n.counts with
    | nil => exact ⟨count, Nat.pos_of_ne_zero h0, le_rfl, rfl⟩
    | cons more counts => exact ⟨min (more + 1) count, by omega, Nat.min_le_right _ _, rfl⟩
  refine ⟨_, _, _, (List.take_append_drop taken n.bytes).symm, ?_, ?_, hread⟩
  · rw [Ne, List.take_eq_nil_iff]
    rintro (hz | hz)
    · omega
    · exact hb hz
  · exact (List.length_take_le _ _).trans hle

/-- The string in the block is a complete request. -/
def Complete (request : List UInt8) : Prop := isCompleteRequest (cstring request)

theorem Complete.mono (h : Complete p) (hp : p <+: q) : Complete q := by
  rw [Complete, isCompleteRequest, strstr_isSome] at h ⊢
  exact h.trans (cstring_isPrefix hp).isInfix

/-- With `held` in the block, `request` is what the first read that completes one leaves there. -/
inductive CompletedBy : List UInt8 → Incoming → List UInt8 → Prop
  | now : n.read (maxObjectSize - held.length) = (.data bytes, m) → Complete (held ++ bytes) →
      CompletedBy held n (held ++ bytes)
  | later : n.read (maxObjectSize - held.length) = (.data bytes, m) → ¬Complete (held ++ bytes) →
      CompletedBy (held ++ bytes) m request → CompletedBy held n request

/-- In the loop, what has been read and what is still to come stay the same together. -/
structure InLoop (i : Fin maxStates) (opened : Finset Int) (all : List UInt8) (closes : Bool)
    (u : Sys × Incoming) : Prop where
  sound : (u.1.connStates i).Sound
  unsent : (u.1.connStates i).serverRequest = []
  stream : (u.1.connStates i).clientRequest ++ u.2.bytes = all
  closes : u.2.closes = closes
  opened : u.1.sockets.opened = opened

section
variable {i : Fin maxStates} {opened : Finset Int} {all : List UInt8} {closes : Bool}
  {u : Sys × Incoming}

theorem readTurn_data (hpc : u.1.pc = .readRequest i)
    (hn : u.2.read (sizeT (maxObjectSize - (u.1.connStates i).bytesReadFromClient)) =
      (.data bytes, n))
    (hfits : bytes.length ≤ sizeT (maxObjectSize - (u.1.connStates i).bytesReadFromClient))
    (h : InLoop i opened all closes u) (hbytes : u.2.bytes = bytes ++ n.bytes)
    (hcloses : n.closes = closes) (listenfd : Int) :
    ∃ t, readTurn listenfd i u = some t ∧ t.2 = n ∧ InLoop i opened all closes t ∧
      (t.1.connStates i).clientRequest = (u.1.connStates i).clientRequest ++ bytes ∧
      (Complete (t.1.connStates i).clientRequest ∧ t.1.pc = .rewriting i ∨
        ¬Complete (t.1.connStates i).clientRequest ∧ t.1.pc = .readRequest i) := by
  obtain ⟨s, n₀⟩ := u
  obtain ⟨c, hc⟩ : ∃ c : ConnState, c = { s.connStates i with
      clientRequest := store (s.connStates i).clientRequest
        (s.connStates i).bytesReadFromClient bytes
      bytesReadFromClient := (s.connStates i).bytesReadFromClient + bytes.length } := ⟨_, rfl⟩
  have hstored : c.clientRequest = (s.connStates i).clientRequest ++ bytes := by
    rw [hc, ← h.sound.1]
    exact store_length _ _
  have hunsent : c.serverRequest = [] := by
    rw [hc]
    exact h.unsent
  have hstring := requestString_eq rfl hunsent
  obtain ⟨t, ht⟩ : ∃ t : Sys, t = { s.setConn i c with
      pc := if isCompleteRequest c.requestString then .rewriting i else .readRequest i
      sockets := s.sockets.read (s.connStates i).clientSocketFd bytes } := ⟨_, rfl⟩
  have hconn : t.connStates i = c := by
    rw [ht]
    exact Function.update_self _ _ _
  refine ⟨(t, n), ?_, rfl, ⟨?_, ?_, ?_, hcloses, ?_⟩, ?_, ?_⟩
  · dsimp only at hpc hn hfits
    simp only [readTurn, hpc, hn, Sys.next, Sys.readRequest, hfits, ↓reduceIte, Option.map_some, ht,
      hc]
  · rw [hconn, hc]
    exact h.sound.read hfits
  · rw [hconn]
    exact hunsent
  · rw [hconn, hstored, List.append_assoc, ← hbytes]
    exact h.stream
  · rw [ht]
    exact h.opened
  · rw [hconn]
    exact hstored
  · rw [hconn, Complete, ← hstring, ht]
    by_cases hcomplete : isCompleteRequest c.requestString
    · exact .inl ⟨hcomplete, if_pos hcomplete⟩
    · exact .inr ⟨hcomplete, if_neg hcomplete⟩

theorem InLoop.count (h : InLoop i opened all closes u) :
    sizeT (maxObjectSize - (u.1.connStates i).bytesReadFromClient) =
      maxObjectSize - (u.1.connStates i).clientRequest.length := by
  rw [h.sound.1]
  exact sizeT_sub h.sound.2.1 le_rfl

/-- All that a turn can do: it returns for now, or something is read, or 0 is returned because the
client has closed or the block is full. -/
theorem InLoop.turn (h : InLoop i opened all closes u) (hpc : u.1.pc = .readRequest i)
    (listenfd : Int) :
    (u.2.read (maxObjectSize - (u.1.connStates i).clientRequest.length) = (.again, u.2) ∧
      (u.2.bytes = [] ∧ closes = false ∧
        (u.1.connStates i).clientRequest.length < maxObjectSize) ∧
      readTurn listenfd i u = some ({ u.1 with pc := .main }, u.2)) ∨
    ∃ bytes t, u.2.read (maxObjectSize - (u.1.connStates i).clientRequest.length) =
        (.data bytes, t.2) ∧
      readTurn listenfd i u = some t ∧ InLoop i opened all closes t ∧
      (t.1.connStates i).clientRequest = (u.1.connStates i).clientRequest ++ bytes ∧
      (Complete (t.1.connStates i).clientRequest ∧ t.1.pc = .rewriting i ∨
        ¬Complete (t.1.connStates i).clientRequest ∧ t.1.pc = .readRequest i) ∧
      (t.2.bytes.length < u.2.bytes.length ∨
        bytes = [] ∧ ((u.1.connStates i).clientRequest.length = maxObjectSize ∨
          u.2.bytes = [] ∧ closes = true)) := by
  have hcount := h.count
  have hle : (u.1.connStates i).clientRequest.length ≤ maxObjectSize :=
    h.sound.1.trans_le h.sound.2.1
  rcases u.2.read_cases (sizeT (maxObjectSize - (u.1.connStates i).bytesReadFromClient)) with
    ⟨hzero, hn⟩ | ⟨⟨hpos, hb, hc⟩, hn⟩ | ⟨bytes, rest, counts, hb, hne, hfits, hn⟩
  · right
    obtain ⟨t, ht, htn, hr, hstored, htpc⟩ :=
      readTurn_data hpc hn (Nat.zero_le _) h rfl h.closes listenfd
    refine ⟨[], t, by rw [← hcount, hn, htn], ht, hr, hstored, htpc, .inr ⟨rfl, ?_⟩⟩
    rcases hzero with hzero | ⟨hb, hc⟩
    · left
      omega
    · exact .inr ⟨hb, h.closes ▸ hc⟩
  · left
    refine ⟨by rw [← hcount, hn], ⟨hb, h.closes ▸ hc, by omega⟩, ?_⟩
    obtain ⟨s, n⟩ := u
    dsimp only at hpc hn
    simp only [readTurn, hpc, hn, Sys.next, Sys.readRequest, ↓reduceIte, Option.map_some]
  · right
    obtain ⟨t, ht, htn, hr, hstored, htpc⟩ :=
      readTurn_data hpc hn hfits h hb h.closes listenfd
    refine ⟨bytes, t, by rw [← hcount, hn, htn], ht, hr, hstored, htpc, .inl ?_⟩
    have hpos := List.length_pos_iff.2 hne
    rw [htn, hb, List.length_append]
    exact Nat.lt_add_of_pos_left hpos

theorem InLoop.turn_data (h : InLoop i opened all closes u) (hpc : u.1.pc = .readRequest i)
    (hread : u.2.read (maxObjectSize - (u.1.connStates i).clientRequest.length) = (.data bytes, n))
    (listenfd : Int) : ∃ t, readTurn listenfd i u = some t ∧ t.2 = n ∧
      InLoop i opened all closes t ∧
      (t.1.connStates i).clientRequest = (u.1.connStates i).clientRequest ++ bytes ∧
      (Complete (t.1.connStates i).clientRequest ∧ t.1.pc = .rewriting i ∨
        ¬Complete (t.1.connStates i).clientRequest ∧ t.1.pc = .readRequest i) := by
  rcases h.turn hpc listenfd with ⟨hagain, _⟩ | ⟨_, t, hdata, ht, hr, hstored, hpcs, _⟩
  · rw [hread] at hagain
    cases hagain
  · rw [hread] at hdata
    cases hdata
    exact ⟨t, ht, rfl, hr, hstored, hpcs⟩

/-- What comes to an end: the block comes to hold a complete request, or some of it stays free and
the client does not close. -/
def Ending (all : List UInt8) (closes : Bool) : Prop :=
  Complete (all.take maxObjectSize) ∨ closes = false ∧ all.length < maxObjectSize

theorem InLoop.prefix_block (h : InLoop i opened all closes u) :
    (u.1.connStates i).clientRequest <+: all.take maxObjectSize := by
  rw [List.prefix_take_iff, ← h.stream]
  exact ⟨List.prefix_append _ _, h.sound.1.trans_le h.sound.2.1⟩

/-- If nothing more can be read, the block holds all that it comes to hold. -/
theorem InLoop.complete_of_ending (h : InLoop i opened all closes u)
    (hstuck : (u.1.connStates i).clientRequest.length = maxObjectSize ∨
      u.2.bytes = [] ∧ closes = true) (hend : Ending all closes) :
    Complete (u.1.connStates i).clientRequest := by
  have hstream := h.stream
  have hle : (u.1.connStates i).clientRequest.length ≤ maxObjectSize :=
    h.sound.1.trans_le h.sound.2.1
  rcases hend with hcomplete | ⟨hopen, hlt⟩
  · rw [← hstream] at hcomplete
    rcases hstuck with hfull | ⟨hb, -⟩
    · rwa [List.take_left' hfull] at hcomplete
    · rwa [hb, List.append_nil, List.take_of_length_le hle] at hcomplete
  · rcases hstuck with hfull | ⟨-, hclosed⟩
    · rw [← hstream, List.length_append] at hlt
      omega
    · rw [hopen] at hclosed
      cases hclosed

theorem InLoop.ends (h : InLoop i opened all closes u) (hpc : u.1.pc = .readRequest i)
    (hend : Ending all closes) (listenfd : Int) :
    ∃ t, Reaches (readTurn listenfd i) u t ∧ (t.1.pc = .main ∨ t.1.pc = .rewriting i) := by
  generalize hn : u.2.bytes.length = n
  induction n using Nat.strongRecOn generalizing u with
  | ind n ih =>
    rcases h.turn hpc listenfd with
      ⟨_, _, ht⟩ | ⟨bytes, t, _, ht, hr, hstored, ⟨-, htpc⟩ | ⟨hc, htpc⟩, hless⟩
    · exact ⟨_, .single ht, .inl rfl⟩
    · exact ⟨t, .single ht, .inr htpc⟩
    · rcases hless with hless | ⟨rfl, hstuck⟩
      · obtain ⟨v, hv, hvpc⟩ := ih _ (hn ▸ hless) hr htpc rfl
        exact ⟨v, .head ht hv, hvpc⟩
      · rw [hstored, List.append_nil] at hc
        exact absurd (h.complete_of_ending hstuck hend) hc

theorem InLoop.never (h : InLoop i opened all closes u) (hpc : u.1.pc = .readRequest i)
    (hnot : ¬Ending all closes) (ht : Reaches (readTurn listenfd i) u t) :
    InLoop i opened all closes t ∧ t.1.pc = .readRequest i := by
  apply reaches_invariant (I := fun t => InLoop i opened all closes t ∧ t.1.pc = .readRequest i)
    ht ⟨h, hpc⟩
  rintro b c ⟨hb, hbpc⟩ hc
  rcases hb.turn hbpc listenfd with ⟨_, ⟨hnil, hopen, hlt⟩, _⟩ | ⟨_, d, _, hd, hr, _, hdpc, _⟩
  · apply absurd _ hnot
    right
    rw [← hb.stream, hnil, List.append_nil]
    exact ⟨hopen, hlt⟩
  · cases hc.symm.trans hd
    rcases hdpc with ⟨hcomplete, _⟩ | ⟨_, hdpc⟩
    · exact absurd (.inl (hcomplete.mono hr.prefix_block)) hnot
    · exact ⟨hr, hdpc⟩

/-- Where the loop ends. -/
theorem InLoop.out (h : InLoop i opened all closes u) (hpc : u.1.pc = .readRequest i)
    (ht : Reaches (readTurn listenfd i) u t) :
    t.1.pc = .main ∨ InLoop i opened all closes t ∧ (t.1.pc = .readRequest i ∨
      t.1.pc = .rewriting i ∧ Complete (t.1.connStates i).clientRequest) := by
  apply reaches_invariant (I := fun t => t.1.pc = .main ∨ InLoop i opened all closes t ∧
    (t.1.pc = .readRequest i ∨ t.1.pc = .rewriting i ∧ Complete (t.1.connStates i).clientRequest))
    ht (.inr ⟨h, .inl hpc⟩)
  rintro b c hb hc
  have hbpc : b.1.pc = .readRequest i := by
    by_contra hne
    rw [readTurn, if_neg hne] at hc
    cases hc
  rcases hb with hb | ⟨hr, _⟩
  · rw [hb] at hbpc
    cases hbpc
  · rcases hr.turn hbpc listenfd with ⟨_, _, hd⟩ | ⟨_, d, _, hd, hrd, _, hdpc, _⟩
    · cases hc.symm.trans hd
      exact .inl rfl
    · cases hc.symm.trans hd
      refine .inr ⟨hrd, ?_⟩
      rcases hdpc with ⟨hcomplete, hdpc⟩ | ⟨_, hdpc⟩
      · exact .inr ⟨hdpc, hcomplete⟩
      · exact .inl hdpc

theorem InLoop.completedBy (h : InLoop i opened all closes u) (hpc : u.1.pc = .readRequest i)
    (ht : Reaches (readTurn listenfd i) u t) (htpc : t.1.pc = .rewriting i) :
    CompletedBy (u.1.connStates i).clientRequest u.2 (t.1.connStates i).clientRequest := by
  induction ht using Relation.ReflTransGen.head_induction_on with
  | refl =>
    rw [hpc] at htpc
    cases htpc
  | @head u v hv hrest ih =>
    have hstays : v.1.pc ≠ .readRequest i → t = v := by
      intro hne
      rcases Relation.ReflTransGen.cases_head hrest with he | ⟨w, hw, _⟩
      · exact he.symm
      · rw [readTurn, if_neg hne] at hw
        cases hw
    rcases h.turn hpc listenfd with
      ⟨_, _, hu⟩ | ⟨bytes, w, hread, hu, hr, hstored, ⟨hc, hwpc⟩ | ⟨hc, hwpc⟩, _⟩ <;>
      cases hu.symm.trans hv
    · rw [hstays nofun] at htpc
      cases htpc
    · rw [hstays (by simp [hwpc]), hstored]
      rw [hstored] at hc
      exact .now hread hc
    · have hlater := ih hr hwpc
      rw [hstored] at hc hlater
      exact .later hread hc hlater

theorem InLoop.reaches_completed (h : InLoop i opened all closes u)
    (hpc : u.1.pc = .readRequest i)
    (hc : CompletedBy (u.1.connStates i).clientRequest u.2 request) (listenfd : Int) :
    ∃ t, Reaches (readTurn listenfd i) u t ∧ t.1.pc = .rewriting i ∧
      InLoop i opened all closes t ∧ (t.1.connStates i).clientRequest = request := by
  generalize hheld : (u.1.connStates i).clientRequest = held at hc
  generalize hn : u.2 = n at hc
  induction hc generalizing u with
  | now hread hcomplete =>
    subst hheld hn
    obtain ⟨v, hv, -, hr, hstored, hpcs⟩ := h.turn_data hpc hread listenfd
    rw [hstored] at hpcs
    rcases hpcs with ⟨_, hvpc⟩ | ⟨hnot, _⟩
    · exact ⟨v, .single hv, hvpc, hr, hstored⟩
    · exact absurd hcomplete hnot
  | later hread hnot _ ih =>
    subst hheld hn
    obtain ⟨v, hv, hvn, hr, hstored, hpcs⟩ := h.turn_data hpc hread listenfd
    rw [hstored] at hpcs
    rcases hpcs with ⟨hcomplete, _⟩ | ⟨_, hvpc⟩
    · exact absurd hcomplete hnot
    · obtain ⟨t, ht, hend⟩ := ih hr hvpc hstored hvn
      exact ⟨t, .head hv ht, hend⟩

theorem reading_start (h : (proxy listenfd fds).Reachable s) (hpc : s.pc = .readRequest i)
    (n : Incoming) : InLoop i s.sockets.opened ((s.connStates i).clientRequest ++ n.bytes) n.closes
      (s, n) := by
  have hstaged := staged h i
  have hbusy := hstaged.busy (by rw [hpc]; rfl)
  rw [hpc] at hbusy
  exact ⟨hstaged.sound, (hstaged.atStage hpc nofun nofun hbusy).1, rfl, rfl, rfl⟩

/-- The reads of one call come to an end. -/
theorem reading_ends_iff (h : (proxy listenfd fds).Reachable s) (hpc : s.pc = .readRequest i)
    (n : Incoming) :
    (∃ u, Reaches (readTurn listenfd i) (s, n) u ∧ u.1.pc ≠ .readRequest i) ↔
      Ending ((s.connStates i).clientRequest ++ n.bytes) n.closes := by
  have hstart := reading_start h hpc n
  constructor
  · rintro ⟨u, hu, hne⟩
    by_contra hnot
    exact hne (hstart.never hpc hnot hu).2
  · intro hend
    obtain ⟨u, hu, hupc⟩ := hstart.ends hpc hend listenfd
    refine ⟨u, hu, ?_⟩
    rcases hupc with hupc | hupc <;> simp [hupc]

end

/-- What the rest of `read_request` gets from the system: the block for `uri`, a new socket that is
connected to the server, and whether it could be registered. -/
structure Outside (opened : Finset Int) where
  block : List.Vector UInt8 maxUriSize
  server : Option Int
  registered : Bool
  new : ∀ fd ∈ server, 0 ≤ fd ∧ fd ∉ opened

/-- Behind the loop, `read_request` has returned, or what it still has to do succeeds. -/
def Finishes (listenfd : Int) (i : Fin maxStates) (e : Outside opened) (u : Sys) : Prop :=
  u.pc = .main ∨ u.pc = .rewriting i ∧ ∃ t v, Sys.next listenfd u (.malloc e.block.1) = some t ∧
    Sys.next listenfd t (.connect e.server e.registered) = some v ∧ v.pc = .main

/-- A call of `read_request` comes back to the loop of `main`. -/
def Returns (listenfd : Int) (i : Fin maxStates) (s : Sys) (n : Incoming)
    (e : Outside s.sockets.opened) : Prop :=
  ∃ u, Reaches (readTurn listenfd i) (s, n) u ∧ Finishes listenfd i e u.1

theorem next_connect {t : Sys} (hpc : t.pc = .connecting i)
    (hnew : 0 ≤ fd ∧ fd ∉ t.sockets.opened) (listenfd : Int) :
    ∃ v, Sys.next listenfd t (.connect (some fd) true) = some v ∧ v.pc = .main := by
  simp only [Sys.next, hpc, Sys.connect]
  exact ⟨_, if_pos hnew, rfl⟩

theorem finishes_iff {u : Sys × Incoming} (h : InLoop i opened all closes u)
    (hpc : u.1.pc = .rewriting i) (hc : Complete (u.1.connStates i).clientRequest)
    (listenfd : Int) (e : Outside opened) : Finishes listenfd i e u.1 ↔
      Fits sizes e.block.1 (cstring (u.1.connStates i).clientRequest) ∧ e.server.isSome ∧
        e.registered = true := by
  have hcomplete : isCompleteRequest (u.1.connStates i).requestString := by
    rw [requestString_eq rfl h.unsent]
    exact hc
  rw [← requestString_eq rfl h.unsent]
  constructor
  · rintro (hmain | ⟨-, t, v, ht, hv, hvpc⟩)
    · rw [hpc] at hmain
      cases hmain
    · generalize e.server = server at hv ⊢
      generalize e.registered = registered at hv ⊢
      cases next_step ht with
      | overrun => cases next_step hv <;> simp_all
      | @rewrite j c _ hpcj hre =>
        cases hpc.symm.trans hpcj
        refine ⟨((reformatClientRequest_eq_some hcomplete h.unsent e.block.1).1 hre).1, ?_⟩
        cases next_step hv with
        | connect => exact ⟨rfl, rfl⟩
        | connectUnregistered => cases hvpc
        | connectFails => cases hvpc
  · rintro ⟨hfits, hserver, hregistered⟩
    obtain ⟨fd, hfd⟩ := Option.isSome_iff_exists.1 hserver
    have hnew := e.new fd hfd
    rw [← h.opened] at hnew
    obtain ⟨c, hre⟩ : ∃ c, reformatClientRequest e.block.1 (u.1.connStates i) = some c :=
      ⟨_, (reformatClientRequest_eq_some hcomplete h.unsent e.block.1).2 ⟨hfits, rfl⟩⟩
    obtain ⟨t, ht⟩ : ∃ t : Sys, t = { u.1.setConn i c with pc := .connecting i } := ⟨_, rfl⟩
    have hopened : t.sockets.opened = u.1.sockets.opened := by rw [ht]; rfl
    rw [← hopened] at hnew
    obtain ⟨v, hv, hvpc⟩ := next_connect (by rw [ht]) hnew listenfd
    refine .inr ⟨hpc, t, v, ?_, ?_, hvpc⟩
    · simp only [Sys.next, hpc, Sys.rewrite, hre, ht]
    · rw [hfd, hregistered, hv]

/-- Exactly when a call of `read_request` returns. -/
theorem read_request_returns_iff (h : (proxy listenfd fds).Reachable s)
    (hpc : s.pc = .readRequest i) (n : Incoming) (e : Outside s.sockets.opened) :
    Returns listenfd i s n e ↔ Ending ((s.connStates i).clientRequest ++ n.bytes) n.closes ∧
      ∀ request, CompletedBy (s.connStates i).clientRequest n request →
        Fits sizes e.block.1 (cstring request) ∧ e.server.isSome ∧ e.registered = true := by
  have hstart := reading_start h hpc n
  constructor
  · rintro ⟨u, hu, hf⟩
    have hne : u.1.pc ≠ .readRequest i := by
      rcases hf with hupc | ⟨hupc, _⟩ <;> simp [hupc]
    refine ⟨(reading_ends_iff h hpc n).1 ⟨u, hu, hne⟩, fun request hrequest => ?_⟩
    obtain ⟨v, hv, hvpc, -, hstored⟩ := hstart.reaches_completed hpc hrequest listenfd
    have hend : ∀ w : Sys × Incoming, w.1.pc ≠ .readRequest i → readTurn listenfd i w = none :=
      fun w hw => if_neg hw
    have huv : u = v := end_unique hu hv (hend u hne) (hend v (by simp [hvpc]))
    subst huv
    rw [← hstored]
    rcases hstart.out hpc hu with hmain | ⟨hr, hpcs⟩
    · rw [hvpc] at hmain
      cases hmain
    · rcases hpcs with hpcs | ⟨_, hc⟩
      · exact absurd hpcs hne
      · exact (finishes_iff hr hvpc hc listenfd e).1 hf
  · rintro ⟨hend, hrest⟩
    obtain ⟨u, hu, hupc⟩ := hstart.ends hpc hend listenfd
    refine ⟨u, hu, ?_⟩
    rcases hupc with hupc | hupc
    · exact .inl hupc
    · rcases hstart.out hpc hu with hmain | ⟨hr, hpcs⟩
      · exact .inl hmain
      · rcases hpcs with hpcs | ⟨_, hc⟩
        · rw [hupc] at hpcs
          cases hpcs
        · exact (finishes_iff hr hupc hc listenfd e).2 (hrest _ (hstart.completedBy hpc hu hupc))

/-- A client has connected, and its slot is being handled. -/
def startReading : List Action :=
  [.event none .none (.of [5]), .event (some 0) .none (.of [])]

theorem exists_reading : ∃ s : Sys, (proxy 3 {0, 1, 2, 3, 4}).Reachable s ∧
    s.pc = .readRequest 0 ∧ (s.connStates 0).clientRequest = [] :=
  Machine.exists_reach_of_exec (proxy 3 {0, 1, 2, 3, 4}) (fun _ _ => True) startReading
    (Machine.along_true _ _) (by decide +kernel)

theorem read_request_returns_get : ∃ (s : Sys) (e : Outside s.sockets.opened),
    s.pc = .readRequest 0 ∧ (Returns 3 0 s ⟨chars "GET", [], false⟩ e ↔
      Ending ((s.connStates 0).clientRequest ++ chars "GET") false ∧
        ∀ request, CompletedBy (s.connStates 0).clientRequest ⟨chars "GET", [], false⟩ request →
          Fits sizes e.block.1 (cstring request) ∧ e.server.isSome ∧ e.registered = true) := by
  obtain ⟨s, h, hpc, -⟩ := exists_reading
  exact ⟨s, ⟨List.Vector.replicate _ 0, none, false, nofun⟩, hpc,
    read_request_returns_iff h hpc ⟨chars "GET", [], false⟩ _⟩

/-- The loop is never left if the client closes in the middle of its request, or fills the block
without a blank line. -/
theorem read_request_spins : ∃ s : Sys, (proxy 3 {0, 1, 2, 3, 4}).Reachable s ∧
    s.pc = .readRequest 0 ∧
    (∀ e, ¬Returns 3 0 s ⟨chars "GET", [], true⟩ e) ∧
    ∀ e, ¬Returns 3 0 s ⟨List.replicate maxObjectSize 120, [], false⟩ e := by
  obtain ⟨s, h, hpc, hempty⟩ := exists_reading
  have hspins : ∀ n : Incoming, ¬Ending n.bytes n.closes → ∀ e, ¬Returns 3 0 s n e := by
    rintro n hnot e ⟨u, hu, hf⟩
    apply hnot
    have hends := (reading_ends_iff h hpc n).1
    rw [hempty, List.nil_append] at hends
    apply hends ⟨u, hu, _⟩
    rcases hf with hupc | ⟨hupc, _⟩ <;> simp [hupc]
  refine ⟨s, h, hpc, hspins _ ?_, hspins _ ?_⟩
  · rintro (hcomplete | ⟨hopen, _⟩)
    · revert hcomplete
      rw [Complete, List.take_of_length_le (by decide)]
      decide
    · cases hopen
  · rintro (hcomplete | ⟨_, hlt⟩)
    · rw [Complete, isCompleteRequest, strstr_isSome] at hcomplete
      have hcr : 13 ∈ (List.replicate maxObjectSize (120 : UInt8)).take maxObjectSize :=
        (List.takeWhile_prefix _).subset (hcomplete.subset (by decide))
      exact absurd (List.eq_of_mem_replicate (List.mem_of_mem_take hcr)) (by decide)
    · rw [List.length_replicate] at hlt
      exact Nat.lt_irrefl _ hlt

end Cs324.EpollProxy
