import Cs324.Csapp.Unbuffered

namespace Cs324.Csapp
set_option autoImplicit true

def MAXLINE : Nat := 8192

/-- How `echo` ends: at the end of the input, by the exit of the process after an error, or not at
all because the peer takes nothing more. -/
inductive Outcome
  | returned
  | exited
  | waiting
  deriving DecidableEq

/-- What comes out of `echo`: what it sends on `connfd` and what it prints. -/
structure Echoed where
  outcome : Outcome
  sent : List UInt8
  printed : List UInt8
  deriving DecidableEq

def received (n : Int) : List UInt8 := chars "server received " ++ decimal n ++ chars " bytes\n"

/-- The loop of `echo`, unless it takes more passes than this. -/
def echoLoop : Nat → Rio → List Written → Option Echoed
  | 0, _, _ => none
  | passes + 1, rp, writes =>
    let (n, buf, rp) := rioReadlineb rp MAXLINE
    if n < 0 then some ⟨.exited, [], []⟩
    else if n = 0 then some ⟨.returned, [], []⟩
    else
      match rioWriten writes (buf.take n.toNat) with
      | (none, sent, _) => some ⟨.waiting, sent, received n⟩
      | (some result, sent, writes) =>
        if result = n then
          (echoLoop passes rp writes).map fun e =>
            { e with sent := sent ++ e.sent, printed := received n ++ e.printed }
        else some ⟨.exited, sent, received n⟩

/-- `echo`, with the buffer of its `rio_t` on the stack. -/
def echo (passes : Nat) (fd : List Arrival) (buf : List UInt8) (writes : List Written) :
    Option Echoed :=
  echoLoop passes (rioReadinitb fd buf) writes

/-- A text that a call of `Rio_readlineb` can return where `rest` is left behind it: a line, or
a piece of one that fills the buffer, or what is behind the last newline. -/
structure Piece (text rest : List UInt8) : Prop where
  nonempty : text ≠ []
  fits : text.length < MAXLINE
  newline : 10 ∉ text.dropLast
  ends : 10 ∈ text ∨ text.length = MAXLINE - 1 ∨ rest = []

/-- The texts are cut off from the front of the bytes, one after the other. -/
inductive Pieces : List UInt8 → List (List UInt8) → Prop
  | nil (bytes) : Pieces bytes []
  | cons (h : Piece text rest) (hrest : Pieces rest texts) : Pieces (text ++ rest) (text :: texts)

/-- What `echo` does with a stream: the texts it reads, in turn. -/
structure Echoes (s : Source) (writes : List Written) (texts : List (List UInt8)) (e : Echoed) :
    Prop where
  pieces : Pieces s.bytes texts
  printed : e.printed = texts.flatMap fun text => received text.length
  read : texts.flatten <+: s.bytes
  sent : e.sent <+: texts.flatten
  returned : e.outcome = .returned ↔ e.sent = s.bytes ∧ s.fails = false
  exited : e.outcome = .exited → s.fails = true ∨ .failed ∈ writes
  waiting : e.outcome = .waiting → .failed ∉ writes ∧
    (writes.filter (· ≠ .interrupted)).length < s.bytes.length

theorem piece_of_line (hne : text ≠ []) (h : Source.line (MAXLINE - 1) s = some (text, rest)) :
    Piece text rest.bytes := by
  obtain ⟨hle, hn⟩ := Source.line_newline_last h
  exact ⟨hne, by simp only [MAXLINE] at hle ⊢; omega, hn, Source.line_ends h⟩

/-- A text that is sent only in part is the last one. -/
theorem Echoes.partial (writes : List Written) (hne : text ≠ [])
    (h : Source.line (MAXLINE - 1) s = some (text, rest))
    (hwriten : (writenLoop writes text).1 ≠ some false) :
    Echoes s writes [text] ⟨if (writenLoop writes text).1 = none then .waiting else .exited,
      (writenLoop writes text).2.1, received text.length⟩ := by
  obtain ⟨left, hsplit, hall⟩ := writenLoop_sent writes text
  have hs := Source.line_eq h
  have hshort : (writenLoop writes text).2.1.length < text.length := by
    have hpos := List.length_pos_iff.2 fun he => hwriten (hall.2 he)
    have hlength := congrArg List.length hsplit
    rw [List.length_append] at hlength
    omega
  have hbytes : s.bytes = text ++ rest.bytes := congrArg Source.bytes hs
  refine ⟨hbytes ▸ .cons (piece_of_line hne h) (.nil _), by simp, ?_, ?_, ?_, fun hexited => ?_,
    fun hwaiting => ?_⟩
  · rw [List.flatten_singleton, hbytes]
    exact List.prefix_append _ _
  · rw [List.flatten_singleton]
    exact ⟨left, hsplit.symm⟩
  · refine iff_of_false (by dsimp only; split <;> exact nofun) ?_
    rintro ⟨he, -⟩
    have hlength := congrArg List.length (he.trans hbytes)
    rw [List.length_append] at hlength
    dsimp only at hlength
    omega
  · cases hloop : (writenLoop writes text).1 with
    | none => simp [hloop] at hexited
    | some fails =>
      cases fails with
      | false => exact absurd hloop hwriten
      | true => exact .inr (writenLoop_fails hloop)
  · cases hloop : (writenLoop writes text).1 with
    | none =>
      obtain ⟨hfailed, hlt⟩ := writenLoop_waits hloop
      refine ⟨hfailed, ?_⟩
      rw [hbytes, List.length_append]
      omega
    | some fails => simp [hloop] at hwaiting

/-- A text that is sent before the rest. -/
theorem Echoes.cons (hne : text ≠ []) (h : Source.line (MAXLINE - 1) s = some (text, rest))
    (hwriten : writenLoop writes text = (some false, before, writes'))
    (he : Echoes rest writes' texts e) :
    Echoes s writes (text :: texts) { e with
      sent := before ++ e.sent, printed := received text.length ++ e.printed } := by
  obtain ⟨left, hsplit, hall⟩ := writenLoop_sent writes text
  rw [hwriten] at hsplit hall
  rw [hall.1 rfl, List.append_nil] at hsplit
  subst hsplit
  obtain ⟨hfailed, hle⟩ := writenLoop_done hwriten
  have hs := Source.line_eq h
  have hbytes : s.bytes = text ++ rest.bytes := congrArg Source.bytes hs
  have hfails : s.fails = rest.fails := by rw [hs, Source.push]
  refine ⟨?_, ?_, ?_, ?_, ?_, ?_, fun hwaiting => ?_⟩
  · rw [hbytes]
    exact .cons (piece_of_line hne h) he.pieces
  · rw [List.flatMap_cons, ← he.printed]
  · rw [List.flatten_cons, hbytes]
    exact (List.prefix_append_right_inj _).2 he.read
  · rw [List.flatten_cons]
    exact (List.prefix_append_right_inj _).2 he.sent
  · rw [hbytes, hfails, List.append_cancel_left_eq]
    exact he.returned
  · rw [hfails, hfailed]
    exact he.exited
  · obtain ⟨hnot, hlt⟩ := he.waiting hwaiting
    refine ⟨fun hmem => hnot (hfailed.1 hmem), ?_⟩
    rw [hbytes, List.length_append]
    omega

theorem echoLoop_echoes (passes : Nat) (writes : List Written) (hv : Rio.Valid rp)
    (h : rp.source.bytes.length < passes) :
    ∃ texts e, echoLoop passes rp writes = some e ∧ Echoes rp.source writes texts e := by
  induction passes generalizing rp writes with
  | zero => cases h
  | succ passes ih =>
    have hdelivers := rioReadlineb_delivers hv (show 1 ≤ MAXLINE by decide) (by decide)
    rw [echoLoop]
    generalize rioReadlineb rp MAXLINE = call at hdelivers ⊢
    cases hline : Source.line (MAXLINE - 1) rp.source with
    | none =>
      rw [hline] at hdelivers
      change call.1 = -1 at hdelivers
      refine ⟨[], ⟨.exited, [], []⟩, by simp [hdelivers], ?_⟩
      have hfails := Source.line_none hline
      exact ⟨.nil _, rfl, List.nil_prefix, List.nil_prefix, by simp [hfails], fun _ => .inl hfails,
        nofun⟩
    | some given =>
      obtain ⟨text, rest⟩ := given
      obtain ⟨n, buf, rp'⟩ := call
      rw [hline] at hdelivers
      obtain ⟨rfl, rfl, hv', hs'⟩ := hdelivers
      rcases eq_or_ne text [] with rfl | hne
      · refine ⟨[], ⟨.returned, [], []⟩, rfl, ?_⟩
        rw [Source.line_nil hline]
        exact ⟨.nil _, rfl, List.nil_prefix, List.nil_prefix, by simp, nofun, nofun⟩
      · have hpos := List.length_pos_iff.2 hne
        have htake : (stored MAXLINE text).take (text.length : Int).toNat = text := by
          rw [stored, if_neg (fun h => hne h.1), Int.toNat_natCast, List.take_left]
        have hbytes : rp.source.bytes = text ++ rest.bytes :=
          congrArg Source.bytes (Source.line_eq hline)
        have hshorter : rp'.source.bytes.length < passes := by
          rw [hbytes, List.length_append] at h
          rw [hs']
          omega
        dsimp only
        rw [if_neg (by omega), if_neg (by omega), htake, rioWriten]
        rcases hwriten : writenLoop writes text with ⟨_ | fails, sent, writes'⟩
        · have hpartial := Echoes.partial writes hne hline (by simp [hwriten])
          rw [hwriten] at hpartial
          exact ⟨_, _, rfl, hpartial⟩
        · cases fails with
          | true =>
            have hpartial := Echoes.partial writes hne hline (by simp [hwriten])
            rw [hwriten] at hpartial
            exact ⟨_, _, rfl, hpartial⟩
          | false =>
            obtain ⟨texts, e, he, hechoes⟩ := ih writes' hv' hshorter
            rw [hs'] at hechoes
            refine ⟨_, _, ?_, hechoes.cons hne hline hwriten⟩
            simp only [Option.map_some, Bool.false_eq_true, ↓reduceIte, he]

theorem echoLoop_succ (h : echoLoop passes rp writes = some e) :
    echoLoop (passes + 1) rp writes = some e := by
  induction passes generalizing rp writes e with
  | zero => cases h
  | succ passes ih =>
    rw [echoLoop] at h ⊢
    dsimp only at h ⊢
    split
    · rwa [if_pos ‹_›] at h
    · rw [if_neg ‹_›] at h
      split
      · rwa [if_pos ‹_›] at h
      · rw [if_neg ‹_›] at h
        split
        · rename_i he
          rwa [he] at h
        · rename_i he
          rw [he] at h
          dsimp only at h
          split
          · rw [if_pos ‹_›, Option.map_eq_some_iff] at h
            obtain ⟨e', hloop, rfl⟩ := h
            rw [ih hloop, Option.map_some]
          · rwa [if_neg ‹_›] at h

theorem echoLoop_mono (h : echoLoop passes rp writes = some e) (hle : passes ≤ passes') :
    echoLoop passes' rp writes = some e := by
  induction passes', hle using Nat.le_induction with
  | base => exact h
  | succ n _ ih => exact echoLoop_succ ih

/-- `echo` gets to one of its ends, however the input arrives and whatever `write` takes, and until
then it sends back what it has read. -/
theorem echo_echoes (fd : List Arrival) (buf : List UInt8) (writes : List Written)
    (hbuf : buf.length = RIO_BUFSIZE) :
    (∃ passes e, echo passes fd buf writes = some e) ∧
      ∀ passes e, echo passes fd buf writes = some e →
        ∃ texts, Echoes (sourceOf fd) writes texts e := by
  obtain ⟨texts, e, he, hechoes⟩ := echoLoop_echoes _ writes (rioReadinitb_valid fd hbuf)
    (Nat.lt_succ_self _)
  rw [rioReadinitb_source] at hechoes
  refine ⟨⟨_, e, he⟩, fun passes e' he' => ⟨texts, ?_⟩⟩
  cases (echoLoop_mono he (Nat.le_add_right _ passes)).symm.trans
    (echoLoop_mono he' (Nat.le_add_left passes _))
  exact hechoes

theorem short_writes_echo :
    (∃ passes e, echo passes [.bytes 97 [], .interrupted, .bytes 98 [10, 99]]
      (List.replicate RIO_BUFSIZE 0) [.bytes 0, .interrupted, .bytes 5, .bytes 0] = some e) ∧
      ∀ passes e, echo passes [.bytes 97 [], .interrupted, .bytes 98 [10, 99]]
        (List.replicate RIO_BUFSIZE 0) [.bytes 0, .interrupted, .bytes 5, .bytes 0] = some e →
          ∃ texts, Echoes ⟨[97, 98, 10, 99], false⟩
            [.bytes 0, .interrupted, .bytes 5, .bytes 0] texts e :=
  echo_echoes _ _ _ List.length_replicate

example : echo 3 [.bytes 97 [], .interrupted, .bytes 98 [10, 99]] (List.replicate RIO_BUFSIZE 0)
    [.bytes 0, .interrupted, .bytes 5, .bytes 0] = some ⟨.returned, [97, 98, 10, 99],
      chars "server received 3 bytes\nserver received 1 bytes\n"⟩ := by decide +kernel

end Cs324.Csapp
