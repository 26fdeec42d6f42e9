import Cs324.Csapp.Rio

namespace Cs324.Csapp
set_option autoImplicit true

/-- The loop of `rio_readn`: `nleft` at its end, unless the function returns -1, and the bytes
stored. -/
def readnLoop : List Arrival → Nat → Option Nat × List UInt8 × List Arrival
  | [], nleft => (some nleft, [], [])
  | arrival :: fd, nleft =>
    if 0 < nleft then
      match arrival with
      | .interrupted => readnLoop fd nleft
      | .failed => (none, [], fd)
      | .bytes first more =>
        let chunk := (first :: more).take nleft
        let left := sizeT (nleft - chunk.length)
        match (first :: more).drop nleft with
        | [] =>
          let (result, bytes, fd) := readnLoop fd left
          (result, chunk ++ bytes, fd)
        -- nothing is left to read, and the loop ends
        | first :: more => (some left, chunk, .bytes first more :: fd)
    else (some nleft, [], arrival :: fd)

/-- The result of `rio_readn`, what it stores from `usrbuf` on and what is still to come in. -/
def rioReadn (fd : List Arrival) (n : Nat) : Int × List UInt8 × List Arrival :=
  let (nleft, bytes, fd) := readnLoop fd n
  (nleft.elim (-1) fun nleft => int64 (n - nleft), bytes, fd)

/-- How a call of `write` comes out: it takes at least one byte, or none, with `errno` saying that
a signal has interrupted it or something else. -/
inductive Written
  | bytes (more : Nat)
  | interrupted
  | failed
  deriving DecidableEq

/-- The loop of `rio_writen` over the bytes from `bufp` on: whether the function returns -1 in it,
unless it is still waiting for a `write`, what is sent, and the calls of `write` to come. -/
def writenLoop : List Written → List UInt8 → Option Bool × List UInt8 × List Written
  | writes, [] => (some false, [], writes)
  | [], _ => (none, [], [])
  | .interrupted :: writes, c :: left => writenLoop writes (c :: left)
  | .failed :: writes, _ => (some true, [], writes)
  | .bytes more :: writes, c :: left =>
    let (fails, sent, writes) := writenLoop writes (left.drop more)
    (fails, c :: left.take more ++ sent, writes)

/-- The result of `rio_writen` when it returns, and what it sends. -/
def rioWriten (writes : List Written) (usrbuf : List UInt8) :
    Option Int × List UInt8 × List Written :=
  let (fails, sent, writes) := writenLoop writes usrbuf
  (fails.map fun fails => if fails then -1 else usrbuf.length, sent, writes)

theorem readnLoop_source (fd : List Arrival) (hsize : nleft < 18446744073709551616) :
    match Source.block nleft (sourceOf fd) with
    | none => (readnLoop fd nleft).1 = none
    | some (text, rest) => text.length ≤ nleft ∧ ∃ fd', sourceOf fd' = rest ∧
        readnLoop fd nleft = (some (nleft - text.length), text, fd') := by
  induction fd generalizing nleft with
  | nil =>
    have hblock : Source.block nleft (sourceOf []) = some ([], ⟨[], false⟩) := by
      simp [Source.block, sourceOf]
    rw [hblock]
    exact ⟨Nat.zero_le _, [], rfl, rfl⟩
  | cons arrival fd ih =>
    rcases Nat.eq_zero_or_pos nleft with rfl | hpos
    · rw [Source.block_zero]
      exact ⟨le_rfl, _, rfl, rfl⟩
    · rw [readnLoop.eq_def]
      dsimp only
      rw [if_pos hpos]
      cases arrival with
      | interrupted => exact ih hsize
      | failed =>
        rw [sourceOf, Source.block_end hpos]
        rfl
      | bytes first more =>
        have hchunk := List.length_take_le nleft (first :: more)
        have hleft : sizeT ((nleft : Int) - ((first :: more).take nleft).length) =
            nleft - ((first :: more).take nleft).length := by
          rw [sizeT_eq (by omega) (by omega)]
          omega
        rw [sourceOf_bytes nleft, Source.block_push hchunk, leave]
        dsimp only
        rw [hleft]
        cases hdrop : (first :: more).drop nleft with
        | nil =>
          have hrest := @ih (nleft - ((first :: more).take nleft).length) (by omega)
          dsimp only
          cases hblock : Source.block (nleft - ((first :: more).take nleft).length)
              (sourceOf fd) with
          | none =>
            rw [hblock] at hrest
            exact hrest
          | some given =>
            rw [hblock] at hrest
            obtain ⟨hshort, fd', hs', he⟩ := hrest
            dsimp only [Option.map_some]
            rw [he, List.length_append]
            refine ⟨by omega, fd', hs', ?_⟩
            rw [Nat.sub_sub]
        | cons first' more' =>
          have hfull : ((first :: more).take nleft).length = nleft := by
            apply List.length_take_of_le
            by_contra hlt
            rw [List.drop_eq_nil_of_le (by omega)] at hdrop
            cases hdrop
          rw [hfull, Nat.sub_self, Source.block_zero, Option.map_some, List.append_nil]
          dsimp only
          rw [hfull, Nat.sub_self]
          exact ⟨le_rfl, _, rfl, rfl⟩

theorem rioReadn_source (fd : List Arrival) (hn : n < 9223372036854775808) :
    match Source.block n (sourceOf fd) with
    | none => (rioReadn fd n).1 = -1
    | some (text, rest) => ∃ fd', sourceOf fd' = rest ∧
        rioReadn fd n = ((text.length : Int), text, fd') := by
  have hloop := readnLoop_source fd (show n < 18446744073709551616 by omega)
  cases hblock : Source.block n (sourceOf fd) with
  | none =>
    rw [hblock] at hloop
    change (readnLoop fd n).1.elim (-1) _ = -1
    rw [hloop]
    rfl
  | some given =>
    rw [hblock] at hloop
    obtain ⟨hle, fd', hs', he⟩ := hloop
    refine ⟨fd', hs', ?_⟩
    have hresult : int64 ((n : Int) - (n - given.1.length : Nat)) = given.1.length := by
      simp only [int64]
      omega
    rw [rioReadn, he]
    dsimp only [Option.elim_some]
    rw [hresult]

/-- The buffered and the unbuffered function return and store the same. -/
def SameRead (rp : Rio) (n : Nat) : Prop :=
  (rioReadn rp.fd n).1 = (rioReadnb rp n).1 ∧
    ((rioReadn rp.fd n).1 ≠ -1 → (rioReadn rp.fd n).2.1 = (rioReadnb rp n).2.1)

theorem sameRead_of_unread_nil (hv : Rio.Valid rp) (hn : n < 9223372036854775808)
    (h : rp.unread = []) : SameRead rp n := by
  have hs : rp.source = sourceOf rp.fd := by rw [Rio.source, h, Source.push_nil]
  have hraw := rioReadn_source rp.fd hn
  have hbuffered := rioReadnb_delivers hv hn
  rw [hs] at hbuffered
  unfold SameRead
  generalize rioReadnb rp n = call at hbuffered ⊢
  cases hblock : Source.block n (sourceOf rp.fd) with
  | none =>
    rw [hblock] at hraw hbuffered
    change call.1 = -1 at hbuffered
    rw [hraw, hbuffered]
    exact ⟨rfl, fun hne => absurd rfl hne⟩
  | some given =>
    obtain ⟨result, bytes, rp'⟩ := call
    rw [hblock] at hraw hbuffered
    obtain ⟨fd', -, he⟩ := hraw
    obtain ⟨hresult, hbytes, -⟩ := hbuffered
    rw [he]
    exact ⟨hresult.symm, fun _ => hbytes.symm⟩

theorem unread_nil_of_sameRead (hv : Rio.Valid rp)
    (hlength : rp.source.bytes.length < 9223372036854775808)
    (h : SameRead rp rp.source.bytes.length) : rp.unread = [] := by
  have hraw := rioReadn_source rp.fd hlength
  have hbuffered := rioReadnb_delivers hv hlength
  have hall : Source.block rp.source.bytes.length rp.source =
      some (rp.source.bytes, ⟨[], rp.source.fails⟩) := by
    simp [Source.block]
  rw [hall] at hbuffered
  obtain ⟨hresult, -⟩ := h
  generalize rioReadnb rp rp.source.bytes.length = call at hbuffered hresult
  obtain ⟨result, bytes, rp'⟩ := call
  obtain ⟨rfl, -⟩ := hbuffered
  cases hblock : Source.block rp.source.bytes.length (sourceOf rp.fd) with
  | none =>
    rw [hblock] at hraw
    rw [hraw] at hresult
    dsimp only at hresult
    omega
  | some given =>
    rw [hblock] at hraw
    obtain ⟨fd', -, he⟩ := hraw
    rw [he] at hresult
    have hlen : given.1.length = rp.source.bytes.length := Int.natCast_inj.1 hresult
    have hsplit := congrArg (fun s => s.bytes.length) (Source.block_eq hblock)
    simp only [Rio.source, Source.push, List.length_append] at hlen hsplit
    exact List.eq_nil_of_length_eq_zero (by omega)

/-- On a descriptor with a buffer, `rio_readn` reads behind what the buffer still holds: it gives
what `rio_readnb` would give exactly when that is nothing. -/
theorem rio_readn_iff (rp : Rio) (hv : rp.Valid)
    (hlength : rp.source.bytes.length < 9223372036854775808) :
    (∀ n < 9223372036854775808, SameRead rp n) ↔ rp.unread = [] := by
  constructor
  · intro h
    exact unread_nil_of_sameRead hv hlength (h _ hlength)
  · intro h n hn
    exact sameRead_of_unread_nil hv hn h

/-- A reader whose buffer still holds two bytes, in front of one that is to come. -/
def twoUnread : Rio := ⟨[.bytes 101 []], 2, 0, 99 :: 100 :: List.replicate (RIO_BUFSIZE - 2) 0⟩

theorem twoUnread_passed_over : ¬ ∀ n < 9223372036854775808, SameRead twoUnread n := by
  have hv : twoUnread.Valid := ⟨by simp [twoUnread]; rfl, by decide⟩
  have hunread : twoUnread.unread = [99, 100] := by
    rw [Rio.unread_of_pos (by decide)]
    simp [twoUnread, load]
  intro h
  have hnil := (rio_readn_iff twoUnread hv (by rw [Rio.source, hunread]; decide)).1 h
  rw [hunread] at hnil
  cases hnil

/-- What a call has sent: everything, or while it waits and after an error less. -/
theorem writenLoop_sent (writes : List Written) (bytes : List UInt8) :
    ∃ left, bytes = (writenLoop writes bytes).2.1 ++ left ∧
      ((writenLoop writes bytes).1 = some false ↔ left = []) := by
  fun_induction writenLoop writes bytes with
  | case1 writes => exact ⟨[], rfl, by simp⟩
  | case2 bytes hne => exact ⟨bytes, rfl, by simpa using hne⟩
  | case3 writes c left ih => exact ih
  | case4 writes bytes hne => exact ⟨bytes, rfl, by simpa using hne⟩
  | case5 more writes c left fails sent writes' he ih =>
    rw [he] at ih
    obtain ⟨left', hsplit, hfails⟩ := ih
    refine ⟨left', ?_, hfails⟩
    rw [List.append_assoc, List.cons_append, ← hsplit, List.take_append_drop]

/-- A call that still waits has had fewer calls of `write` take something than it has bytes. -/
theorem writenLoop_waits (h : (writenLoop writes bytes).1 = none) :
    .failed ∉ writes ∧ (writes.filter (· ≠ .interrupted)).length < bytes.length := by
  fun_induction writenLoop writes bytes with
  | case1 | case4 => cases h
  | case2 bytes hne => exact ⟨List.not_mem_nil, List.length_pos_iff.2 hne⟩
  | case3 writes c left ih => simpa using ih h
  | case5 more writes c left fails sent writes' he ih =>
    obtain ⟨hfailed, hlt⟩ := ih (he ▸ h)
    rw [List.length_drop] at hlt
    refine ⟨by simpa using hfailed, ?_⟩
    rw [List.filter_cons_of_pos (by simp), List.length_cons, List.length_cons]
    omega

theorem writenLoop_fails (h : (writenLoop writes bytes).1 = some true) : .failed ∈ writes := by
  fun_induction writenLoop writes bytes with
  | case1 | case2 => cases h
  | case3 writes c left ih => exact List.mem_cons_of_mem _ (ih h)
  | case4 => exact List.mem_cons_self
  | case5 more writes c left fails sent writes' he ih => exact List.mem_cons_of_mem _ (ih (he ▸ h))

/-- A call that is done has used no more calls of `write` than it has bytes, and none that
failed. -/
theorem writenLoop_done (h : writenLoop writes bytes = (some false, sent, rest)) :
    (.failed ∈ writes ↔ .failed ∈ rest) ∧ (writes.filter (· ≠ .interrupted)).length ≤
      bytes.length + (rest.filter (· ≠ .interrupted)).length := by
  fun_induction writenLoop writes bytes generalizing sent with
  | case1 writes =>
    cases h
    exact ⟨Iff.rfl, Nat.le_add_left _ _⟩
  | case2 | case4 => cases h
  | case3 writes c left ih => simpa using ih h
  | case5 more writes c left fails sent' writes' he ih =>
    cases h
    obtain ⟨hfailed, hle⟩ := ih he
    rw [List.length_drop] at hle
    refine ⟨by simpa using hfailed, ?_⟩
    rw [List.filter_cons_of_pos (by simp), List.length_cons, List.length_cons]
    omega

/-- `rio_writen` returns the count exactly when everything is sent, once and in order; it returns
-1 only for an error, and it does not wait once `write` has taken something that many times. -/
theorem rio_writen_sent (writes : List Written) (usrbuf : List UInt8) :
    (rioWriten writes usrbuf).2.1 <+: usrbuf ∧
      ((rioWriten writes usrbuf).1 = some (usrbuf.length : Int) ↔
        (rioWriten writes usrbuf).2.1 = usrbuf) ∧
      ((rioWriten writes usrbuf).1 = some (-1) → .failed ∈ writes) ∧
      ((rioWriten writes usrbuf).1 = none → .failed ∉ writes ∧
        (writes.filter (· ≠ .interrupted)).length < usrbuf.length) := by
  obtain ⟨left, hsplit, hall⟩ := writenLoop_sent writes usrbuf
  have hresult : (rioWriten writes usrbuf).1 =
      (writenLoop writes usrbuf).1.map fun fails => if fails then (-1 : Int) else usrbuf.length :=
    rfl
  have hsent : (rioWriten writes usrbuf).2.1 = (writenLoop writes usrbuf).2.1 := rfl
  have hleft : left = [] ↔ (writenLoop writes usrbuf).2.1 = usrbuf := by
    nth_rewrite 2 [hsplit]
    simp
  rw [hresult, hsent, ← hleft, ← hall]
  refine ⟨⟨left, hsplit.symm⟩, ?_, fun h => ?_, fun h => ?_⟩
  · cases hloop : (writenLoop writes usrbuf).1 with
    | none => simp
    | some fails =>
      cases fails with
      | false => simp
      | true => simp only [Option.map_some, ↓reduceIte, Option.some.injEq, reduceCtorEq]
  · obtain ⟨fails, hfails, he⟩ := Option.map_eq_some_iff.1 h
    cases fails with
    | false =>
      simp only [Bool.false_eq_true, ↓reduceIte] at he
      omega
    | true => exact writenLoop_fails hfails
  · exact writenLoop_waits (Option.map_eq_none_iff.1 h)

end Cs324.Csapp
