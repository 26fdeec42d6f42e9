import Cs324.Base.Arrivals
import Cs324.Base.Block
import Cs324.Base.CLib

namespace Cs324.Csapp
set_option autoImplicit true

def RIO_BUFSIZE : Nat := 8192

/-- `rio_t`, with what is still to come in on `rio_fd`. -/
structure Rio where
  fd : List Arrival
  cnt : Int
  bufptr : Nat
  buf : List UInt8

/-- `rio_readinitb`, for a buffer that holds anything. -/
def rioReadinitb (fd : List Arrival) (buf : List UInt8) : Rio := ⟨fd, 0, 0, buf⟩

/-- The loop of `rio_read` that refills an empty buffer, and what the function returns there if it
does. -/
def refill (rp : Rio) : List Arrival → Option Int × Rio
  | [] => (some 0, { rp with fd := [], cnt := 0 })
  | .interrupted :: fd => refill { rp with cnt := -1 } fd
  | .failed :: fd => (some (-1), { rp with fd, cnt := -1 })
  | .bytes first more :: fd =>
    let chunk := (first :: more).take RIO_BUFSIZE
    (none, ⟨leave RIO_BUFSIZE (first :: more) fd, chunk.length, 0, store rp.buf 0 chunk⟩)

/-- The result of `rio_read` and what it copies to the user's buffer. -/
def rioRead (rp : Rio) (n : Nat) : Int × List UInt8 × Rio :=
  match if rp.cnt ≤ 0 then refill rp rp.fd else (none, rp) with
  | (some result, rp) => (result, [], rp)
  | (none, rp) =>
    let cnt := if sizeT rp.cnt < n then rp.cnt else int32 n
    (cnt, load rp.buf rp.bufptr cnt.toNat,
      { rp with bufptr := rp.bufptr + cnt.toNat, cnt := int32 (rp.cnt - cnt) })

/-- The loop of `rio_readnb`, which no pass takes nothing in: `nleft` at its end, unless the
function returns -1, and the bytes stored. -/
def readnbLoop : Nat → Rio → Nat → Option Nat × List UInt8 × Rio
  | 0, rp, nleft => (some nleft, [], rp)
  | passes + 1, rp, nleft =>
    if 0 < nleft then
      let (nread, chunk, rp) := rioRead rp nleft
      if nread < 0 then (none, [], rp)
      else if nread = 0 then (some nleft, [], rp)
      else
        let (result, bytes, rp) := readnbLoop passes rp (sizeT (nleft - nread))
        (result, chunk ++ bytes, rp)
    else (some nleft, [], rp)

/-- The result of `rio_readnb` and what it stores from `usrbuf` on. -/
def rioReadnb (rp : Rio) (n : Nat) : Int × List UInt8 × Rio :=
  let (nleft, bytes, rp) := readnbLoop n rp n
  (nleft.elim (-1) fun nleft => int64 (n - nleft), bytes, rp)

/-- The loop of `rio_readlineb`: `n` at its end, or what the function returns inside it, and the
bytes stored. -/
def readlinebLoop (maxlen : Nat) : Nat → Rio → Int → Except Int Int × List UInt8 × Rio
  | 0, rp, n => (.ok n, [], rp)
  | passes + 1, rp, n =>
    if sizeT n < maxlen then
      let (rc, c, rp) := rioRead rp 1
      if rc = 1 then
        if c = [10] then (.ok (int32 (n + 1)), c, rp)
        else
          let (result, bytes, rp) := readlinebLoop maxlen passes rp (int32 (n + 1))
          (result, c ++ bytes, rp)
      else if rc = 0 then
        if n = 1 then (.error 0, [], rp) else (.ok n, [], rp)
      else (.error (-1), [], rp)
    else (.ok n, [], rp)

/-- The result of `rio_readlineb` and what it stores from `usrbuf` on. -/
def rioReadlineb (rp : Rio) (maxlen : Nat) : Int × List UInt8 × Rio :=
  match readlinebLoop maxlen maxlen rp 1 with
  | (.error result, bytes, rp) => (result, bytes, rp)
  | (.ok n, bytes, rp) => (int32 (n - 1), bytes ++ [0], rp)

/-- The bytes in the buffer that are not read yet. -/
def Rio.unread (rp : Rio) : List UInt8 :=
  if rp.cnt ≤ 0 then [] else load rp.buf rp.bufptr rp.cnt.toNat

/-- What the reader has in front of it. -/
def Rio.source (rp : Rio) : Source := (sourceOf rp.fd).push rp.unread

/-- The part of the buffer that is not read yet lies inside it. -/
structure Rio.Valid (rp : Rio) : Prop where
  length : rp.buf.length = RIO_BUFSIZE
  inside : rp.bufptr + rp.cnt.toNat ≤ RIO_BUFSIZE

/-- What a call of `rio_read` does with the source in front of it. -/
inductive Reads (s : Source) (n : Nat) : Int × List UInt8 × Rio → Prop
  | some : chunk ≠ [] → chunk.length ≤ n → rp.Valid → s = rp.source.push chunk →
      Reads s n (chunk.length, chunk, rp)
  | atEnd : s = ⟨[], false⟩ → rp.Valid → rp.source = s → Reads s n (0, [], rp)
  | failed : s = ⟨[], true⟩ → Reads s n (-1, [], rp)

variable {rp rp' : Rio} {cnt : Int}

theorem Rio.unread_of_pos (h : 0 < rp.cnt) : rp.unread = load rp.buf rp.bufptr rp.cnt.toNat :=
  if_neg (by omega)

theorem Rio.unread_of_nonpos (h : rp.cnt ≤ 0) : rp.unread = [] := if_pos h

theorem Rio.source_of_nonpos (h : rp.cnt ≤ 0) : rp.source = sourceOf rp.fd := by
  rw [Rio.source, Rio.unread_of_nonpos h, Source.push_nil]

theorem Rio.Valid.empty (hv : Rio.Valid rp) (fd : List Arrival) (h : cnt ≤ 0) :
    Rio.Valid { rp with fd, cnt } := by
  refine ⟨hv.length, ?_⟩
  have hinside := hv.inside
  dsimp only
  omega

theorem rioReadinitb_valid (fd : List Arrival) (h : buf.length = RIO_BUFSIZE) :
    (rioReadinitb fd buf).Valid := ⟨h, Nat.zero_le _⟩

theorem rioReadinitb_source (fd : List Arrival) (buf : List UInt8) :
    (rioReadinitb fd buf).source = sourceOf fd := Rio.source_of_nonpos (Int.le_refl 0)

/-- The loop ends with bytes in the buffer, at the end of the stream or at an error. -/
theorem refill_cases (hv : rp.Valid) (fd : List Arrival) :
    ∃ rp', rp'.Valid ∧
      ((refill rp fd = (none, rp') ∧ 0 < rp'.cnt ∧ rp'.source = sourceOf fd) ∨
      (refill rp fd = (some 0, rp') ∧ sourceOf fd = ⟨[], false⟩ ∧ rp'.source = sourceOf fd) ∨
      (refill rp fd = (some (-1), rp') ∧ sourceOf fd = ⟨[], true⟩)) := by
  induction fd generalizing rp with
  | nil =>
    exact ⟨_, hv.empty [] (by decide),
      .inr (.inl ⟨rfl, rfl, Rio.source_of_nonpos (Int.le_refl 0)⟩)⟩
  | cons arrival fd ih =>
    cases arrival with
    | interrupted => exact ih (hv.empty rp.fd (by decide))
    | failed => exact ⟨_, hv.empty fd (by decide), .inr (.inr ⟨rfl, rfl⟩)⟩
    | bytes first more =>
      let chunk := (first :: more).take RIO_BUFSIZE
      have hpos : 0 < chunk.length := by simp [chunk, RIO_BUFSIZE]
      have hfit : chunk.length ≤ RIO_BUFSIZE := List.length_take_le _ _
      have hstore : store rp.buf 0 chunk = chunk ++ rp.buf.drop chunk.length := by simp [store]
      have hbuf : (store rp.buf 0 chunk).length = RIO_BUFSIZE := by
        rw [hstore, List.length_append, List.length_drop, hv.length]
        omega
      have hunread : load (store rp.buf 0 chunk) 0 chunk.length = chunk := by
        rw [load_eq (by omega), List.drop_zero, hstore, List.take_left]
      have hcnt : 0 < (chunk.length : Int) := Int.natCast_pos.2 hpos
      refine ⟨_, ⟨hbuf, ?_⟩, .inl ⟨rfl, hcnt, ?_⟩⟩
      · change 0 + (chunk.length : Int).toNat ≤ RIO_BUFSIZE
        omega
      · rw [Rio.source, Rio.unread_of_pos hcnt, sourceOf_bytes RIO_BUFSIZE]
        exact congrArg (Source.push · _) hunread

theorem rioRead_unread (hv : rp.Valid) (hpos : 0 < rp.cnt) (hn : 0 < n) :
    Reads rp.source n
      (let cnt := if sizeT rp.cnt < n then rp.cnt else int32 n
       (cnt, load rp.buf rp.bufptr cnt.toNat,
        { rp with bufptr := rp.bufptr + cnt.toNat, cnt := int32 (rp.cnt - cnt) })) := by
  obtain ⟨c, hc⟩ := Int.eq_ofNat_of_zero_le (Int.le_of_lt hpos)
  have hlength := hv.length
  have hinside := hv.inside
  rw [hc] at hpos hinside
  simp only [RIO_BUFSIZE, Int.toNat_natCast] at hlength hinside
  have hsize : sizeT rp.cnt = c := by
    rw [hc, sizeT_eq (by omega) (by omega), Int.toNat_natCast]
  obtain ⟨k, hk, hkn, hkc, hkpos⟩ : ∃ k : Nat,
      (if sizeT rp.cnt < n then rp.cnt else int32 n) = k ∧ k ≤ n ∧ k ≤ c ∧ 0 < k := by
    rw [hsize]
    split
    · exact ⟨c, hc, by omega, le_rfl, by omega⟩
    · exact ⟨n, int32_eq (by omega) (by omega), le_rfl, by omega, hn⟩
  have hleft : int32 (rp.cnt - k) = (c - k : Nat) := by
    rw [hc, int32_eq (by omega) (by omega)]
    omega
  have hload : (load rp.buf rp.bufptr k).length = k := load_length _ _ _
  have hreads : Reads rp.source n ((load rp.buf rp.bufptr k).length, load rp.buf rp.bufptr k,
      { rp with bufptr := rp.bufptr + k, cnt := (c - k : Nat) }) := by
    refine .some (List.ne_nil_of_length_pos (by omega)) (by omega) ⟨hv.length, ?_⟩ ?_
    · simp only [RIO_BUFSIZE, Int.toNat_natCast]
      omega
    · have hunread : rp.unread = load rp.buf rp.bufptr k ++
          Rio.unread { rp with bufptr := rp.bufptr + k, cnt := (c - k : Nat) } := by
        rw [Rio.unread_of_pos (by omega), hc, Int.toNat_natCast, load_eq (by omega),
          load_eq (by omega)]
        rcases Nat.eq_or_lt_of_le hkc with rfl | hlt
        · rw [Rio.unread_of_nonpos (by simp), List.append_nil]
        · rw [Rio.unread_of_pos (by simp; omega)]
          simp only [Int.toNat_natCast]
          rw [load_eq (by omega), ← List.drop_drop, ← List.take_add, Nat.add_sub_cancel' hkc]
      rw [Rio.source, Rio.source, hunread, Source.push_push]
  rw [hload] at hreads
  simpa only [hk, Int.toNat_natCast, hleft] using hreads

theorem rioRead_reads (hv : rp.Valid) (hn : 0 < n) : Reads rp.source n (rioRead rp n) := by
  by_cases hpos : 0 < rp.cnt
  · have hread := rioRead_unread hv hpos hn
    rwa [rioRead, if_neg (by omega)]
  · rw [rioRead, if_pos (by omega), Rio.source_of_nonpos (by omega)]
    obtain ⟨rp', hv', ⟨he, hcnt, hs⟩ | ⟨he, hs, hs'⟩ | ⟨he, hs⟩⟩ := refill_cases hv rp.fd
    · rw [he, ← hs]
      exact rioRead_unread hv' hcnt hn
    · rw [he]
      exact .atEnd hs hv' hs'
    · rw [he]
      exact .failed hs

/-- A call returns what the source gives it, stores it and leaves the reader at the rest; where the
source fails, it returns -1. -/
def Delivers (stored : List UInt8 → List UInt8) :
    Option (List UInt8 × Source) → Int × List UInt8 × Rio → Prop
  | none, call => call.1 = -1
  | some (text, rest), (result, bytes, rp) =>
    result = text.length ∧ bytes = stored text ∧ rp.Valid ∧ rp.source = rest

theorem readnbLoop_delivers (passes : Nat) (hv : rp.Valid) (hpasses : nleft ≤ passes)
    (hsize : nleft < 18446744073709551616) :
    match Source.block nleft rp.source with
    | none => (readnbLoop passes rp nleft).1 = none
    | some (text, rest) => text.length ≤ nleft ∧ ∃ rp', rp'.Valid ∧ rp'.source = rest ∧
        readnbLoop passes rp nleft = (some (nleft - text.length), text, rp') := by
  induction passes generalizing rp nleft with
  | zero =>
    obtain rfl : nleft = 0 := by omega
    rw [Source.block_zero]
    exact ⟨le_rfl, rp, hv, rfl, rfl⟩
  | succ passes ih =>
    rcases Nat.eq_zero_or_pos nleft with rfl | hpos
    · rw [Source.block_zero]
      exact ⟨le_rfl, rp, hv, rfl, rfl⟩
    · rw [readnbLoop, if_pos hpos]
      have hreads := rioRead_reads hv hpos
      generalize rioRead rp nleft = call at hreads ⊢
      cases hreads with
      | @some chunk rp' hne hle hv' hs =>
        have hlen := List.length_pos_iff.2 hne
        have hleft : sizeT ((nleft : Int) - chunk.length) = nleft - chunk.length := by
          rw [sizeT_eq (by omega) (by omega)]
          omega
        have hrest := @ih _ (nleft - chunk.length) hv' (by omega) (by omega)
        rw [hs, Source.block_push hle]
        dsimp only
        rw [if_neg (by omega), if_neg (by omega), hleft]
        cases hblock : Source.block (nleft - chunk.length) rp'.source with
        | none =>
          rw [hblock] at hrest
          exact hrest
        | some given =>
          rw [hblock] at hrest
          obtain ⟨hshort, rp'', hv'', hs'', he⟩ := hrest
          dsimp only [Option.map_some]
          rw [he, List.length_append]
          refine ⟨by omega, rp'', hv'', hs'', ?_⟩
          rw [Nat.sub_sub]
      | atEnd hs hv' hs' =>
        rw [hs, Source.block_end hpos]
        exact ⟨Nat.zero_le _, _, hv', hs'.trans hs, rfl⟩
      | failed hs =>
        rw [hs, Source.block_end hpos]
        rfl

theorem rioReadnb_delivers (hv : rp.Valid) (hn : n < 9223372036854775808) :
    Delivers id (Source.block n rp.source) (rioReadnb rp n) := by
  have hloop := readnbLoop_delivers n hv le_rfl (by omega)
  cases hblock : Source.block n rp.source with
  | none =>
    rw [hblock] at hloop
    change (readnbLoop n rp n).1.elim (-1) _ = -1
    rw [hloop]
    rfl
  | some given =>
    rw [hblock] at hloop
    obtain ⟨hle, rp', hv', hs', he⟩ := hloop
    rw [rioReadnb, he]
    refine ⟨?_, rfl, hv', hs'⟩
    simp only [Option.elim_some, int64]
    omega

/-- What `rio_readlineb` stores: at the end of the stream nothing, not even a `NUL`. -/
def stored (maxlen : Nat) (text : List UInt8) : List UInt8 :=
  if text = [] ∧ 1 < maxlen then [] else text ++ [0]

theorem readlinebLoop_delivers (passes : Nat) (hv : rp.Valid) (hn : 1 ≤ n)
    (hpasses : maxlen ≤ n + passes) (hmax : maxlen < 2147483648) (hle : n ≤ maxlen) :
    match Source.line (maxlen - n) rp.source with
    | none => (readlinebLoop maxlen passes rp n).1 = .error (-1)
    | some (text, rest) => text.length ≤ maxlen - n ∧ ∃ rp', rp'.Valid ∧ rp'.source = rest ∧
        readlinebLoop maxlen passes rp n =
          (if text = [] ∧ n = 1 ∧ 1 < maxlen then .error 0 else .ok (n + text.length), text,
            rp') := by
  induction passes generalizing rp n with
  | zero =>
    obtain rfl : n = maxlen := by omega
    rw [Nat.sub_self, Source.line_zero]
    refine ⟨le_rfl, rp, hv, rfl, ?_⟩
    rw [if_neg (by omega), readlinebLoop]
    simp
  | succ passes ih =>
    have hsize : sizeT n = n := by rw [sizeT_eq (by omega) (by omega), Int.toNat_natCast]
    rcases Nat.eq_or_lt_of_le hle with rfl | hlt
    · rw [Nat.sub_self, Source.line_zero]
      refine ⟨le_rfl, rp, hv, rfl, ?_⟩
      rw [if_neg (by omega), readlinebLoop, hsize, if_neg (Nat.lt_irrefl n)]
      simp
    · have hnext : int32 ((n : Int) + 1) = (n + 1 : Nat) := by
        rw [int32_eq (by omega) (by omega), Int.natCast_succ]
      obtain ⟨m, hm⟩ := Nat.exists_eq_add_of_lt hlt
      have hroom : maxlen - n = m + 1 := by omega
      have hroom' : maxlen - (n + 1) = m := by omega
      rw [readlinebLoop, hsize, if_pos hlt, hroom]
      have hreads := rioRead_reads hv Nat.one_pos
      generalize rioRead rp 1 = call at hreads ⊢
      cases hreads with
      | @some chunk rp' hne hle' hv' hs =>
        have hlen := List.length_pos_iff.2 hne
        obtain ⟨c, rfl⟩ := List.length_eq_one_iff.1 (show chunk.length = 1 by omega)
        rw [hs]
        by_cases hc : c = 10
        · subst hc
          rw [Source.line_newline]
          refine ⟨by simp, rp', hv', rfl, ?_⟩
          simp [hnext]
        · have hrest := ih hv' (n := n + 1) (by omega) (by omega) (by omega)
          rw [Source.line_push hc, hnext]
          dsimp only
          rw [if_pos (show ([c].length : Int) = 1 from rfl), if_neg (by simpa using hc)]
          cases hline : Source.line m rp'.source with
          | none =>
            rw [hroom', hline] at hrest
            exact hrest
          | some given =>
            rw [hroom', hline] at hrest
            obtain ⟨hshort, rp'', hv'', hs'', he⟩ := hrest
            rw [if_neg (by omega)] at he
            dsimp only [Option.map_some]
            rw [he]
            refine ⟨by rw [List.length_cons]; omega, rp'', hv'', hs'', ?_⟩
            simp
            omega
      | @atEnd rp' hs hv' hs' =>
        rw [hs, Source.line_end]
        refine ⟨Nat.zero_le _, rp', hv', hs'.trans hs, ?_⟩
        rcases Nat.eq_or_lt_of_le hn with rfl | hone
        · simp [hlt]
        · rw [if_neg (by omega)]
          simp
          omega
      | failed hs =>
        rw [hs, Source.line_end]
        rfl

theorem rioReadlineb_delivers (hv : rp.Valid) (hone : 1 ≤ maxlen) (hmax : maxlen < 2147483648) :
    Delivers (stored maxlen) (Source.line (maxlen - 1) rp.source) (rioReadlineb rp maxlen) := by
  have hloop := readlinebLoop_delivers maxlen hv le_rfl (by omega) hmax hone
  cases hline : Source.line (maxlen - 1) rp.source with
  | none =>
    rw [hline] at hloop
    change (rioReadlineb rp maxlen).1 = -1
    unfold rioReadlineb
    generalize readlinebLoop maxlen maxlen rp 1 = call at hloop ⊢
    obtain ⟨_, bytes, rp'⟩ := call
    cases hloop
    rfl
  | some given =>
    rw [hline] at hloop
    obtain ⟨hle, rp', hv', hs', he⟩ := hloop
    change readlinebLoop maxlen maxlen rp 1 = _ at he
    rw [rioReadlineb, he]
    by_cases hend : given.1 = [] ∧ 1 < maxlen
    · rw [if_pos ⟨hend.1, rfl, hend.2⟩]
      refine ⟨?_, ?_, hv', hs'⟩
      · simp [hend.1]
      · rw [stored, if_pos hend]
        exact hend.1
    · rw [if_neg fun h => hend ⟨h.1, h.2.2⟩]
      refine ⟨?_, (if_neg hend).symm, hv', hs'⟩
      change int32 (1 + given.1.length - 1) = _
      rw [int32_eq] <;> omega

/-- A call of one of the wrappers that read from the buffer. -/
inductive Call
  | Rio_readlineb (maxlen : Nat)
  | Rio_readnb (n : Nat)
  deriving DecidableEq

def Call.function (rp : Rio) : Call → Int × List UInt8 × Rio
  | .Rio_readlineb maxlen => rioReadlineb rp maxlen
  | .Rio_readnb n => rioReadnb rp n

/-- What the calls return and store, one after the other. A wrapper whose function fails ends the
process. -/
def results (rp : Rio) : List Call → List (Option (Int × List UInt8))
  | [] => []
  | call :: calls =>
    let (result, bytes, rp) := call.function rp
    if result < 0 then [none] else some (result, bytes) :: results rp calls

/-- What a call is to get from a source. -/
def Call.given (s : Source) : Call → Option (List UInt8 × Source)
  | .Rio_readlineb maxlen => s.line (maxlen - 1)
  | .Rio_readnb n => s.block n

def Call.stored : Call → List UInt8 → List UInt8
  | .Rio_readlineb maxlen, text => Csapp.stored maxlen text
  | .Rio_readnb _, text => text

/-- What the calls are to return and store. -/
def expected (s : Source) : List Call → List (Option (Int × List UInt8))
  | [] => []
  | call :: calls =>
    match call.given s with
    | none => [none]
    | some (text, rest) => some ((text.length : Int), call.stored text) :: expected rest calls

/-- There is room for the `NUL`, and the counters do not overflow. -/
def Call.Sized : Call → Prop
  | .Rio_readlineb maxlen => 1 ≤ maxlen ∧ maxlen < 2147483648
  | .Rio_readnb n => n < 9223372036854775808

theorem Call.delivers (hv : rp.Valid) (h : Call.Sized call) :
    Delivers call.stored (call.given rp.source) (call.function rp) := by
  cases call with
  | Rio_readlineb maxlen => exact rioReadlineb_delivers hv h.1 h.2
  | Rio_readnb n => exact rioReadnb_delivers hv h

theorem results_expected (calls : List Call) (hv : rp.Valid) (h : ∀ call ∈ calls, call.Sized) :
    results rp calls = expected rp.source calls := by
  induction calls generalizing rp with
  | nil => rfl
  | cons call calls ih =>
    have hdelivers := Call.delivers hv (h call List.mem_cons_self)
    rw [results, expected]
    generalize call.function rp = made at hdelivers ⊢
    cases hgiven : call.given rp.source with
    | none =>
      rw [hgiven] at hdelivers
      change made.1 = -1 at hdelivers
      simp [hdelivers]
    | some given =>
      obtain ⟨result, bytes, rp'⟩ := made
      rw [hgiven] at hdelivers
      obtain ⟨rfl, rfl, hv', hs'⟩ := hdelivers
      dsimp only
      rw [if_neg (Int.not_lt.2 (Int.natCast_nonneg _)),
        ih hv' fun call hc => h call (List.mem_cons_of_mem _ hc), hs']

/-- In whatever pieces the bytes arrive and whatever signals come in between, any calls get what
they would get from the undivided stream. -/
theorem rio_results (fd : List Arrival) (buf : List UInt8) (calls : List Call)
    (hbuf : buf.length = RIO_BUFSIZE) (hcalls : ∀ call ∈ calls, call.Sized) :
    results (rioReadinitb fd buf) calls = expected (sourceOf fd) calls := by
  rw [results_expected calls (rioReadinitb_valid fd hbuf) hcalls, rioReadinitb_source]

theorem two_pieces_read :
    results (rioReadinitb [.bytes 97 [98], .interrupted, .bytes 10 [99, 100], .interrupted,
      .bytes 101 []] (List.replicate RIO_BUFSIZE 0)) [.Rio_readlineb 8192, .Rio_readnb 2,
      .Rio_readlineb 8192, .Rio_readlineb 8192] =
      [some (3, [97, 98, 10, 0]), some (2, [99, 100]), some (1, [101, 0]), some (0, [])] :=
  (rio_results _ _ _ List.length_replicate (by
    simp only [List.forall_mem_cons, List.not_mem_nil, false_imp_iff, implies_true, Call.Sized]
    decide)).trans (by decide)

end Cs324.Csapp
