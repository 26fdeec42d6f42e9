import Cs324.Base.Except
import Cs324.Dns.Answers

namespace Cs324.Dns
set_option autoImplicit true

/-- Why a run gives no result: an access outside the bytes received or outside an array, or a loop
that is not over after so many turns. -/
inductive Fault
  | outOfBounds
  | turns
  deriving DecidableEq

/-- The result of code that accesses nothing but what is there. -/
def inBounds : Option α → Except Fault α
  | some a => .ok a
  | none => .error .outOfBounds

theorem inBounds_eq_ok : inBounds r = .ok a ↔ r = some a := by
  cases r <;> simp [inBounds]

/-- The loop of `grabCNames` on the bytes received. -/
def grabLoopWithin (response : List UInt8) :
    Nat → Nat → Nat → List UInt8 → Except Fault (List UInt8)
  | 0, _, _, _ => .error .turns
  | fuel + 1, indexp, i, printed => do
    let c ← inBounds response[indexp]?
    if c = 0 then return printed
    if 0xC0 ≤ c then
      let low ← inBounds response[indexp + 1]?
      grabLoopWithin response fuel low.toNat i printed
    else if c < 0x2D then
      grabLoopWithin response fuel (indexp + 1) (i + 1) (if i ≠ 0 then printed ++ [46] else printed)
    else grabLoopWithin response fuel (indexp + 1) i (printed ++ [c])

def grabCNamesWithin (response : List UInt8) (fuel indexp : Nat) : Except Fault (List UInt8) :=
  grabLoopWithin response fuel indexp 0 []

/-- The text and its terminator, if `ipAddress` is as long as they are. -/
def printAddress (rr : DnsRr) : Except Fault (List UInt8) :=
  if (ipAddress rr.rdata).length < rr.rdataLen.toNat then .ok (ipAddress rr.rdata)
  else .error .outOfBounds

/-- The loop of `get_answer_address` on the bytes received. -/
def answerLoopWithin (memory : Memory) (response : List UInt8) (fuel : Nat) :
    Nat → DnsRr → Nat → Nat → Walk → Except Fault Walk
  | 0, _, _, _, walk => .ok walk
  | turns + 1, rr, len, indexp, walk =>
    if rr.type = 1 then do
      let line ← printAddress rr
      let (rr, next, walk) ← inBounds (examine memory response (indexp + len)
        { walk with lines := walk.lines ++ [line] })
      answerLoopWithin memory response fuel turns rr next (indexp + len) walk
    else if rr.type = 5 then do
      let line ← grabCNamesWithin response fuel (indexp + len)
      let (rr, next, walk) ← inBounds (examine memory response (indexp + len)
        { walk with lines := walk.lines ++ [line] })
      answerLoopWithin memory response fuel turns rr next (indexp + len) walk
    else .ok walk

/-- `get_answer_address`, where only the bytes received may be read, and only what is in an array
may be written. -/
def getAnswerAddressWithin (memory : Memory) (response : List UInt8) (fuel indexp : Nat) :
    Except Fault Walk := do
  let (rr, len, walk) ← inBounds (examine memory response indexp ⟨[], []⟩)
  let turns ← inBounds (answerCount memory response)
  answerLoopWithin memory response fuel turns rr len indexp walk

/-- Whatever is in memory, no access is out of bounds for as long as the code runs. -/
def StaysWithin (response : List UInt8) (offset : Nat) : Prop :=
  ∀ memory fuel, getAnswerAddressWithin memory response fuel offset ≠ .error .outOfBounds

theorem getElem?_received {response wire : List UInt8} {i : Nat} (hw : response <+: wire)
    (h : response[i]? = some c) : wire[i]? = some c := by
  obtain ⟨hi, rfl⟩ := List.getElem?_eq_some_iff.1 h
  rw [List.getElem?_eq_getElem (hi.trans_le hw.length_le), hw.getElem hi]

theorem grabLoop_of_within (hw : response <+: wire)
    (h : grabLoopWithin response fuel indexp i printed = .ok line) :
    grabLoop wire fuel indexp i printed = some line := by
  induction fuel generalizing indexp i printed with
  | zero => cases h
  | succ fuel ih =>
    rw [grabLoopWithin, bind_eq_ok] at h
    obtain ⟨c, hc, h⟩ := h
    rw [grabLoop, getElem?_received hw (inBounds_eq_ok.1 hc), Option.bind_eq_bind, Option.bind_some]
    by_cases h0 : c = 0
    · rw [if_pos h0] at h ⊢
      cases h
      rfl
    rw [if_neg h0] at h ⊢
    by_cases hp : 0xC0 ≤ c
    · simp only [if_pos hp, bind_eq_ok] at h ⊢
      obtain ⟨low, hlow, h⟩ := h
      rw [getElem?_received hw (inBounds_eq_ok.1 hlow), Option.bind_some]
      exact ih h
    rw [if_neg hp] at h ⊢
    by_cases hl : c < 0x2D
    · rw [if_pos hl] at h ⊢
      exact ih h
    · rw [if_neg hl] at h ⊢
      exact ih h

theorem nameAsciiFromWire_prefix (hw : response <+: wire)
    (h : nameAsciiFromWire response indexp block = some name) :
    nameAsciiFromWire wire indexp block = some name := by
  obtain ⟨rest, rfl⟩ := hw
  rw [nameAsciiFromWire] at h
  split at h
  next h0 =>
    have hle : indexp ≤ response.length := by
      by_contra hgt
      rw [List.drop_eq_nil_of_le (by omega)] at h0
      cases h0
    obtain ⟨left, he⟩ := cstring_terminated h0
    have hraw := cstring_not_mem (response.drop indexp)
    have hd : (response ++ rest).drop indexp =
        cstring (response.drop indexp) ++ 0 :: (left ++ rest) := by
      rw [List.drop_append_of_le_length hle]
      nth_rewrite 1 [he]
      simp
    have hc : cstring (cstring (response.drop indexp) ++ 0 :: (left ++ rest)) =
        cstring (response.drop indexp) := by
      rw [cstring_append hraw]
      simp [cstring]
    cases h
    rw [nameAsciiFromWire, hd, hc, if_pos (by simp)]
  next => cases h

theorem bytesAt_within (hw : response <+: wire) (h : bytesAt response index count = some bytes) :
    bytesAt wire index count = some bytes := by
  rw [bytesAt] at h
  split at h
  next hle => rw [bytesAt_received hw hle, h]
  next => cases h

theorem examine_within (hw : response <+: wire)
    (h : examine memory response indexp walk = some r) :
    examine memory wire indexp walk = some r := by
  simp only [examine, rrFromWire, Option.bind_eq_bind, Option.bind_eq_some_iff] at h ⊢
  obtain ⟨rr, ⟨name, hname, n, hn, type, ht, cls, hc, ttl, hl, len, hlen, data, hd, he⟩, h⟩ := h
  exact ⟨rr, ⟨name, nameAsciiFromWire_prefix hw hname, n, hn, type, bytesAt_within hw ht, cls,
    bytesAt_within hw hc, ttl, bytesAt_within hw hl, len, bytesAt_within hw hlen, data,
    bytesAt_within hw hd, he⟩, h⟩

theorem printAddress_eq_ok (h : printAddress rr = .ok line) : line = ipAddress rr.rdata := by
  rw [printAddress] at h
  split at h
  · cases h
    rfl
  · cases h

theorem answerLoop_of_within (hw : response <+: wire)
    (h : answerLoopWithin memory response fuel turns rr len indexp walk = .ok walk') :
    answerLoop memory wire fuel turns rr len indexp walk = some walk' := by
  induction turns generalizing rr len indexp walk with
  | zero =>
    cases h
    rfl
  | succ turns ih =>
    rw [answerLoopWithin] at h
    rw [answerLoop]
    by_cases ha : rr.type = 1
    · simp only [if_pos ha, bind_eq_ok, inBounds_eq_ok] at h ⊢
      obtain ⟨line, hline, ⟨rr', next, walk₁⟩, he, h⟩ := h
      cases printAddress_eq_ok hline
      rw [examine_within hw he]
      exact ih h
    rw [if_neg ha] at h ⊢
    by_cases hc : rr.type = 5
    · simp only [if_pos hc, bind_eq_ok, inBounds_eq_ok] at h ⊢
      obtain ⟨line, hline, ⟨rr', next, walk₁⟩, he, h⟩ := h
      have hgrab : grabCNames wire fuel (indexp + len) = some line := grabLoop_of_within hw hline
      rw [hgrab, Option.bind_eq_bind, Option.bind_some, examine_within hw he]
      exact ih h
    · rw [if_neg hc] at h ⊢
      cases h
      rfl

/-- A run without a fault is the run of the code, whatever follows the response in its buffer. -/
theorem resolve_of_within (hlen : response.length ≤ maxSize)
    (h : getAnswerAddressWithin memory response fuel offset = .ok walk) (rest : List UInt8) :
    resolve memory fuel offset response rest = some walk := by
  have hw : response <+: (response ++ rest).take maxSize := by
    rw [List.prefix_take_iff]
    exact ⟨List.prefix_append _ _, hlen⟩
  simp only [getAnswerAddressWithin, bind_eq_ok, inBounds_eq_ok] at h
  obtain ⟨⟨rr, len, walk₁⟩, he, turns, ht, h⟩ := h
  have hcount : answerCount memory ((response ++ rest).take maxSize) = some turns := by
    rw [answerCount] at ht ⊢
    split at ht
    next => cases ht
    next hneg =>
      obtain ⟨bytes, hb, rfl⟩ := Option.map_eq_some_iff.1 ht
      rw [if_neg hneg, bytesAt_within hw hb, Option.map_some]
  rw [resolve, getAnswerAddress, examine_within hw he, hcount]
  exact answerLoop_of_within hw h

theorem fill_length (hb : block.length = n) (h : bytes.length ≤ n) :
    (fill block bytes).length = n := by
  rw [fill, List.length_append, List.length_drop]
  omega

/-- What is copied into a block for a name or for rdata fits the block. -/
theorem examine_blocks (hlen : response.length ≤ maxSize)
    (h : examine memory response indexp walk = some (rr, len, walk')) :
    rr.name.length = maxSize ∧ rr.rdata.length = maxSize := by
  simp only [examine, rrFromWire, Option.bind_eq_bind, Option.bind_eq_some_iff, Option.pure_def,
    Option.some.injEq, Prod.mk.injEq] at h
  obtain ⟨_, ⟨name, hname, _, _, _, _, _, _, _, _, n, _, data, hdata, rfl⟩, _, _, rfl, _⟩ := h
  constructor
  · rw [nameAsciiFromWire] at hname
    split at hname
    · cases hname
      have hle := (cstring_length_le (response.drop indexp)).trans (List.drop_sublist _ _).length_le
      exact fill_length (memory.full _) (hle.trans hlen)
    · cases hname
  · have hn : data.length ≤ response.length := by
      rw [bytesAt] at hdata
      split at hdata
      · cases hdata
        exact (List.length_take_le' _ _).trans (List.drop_sublist _ _).length_le
      · cases hdata
    exact fill_length (memory.full _) (hn.trans hlen)

theorem decimal_length_pos (n : Nat) : 1 ≤ (decimal n).length := by
  rw [decimal, chars, List.length_map]
  exact Nat.length_repr_pos

/-- The dotted text of four bytes has seven characters at least. -/
theorem ipAddress_length (rdata : List UInt8) : 7 ≤ (ipAddress rdata).length := by
  have h₀ := decimal_length_pos (rdata.getD 0 0).toNat
  have h₁ := decimal_length_pos (rdata.getD 1 0).toNat
  have h₂ := decimal_length_pos (rdata.getD 2 0).toNat
  have h₃ := decimal_length_pos (rdata.getD 3 0).toNat
  have hdot : (chars ".").length = 1 := rfl
  simp only [ipAddress, List.length_append, hdot]
  omega

/-- An address record with four bytes of rdata is printed into an array of four bytes. -/
theorem printAddress_overflows (h : rr.rdataLen ≤ 7) : printAddress rr = .error .outOfBounds := by
  have htext := ipAddress_length rr.rdata
  have hlen := UInt16.le_iff_toNat_le.1 h
  rw [printAddress, if_neg]
  exact fun hlt => absurd (htext.trans_lt hlt) (Nat.not_lt.2 hlen)

/-- The loop does not get past an address record with four bytes of rdata. -/
theorem address_out_of_bounds (ha : rr.type = 1) (h : rr.rdataLen ≤ 7) :
    answerLoopWithin memory response fuel (turns + 1) rr len indexp walk = .error .outOfBounds := by
  rw [answerLoopWithin, if_pos ha, printAddress_overflows h]
  rfl

/-- Where the index of the answer count happens to be right: a response whose first record has at
most seven bytes of rdata, and is no alias, is handled within bounds exactly if that record is not
looked at or is no address. -/
theorem first_record_out_of_bounds_iff
    (he : examine memory response offset ⟨[], []⟩ = some (rr, len, walk))
    (hcount : answerCount memory response = some turns) (hshort : rr.rdataLen ≤ 7)
    (halias : rr.type ≠ 5) (fuel : Nat) :
    getAnswerAddressWithin memory response fuel offset = .error .outOfBounds ↔
      turns ≠ 0 ∧ rr.type = 1 := by
  have hloop : getAnswerAddressWithin memory response fuel offset =
      answerLoopWithin memory response fuel turns rr len offset walk := by
    rw [getAnswerAddressWithin, he, hcount]
    rfl
  rw [hloop]
  cases turns with
  | zero => exact iff_of_false nofun fun h => h.1 rfl
  | succ turns =>
    by_cases ha : rr.type = 1
    · exact iff_of_true (address_out_of_bounds ha hshort) ⟨turns.succ_ne_zero, ha⟩
    · rw [answerLoopWithin, if_neg ha, if_neg halias]
      exact iff_of_false nofun fun h => ha h.2

theorem count_out_of_bounds (h : answerCount memory response = none) (fuel offset : Nat) :
    getAnswerAddressWithin memory response fuel offset = .error .outOfBounds := by
  rw [getAnswerAddressWithin, h]
  cases examine memory response offset ⟨[], []⟩ <;> rfl

/-- The index of the answer count is never set, so there is no response for which the code stays
within bounds. -/
theorem never_stays_within (response : List UInt8) (offset : Nat) :
    ¬StaysWithin response offset := by
  intro h
  have hcount : answerCount { zeroMemory with numAnswerRecs := response.length } response =
      none := by
    rw [answerCount, if_neg (by simp), bytesAt, if_neg (by simp)]
    rfl
  exact h _ 0 (count_out_of_bounds hcount 0 offset)

/-- With the right count in memory: the response has one address record, in the form that servers
send, and its address is written beyond `ipAddress`. -/
theorem address_written_beyond : Response (responseTo [0xC0, 12]) [[97]] [answerA] [19] ∧
    getAnswerAddressWithin zeroMemory (responseTo [0xC0, 12]) 0 19 = .error .outOfBounds :=
  ⟨response_compressed, by decide +kernel⟩

end Cs324.Dns
