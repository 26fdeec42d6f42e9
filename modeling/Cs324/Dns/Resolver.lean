import Cs324.Base.CLib

namespace Cs324.Dns
set_option autoImplicit true

def maxSize : Nat := 300

/-- `dns_rr`. `name` and `rdata` are the blocks allocated for them. -/
structure DnsRr where
  name : List UInt8
  type : UInt16
  class' : UInt16
  ttl : UInt32
  rdataLen : UInt16
  rdata : List UInt8

/-- What a freshly allocated block holds after bytes have been copied to its front. -/
def fill (block bytes : List UInt8) : List UInt8 := bytes ++ block.drop bytes.length

/-- `strlen`; `none` if the block has no terminator. -/
def strlen (block : List UInt8) : Option Nat :=
  if 0 ∈ block then some (cstring block).length else none

theorem strlen_eq_some : strlen p = some n ↔ 0 ∈ p ∧ (cstring p).length = n := by
  simp [strlen]

theorem strlen_append (h0 : 0 ∉ s) (rest : List UInt8) :
    strlen (s ++ 0 :: rest) = some s.length := by
  rw [strlen, if_pos (by simp), cstring_append h0]
  simp [cstring]

/-- The bytes from an index on, if they are all there. -/
def bytesAt (wire : List UInt8) (index count : Nat) : Option (List UInt8) :=
  if index + count ≤ wire.length then some ((wire.drop index).take count) else none

theorem bytesAt_received (hw : msg <+: wire) (h : index + count ≤ msg.length) :
    bytesAt wire index count = some ((msg.drop index).take count) := by
  obtain ⟨rest, rfl⟩ := hw
  rw [bytesAt, if_pos (by rw [List.length_append]; omega), List.drop_append_of_le_length (by omega),
    List.take_append_of_le_length (by rw [List.length_drop]; omega)]

/-- `name_ascii_from_wire`. The name is what comes before the next zero byte, and gets no
terminator of its own. -/
def nameAsciiFromWire (wire : List UInt8) (indexp : Nat) (block : List UInt8) :
    Option (List UInt8) :=
  if 0 ∈ wire.drop indexp then some (fill block (cstring (wire.drop indexp))) else none

/-- `indexp[0] | indexp[1]`. -/
def orBytes (bytes : List UInt8) : UInt8 := bytes.foldl (· ||| ·) 0

/-- `rr_from_wire`, with the contents of the two blocks that it allocates. It is `none` where it
reads beyond the message or a name beyond its block. -/
def rrFromWire (wire : List UInt8) (indexp : Nat) (nameBlock dataBlock : List UInt8) :
    Option DnsRr := do
  let name ← nameAsciiFromWire wire indexp nameBlock
  let indexp := indexp + (← strlen name)
  let type := orBytes (← bytesAt wire indexp 2)
  let class' := orBytes (← bytesAt wire (indexp + 2) 2)
  let ttl := orBytes (← bytesAt wire (indexp + 4) 4)
  let rdataLen := orBytes (← bytesAt wire (indexp + 8) 2)
  let data ← bytesAt wire (indexp + 10) rdataLen.toNat
  return {
    name
    type := type.toUInt16
    class' := class'.toUInt16
    ttl := ttl.toUInt32
    rdataLen := rdataLen.toUInt16
    rdata := fill dataBlock data }

/-- The loop of `grabCNames`, with what it has printed. It is `none` where it reads beyond the
message, or if `fuel` turns are not enough. -/
def grabLoop (wire : List UInt8) : Nat → Nat → Nat → List UInt8 → Option (List UInt8)
  | 0, _, _, _ => none
  | fuel + 1, indexp, i, printed => do
    let c ← wire[indexp]?
    if c = 0 then return printed
    if 0xC0 ≤ c then
      let low ← wire[indexp + 1]?
      grabLoop wire fuel low.toNat i printed
    else if c < 0x2D then
      grabLoop wire fuel (indexp + 1) (i + 1) (if i ≠ 0 then printed ++ [46] else printed)
    else grabLoop wire fuel (indexp + 1) i (printed ++ [c])

/-- The line that `grabCNames` prints. -/
def grabCNames (wire : List UInt8) (fuel indexp : Nat) : Option (List UInt8) :=
  grabLoop wire fuel indexp 0 []

/-- The text of the first four bytes of `rdata`. It is longer than `ipAddress`, which has
`rdata_len` bytes; the stores beyond the array are taken to do no harm. -/
def ipAddress (rdata : List UInt8) : List UInt8 :=
  decimal (rdata.getD 0 0).toNat ++ chars "." ++ decimal (rdata.getD 1 0).toNat ++ chars "." ++
    decimal (rdata.getD 2 0).toNat ++ chars "." ++ decimal (rdata.getD 3 0).toNat

/-- What `get_answer_address` does: the offsets at which it examines a record, and the lines that
it prints. -/
structure Walk where
  examined : List Nat
  lines : List (List UInt8)
  deriving DecidableEq

/-- `resourceRecLen`: `strlen(name)` and the sizes of the other fields. -/
def resourceRecLen (rr : DnsRr) : Option Nat := do
  return (← strlen rr.name) + 2 + 2 + 4 + 2 + rr.rdataLen.toNat

/-- What the resolver finds in memory that it has not written: the blocks from `malloc`, in turn,
and the local variable `numAnswerRecs`. -/
structure Memory where
  blocks : Nat → List UInt8
  numAnswerRecs : Int
  full : ∀ n, (blocks n).length = maxSize

/-- `rr_from_wire` and the length of its record, for the record that is examined next. -/
def examine (memory : Memory) (wire : List UInt8) (indexp : Nat) (walk : Walk) :
    Option (DnsRr × Nat × Walk) := do
  let n := walk.examined.length
  let rr ← rrFromWire wire indexp (memory.blocks (2 * n)) (memory.blocks (2 * n + 1))
  return (rr, ← resourceRecLen rr, { walk with examined := walk.examined ++ [indexp] })

/-- The loop of `get_answer_address`, with so many turns left, for the record at `indexp` of so many
bytes. A record of another type ends it. -/
def answerLoop (memory : Memory) (wire : List UInt8) (fuel : Nat) :
    Nat → DnsRr → Nat → Nat → Walk → Option Walk
  | 0, _, _, _, walk => some walk
  | turns + 1, rr, len, indexp, walk =>
    if rr.type = 1 then do
      let (rr, next, walk) ← examine memory wire (indexp + len)
        { walk with lines := walk.lines ++ [ipAddress rr.rdata] }
      answerLoop memory wire fuel turns rr next (indexp + len) walk
    else if rr.type = 5 then do
      let line ← grabCNames wire fuel (indexp + len)
      let (rr, next, walk) ← examine memory wire (indexp + len)
        { walk with lines := walk.lines ++ [line] }
      answerLoop memory wire fuel turns rr next (indexp + len) walk
    else some walk

/-- The number of turns: `numAnswerRecs` is its own index. -/
def answerCount (memory : Memory) (wire : List UInt8) : Option Nat :=
  if memory.numAnswerRecs < 0 then none
  else (bytesAt wire memory.numAnswerRecs.toNat 2).map fun bytes => (orBytes bytes).toNat

def getAnswerAddress (memory : Memory) (wire : List UInt8) (fuel indexp : Nat) : Option Walk := do
  let (rr, len, walk) ← examine memory wire indexp ⟨[], []⟩
  answerLoop memory wire fuel (← answerCount memory wire) rr len indexp walk

/-- `resolve`, from where the response has come in. `buf` of `send_recv_message` holds the response
and after it what was in memory; all of `MAX_SIZE` bytes are copied. -/
def resolve (memory : Memory) (fuel requestWireLen : Nat) (response rest : List UInt8) :
    Option Walk :=
  getAnswerAddress memory ((response ++ rest).take maxSize) fuel requestWireLen

end Cs324.Dns
