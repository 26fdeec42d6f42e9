import Mathlib.Data.List.Basic

namespace Cs324.Dns
set_option autoImplicit true

/-- A domain name, as its labels. -/
abbrev Name := List (List UInt8)

/-- The big-endian number in so many bytes of a message. -/
def field (msg : List UInt8) (offset bytes : Nat) : Nat :=
  ((msg.drop offset).take bytes).foldl (fun n b => 256 * n + b.toNat) 0

/-- A name is encoded at an offset of a message, in so many bytes: labels that end in the root or
in a pointer to an earlier offset. -/
inductive NameAt (msg : List UInt8) : Nat → Name → Nat → Prop
  | root (h : msg[offset]? = some 0) : NameAt msg offset [] 1
  | label (hn : msg[offset]? = some n) (hpos : 1 ≤ n) (hle : n ≤ 63)
      (hl : (msg.drop (offset + 1)).take n.toNat = label) (hlen : label.length = n.toNat)
      (h : NameAt msg (offset + 1 + n.toNat) name bytes) :
      NameAt msg offset (label :: name) (1 + n.toNat + bytes)
  | pointer (hhi : msg[offset]? = some hi) (hlo : msg[offset + 1]? = some lo) (hp : 192 ≤ hi)
      (ht : 256 * (hi.toNat - 192) + lo.toNat = target) (hlt : target < offset)
      (h : NameAt msg target name bytes) : NameAt msg offset name 2

/-- A name that is written out. -/
def encodeName (name : Name) : List UInt8 :=
  name.flatMap (fun label => UInt8.ofNat label.length :: label) ++ [0]

/-- The question for the address of a name: type A and class IN. -/
def encodeQuestion (qname : Name) : List UInt8 := encodeName qname ++ [0, 1, 0, 1]

inductive Rdata
  | a (b₀ b₁ b₂ b₃ : UInt8)
  | cname (target : Name)

structure Record where
  owner : Name
  ttl : Nat
  rdata : Rdata

/-- A record of class IN is encoded from one offset up to another. -/
inductive RecordAt (msg : List UInt8) : Nat → Record → Nat → Prop
  | a (howner : NameAt msg start owner used) (htype : field msg (start + used) 2 = 1)
      (hclass : field msg (start + used + 2) 2 = 1) (httl : field msg (start + used + 4) 4 = ttl)
      (hlen : field msg (start + used + 8) 2 = 4)
      (hdata : (msg.drop (start + used + 10)).take 4 = [b₀, b₁, b₂, b₃]) :
      RecordAt msg start ⟨owner, ttl, .a b₀ b₁ b₂ b₃⟩ (start + used + 10 + 4)
  | cname (howner : NameAt msg start owner used) (htype : field msg (start + used) 2 = 5)
      (hclass : field msg (start + used + 2) 2 = 1) (httl : field msg (start + used + 4) 4 = ttl)
      (hlen : field msg (start + used + 8) 2 = len)
      (hdata : NameAt msg (start + used + 10) target len) :
      RecordAt msg start ⟨owner, ttl, .cname target⟩ (start + used + 10 + len)

/-- Records follow one another, each from its own start. -/
inductive RecordsAt (msg : List UInt8) : Nat → List Record → List Nat → Nat → Prop
  | nil : RecordsAt msg stop [] [] stop
  | cons (h : RecordAt msg start r next) (hs : RecordsAt msg next records starts stop) :
      RecordsAt msg start (r :: records) (start :: starts) stop

theorem RecordsAt.length_eq (h : RecordsAt msg start records starts stop) :
    starts.length = records.length := by
  induction h with
  | nil => rfl
  | cons _ _ ih => rw [List.length_cons, List.length_cons, ih]

def headerBytes : Nat := 12

/-- A response to the question for the address of `qname`, with its answer records and where they
start. -/
structure Response (msg : List UInt8) (qname : Name) (records : List Record)
    (starts : List Nat) : Prop where
  fits : msg.length ≤ 300
  labels : ∀ label ∈ qname, 1 ≤ label.length ∧ label.length ≤ 63
  questions : field msg 4 2 = 1
  answers : field msg 6 2 = records.length
  question : encodeQuestion qname <+: msg.drop headerBytes
  records : RecordsAt msg (headerBytes + (encodeQuestion qname).length) records starts msg.length

/-- The name at the front of a message without pointers, and what follows it. -/
def decodeName : List UInt8 → Option (Name × List UInt8)
  | [] => none
  | n :: rest =>
    if n = 0 then some ([], rest)
    else if n ≤ 63 ∧ n.toNat ≤ rest.length then do
      let (name, left) ← decodeName (rest.drop n.toNat)
      return (rest.take n.toNat :: name, left)
    else none
termination_by msg => msg.length
decreasing_by
  rw [List.length_drop, List.length_cons]
  omega

structure Query where
  id : Nat
  flags : Nat
  questions : Nat
  answers : Nat
  authorities : Nat
  additionals : Nat
  qname : Name
  qtype : Nat
  qclass : Nat

/-- A message that has one question and nothing after it. -/
def decodeQuery (msg : List UInt8) : Option Query := do
  guard (headerBytes ≤ msg.length)
  let (qname, rest) ← decodeName (msg.drop headerBytes)
  guard (rest.length = 4)
  return {
    id := field msg 0 2
    flags := field msg 2 2
    questions := field msg 4 2
    answers := field msg 6 2
    authorities := field msg 8 2
    additionals := field msg 10 2
    qname
    qtype := field rest 0 2
    qclass := field rest 2 2 }

theorem encodeName_nil : encodeName [] = [0] := rfl

theorem encodeName_cons (label : List UInt8) (name : Name) :
    encodeName (label :: name) = UInt8.ofNat label.length :: label ++ encodeName name := by
  simp [encodeName]

theorem decodeName_encodeName (hs : ∀ label ∈ name, label ≠ [] ∧ label.length ≤ 63)
    (rest : List UInt8) : decodeName (encodeName name ++ rest) = some (name, rest) := by
  induction name with
  | nil =>
    rw [encodeName_nil, List.singleton_append, decodeName]
    rfl
  | cons label name ih =>
    obtain ⟨hne, hle⟩ := hs label List.mem_cons_self
    have hrest := ih fun l hl => hs l (List.mem_cons_of_mem _ hl)
    have hpos := List.length_pos_iff.2 hne
    have hn : (UInt8.ofNat label.length).toNat = label.length := by
      rw [UInt8.toNat_ofNat']
      omega
    have h0 : UInt8.ofNat label.length ≠ 0 := by
      intro he
      rw [he, UInt8.toNat_zero] at hn
      omega
    have h63 : UInt8.ofNat label.length ≤ 63 ∧
        label.length ≤ (label ++ (encodeName name ++ rest)).length := by
      rw [UInt8.le_iff_toNat_le, hn, List.length_append]
      exact ⟨hle, Nat.le_add_right _ _⟩
    rw [encodeName_cons, List.cons_append, List.cons_append, List.append_assoc, decodeName,
      if_neg h0, hn, if_pos h63, List.drop_left, List.take_left, hrest]
    rfl

end Cs324.Dns
