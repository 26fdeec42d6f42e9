import Cs324.Dns.Message
import Cs324.Dns.Resolver

namespace Cs324.Dns
set_option autoImplicit true

/-- The line that is to be printed for a record. -/
def Record.line (r : Record) : List UInt8 :=
  match r.rdata with
  | .a b₀ b₁ b₂ b₃ =>
    decimal b₀.toNat ++ chars "." ++ decimal b₁.toNat ++ chars "." ++ decimal b₂.toNat ++
      chars "." ++ decimal b₃.toNat
  | .cname target => [46].intercalate target

theorem examine_cases (h : examine memory wire indexp walk = some (rr, len, walk')) :
    walk' = { walk with examined := walk.examined ++ [indexp] } := by
  simp only [examine, Option.bind_eq_bind, Option.bind_eq_some_iff, Option.pure_def,
    Option.some.injEq, Prod.mk.injEq] at h
  obtain ⟨_, _, _, _, _, _, rfl⟩ := h
  rfl

/-- Each turn that prints a line goes on to examine one more record. -/
theorem answerLoop_examines_ahead
    (h : answerLoop memory wire fuel turns rr len indexp walk = some walk')
    (hw : walk.examined.length = walk.lines.length + 1) :
    walk'.examined.length = walk'.lines.length + 1 := by
  induction turns generalizing rr len indexp walk with
  | zero =>
    cases h
    exact hw
  | succ turns ih =>
    rw [answerLoop] at h
    split at h
    next =>
      simp only [Option.bind_eq_bind, Option.bind_eq_some_iff] at h
      obtain ⟨⟨rr', next, walk₁⟩, he, h⟩ := h
      apply ih h
      rw [examine_cases he]
      simp [hw]
    next =>
      split at h
      next =>
        simp only [Option.bind_eq_bind, Option.bind_eq_some_iff] at h
        obtain ⟨line, _, ⟨rr', next, walk₁⟩, he, h⟩ := h
        apply ih h
        rw [examine_cases he]
        simp [hw]
      next =>
        cases h
        exact hw

theorem getAnswerAddress_examines_ahead
    (h : getAnswerAddress memory wire fuel indexp = some walk) :
    walk.examined.length = walk.lines.length + 1 := by
  simp only [getAnswerAddress, Option.bind_eq_bind, Option.bind_eq_some_iff] at h
  obtain ⟨⟨rr, len, walk₁⟩, he, turns, _, h⟩ := h
  apply answerLoop_examines_ahead h
  rw [examine_cases he]
  rfl

/-- On no response, and whatever is in memory, are the answer records examined, no record more, and
a line printed for each: the record after the last line has been examined as well. -/
theorem answers_never_printed (h : Response msg qname records starts) (memory : Memory)
    (fuel requestWireLen : Nat) (rest : List UInt8) :
    resolve memory fuel requestWireLen msg rest ≠ some ⟨starts, records.map Record.line⟩ := by
  intro hr
  have ha := getAnswerAddress_examines_ahead hr
  rw [List.length_map, h.records.length_eq] at ha
  omega

/-- Blocks full of zeros, and the index of the answer count where the count is to be. -/
def zeroMemory : Memory := ⟨fun _ => List.replicate maxSize 0, 6, fun _ => List.length_replicate⟩

/-- A response to the question for the name `a` with one record, for the owner as it is encoded. -/
def responseTo (owner : List UInt8) : List UInt8 :=
  [0x12, 0x34, 0x81, 0x80, 0, 1, 0, 1, 0, 0, 0, 0] ++ encodeQuestion [[97]] ++ owner ++
    [0, 1, 0, 1, 0, 0, 0, 60, 0, 4, 127, 0, 0, 1]

def answerA : Record := ⟨[[97]], 60, .a 127 0 0 1⟩

/-- The owner is a pointer to the question. -/
theorem response_compressed : Response (responseTo [0xC0, 12]) [[97]] [answerA] [19] where
  fits := by decide
  labels := by decide
  questions := by decide
  answers := by decide
  question := by decide
  records := by
    have hname : NameAt (responseTo [0xC0, 12]) 12 [[97]] 3 :=
      .label (n := 1) rfl (by decide) (by decide) rfl rfl (.root rfl)
    have howner : NameAt (responseTo [0xC0, 12]) 19 [[97]] 2 :=
      .pointer rfl rfl (by decide) rfl (by decide) hname
    exact .cons (.a howner rfl rfl rfl rfl rfl) .nil

theorem answers_never_printed_compressed :
    resolve zeroMemory 400 19 (responseTo [0xC0, 12]) (List.replicate 300 0) ≠
      some ⟨[19], [chars "127.0.0.1"]⟩ :=
  answers_never_printed response_compressed zeroMemory 400 19 (List.replicate 300 0)

example : resolve zeroMemory 400 19 (responseTo [0xC0, 12]) (List.replicate 300 0) =
    some ⟨[19, 35], [chars "127.0.0.1"]⟩ := by
  decide +kernel

/-- The owner is written out. -/
theorem response_uncompressed : Response (responseTo [1, 97, 0]) [[97]] [answerA] [19] where
  fits := by decide
  labels := by decide
  questions := by decide
  answers := by decide
  question := by decide
  records := by
    have howner : NameAt (responseTo [1, 97, 0]) 19 [[97]] 3 :=
      .label (n := 1) rfl (by decide) (by decide) rfl rfl (.root rfl)
    exact .cons (.a howner rfl rfl rfl rfl rfl) .nil

/-- With the right count in memory: the type is read one byte early, and nothing is printed. -/
theorem answer_not_printed : Response (responseTo [1, 97, 0]) [[97]] [answerA] [19] ∧
    resolve zeroMemory 400 19 (responseTo [1, 97, 0]) (List.replicate 300 0) = some ⟨[19], []⟩ ∧
    ([answerA].map Record.line).length = 1 :=
  ⟨response_uncompressed, by decide +kernel, rfl⟩

end Cs324.Dns
