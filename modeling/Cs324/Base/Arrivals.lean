import Cs324.Base.Stdio

namespace Cs324
set_option autoImplicit true

/-- What comes in on a descriptor: bytes that a call of `read` finds together, a signal that
interrupts the call, or another error. Behind the last arrival is the end of the stream. -/
inductive Arrival
  | bytes (first : UInt8) (more : List UInt8)
  | interrupted
  | failed
  deriving DecidableEq

/-- What is left when a call takes at most `count` of the bytes that it finds. -/
def leave (count : Nat) (found : List UInt8) (arrivals : List Arrival) : List Arrival :=
  match found.drop count with
  | [] => arrivals
  | first :: more => .bytes first more :: arrivals

/-- What a reader that is not disturbed by signals can get: bytes, and behind them an error or the
end of the stream. -/
structure Source where
  bytes : List UInt8
  fails : Bool
  deriving DecidableEq

def Source.push (found : List UInt8) (s : Source) : Source := ⟨found ++ s.bytes, s.fails⟩

def sourceOf : List Arrival → Source
  | [] => ⟨[], false⟩
  | .bytes first more :: arrivals => (sourceOf arrivals).push (first :: more)
  | .interrupted :: arrivals => sourceOf arrivals
  | .failed :: _ => ⟨[], true⟩

theorem Source.push_push (p q : List UInt8) (s : Source) :
    (s.push q).push p = s.push (p ++ q) := by
  simp only [Source.push, List.append_assoc]

@[simp] theorem Source.push_nil (s : Source) : s.push [] = s := rfl

/-- However a call cuts the bytes it finds, the rest stays in front of what comes later. -/
theorem sourceOf_leave (count : Nat) (found : List UInt8) (arrivals : List Arrival) :
    sourceOf (leave count found arrivals) = (sourceOf arrivals).push (found.drop count) := by
  unfold leave
  split
  · rename_i he
    rw [he, Source.push_nil]
  · rename_i first more he
    rw [he, sourceOf]

theorem sourceOf_bytes (count : Nat) (first : UInt8) (more : List UInt8) (arrivals : List Arrival) :
    sourceOf (.bytes first more :: arrivals) =
      (sourceOf (leave count (first :: more) arrivals)).push ((first :: more).take count) := by
  rw [sourceOf_leave, Source.push_push, List.take_append_drop, sourceOf]

/-- Reading at most `n` bytes up to a newline from a source: an error that comes first is reported
instead of the bytes before it. -/
def Source.line (n : Nat) (s : Source) : Option (List UInt8 × Source) :=
  let read := readLine n s.bytes
  if read.eof && s.fails then none else some (read.line, ⟨read.rest, s.fails⟩)

/-- Reading `n` bytes, or fewer at the end of the stream. -/
def Source.block (n : Nat) (s : Source) : Option (List UInt8 × Source) :=
  if s.bytes.length < n && s.fails then none else some (s.bytes.take n, ⟨s.bytes.drop n, s.fails⟩)

section
variable {s rest : Source}

theorem Source.line_zero (s : Source) : Source.line 0 s = some ([], s) := by
  simp [Source.line, readLine]

theorem Source.line_newline (n : Nat) (s : Source) :
    Source.line (n + 1) (s.push [10]) = some ([10], s) := by
  simp [Source.line, Source.push, readLine]

theorem Source.line_push (hc : c ≠ 10) (n : Nat) (s : Source) :
    Source.line (n + 1) (s.push [c]) =
      (Source.line n s).map fun (text, rest) => (c :: text, rest) := by
  simp only [Source.line, Source.push, List.singleton_append, readLine, if_neg hc]
  split <;> rfl

theorem Source.line_end (n : Nat) (fails : Bool) :
    Source.line (n + 1) ⟨[], fails⟩ = if fails then none else some ([], ⟨[], fails⟩) := by
  cases fails <;> rfl

theorem Source.block_zero (s : Source) : Source.block 0 s = some ([], s) := by
  simp [Source.block]

theorem Source.block_push (h : chunk.length ≤ n) (s : Source) :
    Source.block n (s.push chunk) =
      (Source.block (n - chunk.length) s).map fun (text, rest) => (chunk ++ text, rest) := by
  have hlt : chunk.length + s.bytes.length < n ↔ s.bytes.length < n - chunk.length := by omega
  simp only [Source.block, Source.push, List.length_append, hlt, List.take_append,
    List.drop_append, List.take_of_length_le h, List.drop_eq_nil_of_le h, List.nil_append]
  split <;> rfl

theorem Source.block_end (hn : 0 < n) (fails : Bool) :
    Source.block n ⟨[], fails⟩ = if fails then none else some ([], ⟨[], fails⟩) := by
  cases fails <;> simp [Source.block, hn]

theorem Source.line_eq (h : Source.line n s = some (text, rest)) : s = rest.push text := by
  simp only [Source.line] at h
  split at h
  · cases h
  · cases h
    rw [Source.push, readLine_append]

theorem Source.line_none (h : Source.line n s = none) : s.fails = true := by
  simp only [Source.line] at h
  split at h
  · rename_i hfails
    rw [Bool.and_eq_true] at hfails
    exact hfails.2
  · cases h

/-- A line that fits is read at once. -/
theorem Source.line_of_newline (hn : 10 ∉ part) (hlt : part.length < n) (s : Source) :
    Source.line n (s.push (part ++ [10])) = some (part ++ [10], s) := by
  induction part generalizing n with
  | nil =>
    obtain ⟨m, rfl⟩ := Nat.exists_eq_add_of_le' hlt
    exact Source.line_newline m s
  | cons c part ih =>
    cases n with
    | zero => cases hlt
    | succ n =>
      have hc : c ≠ 10 := fun he => hn (he ▸ List.mem_cons_self)
      have hrest := ih (fun hm => hn (List.mem_cons_of_mem _ hm)) (Nat.lt_of_succ_lt_succ hlt)
      have hpush : s.push (c :: part ++ [10]) = (s.push (part ++ [10])).push [c] := by
        rw [Source.push_push]
        rfl
      rw [hpush, Source.line_push hc, hrest]
      rfl

/-- Only at the end of a stream there is nothing to read. -/
theorem Source.line_nil (h : Source.line (n + 1) s = some ([], rest)) : s = ⟨[], false⟩ := by
  obtain ⟨bytes, fails⟩ := s
  cases bytes with
  | nil =>
    rw [Source.line_end] at h
    cases fails with
    | false => rfl
    | true => cases h
  | cons c bytes =>
    change Source.line (n + 1) (Source.push [c] ⟨bytes, fails⟩) = _ at h
    by_cases hc : c = 10
    · rw [hc, Source.line_newline] at h
      cases h
    · rw [Source.line_push hc, Option.map_eq_some_iff] at h
      obtain ⟨given, -, he⟩ := h
      cases he

/-- A newline can only be the last byte of what is read. -/
theorem Source.line_newline_last (h : Source.line n s = some (text, rest)) :
    text.length ≤ n ∧ 10 ∉ text.dropLast := by
  simp only [Source.line] at h
  split at h
  · cases h
  · cases h
    rcases readLine_cases n s.bytes with ⟨part, rest, hn, hlt, -, he⟩ | ⟨hn, hlt, he⟩ |
      ⟨part, rest, hn, hlen, -, he⟩
    · rw [he]
      refine ⟨?_, ?_⟩
      · rw [List.length_append, List.length_singleton]
        omega
      · rwa [List.dropLast_concat]
    · rw [he]
      exact ⟨Nat.le_of_lt hlt, fun h => hn (List.dropLast_subset _ h)⟩
    · rw [he]
      exact ⟨Nat.le_of_eq hlen, fun h => hn (List.dropLast_subset _ h)⟩

/-- What is read without a newline at its end fills the room, or is the last of the stream. -/
theorem Source.line_ends (h : Source.line n s = some (text, rest)) :
    10 ∈ text ∨ text.length = n ∨ rest.bytes = [] := by
  simp only [Source.line] at h
  split at h
  · cases h
  · cases h
    rcases readLine_cases n s.bytes with ⟨part, rest, -, -, -, he⟩ | ⟨-, -, he⟩ |
      ⟨part, rest, -, hlen, -, he⟩
    · rw [he]
      exact .inl (List.mem_append_right _ (List.mem_singleton_self _))
    · rw [he]
      exact .inr (.inr rfl)
    · rw [he]
      exact .inr (.inl hlen)

theorem Source.block_eq (h : Source.block n s = some (text, rest)) : s = rest.push text := by
  simp only [Source.block] at h
  split at h
  · cases h
  · cases h
    rw [Source.push, List.take_append_drop]

end

end Cs324
