import Cs324.Base.CString

namespace Cs324
set_option autoImplicit true

/-- The lines of a text, each with the newline that ends it; the last one may lack it. -/
def lines : List UInt8 → List (List UInt8)
  | [] => []
  | c :: text =>
    if c = 10 then [10] :: lines text
    else
      match lines text with
      | [] => [[c]]
      | line :: rest => (c :: line) :: rest

theorem lines_append (hn : 10 ∉ part) (hne : part ≠ []) (text : List UInt8) :
    lines (part ++ text) = (part ++ (lines text).headD []) :: (lines text).tail := by
  induction part with
  | nil => exact absurd rfl hne
  | cons c part ih =>
    have hc : c ≠ 10 := fun he => hn (he ▸ List.mem_cons_self)
    rw [List.cons_append, lines, if_neg hc]
    cases part with
    | nil =>
      rw [List.nil_append]
      cases lines text <;> rfl
    | cons d part => rw [ih (fun hm => hn (List.mem_cons_of_mem _ hm)) (List.cons_ne_nil _ _)]; rfl

theorem lines_cons (hn : 10 ∉ part) (text : List UInt8) :
    lines (part ++ 10 :: text) = (part ++ [10]) :: lines text := by
  cases part with
  | nil => rfl
  | cons c part => exact lines_append hn (List.cons_ne_nil _ _) (10 :: text)

theorem lines_unended (hn : 10 ∉ text) (hne : text ≠ []) : lines text = [text] := by
  have h := lines_append hn hne []
  rw [List.append_nil] at h
  rw [h]
  exact congrArg (· :: []) (List.append_nil text)

theorem lines_eq_nil : lines text = [] ↔ text = [] := by
  cases text with
  | nil => exact iff_of_true rfl rfl
  | cons c text =>
    refine iff_of_false ?_ (List.cons_ne_nil _ _)
    rw [lines]
    split
    · exact List.cons_ne_nil _ _
    · split <;> exact List.cons_ne_nil _ _

theorem ne_nil_of_mem_lines (h : line ∈ lines text) : line ≠ [] := by
  fun_induction lines text with
  | case1 => cases h
  | case2 text ih =>
    rcases List.mem_cons.1 h with rfl | h
    · exact List.cons_ne_nil _ _
    · exact ih h
  | case3 c text hc he ih =>
    rw [List.mem_singleton.1 h]
    exact List.cons_ne_nil _ _
  | case4 c text hc first rest he ih =>
    rcases List.mem_cons.1 h with rfl | h
    · exact List.cons_ne_nil _ _
    · exact ih (he ▸ List.mem_cons_of_mem _ h)

theorem lines_flatten (text : List UInt8) : (lines text).flatten = text := by
  fun_induction lines text with
  | case1 => rfl
  | case2 text ih => rw [List.flatten_cons, ih]; rfl
  | case3 c text hc he ih =>
    rw [he] at ih
    rw [← ih]
    rfl
  | case4 c text hc first rest he ih =>
    rw [he] at ih
    rw [← ih]
    rfl

/-- What a call of `fgets` stores before the `NUL`, what it leaves of the stream, and whether it
has met the end of it. It returns `NULL` when it stores nothing. -/
structure Fgets where
  line : List UInt8
  rest : List UInt8
  eof : Bool
  deriving DecidableEq

/-- Read at most `n` bytes, up to a newline. -/
def readLine : Nat → List UInt8 → Fgets
  | 0, stream => ⟨[], stream, false⟩
  | _ + 1, [] => ⟨[], [], true⟩
  | n + 1, c :: stream =>
    if c = 10 then ⟨[10], stream, false⟩
    else
      let read := readLine n stream
      ⟨c :: read.line, read.rest, read.eof⟩

/-- `fgets` with a buffer of `size` bytes. -/
def fgets (size : Nat) (stream : List UInt8) : Fgets := readLine (size - 1) stream

/-- A call ends at a newline, at the end of the stream, or when the buffer is full. -/
theorem readLine_cases (n : Nat) (stream : List UInt8) :
    (∃ part rest, 10 ∉ part ∧ part.length < n ∧ stream = part ++ 10 :: rest ∧
      readLine n stream = ⟨part ++ [10], rest, false⟩) ∨
    (10 ∉ stream ∧ stream.length < n ∧ readLine n stream = ⟨stream, [], true⟩) ∨
    (∃ part rest, 10 ∉ part ∧ part.length = n ∧ stream = part ++ rest ∧
      readLine n stream = ⟨part, rest, false⟩) := by
  fun_induction readLine n stream with
  | case1 stream => exact .inr (.inr ⟨[], stream, List.not_mem_nil, rfl, rfl, rfl⟩)
  | case2 n => exact .inr (.inl ⟨List.not_mem_nil, Nat.succ_pos n, rfl⟩)
  | case3 n stream =>
    exact .inl ⟨[], stream, List.not_mem_nil, Nat.succ_pos n, rfl, rfl⟩
  | case4 n c stream hc read ih =>
    have hcons {part : List UInt8} (hn : 10 ∉ part) : 10 ∉ c :: part := by
      rw [List.mem_cons]
      rintro (he | hm)
      · exact hc he.symm
      · exact hn hm
    rcases ih with ⟨part, rest, hn, hlt, rfl, he⟩ | ⟨hn, hlt, he⟩ | ⟨part, rest, hn, hlen, rfl, he⟩
    · refine .inl ⟨c :: part, rest, hcons hn, Nat.succ_lt_succ hlt, rfl, ?_⟩
      dsimp only [read]
      rw [he]
      rfl
    · refine .inr (.inl ⟨hcons hn, Nat.succ_lt_succ hlt, ?_⟩)
      dsimp only [read]
      rw [he]
    · refine .inr (.inr ⟨c :: part, rest, hcons hn, congrArg (· + 1) hlen, rfl, ?_⟩)
      dsimp only [read]
      rw [he]

theorem readLine_append (n : Nat) (stream : List UInt8) :
    (readLine n stream).line ++ (readLine n stream).rest = stream := by
  fun_induction readLine n stream with
  | case1 | case2 | case3 => rfl
  | case4 n c stream hc read ih => exact congrArg (c :: ·) ih

/-- As long as the stream does not end, each call takes something from it. -/
theorem fgets_shorter (hs : 1 < size) (h : (fgets size stream).eof = false ∨
    (fgets size stream).line ≠ []) : (fgets size stream).rest.length < stream.length := by
  have hlength := congrArg List.length (readLine_append (size - 1) stream)
  rw [List.length_append] at hlength
  have hline : (fgets size stream).line ≠ [] := by
    rcases h with h | h
    · unfold fgets at h ⊢
      rcases readLine_cases (size - 1) stream with ⟨_, _, _, _, _, he⟩ | ⟨_, _, he⟩ |
        ⟨part, _, _, hlen, _, he⟩
      · rw [he]
        exact List.append_ne_nil_of_right_ne_nil _ (List.cons_ne_nil _ _)
      · rw [he] at h
        cases h
      · rw [he]
        refine List.ne_nil_of_length_pos (?_ : 0 < part.length)
        omega
    · exact h
  have hpos := List.length_pos_iff.2 hline
  rw [fgets] at hpos ⊢
  omega

end Cs324
