import Cs324.Base.Stdio
import Cs324.Shell.Scanning

namespace Cs324.Shell
set_option autoImplicit true

/-- The command lines that `main` passes to `eval`, which returns unless the command is `quit`; a
line with too many arguments for the `argv` of `eval` counts as any other. The test for the end of
the file comes before the call, whatever `fgets` has just stored. -/
def evaluated (input : List UInt8) : List (List UInt8) :=
  let read := fgets maxLine input
  if _h : read.eof = true then []
  else
    let cmdline := cstring read.line
    cmdline :: if request cmdline = .quit then [] else evaluated read.rest
termination_by input.length
decreasing_by exact fgets_shorter (by decide) (.inl (Bool.eq_false_iff.2 _h))

/-- A line without its newline. -/
def lineText (line : List UInt8) : List UInt8 := line.takeWhile (· != 10)

/-- Each line of the input ends with a newline and fits the buffer with it, and none but the last
one makes the shell exit. -/
structure WholeLines (input : List UInt8) : Prop where
  ended : ∀ line ∈ lines input, line.getLast? = some 10
  short : ∀ line ∈ lines input, line.length < maxLine
  goesOn : ∀ line ∈ (lines input).dropLast, request line ≠ .quit

/-- Each line of the input is evaluated, and scanned up to its newline. -/
def EachEvaluated (input : List UInt8) : Prop :=
  (evaluated input).map scanned = (lines input).map fun line => lineText line ++ [32]

theorem evaluated_eof (he : fgets maxLine input = ⟨line, rest, true⟩) : evaluated input = [] := by
  rw [evaluated]
  simp only [he, ↓reduceDIte]

theorem evaluated_line (he : fgets maxLine input = ⟨line, rest, false⟩) (h0 : 0 ∉ line) :
    evaluated input = line :: if request line = .quit then [] else evaluated rest := by
  rw [evaluated]
  simp only [he, Bool.false_eq_true, ↓reduceDIte, cstring_eq_self h0]

theorem scanned_line (part : List UInt8) : scanned (part ++ [10]) = part ++ [32] := by
  rw [scanned, List.dropLast_concat]

theorem lineText_line (hn : 10 ∉ part) : lineText (part ++ [10]) = part :=
  takeWhile_append_delim hn []

theorem wholeLines_nil : WholeLines [] :=
  ⟨List.forall_mem_nil _, List.forall_mem_nil _, List.forall_mem_nil _⟩

theorem wholeLines_cons (hn : 10 ∉ part) (hs : part.length + 1 < maxLine) :
    WholeLines (part ++ 10 :: rest) ↔
      WholeLines rest ∧ (request (part ++ [10]) = .quit → rest = []) := by
  have hline : lines (part ++ 10 :: rest) = (part ++ [10]) :: lines rest := lines_cons hn rest
  have hdrop (hne : rest ≠ []) : (lines (part ++ 10 :: rest)).dropLast =
      (part ++ [10]) :: (lines rest).dropLast := by
    rw [hline]
    exact List.dropLast_cons_of_ne_nil fun h => hne (lines_eq_nil.1 h)
  constructor
  · rintro ⟨hended, hshort, hgoes⟩
    rw [hline] at hended hshort
    refine ⟨⟨fun l hl => hended l (List.mem_cons_of_mem _ hl),
      fun l hl => hshort l (List.mem_cons_of_mem _ hl), fun l hl => ?_⟩, fun hq => ?_⟩
    · by_cases hne : rest = []
      · subst hne
        cases hl
      · exact hgoes l (hdrop hne ▸ List.mem_cons_of_mem _ hl)
    · by_contra hne
      exact hgoes _ (hdrop hne ▸ List.mem_cons_self) hq
  · rintro ⟨⟨hended, hshort, hgoes⟩, hquit⟩
    refine ⟨?_, ?_, ?_⟩
    · rw [hline]
      exact List.forall_mem_cons.2 ⟨List.getLast?_concat, hended⟩
    · rw [hline]
      exact List.forall_mem_cons.2 ⟨by rwa [List.length_append, List.length_singleton], hshort⟩
    · by_cases hne : rest = []
      · subst hne
        rw [hline]
        intro l hl
        cases hl
      · rw [hdrop hne]
        exact List.forall_mem_cons.2 ⟨fun hq => hne (hquit hq), hgoes⟩

theorem eachEvaluated_cons (hn : 10 ∉ part) (h0 : 0 ∉ part)
    (he : fgets maxLine (part ++ 10 :: rest) = ⟨part ++ [10], rest, false⟩) :
    EachEvaluated (part ++ 10 :: rest) ↔
      if request (part ++ [10]) = .quit then rest = [] else EachEvaluated rest := by
  have hline : lines (part ++ 10 :: rest) = (part ++ [10]) :: lines rest := lines_cons hn rest
  rw [EachEvaluated, evaluated_line he (by simpa using h0), hline, List.map_cons, List.map_cons,
    scanned_line, lineText_line hn, List.cons.injEq, and_iff_right rfl]
  split
  · rw [List.map_nil, eq_comm, List.map_eq_nil_iff, lines_eq_nil]
  · exact Iff.rfl

/-- The last line without a newline is read and never evaluated. -/
theorem eachEvaluated_unended (he : fgets maxLine input = ⟨line, [], true⟩) :
    EachEvaluated input ↔ input = [] := by
  rw [EachEvaluated, evaluated_eof he, List.map_nil, eq_comm, List.map_eq_nil_iff, lines_eq_nil]

/-- A line that fills the buffer is cut, and what is passed on of it loses its last character. -/
theorem not_eachEvaluated_full (hn : 10 ∉ part) (hlen : part.length = maxLine - 1) (h0 : 0 ∉ part)
    (he : fgets maxLine (part ++ rest) = ⟨part, rest, false⟩) : ¬EachEvaluated (part ++ rest) := by
  have hne : part ≠ [] := List.ne_nil_of_length_pos (by rw [hlen]; decide)
  intro h
  rw [EachEvaluated, evaluated_line he h0, lines_append hn hne, List.map_cons, List.map_cons,
    List.cons.injEq, scanned, lineText, List.takeWhile_append_of_pos] at h
  · have hlength := congrArg List.length h.1
    simp only [List.length_append, List.length_dropLast, hlen, List.length_singleton] at hlength
    unfold maxLine at hlength
    omega
  · intro c hc
    have : c ≠ 10 := fun he => hn (he ▸ hc)
    simpa using this

theorem wholeLines_unended (hn : 10 ∉ input) : WholeLines input ↔ input = [] := by
  refine ⟨fun h => by_contra fun hne => ?_, fun h => h ▸ wholeLines_nil⟩
  have hline := lines_unended hn hne
  exact hn (List.mem_of_getLast? (h.ended input (hline ▸ List.mem_cons_self)))

theorem not_wholeLines_full (hn : 10 ∉ part) (hlen : part.length = maxLine - 1)
    (rest : List UInt8) : ¬WholeLines (part ++ rest) := by
  have hne : part ≠ [] := List.ne_nil_of_length_pos (by rw [hlen]; decide)
  have hline := lines_append hn hne rest
  intro h
  have hshort := h.short _ (hline ▸ List.mem_cons_self)
  have hended := h.ended _ (hline ▸ List.mem_cons_self)
  rw [List.length_append, hlen] at hshort
  have hnil : (lines rest).headD [] = [] := by
    apply List.eq_nil_of_length_eq_zero
    unfold maxLine at hshort
    omega
  rw [hnil, List.append_nil] at hended
  exact hn (List.mem_of_getLast? hended)

/-- Every line of the input is evaluated as one command, of which only the newline is lost,
exactly when every line has a newline and fits the buffer and none but the last is `quit`. -/
theorem each_line_evaluated_iff (h0 : 0 ∉ input) : EachEvaluated input ↔ WholeLines input := by
  induction hn : input.length using Nat.strong_induction_on generalizing input with
  | _ n ih =>
    rcases readLine_cases (maxLine - 1) input with ⟨part, rest, hnl, hlt, rfl, he⟩ |
      ⟨hnl, hlt, he⟩ | ⟨part, rest, hnl, hlen, rfl, he⟩
    · rw [List.mem_append, List.mem_cons, not_or, not_or] at h0
      rw [List.length_append, List.length_cons] at hn
      have hrest := ih rest.length (by omega) h0.2.2 rfl
      rw [eachEvaluated_cons hnl h0.1 he, wholeLines_cons hnl (by omega), ← hrest]
      split
      next hq =>
        refine ⟨fun hr => ⟨?_, fun _ => hr⟩, fun h => h.2 hq⟩
        rw [hrest, hr]
        exact wholeLines_nil
      next hq => exact ⟨fun hr => ⟨hr, fun h => absurd h hq⟩, fun h => h.1⟩
    · rw [eachEvaluated_unended he, wholeLines_unended hnl]
    · rw [List.mem_append, not_or] at h0
      exact iff_of_false (not_eachEvaluated_full hnl hlen h0.1 he)
        (not_wholeLines_full hnl hlen rest)

instance (input : List UInt8) : Decidable (WholeLines input) :=
  decidable_of_iff ((∀ line ∈ lines input, line.getLast? = some 10) ∧
      (∀ line ∈ lines input, line.length < maxLine) ∧
      ∀ line ∈ (lines input).dropLast, request line ≠ .quit)
    ⟨fun h => ⟨h.1, h.2.1, h.2.2⟩, fun h => ⟨h.1, h.2, h.3⟩⟩

theorem three_lines_evaluated : EachEvaluated (chars "./myspin 1 &\n\nquit\n") :=
  (each_line_evaluated_iff (by decide)).2 (by decide +kernel)

/-- A line that the end of the file cuts off is not evaluated. -/
theorem last_line_lost : ¬EachEvaluated (chars "./myspin 1") := by
  have he : fgets maxLine (chars "./myspin 1") = ⟨chars "./myspin 1", [], true⟩ := by decide
  rw [eachEvaluated_unended he]
  decide

end Cs324.Shell
