import Cs324.Base.CLib
import Cs324.Base.Stdio
import Mathlib.Data.List.Infix

namespace Cs324.Catmatch
set_option autoImplicit true

/-- The size of the array `str`. -/
def strSize : Nat := 1024

/-- What the loop prints for the string in `str`. -/
def marked (catmatchPattern : Option (List UInt8)) (str : List UInt8) : List UInt8 :=
  let marker : Int := match catmatchPattern with
    | some pattern => if (strstr str pattern).isSome then 1 else 0
    | none => 0
  decimal marker ++ chars " " ++ str

/-- The loop over the file. -/
def markLoop (catmatchPattern : Option (List UInt8)) (file : List UInt8) : List UInt8 :=
  let read := fgets strSize file
  if _h : read.line = [] then []
  else marked catmatchPattern (cstring read.line) ++ markLoop catmatchPattern read.rest
termination_by file.length
decreasing_by exact fgets_shorter (by decide) (.inr _h)

structure Exit where
  status : Int
  stdout : List UInt8
  stderr : List UInt8

/-- `main`. `fopen` gives the bytes of a file, or the text of the error. -/
def main (argv : List (List UInt8)) (pid : Int)
    (fopen : List UInt8 → Except (List UInt8) (List UInt8))
    (catmatchPattern : Option (List UInt8)) : Exit :=
  match argv with
  | _ :: name :: _ =>
    let process := chars "Process ID: " ++ decimal pid ++ chars "\n\n"
    match fopen name with
    | .ok file => ⟨0, markLoop catmatchPattern file ++ chars "\n", process⟩
    | .error text => ⟨1, [], process ++ chars "Error opening file: " ++ text ++ chars "\n"⟩
  | _ => ⟨1, chars "Make sure to specify a filename.\n", []⟩

/-- A line behind the mark that says whether the pattern occurs in it. -/
def markedLine (pattern line : List UInt8) : List UInt8 :=
  chars (if pattern <:+: line then "1 " else "0 ") ++ line

def markedLines (pattern file : List UInt8) : List UInt8 :=
  (lines file).flatMap (markedLine pattern)

/-- Each line with its newline fits `str`. -/
def LinesFit (file : List UInt8) : Prop := ∀ line ∈ lines file, line.length < strSize

theorem marked_eq (pattern line : List UInt8) :
    marked (some pattern) line = markedLine pattern line := by
  unfold marked markedLine
  by_cases h : pattern <:+: line
  · rw [if_pos h]
    dsimp only
    rw [if_pos (strstr_isSome.2 h)]
    rfl
  · rw [if_neg h]
    dsimp only
    rw [if_neg fun hs => h (strstr_isSome.1 hs)]
    rfl

theorem markedLine_length (pattern line : List UInt8) :
    (markedLine pattern line).length = line.length + 2 := by
  unfold markedLine
  rw [List.length_append, Nat.add_comm]
  split <;> rfl

theorem markLoop_nil (catmatchPattern : Option (List UInt8)) :
    markLoop catmatchPattern [] = [] := by
  rw [markLoop]
  rfl

/-- One turn of the loop, for a string that `fgets` has read. -/
theorem markLoop_turn (he : fgets strSize file = ⟨line, rest, eof⟩) (hne : line ≠ [])
    (h0 : 0 ∉ line) :
    markLoop (some pattern) file = markedLine pattern line ++ markLoop (some pattern) rest := by
  rw [markLoop]
  simp only [he, hne, ↓reduceDIte, cstring_eq_self h0, marked_eq]

theorem markedLines_cons (h : lines file = line :: ls) :
    markedLines pattern file = markedLine pattern line ++ ls.flatMap (markedLine pattern) := by
  rw [markedLines, h, List.flatMap_cons]

/-- The loop prints the marked lines exactly when the lines fit, and never less than them. -/
structure Agrees (pattern file : List UInt8) : Prop where
  eq_iff : markLoop (some pattern) file = markedLines pattern file ↔ LinesFit file
  le : (markedLines pattern file).length ≤ (markLoop (some pattern) file).length

theorem linesFit_nil : LinesFit [] := fun _ hm => by cases hm

theorem agrees_nil (pattern : List UInt8) : Agrees pattern [] where
  eq_iff := iff_of_true (markLoop_nil _) linesFit_nil
  le := by rw [markLoop_nil]; exact Nat.le_refl _

/-- A line that `fgets` reads in one call. -/
theorem Agrees.line (h : Agrees pattern rest) (hnl : 10 ∉ part) (hlt : part.length < strSize - 1)
    (h0 : 0 ∉ part)
    (he : readLine (strSize - 1) (part ++ 10 :: rest) = ⟨part ++ [10], rest, false⟩) :
    Agrees pattern (part ++ 10 :: rest) := by
  have hline : lines (part ++ 10 :: rest) = (part ++ [10]) :: lines rest := lines_cons hnl rest
  have hturn : markLoop (some pattern) (part ++ 10 :: rest) =
      markedLine pattern (part ++ [10]) ++ markLoop (some pattern) rest :=
    markLoop_turn he (List.append_ne_nil_of_right_ne_nil _ (List.cons_ne_nil _ _))
      (by simpa using h0)
  have hfit : LinesFit (part ++ 10 :: rest) ↔ LinesFit rest := by
    rw [LinesFit, hline, List.forall_mem_cons, List.length_append]
    exact and_iff_right (Nat.lt_sub_iff_add_lt.1 hlt)
  constructor
  · rw [hturn, markedLines_cons hline, hfit, List.append_right_inj]
    exact h.eq_iff
  · rw [hturn, markedLines_cons hline, List.length_append, List.length_append]
    exact Nat.add_le_add_left h.le _

/-- The last line, when it has no newline. -/
theorem agrees_last (pattern : List UInt8) (hnl : 10 ∉ file) (hlt : file.length < strSize)
    (h0 : 0 ∉ file) (he : readLine (strSize - 1) file = ⟨file, [], eof⟩) :
    Agrees pattern file := by
  by_cases hne : file = []
  · rw [hne]
    exact agrees_nil pattern
  · have hline := lines_unended hnl hne
    have hprinted : markLoop (some pattern) file = markedLines pattern file := by
      rw [markLoop_turn he hne h0, markedLines_cons hline, markLoop_nil]
      rfl
    refine ⟨iff_of_true hprinted fun line hm => ?_, hprinted ▸ Nat.le_refl _⟩
    rw [hline, List.mem_singleton] at hm
    rw [hm]
    exact hlt

/-- A line that goes on behind what fills `str`: its rest is marked as if it were a line. -/
theorem Agrees.full (h : Agrees pattern rest) (hnl : 10 ∉ part) (hlen : part.length = strSize - 1)
    (h0 : 0 ∉ part) (hrest : rest ≠ [])
    (he : readLine (strSize - 1) (part ++ rest) = ⟨part, rest, false⟩) :
    Agrees pattern (part ++ rest) := by
  have hne : part ≠ [] := List.ne_nil_of_length_pos (by rw [hlen]; decide)
  obtain ⟨line, ls, hl⟩ := List.exists_cons_of_ne_nil fun hl => hrest (lines_eq_nil.1 hl)
  have hline : lines (part ++ rest) = (part ++ line) :: ls := by
    rw [lines_append hnl hne, hl, List.headD_cons, List.tail_cons]
  have hpos := List.length_pos_iff.2 (ne_nil_of_mem_lines (hl ▸ List.mem_cons_self))
  have hlt : (markedLines pattern (part ++ rest)).length <
      (markLoop (some pattern) (part ++ rest)).length := by
    have hle := h.le
    rw [markedLines_cons hl, List.length_append, markedLine_length] at hle
    rw [markLoop_turn he hne h0, markedLines_cons hline, List.length_append, List.length_append,
      markedLine_length, markedLine_length, List.length_append]
    omega
  refine ⟨iff_of_false (fun heq => absurd (congrArg List.length heq) (Nat.ne_of_gt hlt)) ?_,
    Nat.le_of_lt hlt⟩
  intro hfit
  have hlong := hfit (part ++ line) (hline ▸ List.mem_cons_self)
  rw [List.length_append, hlen] at hlong
  unfold strSize at hlong
  omega

theorem agrees (pattern : List UInt8) (h0 : 0 ∉ file) : Agrees pattern file := by
  induction hn : file.length using Nat.strong_induction_on generalizing file with
  | _ n ih =>
    rcases readLine_cases (strSize - 1) file with ⟨part, rest, hnl, hlt, rfl, he⟩ |
      ⟨hnl, hlt, he⟩ | ⟨part, rest, hnl, hlen, rfl, he⟩
    · rw [List.mem_append, List.mem_cons, not_or, not_or] at h0
      rw [List.length_append, List.length_cons] at hn
      exact (ih rest.length (by omega) h0.2.2 rfl).line hnl hlt h0.1 he
    · exact agrees_last pattern hnl (hlt.trans_le (Nat.sub_le _ _)) h0 he
    · rw [List.mem_append, not_or] at h0
      rw [List.length_append, hlen] at hn
      by_cases hrest : rest = []
      · subst hrest
        rw [List.append_nil] at he ⊢
        exact agrees_last pattern hnl (by rw [hlen]; decide) h0.1 he
      · unfold strSize at hn
        exact (ih rest.length (by omega) h0.2 rfl).full hnl hlen h0.1 hrest he

/-- Before its last newline `catmatch` prints the marked lines of the file exactly when every line
fits `str`. -/
theorem catmatch_marks_lines_iff (program : List UInt8) (more : List (List UInt8)) (pid : Int)
    (pattern : List UInt8) (ho : fopen name = .ok file) (h0 : 0 ∉ file) :
    (main (program :: name :: more) pid fopen (some pattern)).stdout =
      markedLines pattern file ++ chars "\n" ↔ LinesFit file := by
  rw [← (agrees pattern h0).eq_iff, main, ho]
  exact List.append_left_inj _

instance (file : List UInt8) : Decidable (LinesFit file) :=
  inferInstanceAs (Decidable (∀ line ∈ lines file, line.length < strSize))

def twoLines : List UInt8 := chars "Lorem ipsum\ntempor incididunt"

/-- A directory in which every name is that of one file. -/
def onlyFile (file : List UInt8) : List UInt8 → Except (List UInt8) (List UInt8) :=
  fun _ => .ok file

theorem catmatch_marks_two_lines :
    (main [chars "./catmatch", chars "lorem.txt"] 1234 (onlyFile twoLines)
      (some (chars "in"))).stdout = chars "0 Lorem ipsum\n1 tempor incididunt\n" := by
  have hopen : onlyFile twoLines (chars "lorem.txt") = .ok twoLines := rfl
  rw [(catmatch_marks_lines_iff (chars "./catmatch") [] 1234 (chars "in") hopen (by decide)).2
    (by decide)]
  decide +kernel

/-- A line of 1024 bytes with the newline, in which the pattern comes last. -/
def longLine : List UInt8 := List.replicate 1018 120 ++ chars "linux\n"

/-- The newline of the line does not fit `str`, so it is marked as a line of its own. -/
theorem catmatch_marks_newline :
    (main [chars "./catmatch", chars "long.txt"] 1234 (onlyFile longLine)
      (some (chars "linux"))).stdout ≠ markedLines (chars "linux") longLine ++ chars "\n" := by
  have hlong : ¬LinesFit longLine := by decide +kernel
  have h0 : 0 ∉ longLine := by decide +kernel
  intro h
  rw [main] at h
  exact hlong ((agrees (chars "linux") h0).eq_iff.1 (List.append_cancel_right h))

end Cs324.Catmatch
