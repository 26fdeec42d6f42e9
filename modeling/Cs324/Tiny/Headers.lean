import Cs324.Csapp.Echo

namespace Cs324.Tiny
set_option autoImplicit true
open Csapp

/-- The pieces in which calls that read at most `n` bytes up to a newline get a text. -/
def pieces (n : Nat) (text : List UInt8) : List (List UInt8) :=
  match _h : (readLine n text).line with
  | [] => []
  | c :: line => (c :: line) :: pieces n (readLine n text).rest
termination_by text.length
decreasing_by
  have hlength := congrArg List.length (readLine_append n text)
  rw [List.length_append, _h, List.length_cons] at hlength
  omega

theorem pieces_cons (h : (readLine n text).line ≠ []) :
    pieces n text = (readLine n text).line :: pieces n (readLine n text).rest := by
  rw [pieces]
  split
  next hnil => exact absurd hnil h
  next hcons => rw [hcons]

theorem pieces_nil (h : (readLine n text).line = []) : pieces n text = [] := by
  rw [pieces]
  split
  next => rfl
  next hcons => rw [h] at hcons; cases hcons

def crlf : List UInt8 := [13, 10]

/-- A call of `Rio_readlineb` into an array, unless it ends the process. -/
def readHeader (rp : Rio) (buf : List UInt8) : Option (Rio × List UInt8) :=
  let (n, bytes, rp) := rioReadlineb rp MAXLINE
  if n < 0 then none else some (rp, bytes ++ buf.drop bytes.length)

/-- `read_requesthdrs`, unless it takes more passes than this: the reader behind the headers, or
the end of the process. -/
def readRequesthdrs : Nat → Rio → List UInt8 → Option (Option Rio)
  | 0, _, _ => none
  | passes + 1, rp, buf =>
    match readHeader rp buf with
    | none => some none
    | some (rp, buf) =>
      if cstring buf = crlf then some (some rp) else readRequesthdrs passes rp buf

theorem readHeader_cases (hv : Rio.Valid rp) (buf : List UInt8) :
    (readHeader rp buf = none ∧ rp.source.fails = true) ∨
    (∃ rp', readHeader rp buf = some (rp', buf) ∧ rp'.Valid ∧ rp.source = ⟨[], false⟩ ∧
      rp'.source = ⟨[], false⟩) ∨
    (∃ rp' text behind, readHeader rp buf = some (rp', text ++ 0 :: behind) ∧ rp'.Valid ∧
      text ≠ [] ∧ Source.line (MAXLINE - 1) rp.source = some (text, rp'.source)) := by
  have hdelivers := rioReadlineb_delivers hv (show 1 ≤ MAXLINE by decide) (by decide)
  rw [readHeader]
  generalize rioReadlineb rp MAXLINE = call at hdelivers ⊢
  cases hline : Source.line (MAXLINE - 1) rp.source with
  | none =>
    rw [hline] at hdelivers
    change call.1 = -1 at hdelivers
    exact .inl ⟨by simp [hdelivers], Source.line_none hline⟩
  | some given =>
    obtain ⟨text, rest⟩ := given
    obtain ⟨n, bytes, rp'⟩ := call
    rw [hline] at hdelivers
    obtain ⟨rfl, rfl, hv', rfl⟩ := hdelivers
    dsimp only
    rw [if_neg (by omega)]
    rcases eq_or_ne text [] with rfl | hne
    · have hend := Source.line_nil hline
      have hrest := Source.line_eq hline
      rw [Source.push_nil] at hrest
      exact .inr (.inl ⟨rp', rfl, hv', hend, hrest ▸ hend⟩)
    · refine .inr (.inr ⟨rp', text, buf.drop (text ++ [0]).length, ?_, hv', hne, rfl⟩)
      rw [stored, if_neg fun h => hne h.1, List.append_assoc, List.singleton_append]

/-- The text that is compared with an empty line is the whole line. -/
theorem cstring_eq_crlf (hn : 10 ∉ text.dropLast) (behind : List UInt8) :
    cstring (text ++ 0 :: behind) = crlf ↔ text = crlf := by
  rw [cstring_terminate]
  constructor
  · intro h
    obtain ⟨rest, hrest⟩ : crlf <+: text := h ▸ List.takeWhile_prefix _
    cases rest with
    | nil => rw [← hrest, List.append_nil]
    | cons c rest =>
      rw [← hrest, List.dropLast_append_of_ne_nil (List.cons_ne_nil _ _)] at hn
      exact absurd (List.mem_append_left _ (by decide)) hn
  · rintro rfl
    rfl

theorem pieces_of_line (hne : text ≠ []) (h : Source.line (MAXLINE - 1) s = some (text, rest)) :
    pieces (MAXLINE - 1) s.bytes = text :: pieces (MAXLINE - 1) rest.bytes := by
  rw [Source.line] at h
  split at h
  · cases h
  · cases h
    exact pieces_cons hne

/-- At the end of the input the array stays as it is, and so does the loop. -/
theorem readRequesthdrs_atEnd (passes : Nat) (hv : Rio.Valid rp) (hs : rp.source = ⟨[], false⟩)
    (hbuf : cstring buf ≠ crlf) : readRequesthdrs passes rp buf = none := by
  induction passes generalizing rp with
  | zero => rfl
  | succ passes ih =>
    rw [readRequesthdrs]
    rcases readHeader_cases hv buf with ⟨-, hfails⟩ | ⟨rp', he, hv', -, hs'⟩ |
      ⟨rp', text, behind, -, -, hne, hline⟩
    · rw [hs] at hfails
      cases hfails
    · rw [he]
      exact (if_neg hbuf).trans (ih hv' hs')
    · rw [hs] at hline
      exact absurd (congrArg Prod.fst (Option.some.inj hline)).symm hne

theorem readRequesthdrs_ends (hv : Rio.Valid rp) (h : rp.source.fails = true ∨
    crlf ∈ pieces (MAXLINE - 1) rp.source.bytes ∨ (rp.source.bytes = [] ∧ cstring buf = crlf)) :
    ∃ passes result, readRequesthdrs passes rp buf = some result := by
  induction hlen : rp.source.bytes.length using Nat.strong_induction_on generalizing rp buf with
  | _ length ih =>
    subst hlen
    rcases readHeader_cases hv buf with ⟨he, -⟩ | ⟨rp', he, hv', hs, hs'⟩ |
      ⟨rp', text, behind, he, hv', hne, hline⟩
    · exact ⟨1, none, by rw [readRequesthdrs, he]⟩
    · have hbuf : cstring buf = crlf := by
        rw [hs] at h
        rcases h with h | h | h
        · cases h
        · rw [pieces_nil rfl] at h
          cases h
        · exact h.2
      refine ⟨1, some rp', ?_⟩
      rw [readRequesthdrs, he]
      exact if_pos hbuf
    · by_cases hblank : cstring (text ++ 0 :: behind) = crlf
      · refine ⟨1, some rp', ?_⟩
        rw [readRequesthdrs, he]
        exact if_pos hblank
      · have hpush := Source.line_eq hline
        have hshorter : rp'.source.bytes.length < rp.source.bytes.length := by
          rw [hpush]
          simpa [Source.push] using List.length_pos_iff.2 hne
        have hnot :=
          (not_congr (cstring_eq_crlf (Source.line_newline_last hline).2 behind)).1 hblank
        rw [pieces_of_line hne hline, List.mem_cons, hpush] at h
        obtain ⟨passes, result, hrest⟩ := @ih _ hshorter rp' (text ++ 0 :: behind) hv' (by
          rcases h with h | (h | h) | h
          · exact .inl h
          · exact absurd h.symm hnot
          · exact .inr (.inl h)
          · exact absurd (List.append_eq_nil_iff.1 h.1).1 hne) rfl
        refine ⟨passes + 1, result, ?_⟩
        rw [readRequesthdrs, he]
        exact (if_neg hblank).trans hrest

theorem ends_of_readRequesthdrs (hv : Rio.Valid rp)
    (h : readRequesthdrs passes rp buf = some result) : rp.source.fails = true ∨
    crlf ∈ pieces (MAXLINE - 1) rp.source.bytes ∨ (rp.source.bytes = [] ∧ cstring buf = crlf) := by
  induction passes generalizing rp buf with
  | zero => cases h
  | succ passes ih =>
    rcases readHeader_cases hv buf with ⟨-, hfails⟩ | ⟨rp', he, hv', hs, hs'⟩ |
      ⟨rp', text, behind, he, hv', hne, hline⟩
    · exact .inl hfails
    · by_cases hbuf : cstring buf = crlf
      · exact .inr (.inr ⟨congrArg Source.bytes hs, hbuf⟩)
      · rw [readRequesthdrs_atEnd (passes + 1) hv hs hbuf] at h
        cases h
    · rw [pieces_of_line hne hline, List.mem_cons]
      by_cases htext : text = crlf
      · exact .inr (.inl (.inl htext.symm))
      · have hblank := (not_congr
          (cstring_eq_crlf (Source.line_newline_last hline).2 behind)).2 htext
        rw [readRequesthdrs, he] at h
        rcases ih hv' ((if_neg hblank).symm.trans h) with hfails | hlater | ⟨-, hbuf⟩
        · left
          rw [Source.line_eq hline]
          exact hfails
        · exact .inr (.inl (.inr hlater))
        · exact absurd hbuf hblank

/-- Only an error ends the process. -/
theorem fails_of_readRequesthdrs (hv : Rio.Valid rp)
    (h : readRequesthdrs passes rp buf = some none) : rp.source.fails = true := by
  induction passes generalizing rp buf with
  | zero => cases h
  | succ passes ih =>
    rw [readRequesthdrs] at h
    rcases readHeader_cases hv buf with ⟨-, hfails⟩ | ⟨rp', he, hv', hs, hs'⟩ |
      ⟨rp', text, behind, he, hv', hne, hline⟩
    · exact hfails
    · rw [he] at h
      dsimp only at h
      split at h
      · cases h
      · have hfails := ih hv' h
        rw [hs'] at hfails
        cases hfails
    · rw [he] at h
      dsimp only at h
      split at h
      · cases h
      · rw [Source.line_eq hline]
        exact ih hv' h

/-- `read_requesthdrs` goes on until an empty line: where the client ends its side of the
connection without one, it never returns, unless the array is one to begin with. -/
theorem read_requesthdrs_ends_iff (rp : Rio) (buf : List UInt8) (hv : rp.Valid) :
    (∃ passes result, readRequesthdrs passes rp buf = some result) ↔
      rp.source.fails = true ∨ crlf ∈ pieces (MAXLINE - 1) rp.source.bytes ∨
        (rp.source.bytes = [] ∧ cstring buf = crlf) := by
  constructor
  · rintro ⟨passes, result, h⟩
    exact ends_of_readRequesthdrs hv h
  · exact readRequesthdrs_ends hv

theorem unended_headers_spin : ¬∃ passes result, readRequesthdrs passes
    (rioReadinitb [.bytes 97 [58, 98], .bytes 10 []] (List.replicate RIO_BUFSIZE 0))
    (List.replicate MAXLINE 0) = some result := by
  rw [read_requesthdrs_ends_iff _ _ (rioReadinitb_valid _ List.length_replicate),
    rioReadinitb_source]
  change ¬(false = true ∨ crlf ∈ pieces 8191 [97, 58, 98, 10] ∨ [97, 58, 98, 10] = [] ∧ _)
  rw [pieces_cons (by decide), pieces_nil (by decide)]
  decide

end Cs324.Tiny
