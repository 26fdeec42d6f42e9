import Cs324.Base.Block
import Cs324.Base.Cursor
import Cs324.Base.Except
import Cs324.Shell.Quoting

namespace Cs324.Shell
set_option autoImplicit true

/-- An access of `parseline` outside `array` or outside `argv`. -/
inductive Fault
  | array (index : Int)
  | argv (index : Nat)
  deriving DecidableEq

/-- How many spaces come before another character, given the memory up to the end of `array`;
`none` if they reach it. -/
def skipSpaces : List UInt8 → Option Nat
  | [] => none
  | c :: buf => if c = 32 then (skipSpaces buf).map (· + 1) else some 0

/-- `strchr`: where the character is in the string, if it is there; `none` if the search reaches
the end of `array`. -/
def strchr (c : UInt8) : List UInt8 → Option (Option Nat)
  | [] => none
  | d :: buf =>
    if d = c then some (some 0)
    else if d = 0 then some none
    else (strchr c buf).map fun found => found.map (· + 1)

/-- The next argument and its delimiter, as indexes of `array`. -/
def findDelim (array : List UInt8) (buf : Nat) : Except Fault (Option (Nat × Nat)) := do
  let skipped ← orError (.array array.length) (skipSpaces (array.drop buf))
  let c ← orError (.array (buf + skipped)) array[buf + skipped]?
  if c = 39 then
    let found ← orError (.array array.length) (strchr 39 (array.drop (buf + skipped + 1)))
    pure (found.map fun n => (buf + skipped + 1, buf + skipped + 1 + n))
  else
    let found ← orError (.array array.length) (strchr 32 (array.drop (buf + skipped)))
    pure (found.map fun n => (buf + skipped, buf + skipped + n))

/-- The loop of `parseline`, with the pointers that it has stored in `argv`. Each turn moves `buf`
on, so that it is beyond the array when there have been more turns than the array has bytes. -/
def scan : Nat → List UInt8 → Nat → List Nat → Except Fault (List UInt8 × List Nat)
  | 0, _, buf, _ => .error (.array buf)
  | turns + 1, array, buf, argv => do
    match ← findDelim array buf with
    | none => pure (array, argv)
    | some (buf, delim) =>
      if argv.length < maxArgs then scan turns (array.set delim 0) (delim + 1) (argv ++ [buf])
      else throw (.argv argv.length)

/-- The end of `parseline`: the `NULL` behind the arguments, and what the last of them says. -/
def closeArgv (array : List UInt8) (argv : List Nat) :
    Except Fault (Bool × List UInt8 × List Nat) :=
  if argv.length < maxArgs then
    match argv.getLast? with
    | none => .ok (true, array, [])
    | some last =>
      (orError (.array last) array[last]?).map fun c =>
        if c = 38 then (true, array, argv.dropLast) else (false, array, argv)
  else .error (.argv argv.length)

/-- `parseline` over the memory of `array`, with its return value, what it leaves in `array` and
the pointers in `argv`. -/
def parselineIn (array cmdline : List UInt8) : Except Fault (Bool × List UInt8 × List Nat) := do
  let array ← orError (.array maxLine) (storeIn array 0 (cstring cmdline ++ [0]))
  let length := (cstring array).length
  if length = 0 then throw (.array (-1))
  else
    let (array, argv) ← scan (array.length + 1) (array.set (length - 1) 32) 0 []
    closeArgv array argv

/-- The characters that the loop of `parseline` goes through. -/
def scanned (cmdline : List UInt8) : List UInt8 := cmdline.dropLast ++ [32]

/-- How many arguments are complete at the end of a text: a bare one at the next space, a quoted
one at the next quote. The first argument is what ends the one that the text starts in. -/
def completed : Option UInt8 → List UInt8 → Nat
  | _, [] => 0
  | none, c :: text =>
    if c = 32 then completed none text
    else if c = 39 then completed (some 39) text
    else completed (some 32) text
  | some delim, c :: text =>
    if c = delim then completed none text + 1 else completed (some delim) text

/-- The line does not start with a `NUL`, and its arguments leave an entry of `argv` for the
`NULL`. -/
def LeavesRoom (line : List UInt8) : Prop :=
  cstring line ≠ [] ∧ completed none (scanned (cstring line)) < maxArgs

theorem skipSpaces_eq (s behind : List UInt8) :
    skipSpaces (s ++ 0 :: behind) = some (s.takeWhile (· == 32)).length := by
  induction s with
  | nil => rfl
  | cons c s ih =>
    rw [List.cons_append, skipSpaces, ih, List.takeWhile_cons]
    by_cases hc : c = 32
    · simp [hc]
    · simp [hc]

theorem cutAt_cases (delim : UInt8) (s : List UInt8) :
    (delim ∉ s ∧ cutAt delim s = none) ∨
      ∃ arg rest, delim ∉ arg ∧ s = arg ++ delim :: rest ∧ cutAt delim s = some (arg, rest) := by
  by_cases hm : delim ∈ s
  · obtain ⟨arg, rest, rfl, hn⟩ := List.eq_append_cons_of_mem hm
    exact .inr ⟨arg, rest, hn, rfl, cutAt_append hn rest⟩
  · exact .inl ⟨hm, if_neg hm⟩

theorem strchr_append (h0 : 0 ∉ s) (hd : delim ∉ s) (behind : List UInt8) :
    strchr delim (s ++ behind) =
      (strchr delim behind).map fun found => found.map (· + s.length) := by
  induction s with
  | nil =>
    rw [List.nil_append, List.length_nil]
    rcases strchr delim behind with _ | _ | _ <;> rfl
  | cons c s ih =>
    have hc : c ≠ delim := fun he => hd (he ▸ List.mem_cons_self)
    have hc0 : c ≠ 0 := fun he => h0 (he ▸ List.mem_cons_self)
    rw [List.cons_append, strchr, if_neg hc, if_neg hc0,
      ih (fun hm => h0 (List.mem_cons_of_mem _ hm)) fun hm => hd (List.mem_cons_of_mem _ hm)]
    rcases strchr delim behind with _ | _ | _ <;> rfl

theorem strchr_cutAt (h0 : 0 ∉ s) (delim : UInt8) (hne : delim ≠ 0) (behind : List UInt8) :
    strchr delim (s ++ 0 :: behind) = some ((cutAt delim s).map fun cut => cut.1.length) := by
  rcases cutAt_cases delim s with ⟨hd, he⟩ | ⟨arg, rest, hd, rfl, he⟩
  · rw [he, strchr_append h0 hd, strchr, if_neg hne.symm, if_pos rfl]
    rfl
  · rw [List.mem_append, not_or] at h0
    rw [he, List.append_assoc, List.cons_append, strchr_append h0.1 hd, strchr, if_pos rfl]
    exact congrArg (fun n => some (some n)) (Nat.zero_add arg.length)

theorem nextArgument_quote (h : s.dropWhile (· == 32) = 39 :: word) :
    nextArgument s = cutAt 39 word := by
  unfold nextArgument
  split
  next he =>
    rw [h] at he
    rw [(List.cons.inj he).2]
  next hne => exact absurd h (hne _)

theorem nextArgument_word (h : s.dropWhile (· == 32) = word) (hq : word.head? ≠ some 39) :
    nextArgument s = cutAt 32 word := by
  rw [nextArgument, h]
  split
  next => exact absurd rfl hq
  next => rfl

/-- The loop looks for the delimiter where `nextArgument` cuts the line, and within the string. -/
theorem findDelim_eq (hb : array.drop buf = s ++ 0 :: behind) (h0 : 0 ∉ s) :
    ∃ start word quote, buf ≤ start ∧ word.length ≤ s.length ∧ 0 ∉ word ∧
      array.drop start = word ++ 0 :: behind ∧ nextArgument s = cutAt quote word ∧
      findDelim array buf =
        .ok ((cutAt quote word).map fun cut => (start, start + cut.1.length)) := by
  obtain ⟨n, hn⟩ : ∃ n, (s.takeWhile (· == 32)).length = n := ⟨_, rfl⟩
  obtain ⟨word, hword⟩ : ∃ word, s.dropWhile (· == 32) = word := ⟨_, rfl⟩
  have hsplit := List.takeWhile_append_dropWhile (p := (· == 32)) (l := s)
  rw [hword] at hsplit
  have hlength := congrArg List.length hsplit
  rw [List.length_append] at hlength
  have hw0 : 0 ∉ word := fun hm => h0 (hsplit ▸ List.mem_append_right _ hm)
  have hskip : skipSpaces (array.drop buf) = some n := by
    rw [hb, skipSpaces_eq, hn]
  have hdrop : array.drop (buf + n) = word ++ 0 :: behind := by
    rw [← List.drop_drop, hb, ← hsplit, List.append_assoc, List.drop_left' hn]
  have hchar : array[buf + n]? = (word ++ 0 :: behind).head? := by
    rw [← hdrop, List.head?_drop]
  by_cases hq : word.head? = some 39
  · obtain ⟨word, rfl⟩ := List.head?_eq_some_iff.1 hq
    have hquoted : array.drop (buf + n + 1) = word ++ 0 :: behind := by
      rw [← List.drop_drop, hdrop]
      rfl
    have hq0 : 0 ∉ word := fun hm => hw0 (List.mem_cons_of_mem _ hm)
    rw [List.length_cons] at hlength
    refine ⟨buf + n + 1, word, 39, by omega, by omega, hq0, hquoted, nextArgument_quote hword, ?_⟩
    have hfound := strchr_cutAt hq0 39 (by decide) behind
    rw [← hquoted] at hfound
    rw [findDelim]
    refine bind_eq_ok.2 ⟨n, orError_eq_ok.2 hskip, bind_eq_ok.2 ⟨39, orError_eq_ok.2 hchar, ?_⟩⟩
    rw [if_pos rfl]
    refine bind_eq_ok.2 ⟨_, orError_eq_ok.2 hfound, ?_⟩
    rw [Option.map_map]
    rfl
  · refine ⟨buf + n, word, 32, by omega, by omega, hw0, hdrop, nextArgument_word hword hq, ?_⟩
    obtain ⟨c, hc⟩ : ∃ c, (word ++ 0 :: behind).head? = some c := by
      cases word <;> exact ⟨_, rfl⟩
    have hc39 : c ≠ 39 := by
      rintro rfl
      cases word with
      | nil => simp at hc
      | cons d word => exact hq hc
    have hfound := strchr_cutAt hw0 32 (by decide) behind
    rw [← hdrop] at hfound
    rw [findDelim]
    refine bind_eq_ok.2 ⟨n, orError_eq_ok.2 hskip,
      bind_eq_ok.2 ⟨c, orError_eq_ok.2 (hchar.trans hc), ?_⟩⟩
    rw [if_neg hc39]
    refine bind_eq_ok.2 ⟨_, orError_eq_ok.2 hfound, ?_⟩
    rw [Option.map_map]
    rfl

/-- One turn of the loop. -/
theorem findDelim_cases (hb : array.drop buf = s ++ 0 :: behind) (h0 : 0 ∉ s) :
    (nextArgument s = none ∧ findDelim array buf = .ok none) ∨
      ∃ start arg delim rest, buf ≤ start ∧ rest.length < s.length ∧ 0 ∉ arg ∧ 0 ∉ rest ∧
        array.drop start = arg ++ delim :: (rest ++ 0 :: behind) ∧
        nextArgument s = some (arg, rest) ∧
        findDelim array buf = .ok (some (start, start + arg.length)) := by
  obtain ⟨start, word, quote, hstart, hlength, hw0, hdrop, hnext, hfind⟩ := findDelim_eq hb h0
  rw [hnext, hfind]
  rcases cutAt_cases quote word with ⟨_, he⟩ | ⟨arg, rest, _, rfl, he⟩
  · rw [he]
    exact .inl ⟨rfl, rfl⟩
  · rw [List.length_append, List.length_cons] at hlength
    rw [List.mem_append, List.mem_cons, not_or, not_or] at hw0
    rw [List.append_assoc, List.cons_append] at hdrop
    rw [he]
    exact .inr ⟨start, arg, quote, rest, hstart, by omega, hw0.1, hw0.2.2, hdrop, rfl, rfl⟩

theorem completed_delim (delim : UInt8) (s : List UInt8) : completed (some delim) s =
    match cutAt delim s with
    | none => 0
    | some (_, rest) => completed none rest + 1 := by
  rcases cutAt_cases delim s with ⟨hd, he⟩ | ⟨arg, rest, hd, rfl, he⟩
  · rw [he]
    clear he
    induction s with
    | nil => rfl
    | cons c s ih =>
      have hc : c ≠ delim := fun hc => hd (hc ▸ List.mem_cons_self)
      rw [completed, if_neg hc]
      exact ih fun hm => hd (List.mem_cons_of_mem _ hm)
  · rw [he]
    clear he
    induction arg with
    | nil => exact if_pos rfl
    | cons c arg ih =>
      have hc : c ≠ delim := fun hc => hd (hc ▸ List.mem_cons_self)
      rw [List.cons_append, completed, if_neg hc]
      exact ih fun hm => hd (List.mem_cons_of_mem _ hm)

theorem completed_none (s : List UInt8) : completed none s =
    match nextArgument s with
    | none => 0
    | some (_, rest) => completed none rest + 1 := by
  induction s with
  | nil => rfl
  | cons c s ih =>
    rw [completed]
    by_cases hspace : c = 32
    · subst hspace
      rw [if_pos rfl, ih]
      rfl
    · have hdrop : (c :: s).dropWhile (· == 32) = c :: s := by simp [hspace]
      by_cases hquote : c = 39
      · subst hquote
        rw [if_neg (by decide), if_pos rfl, completed_delim, nextArgument_quote hdrop]
      · have hword : (c :: s).head? ≠ some 39 := fun he => hquote (Option.some.inj he)
        rw [if_neg hspace, if_neg hquote, nextArgument_word hdrop hword, ← completed_delim,
          completed, if_neg hspace]

theorem cutAt_shorter (h : cutAt delim word = some (arg, rest)) : rest.length < word.length := by
  rcases cutAt_cases delim word with ⟨_, he⟩ | ⟨arg', rest', _, rfl, he⟩
  · cases he.symm.trans h
  · cases he.symm.trans h
    rw [List.length_append, List.length_cons]
    omega

theorem nextArgument_shorter (h : nextArgument s = some (arg, rest)) : rest.length < s.length := by
  have hle := (List.dropWhile_suffix (· == 32) (l := s)).length_le
  unfold nextArgument at h
  split at h
  next word hw =>
    have hlt := cutAt_shorter h
    rw [hw, List.length_cons] at hle
    omega
  next => exact (cutAt_shorter h).trans_le hle

/-- The count of the arguments is the length of what `parseline` gathers. -/
theorem arguments_length (hs : s.length < turns) :
    (arguments turns s).length = completed none s := by
  induction turns generalizing s with
  | zero => omega
  | succ turns ih =>
    rw [completed_none, arguments]
    cases hn : nextArgument s with
    | none => rfl
    | some cut =>
      have hrest := nextArgument_shorter hn
      exact congrArg (· + 1) (ih (by omega))

/-- What later turns change lies behind the strings that earlier ones have cut off. -/
theorem string_kept {array array' : List UInt8}
    (hd : array.drop start = arg ++ delim :: rest)
    (hkept : array'.take (start + arg.length + 1) =
      (array.set (start + arg.length) 0).take (start + arg.length + 1)) :
    ∃ rest', array'.drop start = arg ++ 0 :: rest' := by
  have hset : (array.set (start + arg.length) 0).drop start = arg ++ 0 :: rest := by
    rw [List.drop_set, if_neg (by omega), hd, Nat.add_sub_cancel_left, set_entry]
  have htake : (array'.drop start).take (arg.length + 1) = arg ++ [0] := by
    rw [List.take_drop, ← Nat.add_assoc, hkept, List.drop_take, hset, Nat.add_assoc,
      Nat.add_sub_cancel_left, List.take_length_add_append]
    rfl
  refine ⟨(array'.drop start).drop (arg.length + 1), ?_⟩
  have hsplit := List.take_append_drop (arg.length + 1) (array'.drop start)
  rw [htake, List.append_assoc] at hsplit
  exact hsplit.symm

theorem scan_end (hf : findDelim array buf = .ok none) (turns : Nat) (argv : List Nat) :
    scan (turns + 1) array buf argv = .ok (array, argv) := by
  rw [scan, hf]
  rfl

theorem scan_turn (hf : findDelim array buf = .ok (some (start, delim))) (turns : Nat)
    (argv : List Nat) : scan (turns + 1) array buf argv =
      if argv.length < maxArgs then scan turns (array.set delim 0) (delim + 1) (argv ++ [start])
      else .error (.argv argv.length) := by
  rw [scan, hf]
  rfl

theorem drop_behind {array : List UInt8} (hd : array.drop start = arg ++ delim :: rest) :
    (array.set (start + arg.length) 0).drop (start + arg.length + 1) = rest := by
  rw [List.drop_set_of_lt (by omega), Nat.add_assoc, ← List.drop_drop, hd,
    List.drop_length_add_append]
  rfl

/-- The loop gathers the arguments of the string, if they and those before them fit `argv`. -/
theorem scan_ok {array : List UInt8} (argv : List Nat) (hb : array.drop buf = s ++ 0 :: behind)
    (h0 : 0 ∉ s) (hs : s.length < turns)
    (hfit : argv.length + (arguments turns s).length ≤ maxArgs) :
    ∃ array' pointers, scan turns array buf argv = .ok (array', argv ++ pointers) ∧
      array'.take buf = array.take buf ∧ (∀ p ∈ pointers, p < array'.length) ∧
      pointers.map (fun p => cstring (array'.drop p)) = (arguments turns s).map cstring := by
  induction turns generalizing array buf s argv with
  | zero => omega
  | succ turns ih =>
    rcases findDelim_cases hb h0 with ⟨hn, hf⟩ |
      ⟨start, arg, delim, rest, hstart, hlt, ha0, hr0, hd, hn, hf⟩
    · refine ⟨array, [], ?_, rfl, List.forall_mem_nil _, ?_⟩
      · rw [scan_end hf, List.append_nil]
      · rw [arguments, hn]
        rfl
    · have hargs : arguments (turns + 1) s = (arg ++ 0 :: rest) :: arguments turns rest := by
        rw [arguments, hn]
      rw [hargs, List.length_cons] at hfit
      obtain ⟨array', pointers, hscan, hkept, hin, hstrings⟩ := ih (argv ++ [start])
        (drop_behind hd) hr0 (by omega) (by rw [List.length_append, List.length_singleton]; omega)
      obtain ⟨rest', hstring⟩ := string_kept hd hkept
      have htake : array'.take buf = array.take buf := by
        have hcut := congrArg (List.take buf) hkept
        rw [List.take_take, List.take_take, Nat.min_eq_left (by omega),
          List.take_set_of_le (by omega)] at hcut
        exact hcut
      have hlast : start < array'.length := by
        have hlength := congrArg List.length hstring
        rw [List.length_drop, List.length_append, List.length_cons] at hlength
        omega
      refine ⟨array', start :: pointers, ?_, htake, List.forall_mem_cons.2 ⟨hlast, hin⟩, ?_⟩
      · rw [scan_turn hf, if_pos (by omega), hscan, List.append_assoc, List.singleton_append]
      · rw [hargs, List.map_cons, List.map_cons, hstrings, hstring, cstring_append ha0,
          cstring_append ha0]
        rfl

/-- Otherwise it writes behind the end of `argv`. -/
theorem scan_error {array : List UInt8} (argv : List Nat)
    (hb : array.drop buf = s ++ 0 :: behind) (h0 : 0 ∉ s) (hs : s.length < turns)
    (hargv : argv.length ≤ maxArgs)
    (hover : maxArgs < argv.length + (arguments turns s).length) :
    ∃ fault, scan turns array buf argv = .error fault := by
  induction turns generalizing array buf s argv with
  | zero => omega
  | succ turns ih =>
    rcases findDelim_cases hb h0 with ⟨hn, hf⟩ |
      ⟨start, arg, delim, rest, hstart, hlt, ha0, hr0, hd, hn, hf⟩
    · rw [arguments, hn] at hover
      exact absurd hover (Nat.not_lt.2 hargv)
    · have hargs : arguments (turns + 1) s = (arg ++ 0 :: rest) :: arguments turns rest := by
        rw [arguments, hn]
      rw [hargs, List.length_cons] at hover
      rw [scan_turn hf]
      by_cases hroom : argv.length < maxArgs
      · rw [if_pos hroom]
        exact ih (argv ++ [start]) (drop_behind hd) hr0 (by omega)
          (by rw [List.length_append, List.length_singleton]; omega)
          (by rw [List.length_append, List.length_singleton]; omega)
      · rw [if_neg hroom]
        exact ⟨_, rfl⟩

theorem arguments_turns (hs : s.length < turns) (hs' : s.length < turns') :
    arguments turns s = arguments turns' s := by
  induction turns generalizing s turns' with
  | zero => omega
  | succ turns ih =>
    obtain ⟨turns', rfl⟩ : ∃ n, turns' = n + 1 := ⟨turns' - 1, by omega⟩
    rw [arguments, arguments]
    cases hn : nextArgument s with
    | none => rfl
    | some cut =>
      have hrest := nextArgument_shorter hn
      exact congrArg (_ :: ·) (ih (by omega) (by omega))

theorem scanned_length (hne : cmdline ≠ []) : (scanned cmdline).length = cmdline.length := by
  have hpos := List.length_pos_iff.2 hne
  rw [scanned, List.length_append, List.length_dropLast, List.length_singleton]
  omega

theorem set_last (hne : s ≠ []) (rest : List UInt8) :
    (s ++ rest).set (s.length - 1) 32 = scanned s ++ rest := by
  obtain ⟨front, c, rfl⟩ : ∃ front c, s = front ++ [c] :=
    ⟨_, _, (List.dropLast_append_getLast hne).symm⟩
  rw [scanned, List.dropLast_concat, List.length_append, List.length_singleton,
    Nat.add_sub_cancel, List.append_assoc, List.append_assoc]
  exact set_entry front rest c 32

section parselineIn
variable {array line : List UInt8}

theorem storeIn_line (hm : array.length = maxLine) (hl : line.length < maxLine)
    (more : List UInt8) : storeIn array 0 (cstring (line ++ 0 :: more) ++ [0]) =
      some (cstring line ++ 0 :: array.drop ((cstring line).length + 1)) := by
  have hle := cstring_length_le line
  rw [cstring_terminate, storeIn_front (by rw [List.length_append, List.length_singleton]; omega),
    List.length_append, List.length_singleton, List.append_assoc, List.singleton_append]

theorem cstring_line (line rest : List UInt8) :
    cstring (cstring line ++ 0 :: rest) = cstring line := by
  rw [cstring_terminate, cstring_eq_self (cstring_not_mem line)]

/-- The copy of a line without a first character is written before its start. -/
theorem parselineIn_empty (hm : array.length = maxLine) (hl : line.length < maxLine)
    (he : cstring line = []) (more : List UInt8) :
    parselineIn array (line ++ 0 :: more) = .error (.array (-1)) := by
  rw [parselineIn, storeIn_line hm hl]
  change (if (cstring (cstring line ++ 0 :: _)).length = 0 then _ else _) = _
  rw [cstring_line, he]
  exact if_pos rfl

/-- Otherwise the loop goes over the copy with a space in it for the last character. -/
theorem parselineIn_line (hm : array.length = maxLine) (hl : line.length < maxLine)
    (hne : cstring line ≠ []) (more : List UInt8) : ∃ behind,
      parselineIn array (line ++ 0 :: more) =
        (scan (maxLine + 1) (scanned (cstring line) ++ 0 :: behind) 0 [] >>= fun result =>
          closeArgv result.1 result.2) := by
  have hle := cstring_length_le line
  have hpos := List.length_pos_iff.2 hne
  refine ⟨array.drop ((cstring line).length + 1), ?_⟩
  rw [parselineIn, storeIn_line hm hl]
  change (if (cstring (cstring line ++ 0 :: _)).length = 0 then _ else _) = _
  rw [cstring_line, if_neg (by omega), set_last hne]
  have hlength :
      (cstring line ++ 0 :: array.drop ((cstring line).length + 1)).length = maxLine := by
    rw [List.length_append, List.length_cons, List.length_drop]
    omega
  rw [hlength]

theorem not_mem_scanned (h0 : 0 ∉ s) : 0 ∉ scanned s := by
  rw [scanned, List.mem_append, List.mem_singleton, not_or]
  exact ⟨fun hm => h0 ((List.dropLast_prefix s).subset hm), by decide⟩

theorem closeArgv_ok (hfit : argv.length < maxArgs) (hin : ∀ p ∈ argv, p < array.length) :
    closeArgv array argv = .ok (
      match argv.getLast? with
      | none => (true, array, [])
      | some last =>
        if (cstring (array.drop last)).head? = some 38 then (true, array, argv.dropLast)
        else (false, array, argv)) := by
  rw [closeArgv, if_pos hfit]
  cases hlast : argv.getLast? with
  | none => rfl
  | some last =>
    have hc := List.getElem?_eq_getElem (hin last (List.mem_of_getLast? hlast))
    simp only [head?_cstring (c := 38) (by decide), List.head?_drop, hc, orError, Except.map,
      Option.some.injEq]

theorem arguments_line (hl : line.length < maxLine) (hne : cstring line ≠ []) :
    (scanned (cstring line)).length < maxLine + 1 ∧
      arguments ((cstring line).length + 1) (scanned (cstring line)) =
        arguments (maxLine + 1) (scanned (cstring line)) ∧
      (arguments (maxLine + 1) (scanned (cstring line))).length =
        completed none (scanned (cstring line)) := by
  have hle := cstring_length_le line
  have hlength := scanned_length hne
  have hshort : (scanned (cstring line)).length < maxLine + 1 := by omega
  exact ⟨hshort, arguments_turns (by omega) hshort, arguments_length hshort⟩

theorem parseline_none
    (h : (arguments (cmdline.length + 1) (scanned cmdline)).getLast? = none) :
    parseline cmdline = (true, []) := by
  unfold scanned at h
  simp only [parseline, h]

theorem parseline_some
    (h : (arguments (cmdline.length + 1) (scanned cmdline)).getLast? = some last) :
    parseline cmdline = if last.head? = some 38
      then (true, (arguments (cmdline.length + 1) (scanned cmdline)).dropLast)
      else (false, arguments (cmdline.length + 1) (scanned cmdline)) := by
  unfold scanned at h ⊢
  simp only [parseline, h]

/-- What the end of `parseline` makes of pointers and of the arguments that they lead to. -/
theorem closeArgv_arguments (hfit : argv.length < maxArgs) (hin : ∀ p ∈ argv, p < array.length)
    (hstrings : argv.map (fun p => cstring (array.drop p)) =
      (arguments (cmdline.length + 1) (scanned cmdline)).map cstring) : ∃ argv',
      closeArgv array argv = .ok ((parseline cmdline).1, array, argv') ∧
      argv'.map (fun p => cstring (array.drop p)) = (parseline cmdline).2.map cstring := by
  have hlast : argv.getLast?.map (fun p => cstring (array.drop p)) =
      (arguments (cmdline.length + 1) (scanned cmdline)).getLast?.map cstring := by
    rw [← List.getLast?_map, ← List.getLast?_map, hstrings]
  rw [closeArgv_ok hfit hin]
  cases hp : argv.getLast? with
  | none =>
    rw [hp, Option.map_none, eq_comm, Option.map_eq_none_iff] at hlast
    rw [parseline_none hlast]
    exact ⟨[], rfl, rfl⟩
  | some p =>
    rw [hp, Option.map_some, eq_comm, Option.map_eq_some_iff] at hlast
    obtain ⟨last, hlast, hstring⟩ := hlast
    rw [parseline_some hlast]
    simp only [← hstring, head?_cstring (c := 38) (by decide)]
    by_cases hamp : last.head? = some 38
    · rw [if_pos hamp, if_pos hamp]
      refine ⟨argv.dropLast, rfl, ?_⟩
      rw [List.map_dropLast, hstrings, ← List.map_dropLast]
    · rw [if_neg hamp, if_neg hamp]
      exact ⟨argv, rfl, hstrings⟩

/-- When it stays inside its arrays, it gives the arguments and the result of `parseline`. -/
theorem parselineIn_ok (hm : array.length = maxLine) (hl : line.length < maxLine)
    (hroom : LeavesRoom line) (more : List UInt8) : ∃ array' argv,
      parselineIn array (line ++ 0 :: more) = .ok ((parseline (cstring line)).1, array', argv) ∧
      argv.map (fun p => cstring (array'.drop p)) = (parseline (cstring line)).2.map cstring := by
  obtain ⟨hne, hcount⟩ := hroom
  obtain ⟨hshort, hargs, hlength⟩ := arguments_line hl hne
  obtain ⟨behind, hline⟩ := parselineIn_line hm hl hne more
  have hstart : (scanned (cstring line) ++ 0 :: behind).drop 0 =
      scanned (cstring line) ++ 0 :: behind := rfl
  obtain ⟨array', argv, hscan, -, hin, hstrings⟩ :=
    scan_ok [] hstart (not_mem_scanned (cstring_not_mem line)) hshort
      (by rw [hlength, List.length_nil]; omega)
  have hfit : argv.length < maxArgs := by
    have hmap := congrArg List.length hstrings
    rw [List.length_map, List.length_map, hlength] at hmap
    omega
  rw [← hargs] at hstrings
  obtain ⟨argv', hclose, hstrings'⟩ := closeArgv_arguments hfit hin hstrings
  refine ⟨array', argv', ?_, hstrings'⟩
  rw [hline, hscan]
  exact hclose

/-- Otherwise it writes before its copy of the line, an argument behind the end of `argv`, or the
`NULL`. -/
theorem parselineIn_error (hm : array.length = maxLine) (hl : line.length < maxLine)
    (hroom : ¬LeavesRoom line) (more : List UInt8) :
    ∃ fault, parselineIn array (line ++ 0 :: more) = .error fault := by
  by_cases hne : cstring line = []
  · exact ⟨_, parselineIn_empty hm hl hne more⟩
  · obtain ⟨hshort, -, hlength⟩ := arguments_line hl hne
    obtain ⟨behind, hline⟩ := parselineIn_line hm hl hne more
    have h0 := not_mem_scanned (cstring_not_mem line)
    have hstart : (scanned (cstring line) ++ 0 :: behind).drop 0 =
        scanned (cstring line) ++ 0 :: behind := rfl
    have hcount : maxArgs ≤ completed none (scanned (cstring line)) :=
      Nat.le_of_not_lt fun hcount => hroom ⟨hne, hcount⟩
    rw [hline]
    rcases Nat.eq_or_lt_of_le hcount with hfull | hover
    · obtain ⟨array', argv, hscan, -, -, hstrings⟩ := scan_ok [] hstart h0 hshort
        (by rw [hlength, List.length_nil]; omega)
      have hargv := congrArg List.length hstrings
      rw [List.length_map, List.length_map, hlength, ← hfull] at hargv
      rw [hscan]
      exact ⟨_, if_neg (Nat.not_lt.2 (Nat.le_of_eq hargv.symm))⟩
    · obtain ⟨fault, hfault⟩ := scan_error [] hstart h0 hshort (Nat.zero_le _)
        (by rw [hlength, List.length_nil]; omega)
      rw [hfault]
      exact ⟨fault, rfl⟩

/-- `parseline` stays inside its copy of the line and inside `argv` exactly when the line does not
start with a `NUL` and leaves room for the `NULL`. -/
theorem parseline_stays_inside_iff (hm : array.length = maxLine) (hl : line.length < maxLine)
    (more : List UInt8) :
    (∃ result, parselineIn array (line ++ 0 :: more) = .ok result) ↔ LeavesRoom line := by
  constructor
  · rintro ⟨result, hresult⟩
    by_contra hroom
    obtain ⟨fault, hfault⟩ := parselineIn_error hm hl hroom more
    rw [hfault] at hresult
    cases hresult
  · intro hroom
    obtain ⟨array', argv, he, -⟩ := parselineIn_ok hm hl hroom more
    exact ⟨_, he⟩

end parselineIn

instance (line : List UInt8) : Decidable (LeavesRoom line) :=
  inferInstanceAs (Decidable (_ ∧ _))

def zeroed : List UInt8 := List.replicate maxLine 0

theorem parseline_stays_inside_quoted :
    ∃ result, parselineIn zeroed (chars "./myspin '4 5' &\n" ++ 0 :: []) = .ok result :=
  (parseline_stays_inside_iff (by decide +kernel) (by decide) []).2 (by decide)

/-- As many one-letter arguments as `argv` has entries. -/
def manyLetters : List UInt8 := (List.replicate maxArgs (chars "a ")).flatten ++ [10]

theorem parseline_leaves_argv :
    ¬∃ result, parselineIn zeroed (manyLetters ++ 0 :: []) = .ok result := by
  have hm : zeroed.length = maxLine := by decide +kernel
  have hl : manyLetters.length < maxLine := by decide +kernel
  have hroom : ¬LeavesRoom manyLetters := by decide +kernel
  obtain ⟨fault, hfault⟩ := parselineIn_error hm hl hroom []
  rw [hfault]
  rintro ⟨result, hresult⟩
  cases hresult

end Cs324.Shell
