import Mathlib.Data.List.TakeWhile

namespace Cs324
set_option autoImplicit true

/-- The bytes of a string constant, without its terminator. -/
def chars (s : String) : List UInt8 := s.toList.map fun c => UInt8.ofNat c.toNat

/-- The string that a `char *` points to, given the memory from there on. -/
def cstring (p : List UInt8) : List UInt8 := p.takeWhile (· != 0)

theorem cstring_length_le (p : List UInt8) : (cstring p).length ≤ p.length :=
  (List.takeWhile_prefix _).length_le

theorem cstring_append (h0 : 0 ∉ s) (rest : List UInt8) :
    cstring (s ++ rest) = s ++ cstring rest := by
  rw [cstring, List.takeWhile_append_of_pos]
  · rfl
  · intro c hc
    have : c ≠ 0 := by
      rintro rfl
      exact h0 hc
    simpa using this

theorem cstring_eq_self (h0 : 0 ∉ s) : cstring s = s := by
  simpa [cstring] using cstring_append h0 []

theorem cstring_not_mem (p : List UInt8) : 0 ∉ cstring p := by
  intro h
  simpa using List.mem_takeWhile_imp h

theorem cstring_terminated (h : 0 ∈ p) : ∃ rest, p = cstring p ++ 0 :: rest := by
  have hsplit := List.takeWhile_append_dropWhile (p := (· != 0)) (l := p)
  cases hd : p.dropWhile (· != 0) with
  | nil =>
    rw [hd, List.append_nil] at hsplit
    rw [← hsplit] at h
    exact absurd h (cstring_not_mem p)
  | cons c rest =>
    have hc := List.head_dropWhile_not (· != 0) (l := p) (by rw [hd]; exact List.cons_ne_nil _ _)
    simp only [hd, List.head_cons, bne_eq_false_iff_eq] at hc
    subst hc
    exact ⟨rest, by rw [← hd]; exact hsplit.symm⟩

theorem cstring_eq_nil (h : 0 ∈ p) : cstring p = [] ↔ p.head? = some 0 := by
  cases p with
  | nil => cases h
  | cons c p => simp [cstring, List.takeWhile_cons]

theorem cstring_length_lt (h : 0 ∈ p) : (cstring p).length < p.length := by
  obtain ⟨rest, hp⟩ := cstring_terminated h
  have hlength := congrArg List.length hp
  rw [List.length_append, List.length_cons] at hlength
  omega

/-- Behind its terminator, a string does not depend on the memory. -/
theorem cstring_terminate (p rest : List UInt8) : cstring (p ++ 0 :: rest) = cstring p := by
  induction p with
  | nil => rfl
  | cons c p ih =>
    simp only [cstring, List.cons_append, List.takeWhile_cons] at ih ⊢
    rw [ih]

theorem cstring_inside (h : 0 ∈ p) (rest : List UInt8) : cstring (p ++ rest) = cstring p := by
  obtain ⟨before, after, rfl⟩ := List.append_of_mem h
  rw [List.append_assoc, List.cons_append, cstring_terminate, cstring_terminate]

theorem cstring_take (h : 0 ∈ p.take n) : cstring p = cstring (p.take n) := by
  rw [← cstring_inside h (p.drop n), List.take_append_drop]

theorem cstring_isPrefix (h : p <+: q) : cstring p <+: cstring q := by
  obtain ⟨rest, rfl⟩ := h
  by_cases h0 : 0 ∈ p
  · exact ⟨[], by rw [List.append_nil, cstring_inside h0]⟩
  · rw [cstring_append h0, cstring_eq_self h0]
    exact List.prefix_append _ _

/-- What is left of a string when a NUL is stored in it. -/
theorem cstring_set {s : List UInt8} (h0 : 0 ∉ s) (i : Nat) : cstring (s.set i 0) = s.take i := by
  rw [List.set_eq_take_append_cons_drop]
  split
  · rw [cstring_append fun hm => h0 (List.mem_of_mem_take hm)]
    exact List.append_nil _
  · rw [cstring_eq_self h0, List.take_of_length_le (by omega)]

/-- `strstr`: the string from the first occurrence of `needle` on. -/
def strstr : List UInt8 → List UInt8 → Option (List UInt8)
  | [], needle => if needle = [] then some [] else none
  | c :: s, needle => if needle.isPrefixOf (c :: s) then some (c :: s) else strstr s needle

theorem strstr_isSome : (strstr s needle).isSome ↔ needle <:+: s := by
  induction s with
  | nil => simp [strstr]
  | cons c s ih =>
    rw [List.infix_cons_iff, ← ih, strstr, ← List.isPrefixOf_iff_prefix]
    split <;> simp [*]

/-- `strtok` with one delimiter, on a string: how many delimiters it skips, and the token. -/
def strtok (s : List UInt8) (delim : UInt8) : Option (Nat × List UInt8) :=
  let token := (s.dropWhile (· == delim)).takeWhile (· != delim)
  if token = [] then none else some ((s.takeWhile (· == delim)).length, token)

/-- The string that `strtok` leaves in the buffer: it ends after the token. -/
def strtokLeft (s : List UInt8) (delim : UInt8) : List UInt8 :=
  s.takeWhile (· == delim) ++ (s.dropWhile (· == delim)).takeWhile (· != delim)

/-- The token that `strtok` finds, if there is one, and how many delimiters come before it. -/
def strtokToken (s : List UInt8) (delim : UInt8) : List UInt8 :=
  (s.dropWhile (· == delim)).takeWhile (· != delim)

def strtokSkips (s : List UInt8) (delim : UInt8) : Nat := (s.takeWhile (· == delim)).length

theorem strtok_eq (s : List UInt8) (delim : UInt8) : strtok s delim =
    if strtokToken s delim = [] then none
    else some (strtokSkips s delim, strtokToken s delim) := rfl

theorem takeWhile_append_delim {delim : UInt8} (hd : delim ∉ token) (rest : List UInt8) :
    (token ++ delim :: rest).takeWhile (· != delim) = token := by
  rw [List.takeWhile_append_of_pos]
  · simp
  · intro c hc
    have : c ≠ delim := by
      rintro rfl
      exact hd hc
    simpa using this

theorem skip_token {delim : UInt8} (hne : token ≠ []) (hd : delim ∉ token) (rest : List UInt8) :
    (token ++ rest).dropWhile (· == delim) = token ++ rest ∧
      (token ++ rest).takeWhile (· == delim) = [] := by
  cases token with
  | nil => exact absurd rfl hne
  | cons c token =>
    have : c ≠ delim := by
      rintro rfl
      exact hd List.mem_cons_self
    simp [this]

/-- The first token is all up to the first delimiter, if the string does not start with one. -/
theorem strtok_append {delim : UInt8} (hne : token ≠ []) (hd : delim ∉ token)
    (rest : List UInt8) : strtok (token ++ delim :: rest) delim = some (0, token) := by
  obtain ⟨hdrop, htake⟩ := skip_token hne hd (delim :: rest)
  rw [strtok, hdrop, htake, takeWhile_append_delim hd]
  simp [hne]

theorem takeWhile_token {delim : UInt8} (hd : delim ∉ token) :
    List.takeWhile (· != delim) token = token := by
  rw [List.takeWhile_eq_self_iff]
  intro c hc
  have : c ≠ delim := fun he => hd (he ▸ hc)
  simpa using this

theorem strtok_some (h : strtok s delim = some (skipped, token)) :
    0 < token.length ∧ skipped + token.length ≤ s.length := by
  rw [strtok] at h
  split at h
  · cases h
  · rename_i hne
    cases h
    have hle :=
      (List.takeWhile_prefix (p := (· != delim)) (l := s.dropWhile (· == delim))).length_le
    have hsplit :=
      congrArg List.length (List.takeWhile_append_dropWhile (p := (· == delim)) (l := s))
    rw [List.length_append] at hsplit
    exact ⟨List.length_pos_iff.2 hne, by omega⟩

theorem strtok_self {delim : UInt8} (hne : token ≠ []) (hd : delim ∉ token) :
    strtok token delim = some (0, token) := by
  obtain ⟨hdrop, htake⟩ := skip_token hne hd []
  rw [List.append_nil] at hdrop htake
  rw [strtok, hdrop, htake, takeWhile_token hd]
  simp [hne]

theorem not_mem_strtokToken (s : List UInt8) (delim : UInt8) : delim ∉ strtokToken s delim := by
  intro h
  simpa using List.mem_takeWhile_imp h

/-- The token, the delimiters before it, and what follows it. -/
theorem strtok_split (s : List UInt8) (delim : UInt8) : ∃ tail,
    s = List.replicate (strtokSkips s delim) delim ++ (strtokToken s delim ++ tail) := by
  refine ⟨(s.dropWhile (· == delim)).dropWhile (· != delim), ?_⟩
  have hskipped : s.takeWhile (· == delim) = List.replicate (strtokSkips s delim) delim := by
    rw [List.eq_replicate_iff]
    exact ⟨rfl, fun c hc => by simpa using List.mem_takeWhile_imp hc⟩
  rw [strtokToken, List.takeWhile_append_dropWhile, ← hskipped, List.takeWhile_append_dropWhile]

theorem strtokToken_ne {delim : UInt8} (hm : c ∈ s) (hc : c ≠ delim) :
    strtokToken s delim ≠ [] := by
  intro he
  cases hd : s.dropWhile (· == delim) with
  | nil => exact hc (by simpa using List.dropWhile_eq_nil_iff.1 hd c hm)
  | cons d rest =>
    have hne :=
      List.head_dropWhile_not (· == delim) (l := s) (by rw [hd]; exact List.cons_ne_nil _ _)
    simp only [hd, List.head_cons] at hne
    rw [strtokToken, hd, List.takeWhile_cons, if_pos (by simpa using hne)] at he
    cases he

theorem strtok_replicate {delim : UInt8} (hne : token ≠ []) (hd : delim ∉ token) (n : Nat)
    (hrest : rest = [] ∨ rest.head? = some delim) :
    strtokToken (List.replicate n delim ++ (token ++ rest)) delim = token ∧
      strtokSkips (List.replicate n delim ++ (token ++ rest)) delim = n := by
  obtain ⟨hdrop, htake⟩ := skip_token hne hd rest
  have hpos : ∀ c ∈ List.replicate n delim, (c == delim) = true := by
    intro c hc
    rw [List.eq_of_mem_replicate hc, beq_self_eq_true]
  rw [strtokToken, strtokSkips, List.dropWhile_append_of_pos hpos,
    List.takeWhile_append_of_pos hpos,
    hdrop, htake, List.append_nil, List.length_replicate]
  refine ⟨?_, rfl⟩
  rcases hrest with rfl | hrest
  · rw [List.append_nil, takeWhile_token hd]
  · obtain ⟨tail, rfl⟩ := List.head?_eq_some_iff.1 hrest
    exact takeWhile_append_delim hd tail

/-- The tokens that `strtok` gives one after another. -/
def tokens (s : List UInt8) (delim : UInt8) : List (List UInt8) :=
  match h : strtok s delim with
  | none => []
  | some (skipped, token) =>
    have := strtok_some h
    token :: tokens (s.drop (skipped + token.length + 1)) delim
termination_by s.length
decreasing_by
  rw [List.length_drop]
  omega

theorem tokens_none (h : strtok s delim = none) : tokens s delim = [] := by
  rw [tokens]
  split
  next => rfl
  next hs => cases h.symm.trans hs

theorem tokens_cons (h : strtok s delim = some (skipped, token)) :
    tokens s delim = token :: tokens (s.drop (skipped + token.length + 1)) delim := by
  rw [tokens]
  split
  next hn => cases h.symm.trans hn
  next hs =>
    cases h.symm.trans hs
    rfl

/-- `strtok` undoes what puts delimiters between tokens. -/
theorem tokens_intercalate {delim : UInt8} (hs : ∀ token ∈ ts, token ≠ [] ∧ delim ∉ token) :
    tokens ([delim].intercalate ts) delim = ts := by
  induction ts with
  | nil => exact tokens_none rfl
  | cons token ts ih =>
    obtain ⟨hne, hd⟩ := hs token List.mem_cons_self
    have hrest := ih fun t ht => hs t (List.mem_cons_of_mem _ ht)
    cases ts with
    | nil =>
      rw [List.intercalate_singleton, tokens_cons (strtok_self hne hd), Nat.zero_add,
        List.drop_eq_nil_of_le (Nat.le_succ _), tokens_none rfl]
    | cons token' ts =>
      rw [List.intercalate_cons_cons, List.append_assoc, List.singleton_append,
        tokens_cons (strtok_append hne hd _), Nat.zero_add, List.drop_length_add_append]
      exact congrArg _ hrest

theorem strtokLeft_append {delim : UInt8} (hne : token ≠ []) (hd : delim ∉ token)
    (rest : List UInt8) : strtokLeft (token ++ delim :: rest) delim = token := by
  obtain ⟨hdrop, htake⟩ := skip_token hne hd (delim :: rest)
  rw [strtokLeft, hdrop, htake, takeWhile_append_delim hd, List.nil_append]

theorem strtokLeft_isPrefix (s : List UInt8) (delim : UInt8) : strtokLeft s delim <+: s := by
  have hprefix : strtokLeft s delim <+: s.takeWhile (· == delim) ++ s.dropWhile (· == delim) := by
    rw [strtokLeft, List.prefix_append_right_inj]
    exact List.takeWhile_prefix _
  rwa [List.takeWhile_append_dropWhile] at hprefix

theorem strtokLeft_self {delim : UInt8} (hne : token ≠ []) (hd : delim ∉ token) :
    strtokLeft token delim = token := by
  obtain ⟨hdrop, htake⟩ := skip_token hne hd []
  rw [List.append_nil] at hdrop htake
  rw [strtokLeft, hdrop, htake, takeWhile_token hd, List.nil_append]

theorem strstr_char {c : UInt8} (hc : c ∉ token) (rest : List UInt8) :
    strstr (token ++ c :: rest) [c] = some (c :: rest) := by
  induction token with
  | nil => simp [strstr]
  | cons d token ih =>
    have hd : c ≠ d := fun he => hc (he ▸ List.mem_cons_self)
    have hrest := ih fun hm => hc (List.mem_cons_of_mem _ hm)
    simpa [strstr, hd] using hrest

theorem strstr_char_none {c : UInt8} (hc : c ∉ s) : strstr s [c] = none := by
  induction s with
  | nil => rfl
  | cons d s ih =>
    have hd : c ≠ d := fun he => hc (he ▸ List.mem_cons_self)
    have hrest := ih fun hm => hc (List.mem_cons_of_mem _ hm)
    simpa [strstr, hd] using hrest

end Cs324
