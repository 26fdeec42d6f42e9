import Cs324.Base.Cursor
import Cs324.Dns.Bounds

namespace Cs324.Dns
set_option autoImplicit true

/-- Letters, digits and the hyphen. -/
def isLdh (c : UInt8) : Bool :=
  (65 ≤ c && c ≤ 90) || (97 ≤ c && c ≤ 122) || (48 ≤ c && c ≤ 57) || c == 45

/-- What `grabCNames` prints before the end of the line. -/
def Prints (wire : List UInt8) (indexp : Nat) (text : List UInt8) : Prop :=
  ∃ fuel, grabCNames wire fuel indexp = some text

/-- All pointers of the name at an offset lead below 256. -/
inductive NearAt (msg : List UInt8) : Nat → Prop
  | root (h : msg[offset]? = some 0) : NearAt msg offset
  | label (hn : msg[offset]? = some n) (hle : n ≤ 63) (h : NearAt msg (offset + 1 + n.toNat)) :
      NearAt msg offset
  | pointer (hhi : msg[offset]? = some hi) (hlo : msg[offset + 1]? = some lo) (hp : 192 ≤ hi)
      (ht : 256 * (hi.toNat - 192) + lo.toNat = target) (hlt : target < 256)
      (h : NearAt msg target) : NearAt msg offset

/-- A length below that of `-` counts as a length. Another one is printed as a character, which is
the dot that is missing if the length is 46. -/
def Name.Printable (name : Name) : Prop :=
  (∀ label ∈ name.head?, label.length < 45) ∧
    ∀ label ∈ name.tail, label.length < 45 ∨ label.length = 46

/-- What is printed for the length of a label that is not the first one. -/
def mark (label : List UInt8) : UInt8 :=
  if label.length < 45 then 46 else UInt8.ofNat label.length

/-- What is printed for a name after `i` lengths. -/
def spelled : Nat → Name → List UInt8
  | _, [] => []
  | i, label :: name =>
    if label.length < 45 then (if i ≠ 0 then [46] else []) ++ label ++ spelled (i + 1) name
    else UInt8.ofNat label.length :: label ++ spelled i name

section loop
variable {wire : List UInt8}

theorem isLdh_bounds (h : isLdh c) : c ≠ 0 ∧ ¬0xC0 ≤ c ∧ ¬c < 0x2D := by
  simp only [isLdh, Bool.or_eq_true, Bool.and_eq_true, decide_eq_true_eq, beq_iff_eq,
    UInt8.le_iff_toNat_le, UInt8.lt_iff_toNat_lt, ← UInt8.toNat_inj, UInt8.reduceToNat,
    ne_eq] at *
  omega

/-- The loop goes over the characters of a label. -/
theorem grabLoop_label (hl : ∀ c ∈ label, isLdh c) (hd : wire.drop indexp = label ++ rest)
    (fuel i : Nat) (printed : List UInt8) :
    grabLoop wire (fuel + label.length) indexp i printed =
      grabLoop wire fuel (indexp + label.length) i (printed ++ label) := by
  induction label generalizing indexp printed with
  | nil => simp
  | cons c label ih =>
    obtain ⟨hc, hd⟩ := getElem?_of_drop hd
    obtain ⟨h0, hp, hlt⟩ := isLdh_bounds (hl c List.mem_cons_self)
    rw [List.length_cons, ← Nat.add_assoc, grabLoop, hc, Option.bind_eq_bind, Option.bind_some,
      if_neg h0, if_neg hp, if_neg hlt, ih (fun c hm => hl c (List.mem_cons_of_mem _ hm)) hd,
      List.append_assoc, List.singleton_append, Nat.add_right_comm, Nat.add_assoc]

theorem grabLoop_mono (h : grabLoop wire fuel indexp i printed = some line)
    (hle : fuel ≤ fuel') : grabLoop wire fuel' indexp i printed = some line := by
  induction fuel generalizing fuel' indexp i printed with
  | zero => cases h
  | succ fuel ih =>
    obtain ⟨fuel', rfl⟩ : ∃ n, fuel' = n + 1 := ⟨fuel' - 1, by omega⟩
    have hle : fuel ≤ fuel' := Nat.le_of_succ_le_succ hle
    simp only [grabLoop, Option.bind_eq_bind, Option.bind_eq_some_iff] at h ⊢
    obtain ⟨c, hc, h⟩ := h
    refine ⟨c, hc, ?_⟩
    by_cases h0 : c = 0
    · rwa [if_pos h0] at h ⊢
    rw [if_neg h0] at h ⊢
    by_cases hp : 0xC0 ≤ c
    · simp only [if_pos hp, Option.bind_eq_some_iff] at h ⊢
      obtain ⟨low, hlow, h⟩ := h
      exact ⟨low, hlow, ih h hle⟩
    rw [if_neg hp] at h ⊢
    by_cases hl : c < 0x2D
    · rw [if_pos hl] at h ⊢
      exact ih h hle
    · rw [if_neg hl] at h ⊢
      exact ih h hle

theorem Prints.unique (h : Prints wire indexp text) (h' : Prints wire indexp text') :
    text = text' := by
  obtain ⟨fuel, h⟩ := h
  obtain ⟨fuel', h'⟩ := h'
  have hmax := grabLoop_mono h (Nat.le_max_left fuel fuel')
  rw [grabLoop_mono h' (Nat.le_max_right fuel fuel')] at hmax
  exact (Option.some.inj hmax).symm

/-- The name at an offset is printed as it is spelled. -/
theorem NameAt.spells (h : NameAt msg start name used) (hldh : ∀ label ∈ name, ∀ c ∈ label, isLdh c)
    (hnear : NearAt msg start) (hw : msg <+: wire) (i : Nat) (printed : List UInt8) :
    ∃ fuel, grabLoop wire fuel start i printed = some (printed ++ spelled i name) := by
  induction h generalizing i printed with
  | root h =>
    refine ⟨1, ?_⟩
    rw [grabLoop, getElem?_received hw h, spelled, List.append_nil]
    rfl
  | @label offset n label name used hn hpos hle hl hlen h ih =>
    have h0 : n ≠ 0 := by
      rintro rfl
      exact absurd hpos (by decide)
    have hp : ¬0xC0 ≤ n := fun hp => absurd (UInt8.le_trans hp hle) (by decide)
    have hrest : NearAt msg (offset + 1 + n.toNat) := by
      cases hnear with
      | root h => exact absurd (Option.some.inj (hn.symm.trans h)) h0
      | label hn' _ h =>
        cases hn.symm.trans hn'
        exact h
      | pointer hhi _ hp' =>
        cases hn.symm.trans hhi
        exact absurd hp' hp
    obtain ⟨hlt, _⟩ := List.getElem?_eq_some_iff.1 hn
    obtain ⟨more, hmore⟩ := hw
    have hd : wire.drop (offset + 1) = label ++ ((msg.drop (offset + 1)).drop n.toNat ++ more) := by
      rw [← hmore, List.drop_append_of_le_length (by omega), ← List.append_assoc, ← hl,
        List.take_append_drop]
    have hw : msg <+: wire := ⟨more, hmore⟩
    have hchars : ∀ c ∈ label, isLdh c := hldh label List.mem_cons_self
    replace ih := ih (fun l hm => hldh l (List.mem_cons_of_mem _ hm)) hrest
    by_cases hshort : n < 0x2D
    · have hlen' : label.length < 45 := hlen ▸ UInt8.lt_iff_toNat_lt.1 hshort
      obtain ⟨fuel, hf⟩ := ih (i + 1) ((if i ≠ 0 then printed ++ [46] else printed) ++ label)
      refine ⟨fuel + label.length + 1, ?_⟩
      rw [grabLoop, getElem?_received hw hn, Option.bind_eq_bind, Option.bind_some, if_neg h0,
        if_neg hp, if_pos hshort, grabLoop_label hchars hd, hlen, hf, spelled, if_pos hlen']
      by_cases hi : i ≠ 0
      · simp [hi]
      · simp [hi]
    · have hlen' : ¬label.length < 45 := fun hlt => hshort (UInt8.lt_iff_toNat_lt.2 (hlen ▸ hlt))
      obtain ⟨fuel, hf⟩ := ih i (printed ++ [n] ++ label)
      refine ⟨fuel + label.length + 1, ?_⟩
      rw [grabLoop, getElem?_received hw hn, Option.bind_eq_bind, Option.bind_some, if_neg h0,
        if_neg hp, if_neg hshort, grabLoop_label hchars hd, hlen, hf, spelled, if_neg hlen', hlen,
        UInt8.ofNat_toNat]
      simp
  | @pointer offset hi lo target name used hhi hlo hp ht hlt h ih =>
    have h0 : hi ≠ 0 := by
      rintro rfl
      exact absurd hp (by decide)
    have hlow : lo.toNat = target ∧ NearAt msg target := by
      cases hnear with
      | root h => exact absurd (Option.some.inj (hhi.symm.trans h)) h0
      | label hn hle =>
        cases hhi.symm.trans hn
        exact absurd (UInt8.le_trans hp hle) (by decide)
      | pointer hhi' hlo' _ ht' hlt' h =>
        cases hhi.symm.trans hhi'
        cases hlo.symm.trans hlo'
        cases ht.symm.trans ht'
        exact ⟨by omega, h⟩
    obtain ⟨fuel, hf⟩ := ih hldh hlow.2 i printed
    refine ⟨fuel + 1, ?_⟩
    rw [grabLoop, getElem?_received hw hhi, Option.bind_eq_bind, Option.bind_some, if_neg h0,
      if_pos hp, getElem?_received hw hlo, Option.bind_some, hlow.1, hf]

theorem prints_iff (h : NameAt msg start name used) (hldh : ∀ label ∈ name, ∀ c ∈ label, isLdh c)
    (hnear : NearAt msg start) (hw : msg <+: wire) (text : List UInt8) :
    Prints wire start text ↔ text = spelled 0 name := by
  have hspelled : Prints wire start (spelled 0 name) := h.spells hldh hnear hw 0 []
  constructor
  · intro hp
    exact hp.unique hspelled
  · rintro rfl
    exact hspelled

end loop

theorem spelled_marks (hi : i ≠ 0) (name : Name) :
    spelled i name = name.flatMap fun label => mark label :: label := by
  induction name generalizing i with
  | nil => rfl
  | cons label name ih =>
    rw [spelled, List.flatMap_cons, mark]
    by_cases hlt : label.length < 45
    · rw [if_pos hlt, if_pos hlt, if_pos hi, ih (Nat.succ_ne_zero i)]
      rfl
    · rw [if_neg hlt, if_neg hlt, ih hi]

theorem intercalate_dots (label : List UInt8) (name : Name) :
    [46].intercalate (label :: name) = label ++ name.flatMap fun label => 46 :: label := by
  induction name generalizing label with
  | nil => simp
  | cons label' name ih => simp [List.intercalate_cons_cons, ih]

theorem marks_eq_dots {name : Name} (hlen : ∀ label ∈ name, label.length ≤ 63) :
    (name.flatMap fun label => mark label :: label) = name.flatMap (fun label => 46 :: label) ↔
      ∀ label ∈ name, label.length < 45 ∨ label.length = 46 := by
  induction name with
  | nil => simp
  | cons label name ih =>
    have hmark : mark label = 46 ↔ label.length < 45 ∨ label.length = 46 := by
      have hle := hlen label List.mem_cons_self
      rw [mark]
      split
      · simp [*]
      · simp only [← UInt8.toNat_inj, UInt8.toNat_ofNat', UInt8.reduceToNat]
        omega
    rw [List.flatMap_cons, List.flatMap_cons, List.cons_append, List.cons_append, List.cons.injEq,
      List.append_cancel_left_eq, hmark, ih fun l hl => hlen l (List.mem_cons_of_mem _ hl),
      List.forall_mem_cons]

/-- What is printed for the first length does not become a dot after the label. -/
theorem cons_label_ne {label : List UInt8} (hne : label ≠ []) (hdot : 46 ∉ label) (c : UInt8)
    (front back : List UInt8) : c :: label ++ front ≠ label ++ 46 :: back := by
  intro he
  have hfirst : c :: label = label ++ [46] := by
    rw [← List.singleton_append (l := back), ← List.append_assoc] at he
    exact (List.append_inj he (by simp)).1
  have hlast := congrArg List.getLast? hfirst
  rw [List.getLast?_concat, List.getLast?_cons, List.getLast?_eq_some_getLast hne] at hlast
  exact hdot (Option.some.inj hlast ▸ List.getLast_mem hne)

theorem spelled_eq_iff {name : Name} (hdot : ∀ label ∈ name, label ≠ [] ∧ 46 ∉ label)
    (hlen : ∀ label ∈ name, label.length ≤ 63) :
    spelled 0 name = [46].intercalate name ↔ name.Printable := by
  cases name with
  | nil => simp [spelled, Name.Printable]
  | cons label name =>
    have hmarks := marks_eq_dots fun l hl => hlen l (List.mem_cons_of_mem label hl)
    rw [intercalate_dots, spelled, Name.Printable, List.head?_cons, List.tail_cons]
    by_cases hlt : label.length < 45
    · rw [if_pos hlt, spelled_marks (by decide)]
      simpa [hlt] using hmarks
    · rw [if_neg hlt]
      apply iff_of_false
      · obtain ⟨hne, hnodot⟩ := hdot label List.mem_cons_self
        cases name with
        | nil =>
          intro he
          have hlength := congrArg List.length he
          simp [spelled] at hlength
        | cons label' name =>
          rw [List.flatMap_cons, List.cons_append]
          exact cons_label_ne hne hnodot _ _ _
      · rintro ⟨h, -⟩
        exact hlt (h label rfl)

theorem NameAt.labels (h : NameAt msg start name used) :
    ∀ label ∈ name, label ≠ [] ∧ label.length ≤ 63 := by
  induction h with
  | root => simp
  | @label _ n label _ _ _ hpos hle _ hlen _ ih =>
    have hpos := UInt8.le_iff_toNat_le.1 hpos
    have hle := UInt8.le_iff_toNat_le.1 hle
    rw [← hlen] at hpos hle
    rintro l (_ | ⟨_, hl⟩)
    · exact ⟨List.length_pos_iff.1 hpos, hle⟩
    · exact ih l hl
  | pointer _ _ _ _ _ _ ih => exact ih

/-- An encoded name whose pointers lead below 256 is printed as its text if and only if its lengths
are not taken for characters. -/
theorem name_printed_iff (hname : NameAt msg start name used)
    (hldh : ∀ label ∈ name, ∀ c ∈ label, isLdh c) (hnear : NearAt msg start) (hw : msg <+: wire) :
    Prints wire start ([46].intercalate name) ↔ name.Printable := by
  have hlabels := hname.labels
  have hdot : ∀ label ∈ name, label ≠ [] ∧ 46 ∉ label := by
    intro label hl
    refine ⟨(hlabels label hl).1, fun hm => ?_⟩
    exact absurd (hldh label hl 46 hm) (by decide)
  rw [prints_iff hname hldh hnear hw, eq_comm]
  exact spelled_eq_iff hdot fun label hl => (hlabels label hl).2

/-- The owner of the answer is a pointer to the question. -/
theorem name_printed_compressed :
    Prints (responseTo [0xC0, 12]) 19 ([46].intercalate [[97]]) ↔ Name.Printable [[97]] := by
  have hname : NameAt (responseTo [0xC0, 12]) 12 [[97]] 3 :=
    .label (n := 1) rfl (by decide) (by decide) rfl rfl (.root rfl)
  have hnear : NearAt (responseTo [0xC0, 12]) 12 :=
    .label (n := 1) rfl (by decide) (.root rfl)
  have howner : NameAt (responseTo [0xC0, 12]) 19 [[97]] 2 :=
    .pointer rfl rfl (by decide) rfl (by decide) hname
  have hldh : ∀ label ∈ [[97]], ∀ c ∈ label, isLdh c :=
    List.forall_mem_singleton.2 (List.forall_mem_singleton.2 rfl)
  exact name_printed_iff howner hldh (.pointer rfl rfl (by decide) rfl (by decide) hnear)
    (List.prefix_refl _)

def longLabel : List UInt8 := List.replicate 45 97

/-- The question for a name of one label. -/
def longQuestion : List UInt8 :=
  [0x12, 0x34, 0x81, 0x80, 0, 1, 0, 0, 0, 0, 0, 0] ++ encodeQuestion [longLabel]

/-- A name at offset 256, and a pointer to it. -/
def farPointer : List UInt8 := List.replicate 256 0 ++ [1, 99, 0, 0xC1, 0]

/-- The length is printed in front of the label, and the pointer is taken to lead to offset 0. -/
theorem name_not_printed :
    (NameAt longQuestion 12 [longLabel] 47 ∧ ¬Prints longQuestion 12 longLabel) ∧
      NameAt farPointer 259 [[99]] 2 ∧ ¬Prints farPointer 259 [99] := by
  have hlong : NameAt longQuestion 12 [longLabel] 47 :=
    .label (n := 45) rfl (by decide) (by decide) rfl rfl (.root rfl)
  have htarget : NameAt farPointer 256 [[99]] 3 :=
    .label (n := 1) rfl (by decide) (by decide) rfl rfl (.root rfl)
  have hhigh : farPointer[259]? = some 0xC1 := rfl
  have hfar : NameAt farPointer 259 [[99]] 2 :=
    .pointer hhigh rfl (by decide) rfl (by decide) htarget
  refine ⟨⟨hlong, fun h => ?_⟩, hfar, fun h => ?_⟩
  · have hprints : Prints longQuestion 12 (45 :: longLabel) := ⟨47, by decide +kernel⟩
    exact absurd (h.unique hprints) (by decide)
  · have hprints : Prints farPointer 259 [] := ⟨2, by decide +kernel⟩
    exact absurd (h.unique hprints) (by decide)

end Cs324.Dns
