import Cs324.Base.Walk
import Cs324.Dns.Bounds

namespace Cs324.Dns
set_option autoImplicit true
open StateTransition Relation

/-- Where the next turn of the loop of `grabCNames` is, if there is one. -/
def nextIndex (wire : List UInt8) (indexp : Nat) : Option Nat := do
  let c ← wire[indexp]?
  if c = 0 then none
  else if 0xC0 ≤ c then wire[indexp + 1]?.map UInt8.toNat
  else some (indexp + 1)

/-- The loop of `grabCNames` is over after some number of turns: at a zero byte or outside the
buffer. -/
def PrintingEnds (wire : List UInt8) (indexp : Nat) : Prop :=
  ∃ fuel, grabCNamesWithin wire fuel indexp ≠ .error .turns

def IsPointer (wire : List UInt8) (indexp : Nat) : Prop := ∃ c, wire[indexp]? = some c ∧ 0xC0 ≤ c

section
variable {wire : List UInt8} {indexp : Nat}

theorem grabLoopWithin_last (h : nextIndex wire indexp = none) (fuel i : Nat)
    (printed : List UInt8) :
    grabLoopWithin wire (fuel + 1) indexp i printed ≠ .error .turns := by
  rw [nextIndex] at h
  rw [grabLoopWithin]
  cases hc : wire[indexp]? with
  | none =>
    intro he
    cases he
  | some c =>
    simp only [hc, Option.bind_eq_bind, Option.bind_some] at h
    simp only [inBounds, bind, Except.bind]
    by_cases h0 : c = 0
    · rw [if_pos h0]
      intro he
      cases he
    by_cases hp : 0xC0 ≤ c
    · rw [if_neg h0, if_pos hp, Option.map_eq_none_iff] at h
      rw [if_neg h0, if_pos hp, h]
      intro he
      cases he
    · simp [h0, hp] at h

theorem grabLoopWithin_next (h : nextIndex wire indexp = some next) (i : Nat)
    (printed : List UInt8) : ∃ i' printed', ∀ fuel,
      grabLoopWithin wire (fuel + 1) indexp i printed =
        grabLoopWithin wire fuel next i' printed' := by
  simp only [nextIndex, Option.bind_eq_bind, Option.bind_eq_some_iff] at h
  obtain ⟨c, hc, h⟩ := h
  simp only [grabLoopWithin, hc, inBounds, bind, Except.bind]
  by_cases h0 : c = 0
  · simp [h0] at h
  rw [if_neg h0] at h
  by_cases hp : 0xC0 ≤ c
  · rw [if_pos hp, Option.map_eq_some_iff] at h
    obtain ⟨low, hlow, rfl⟩ := h
    exact ⟨i, printed, fun fuel => by rw [if_neg h0, if_pos hp, hlow]⟩
  · rw [if_neg hp, Option.some.injEq] at h
    subst h
    by_cases hl : c < 0x2D
    · exact ⟨i + 1, _, fun fuel => by rw [if_neg h0, if_neg hp, if_pos hl]⟩
    · exact ⟨i, _, fun fuel => by rw [if_neg h0, if_neg hp, if_neg hl]⟩

theorem grabLoopWithin_ends (i : Nat) (printed : List UInt8) :
    (∃ fuel, grabLoopWithin wire fuel indexp i printed ≠ .error .turns) ↔
      ∃ last, Reaches (nextIndex wire) indexp last ∧ nextIndex wire last = none := by
  constructor
  · rintro ⟨fuel, h⟩
    induction fuel generalizing indexp i printed with
    | zero => exact absurd rfl h
    | succ fuel ih =>
      cases hn : nextIndex wire indexp with
      | none => exact ⟨indexp, .refl, hn⟩
      | some next =>
        obtain ⟨i', printed', hstep⟩ := grabLoopWithin_next hn i printed
        rw [hstep] at h
        obtain ⟨last, hr, hlast⟩ := ih i' printed' h
        exact ⟨last, .head hn hr, hlast⟩
  · rintro ⟨last, hr, hlast⟩
    induction hr using ReflTransGen.head_induction_on generalizing i printed with
    | refl => exact ⟨1, grabLoopWithin_last hlast 0 i printed⟩
    | head hn _ ih =>
      obtain ⟨i', printed', hstep⟩ := grabLoopWithin_next hn i printed
      obtain ⟨fuel, h⟩ := ih i' printed'
      exact ⟨fuel + 1, by rwa [hstep]⟩

/-- The index goes on by one, or a pointer has been followed. -/
theorem nextIndex_cases (h : nextIndex wire indexp = some next) :
    IsPointer wire indexp ∨ next = indexp + 1 := by
  simp only [nextIndex, Option.bind_eq_bind, Option.bind_eq_some_iff] at h
  obtain ⟨c, hc, h⟩ := h
  by_cases hp : 0xC0 ≤ c
  · exact .inl ⟨c, hc, hp⟩
  · rw [if_neg hp] at h
    split at h
    · cases h
    · cases h
      exact .inr rfl

theorem reaches₁_pointer (h : Reaches₁ (nextIndex wire) indexp index) : indexp < index ∨
    ∃ p, IsPointer wire p ∧ Reaches (nextIndex wire) indexp p ∧
      Reaches₁ (nextIndex wire) p index := by
  induction h with
  | single hn =>
    rcases nextIndex_cases hn with hp | rfl
    · exact .inr ⟨indexp, hp, .refl, .single hn⟩
    · exact .inl (Nat.lt_succ_self _)
  | @tail b c hb hn ih =>
    rcases ih with hlt | ⟨p, hp, hr, hr'⟩
    · rcases nextIndex_cases hn with hp | rfl
      · exact .inr ⟨b, hp, hb.to_reflTransGen, .single hn⟩
      · exact .inl (hlt.trans (Nat.lt_succ_self _))
    · exact .inr ⟨p, hp, hr, hr'.tail hn⟩

theorem nextIndex_finite (wire : List UInt8) : {indexp | nextIndex wire indexp ≠ none}.Finite := by
  apply (Set.finite_lt_nat wire.length).subset
  intro indexp h
  by_contra hge
  apply h
  rw [nextIndex, List.getElem?_eq_none (Nat.le_of_not_lt hge)]
  rfl

end

/-- The names that `grabCNames` comes to print an end of: those without a pointer that leads back
to itself. -/
theorem printing_ends_iff (wire : List UInt8) (indexp : Nat) :
    PrintingEnds wire indexp ↔ ¬∃ p, IsPointer wire p ∧ Reaches (nextIndex wire) indexp p ∧
      Reaches₁ (nextIndex wire) p p := by
  have hends : PrintingEnds wire indexp ↔ ∃ last, Reaches (nextIndex wire) indexp last ∧
      nextIndex wire last = none := grabLoopWithin_ends 0 []
  rw [hends, walk_ends_iff (nextIndex_finite wire)]
  apply not_congr
  constructor
  · rintro ⟨c, hr, hc⟩
    rcases reaches₁_pointer hc with hlt | ⟨p, hp, hcp, hpc⟩
    · exact absurd hlt (Nat.lt_irrefl c)
    · exact ⟨p, hp, hr.trans hcp, hpc.trans_left hcp⟩
  · rintro ⟨p, _, hr, hp⟩
    exact ⟨p, hr, hp⟩

/-- A response with a CNAME record, and after it an owner that is a pointer to itself. -/
def loopingResponse : List UInt8 :=
  [0x12, 0x34, 0x81, 0x80, 0, 1, 0, 2, 0, 0, 0, 0] ++ encodeQuestion [[97]] ++
    [0xC0, 12, 0, 5, 0, 1, 0, 0, 0, 60, 0, 2, 0xC0, 12] ++
    [0xC0, 33, 0, 1, 0, 1, 0, 0, 0, 60, 0, 4, 127, 0, 0, 1]

theorem looping_next : nextIndex loopingResponse 33 = some 33 := by
  decide

theorem looping_turns (fuel : Nat) :
    grabCNamesWithin loopingResponse fuel 33 = .error .turns := by
  by_contra h
  obtain ⟨last, hr, hlast⟩ := (grabLoopWithin_ends 0 []).1 ⟨fuel, h⟩
  have hself := reaches₁_self (.single looping_next) hr
  exact not_reaches₁_of_none hlast hself

theorem answerLoopWithin_turns (h5 : rr.type = 5)
    (h : grabCNamesWithin response fuel (indexp + len) = .error .turns) :
    answerLoopWithin memory response fuel (turns + 1) rr len indexp walk = .error .turns := by
  rw [answerLoopWithin, if_neg (by rw [h5]; decide), if_pos h5, h]
  rfl

/-- The resolver goes round for ever in the second record. -/
theorem printing_never_ends : ¬PrintingEnds loopingResponse 33 ∧
    ∀ fuel, getAnswerAddressWithin zeroMemory loopingResponse fuel 19 = .error .turns := by
  constructor
  · rintro ⟨fuel, h⟩
    exact h (looping_turns fuel)
  · intro fuel
    have hexamine : ((examine zeroMemory loopingResponse 19 ⟨[], []⟩).map fun r =>
        (r.1.type, r.2.1)) = some (5, 14) := by
      decide +kernel
    obtain ⟨⟨rr, len, walk⟩, he, hrr⟩ := Option.map_eq_some_iff.1 hexamine
    obtain ⟨htype, rfl⟩ := Prod.mk.inj hrr
    have hcount : answerCount zeroMemory loopingResponse = some 2 := by
      decide
    have hturns : grabCNamesWithin loopingResponse fuel (19 + 14) = .error .turns :=
      looping_turns fuel
    simp only [getAnswerAddressWithin, he, hcount, inBounds, bind, Except.bind]
    exact answerLoopWithin_turns htype hturns

end Cs324.Dns
