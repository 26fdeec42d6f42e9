import Cs324.Base.CString
import Cs324.Dns.Message

namespace Cs324.Dns
set_option autoImplicit true

/-- `char` arithmetic on an upper-case letter. -/
def lowerCase (c : UInt8) : UInt8 := if 65 ≤ c ∧ c ≤ 90 then c + 32 else c

def Name.lower (name : Name) : Name := name.map fun label => label.map lowerCase

/-- The labels of a name can be told apart in its text. -/
def Name.Plain (name : Name) : Prop :=
  ∀ label ∈ name, label ≠ [] ∧ 0 ∉ label ∧ 46 ∉ label

/-- The text of a name; the root is a single dot. -/
def Name.text (name : Name) : List UInt8 :=
  if name = [] then [46] else [46].intercalate name

/-- A domain name that has a text and fits a message. -/
structure DomainName where
  labels : Name
  plain : labels.Plain
  sizes : ∀ label ∈ labels, label.length ≤ 63
  fits : (encodeName labels).length ≤ 255

/-- The text of a name, with a trailing dot if `dot` is set. -/
def DomainName.text (name : DomainName) (dot : Bool) : List UInt8 :=
  name.labels.text ++ if dot ∧ name.labels ≠ [] then [46] else []

/-- `Name.text` takes one byte less than the encoding, and the root byte. -/
theorem Name.text_length (h : name ≠ []) :
    (Name.text name).length + 2 = (encodeName name).length := by
  rw [Name.text, if_neg h]
  induction name with
  | nil => exact absurd rfl h
  | cons label name ih =>
    rw [encodeName_cons]
    cases name with
    | nil => simp [encodeName_nil]
    | cons label' name =>
      rw [List.intercalate_cons_cons, List.append_assoc, List.length_append, List.length_append,
        List.length_append, List.length_cons]
      have := ih (List.cons_ne_nil _ _)
      simp only [List.length_cons, List.length_nil]
      omega

theorem Name.Plain.not_mem_text (h : Name.Plain name) : 0 ∉ name.text := by
  rw [Name.text]
  split
  · decide
  · induction name with
    | nil => simp
    | cons label name ih =>
      have hlabel := (h label List.mem_cons_self).2.1
      cases name with
      | nil => simpa using hlabel
      | cons label' name =>
        have hrest := ih (fun l hl => h l (List.mem_cons_of_mem _ hl)) (List.cons_ne_nil _ _)
        rw [List.intercalate_cons_cons]
        simp only [List.mem_append, not_or]
        exact ⟨⟨hlabel, by decide⟩, hrest⟩

/-- The text of a plain name does not end in a dot. -/
theorem Name.Plain.text_last (h : Name.Plain name) (hne : name ≠ []) :
    ∃ init last, name.text = init ++ [last] ∧ last ≠ 46 := by
  rw [Name.text, if_neg hne]
  induction name with
  | nil => exact absurd rfl hne
  | cons label name ih =>
    obtain ⟨hlabel, _, hdot⟩ := h label List.mem_cons_self
    cases name with
    | nil =>
      refine ⟨label.dropLast, label.getLast hlabel, ?_, fun he => hdot ?_⟩
      · rw [List.intercalate_singleton, List.dropLast_append_getLast]
      · exact he ▸ List.getLast_mem hlabel
    | cons label' name =>
      obtain ⟨init, last, he, hlast⟩ :=
        ih (fun l hl => h l (List.mem_cons_of_mem _ hl)) (List.cons_ne_nil _ _)
      refine ⟨label ++ [46] ++ init, last, ?_, hlast⟩
      rw [List.intercalate_cons_cons, he]
      simp

theorem lowerCase_eq_iff (hd : d < 65) : lowerCase c = d ↔ c = d := by
  rw [lowerCase]
  split
  · simp only [UInt8.le_iff_toNat_le, UInt8.lt_iff_toNat_lt, ← UInt8.toNat_inj, UInt8.toNat_add,
      UInt8.reduceToNat] at *
    omega
  · rfl

theorem mem_map_lowerCase {label : List UInt8} (hd : d < 65) :
    d ∈ label.map lowerCase ↔ d ∈ label := by
  simp [lowerCase_eq_iff hd]

theorem Name.Plain.lower (h : Name.Plain name) : name.lower.Plain := by
  intro _ hm
  obtain ⟨label, hl, rfl⟩ := List.mem_map.1 hm
  obtain ⟨hne, h0, hdot⟩ := h label hl
  refine ⟨?_, ?_, ?_⟩
  · simpa using hne
  · rwa [mem_map_lowerCase (by decide)]
  · rwa [mem_map_lowerCase (by decide)]

theorem Name.text_lower (name : Name) : name.lower.text = name.text.map lowerCase := by
  rw [text, text]
  by_cases hne : name = []
  · subst hne
    rfl
  · rw [if_neg hne, if_neg (by simpa [lower] using hne)]
    clear hne
    induction name with
    | nil => rfl
    | cons label name ih =>
      cases name with
      | nil => simp [lower]
      | cons label' name =>
        change [46].intercalate (label.map lowerCase :: label'.map lowerCase :: lower name) = _
        rw [List.intercalate_cons_cons, List.intercalate_cons_cons, List.map_append,
          List.map_append, ← ih]
        rfl

theorem encodeName_lower_length (name : Name) :
    (encodeName name.lower).length = (encodeName name).length := by
  induction name with
  | nil => rfl
  | cons label name ih =>
    change (encodeName (label.map lowerCase :: Name.lower name)).length = _
    simp [encodeName_cons, ih]

end Cs324.Dns
