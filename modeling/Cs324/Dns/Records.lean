import Cs324.Dns.Answers
import Cs324.Dns.Names
import Mathlib.Data.List.Induction

namespace Cs324.Dns
set_option autoImplicit true

/-- A resource record of any type and class. -/
structure Rr where
  owner : Name
  type : UInt16
  class' : UInt16
  ttl : UInt32
  rdata : List UInt8

/-- The record is encoded at an offset, its owner in so many bytes. -/
structure RrAt (msg : List UInt8) (start : Nat) (r : Rr) (used : Nat) : Prop where
  owner : NameAt msg start r.owner used
  type : field msg (start + used) 2 = r.type.toNat
  class' : field msg (start + used + 2) 2 = r.class'.toNat
  ttl : field msg (start + used + 4) 4 = r.ttl.toNat
  rdataLen : field msg (start + used + 8) 2 = r.rdata.length
  rdata : (msg.drop (start + used + 10)).take r.rdata.length = r.rdata
  fits : start + used + 10 + r.rdata.length ≤ msg.length

/-- `rr_from_wire` gives the record back, and its caller the number of its bytes. -/
def Decodes (wire : List UInt8) (start : Nat) (r : Rr) (used : Nat)
    (nameBlock dataBlock : List UInt8) : Prop :=
  ∃ rr, rrFromWire wire start nameBlock dataBlock = some rr ∧ cstring rr.name = r.owner.text ∧
    rr.type = r.type ∧ rr.class' = r.class' ∧ rr.ttl = r.ttl ∧
    rr.rdataLen.toNat = r.rdata.length ∧ rr.rdata.take r.rdata.length = r.rdata ∧
    resourceRecLen rr = some (used + 10 + r.rdata.length)

/-- The bytes of the owner's encoding, and after them what is in the block for the name, happen to
be the text of the owner: a pointer whose two bytes are the only label of the name it points to, or
the root. -/
def ReadsAsOwner (msg : List UInt8) (start : Nat) (owner : Name) (nameBlock : List UInt8) : Prop :=
  (∃ hi lo, msg[start]? = some hi ∧ msg[start + 1]? = some lo ∧ 192 ≤ hi ∧
    owner = [[hi, if lo = 0 then nameBlock.getD 1 0 else lo]] ∧ nameBlock[2]? = some 0) ∨
  msg[start]? = some 0 ∧ nameBlock[0]? = some 46 ∧ nameBlock[1]? = some 0

/-- The number that a few bytes spell in network order. -/
def bigEndian (bytes : List UInt8) : Nat := bytes.foldl (fun n b => 256 * n + b.toNat) 0

theorem field_eq (msg : List UInt8) (offset count : Nat) :
    field msg offset count = bigEndian ((msg.drop offset).take count) := rfl

/-- Joining bytes with `|` gives their number only if all but the last are zero. -/
theorem orBytes_bigEndian (bytes : List UInt8) (h : bigEndian bytes < 256) :
    (orBytes bytes).toNat = bigEndian bytes := by
  have hzero : ∀ bytes, bigEndian bytes = 0 → orBytes bytes = 0 := by
    intro bytes
    induction bytes using List.reverseRecOn with
    | nil => exact fun _ => rfl
    | append_singleton bytes b ih =>
      intro h
      simp only [bigEndian, orBytes, List.foldl_append, List.foldl_cons, List.foldl_nil] at h ih ⊢
      have hb : b = 0 := by
        rw [← UInt8.toNat_inj, UInt8.toNat_zero]
        omega
      rw [ih (by omega), hb]
      rfl
  induction bytes using List.reverseRecOn with
  | nil => rfl
  | append_singleton bytes b _ =>
    have hinit := hzero bytes
    simp only [bigEndian, orBytes, List.foldl_append, List.foldl_cons, List.foldl_nil] at h hinit ⊢
    rw [hinit (by omega), UInt8.zero_or]
    omega

theorem orBytes_iff (bytes : List UInt8) :
    (orBytes bytes).toNat = bigEndian bytes ↔ bigEndian bytes < 256 :=
  ⟨fun h => h ▸ (orBytes bytes).toNat_lt, orBytes_bigEndian bytes⟩

theorem short_iff {v : UInt16} (h : field msg offset count = v.toNat) :
    (orBytes ((msg.drop offset).take count)).toUInt16 = v ↔ v < 256 := by
  rw [field_eq] at h
  rw [← UInt16.toNat_inj, UInt8.toNat_toUInt16, UInt16.lt_iff_toNat_lt, ← h]
  exact orBytes_iff _

theorem int_iff {v : UInt32} (h : field msg offset count = v.toNat) :
    (orBytes ((msg.drop offset).take count)).toUInt32 = v ↔ v < 256 := by
  rw [field_eq] at h
  rw [← UInt32.toNat_inj, UInt8.toNat_toUInt32, UInt32.lt_iff_toNat_lt, ← h]
  exact orBytes_iff _

theorem NameAt.used_root (h : NameAt msg start name used) (hb : msg[start]? = some 0) :
    used = 1 ∧ name = [] := by
  cases h with
  | root => exact ⟨rfl, rfl⟩
  | label hn hpos =>
    cases hb.symm.trans hn
    exact absurd hpos (by decide)
  | pointer hhi _ hp =>
    cases hb.symm.trans hhi
    exact absurd hp (by decide)

theorem NameAt.used_pointer (h : NameAt msg start name used) (hb : msg[start]? = some hi)
    (hp : 192 ≤ hi) : used = 2 := by
  cases h with
  | root h =>
    cases hb.symm.trans h
    exact absurd hp (by decide)
  | label hn hpos hle =>
    cases hb.symm.trans hn
    exact absurd (UInt8.le_trans hp hle) (by decide)
  | pointer => rfl

theorem Name.Plain.text_two (h : Name.Plain name) (hlen : name.text.length = 2) :
    ∃ a b, name = [[a, b]] := by
  have hne : name ≠ [] := by
    rintro rfl
    cases hlen
  have hwire := Name.text_length hne
  match name with
  | [label] =>
    rw [Name.text, if_neg hne, List.intercalate_singleton, List.length_eq_two] at hlen
    obtain ⟨a, b, rfl⟩ := hlen
    exact ⟨a, b, rfl⟩
  | label :: label' :: name =>
    have hl := List.length_pos_iff.2 (h label List.mem_cons_self).1
    have hl' := List.length_pos_iff.2 (h label' (List.mem_cons_of_mem _ List.mem_cons_self)).1
    have hroot : 1 ≤ (encodeName name).length := by simp [encodeName]
    simp only [encodeName_cons, List.length_cons, List.length_append] at hwire
    omega

/-- A name that begins with a label does not read as its own text: its encoding begins with the
length of the label, so each byte of the label would equal the one before it, up to the dot that
follows the label in the text. -/
theorem label_ne_text (hp : Name.Plain (label :: name)) :
    ¬(n :: label) <+: Name.text (label :: name) := by
  intro h
  obtain ⟨hne, _, hdot⟩ := hp label List.mem_cons_self
  rw [Name.text, if_neg (List.cons_ne_nil _ _)] at h
  cases name with
  | nil =>
    rw [List.intercalate_singleton] at h
    have := h.length_le
    rw [List.length_cons] at this
    omega
  | cons label' name =>
    rw [List.intercalate_cons_cons] at h
    have heq : n :: label = label ++ [46] := by
      apply (List.prefix_of_prefix_length_le h (List.prefix_append _ _) _).eq_of_length
      · simp
      · simp
    have hlast : (n :: label).getLast (List.cons_ne_nil _ _) = 46 := by simp [heq]
    rw [List.getLast_cons hne] at hlast
    exact hdot (hlast ▸ List.getLast_mem hne)

/-- The name that `name_ascii_from_wire` gives ends with what was in its block after the bytes up to
the next zero. -/
theorem nameAsciiFromWire_read (h : nameAsciiFromWire wire start block = some name)
    (hs : strlen name = some used) : ∃ tail left,
      block.drop (cstring (wire.drop start)).length = tail ++ 0 :: left ∧
        cstring name = cstring (wire.drop start) ++ tail := by
  rw [nameAsciiFromWire] at h
  split at h
  · cases h
    have hraw := cstring_not_mem (wire.drop start)
    have h0 := (strlen_eq_some.1 hs).1
    rw [fill, List.mem_append] at h0
    obtain ⟨left, he⟩ := cstring_terminated (h0.resolve_left hraw)
    exact ⟨_, left, he, by rw [fill, cstring_append hraw]⟩
  · cases h

theorem drop_eq_cons (h : msg[start]? = some b) (hw : msg <+: wire) :
    ∃ rest, wire.drop start = b :: rest ∧ msg.drop (start + 1) <+: rest := by
  obtain ⟨rest, rfl⟩ := hw
  obtain ⟨hlt, rfl⟩ := List.getElem?_eq_some_iff.1 h
  refine ⟨msg.drop (start + 1) ++ rest, ?_, List.prefix_append _ _⟩
  rw [List.drop_append_of_le_length (by omega), List.drop_eq_getElem_cons hlt]
  rfl

theorem drop_eq_cons_cons (ha : msg[start]? = some a) (hb : msg[start + 1]? = some b)
    (hw : msg <+: wire) :
    ∃ rest, wire.drop start = a :: b :: rest ∧ msg.drop (start + 2) <+: rest := by
  obtain ⟨rest, hdrop, hrest⟩ := drop_eq_cons ha hw
  obtain ⟨left, hdrop', hleft⟩ := drop_eq_cons hb (List.prefix_refl msg)
  rw [hdrop'] at hrest
  obtain ⟨rest, rfl⟩ := hrest
  exact ⟨left ++ rest, hdrop, hleft.trans (List.prefix_append _ _)⟩

theorem text_single (label : List UInt8) : Name.text [label] = label := by
  simp [Name.text]

/-- An owner that is read as it was encoded is one of the two that read as their own text. -/
theorem readsAsOwner_of_read (h : NameAt msg start owner used) (hp : owner.Plain)
    (hw : msg <+: wire) (hn : nameAsciiFromWire wire start block = some name)
    (hs : strlen name = some used) (ht : cstring name = owner.text) :
    ReadsAsOwner msg start owner block := by
  obtain ⟨tail, left, hblock, hname⟩ := nameAsciiFromWire_read hn hs
  have hlen := (strlen_eq_some.1 hs).2
  rw [ht] at hname hlen
  cases h with
  | root hb =>
    obtain ⟨rest, hdrop, _⟩ := drop_eq_cons hb hw
    rw [hdrop] at hname hblock
    have htail : tail = [46] := hname.symm
    subst htail
    have hblock : block = [46] ++ 0 :: left := hblock
    right
    rw [hblock]
    exact ⟨hb, rfl, rfl⟩
  | @label _ n label name bytes hb hpos hle hl hlab h =>
    obtain ⟨rest, hdrop, hrest⟩ := drop_eq_cons hb hw
    obtain ⟨rest, rfl⟩ := (hl ▸ List.take_prefix _ _ : label <+: _).trans hrest
    have h0 : 0 ∉ n :: label := by
      rw [List.mem_cons, not_or]
      refine ⟨?_, (hp label List.mem_cons_self).2.1⟩
      rintro rfl
      exact absurd hpos (by decide)
    rw [hdrop, ← List.cons_append, cstring_append h0, List.append_assoc] at hname
    exact absurd (hname ▸ List.prefix_append _ _) (label_ne_text hp)
  | @pointer _ hi lo _ _ _ hhi hlo h192 =>
    left
    obtain ⟨a, b, rfl⟩ := hp.text_two hlen
    obtain ⟨rest, hdrop, _⟩ := drop_eq_cons_cons hhi hlo hw
    have hne : hi ≠ 0 := by
      rintro rfl
      exact absurd h192 (by decide)
    rw [text_single, hdrop] at hname
    rw [hdrop] at hblock
    refine ⟨hi, lo, hhi, hlo, h192, ?_⟩
    by_cases hl : lo = 0
    · subst hl
      have hraw : cstring (hi :: 0 :: rest) = [hi] := by simp [cstring, hne]
      rw [hraw] at hname hblock
      simp only [List.cons_append, List.cons.injEq, List.nil_append] at hname
      obtain ⟨rfl, rfl⟩ := hname
      have h1 := congrArg List.head? hblock
      have h2 := congrArg (List.head? ∘ List.tail) hblock
      simp only [List.length_singleton, Function.comp, List.tail_drop, List.head?_drop] at h1 h2
      rw [if_pos rfl, List.getD_eq_getElem?_getD, h1]
      exact ⟨rfl, h2⟩
    · have hraw : cstring (hi :: lo :: rest) = hi :: lo :: cstring rest := by
        simp [cstring, hne, hl]
      rw [hraw] at hname hblock
      simp only [List.cons_append, List.cons.injEq, List.nil_eq, List.append_eq_nil_iff] at hname
      obtain ⟨rfl, rfl, hnil, rfl⟩ := hname
      rw [hnil] at hblock
      have h2 := congrArg List.head? hblock
      rw [List.head?_drop] at h2
      rw [if_neg hl]
      exact ⟨rfl, h2⟩

theorem nameAsciiFromWire_fill (raw tail : List UInt8) (hraw : cstring (wire.drop start) = raw)
    (h0 : 0 ∈ wire.drop start) (hblock : block.drop raw.length = tail ++ 0 :: left)
    (htail : 0 ∉ tail) :
    ∃ name, nameAsciiFromWire wire start block = some name ∧
      strlen name = some (raw.length + tail.length) ∧ cstring name = raw ++ tail := by
  have hn : 0 ∉ raw ++ tail := by
    rw [List.mem_append, not_or]
    exact ⟨hraw ▸ cstring_not_mem _, htail⟩
  refine ⟨_, if_pos h0, ?_, ?_⟩
  · rw [hraw, fill, hblock, ← List.append_assoc, strlen_append hn, List.length_append]
  · rw [hraw, fill, hblock, ← List.append_assoc, cstring_append hn]
    simp [cstring]

theorem read_of_readsAsOwner (h : NameAt msg start owner used) (hp : owner.Plain)
    (hw : msg <+: wire) (hz : msg[start + used]? = some 0)
    (ho : ReadsAsOwner msg start owner block) :
    ∃ name, nameAsciiFromWire wire start block = some name ∧ strlen name = some used ∧
      cstring name = owner.text := by
  rcases ho with ⟨hi, lo, hhi, hlo, h192, rfl, h2⟩ | ⟨hb, h0, h1⟩
  · cases h.used_pointer hhi h192
    obtain ⟨rest, hdrop, hrest⟩ := drop_eq_cons_cons hhi hlo hw
    obtain ⟨after, hdrop', _⟩ := drop_eq_cons hz (List.prefix_refl _)
    rw [hdrop'] at hrest
    obtain ⟨rest, rfl⟩ := hrest
    have hne : hi ≠ 0 := by
      rintro rfl
      exact absurd h192 (by decide)
    have hmem : 0 ∈ wire.drop start := by simp [hdrop]
    obtain ⟨left, hblock, _⟩ := drop_eq_cons h2 (List.prefix_refl _)
    have hlast := (hp _ List.mem_cons_self).2.1
    rw [text_single]
    by_cases hl : lo = 0
    · subst hl
      rw [if_pos rfl] at hlast ⊢
      have hb : block[1]? = some (block.getD 1 0) := by
        have hlt := (List.getElem?_eq_some_iff.1 h2).1
        rw [List.getD_eq_getElem?_getD, List.getElem?_eq_getElem (by omega), Option.getD_some]
      obtain ⟨left', hblock', _⟩ := drop_eq_cons_cons hb h2 (List.prefix_refl _)
      have hraw : cstring (wire.drop start) = [hi] := by simp [hdrop, cstring, hne]
      have htail : 0 ∉ [block.getD 1 0] := fun hm => hlast (List.mem_cons_of_mem _ hm)
      exact nameAsciiFromWire_fill [hi] [block.getD 1 0] hraw hmem hblock' htail
    · rw [if_neg hl]
      have hraw : cstring (wire.drop start) = [hi, lo] := by simp [hdrop, cstring, hne, hl]
      exact nameAsciiFromWire_fill [hi, lo] [] hraw hmem hblock List.not_mem_nil
  · obtain ⟨rfl, rfl⟩ := h.used_root hb
    obtain ⟨rest, hdrop, _⟩ := drop_eq_cons hb hw
    obtain ⟨left, hblock, _⟩ := drop_eq_cons_cons h0 h1 (List.prefix_refl _)
    have hraw : cstring (wire.drop start) = [] := by simp [hdrop, cstring]
    exact nameAsciiFromWire_fill [] [46] hraw (by simp [hdrop]) hblock (by decide)

theorem high_byte_zero (h : field msg offset 2 < 256) (hfits : offset + 2 ≤ msg.length) :
    msg[offset]? = some 0 := by
  have h0 : msg[offset]? = some msg[offset] := List.getElem?_eq_getElem (by omega)
  have h1 : msg[offset + 1]? = some msg[offset + 1] := List.getElem?_eq_getElem (by omega)
  obtain ⟨rest, hdrop, _⟩ := drop_eq_cons_cons h0 h1 (List.prefix_refl _)
  have hb : msg[offset] = 0 := by
    rw [← UInt8.toNat_inj, UInt8.toNat_zero]
    simp only [field, hdrop, List.take_succ_cons, List.take_zero, List.foldl_cons,
      List.foldl_nil] at h
    omega
  rw [h0, hb]

/-- Whatever record is placed in a message, and whatever is in the blocks from `malloc`, it is given
back exactly when its owner reads as its own text and all its numbers fit a byte. -/
theorem record_decoded_iff (h : RrAt msg start r used) (hp : r.owner.Plain) (hw : msg <+: wire) :
    Decodes wire start r used nameBlock dataBlock ↔
      ReadsAsOwner msg start r.owner nameBlock ∧ r.type < 256 ∧ r.class' < 256 ∧ r.ttl < 256 ∧
        r.rdata.length < 256 := by
  have hfits := h.fits
  have htype : bytesAt wire (start + used) 2 = some ((msg.drop (start + used)).take 2) :=
    bytesAt_received hw (by omega)
  have hclass : bytesAt wire (start + used + 2) 2 = some ((msg.drop (start + used + 2)).take 2) :=
    bytesAt_received hw (by omega)
  have httl : bytesAt wire (start + used + 4) 4 = some ((msg.drop (start + used + 4)).take 4) :=
    bytesAt_received hw (by omega)
  have hlen : bytesAt wire (start + used + 8) 2 = some ((msg.drop (start + used + 8)).take 2) :=
    bytesAt_received hw (by omega)
  have hlen' := h.rdataLen
  constructor
  · rintro ⟨rr, hr, hname, ht, hc, hl, hn, -, hcount⟩
    simp only [rrFromWire, Option.bind_eq_bind, Option.bind_eq_some_iff, Option.pure_def,
      Option.some.injEq] at hr
    obtain ⟨name, hread, n, hs, type, hbt, cls, hbc, ttl, hbl, len, hbn, data, -, rfl⟩ := hr
    simp only [resourceRecLen, hs, hn, Option.bind_eq_bind, Option.bind_some, Option.pure_def,
      Option.some.injEq] at hcount
    obtain rfl : n = used := by omega
    cases htype.symm.trans hbt
    cases hclass.symm.trans hbc
    cases httl.symm.trans hbl
    cases hlen.symm.trans hbn
    refine ⟨readsAsOwner_of_read h.owner hp hw hread hs hname, (short_iff h.type).1 ht,
      (short_iff h.class').1 hc, (int_iff h.ttl).1 hl, ?_⟩
    rw [← hn, UInt8.toNat_toUInt16]
    exact UInt8.toNat_lt _
  · rintro ⟨ho, ht, hc, hl, hn⟩
    have hz : msg[start + used]? = some 0 := by
      apply high_byte_zero _ (by omega)
      rw [h.type]
      exact UInt16.lt_iff_toNat_lt.1 ht
    obtain ⟨name, hread, hs, hname⟩ := read_of_readsAsOwner h.owner hp hw hz ho
    have hor : (orBytes ((msg.drop (start + used + 8)).take 2)).toNat = r.rdata.length := by
      rw [← hlen', field_eq] at hn ⊢
      exact orBytes_bigEndian _ hn
    have hdata : bytesAt wire (start + used + 10)
        (orBytes ((msg.drop (start + used + 8)).take 2)).toNat = some r.rdata := by
      rw [hor, bytesAt_received hw (by omega), h.rdata]
    refine ⟨_, by simp only [rrFromWire, hread, hs, htype, hclass, httl, hlen, hdata,
      Option.bind_eq_bind, Option.bind_some, Option.pure_def]; rfl, hname, (short_iff h.type).2 ht,
      (short_iff h.class').2 hc, (int_iff h.ttl).2 hl, ?_, ?_, ?_⟩
    · rw [UInt8.toNat_toUInt16, hor]
    · exact List.take_left
    · simp only [resourceRecLen, hs, UInt8.toNat_toUInt16, hor, Option.bind_eq_bind,
        Option.bind_some, Option.pure_def]

/-- A response for the name whose only label is the pointer to it. -/
def ownPointer : List UInt8 :=
  [0x12, 0x34, 0x81, 0x80, 0, 1, 0, 1, 0, 0, 0, 0] ++ encodeQuestion [[0xC0, 12]] ++
    [0xC0, 12, 0, 1, 0, 1, 0, 0, 0, 60, 0, 4, 127, 0, 0, 1]

theorem record_decoded_own_pointer : Decodes ownPointer 20
    ⟨[[0xC0, 12]], 1, 1, 60, [127, 0, 0, 1]⟩ 2 (List.replicate 300 0) (List.replicate 300 0) := by
  have hname : NameAt ownPointer 12 [[0xC0, 12]] 4 :=
    .label (n := 2) rfl (by decide) (by decide) rfl rfl (.root rfl)
  have howner : NameAt ownPointer 20 [[0xC0, 12]] 2 :=
    .pointer rfl rfl (by decide) rfl (by decide) hname
  have hplain : Name.Plain [[0xC0, 12]] := by
    unfold Name.Plain
    decide
  apply (record_decoded_iff ⟨howner, rfl, rfl, rfl, rfl, rfl, by decide⟩ hplain
    (List.prefix_refl _)).2
  exact ⟨.inl ⟨0xC0, 12, rfl, rfl, by decide, rfl, rfl⟩, by decide, by decide, by decide, by decide⟩

/-- A pointer to the name `a` is given back as its own two bytes. -/
theorem record_not_decoded : RrAt (responseTo [0xC0, 12]) 19 ⟨[[97]], 1, 1, 60, [127, 0, 0, 1]⟩ 2 ∧
    ∀ nameBlock dataBlock, ¬Decodes (responseTo [0xC0, 12]) 19
      ⟨[[97]], 1, 1, 60, [127, 0, 0, 1]⟩ 2 nameBlock dataBlock := by
  have hname : NameAt (responseTo [0xC0, 12]) 12 [[97]] 3 :=
    .label (n := 1) rfl (by decide) (by decide) rfl rfl (.root rfl)
  have howner : NameAt (responseTo [0xC0, 12]) 19 [[97]] 2 :=
    .pointer rfl rfl (by decide) rfl (by decide) hname
  refine ⟨⟨howner, rfl, rfl, rfl, rfl, rfl, by decide⟩, ?_⟩
  rintro nameBlock dataBlock ⟨rr, hr, hname, _⟩
  simp only [rrFromWire, Option.bind_eq_bind, Option.bind_eq_some_iff, Option.pure_def,
    Option.some.injEq] at hr
  obtain ⟨name, hread, _, hs, _, _, _, _, _, _, _, _, _, _, rfl⟩ := hr
  obtain ⟨tail, _, _, he⟩ := nameAsciiFromWire_read hread hs
  have hraw : cstring ((responseTo [0xC0, 12]).drop 19) = [0xC0, 12] := by decide
  rw [hname, hraw] at he
  cases he

end Cs324.Dns
