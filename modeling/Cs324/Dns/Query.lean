import Cs324.Base.Block
import Cs324.Dns.Names
import Cs324.Dns.Resolver

namespace Cs324.Dns
set_option autoImplicit true

/-- `canonicalize_name`, in place. It is `none` where it reads before the name. -/
def canonicalizeName (name : List UInt8) : Option (List UInt8) := do
  if cstring name = chars "." then return name
  let namelen ← strlen name
  let last ← if namelen = 0 then none else name[namelen - 1]?
  let name := if last = 46 then name.set (namelen - 1) 0 else name
  return (name.take namelen).map lowerCase ++ name.drop namelen

/-- The loop of `name_ascii_to_wire` over the labels that `strtok` gives. -/
def storeLabels : List (List UInt8) → Nat → List UInt8 → Option (Nat × List UInt8)
  | [], offset, wire => some (offset, wire)
  | label :: labels, offset, wire => do
    let wire ← storeIn wire offset [UInt8.ofNat label.length]
    let wire ← storeIn wire (offset + 1) label
    storeLabels labels (offset + 1 + label.length) wire

/-- `name_ascii_to_wire`, with the number of bytes and the wire. It is `none` where it writes beyond
`wire` or `tempName`. -/
def nameAsciiToWire (name wire : List UInt8) : Option (Nat × List UInt8) := do
  guard ((← strlen name) < maxSize)
  let (offset, wire) ← storeLabels (tokens (cstring name) 46) headerBytes wire
  let wire ← storeIn wire offset [0]
  return (offset + 1 - headerBytes, wire)

/-- `ntohs` on a little-endian host. -/
def ntohs (x : UInt16) : UInt16 := x <<< 8 ||| x >>> 8

/-- The bytes of an `unsigned short` in memory. -/
def shortBytes (x : UInt16) : List UInt8 := [x.toUInt8, (x >>> 8).toUInt8]

/-- The bytes of an `unsigned int` in memory. -/
def intBytes (x : UInt32) : List UInt8 :=
  [x.toUInt8, (x >>> 8).toUInt8, (x >>> 16).toUInt8, (x >>> 24).toUInt8]

/-- `header`, for a value of `rand`. -/
def queryHeader (rand : Nat) : List UInt8 :=
  shortBytes (ntohs (UInt16.ofNat rand)) ++ shortBytes (ntohs 0x0100) ++ shortBytes (ntohs 1) ++
    shortBytes (ntohs 0) ++ intBytes (ntohs 0).toUInt32

/-- `create_dns_query`, with the length and the wire. -/
def createDnsQuery (rand : Nat) (qname wire : List UInt8) : Option (UInt16 × List UInt8) := do
  let wire ← storeIn wire 0 (queryHeader rand)
  let (questionLen, wire) ← nameAsciiToWire qname wire
  let offset := headerBytes + questionLen
  let wire ← storeIn wire offset (shortBytes (ntohs 1))
  let wire ← storeIn wire (offset + 2) (shortBytes (ntohs 1))
  return (UInt16.ofNat (offset + 4), wire)

/-- The message that `resolve` sends for the name at `qname`. -/
def queryMessage (rand : Nat) (qname wire : List UInt8) : Option (List UInt8) := do
  let name ← canonicalizeName qname
  let (len, wire) ← createDnsQuery rand name wire
  return wire.take len.toNat

/-- The labels of a name that is written out, without the root. -/
def encodeLabels (labels : List (List UInt8)) : List UInt8 :=
  labels.flatMap fun label => UInt8.ofNat label.length :: label

theorem storeLabels_append (hd : done.length = offset)
    (h : (encodeLabels labels).length ≤ rest.length) :
    storeLabels labels offset (done ++ rest) = some (offset + (encodeLabels labels).length,
      done ++ encodeLabels labels ++ rest.drop (encodeLabels labels).length) := by
  induction labels generalizing offset done rest with
  | nil => simp [storeLabels, encodeLabels]
  | cons label labels ih =>
    have hcons : encodeLabels (label :: labels) =
        UInt8.ofNat label.length :: (label ++ encodeLabels labels) := by
      simp [encodeLabels]
    rw [hcons, List.length_cons, List.length_append] at h ⊢
    have hn : storeIn (done ++ rest) offset [UInt8.ofNat label.length] =
        some (done ++ [UInt8.ofNat label.length] ++ rest.drop 1) :=
      storeIn_append hd (by rw [List.length_singleton]; omega)
    have hl : storeIn (done ++ [UInt8.ofNat label.length] ++ rest.drop 1) (offset + 1) label =
        some (done ++ [UInt8.ofNat label.length] ++ label ++ (rest.drop 1).drop label.length) := by
      apply storeIn_append
      · rw [List.length_append, hd, List.length_singleton]
      · rw [List.length_drop]
        omega
    have hlen : (done ++ [UInt8.ofNat label.length] ++ label).length =
        offset + 1 + label.length := by
      simp only [List.length_append, hd, List.length_singleton]
    have hfits : (encodeLabels labels).length ≤ ((rest.drop 1).drop label.length).length := by
      simp only [List.length_drop]
      omega
    have hrest := ih hlen hfits
    have hnext : offset + 1 + label.length + (encodeLabels labels).length =
        offset + (label.length + (encodeLabels labels).length + 1) := by
      omega
    simp only [storeLabels, hn, hl, hrest, Option.bind_eq_bind, Option.bind_some]
    rw [hnext, List.drop_drop, List.drop_drop, Nat.add_comm 1]
    simp only [List.append_assoc, List.cons_append, List.nil_append]

theorem encodeName_eq (name : Name) : encodeName name = encodeLabels name ++ [0] := rfl

theorem tokens_text (h : Name.Plain name) : tokens name.text 46 = name := by
  rw [Name.text]
  split
  · rename_i he
    rw [he]
    exact tokens_none (by decide)
  · exact tokens_intercalate fun label hl => ⟨(h label hl).1, (h label hl).2.2⟩

theorem nameAsciiToWire_text (h : Name.Plain name) (hd : done.length = headerBytes)
    (hname : name.text.length < maxSize) (hfits : (encodeName name).length ≤ rest.length) :
    nameAsciiToWire (name.text ++ 0 :: left) (done ++ rest) =
      some ((encodeName name).length,
        done ++ encodeName name ++ rest.drop (encodeName name).length) := by
  have hc : cstring (name.text ++ 0 :: left) = name.text := by
    rw [cstring_append h.not_mem_text]
    simp [cstring]
  have hlen : (encodeName name).length = (encodeLabels name).length + 1 := by
    rw [encodeName_eq, List.length_append, List.length_singleton]
  have hlabels : storeLabels name headerBytes (done ++ rest) =
      some (headerBytes + (encodeLabels name).length,
        done ++ encodeLabels name ++ rest.drop (encodeLabels name).length) :=
    storeLabels_append hd (by omega)
  have hroot : storeIn (done ++ encodeLabels name ++ rest.drop (encodeLabels name).length)
      (headerBytes + (encodeLabels name).length) [0] =
        some (done ++ encodeLabels name ++ [0] ++
          (rest.drop (encodeLabels name).length).drop 1) := by
    apply storeIn_append
    · rw [List.length_append, hd]
    · rw [List.length_drop, List.length_singleton]
      omega
  simp only [nameAsciiToWire, strlen_append h.not_mem_text, hc, tokens_text h, hlabels, hroot,
    guard, hname, ↓reduceIte, Option.bind_eq_bind, Option.bind_some, Option.pure_def]
  have hcount : headerBytes + (encodeLabels name).length + 1 - headerBytes =
      (encodeLabels name).length + 1 := by
    omega
  rw [hcount, hlen, List.drop_drop, encodeName_eq]
  simp only [List.append_assoc]

theorem queryHeader_length (rand : Nat) : (queryHeader rand).length = headerBytes := rfl

theorem encodeQuestion_length (name : Name) :
    (encodeQuestion name).length = (encodeName name).length + 4 := by
  rw [encodeQuestion, List.length_append]
  rfl

theorem createDnsQuery_text (rand : Nat) (left wire : List UInt8) (h : Name.Plain name)
    (hname : name.text.length < maxSize)
    (hfits : headerBytes + (encodeQuestion name).length ≤ wire.length) :
    createDnsQuery rand (name.text ++ 0 :: left) wire =
      some (UInt16.ofNat (headerBytes + (encodeQuestion name).length),
        queryHeader rand ++ encodeQuestion name ++
          wire.drop (headerBytes + (encodeQuestion name).length)) := by
  rw [encodeQuestion_length] at *
  have hheader : storeIn wire 0 (queryHeader rand) =
      some (queryHeader rand ++ wire.drop headerBytes) :=
    storeIn_front (by rw [queryHeader_length]; omega)
  have hwire : nameAsciiToWire (name.text ++ 0 :: left)
      (queryHeader rand ++ wire.drop headerBytes) = some ((encodeName name).length,
        queryHeader rand ++ encodeName name ++
          (wire.drop headerBytes).drop (encodeName name).length) :=
    nameAsciiToWire_text h (queryHeader_length rand) hname (by rw [List.length_drop]; omega)
  have htype : storeIn (queryHeader rand ++ encodeName name ++
      (wire.drop headerBytes).drop (encodeName name).length)
      (headerBytes + (encodeName name).length) [0, 1] = some (queryHeader rand ++ encodeName name ++
        [0, 1] ++ ((wire.drop headerBytes).drop (encodeName name).length).drop 2) := by
    apply storeIn_append
    · rw [List.length_append, queryHeader_length]
    · simp only [List.length_drop, List.length_cons, List.length_nil]
      omega
  have hclass : storeIn (queryHeader rand ++ encodeName name ++ [0, 1] ++
      ((wire.drop headerBytes).drop (encodeName name).length).drop 2)
      (headerBytes + (encodeName name).length + 2) [0, 1] =
        some (queryHeader rand ++ encodeName name ++ [0, 1] ++ [0, 1] ++
          (((wire.drop headerBytes).drop (encodeName name).length).drop 2).drop 2) := by
    apply storeIn_append
    · rw [List.length_append, List.length_append, queryHeader_length]
      rfl
    · simp only [List.length_drop, List.length_cons, List.length_nil]
      omega
  have hone : shortBytes (ntohs 1) = [0, 1] := by decide
  simp only [createDnsQuery, hheader, hwire, hone, htype, hclass, Option.bind_eq_bind,
    Option.bind_some, Option.pure_def]
  simp only [encodeQuestion, List.drop_drop, List.append_assoc, List.cons_append, List.nil_append,
    Nat.add_assoc, Nat.reduceAdd]

theorem DomainName.text_ne (name : DomainName) (dot : Bool) (h : name.labels ≠ []) :
    name.text dot ≠ [46] ∧ 0 ∉ name.text dot := by
  obtain ⟨init, last, he, hlast⟩ := name.plain.text_last h
  have h0 := name.plain.not_mem_text
  cases dot with
  | false =>
    simp only [text, Bool.false_eq_true, false_and, ↓reduceIte, List.append_nil]
    refine ⟨fun hdot => hlast ?_, h0⟩
    rw [he] at hdot
    have hlen := congrArg List.length hdot
    cases init with
    | nil => simpa using hdot
    | cons => simp at hlen
  | true =>
    simp only [text, true_and, h, ne_eq, not_false_eq_true, ↓reduceIte, he] at h0 ⊢
    constructor
    · intro hdot
      have hlen := congrArg List.length hdot
      simp at hlen
    · simpa using h0

/-- `canonicalize_name` leaves the text of the name in lower case, without the trailing dot. -/
theorem canonicalizeName_text (name : DomainName) (dot : Bool) (rest : List UInt8) :
    ∃ left, canonicalizeName (name.text dot ++ 0 :: rest) =
      some (name.labels.lower.text ++ 0 :: left) := by
  by_cases hne : name.labels = []
  · refine ⟨rest, ?_⟩
    simp [DomainName.text, Name.text, Name.lower, hne, canonicalizeName, cstring, chars]
  · obtain ⟨hdot, h0⟩ := name.text_ne dot hne
    obtain ⟨init, last, he, hlast⟩ := name.plain.text_last hne
    have hc : cstring (name.text dot ++ 0 :: rest) = name.text dot := by
      rw [cstring_append h0]
      simp [cstring]
    cases dot with
    | false =>
      refine ⟨rest, ?_⟩
      have ht : name.text false = init ++ [last] := by
        simp [DomainName.text, he]
      rw [ht] at hdot h0 hc ⊢
      have hlen : strlen (init ++ [last] ++ 0 :: rest) = some (init.length + 1) := by
        rw [strlen_append h0, List.length_append, List.length_singleton]
      have hdot' : ¬init ++ [last] = chars "." := hdot
      simp only [canonicalizeName, hc, hdot', hlen, ↓reduceIte, Option.bind_eq_bind,
        Option.bind_some, Name.text_lower, he]
      simp [hlast, List.take_append, List.take_of_length_le]
    | true =>
      refine ⟨0 :: rest, ?_⟩
      have ht : name.text true = init ++ [last] ++ [46] := by
        simp [DomainName.text, he, hne]
      rw [ht] at hdot h0 hc ⊢
      have hlen : strlen (init ++ [last] ++ [46] ++ 0 :: rest) = some (init.length + 2) := by
        rw [strlen_append h0]
        simp
      have hdot' : ¬init ++ [last] ++ [46] = chars "." := hdot
      simp only [canonicalizeName, hc, hdot', hlen, ↓reduceIte, Option.bind_eq_bind,
        Option.bind_some, Name.text_lower, he]
      simp [List.take_append, List.take_of_length_le, lowerCase]

theorem Name.Plain.text_length_le (h : Name.Plain name) (hfits : (encodeName name).length ≤ 255) :
    name.text.length < maxSize := by
  by_cases hne : name = []
  · subst hne
    decide
  · have := Name.text_length hne
    have : maxSize = 300 := rfl
    omega

theorem queryMessage_text (name : DomainName) (dot : Bool) (rand : Nat) (rest : List UInt8)
    (hw : wire.length = maxSize) : queryMessage rand (name.text dot ++ 0 :: rest) wire =
      some (queryHeader rand ++ encodeQuestion name.labels.lower) := by
  obtain ⟨left, hc⟩ := canonicalizeName_text name dot rest
  have hplain := name.plain.lower
  have hfits := name.fits
  rw [← encodeName_lower_length] at hfits
  have hlen : (queryHeader rand ++ encodeQuestion name.labels.lower).length =
      headerBytes + (encodeQuestion name.labels.lower).length := by
    rw [List.length_append, queryHeader_length]
  have hsize : headerBytes + (encodeQuestion name.labels.lower).length ≤ 271 := by
    rw [encodeQuestion_length]
    have : headerBytes = 12 := rfl
    omega
  have hmax : maxSize = 300 := rfl
  have hq := createDnsQuery_text rand left wire hplain (hplain.text_length_le hfits) (by omega)
  have hshort : (UInt16.ofNat (headerBytes + (encodeQuestion name.labels.lower).length)).toNat =
      (queryHeader rand ++ encodeQuestion name.labels.lower).length := by
    rw [UInt16.toNat_ofNat', hlen]
    omega
  simp only [queryMessage, hc, hq, Option.bind_eq_bind, Option.bind_some, Option.pure_def]
  rw [hshort, List.take_left]

theorem shortBytes_ntohs (x : UInt16) :
    shortBytes (ntohs x) = [(x >>> 8).toUInt8, x.toUInt8] := by
  have hhi : (ntohs x).toUInt8 = (x >>> 8).toUInt8 := by
    apply UInt8.toBitVec_inj.1
    ext i hi
    simp [ntohs]
  have hlo : (ntohs x >>> 8).toUInt8 = x.toUInt8 := by
    apply UInt8.toBitVec_inj.1
    ext i hi
    have hlt : 8 + i < 16 := by omega
    have hout : x.toBitVec.getLsbD (8 + (8 + i)) = false := BitVec.getLsbD_of_ge _ _ (by omega)
    have hge : ¬8 + i < 8 := by omega
    simp [ntohs, hlt, hout, hge, BitVec.getLsbD_eq_getElem (show i < 16 by omega)]
  rw [shortBytes, hhi, hlo]

theorem queryHeader_eq (rand : Nat) :
    queryHeader rand = [(UInt16.ofNat rand >>> 8).toUInt8, (UInt16.ofNat rand).toUInt8,
      1, 0, 0, 1, 0, 0, 0, 0, 0, 0] := by
  rw [queryHeader, shortBytes_ntohs]
  rfl

theorem decodeQuery_query (hs : ∀ label ∈ qname, label ≠ [] ∧ label.length ≤ 63) (rand : Nat) :
    decodeQuery (queryHeader rand ++ encodeQuestion qname) = some {
      id := rand % 65536
      flags := 0x0100
      questions := 1
      answers := 0
      authorities := 0
      additionals := 0
      qname
      qtype := 1
      qclass := 1 } := by
  have hdrop : (queryHeader rand ++ encodeQuestion qname).drop headerBytes =
      encodeName qname ++ [0, 1, 0, 1] := List.drop_left' (queryHeader_length rand)
  have hle : headerBytes ≤ (queryHeader rand ++ encodeQuestion qname).length := by
    rw [List.length_append, queryHeader_length]
    exact Nat.le_add_right _ _
  have hid : field (queryHeader rand ++ encodeQuestion qname) 0 2 = rand % 65536 := by
    simp only [queryHeader_eq, field, List.cons_append, List.drop_zero, List.take_succ_cons,
      List.take_zero, List.foldl_cons, List.foldl_nil]
    simp only [UInt16.toNat_toUInt8, UInt16.toNat_shiftRight, UInt16.toNat_ofNat',
      UInt16.reduceToNat, Nat.shiftRight_eq_div_pow, Nat.reduceMod, Nat.reducePow]
    omega
  simp only [decodeQuery, hdrop, decodeName_encodeName hs, hle, hid, guard, ↓reduceIte,
    Option.bind_eq_bind, Option.bind_some, Option.pure_def, List.length_cons, List.length_nil]
  simp [queryHeader_eq, field]

/-- For every name, in any case and with or without the trailing dot, the query stays in its buffers
and is decoded to the question for the name in lower case. But for the id it depends on nothing
else. -/
theorem query_well_formed (name : DomainName) (dot : Bool) (rand : Nat) (rest : List UInt8)
    (hw : wire.length = maxSize) :
    ∃ msg, queryMessage rand (name.text dot ++ 0 :: rest) wire = some msg ∧
      decodeQuery msg = some {
        id := rand % 65536
        flags := 0x0100
        questions := 1
        answers := 0
        authorities := 0
        additionals := 0
        qname := name.labels.lower
        qtype := 1
        qclass := 1 } ∧
      ∀ (name' : DomainName) (dot' : Bool) (rand' : Nat) (rest' wire' : List UInt8),
        name'.labels.lower = name.labels.lower → wire'.length = maxSize →
          ∃ msg', queryMessage rand' (name'.text dot' ++ 0 :: rest') wire' = some msg' ∧
            msg'.drop 2 = msg.drop 2 := by
  refine ⟨_, queryMessage_text name dot rand rest hw, decodeQuery_query ?_ rand, ?_⟩
  · intro _ hm
    obtain ⟨label, hl, rfl⟩ := List.mem_map.1 hm
    rw [List.length_map, ne_eq, List.map_eq_nil_iff]
    exact ⟨(name.plain label hl).1, name.sizes label hl⟩
  · intro name' dot' rand' rest' wire' he hw'
    refine ⟨_, queryMessage_text name' dot' rand' rest' hw', ?_⟩
    rw [he, queryHeader_eq, queryHeader_eq]
    rfl

def exampleName : DomainName where
  labels := [chars "wWw", chars "Ex"]
  plain := by
    unfold Name.Plain
    decide
  sizes := by decide
  fits := by decide

theorem query_well_formed_example : ∃ msg,
    queryMessage 7 (chars "wWw.Ex." ++ [0]) (List.replicate maxSize 0) = some msg ∧
      decodeQuery msg = some ⟨7, 0x0100, 1, 0, 0, 0, [chars "www", chars "ex"], 1, 1⟩ := by
  have htext : exampleName.text true = chars "wWw.Ex." := by decide
  obtain ⟨msg, hm, hd, _⟩ := query_well_formed exampleName true 7 [] List.length_replicate
  rw [htext] at hm
  exact ⟨msg, hm, hd⟩

end Cs324.Dns
