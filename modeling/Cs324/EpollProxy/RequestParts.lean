import Cs324.EpollProxy.ConnState

namespace Cs324.EpollProxy
set_option autoImplicit true

/-- The sizes of the arrays that the parts of a request are copied to. -/
structure Sizes where
  tempRequest : Nat
  method : Nat
  hostPortStr : Nat
  hostStr : Nat
  port : Nat
  uri : Nat

def sizes : Sizes where
  tempRequest := maxObjectSize
  method := maxMethodSize
  hostPortStr := maxHostSize + maxPortSize
  hostStr := maxHostSize
  port := maxPortSize
  uri := maxUriSize

/-- The first half of `reformat_client_request`, with the sizes that a proxy gives its arrays. It is
`none` where a string does not fit its array, a token is missing, or something is read that is not
in the request. -/
def checkedParse (z : Sizes) (block request : List UInt8) : Option Target := do
  guard (request.length < z.tempRequest)
  let (skipped, method) ← strtok request 32
  guard (method.length < z.method)
  let temp := request.set (skipped + method.length) 0
  let start := method.length + 1 + 7
  let (before, url) ← strtok (cstring (temp.drop start)) 32
  let temp := temp.set (start + before + url.length) 0
  guard (url.length < z.hostPortStr)
  let hostPort := strtokLeft url 47
  guard (hostPort.length < z.hostStr)
  let (host, port) := splitHost hostPort
  guard (port.length < z.port)
  if url.contains 47 then
    let uriStart := start + before + hostPort.length + 1
    guard (uriStart ≤ request.length)
    let uri := cstring (temp.drop uriStart)
    guard (uri.length < z.uri)
    return { method, uri, host, port }
  else
    guard (0 ∈ block.take z.uri)
    return { method, uri := cstring block, host, port }

theorem parseRequest_eq (block request : List UInt8) :
    parseRequest block request = checkedParse sizes block request := rfl

def methodOf (request : List UInt8) : List UInt8 := strtokToken request 32

def methodEnd (request : List UInt8) : Nat := strtokSkips request 32 + (methodOf request).length

/-- Where the URL is looked for: the length of the method, and eight bytes. -/
def urlFrom (request : List UInt8) : Nat := (methodOf request).length + 1 + 7

/-- What is read from there on, up to the end of the request, or of the method if that is not
before. -/
def urlText (request : List UInt8) : List UInt8 :=
  if urlFrom request ≤ methodEnd request then
    (request.take (methodEnd request)).drop (urlFrom request)
  else request.drop (urlFrom request)

def urlOf (request : List UInt8) : List UInt8 := strtokToken (urlText request) 32

def urlStart (request : List UInt8) : Nat := urlFrom request + strtokSkips (urlText request) 32

def hostPortOf (request : List UInt8) : List UInt8 := strtokLeft (urlOf request) 47

def pathFrom (request : List UInt8) : Nat := urlStart request + (hostPortOf request).length + 1

/-- The path of a URL that has a slash. If no slash ends the host, what follows the URL is taken. -/
def pathOf (request : List UInt8) : List UInt8 :=
  if (hostPortOf request).length < (urlOf request).length then
    (urlOf request).drop ((hostPortOf request).length + 1)
  else request.drop (pathFrom request)

def targetOf (block request : List UInt8) : Target where
  method := methodOf request
  uri := if 47 ∈ urlOf request then pathOf request else cstring block
  host := (splitHost (hostPortOf request)).1
  port := (splitHost (hostPortOf request)).2

/-- There is a URL, and all parts of the request are where they are looked for and fit their
arrays. -/
structure Fits (z : Sizes) (block request : List UInt8) : Prop where
  whole : request.length < z.tempRequest
  methodFits : (methodOf request).length < z.method
  url : urlOf request ≠ []
  urlFits : (urlOf request).length < z.hostPortStr
  hostFits : (hostPortOf request).length < z.hostStr
  portFits : (splitHost (hostPortOf request)).2.length < z.port
  path : 47 ∈ urlOf request → pathFrom request ≤ request.length ∧ (pathOf request).length < z.uri
  noPath : 47 ∉ urlOf request → 0 ∈ block.take z.uri

section
variable {request : List UInt8}

theorem cut_method (h0 : 0 ∉ request) :
    cstring ((request.set (methodEnd request) 0).drop (urlFrom request)) = urlText request := by
  have hdrop : 0 ∉ request.drop (urlFrom request) := fun hm => h0 (List.mem_of_mem_drop hm)
  rw [List.drop_set, urlText]
  by_cases hlt : methodEnd request < urlFrom request
  · rw [if_pos hlt, if_neg (by omega), cstring_eq_self hdrop]
  · rw [if_neg hlt, if_pos (by omega), cstring_set hdrop, List.drop_take]

theorem urlText_prefix (request : List UInt8) :
    urlText request <+: request.drop (urlFrom request) := by
  rw [urlText]
  split
  · rw [List.drop_take]
    exact List.take_prefix _ _
  · exact List.prefix_refl _

theorem url_slice (request : List UInt8) :
    ∃ rest, request.drop (urlStart request) = urlOf request ++ rest := by
  obtain ⟨more, hmore⟩ := urlText_prefix request
  obtain ⟨tail, htail⟩ := strtok_split (urlText request) 32
  refine ⟨tail ++ more, ?_⟩
  rw [urlStart, ← List.drop_drop, ← hmore]
  nth_rewrite 2 [htail]
  rw [List.append_assoc, List.drop_append_of_le_length (by simp), List.drop_replicate,
    Nat.sub_self, List.append_assoc]
  rfl

/-- If the URL is looked for inside the method, it is the end of the method. -/
theorem url_end (hurl : urlOf request ≠ []) : methodEnd request < urlFrom request ∨
    methodEnd request = urlStart request + (urlOf request).length := by
  by_cases hlt : methodEnd request < urlFrom request
  · exact .inl hlt
  right
  obtain ⟨tail, htail⟩ := strtok_split request 32
  have htake : request.take (methodEnd request) =
      List.replicate (strtokSkips request 32) 32 ++ methodOf request := by
    have hprefix : List.replicate (strtokSkips request 32) 32 ++ methodOf request <+: request :=
      ⟨tail, by rw [List.append_assoc]; exact htail.symm⟩
    rw [List.prefix_iff_eq_take.1 hprefix, List.length_append, List.length_replicate]
    rfl
  have htext : urlText request = List.replicate (strtokSkips request 32 - urlFrom request) 32 ++
      ((methodOf request).drop (urlFrom request - strtokSkips request 32) ++ []) := by
    rw [urlText, if_pos (by omega), htake, List.drop_append, List.drop_replicate,
      List.length_replicate, List.append_nil]
  have hspace : 32 ∉ (methodOf request).drop (urlFrom request - strtokSkips request 32) :=
    fun hm => not_mem_strtokToken request 32 (List.mem_of_mem_drop hm)
  by_cases hne : (methodOf request).drop (urlFrom request - strtokSkips request 32) = []
  · rw [hne, List.append_nil, List.append_nil] at htext
    rw [urlOf, htext, strtokToken] at hurl
    simp at hurl
  · obtain ⟨htoken, hskips⟩ := strtok_replicate hne hspace
      (strtokSkips request 32 - urlFrom request) (.inl rfl)
    rw [← htext] at htoken hskips
    have hlength := congrArg List.length htoken
    rw [List.length_drop] at hlength
    rw [urlStart, hskips, urlOf, hlength]
    simp only [methodEnd] at hlt ⊢
    have hpos := List.length_pos_iff.2 hne
    rw [List.length_drop] at hpos
    omega

/-- What is left of the path after both cuts. -/
theorem cut_path (h0 : 0 ∉ request) (hurl : urlOf request ≠ []) :
    cstring (((request.set (methodEnd request) 0).set
      (urlStart request + (urlOf request).length) 0).drop (pathFrom request)) = pathOf request := by
  have hdrop : 0 ∉ request.drop (pathFrom request) := fun hm => h0 (List.mem_of_mem_drop hm)
  have hle : (hostPortOf request).length ≤ (urlOf request).length :=
    (strtokLeft_isPrefix _ _).length_le
  have hfrom : urlFrom request ≤ urlStart request := Nat.le_add_right _ _
  have hend := url_end hurl
  obtain ⟨rest, hrest⟩ := url_slice request
  rw [pathOf, List.drop_set, List.drop_set]
  by_cases hlt : (hostPortOf request).length < (urlOf request).length
  · have hcut : (if methodEnd request < pathFrom request then request.drop (pathFrom request)
        else (request.drop (pathFrom request)).set (methodEnd request - pathFrom request) 0).set
          (urlStart request + (urlOf request).length - pathFrom request) 0 =
        (request.drop (pathFrom request)).set
          (urlStart request + (urlOf request).length - pathFrom request) 0 := by
      split
      · rfl
      · rcases hend with hbefore | hbefore
        · rw [pathFrom] at *
          omega
        · rw [hbefore, List.set_set]
    have hslice : request.drop (pathFrom request) =
        (urlOf request).drop ((hostPortOf request).length + 1) ++ rest := by
      rw [pathFrom, Nat.add_assoc, ← List.drop_drop, hrest,
        List.drop_append_of_le_length (by omega)]
    rw [if_pos hlt, if_neg (by rw [pathFrom]; omega), hcut, cstring_set hdrop, hslice]
    apply List.take_left'
    rw [List.length_drop, pathFrom]
    omega
  · rw [if_neg hlt, if_pos (by rw [pathFrom]; omega), if_pos, cstring_eq_self hdrop]
    rw [pathFrom]
    omega

/-- The parse succeeds exactly if everything fits. -/
theorem checkedParse_eq_some (h0 : 0 ∉ request) (hm : methodOf request ≠ []) (z : Sizes)
    (block : List UInt8) : checkedParse z block request = some t ↔
      Fits z block request ∧ t = targetOf block request := by
  have hmethod : strtok request 32 = some (strtokSkips request 32, methodOf request) := by
    rw [strtok_eq]
    exact if_neg hm
  have htext : cstring ((request.set (strtokSkips request 32 + (methodOf request).length) 0).drop
      ((methodOf request).length + 1 + 7)) = urlText request := cut_method h0
  by_cases hurl : urlOf request = []
  · have hnone : strtok (urlText request) 32 = none := by
      rw [strtok_eq]
      exact if_pos hurl
    simp only [checkedParse, hmethod, htext, hnone, Option.bind_eq_bind, Option.bind_some,
      Option.bind_none]
    constructor
    · simp
    · rintro ⟨h, -⟩
      exact absurd hurl h.url
  · have hsome : strtok (urlText request) 32 =
        some (strtokSkips (urlText request) 32, urlOf request) := by
      rw [strtok_eq]
      exact if_neg hurl
    have hpath := cut_path h0 hurl
    rw [urlStart, urlFrom, methodEnd] at hpath
    have hleft : strtokLeft (urlOf request) 47 = hostPortOf request := rfl
    have hstart : (methodOf request).length + 1 + 7 + strtokSkips (urlText request) 32 +
        (hostPortOf request).length + 1 = pathFrom request := rfl
    by_cases hslash : 47 ∈ urlOf request
    · have hcontains : (urlOf request).contains 47 = true := List.contains_iff_mem.2 hslash
      simp only [checkedParse, hmethod, htext, hsome, hcontains, hleft, hstart, hpath,
        Option.bind_eq_bind, Option.bind_some, Option.bind_eq_some_iff, Option.guard_eq_some',
        exists_const, Option.pure_def, Option.some.injEq, ↓reduceIte]
      rw [targetOf, if_pos hslash, eq_comm (a := t)]
      constructor
      · rintro ⟨hwhole, hmethodFits, hurlFits, hhostFits, hportFits, hinside, huriFits, ht⟩
        exact ⟨⟨hwhole, hmethodFits, hurl, hurlFits, hhostFits, hportFits,
          fun _ => ⟨hinside, huriFits⟩, fun hno => absurd hslash hno⟩, ht⟩
      · rintro ⟨⟨hwhole, hmethodFits, _, hurlFits, hhostFits, hportFits, hslashed, _⟩, ht⟩
        exact ⟨hwhole, hmethodFits, hurlFits, hhostFits, hportFits, (hslashed hslash).1,
          (hslashed hslash).2, ht⟩
    · have hcontains : (urlOf request).contains 47 = false := by simpa using hslash
      simp only [checkedParse, hmethod, htext, hsome, hcontains, hleft, Option.bind_eq_bind,
        Option.bind_some, Option.bind_eq_some_iff, Option.guard_eq_some', exists_const,
        Option.pure_def, Option.some.injEq, Bool.false_eq_true, ↓reduceIte]
      rw [targetOf, if_neg hslash, eq_comm (a := t)]
      constructor
      · rintro ⟨hwhole, hmethodFits, hurlFits, hhostFits, hportFits, hterm, ht⟩
        exact ⟨⟨hwhole, hmethodFits, hurl, hurlFits, hhostFits, hportFits,
          fun hyes => absurd hyes hslash, fun _ => hterm⟩, ht⟩
      · rintro ⟨⟨hwhole, hmethodFits, _, hurlFits, hhostFits, hportFits, _, hunset⟩, ht⟩
        exact ⟨hwhole, hmethodFits, hurlFits, hhostFits, hportFits, hunset hslash, ht⟩

theorem methodOf_ne (hc : isCompleteRequest request) : methodOf request ≠ [] := by
  rw [isCompleteRequest, strstr_isSome] at hc
  have hcr : 13 ∈ request := hc.subset (by decide)
  exact strtokToken_ne hcr (by decide)

theorem splitHost_length (hostPort : List UInt8) :
    (splitHost hostPort).1.length ≤ hostPort.length := by
  rw [splitHost]
  split
  · exact (strtokLeft_isPrefix _ _).length_le
  · exact le_rfl

theorem Fits.uri_lt {block : List UInt8} (h : Fits z block request) :
    (targetOf block request).uri.length < z.uri := by
  rw [targetOf]
  by_cases hslash : 47 ∈ urlOf request
  · rw [if_pos hslash]
    exact (h.path hslash).2
  · rw [if_neg hslash]
    have hterm := h.noPath hslash
    rw [cstring_take hterm]
    exact (cstring_length_lt hterm).trans_le (List.length_take_le _ _)

/-- Whatever fits its array also fits the block for the server's request. -/
theorem Fits.room (h : Fits sizes block request) :
    (targetOf block request).request.length < maxObjectSize := by
  have hhost := (splitHost_length (hostPortOf request)).trans_lt h.hostFits
  have huri := h.uri_lt
  have hm := h.methodFits
  have hp := h.portFits
  have hlength := (targetOf block request).request_length
  simp only [targetOf, sizes, maxObjectSize, maxMethodSize, maxUriSize, maxHostSize,
    maxPortSize] at *
  omega

theorem reformatClientRequest_eq_some {c : ConnState} (hc : isCompleteRequest c.requestString)
    (hempty : c.serverRequest = []) (block : List UInt8) :
    reformatClientRequest block c = some c' ↔ Fits sizes block c.requestString ∧ c' = { c with
      host := (targetOf block c.requestString).host
      port := (targetOf block c.requestString).port
      serverRequest := (targetOf block c.requestString).request
      bytesToWriteServer := (cstring (targetOf block c.requestString).request).length } := by
  have h0 : 0 ∉ c.requestString := by
    rw [ConnState.requestString]
    split <;> exact cstring_not_mem _
  have hparse : ∀ t, parseRequest block c.requestString = some t ↔
      Fits sizes block c.requestString ∧ t = targetOf block c.requestString := by
    intro t
    rw [parseRequest_eq]
    exact checkedParse_eq_some h0 (methodOf_ne hc) sizes block
  have hnil : cstring [] = [] := rfl
  constructor
  · intro h
    obtain ⟨t, ht, _, rfl⟩ := reformatClientRequest_some h hc
    obtain ⟨hf, rfl⟩ := (hparse t).1 ht
    rw [hempty, hnil, List.nil_append]
    exact ⟨hf, rfl⟩
  · rintro ⟨hf, rfl⟩
    have ht := (hparse _).2 ⟨hf, rfl⟩
    have hroom := hf.room
    simp only [reformatClientRequest, hc, ↓reduceIte, ht, hempty, hnil, List.nil_append, guard,
      hroom, Option.pure_def, Option.bind_eq_bind, Option.bind_some]

end

end Cs324.EpollProxy
