import Cs324.EpollProxy.Rewriting
import Cs324.ThreadPool.Reading

namespace Cs324.ThreadPool
set_option autoImplicit true
open EpollProxy (ConnState Fits Target checkedParse filledWith hostPortOf isCompleteRequest
  maxUriSize methodOf pathOf splitHost targetOf urlOf)

def sizes : EpollProxy.Sizes where
  tempRequest := tempRequestSize
  method := methodSize
  hostPortStr := hostnameMaxSize + portMaxSize
  hostStr := hostnameMaxSize
  port := portMaxSize
  uri := uriMaxSize

/-- `reformat_client_request` on a complete request, `none` also where bytes are read that are in
`temp_request` but not in the request. -/
def checkedReformat (m : Memory) (request : List UInt8) : Option Reformatted := do
  let t ← checkedParse sizes m.uri.1 request
  let serverReq := cstring m.serverReq.1 ++ t.request
  guard (0 ∈ m.serverReq.1 ∧ serverReq.length < httpRequestMaxSize)
  return { hostname := t.host, port := t.port, serverReq }

section
variable {request : List UInt8}

theorem cstring_drop_terminate {s : List UInt8} (hi : i ≤ s.length) (stale : List UInt8) :
    0 ∈ (s ++ 0 :: stale).drop i ∧ cstring ((s ++ 0 :: stale).drop i) = cstring (s.drop i) := by
  rw [List.drop_append_of_le_length hi]
  exact ⟨List.mem_append_right _ List.mem_cons_self, cstring_terminate _ _⟩

theorem set_terminate {s : List UInt8} (hi : i ≤ s.length) (stale : List UInt8) :
    (s ++ 0 :: stale).set i 0 = s.set i 0 ++ 0 :: stale := by
  rcases hi.lt_or_eq with hlt | rfl
  · exact List.set_append_left i 0 hlt
  · rw [List.set_append_right _ _ le_rfl, Nat.sub_self, List.set_cons_zero,
      List.set_eq_of_length_le le_rfl]

/-- A token that is found from some place on ends inside the string. -/
theorem strtok_drop_le {s : List UInt8}
    (h : strtok (cstring (s.drop i)) delim = some (skipped, token)) :
    i + skipped + token.length ≤ s.length := by
  obtain ⟨hpos, hle⟩ := strtok_some h
  have hlength := cstring_length_le (s.drop i)
  rw [List.length_drop] at hlength
  omega

/-- Without checks of what is read, the same is parsed. -/
theorem checkedParse_parseRequest {m : Memory} (h : checkedParse sizes m.uri.1 request = some t) :
    parseRequest m request = some t := by
  simp only [checkedParse, Option.bind_eq_bind, Option.bind_eq_some_iff, Option.guard_eq_some',
    exists_const] at h
  obtain ⟨hwhole, ⟨skipped, method⟩, hmethod, hmethodFits, ⟨before, url⟩, hurl, hurlFits, hhostFits,
    hportFits, h⟩ := h
  dsimp only at hmethodFits hurl hurlFits hhostFits hportFits h
  have hcut : skipped + method.length ≤ request.length := (strtok_some hmethod).2
  have hend := strtok_drop_le hurl
  have hstart : method.length + 1 + 7 ≤ (request.set (skipped + method.length) 0).length := by
    omega
  obtain ⟨hterm, hread⟩ :=
    cstring_drop_terminate hstart (m.tempRequest.1.drop (request.length + 1))
  rw [← hread] at hurl
  have hwhole' : request.length < tempRequestSize := hwhole
  have hmethodFits' : method.length < methodSize := hmethodFits
  have hurlFits' : url.length < hostnameMaxSize + portMaxSize := hurlFits
  have hhostFits' : (strtokLeft url 47).length < hostnameMaxSize := hhostFits
  have hportFits' : (splitHost (strtokLeft url 47)).2.length < portMaxSize := hportFits
  simp only [parseRequest, hwhole', hmethod, hmethodFits', store_tempRequest, set_terminate hcut,
    hterm, hurl, hurlFits', hhostFits', hportFits', set_terminate hend, Option.bind_eq_bind,
    Option.bind_some, Option.pure_def, guard, ↓reduceIte]
  by_cases hslash : url.contains 47
  · rw [if_pos hslash] at h
    simp only [Option.bind_eq_some_iff, Option.guard_eq_some', exists_const] at h
    obtain ⟨hinside, huriFits, ht⟩ := h
    have hpath : method.length + 1 + 7 + before + (strtokLeft url 47).length + 1 ≤
        ((request.set (skipped + method.length) 0).set
          (method.length + 1 + 7 + before + url.length) 0).length := by
      rw [List.length_set, List.length_set]
      exact hinside
    obtain ⟨huri, hpathRead⟩ :=
      cstring_drop_terminate hpath (m.tempRequest.1.drop (request.length + 1))
    rw [if_pos hslash, hpathRead, if_pos ⟨huri, huriFits⟩]
    exact ht
  · rw [if_neg hslash] at h
    simp only [Option.bind_eq_some_iff, Option.guard_eq_some', exists_const] at h
    obtain ⟨hblock, ht⟩ := h
    have huri : 0 ∈ m.uri.1 := List.mem_of_mem_take hblock
    rw [if_neg hslash, if_pos ⟨huri, (cstring_length_lt huri).trans_eq m.uri.2⟩]
    exact ht

/-- Whatever passes the checks is what the proxy makes of the request. -/
theorem checkedReformat_sound {m : Memory} (hc : isCompleteRequest request)
    (h : checkedReformat m request = some r) : reformatClientRequest m request = .ok (some r) := by
  simp only [checkedReformat, Option.bind_eq_bind, Option.bind_eq_some_iff, Option.guard_eq_some',
    exists_const, Option.pure_def, Option.some.injEq] at h
  obtain ⟨t, ht, ⟨hterm, hroom⟩, rfl⟩ := h
  exact reformatClientRequest_iff.2 ⟨hc, t, checkedParse_parseRequest ht, hterm, hroom, rfl⟩

/-- The parts of a request fit their arrays, and together they fit `server_req` behind the string
that is in it. -/
structure FitsBlocks (m : Memory) (request : List UInt8) : Prop where
  parts : Fits sizes m.uri.1 request
  terminated : 0 ∈ m.serverReq.1
  room : (cstring m.serverReq.1).length + ((methodOf request).length +
    (if 47 ∈ urlOf request then pathOf request else cstring m.uri.1).length +
    (splitHost (hostPortOf request)).1.length + (splitHost (hostPortOf request)).2.length + 154) <
      httpRequestMaxSize

theorem checkedReformat_isSome {m : Memory} (h0 : 0 ∉ request) (hc : isCompleteRequest request) :
    (checkedReformat m request).isSome ↔ FitsBlocks m request := by
  have hparse : ∀ t, checkedParse sizes m.uri.1 request = some t ↔ _ := fun t =>
    EpollProxy.checkedParse_eq_some h0 (EpollProxy.methodOf_ne hc) sizes m.uri.1
  have hlength := (targetOf m.uri.1 request).request_length
  rw [Option.isSome_iff_exists]
  simp only [checkedReformat, Option.bind_eq_bind, Option.bind_eq_some_iff, Option.guard_eq_some',
    exists_const, Option.pure_def, Option.some.injEq, hparse]
  constructor
  · rintro ⟨_, _, ⟨hf, rfl⟩, ⟨hterm, hroom⟩, -⟩
    rw [List.length_append, hlength] at hroom
    exact ⟨hf, hterm, hroom⟩
  · intro hf
    refine ⟨_, _, ⟨hf.parts, rfl⟩, ⟨hf.terminated, ?_⟩, rfl⟩
    rw [List.length_append, hlength]
    exact hf.room

/-- For a request that has been read completely, exactly when each of the proxies stays inside its
arrays and inside the request, and finds all tokens. In the epoll proxy `server_request` is empty by
then (`Staged.unwritten`). -/
theorem overruns_nothing_iff {c : ConnState} (hrequest : c.requestString = request)
    (hc : isCompleteRequest request) (hempty : c.serverRequest = [])
    (block : List.Vector UInt8 maxUriSize) (m : Memory) :
    ((EpollProxy.reformatClientRequest block.1 c).isSome ↔
      Fits EpollProxy.sizes block.1 request) ∧
    ((checkedReformat m request).isSome ↔ FitsBlocks m request) := by
  have h0 : 0 ∉ c.requestString := by
    rw [ConnState.requestString]
    split <;> exact cstring_not_mem _
  subst hrequest
  refine ⟨?_, checkedReformat_isSome h0 hc⟩
  rw [Option.isSome_iff_exists]
  constructor
  · rintro ⟨c', h⟩
    exact ((EpollProxy.reformatClientRequest_eq_some hc hempty block.1).1 h).1
  · intro hf
    exact ⟨_, (EpollProxy.reformatClientRequest_eq_some hc hempty block.1).2 ⟨hf, rfl⟩⟩

/-- A request without a URL. -/
def bareRequest : List UInt8 := chars "GET\r\n\r\n"

theorem bareRequest_string : (filledWith bareRequest).requestString = bareRequest := by
  decide +kernel

theorem bareRequest_complete : isCompleteRequest bareRequest := by
  decide +kernel

/-- A request that fits. -/
def pageRequest : List UInt8 := chars "GET http://a/b HTTP/1.0\r\n\r\n"

theorem overruns_nothing_bare :
    ¬Fits EpollProxy.sizes (List.Vector.replicate maxUriSize 0).1 bareRequest ∧
      ¬FitsBlocks cleared bareRequest ∧
      Fits EpollProxy.sizes (List.Vector.replicate maxUriSize 0).1 pageRequest ∧
      FitsBlocks cleared pageRequest := by
  obtain ⟨hbare, hbare'⟩ := overruns_nothing_iff bareRequest_string bareRequest_complete rfl
    (List.Vector.replicate maxUriSize 0) cleared
  have hstring : (filledWith pageRequest).requestString = pageRequest := by decide +kernel
  obtain ⟨hpage, hpage'⟩ := overruns_nothing_iff hstring (by decide +kernel) rfl
    (List.Vector.replicate maxUriSize 0) cleared
  refine ⟨fun h => absurd (hbare.2 h) ?_, fun h => absurd (hbare'.2 h) ?_, hpage.1 ?_,
    hpage'.1 ?_⟩ <;> decide +kernel

/-- Both proxies copy from the `NULL` that `strtok` returns for the URL. -/
theorem bareRequest_followed : isCompleteRequest bareRequest ∧
    (filledWith bareRequest).requestString = bareRequest ∧
    EpollProxy.reformatClientRequest (List.Vector.replicate maxUriSize 0).1
      (filledWith bareRequest) = none ∧
    checkedReformat cleared bareRequest = none := by
  refine ⟨bareRequest_complete, bareRequest_string, ?_, ?_⟩ <;> decide +kernel

end

end Cs324.ThreadPool
