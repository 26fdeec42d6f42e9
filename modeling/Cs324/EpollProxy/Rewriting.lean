import Cs324.EpollProxy.RequestParts
import Mathlib.Data.Vector.Defs

namespace Cs324.EpollProxy
set_option autoImplicit true

/-- A request for an absolute URL. `rest` is the version and all that comes after it. -/
structure UrlRequest where
  method : List UInt8
  host : List UInt8
  port : Option (List UInt8)
  path : Option (List UInt8)
  rest : List UInt8

namespace UrlRequest

def hostPort (r : UrlRequest) : List UInt8 :=
  match r.port with
  | some port => r.host ++ 58 :: port
  | none => r.host

/-- The URL after `http://`. -/
def url (r : UrlRequest) : List UInt8 :=
  match r.path with
  | some path => r.hostPort ++ 47 :: path
  | none => r.hostPort

def bytes (r : UrlRequest) : List UInt8 :=
  r.method ++ 32 :: (chars "http://" ++ (r.url ++ 32 :: r.rest))

/-- The delimiters are where they belong, and each part fits the array that is declared for it. -/
structure WellFormed (r : UrlRequest) : Prop where
  method : r.method ≠ []
  host : r.host ≠ []
  plain : 32 ∉ r.method ++ r.url
  colon : 58 ∉ r.host
  slash : 47 ∉ r.hostPort
  text : 0 ∉ r.bytes
  complete : isCompleteRequest r.bytes
  methodFits : r.method.length < maxMethodSize
  urlFits : r.url.length < maxHostSize + maxPortSize
  hostFits : r.host.length < maxHostSize
  portFits : ∀ port ∈ r.port, port.length < maxPortSize
  pathFits : ∀ path ∈ r.path, path.length < maxUriSize

/-- The request that the server is to get. -/
def forServer (r : UrlRequest) : List UInt8 :=
  r.method ++ chars " /" ++ r.path.getD [] ++ chars " HTTP/1.0\r\n" ++
    chars "Host: " ++ r.host ++ chars ":" ++ r.port.getD (chars "80") ++ chars "\r\n" ++
    userAgentHdr ++ connHdr ++ proxyConnHdr ++ chars "\r\n"

section parts
variable {r : UrlRequest}

theorem hostPort_prefix (r : UrlRequest) : r.hostPort <+: r.url := by
  unfold url
  split
  · exact List.prefix_append _ _
  · exact List.prefix_refl _

theorem url_some {path : List UInt8} (hp : r.path = some path) :
    r.url = r.hostPort ++ 47 :: path := by
  rw [url, hp]

theorem hostPort_ne (hhost : r.host ≠ []) : r.hostPort ≠ [] := by
  unfold hostPort
  split
  · exact List.append_ne_nil_of_left_ne_nil hhost _
  · exact hhost

theorem url_ne (hhost : r.host ≠ []) : r.url ≠ [] := by
  intro he
  have hle := r.hostPort_prefix.length_le
  rw [he] at hle
  exact hostPort_ne hhost (List.eq_nil_of_length_eq_zero (Nat.le_zero.1 hle))

theorem splitHost_hostPort (hhost : r.host ≠ []) (hcolon : 58 ∉ r.host) :
    splitHost r.hostPort = (r.host, r.port.getD (chars "80")) := by
  unfold hostPort
  split
  next port hp => rw [hp, splitHost_port hhost hcolon port, Option.getD_some]
  next hp => rw [hp, splitHost_default hcolon, Option.getD_none]

theorem strtokLeft_url (hhost : r.host ≠ []) (hslash : 47 ∉ r.hostPort) :
    strtokLeft r.url 47 = r.hostPort := by
  unfold url
  split
  · exact strtokLeft_append (hostPort_ne hhost) hslash _
  · exact strtokLeft_self (hostPort_ne hhost) hslash

theorem slash_mem (hslash : 47 ∉ r.hostPort) : 47 ∈ r.url ↔ r.path ≠ none := by
  unfold url
  split
  next hp => simp [hp]
  next hp => simpa [hp] using hslash

theorem WellFormed.method_parts (h : r.WellFormed) :
    methodOf r.bytes = r.method ∧ strtokSkips r.bytes 32 = 0 :=
  strtok_replicate h.method (fun hm => h.plain (List.mem_append_left _ hm)) 0 (.inr rfl)

theorem WellFormed.urlText (h : r.WellFormed) : urlText r.bytes = r.url ++ 32 :: r.rest := by
  obtain ⟨hmethod, hskips⟩ := h.method_parts
  have hsplit : r.bytes = (r.method ++ 32 :: chars "http://") ++ (r.url ++ 32 :: r.rest) := by
    simp [bytes]
  rw [EpollProxy.urlText, methodEnd, urlFrom, hmethod, hskips, if_neg (by omega), hsplit]
  apply List.drop_left'
  rw [List.length_append, List.length_cons]
  rfl

theorem WellFormed.url_parts (h : r.WellFormed) :
    urlOf r.bytes = r.url ∧ urlStart r.bytes = r.method.length + 8 := by
  have hurl : 32 ∉ r.url := fun hm => h.plain (List.mem_append_right _ hm)
  have hrest : 32 :: r.rest = [] ∨ (32 :: r.rest).head? = some 32 := .inr rfl
  obtain ⟨htoken, hskips⟩ := strtok_replicate (url_ne h.host) hurl 0 hrest
  rw [List.replicate_zero, List.nil_append, ← h.urlText] at htoken hskips
  exact ⟨htoken, by rw [urlStart, urlFrom, h.method_parts.1, hskips]⟩

theorem WellFormed.hostPortOf (h : r.WellFormed) : hostPortOf r.bytes = r.hostPort := by
  rw [EpollProxy.hostPortOf, h.url_parts.1, strtokLeft_url h.host h.slash]

theorem url_length (r : UrlRequest) :
    r.method.length + 8 + r.url.length + 1 + r.rest.length = r.bytes.length := by
  have hscheme : (chars "http://").length = 7 := rfl
  simp only [bytes, List.length_append, List.length_cons, hscheme]
  omega

theorem WellFormed.path_parts {path : List UInt8} (h : r.WellFormed) (hp : r.path = some path) :
    pathOf r.bytes = path ∧ pathFrom r.bytes ≤ r.bytes.length := by
  have hurl := url_some hp
  have hlength := congrArg List.length hurl
  rw [List.length_append, List.length_cons] at hlength
  have hbytes := r.url_length
  constructor
  · rw [pathOf, h.url_parts.1, h.hostPortOf, if_pos (by omega), hurl, ← List.drop_drop,
      List.drop_left, List.drop_one, List.tail_cons]
  · rw [pathFrom, h.url_parts.2, h.hostPortOf]
    omega

theorem WellFormed.port_lt (h : r.WellFormed) :
    (r.port.getD (chars "80")).length < maxPortSize := by
  cases hp : r.port with
  | some port => exact h.portFits port hp
  | none => decide

theorem WellFormed.targetOf (h : r.WellFormed) (block : List UInt8) : targetOf block r.bytes =
    { method := r.method
      uri := r.path.getD (cstring block)
      host := r.host
      port := r.port.getD (chars "80") } := by
  rw [EpollProxy.targetOf, h.method_parts.1, h.hostPortOf, splitHost_hostPort h.host h.colon,
    h.url_parts.1]
  cases hp : r.path with
  | some path =>
    rw [if_pos ((slash_mem h.slash).2 (by simp [hp])), (h.path_parts hp).1, Option.getD_some]
  | none => rw [if_neg (fun hm => (slash_mem h.slash).1 hm hp), Option.getD_none]

/-- What is left to check. -/
theorem WellFormed.fits_iff (h : r.WellFormed) (block : List UInt8) : Fits sizes block r.bytes ↔
    r.bytes.length < maxObjectSize ∧ r.hostPort.length < maxHostSize ∧
      (r.path = none → 0 ∈ block.take maxUriSize) := by
  obtain ⟨hmethod, _⟩ := h.method_parts
  obtain ⟨hurl, _⟩ := h.url_parts
  constructor
  · intro hf
    refine ⟨hf.whole, h.hostPortOf ▸ hf.hostFits, fun hp => hf.noPath ?_⟩
    rw [hurl, slash_mem h.slash]
    exact not_not.2 hp
  · rintro ⟨hwhole, hhost, hblock⟩
    refine ⟨hwhole, ?_, ?_, ?_, ?_, ?_, ?_, ?_⟩
    · rw [hmethod]
      exact h.methodFits
    · rw [hurl]
      exact url_ne h.host
    · rw [hurl]
      exact h.urlFits
    · rw [h.hostPortOf]
      exact hhost
    · rw [h.hostPortOf, splitHost_hostPort h.host h.colon]
      exact h.port_lt
    · intro hm
      rw [hurl, slash_mem h.slash] at hm
      obtain ⟨path, hp⟩ := Option.ne_none_iff_exists'.1 hm
      obtain ⟨hpath, hinside⟩ := h.path_parts hp
      exact ⟨hinside, hpath ▸ h.pathFits path hp⟩
    · intro hm
      rw [hurl, slash_mem h.slash, not_not] at hm
      exact hblock hm

/-- The request that is built, if `uri` holds this string. -/
theorem request_eq (r : UrlRequest) (uri : List UInt8) :
    Target.request ⟨r.method, uri, r.host, r.port.getD (chars "80")⟩ = r.forServer ↔
      uri = r.path.getD [] := by
  have hline : chars " HTTP/1.0\r\n" = chars " HTTP/1.0" ++ chars "\r\n" := rfl
  simp only [Target.request, forServer, hline, List.append_assoc, List.append_cancel_left_eq]
  simp only [← List.append_assoc, List.append_cancel_right_eq]

theorem WellFormed.forServer_text (h : r.WellFormed) : 0 ∉ r.forServer := by
  have hurl : 0 ∉ r.method ∧ 0 ∉ r.url := by
    have htext := h.text
    simp only [bytes, List.mem_append, List.mem_cons, not_or] at htext
    exact ⟨htext.1, htext.2.2.2.1⟩
  have hhostPort : 0 ∉ r.hostPort := fun hm => hurl.2 (r.hostPort_prefix.subset hm)
  have hhost : 0 ∉ r.host ∧ 0 ∉ r.port.getD (chars "80") := by
    cases hp : r.port with
    | some port => simpa [hostPort, hp] using hhostPort
    | none =>
      rw [hostPort, hp] at hhostPort
      exact ⟨hhostPort, by decide⟩
  have hpath : 0 ∉ r.path.getD [] := by
    cases hp : r.path with
    | some path =>
      rw [url, hp] at hurl
      exact fun hm => hurl.2 (List.mem_append_right _ (List.mem_cons_of_mem _ hm))
    | none => exact List.not_mem_nil
  have hfixed : 0 ∉ chars " /" ∧ 0 ∉ chars " HTTP/1.0\r\n" ∧ 0 ∉ chars "Host: " ∧
      0 ∉ chars ":" ∧ 0 ∉ chars "\r\n" := by
    decide
  have hheaders : 0 ∉ userAgentHdr ∧ 0 ∉ connHdr ∧ 0 ∉ proxyConnHdr := by
    decide +kernel
  simp only [forServer, List.mem_append, not_or, hurl, hhost, hpath, hfixed, hheaders,
    not_false_eq_true, and_self]

end parts

end UrlRequest

/-- The slot holds what the server is to get, and where it is to be sent. -/
structure RewrittenFor (r : UrlRequest) (c : ConnState) : Prop where
  host : c.host = r.host
  port : c.port = r.port.getD (chars "80")
  request : c.serverRequest = r.forServer
  length : c.bytesToWriteServer = r.forServer.length

/-- Exactly when `reformat_client_request` rewrites the request in a slot as it should. -/
theorem request_rewritten_iff {r : UrlRequest} (hr : r.WellFormed) (hc : c.requestString = r.bytes)
    (hempty : c.serverRequest = []) (block : List.Vector UInt8 maxUriSize) :
    (∃ c', reformatClientRequest block.1 c = some c' ∧ RewrittenFor r c') ↔
      r.bytes.length < maxObjectSize ∧ r.hostPort.length < maxHostSize ∧
        (r.path = none → block.1.head? = some 0) := by
  have hcomplete : isCompleteRequest c.requestString := hc ▸ hr.complete
  have hblock : block.1.take maxUriSize = block.1 := List.take_of_length_le block.2.le
  have hfits := hr.fits_iff block.1
  rw [hblock] at hfits
  constructor
  · rintro ⟨c', h, hrewritten⟩
    obtain ⟨hf, rfl⟩ := (reformatClientRequest_eq_some hcomplete hempty block.1).1 h
    rw [hc] at hf
    obtain ⟨hwhole, hhost, hterm⟩ := hfits.1 hf
    refine ⟨hwhole, hhost, fun hp => ?_⟩
    have hrequest := hrewritten.request
    rw [hc, hr.targetOf, r.request_eq, hp] at hrequest
    exact (cstring_eq_nil (hterm hp)).1 hrequest
  · rintro ⟨hwhole, hhost, hhead⟩
    have hterm : r.path = none → 0 ∈ block.1 := fun hp => List.mem_of_head? (hhead hp)
    have huri : r.path.getD (cstring block.1) = r.path.getD [] := by
      cases hp : r.path with
      | some path => rfl
      | none => exact (cstring_eq_nil (hterm hp)).2 (hhead hp)
    have hrequest := (r.request_eq _).2 huri
    refine ⟨_, (reformatClientRequest_eq_some hcomplete hempty block.1).2
      ⟨hc ▸ hfits.2 ⟨hwhole, hhost, hterm⟩, rfl⟩, ?_⟩
    rw [hc, hr.targetOf, hrequest, cstring_eq_self hr.forServer_text]
    exact ⟨rfl, rfl, rfl, rfl⟩

def urlWithPath : UrlRequest where
  method := chars "GET"
  host := chars "a"
  port := none
  path := some (chars "b")
  rest := chars "HTTP/1.1\r\n\r\n"

theorem urlWithPath_wellFormed : urlWithPath.WellFormed := by
  refine ⟨?_, ?_, ?_, ?_, ?_, ?_, ?_, ?_, ?_, ?_, ?_, ?_⟩ <;> decide +kernel

/-- A slot into which this much has been read. -/
def filledWith (request : List UInt8) : ConnState := { initConnState with clientRequest := request }

theorem path_rewritten : urlWithPath.WellFormed ∧
    (filledWith urlWithPath.bytes).serverRequest = [] ∧
    (filledWith urlWithPath.bytes).requestString = urlWithPath.bytes ∧
    ((∃ c', reformatClientRequest (List.Vector.replicate maxUriSize 120).1
        (filledWith urlWithPath.bytes) = some c' ∧ RewrittenFor urlWithPath c') ↔
      urlWithPath.bytes.length < maxObjectSize ∧ urlWithPath.hostPort.length < maxHostSize ∧
        (urlWithPath.path = none →
          (List.Vector.replicate maxUriSize (120 : UInt8)).1.head? = some 0)) := by
  have hrequest : (filledWith urlWithPath.bytes).requestString = urlWithPath.bytes := by
    decide +kernel
  exact ⟨urlWithPath_wellFormed, rfl, hrequest,
    request_rewritten_iff urlWithPath_wellFormed hrequest rfl _⟩

def urlWithoutPath : UrlRequest := { urlWithPath with path := none }

theorem urlWithoutPath_wellFormed : urlWithoutPath.WellFormed := by
  refine ⟨?_, ?_, ?_, ?_, ?_, ?_, ?_, ?_, ?_, ?_, ?_, ?_⟩ <;> decide +kernel

/-- Without a path, `uri` is whatever `malloc` returns. -/
theorem path_invented : urlWithoutPath.WellFormed ∧
    (filledWith urlWithoutPath.bytes).requestString = urlWithoutPath.bytes ∧
    (filledWith urlWithoutPath.bytes).serverRequest = [] ∧
    ¬ ∃ c', reformatClientRequest (120 :: List.replicate (maxUriSize - 1) 0)
      (filledWith urlWithoutPath.bytes) = some c' ∧ RewrittenFor urlWithoutPath c' := by
  have hrequest : (filledWith urlWithoutPath.bytes).requestString = urlWithoutPath.bytes := by
    decide +kernel
  refine ⟨urlWithoutPath_wellFormed, hrequest, rfl, ?_⟩
  rintro ⟨c', h, hrewritten⟩
  have hcomplete : isCompleteRequest (filledWith urlWithoutPath.bytes).requestString :=
    hrequest ▸ urlWithoutPath_wellFormed.complete
  obtain ⟨-, rfl⟩ := (reformatClientRequest_eq_some hcomplete rfl _).1 h
  have hbuilt := hrewritten.request
  rw [hrequest, urlWithoutPath_wellFormed.targetOf, UrlRequest.request_eq] at hbuilt
  have hcons : cstring (120 :: List.replicate (maxUriSize - 1) 0) =
      120 :: cstring (List.replicate (maxUriSize - 1) 0) := rfl
  rw [hcons] at hbuilt
  exact List.cons_ne_nil _ _ hbuilt

end Cs324.EpollProxy
