import Cs324.EpollProxy.Rewriting
import Cs324.Tiny.Answers

namespace Cs324.Tiny
set_option autoImplicit true
open Csapp EpollProxy

section pieces
variable {text rest : List UInt8}

/-- A newline ends a piece whatever comes behind it. -/
theorem readLine_newline (n : Nat) (text rest : List UInt8) :
    (readLine n (text ++ 10 :: rest)).line = (readLine n (text ++ [10])).line ∧
      (readLine n (text ++ 10 :: rest)).rest = (readLine n (text ++ [10])).rest ++ rest := by
  induction text generalizing n with
  | nil =>
    cases n with
    | zero => exact ⟨rfl, rfl⟩
    | succ n => exact ⟨rfl, rfl⟩
  | cons c text ih =>
    cases n with
    | zero => exact ⟨rfl, by simp [readLine]⟩
    | succ n =>
      by_cases hc : c = 10
      · simp [readLine, hc]
      · obtain ⟨hline, hrest⟩ := ih n
        simp only [List.cons_append, readLine, if_neg hc]
        exact ⟨congrArg (c :: ·) hline, hrest⟩

theorem readLine_ne_nil (hn : 0 < n) (hne : text ≠ []) : (readLine n text).line ≠ [] := by
  cases n with
  | zero => cases hn
  | succ n =>
    cases text with
    | nil => exact absurd rfl hne
    | cons c text =>
      by_cases hc : c = 10 <;> simp [readLine, hc]

/-- What is left of a text behind its first piece ends as the text does. -/
theorem readLine_rest_newline (n : Nat) (text : List UInt8) :
    (readLine n (text ++ [10])).rest = [] ∨
      ∃ left, (readLine n (text ++ [10])).rest = left ++ [10] := by
  have hsplit := readLine_append n (text ++ [10])
  rcases List.eq_nil_or_concat (readLine n (text ++ [10])).rest with hnil | ⟨left, c, hrest⟩
  · exact .inl hnil
  · rw [List.concat_eq_append] at hrest
    rw [hrest, ← List.append_assoc] at hsplit
    obtain ⟨-, hc⟩ := List.append_inj' hsplit rfl
    cases hc
    exact .inr ⟨left, hrest⟩

theorem pieces_newline (hn : 0 < n) (text rest : List UInt8) :
    pieces n (text ++ 10 :: rest) = pieces n (text ++ [10]) ++ pieces n rest := by
  induction hlen : text.length using Nat.strong_induction_on generalizing text with
  | _ k ih =>
    obtain ⟨hline, hrest⟩ := readLine_newline n text rest
    have hne := readLine_ne_nil hn (show text ++ [10] ≠ [] by simp)
    rw [pieces_cons (hline ▸ hne), pieces_cons hne, hline, hrest, List.cons_append]
    congr 1
    rcases readLine_rest_newline n text with hnil | ⟨left, hleft⟩
    · have hend : pieces n [] = [] := pieces_nil (by cases n <;> rfl)
      rw [hnil, List.nil_append, hend, List.nil_append]
    · have hshort := congrArg List.length (readLine_append n (text ++ [10]))
      have hpos := List.length_pos_iff.2 hne
      rw [hleft] at hshort ⊢
      simp only [List.length_append, List.length_singleton] at hshort
      rw [List.append_assoc, List.singleton_append]
      exact ih left.length (by omega) left rfl

/-- An empty line behind a line is a piece of its own. -/
theorem crlf_mem_pieces (hn : 2 ≤ n) (text rest : List UInt8) :
    crlf ∈ pieces n (text ++ 10 :: (crlf ++ rest)) := by
  rw [pieces_newline (by omega)]
  apply List.mem_append_right
  obtain ⟨m, rfl⟩ := Nat.exists_eq_add_of_le' hn
  rw [pieces_cons (by simp [crlf, readLine])]
  simp [crlf, readLine]

end pieces

/-- The headers of the request that the proxy builds. -/
def proxyHeaders (r : UrlRequest) : List UInt8 :=
  chars "Host: " ++ r.host ++ chars ":" ++ r.port.getD (chars "80") ++ crlf ++ userAgentHdr ++
    connHdr ++ proxyConnHdr ++ crlf

/-- The client asks for the same with and without the proxy. -/
structure SameTarget (r : UrlRequest) (l : RequestLine) : Prop where
  method : r.method = l.method
  path : r.path.map (47 :: ·) = some l.uri

/-- The line that Tiny gets instead. -/
def RequestLine.proxied (l : RequestLine) : RequestLine := { l with version := chars "HTTP/1.0" }

section proxied
variable {r : UrlRequest} {l : RequestLine}

theorem SameTarget.forServer (h : SameTarget r l) :
    r.forServer = l.proxied.bytes ++ proxyHeaders r := by
  obtain ⟨path, hpath, huri⟩ := Option.map_eq_some_iff.1 h.path
  have hslash : chars " /" = [32, 47] := by decide
  have hversion : chars " HTTP/1.0\r\n" = 32 :: (chars "HTTP/1.0" ++ crlf) := by decide
  have hend : chars "\r\n" = crlf := by decide
  simp [UrlRequest.forServer, RequestLine.bytes, RequestLine.proxied, proxyHeaders, hpath, ← huri,
    h.method, hslash, hversion, hend]

theorem proxyHeaders_blank (r : UrlRequest) : crlf ∈ pieces (MAXLINE - 1) (proxyHeaders r) := by
  have hlast : proxyConnHdr = chars "Proxy-Connection: close\r" ++ [10] := by decide
  have hsplit := crlf_mem_pieces (show 2 ≤ MAXLINE - 1 by decide) (chars "Host: " ++ r.host ++
    chars ":" ++ r.port.getD (chars "80") ++ crlf ++ userAgentHdr ++ connHdr ++
      chars "Proxy-Connection: close\r") []
  simpa [proxyHeaders, hlast] using hsplit

theorem SameTarget.wellFormed (h : SameTarget r l) (hr : r.WellFormed) (hl : l.WellFormed) :
    l.proxied.WellFormed := by
  obtain ⟨path, hpath, huri⟩ := Option.map_eq_some_iff.1 h.path
  have hversion : IsWord l.proxied.version :=
    @isWord_of_all (chars "HTTP/1.0") (by decide) (by decide)
  refine ⟨hl.method, hl.uri, hversion, ?_⟩
  have hmethod := hr.methodFits
  have hfits := hr.pathFits path hpath
  have hlength : (chars "HTTP/1.0").length = 8 := rfl
  simp only [RequestLine.bytes, RequestLine.proxied, ← h.method, ← huri, crlf, List.length_append,
    List.length_cons, List.length_nil, MAXLINE, maxMethodSize, maxUriSize, hlength] at *
  omega

/-- What the proxy sends for a request that fits its arrays. -/
theorem SameTarget.forwarded (h : SameTarget r l) (hr : r.WellFormed)
    (hc : c.requestString = r.bytes) (hempty : c.serverRequest = []) (block : List UInt8)
    (hwhole : r.bytes.length < maxObjectSize) (hhost : r.hostPort.length < maxHostSize) :
    ∃ c', reformatClientRequest block c = some c' ∧
      c'.serverRequest = l.proxied.bytes ++ proxyHeaders r := by
  obtain ⟨path, hpath, -⟩ := Option.map_eq_some_iff.1 h.path
  have hfits := (hr.fits_iff block).2 ⟨hwhole, hhost, fun hp => by rw [hpath] at hp; cases hp⟩
  refine ⟨_, (reformatClientRequest_eq_some (hc ▸ hr.complete) hempty block).2
    ⟨hc ▸ hfits, rfl⟩, ?_⟩
  have huri : r.path.getD (cstring block) = r.path.getD [] := by rw [hpath]; rfl
  rw [hc, hr.targetOf, (r.request_eq _).2 huri, h.forServer]

/-- A request that fits the arrays of the proxy gets the same from Tiny with and without it,
whatever the client's headers are and however the two requests arrive. -/
theorem proxy_transparent (world : World) (h : SameTarget r l) (hr : r.WellFormed)
    (hl : l.WellFormed) (hc : c.requestString = r.bytes) (hempty : c.serverRequest = [])
    (block : List UInt8) (hwhole : r.bytes.length < maxObjectSize)
    (hhost : r.hostPort.length < maxHostSize) :
    ∃ c', reformatClientRequest block c = some c' ∧
      ∀ (stack stack' : Stack) (rp rp' : Rio) (headers : List UInt8), stack.Sized → stack'.Sized →
        rp.Valid → rp'.Valid → rp.source = ⟨c'.serverRequest, false⟩ →
        rp'.source = ⟨l.bytes ++ headers, false⟩ → crlf ∈ pieces (MAXLINE - 1) headers →
        ((∃ passes reply, doit world stack passes rp = some (.ok reply)) ↔
          ∃ passes reply, doit world stack' passes rp' = some (.ok reply)) ∧
        ∀ passes passes' reply reply', doit world stack passes rp = some (.ok reply) →
          doit world stack' passes' rp' = some (.ok reply') → reply = reply' := by
  obtain ⟨c', hc', hsent⟩ := h.forwarded hr hc hempty block hwhole hhost
  refine ⟨c', hc', fun stack stack' rp rp' headers hsized hsized' hv hv' hs hs' hblank => ?_⟩
  have hwf := h.wellFormed hr hl
  have hproxied : rp.source = (⟨proxyHeaders r, false⟩ : Source).push l.proxied.bytes := by
    rw [hs, hsent]
    rfl
  have hdirect : rp'.source = (⟨headers, false⟩ : Source).push l.bytes := hs'
  refine ⟨⟨?_, ?_⟩, fun passes passes' reply reply' hd hd' => ?_⟩
  · rintro ⟨passes, reply, hd⟩
    obtain ⟨hfits, -⟩ := fits_of_doit hsized hv hwf hproxied rfl hd
    obtain ⟨passes', hd'⟩ := doit_of_fits hsized' hv' hl hdirect rfl (fun _ => hblank) hfits
    exact ⟨passes', _, hd'⟩
  · rintro ⟨passes', reply, hd'⟩
    obtain ⟨hfits, -⟩ := fits_of_doit hsized' hv' hl hdirect rfl hd'
    obtain ⟨passes, hd⟩ := doit_of_fits hsized hv hwf hproxied rfl
      (fun _ => proxyHeaders_blank r) hfits
    exact ⟨passes, _, hd⟩
  · obtain ⟨-, rfl⟩ := fits_of_doit hsized hv hwf hproxied rfl hd
    obtain ⟨-, rfl⟩ := fits_of_doit hsized' hv' hl hdirect rfl hd'
    rfl

end proxied

theorem sourceOf_bytewise (text : List UInt8) :
    sourceOf (text.map (Arrival.bytes · [])) = ⟨text, false⟩ := by
  induction text with
  | nil => rfl
  | cons c text ih => rw [List.map_cons, sourceOf, ih]; rfl

/-- A reader that gets its bytes one by one. -/
def bytewise (text : List UInt8) : Rio :=
  rioReadinitb (text.map (Arrival.bytes · [])) (List.replicate RIO_BUFSIZE 0)

theorem bytewise_source (text : List UInt8) : (bytewise text).source = ⟨text, false⟩ := by
  rw [bytewise, rioReadinitb_source, sourceOf_bytewise]

theorem bytewise_valid (text : List UInt8) : (bytewise text).Valid :=
  rioReadinitb_valid _ List.length_replicate

def getHome : UrlRequest := ⟨chars "GET", chars "a", none, some [], chars "HTTP/1.1\r\n\r\n"⟩

theorem getHome_wellFormed : getHome.WellFormed := by
  refine ⟨?_, ?_, ?_, ?_, ?_, ?_, ?_, ?_, ?_, ?_, ?_, ?_⟩ <;> decide +kernel

theorem getHome_proxied : ∃ c' passes passes' reply,
    reformatClientRequest [] (filledWith getHome.bytes) = some c' ∧
      doit onePage unsetStack passes (bytewise c'.serverRequest) = some (.ok reply) ∧
      doit onePage unsetStack passes' (bytewise (getRoot.bytes ++ crlf)) = some (.ok reply) := by
  have hsized : unsetStack.Sized := ⟨List.length_replicate, List.length_replicate,
    List.length_replicate, List.length_replicate, List.length_replicate⟩
  have hblank : crlf ∈ pieces (MAXLINE - 1) crlf := by
    rw [crlf, pieces_cons (by decide)]
    exact List.mem_cons_self
  have hsource : (bytewise (getRoot.bytes ++ crlf)).source =
      (⟨crlf, false⟩ : Source).push getRoot.bytes := bytewise_source _
  obtain ⟨passes', hdirect⟩ := doit_of_fits hsized (bytewise_valid _) getRoot_wellFormed hsource
    rfl (fun _ => hblank) getRoot_fits
  obtain ⟨c', hc', hsame⟩ := proxy_transparent (c := filledWith getHome.bytes) onePage
    (r := getHome) (l := getRoot) ⟨rfl, rfl⟩ getHome_wellFormed getRoot_wellFormed
    (by decide +kernel) rfl [] (by decide) (by decide)
  obtain ⟨hiff, heq⟩ := hsame _ _ _ _ crlf hsized hsized (bytewise_valid _) (bytewise_valid _)
    (bytewise_source _) (bytewise_source _) hblank
  obtain ⟨passes, reply, hproxied⟩ := hiff.2 ⟨passes', _, hdirect⟩
  rw [heq _ _ _ _ hproxied hdirect] at hproxied
  exact ⟨c', passes, passes', _, hc', hproxied, hdirect⟩

end Cs324.Tiny
