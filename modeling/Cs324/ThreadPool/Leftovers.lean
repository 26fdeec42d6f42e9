import Cs324.EpollProxy.Rewriting
import Cs324.ThreadPool.Reading

namespace Cs324.ThreadPool
set_option autoImplicit true
open EpollProxy (UrlRequest maxObjectSize blankLine isCompleteRequest Target splitHost)

/-- A request with an absolute URL. `rest` is what comes after the space behind the URL. -/
structure Request where
  method : List UInt8
  host : List UInt8
  port : Option (List UInt8)
  path : Option (List UInt8)
  rest : List UInt8

def Request.hostPort (l : Request) : List UInt8 :=
  match l.port with
  | some port => l.host ++ 58 :: port
  | none => l.host

/-- The URL after `http://`. -/
def Request.url (l : Request) : List UInt8 :=
  match l.path with
  | some path => l.hostPort ++ 47 :: path
  | none => l.hostPort

def Request.target (l : Request) : List UInt8 :=
  l.method ++ 32 :: (chars "http://" ++ (l.url ++ [32]))

def Request.bytes (l : Request) : List UInt8 := l.target ++ l.rest

/-- The delimiters are where they belong, and the header ends with a blank line. There is no `NUL`,
also not behind that line: it is a request without a body. -/
structure Request.WellFormed (l : Request) : Prop where
  method : l.method ≠ []
  host : l.host ≠ []
  plain : ∀ c ∈ l.method ++ l.url, c ≠ 0 ∧ c ≠ 13 ∧ c ≠ 32
  colon : 58 ∉ l.host
  slash : 47 ∉ l.hostPort
  text : 0 ∉ l.rest
  complete : blankLine <:+: l.bytes
  short : l.bytes.length < 500

/-- The parts that `reformat_client_request` copies. Without a path, it does not set `uri`. -/
def Request.parsed (l : Request) (m : Memory) : Target where
  method := l.method
  uri := l.path.getD (cstring m.uri.1)
  host := l.host
  port := l.port.getD (chars "80")

/-- The same request, for the parser of the other proxy. -/
def Request.urlRequest (l : Request) : UrlRequest where
  method := l.method
  host := l.host
  port := l.port
  path := l.path
  rest := l.rest

section
variable {l : Request}

theorem Request.WellFormed.not_mem_method (h : l.WellFormed) : 32 ∉ l.method :=
  fun hm => (h.plain 32 (List.mem_append_left _ hm)).2.2 rfl

theorem Request.WellFormed.not_mem_url (h : l.WellFormed) : 0 ∉ l.url ∧ 32 ∉ l.url :=
  ⟨fun hm => (h.plain 0 (List.mem_append_right _ hm)).1 rfl,
    fun hm => (h.plain 32 (List.mem_append_right _ hm)).2.2 rfl⟩

theorem Request.WellFormed.url_ne (h : l.WellFormed) : l.url ≠ [] :=
  UrlRequest.url_ne (r := l.urlRequest) h.host

theorem Request.hostPort_prefix (l : Request) : l.hostPort <+: l.url :=
  l.urlRequest.hostPort_prefix

theorem Request.WellFormed.splitHost (h : l.WellFormed) :
    splitHost l.hostPort = (l.host, l.port.getD (chars "80")) :=
  UrlRequest.splitHost_hostPort (r := l.urlRequest) h.host h.colon

theorem Request.WellFormed.hostPort_left (h : l.WellFormed) : strtokLeft l.url 47 = l.hostPort :=
  UrlRequest.strtokLeft_url (r := l.urlRequest) h.host h.slash

theorem Request.WellFormed.contains_slash (h : l.WellFormed) :
    l.url.contains 47 = l.path.isSome := by
  have hslash : 47 ∈ l.url ↔ l.path ≠ none := UrlRequest.slash_mem (r := l.urlRequest) h.slash
  rw [Bool.eq_iff_iff, List.contains_iff_mem, hslash, Option.isSome_iff_ne_none]

theorem Request.url_some {path : List UInt8} (hp : l.path = some path) :
    l.url = l.hostPort ++ 47 :: path :=
  UrlRequest.url_some (r := l.urlRequest) hp

theorem Request.path_le {path : List UInt8} (hp : l.path = some path) :
    path.length ≤ l.url.length := by
  rw [Request.url_some hp, List.length_append, List.length_cons]
  omega

theorem Request.WellFormed.not_mem_path {path : List UInt8} (h : l.WellFormed)
    (hp : l.path = some path) : 0 ∉ path := by
  intro hm
  apply h.not_mem_url.1
  rw [Request.url_some hp]
  exact List.mem_append_right _ (List.mem_cons_of_mem _ hm)

/-- Where the path would start, the URL is read up to where it was cut off. -/
theorem path_read {path : List UInt8} (hp : l.path = some path) (before rest : List UInt8) :
    ((before ++ (l.url ++ 32 :: rest)).set (before.length + 0 + l.url.length) 0).drop
      (before.length + 0 + l.hostPort.length + 1) = path ++ 0 :: rest := by
  have hset : (before ++ (l.url ++ 32 :: rest)).set (before.length + 0 + l.url.length) 0 =
      before ++ (l.hostPort ++ [47]) ++ (path ++ 0 :: rest) := by
    simp [Request.url_some hp]
  have hlength : before.length + 0 + l.hostPort.length + 1 =
      (before ++ (l.hostPort ++ [47])).length := by
    simp [Nat.add_assoc]
  rw [hset, hlength, List.drop_left]

/-- What is read for the path: the path, or the block for `uri` as it is. -/
theorem Request.WellFormed.uri_read (h : l.WellFormed) (hfits : l.url.length < uriMaxSize)
    (block : List.Vector UInt8 uriMaxSize) (before rest : List UInt8)
    (huri : uri = if l.path.isSome then
      ((before ++ (l.url ++ 32 :: rest)).set (before.length + 0 + l.url.length) 0).drop
        (before.length + 0 + l.hostPort.length + 1) else block.1) :
    (0 ∈ uri ∧ (cstring uri).length < uriMaxSize ↔ (l.path = none → 0 ∈ block.1)) ∧
      cstring uri = l.path.getD (cstring block.1) := by
  cases hp : l.path with
  | some path =>
    rw [hp, Option.isSome_some, if_pos rfl, path_read hp] at huri
    have hstring : cstring uri = path := by
      rw [huri, cstring_append (h.not_mem_path hp)]
      exact List.append_nil path
    have hlength := (Request.path_le hp).trans_lt hfits
    rw [← hstring] at hlength
    refine ⟨iff_of_true ⟨?_, hlength⟩ (fun hn => nomatch hn), hstring⟩
    rw [huri]
    exact List.mem_append_right _ List.mem_cons_self
  | none =>
    rw [hp, Option.isSome_none, if_neg Bool.false_ne_true] at huri
    rw [huri]
    refine ⟨⟨fun hu _ => hu.1, fun hu => ⟨hu rfl, ?_⟩⟩, rfl⟩
    exact (cstring_length_lt (hu rfl)).trans_eq block.2

theorem Request.WellFormed.strtok_method (h : l.WellFormed) (more : List UInt8) :
    strtok (l.target ++ more) 32 = some (0, l.method) := by
  rw [Request.target, List.append_assoc, List.cons_append]
  exact strtok_append h.method h.not_mem_method _

theorem Request.cut_method (l : Request) (more : List UInt8) :
    (l.target ++ more).set (0 + l.method.length) 0 =
      (l.method ++ 0 :: chars "http://") ++ (l.url ++ 32 :: more) := by
  simp [Request.target]

theorem Request.url_start (l : Request) :
    l.method.length + 1 + 7 = (l.method ++ 0 :: chars "http://").length := by
  rw [List.length_append, List.length_cons]
  rfl

theorem Request.WellFormed.strtok_url (h : l.WellFormed) (rest : List UInt8) :
    strtok (cstring (l.url ++ 32 :: rest)) 32 = some (0, l.url) := by
  rw [cstring_append h.not_mem_url.1]
  exact strtok_append h.url_ne h.not_mem_url.2 (cstring rest)

theorem Request.url_lt (l : Request) (more : List UInt8) :
    l.url.length < (l.target ++ more).length := by
  simp only [Request.target, List.length_append, List.length_cons]
  omega

/-- The parse depends on nothing that comes after the URL. -/
theorem Request.WellFormed.parseRequest (h : l.WellFormed) (hr : request = l.target ++ more)
    (m : Memory) : parseRequest m request = some t ↔
      request.length < tempRequestSize ∧ l.method.length < methodSize ∧
        (l.parsed m).port.length < portMaxSize ∧ (l.path = none → 0 ∈ m.uri.1) ∧
        t = l.parsed m := by
  by_cases hlen : request.length < tempRequestSize
  · set tail := more ++ 0 :: m.tempRequest.1.drop (request.length + 1) with htail
    have hmethod : strtok request 32 = some (0, l.method) := hr ▸ h.strtok_method more
    have htemp : (request ++ 0 :: m.tempRequest.1.drop (request.length + 1)).set
        (0 + l.method.length) 0 = (l.method ++ 0 :: chars "http://") ++ (l.url ++ 32 :: tail) := by
      rw [htail, ← l.cut_method, hr, List.append_assoc]
    have hterm : 0 ∈ l.url ++ 32 :: tail := by
      simp [htail]
    have hurl : l.url.length < tempRequestSize := by
      rw [hr] at hlen
      exact (l.url_lt more).trans hlen
    have hurlFits : l.url.length < hostnameMaxSize + portMaxSize := hurl.trans (by decide)
    have hhostFits : l.hostPort.length < hostnameMaxSize :=
      (l.hostPort_prefix.length_le.trans_lt hurl).trans (by decide)
    obtain ⟨huri, hstring⟩ := h.uri_read (hurl.trans (by decide)) m.uri
      (l.method ++ 0 :: chars "http://") tail rfl
    simp only [ThreadPool.parseRequest, store_tempRequest, hlen, hmethod, htemp, l.url_start,
      List.drop_left, hterm, h.strtok_url, h.hostPort_left, h.splitHost, h.contains_slash, hurlFits,
      hhostFits, huri, Option.pure_def, Option.bind_eq_bind, Option.bind_some, true_and,
      Option.bind_eq_some_iff, Option.guard_eq_some', exists_const, Option.some.injEq]
    simp only [hstring, Request.parsed, eq_comm (a := t)]
  · simp [ThreadPool.parseRequest, guard, hlen]

theorem Request.mem_target (hm : c ∈ l.target) : c ∈ l.method ++ l.url ∨ c ∈ chars " http://" := by
  simp only [Request.target, List.mem_append, List.mem_cons, List.not_mem_nil, or_false] at hm
  rcases hm with hm | rfl | hm | hm | rfl
  · exact .inl (List.mem_append_left _ hm)
  · exact .inr (by decide)
  · exact .inr (List.mem_cons_of_mem _ hm)
  · exact .inl (List.mem_append_right _ hm)
  · exact .inr (by decide)

/-- The CR of the blank line comes after the URL. -/
theorem Request.WellFormed.cr_not_mem (h : l.WellFormed) : 13 ∉ l.target := by
  intro hm
  rcases Request.mem_target hm with hm | hm
  · exact (h.plain 13 hm).2.1 rfl
  · revert hm
    decide

theorem Request.WellFormed.nul_not_mem (h : l.WellFormed) : 0 ∉ l.bytes := by
  intro hm
  rcases List.mem_append.1 hm with hm | hm
  · rcases Request.mem_target hm with hm | hm
    · exact (h.plain 0 hm).1 rfl
    · revert hm
      decide
  · exact h.text hm

/-- What has been received with the blank line starts with the whole URL. -/
theorem Request.WellFormed.target_prefix (h : l.WellFormed) {bytes : List UInt8}
    (hp : bytes <+: l.bytes) (hblank : blankLine <:+: bytes) : l.target <+: bytes := by
  rcases List.prefix_or_prefix_of_prefix hp (List.prefix_append l.target l.rest) with hle | hle
  · have hcr : 13 ∈ blankLine := by decide
    exact absurd ((hblank.trans hle.isInfix).subset hcr) h.cr_not_mem
  · exact hle

end

/-- The string that `server_req` starts with: its old string, the method and the path, or the old
string in `uri`. -/
def Request.start (l : Request) (m : Memory) : List UInt8 :=
  cstring m.serverReq.1 ++ l.method ++ chars " /" ++ l.path.getD (cstring m.uri.1)

/-- What memory must be like for the request to be taken as it is when `last` has been read: no old
byte completes it before, and all strings end in their blocks and fit. -/
structure Ready (l : Request) (m : Memory) (before : List Chunk) (last : Chunk) : Prop where
  completed : Completed m.clientReq.1 before last
  short : (cstring (filled m.clientReq.1 (before ++ [last]))).length < tempRequestSize
  method : l.method.length < methodSize
  port : (l.parsed m).port.length < portMaxSize
  uri : l.path = none → 0 ∈ m.uri.1
  terminated : 0 ∈ m.serverReq.1
  room : (cstring m.serverReq.1 ++ (l.parsed m).request).length < httpRequestMaxSize

/-- Both runs take the request at the same read, which is not before the blank line has come, and
give the same host, port and request for the server. -/
def TreatedAlike (m₁ m₂ : Memory) (client : Stream) : Prop :=
  ∃ r unread, clientToProxy m₁ client = .ok (some r, unread) ∧
    clientToProxy m₂ client = .ok (some r, unread) ∧
    ∃ reads, client.reads = reads ++ unread ∧ blankLine <:+: received reads

theorem ready_iff {l : Request} (h : l.WellFormed) (m : Memory) {before : List Chunk} {last : Chunk}
    (hp : received (before ++ [last]) <+: l.bytes)
    (hblank : blankLine <:+: received (before ++ [last])) :
    (Completed m.clientReq.1 before last ∧
      reformatClientRequest m (cstring (filled m.clientReq.1 (before ++ [last]))) = .ok (some r)) ↔
    Ready l m before last ∧
      r = ⟨l.host, l.port.getD (chars "80"), cstring m.serverReq.1 ++ (l.parsed m).request⟩ := by
  have h0 : 0 ∉ received (before ++ [last]) := fun hm => h.nul_not_mem (hp.subset hm)
  obtain ⟨more, hmore⟩ := h.target_prefix hp hblank
  have hstring : cstring (filled m.clientReq.1 (before ++ [last])) = l.target ++
      (more ++ cstring (m.clientReq.1.drop (received (before ++ [last])).length)) := by
    rw [filled, cstring_append h0, ← List.append_assoc, hmore]
  constructor
  · rintro ⟨hc, hr⟩
    obtain ⟨-, t, ht, hterm, hroom, rfl⟩ := reformatClientRequest_iff.1 hr
    obtain ⟨hshort, hmethod, hport, huri, rfl⟩ := (h.parseRequest hstring m).1 ht
    exact ⟨⟨hc, hshort, hmethod, hport, huri, hterm, hroom⟩, rfl⟩
  · rintro ⟨⟨hc, hshort, hmethod, hport, huri, hterm, hroom⟩, rfl⟩
    refine ⟨hc, reformatClientRequest_iff.2 ⟨hc.complete, l.parsed m, ?_, hterm, hroom, rfl⟩⟩
    exact (h.parseRequest hstring m).2 ⟨hshort, hmethod, hport, huri, rfl⟩

theorem received_front {l : Request} {client : Stream} (hc : received client.reads = l.bytes)
    (he : client.reads = before ++ last :: unread) : received (before ++ [last]) <+: l.bytes := by
  rw [← hc, he, List.append_cons before last unread, received_append (before ++ [last])]
  exact List.prefix_append _ _

section cleared
variable {l : Request} {client : Stream}

theorem filled_zeros (n : Nat) (p : List Chunk) : filled (List.Vector.replicate n 0).1 p =
    received p ++ List.replicate (n - (received p).length) 0 := by
  rw [filled]
  exact congrArg _ (List.drop_replicate ..)

theorem mem_filled_zeros {p : List Chunk} (h : (received p).length < n) :
    0 ∈ filled (List.Vector.replicate n 0).1 p := by
  rw [filled_zeros]
  apply List.mem_append_right
  exact List.mem_replicate.2 ⟨Nat.sub_ne_zero_of_lt h, rfl⟩

theorem cstring_filled_zeros {p : List Chunk} (h0 : 0 ∉ received p) (n : Nat) :
    cstring (filled (List.Vector.replicate n 0).1 p) = received p := by
  rw [filled_zeros, cstring_append h0, cstring, List.takeWhile_replicate]
  exact List.append_nil _

theorem zero_mem_zeros (n : Nat) : 0 ∈ (List.Vector.replicate (n + 1) (0 : UInt8)).1 :=
  List.mem_cons_self

theorem cstring_zeros (n : Nat) : cstring (List.Vector.replicate n 0).1 = [] :=
  cstring_filled_zeros (p := []) List.not_mem_nil n

theorem Request.WellFormed.room (h : l.WellFormed) (hm : l.method.length < methodSize)
    (hport : (l.parsed cleared).port.length < portMaxSize) :
    (cstring cleared.serverReq.1 ++ (l.parsed cleared).request).length < httpRequestMaxSize := by
  have hurl : l.url.length < 500 := (l.url_lt l.rest).trans h.short
  have hhost : l.host.length ≤ l.url.length := by
    apply Nat.le_trans _ l.hostPort_prefix.length_le
    unfold Request.hostPort
    split <;> simp
  have huri : (l.parsed cleared).uri.length ≤ l.url.length := by
    cases hp : l.path with
    | some path =>
      rw [Request.parsed, hp]
      exact Request.path_le hp
    | none =>
      rw [Request.parsed, hp, Option.getD_none, cleared, cstring_zeros]
      exact Nat.zero_le _
  have hlength : (l.parsed cleared).request.length = l.method.length +
      (l.parsed cleared).uri.length + l.host.length + (l.parsed cleared).port.length + 154 :=
    (l.parsed cleared).request_length
  have hempty : cstring cleared.serverReq.1 = [] := cstring_zeros _
  rw [hempty, List.nil_append]
  simp only [methodSize, portMaxSize, httpRequestMaxSize] at *
  omega

/-- With cleared memory the request is taken as it is when its blank line has come. -/
theorem cleared_ready (hl : l.WellFormed) (hm : l.method.length < methodSize)
    (hport : (l.parsed cleared).port.length < portMaxSize) (hc : received client.reads = l.bytes) :
    ∃ before last unread, client.reads = before ++ last :: unread ∧
      blankLine <:+: received (before ++ [last]) ∧ Ready l cleared before last := by
  obtain ⟨before, last, unread, he, hblank, hfirst⟩ :=
    exists_first (P := fun p => blankLine <:+: received p) blankLine_not_received
      ⟨client.reads, List.prefix_refl _, hc ▸ hl.complete⟩
  have hreceived : ∀ p, p <+: before ++ [last] → (received p).length < tempRequestSize ∧
      0 ∈ filled cleared.clientReq.1 p ∧ cstring (filled cleared.clientReq.1 p) = received p := by
    intro p hp
    obtain ⟨rest, hrest⟩ := hp
    have hbytes : received p <+: l.bytes := by
      apply List.IsPrefix.trans _ (received_front hc he)
      rw [← hrest, received_append]
      exact List.prefix_append _ _
    have hshort : (received p).length < tempRequestSize := hbytes.length_le.trans_lt hl.short
    exact ⟨hshort, mem_filled_zeros (hshort.trans (by decide)),
      cstring_filled_zeros (fun hm => hl.nul_not_mem (hbytes.subset hm)) _⟩
  have hfits : ∀ p, (received p).length < tempRequestSize →
      (received p).length ≤ cleared.clientReq.1.length := by
    intro p hshort
    rw [cleared.clientReq.2]
    exact (hshort.trans (by decide)).le
  obtain ⟨hshort, hterm, hstring⟩ := hreceived _ (List.prefix_refl _)
  refine ⟨before, last, unread, he, hblank, ⟨?_, hfits _ hshort, hterm, ?_⟩, ?_, hm, hport,
    fun _ => zero_mem_zeros _, zero_mem_zeros _, hl.room hm hport⟩
  · intro p hp _
    obtain ⟨hshort', hterm', hstring'⟩ := hreceived p (hp.trans (List.prefix_append _ _))
    refine ⟨hfits p hshort', hterm', ?_⟩
    rw [hstring', isCompleteRequest, strstr_isSome]
    exact hfirst p hp
  · rw [hstring, isCompleteRequest, strstr_isSome]
    exact hblank
  · rw [hstring]
    exact hshort

/-- The request that the client sent, for the server. -/
theorem cleared_forwards (hl : l.WellFormed) (hm : l.method.length < methodSize)
    (hport : (l.parsed cleared).port.length < portMaxSize) (hc : received client.reads = l.bytes) :
    ∃ reads unread, client.reads = reads ++ unread ∧ blankLine <:+: received reads ∧
      clientToProxy cleared client = .ok (some ⟨l.host, l.port.getD (chars "80"),
        (l.parsed cleared).request⟩, unread) := by
  obtain ⟨before, last, unread, he, hblank, hready⟩ := cleared_ready hl hm hport hc
  have hmade := (ready_iff hl cleared (received_front hc he) hblank).2 ⟨hready, rfl⟩
  obtain ⟨h, reads, hreads, hblank⟩ := clientToProxy_iff.2 ⟨before, last, he, hblank, hmade⟩
  have hempty : cstring cleared.serverReq.1 = [] := cstring_zeros _
  rw [hempty, List.nil_append] at h
  exact ⟨reads, unread, hreads, hblank, h⟩

end cleared

theorem start_eq_iff (l : Request) (m₁ m₂ : Memory) :
    cstring m₁.serverReq.1 ++ (l.parsed m₁).request =
        cstring m₂.serverReq.1 ++ (l.parsed m₂).request ↔ l.start m₁ = l.start m₂ := by
  have hsplit : ∀ m : Memory, cstring m.serverReq.1 ++ (l.parsed m).request = l.start m ++
      (chars " HTTP/1.0" ++ chars "\r\n" ++ chars "Host: " ++ l.host ++ chars ":" ++
        l.port.getD (chars "80") ++ chars "\r\n" ++ EpollProxy.userAgentHdr ++ EpollProxy.connHdr ++
        EpollProxy.proxyConnHdr ++ chars "\r\n") := by
    intro m
    simp only [Request.parsed, Target.request, Request.start, List.append_assoc]
  rw [hsplit, hsplit, List.append_cancel_right_eq]

/-- What a run with each memory does with the request, up to the call of
`send_request_to_server`. -/
theorem treatedAlike_iff (l : Request) (hl : l.WellFormed) (client : Stream)
    (hc : received client.reads = l.bytes) (m₁ m₂ : Memory) :
    TreatedAlike m₁ m₂ client ↔ ∃ before last unread, client.reads = before ++ last :: unread ∧
      blankLine <:+: received (before ++ [last]) ∧ Ready l m₁ before last ∧ Ready l m₂ before last ∧
        l.start m₁ = l.start m₂ := by
  constructor
  · rintro ⟨r, unread, h₁, h₂, hreads⟩
    obtain ⟨before, last, he, hblank, hm₁⟩ := clientToProxy_iff.1 ⟨h₁, hreads⟩
    obtain ⟨before', last', he', -, hm₂⟩ := clientToProxy_iff.1 ⟨h₂, hreads⟩
    rw [he, List.append_cons, List.append_cons before', List.append_cancel_right_eq] at he'
    obtain ⟨rfl, hlast⟩ := List.append_inj' he' rfl
    cases hlast
    have hp := received_front hc he
    obtain ⟨hr₁, rfl⟩ := (ready_iff hl m₁ hp hblank).1 hm₁
    obtain ⟨hr₂, hr⟩ := (ready_iff hl m₂ hp hblank).1 hm₂
    refine ⟨before, last, unread, he, hblank, hr₁, hr₂, (start_eq_iff l m₁ m₂).1 ?_⟩
    exact congrArg Reformatted.serverReq hr
  · rintro ⟨before, last, unread, he, hblank, hr₁, hr₂, hstart⟩
    have hp := received_front hc he
    have hm₁ := (ready_iff hl m₁ hp hblank).2 ⟨hr₁, rfl⟩
    have hm₂ := (ready_iff hl m₂ hp hblank).2 ⟨hr₂, rfl⟩
    have h₁ := clientToProxy_iff.2 ⟨before, last, he, hblank, hm₁⟩
    have h₂ := clientToProxy_iff.2 ⟨before, last, he, hblank, hm₂⟩
    rw [← (start_eq_iff l m₁ m₂).2 hstart] at h₂
    exact ⟨_, unread, h₁.1, h₂.1, h₁.2⟩

/-- A block that a request with a longer path was read into before. -/
def recycledBlock : List.Vector UInt8 maxObjectSize :=
  ⟨chars "GET http://a/bbb HTTP/1.0\r\n\r\n" ++ List.replicate 102371 0, by
    rw [List.length_append, List.length_replicate]
    rfl⟩

def recycled : Memory := { cleared with clientReq := recycledBlock }

def splitRequest : Request where
  method := chars "GET"
  host := chars "a"
  port := none
  path := some (chars "b")
  rest := chars "HTTP/1.0\r\n\r\n"

/-- The blank line comes with the second read. -/
def splitClient : Stream where
  reads := [⟨chars "GET http://a/b HTTP/1.0\r\n", by decide⟩, ⟨chars "\r\n", by decide⟩]
  reset := false

theorem splitRequest_wellFormed : splitRequest.WellFormed := by
  constructor <;> decide +kernel

theorem recycled_string : cstring (filled recycled.clientReq.1 [splitClient.reads[0]]) =
    chars "GET http://a/b HTTP/1.0\r\n\r\n\r\n" := by
  have hfilled : filled recycled.clientReq.1 [splitClient.reads[0]] =
      chars "GET http://a/b HTTP/1.0\r\n\r\n\r\n" ++ List.replicate 102371 0 := by
    change chars "GET http://a/b HTTP/1.0\r\n" ++ List.drop 25
      (chars "GET http://a/bbb HTTP/1.0\r\n\r\n" ++ List.replicate 102371 0) = _
    rw [List.drop_append_of_le_length (by decide), ← List.append_assoc]
    rfl
  rw [hfilled, cstring_append (by decide), cstring, List.takeWhile_replicate]
  rfl

/-- The blank line of the earlier request completes what the first read returns. -/
theorem recycled_completes_early : splitRequest.WellFormed ∧
    received splitClient.reads = splitRequest.bytes ∧
    ¬ TreatedAlike cleared recycled splitClient := by
  refine ⟨splitRequest_wellFormed, by decide, ?_⟩
  rintro ⟨r, unread, -, h, hreads⟩
  obtain ⟨before, last, he, hblank, hc, -⟩ := clientToProxy_iff.1 ⟨h, hreads⟩
  cases before with
  | nil =>
    cases he
    revert hblank
    decide
  | cons chunk before =>
    obtain ⟨rfl, -⟩ := List.cons.inj he
    have hearly := (hc.passed [splitClient.reads[0]] (List.prefix_append _ _) (by decide)).2.2
    rw [recycled_string] at hearly
    revert hearly
    decide

theorem treatedAlike_iff_split : TreatedAlike cleared recycled splitClient ↔
    ∃ before last unread, splitClient.reads = before ++ last :: unread ∧
      blankLine <:+: received (before ++ [last]) ∧ Ready splitRequest cleared before last ∧
      Ready splitRequest recycled before last ∧
      splitRequest.start cleared = splitRequest.start recycled :=
  treatedAlike_iff splitRequest splitRequest_wellFormed splitClient (by decide) cleared recycled

end Cs324.ThreadPool
