import Cs324.Tiny.Responses

namespace Cs324.Tiny
set_option autoImplicit true
open Csapp

/-- The status and the two messages of an error page. -/
structure Refusal where
  errnum : List UInt8
  shortmsg : List UInt8
  longmsg : List UInt8
  deriving DecidableEq

def notImplemented : Refusal :=
  ⟨chars "501", chars "Not Implemented", chars "Tiny does not implement this method"⟩

def notFound : Refusal := ⟨chars "404", chars "Not found", chars "Tiny couldn't find this file"⟩

def unreadable : Refusal := ⟨chars "403", chars "Forbidden", chars "Tiny couldn't read the file"⟩

def notExecutable : Refusal :=
  ⟨chars "403", chars "Forbidden", chars "Tiny couldn't run the CGI program"⟩

def Refusal.page (r : Refusal) (cause : List UInt8) : List UInt8 :=
  errorBody cause r.errnum r.shortmsg r.longmsg

def Refusal.reply (r : Refusal) (cause : List UInt8) : Reply :=
  errorReply cause r.errnum r.shortmsg r.longmsg

/-- Why a URI is refused, and with which text in the page, or the file that is to be served. -/
def lookup (world : World) (uri : List UInt8) : Except Refusal File :=
  match world.file (fileName uri) with
  | none => .error notFound
  | some file =>
    if isStatic uri then
      if file.regular && file.readable then .ok file else .error unreadable
    else if file.regular && file.executable then .ok file else .error notExecutable

def serve (world : World) (uri : List UInt8) (file : File) : Reply :=
  if isStatic uri then serveStatic (fileName uri) file
  else serveDynamic world (fileName uri) (query uri)

/-- A request line that a client may send. -/
structure RequestLine where
  method : List UInt8
  uri : List UInt8
  version : List UInt8

def RequestLine.bytes (l : RequestLine) : List UInt8 :=
  l.method ++ 32 :: (l.uri ++ 32 :: (l.version ++ crlf))

/-- A word of the line: `%s` reads it as one token. -/
def IsWord (word : List UInt8) : Prop := word ≠ [] ∧ ∀ c ∈ word, isspace c = false ∧ c ≠ 0

structure RequestLine.WellFormed (l : RequestLine) : Prop where
  method : IsWord l.method
  uri : IsWord l.uri
  version : IsWord l.version
  fits : l.bytes.length < MAXLINE

def RequestLine.isGet (l : RequestLine) : Prop :=
  l.method.map tolower = (chars "GET").map tolower

instance (l : RequestLine) : Decidable l.isGet := inferInstanceAs (Decidable (_ = _))

/-- What Tiny is to do with a request. -/
def RequestLine.answer (world : World) (l : RequestLine) : Reply :=
  if l.isGet then
    match lookup world l.uri with
    | .ok file => serve world l.uri file
    | .error refusal => refusal.reply (fileName l.uri)
  else notImplemented.reply l.method

/-- The request keeps Tiny inside its arrays: the page of an error fits, and a file name is not
too long and not made from an empty path. -/
def RequestLine.Fits (world : World) (l : RequestLine) : Prop :=
  if l.isGet then
    ¬(isStatic l.uri ∧ path l.uri = []) ∧ (fileName l.uri).length < MAXLINE ∧
      ∀ refusal, lookup world l.uri = .error refusal →
        (refusal.page (fileName l.uri)).length < MAXBUF
  else (notImplemented.page l.method).length < MAXBUF

/-- The texts of an error page are strings, and those in its status line have no newline. -/
structure Refusal.Texts (r : Refusal) : Prop where
  errnum : 0 ∉ r.errnum
  shortmsg : 0 ∉ r.shortmsg
  longmsg : 0 ∉ r.longmsg
  errline : 10 ∉ r.errnum
  shortline : 10 ∉ r.shortmsg

theorem notImplemented_texts : notImplemented.Texts :=
  ⟨by decide, by decide, by decide, by decide, by decide⟩

theorem lookup_texts (h : lookup world uri = .error refusal) : refusal.Texts := by
  rw [lookup] at h
  split at h
  · cases h
    exact ⟨by decide, by decide, by decide, by decide, by decide⟩
  · split at h
    · split at h
      · cases h
      · cases h
        exact ⟨by decide, by decide, by decide, by decide, by decide⟩
    · split at h
      · cases h
      · cases h
        exact ⟨by decide, by decide, by decide, by decide, by decide⟩

theorem Refusal.Texts.clienterror_fits (h : Refusal.Texts r) (hbody : body.length = MAXBUF)
    (hc : 0 ∉ cause) (hfits : (r.page cause).length < MAXBUF) :
    clienterror body cause r.errnum r.shortmsg r.longmsg = .ok (r.reply cause) :=
  Tiny.clienterror_fits hbody hc h.errnum h.shortmsg h.longmsg hfits

theorem Refusal.Texts.fits (h : Refusal.Texts r) (hbody : body.length = MAXBUF) (hc : 0 ∉ cause)
    (he : clienterror body cause r.errnum r.shortmsg r.longmsg = .ok sent) :
    (r.page cause).length < MAXBUF :=
  fits_of_clienterror hbody hc h.errnum h.shortmsg h.longmsg he

/-- Behind `parse_uri`, a URI is refused or served. -/
theorem respond_eq (h : parseUri stack = .ok (isStatic uri, fileName uri, query uri)) :
    respond world stack =
      match lookup world uri with
      | .ok file => .ok (serve world uri file)
      | .error r => clienterror stack.body (fileName uri) r.errnum r.shortmsg r.longmsg := by
  rw [respond, h, ok_bind, lookup]
  dsimp only
  cases world.file (fileName uri) with
  | none => rfl
  | some file =>
    dsimp only
    cases hstatic : isStatic uri with
    | true =>
      cases hr : file.regular <;> cases hread : file.readable <;> simp [serve, hstatic] <;> rfl
    | false =>
      cases hr : file.regular <;> cases hexec : file.executable <;> simp [serve, hstatic] <;> rfl

theorem scanToken_space (text : List UInt8) : scanToken (32 :: text) = scanToken text := rfl

theorem scanToken_word (hw : IsWord word) (hc : isspace c = true) (text : List UInt8) :
    scanToken (word ++ c :: text) = some (word, c :: text) := by
  obtain ⟨hne, hword⟩ := hw
  have hskip : (word ++ c :: text).dropWhile isspace = word ++ c :: text := by
    cases word with
    | nil => exact absurd rfl hne
    | cons d word => simp [(hword d List.mem_cons_self).1]
  have hall : ∀ d ∈ word, (!isspace d) = true := fun d hd => by rw [(hword d hd).1]; rfl
  rw [scanToken, hskip, List.takeWhile_append_of_pos hall, List.dropWhile_append_of_pos hall,
    List.takeWhile_cons, List.dropWhile_cons, hc]
  simp [hne]

theorem IsWord.not_mem (h : IsWord word) : 0 ∉ word := fun hm => (h.2 0 hm).2 rfl

theorem IsWord.no_newline (h : IsWord word) : 10 ∉ word := fun hm =>
  absurd (h.2 10 hm).1 (by decide)

theorem RequestLine.WellFormed.not_mem {l : RequestLine} (h : l.WellFormed) : 0 ∉ l.bytes := by
  simp only [RequestLine.bytes, List.mem_append, List.mem_cons, not_or]
  exact ⟨h.method.not_mem, by decide, h.uri.not_mem, by decide, h.version.not_mem, by decide⟩

/-- The line up to its newline. -/
theorem RequestLine.WellFormed.line {l : RequestLine} (h : l.WellFormed) :
    ∃ part, l.bytes = part ++ [10] ∧ 10 ∉ part := by
  refine ⟨l.method ++ 32 :: (l.uri ++ 32 :: (l.version ++ [13])), by simp [RequestLine.bytes, crlf],
    ?_⟩
  simp only [List.mem_append, List.mem_cons, not_or]
  exact ⟨h.method.no_newline, by decide, h.uri.no_newline, by decide, h.version.no_newline,
    by decide⟩

/-- The arrays behind `sscanf`. -/
theorem scan_line {l : RequestLine} (h : l.WellFormed) (stack : Stack) (behind : List UInt8) :
    scan stack (l.bytes ++ 0 :: behind) = { stack with
      method := store stack.method 0 (l.method ++ [0])
      uri := store stack.uri 0 (l.uri ++ [0])
      version := store stack.version 0 (l.version ++ [0]) } := by
  rw [scan, cstring_terminate, cstring_eq_self h.not_mem, RequestLine.bytes,
    scanToken_word h.method rfl]
  dsimp only
  rw [scanToken_space, scanToken_word h.uri rfl]
  dsimp only
  rw [scanToken_space, crlf, scanToken_word h.version rfl]

theorem string_store (h0 : 0 ∉ text) (array : List UInt8) :
    string (store array 0 (text ++ [0])) = .ok text := by
  have hstore : store array 0 (text ++ [0]) = text ++ 0 :: array.drop (text.length + 1) := by
    simp [store]
  rw [string, hstore, if_pos (by simp), cstring_terminate, cstring_eq_self h0]

/-- What `doit` works on behind the request line. -/
def scanned (stack : Stack) (l : RequestLine) : Stack := { stack with
  method := store stack.method 0 (l.method ++ [0])
  uri := store stack.uri 0 (l.uri ++ [0])
  version := store stack.version 0 (l.version ++ [0]) }

theorem doit_line {l : RequestLine} (hl : l.WellFormed) (hv : Rio.Valid rp)
    (hs : rp.source = rest.push l.bytes) (world : World) (stack : Stack) :
    ∃ rp', rp'.Valid ∧ rp'.source = rest ∧ ∀ passes, doit world stack passes rp =
      if l.isGet then
        (readRequesthdrs passes rp' stack.header).map (proceed world (scanned stack l))
      else some (clienterror stack.body l.method notImplemented.errnum notImplemented.shortmsg
        notImplemented.longmsg) := by
  have hdelivers := rioReadlineb_delivers hv (show 1 ≤ MAXLINE by decide) (by decide)
  obtain ⟨part, hpart, hn⟩ := hl.line
  have hlt : part.length < MAXLINE - 1 := by
    have hfits := hl.fits
    rw [hpart, List.length_append, List.length_singleton] at hfits
    simp only [MAXLINE] at hfits ⊢
    omega
  rw [hs, hpart, Source.line_of_newline hn hlt, ← hpart] at hdelivers
  have hne : l.bytes ≠ [] := by rw [hpart]; simp
  have hpos := List.length_pos_iff.2 hne
  generalize hcall : rioReadlineb rp MAXLINE = call at hdelivers
  obtain ⟨n, buf, rp'⟩ := call
  obtain ⟨rfl, rfl, hv', hs'⟩ := hdelivers
  refine ⟨rp', hv', hs', fun passes => ?_⟩
  rw [doit, hcall]
  dsimp only
  rw [if_neg (by omega), if_neg (by omega), stored, if_neg fun h => hne h.1, scan_line hl]
  dsimp only
  rw [string_store hl.method.not_mem]
  rfl

theorem respond_ok_iff {l : RequestLine} (hl : l.WellFormed) (hsized : Stack.Sized stack)
    (world : World) (hget : l.isGet) :
    ((∃ reply, respond world (scanned stack l) = .ok reply) ↔ l.Fits world) ∧
      ∀ reply, respond world (scanned stack l) = .ok reply → reply = l.answer world := by
  have huri : string (scanned stack l).uri = .ok l.uri := string_store hl.uri.not_mem stack.uri
  have h0 := hl.uri.not_mem
  rw [RequestLine.Fits, if_pos hget, RequestLine.answer, if_pos hget]
  by_cases hfits : ¬(isStatic l.uri ∧ path l.uri = []) ∧ (fileName l.uri).length < MAXLINE
  · rw [respond_eq (parseUri_fits huri h0 hsized.filename hfits.1 hfits.2)]
    cases hlookup : lookup world l.uri with
    | ok file =>
      refine ⟨iff_of_true ⟨_, rfl⟩ ⟨hfits.1, hfits.2, nofun⟩, fun reply h => ?_⟩
      cases h
      rfl
    | error refusal =>
      have htexts := lookup_texts hlookup
      have hbody : (scanned stack l).body.length = MAXBUF := hsized.body
      have hfits_iff {reply : Reply} (h : clienterror (scanned stack l).body (fileName l.uri)
          refusal.errnum refusal.shortmsg refusal.longmsg = .ok reply) :
          (refusal.page (fileName l.uri)).length < MAXBUF :=
        htexts.fits hbody (fileName_not_mem h0) h
      refine ⟨⟨fun ⟨reply, h⟩ => ⟨hfits.1, hfits.2, ?_⟩, fun ⟨_, _, hpage⟩ => ?_⟩,
        fun reply h => ?_⟩
      · rintro _ ⟨⟩
        exact hfits_iff h
      · exact ⟨_, htexts.clienterror_fits hbody (fileName_not_mem h0) (hpage refusal rfl)⟩
      · exact Except.ok.inj (h.symm.trans
          (htexts.clienterror_fits hbody (fileName_not_mem h0) (hfits_iff h)))
  · have herror {reply : Reply} (h : respond world (scanned stack l) = .ok reply) : False := by
      obtain ⟨parsed, hparsed, -⟩ := bind_eq_ok.1 h
      exact hfits (fits_of_parseUri huri h0 hsized.filename hparsed)
    exact ⟨iff_of_false (fun ⟨_, h⟩ => herror h) fun h => hfits ⟨h.1, h.2.1⟩,
      fun _ h => (herror h).elim⟩

theorem fits_of_doit {l : RequestLine} {rest : Source} (hsized : Stack.Sized stack)
    (hv : Rio.Valid rp) (hl : l.WellFormed) (hs : rp.source = rest.push l.bytes)
    (hfails : rest.fails = false) (h : doit world stack passes rp = some (.ok reply)) :
    l.Fits world ∧ reply = l.answer world := by
  obtain ⟨rp', hv', hs', hdoit⟩ := doit_line hl hv hs world stack
  rw [hdoit] at h
  by_cases hget : l.isGet
  · rw [if_pos hget] at h
    obtain ⟨result, hread, he⟩ := Option.map_eq_some_iff.1 h
    cases result with
    | none =>
      have hfails' := fails_of_readRequesthdrs hv' hread
      rw [hs', hfails] at hfails'
      cases hfails'
    | some rp'' =>
      obtain ⟨hiff, hanswer⟩ := respond_ok_iff hl hsized world hget
      exact ⟨hiff.1 ⟨reply, he⟩, hanswer reply he⟩
  · rw [if_neg hget, Option.some.injEq] at h
    have hfits := notImplemented_texts.fits hsized.body hl.method.not_mem h
    rw [RequestLine.Fits, if_neg hget, RequestLine.answer, if_neg hget]
    exact ⟨hfits, Except.ok.inj (h.symm.trans
      (notImplemented_texts.clienterror_fits hsized.body hl.method.not_mem hfits))⟩

theorem doit_of_fits {l : RequestLine} {rest : Source} (hsized : Stack.Sized stack)
    (hv : Rio.Valid rp) (hl : l.WellFormed) (hs : rp.source = rest.push l.bytes)
    (hfails : rest.fails = false) (hblank : l.isGet → crlf ∈ pieces (MAXLINE - 1) rest.bytes)
    (h : l.Fits world) :
    ∃ passes, doit world stack passes rp = some (.ok (l.answer world)) := by
  obtain ⟨rp', hv', hs', hdoit⟩ := doit_line hl hv hs world stack
  simp only [hdoit]
  by_cases hget : l.isGet
  · obtain ⟨hiff, hanswer⟩ := respond_ok_iff hl hsized world hget
    obtain ⟨reply, hreply⟩ := hiff.2 h
    obtain ⟨passes, result, hread⟩ := @readRequesthdrs_ends rp' stack.header hv'
      (.inr (.inl (hs' ▸ hblank hget)))
    refine ⟨passes, ?_⟩
    rw [if_pos hget, hread, Option.map_some]
    cases result with
    | none =>
      have hfails' := fails_of_readRequesthdrs hv' hread
      rw [hs', hfails] at hfails'
      cases hfails'
    | some rp'' => rw [proceed, hreply, hanswer reply hreply]
  · rw [RequestLine.Fits, if_neg hget] at h
    refine ⟨0, ?_⟩
    rw [if_neg hget, RequestLine.answer, if_neg hget]
    exact congrArg some
      (notImplemented_texts.clienterror_fits hsized.body hl.method.not_mem h)

/-- A request line, and for `GET` an empty line behind it, gets its answer exactly if it keeps Tiny
inside its arrays. -/
theorem doit_answers (world : World) (stack : Stack) (rp : Rio) (l : RequestLine) (rest : Source)
    (hsized : stack.Sized) (hv : rp.Valid) (hl : l.WellFormed) (hs : rp.source = rest.push l.bytes)
    (hfails : rest.fails = false) (hblank : l.isGet → crlf ∈ pieces (MAXLINE - 1) rest.bytes) :
    ((∃ passes reply, doit world stack passes rp = some (.ok reply)) ↔ l.Fits world) ∧
      ∀ passes reply, doit world stack passes rp = some (.ok reply) → reply = l.answer world := by
  refine ⟨⟨?_, fun h => ?_⟩, fun passes reply h => (fits_of_doit hsized hv hl hs hfails h).2⟩
  · rintro ⟨passes, reply, h⟩
    exact (fits_of_doit hsized hv hl hs hfails h).1
  · obtain ⟨passes, h⟩ := doit_of_fits hsized hv hl hs hfails hblank h
    exact ⟨passes, _, h⟩

/-- A directory with one page. -/
def onePage : World where
  file name :=
    if name = chars "./home.html" then some ⟨true, true, false, true, chars "hi"⟩ else none
  program _ _ := []

def getRoot : RequestLine := ⟨chars "GET", chars "/", chars "HTTP/1.0"⟩

def unsetStack : Stack :=
  ⟨List.replicate MAXLINE 1, List.replicate MAXLINE 1, List.replicate MAXLINE 1,
    List.replicate MAXLINE 1, List.replicate MAXLINE 1, List.replicate MAXBUF 1⟩

theorem isWord_of_all (hne : word ≠ []) (h : word.all fun c => !isspace c && c != 0) :
    IsWord word := by
  refine ⟨hne, fun c hc => ?_⟩
  simpa using List.all_eq_true.1 h c hc

theorem getRoot_wellFormed : getRoot.WellFormed :=
  ⟨isWord_of_all (by decide) (by decide), isWord_of_all (by decide) (by decide),
    isWord_of_all (by decide) (by decide), by decide⟩

theorem getRoot_fits : getRoot.Fits onePage := by
  have hfile : lookup onePage getRoot.uri = .ok ⟨true, true, false, true, chars "hi"⟩ := by decide
  rw [RequestLine.Fits, if_pos (by decide), hfile]
  exact ⟨by decide, by decide, nofun⟩

theorem getRoot_answered : ∃ passes reply, doit onePage unsetStack passes
    (rioReadinitb [.bytes 71 (chars "ET / HT"), .interrupted, .bytes 84 (chars "P/1.0\r"),
      .bytes 10 (chars "\r\n")] (List.replicate RIO_BUFSIZE 0)) = some (.ok reply) ∧
    reply = getRoot.answer onePage := by
  have hsized : unsetStack.Sized := ⟨List.length_replicate, List.length_replicate,
    List.length_replicate, List.length_replicate, List.length_replicate⟩
  have hblank : crlf ∈ pieces 8191 [13, 10] := by
    rw [pieces_cons (by decide)]
    exact List.mem_cons_self
  obtain ⟨hiff, hanswer⟩ := doit_answers onePage unsetStack _ getRoot ⟨[13, 10], false⟩ hsized
    (rioReadinitb_valid [.bytes 71 (chars "ET / HT"), .interrupted, .bytes 84 (chars "P/1.0\r"),
      .bytes 10 (chars "\r\n")] List.length_replicate) getRoot_wellFormed
    (by rw [rioReadinitb_source]; decide) rfl fun _ => hblank
  obtain ⟨passes, reply, h⟩ := hiff.2 getRoot_fits
  exact ⟨passes, reply, h, hanswer passes reply h⟩

end Cs324.Tiny
