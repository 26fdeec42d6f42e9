import Cs324.Tiny.Answers

namespace Cs324.Tiny
set_option autoImplicit true
open Csapp

/-- How a client reads a response: header lines up to an empty one, and the body behind it. -/
def headLines (response : List UInt8) : List (List UInt8) := (lines response).takeWhile (· != crlf)

def bodyOf (response : List UInt8) : List UInt8 :=
  ((lines response).dropWhile (· != crlf)).tail.flatten

def lengthField : List UInt8 := chars "Content-length: "

def contentLength (headers : List (List UInt8)) : Option Int :=
  (headers.find? lengthField.isPrefixOf).map fun line => atoi (line.drop lengthField.length)

/-- The length that a response announces is the length of its body. -/
def Measured (response : List UInt8) : Prop :=
  contentLength (headLines response) = some ((bodyOf response).length : Int)

instance (response : List UInt8) : Decidable (Measured response) :=
  inferInstanceAs (Decidable (_ = _))

def IsHeader (line : List UInt8) : Prop := line ≠ crlf ∧ ∃ part, line = part ++ [10] ∧ 10 ∉ part

theorem lines_headers (h : ∀ line ∈ headers, IsHeader line) (text : List UInt8) :
    lines (headers.flatten ++ text) = headers ++ lines text := by
  induction headers with
  | nil => rfl
  | cons line headers ih =>
    obtain ⟨-, part, rfl, hn⟩ := h line List.mem_cons_self
    rw [List.flatten_cons, List.append_assoc, List.append_assoc, List.singleton_append,
      lines_cons hn, ih fun line hm => h line (List.mem_cons_of_mem _ hm), List.cons_append]

theorem response_split (h : ∀ line ∈ headers, IsHeader line) (body : List UInt8) :
    headLines (headers.flatten ++ (crlf ++ body)) = headers ∧
      bodyOf (headers.flatten ++ (crlf ++ body)) = body := by
  have hblank : lines (crlf ++ body) = crlf :: lines body :=
    lines_cons (show 10 ∉ [13] by decide) body
  have hne : ∀ line ∈ headers, (line != crlf) = true := fun line hm => by
    simpa using (h line hm).1
  rw [headLines, bodyOf, lines_headers h, hblank, List.takeWhile_append_of_pos hne,
    List.dropWhile_append_of_pos hne]
  simp [lines_flatten]

def lengthLine (n : Int) : List UInt8 := lengthField ++ decimal n ++ crlf

theorem lengthLine_isHeader (n : Int) : IsHeader (lengthLine n) := by
  refine ⟨fun h => ?_, lengthField ++ decimal n ++ [13], ?_, ?_⟩
  · have hhead : some (67 : UInt8) = some 13 := congrArg List.head? h
    exact absurd hhead (by decide)
  · simp [lengthLine, crlf]
  · simp only [List.mem_append, not_or]
    exact ⟨⟨by decide, not_mem_decimal rfl (by decide) n⟩, by decide⟩

theorem contentLength_lengthLine (hbefore : ∀ line ∈ before, lengthField.isPrefixOf line = false)
    (hn : n ≤ 2147483647) (after : List (List UInt8)) :
    contentLength (before ++ lengthLine (n : Nat) :: after) = some (n : Int) := by
  have hfind : (before ++ lengthLine n :: after).find? lengthField.isPrefixOf =
      some (lengthLine n) := by
    have hnone : before.find? lengthField.isPrefixOf = none := by
      rw [List.find?_eq_none]
      intro line hm
      simp [hbefore line hm]
    have hprefix : lengthField.isPrefixOf (lengthLine n) = true := by
      rw [List.isPrefixOf_iff_prefix, lengthLine, List.append_assoc]
      exact List.prefix_append _ _
    rw [List.find?_append, hnone, Option.none_or, List.find?_cons, hprefix]
  obtain ⟨hnumeral, hdigits⟩ := decimal_numeral n
  rw [contentLength, hfind, Option.map_some, lengthLine, List.append_assoc, List.drop_left, crlf,
    atoi_numeral_append hnumeral (by omega) rfl, hdigits]

/-- A header line that is given without its end. -/
theorem isHeader_append (hne : text ≠ []) (hn : 10 ∉ text) : IsHeader (text ++ crlf) := by
  refine ⟨fun h => hne ?_, text ++ [13], by simp [crlf], ?_⟩
  · exact List.append_left_eq_self.1 h
  · rw [List.mem_append, not_or]
    exact ⟨hn, by decide⟩

theorem Refusal.Texts.measured (h : Refusal.Texts r) (hfits : (r.page cause).length < MAXBUF) :
    Measured (r.reply cause).sent.flatten ∧ bodyOf (r.reply cause).sent.flatten = r.page cause := by
  let headers := [chars "HTTP/1.0 " ++ r.errnum ++ [32] ++ r.shortmsg ++ crlf,
    chars "Content-type: text/html" ++ crlf, lengthLine (r.page cause).length]
  have hheaders : ∀ line ∈ headers, IsHeader line := by
    simp only [headers, List.forall_mem_cons, List.not_mem_nil, false_imp_iff, implies_true,
      and_true]
    refine ⟨isHeader_append (by simp [chars]) ?_, isHeader_append (by decide) (by decide),
      lengthLine_isHeader _⟩
    simp only [List.mem_append, not_or]
    exact ⟨⟨⟨by decide, h.errline⟩, by decide⟩, h.shortline⟩
  have hbytes : (r.reply cause).sent.flatten = headers.flatten ++ (crlf ++ r.page cause) := by
    have htype : chars "Content-type: text/html\r\n" = chars "Content-type: text/html" ++ crlf := by
      decide
    simp only [Refusal.reply, errorReply, headers, lengthLine, lengthField, Refusal.page, htype,
      List.flatten_cons, List.flatten_nil, List.append_assoc, List.append_nil]
  obtain ⟨hhead, hbody⟩ := response_split hheaders (r.page cause)
  rw [Measured, hbytes, hhead, hbody]
  refine ⟨?_, rfl⟩
  simp only [MAXBUF] at hfits
  have hbefore : ∀ line ∈ [chars "HTTP/1.0 " ++ r.errnum ++ [32] ++ r.shortmsg ++ crlf,
      chars "Content-type: text/html" ++ crlf], lengthField.isPrefixOf line = false := by
    simp only [List.forall_mem_cons, List.not_mem_nil, false_imp_iff, implies_true, and_true]
    exact ⟨rfl, by decide⟩
  exact contentLength_lengthLine hbefore (by omega) []

theorem newline_not_mem_filetype (filename : List UInt8) : 10 ∉ getFiletype filename := by
  rw [getFiletype]
  split
  · decide
  · split
    · decide
    · split
      · decide
      · split <;> decide

/-- The header lines of a file that is served. -/
def staticHeaders (filename : List UInt8) (filesize : Int) : List (List UInt8) :=
  [chars "HTTP/1.0 200 OK" ++ crlf, chars "Server: Tiny Web Server" ++ crlf,
    chars "Connection: close" ++ crlf, lengthLine filesize,
    (chars "Content-type: " ++ getFiletype filename) ++ crlf]

theorem staticHeaders_isHeader (filename : List UInt8) (filesize : Int) :
    ∀ line ∈ staticHeaders filename filesize, IsHeader line := by
  simp only [staticHeaders, List.forall_mem_cons, List.not_mem_nil, false_imp_iff, implies_true,
    and_true]
  refine ⟨isHeader_append (by decide) (by decide), isHeader_append (by decide) (by decide),
    isHeader_append (by decide) (by decide), lengthLine_isHeader _, isHeader_append ?_ ?_⟩
  · exact List.append_ne_nil_of_left_ne_nil (by decide) _
  · rw [List.mem_append, not_or]
    exact ⟨by decide, newline_not_mem_filetype filename⟩

/-- The bytes of a file that the client gets. -/
def mapped (file : File) : List UInt8 :=
  if !file.opens || int32 file.content.length ≤ 0 then []
  else file.content.take (int32 file.content.length).toNat

theorem serveStatic_bytes (filename : List UInt8) (file : File) :
    (serveStatic filename file).sent.flatten =
      (staticHeaders filename (int32 file.content.length)).flatten ++ (crlf ++ mapped file) := by
  have h1 : chars "HTTP/1.0 200 OK\r\n" = chars "HTTP/1.0 200 OK" ++ crlf := by decide
  have h2 : chars "Server: Tiny Web Server\r\n" = chars "Server: Tiny Web Server" ++ crlf := by
    decide
  have h3 : chars "Connection: close\r\n" = chars "Connection: close" ++ crlf := by decide
  rw [serveStatic, mapped, h1, h2, h3]
  split <;> simp only [staticHeaders, lengthLine, lengthField, List.flatten_cons,
    List.flatten_nil, List.append_assoc, List.append_nil]

theorem mapped_eq_iff (file : File) :
    mapped file = file.content ↔
      file.content = [] ∨ (file.opens ∧ file.content.length < 2147483648) := by
  have hmax := int32_le file.content.length
  constructor
  · intro h
    rcases eq_or_ne file.content [] with hnil | hne
    · exact .inl hnil
    · rw [mapped] at h
      split at h
      · exact absurd h.symm hne
      · rename_i hserved
        simp only [Bool.or_eq_true, Bool.not_eq_true', decide_eq_true_eq, not_or,
          Bool.not_eq_false] at hserved
        have hlength := congrArg List.length h
        rw [List.length_take] at hlength
        exact .inr ⟨hserved.1, by omega⟩
  · rintro (hnil | ⟨hopens, hlt⟩)
    · rw [mapped, hnil, List.take_nil, ite_self]
    · rcases eq_or_ne file.content [] with hnil | hne
      · rw [mapped, hnil, List.take_nil, ite_self]
      · have hpos := List.length_pos_iff.2 hne
        rw [mapped, int32_eq (by omega) (by omega), if_neg (by simp [hopens, hne]),
          Int.toNat_natCast, List.take_length]

/-- A file arrives whole, with its length announced, unless it cannot be opened or its length is
no `int`. -/
theorem serveStatic_measured_iff (filename : List UInt8) (file : File) :
    (Measured (serveStatic filename file).sent.flatten ∧
      bodyOf (serveStatic filename file).sent.flatten = file.content) ↔
      file.content = [] ∨ (file.opens ∧ file.content.length < 2147483648) := by
  obtain ⟨hhead, hbody⟩ := response_split
    (staticHeaders_isHeader filename (int32 file.content.length)) (mapped file)
  rw [Measured, serveStatic_bytes, hhead, hbody, ← mapped_eq_iff]
  refine ⟨And.right, fun h => ⟨?_, h⟩⟩
  have hlt : file.content.length < 2147483648 := by
    rcases (mapped_eq_iff file).1 h with hnil | ⟨-, hlt⟩
    · rw [hnil]
      decide
    · exact hlt
  have hbefore : ∀ line ∈ [chars "HTTP/1.0 200 OK" ++ crlf, chars "Server: Tiny Web Server" ++ crlf,
      chars "Connection: close" ++ crlf], lengthField.isPrefixOf line = false := by decide
  rw [h, int32_eq (by omega) (by omega)]
  exact contentLength_lengthLine hbefore (by omega) _

/-- Where a request keeps Tiny inside its arrays, an error page arrives with its length announced,
and so does a file, unless it cannot be opened or its length is no `int`. -/
theorem answer_measured (world : World) (l : RequestLine) (hfits : l.Fits world) :
    (¬l.isGet → Measured (l.answer world).sent.flatten ∧
      bodyOf (l.answer world).sent.flatten = notImplemented.page l.method) ∧
    (l.isGet → ∀ refusal, lookup world l.uri = .error refusal →
      Measured (l.answer world).sent.flatten ∧
        bodyOf (l.answer world).sent.flatten = refusal.page (fileName l.uri)) ∧
    (l.isGet → isStatic l.uri → ∀ file, lookup world l.uri = .ok file →
      ((Measured (l.answer world).sent.flatten ∧
        bodyOf (l.answer world).sent.flatten = file.content) ↔
        file.content = [] ∨ (file.opens ∧ file.content.length < 2147483648))) := by
  refine ⟨fun hget => ?_, fun hget refusal hlookup => ?_, fun hget hstatic file hlookup => ?_⟩
  · rw [RequestLine.Fits, if_neg hget] at hfits
    rw [RequestLine.answer, if_neg hget]
    exact notImplemented_texts.measured hfits
  · rw [RequestLine.Fits, if_pos hget] at hfits
    rw [RequestLine.answer, if_pos hget, hlookup]
    exact (lookup_texts hlookup).measured (hfits.2.2 refusal hlookup)
  · rw [RequestLine.answer, if_pos hget, hlookup]
    change (Measured (serve world l.uri file).sent.flatten ∧
      bodyOf (serve world l.uri file).sent.flatten = _) ↔ _
    rw [serve, if_pos hstatic]
    exact serveStatic_measured_iff _ file

theorem getRoot_measured : Measured (getRoot.answer onePage).sent.flatten ∧
    bodyOf (getRoot.answer onePage).sent.flatten = chars "hi" :=
  ((answer_measured onePage getRoot getRoot_fits).2.2 (by decide) (by decide)
    ⟨true, true, false, true, chars "hi"⟩ (by decide)).2 (.inr ⟨rfl, by decide⟩)

end Cs324.Tiny
