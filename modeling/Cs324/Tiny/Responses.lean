import Cs324.Base.Numeral
import Cs324.Tiny.Doit

namespace Cs324.Tiny
set_option autoImplicit true
open Csapp

theorem strcpy_fits (fault : Fault) (array : List UInt8) (h0 : 0 ∉ text)
    (h : text.length < array.length) :
    ∃ array', strcpy fault array text = .ok array' ∧ array'.length = array.length ∧
      cstring array' = text ∧ 0 ∈ array' := by
  have hfit : (text ++ [0]).length ≤ array.length := by
    rw [List.length_append, List.length_singleton]
    omega
  have hstore := storeIn_front hfit
  refine ⟨_, by rw [strcpy, hstore]; rfl, (storeIn_some hstore).2, ?_, by simp⟩
  rw [List.append_assoc, List.singleton_append, cstring_terminate, cstring_eq_self h0]

theorem strcpy_ok (h0 : 0 ∉ text) (h : strcpy fault array text = .ok array') :
    text.length < array.length ∧ array'.length = array.length ∧ cstring array' = text ∧
      0 ∈ array' := by
  have hstore := storeIn_some (orError_eq_ok.1 h)
  rw [List.length_append, List.length_singleton] at hstore
  have hlt : text.length < array.length := by omega
  obtain ⟨_, he, hlength, hstring, hend⟩ := strcpy_fits fault array h0 hlt
  cases he.symm.trans h
  exact ⟨hlt, hlength, hstring, hend⟩

theorem not_mem_append (array : List UInt8) (hm : 0 ∉ more) : 0 ∉ cstring array ++ more := by
  rw [List.mem_append]
  rintro (h0 | h0)
  · exact cstring_not_mem array h0
  · exact hm h0

theorem strcat_fits (fault : Fault) (h0 : 0 ∈ array) (ht : 0 ∉ text)
    (h : (cstring array ++ text).length < array.length) :
    ∃ array', strcat fault array text = .ok array' ∧ array'.length = array.length ∧
      cstring array' = cstring array ++ text ∧ 0 ∈ array' := by
  obtain ⟨rest, hrest⟩ := cstring_terminated h0
  have hfit : (text ++ [0]).length ≤ (0 :: rest).length := by
    have hlength := congrArg List.length hrest
    simp only [List.length_append, List.length_cons, List.length_nil] at hlength h ⊢
    omega
  have hstore := storeIn_append (d := cstring array) rfl hfit
  rw [← hrest] at hstore
  refine ⟨_, by rw [strcat, hstore]; rfl, (storeIn_some hstore).2, ?_, by simp⟩
  rw [← List.append_assoc, List.append_assoc, List.singleton_append, cstring_terminate,
    cstring_eq_self (not_mem_append array ht)]

theorem strcat_ok (h0 : 0 ∈ array) (ht : 0 ∉ text) (h : strcat fault array text = .ok array') :
    (cstring array ++ text).length < array.length ∧ array'.length = array.length ∧
      cstring array' = cstring array ++ text ∧ 0 ∈ array' := by
  have hstore := storeIn_some (orError_eq_ok.1 h)
  rw [List.length_append, List.length_singleton] at hstore
  have hlt : (cstring array ++ text).length < array.length := by
    rw [List.length_append]
    omega
  obtain ⟨_, he, hlength, hstring, hend⟩ := strcat_fits fault h0 ht hlt
  cases he.symm.trans h
  exact ⟨hlt, hlength, hstring, hend⟩

/-- The page that `clienterror` sends. -/
def errorBody (cause errnum shortmsg longmsg : List UInt8) : List UInt8 :=
  chars "<html><title>Tiny Error</title>" ++ chars "<body bgcolor=ffffff>\r\n" ++
    (errnum ++ chars ": " ++ shortmsg ++ crlf) ++
    (chars "<p>" ++ longmsg ++ chars ": " ++ cause ++ crlf) ++
    chars "<hr><em>The Tiny Web server</em>\r\n"

def errorReply (cause errnum shortmsg longmsg : List UInt8) : Reply :=
  ⟨[chars "HTTP/1.0 " ++ errnum ++ [32] ++ shortmsg ++ crlf,
    chars "Content-type: text/html\r\n",
    chars "Content-length: " ++ decimal (errorBody cause errnum shortmsg longmsg).length ++ crlf ++
      crlf,
    errorBody cause errnum shortmsg longmsg], true⟩

/-- `clienterror` keeps to its array exactly if the page fits. -/
theorem clienterror_fits (hbody : body.length = MAXBUF) (hc : 0 ∉ cause) (he : 0 ∉ errnum)
    (hs : 0 ∉ shortmsg) (hl : 0 ∉ longmsg)
    (h : (errorBody cause errnum shortmsg longmsg).length < MAXBUF) :
    clienterror body cause errnum shortmsg longmsg =
      .ok (errorReply cause errnum shortmsg longmsg) := by
  have hlength := h
  simp only [errorBody, List.length_append] at hlength
  have hline : 0 ∉ errnum ++ chars ": " ++ shortmsg ++ crlf := by
    simp only [List.mem_append, not_or]
    exact ⟨⟨⟨he, by decide⟩, hs⟩, by decide⟩
  have hpage : 0 ∉ chars "<p>" ++ longmsg ++ chars ": " ++ cause ++ crlf := by
    simp only [List.mem_append, not_or]
    exact ⟨⟨⟨⟨by decide, hl⟩, by decide⟩, hc⟩, by decide⟩
  obtain ⟨b₁, e₁, l₁, c₁, -⟩ := strcpy_fits .body body
    (show 0 ∉ chars "<html><title>Tiny Error</title>" by decide)
    (show _ < body.length by rw [hbody]; decide)
  obtain ⟨b₂, e₂, l₂, c₂, -⟩ := strcpy_fits .body b₁
    (not_mem_append b₁ (show 0 ∉ chars "<body bgcolor=ffffff>\r\n" by decide))
    (by rw [c₁, l₁, hbody, List.length_append]; omega)
  obtain ⟨b₃, e₃, l₃, c₃, -⟩ := strcpy_fits .body b₂ (not_mem_append b₂ hline)
    (by rw [c₂, c₁, l₂, l₁, hbody]; simp only [List.length_append]; omega)
  obtain ⟨b₄, e₄, l₄, c₄, -⟩ := strcpy_fits .body b₃ (not_mem_append b₃ hpage)
    (by rw [c₃, c₂, c₁, l₃, l₂, l₁, hbody]; simp only [List.length_append]; omega)
  obtain ⟨b₅, e₅, -, c₅, -⟩ := strcpy_fits .body b₄
    (not_mem_append b₄ (show 0 ∉ chars "<hr><em>The Tiny Web server</em>\r\n" by decide))
    (by rw [c₄, c₃, c₂, c₁, l₄, l₃, l₂, l₁, hbody]; simp only [List.length_append]; omega)
  have hpage₅ : cstring b₅ = errorBody cause errnum shortmsg longmsg := by
    rw [c₅, c₄, c₃, c₂, c₁, errorBody]
  have hsize : int32 (errorBody cause errnum shortmsg longmsg).length =
      (errorBody cause errnum shortmsg longmsg).length := by
    simp only [MAXBUF] at h
    exact int32_eq (by omega) (by omega)
  rw [clienterror, e₁, ok_bind, e₂, ok_bind, e₃, ok_bind, e₄, ok_bind, e₅, ok_bind, hpage₅, hsize]
  rfl

theorem fits_of_clienterror (hbody : body.length = MAXBUF) (hc : 0 ∉ cause) (he : 0 ∉ errnum)
    (hs : 0 ∉ shortmsg) (hl : 0 ∉ longmsg)
    (h : clienterror body cause errnum shortmsg longmsg = .ok reply) :
    (errorBody cause errnum shortmsg longmsg).length < MAXBUF := by
  have hline : 0 ∉ errnum ++ chars ": " ++ shortmsg ++ crlf := by
    simp only [List.mem_append, not_or]
    exact ⟨⟨⟨he, by decide⟩, hs⟩, by decide⟩
  have hpage : 0 ∉ chars "<p>" ++ longmsg ++ chars ": " ++ cause ++ crlf := by
    simp only [List.mem_append, not_or]
    exact ⟨⟨⟨⟨by decide, hl⟩, by decide⟩, hc⟩, by decide⟩
  obtain ⟨b₁, e₁, h⟩ := bind_eq_ok.1 h
  obtain ⟨b₂, e₂, h⟩ := bind_eq_ok.1 h
  obtain ⟨b₃, e₃, h⟩ := bind_eq_ok.1 h
  obtain ⟨b₄, e₄, h⟩ := bind_eq_ok.1 h
  obtain ⟨b₅, e₅, -⟩ := bind_eq_ok.1 h
  obtain ⟨-, l₁, c₁, -⟩ := strcpy_ok (by decide) e₁
  obtain ⟨-, l₂, c₂, -⟩ := strcpy_ok (not_mem_append b₁ (by decide)) e₂
  obtain ⟨-, l₃, c₃, -⟩ := strcpy_ok (not_mem_append b₂ hline) e₃
  obtain ⟨-, l₄, c₄, -⟩ := strcpy_ok (not_mem_append b₃ hpage) e₄
  obtain ⟨hlt, -⟩ := strcpy_ok (not_mem_append b₄ (by decide)) e₅
  rwa [c₄, c₃, c₂, c₁, l₄, l₃, l₂, l₁, hbody] at hlt

/-- The part of a URI that names a file, and the file. -/
def path (uri : List UInt8) : List UInt8 := uri.takeWhile (· != 63)

def query (uri : List UInt8) : List UInt8 := (uri.dropWhile (· != 63)).drop 1

def isStatic (uri : List UInt8) : Bool := (strstr (path uri) (chars "cgi-bin")).isNone

def fileName (uri : List UInt8) : List UInt8 :=
  46 :: path uri ++
    if isStatic uri ∧ (path uri).getLast? = some 47 then chars "home.html" else []

theorem path_not_mem (h0 : 0 ∉ uri) : 0 ∉ path uri :=
  fun hm => h0 (List.takeWhile_subset _ hm)

theorem fileName_not_mem (h0 : 0 ∉ uri) : 0 ∉ fileName uri := by
  simp only [fileName, List.cons_append, List.mem_cons, List.mem_append, not_or]
  refine ⟨by decide, path_not_mem h0, ?_⟩
  split
  · decide
  · exact List.not_mem_nil

/-- `parse_uri` keeps to its arrays if the file name fits and is not made from an empty path. -/
theorem parseUri_fits (huri : string stack.uri = .ok uri) (h0 : 0 ∉ uri)
    (hlength : stack.filename.length = MAXLINE) (hpath : ¬(isStatic uri ∧ path uri = []))
    (h : (fileName uri).length < MAXLINE) :
    parseUri stack = .ok (isStatic uri, fileName uri, query uri) := by
  have hlt := h
  simp only [fileName, List.length_append, List.length_cons] at hlt
  obtain ⟨f₁, e₁, l₁, c₁, z₁⟩ := strcpy_fits .filename stack.filename (show 0 ∉ [46] by decide)
    (by rw [hlength]; decide)
  obtain ⟨f₂, e₂, l₂, c₂, z₂⟩ := strcat_fits .filename z₁ (path_not_mem h0)
    (by rw [c₁, l₁, hlength]; simp only [List.length_append, List.length_singleton]; omega)
  rw [parseUri, huri, ok_bind, e₁, ok_bind]
  change (strcat .filename f₁ (path uri) >>= _) = _
  rw [e₂, ok_bind]
  change (if strstr (path uri) (chars "cgi-bin") = none then _ else _) = _
  by_cases hstatic : isStatic uri
  · rw [if_pos (Option.isNone_iff_eq_none.1 hstatic)]
    cases hlast : (path uri).getLast? with
    | none => exact absurd ⟨hstatic, List.getLast?_eq_none_iff.1 hlast⟩ hpath
    | some c =>
      have hlast' : (uri.takeWhile (· != 63)).getLast? = some c := hlast
      rw [hlast']
      by_cases hc : c = 47
      · subst hc
        have hname : fileName uri = 46 :: path uri ++ chars "home.html" := by
          rw [fileName, if_pos ⟨hstatic, hlast⟩]
        rw [hname, List.length_append, List.length_cons] at h
        obtain ⟨f₃, e₃, -, c₃, -⟩ := strcat_fits .filename z₂
          (show 0 ∉ chars "home.html" by decide)
          (by
            rw [c₂, c₁, l₂, l₁, hlength, List.length_append, List.length_append,
              List.length_singleton]
            omega)
        change (strcat .filename f₂ (chars "home.html") >>= _) = _
        rw [e₃, ok_bind, c₃, c₂, c₁, hname, hstatic]
        rfl
      · have hname : fileName uri = 46 :: path uri := by
          rw [fileName, if_neg (by simp [hlast, hc]), List.append_nil]
        split
        · rename_i hnone
          cases hnone
        · rename_i heq
          cases heq
          exact absurd rfl hc
        · rw [c₂, c₁, hname, hstatic]
          rfl
  · have hname : fileName uri = 46 :: path uri := by
      rw [fileName, if_neg (fun h => hstatic h.1), List.append_nil]
    rw [if_neg (fun h => hstatic (Option.isNone_iff_eq_none.2 h)), c₂, c₁, hname,
      Bool.eq_false_iff.2 hstatic]
    rfl

theorem fits_of_parseUri (huri : string stack.uri = .ok uri) (h0 : 0 ∉ uri)
    (hlength : stack.filename.length = MAXLINE) (h : parseUri stack = .ok parsed) :
    ¬(isStatic uri ∧ path uri = []) ∧ (fileName uri).length < MAXLINE := by
  rw [parseUri, huri, ok_bind] at h
  obtain ⟨f₁, e₁, h⟩ := bind_eq_ok.1 h
  obtain ⟨-, l₁, c₁, z₁⟩ := strcpy_ok (by decide) e₁
  obtain ⟨f₂, e₂, h⟩ := bind_eq_ok.1 h
  obtain ⟨hlt₂, l₂, c₂, z₂⟩ := strcat_ok z₁ (path_not_mem h0) e₂
  rw [c₁, l₁, hlength] at hlt₂
  change (if strstr (path uri) (chars "cgi-bin") = none then _ else _) = _ at h
  by_cases hhome : isStatic uri ∧ (path uri).getLast? = some 47
  · have hlast : (uri.takeWhile (· != 63)).getLast? = some 47 := hhome.2
    rw [if_pos (Option.isNone_iff_eq_none.1 hhome.1), hlast] at h
    obtain ⟨f₃, e₃, -⟩ := bind_eq_ok.1 h
    obtain ⟨hlt₃, -⟩ := strcat_ok z₂ (by decide) e₃
    rw [c₂, c₁, l₂, l₁, hlength] at hlt₃
    refine ⟨fun hempty => ?_, ?_⟩
    · rw [hempty.2] at hhome
      cases hhome.2
    · rw [fileName, if_pos hhome]
      exact hlt₃
  · refine ⟨fun hempty => ?_, ?_⟩
    · have hlast : (uri.takeWhile (· != 63)).getLast? = none :=
        List.getLast?_eq_none_iff.2 hempty.2
      rw [if_pos (Option.isNone_iff_eq_none.1 hempty.1), hlast] at h
      cases h
    · rw [fileName, if_neg hhome, List.append_nil]
      exact hlt₂

end Cs324.Tiny
