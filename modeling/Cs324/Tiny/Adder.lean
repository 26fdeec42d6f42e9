import Cs324.Shell.Quoting
import Cs324.Tiny.Format

namespace Cs324.Tiny
set_option autoImplicit true
open Csapp Shell

/-- The page of `adder`. -/
def sumPage (n₁ n₂ : Int) : List UInt8 :=
  chars "Welcome to add.com: " ++ chars "THE Internet addition portal.\r\n<p>" ++
    (chars "The answer is: " ++ decimal n₁ ++ chars " + " ++ decimal n₂ ++ chars " = " ++
      decimal (int32 (n₁ + n₂)) ++ chars "\r\n<p>") ++
    chars "Thanks for visiting!\r\n"

/-- What `adder` writes for its query string: nothing if it does not find the `&` and stores through
the null pointer. -/
def adder (queryString : List UInt8) : List UInt8 :=
  match cutAt 38 queryString with
  | none => []
  | some (arg₁, arg₂) =>
    let content := sumPage (atoi arg₁) (atoi arg₂)
    chars "Connection: close\r\n" ++ (chars "Content-length: " ++ decimal content.length ++ crlf) ++
      chars "Content-type: text/html\r\n\r\n" ++ content

def dynamicHead : List UInt8 := chars "HTTP/1.0 200 OK\r\n" ++ chars "Server: Tiny Web Server\r\n"

/-- A request for a program that may be executed. -/
structure RequestLine.Runs (world : World) (l : RequestLine) (file : File) : Prop where
  get : l.isGet
  dynamic : isStatic l.uri = false
  found : lookup world l.uri = .ok file

theorem RequestLine.Runs.answer {l : RequestLine} (h : l.Runs world file) :
    (l.answer world).sent.flatten =
      dynamicHead ++ world.program (fileName l.uri) (query l.uri) := by
  rw [RequestLine.answer, if_pos h.get, h.found]
  change (serve world l.uri file).sent.flatten = _
  rw [serve, h.dynamic]
  simp [serveDynamic, dynamicHead]

/-- An `int` takes at most eleven characters. -/
theorem decimal_int_length (hl : -2147483648 ≤ n) (hu : n < 2147483648) :
    (decimal n).length ≤ 11 := by
  cases n with
  | ofNat n =>
    exact Nat.le_succ_of_le (decimal_length_le (k := 10) (by decide) (by
      rw [Int.ofNat_eq_natCast] at hu
      omega))
  | negSucc n =>
    rw [decimal_negSucc, List.length_cons]
    exact Nat.succ_le_succ (decimal_length_le (by decide) (by omega))

theorem int32_range (x : Int) : -2147483648 ≤ int32 x ∧ int32 x < 2147483648 := by
  simp only [int32]
  omega

theorem atoi_range (s : List UInt8) : -2147483648 ≤ atoi s ∧ atoi s < 2147483648 := int32_range _

theorem sumPage_length (s₁ s₂ : List UInt8) : (sumPage (atoi s₁) (atoi s₂)).length ≤ 200 := by
  have h₁ := decimal_int_length (atoi_range s₁).1 (atoi_range s₁).2
  have h₂ := decimal_int_length (atoi_range s₂).1 (atoi_range s₂).2
  have hsum := decimal_int_length (int32_range (atoi s₁ + atoi s₂)).1
    (int32_range (atoi s₁ + atoi s₂)).2
  have hfixed : (chars "Welcome to add.com: " ++ chars "THE Internet addition portal.\r\n<p>" ++
      (chars "The answer is: " ++ chars " + " ++ chars " = " ++ chars "\r\n<p>") ++
      chars "Thanks for visiting!\r\n").length ≤ 150 := by decide
  simp only [List.length_append] at hfixed
  simp only [sumPage, List.length_append]
  omega

/-- What a program writes in front of its content. -/
theorem dynamic_split (n : Int) (hne : type ≠ []) (hn : 10 ∉ type) (content : List UInt8) :
    headLines (dynamicHead ++ (chars "Connection: close\r\n" ++
        (chars "Content-length: " ++ decimal n ++ crlf) ++ (type ++ crlf ++ crlf) ++ content)) =
      [chars "HTTP/1.0 200 OK" ++ crlf, chars "Server: Tiny Web Server" ++ crlf,
        chars "Connection: close" ++ crlf, lengthLine n, type ++ crlf] ∧
    bodyOf (dynamicHead ++ (chars "Connection: close\r\n" ++
        (chars "Content-length: " ++ decimal n ++ crlf) ++ (type ++ crlf ++ crlf) ++ content)) =
      content := by
  have hheaders : ∀ line ∈ [chars "HTTP/1.0 200 OK" ++ crlf,
      chars "Server: Tiny Web Server" ++ crlf, chars "Connection: close" ++ crlf, lengthLine n,
      type ++ crlf], IsHeader line := by
    simp only [List.forall_mem_cons, List.not_mem_nil, false_imp_iff, implies_true, and_true]
    exact ⟨isHeader_append (by decide) (by decide), isHeader_append (by decide) (by decide),
      isHeader_append (by decide) (by decide), lengthLine_isHeader _, isHeader_append hne hn⟩
  have h1 : dynamicHead =
      chars "HTTP/1.0 200 OK" ++ (crlf ++ (chars "Server: Tiny Web Server" ++ crlf)) := by decide
  have h2 : chars "Connection: close\r\n" = chars "Connection: close" ++ crlf := by decide
  have hsplit := response_split hheaders content
  simp only [lengthLine, lengthField, List.flatten_cons, List.flatten_nil, List.append_assoc,
    List.append_nil] at hsplit
  simp only [h1, h2, lengthLine, lengthField, List.append_assoc]
  exact hsplit

theorem dynamic_measured (hne : type ≠ []) (hn : 10 ∉ type)
    (hlength : content.length ≤ 2147483647) :
    Measured (dynamicHead ++ (chars "Connection: close\r\n" ++
      (chars "Content-length: " ++ decimal content.length ++ crlf) ++ (type ++ crlf ++ crlf) ++
      content)) := by
  obtain ⟨hhead, hbody⟩ := dynamic_split content.length hne hn content
  have hbefore : ∀ line ∈ [chars "HTTP/1.0 200 OK" ++ crlf, chars "Server: Tiny Web Server" ++ crlf,
      chars "Connection: close" ++ crlf], lengthField.isPrefixOf line = false := by decide
  rw [Measured, hhead, hbody]
  exact contentLength_lengthLine hbefore hlength _

theorem adder_measured (hcut : cutAt 38 queryString = some (arg₁, arg₂)) :
    Measured (dynamicHead ++ adder queryString) ∧
      bodyOf (dynamicHead ++ adder queryString) = sumPage (atoi arg₁) (atoi arg₂) := by
  have htype : chars "Content-type: text/html\r\n\r\n" =
      chars "Content-type: text/html" ++ crlf ++ crlf := by decide
  have hlength := sumPage_length arg₁ arg₂
  rw [adder, hcut, htype]
  exact ⟨dynamic_measured (by decide) (by decide) (by omega),
    (dynamic_split _ (by decide) (by decide) _).2⟩

/-- A request for `adder` gets a whole response exactly if its query has an `&`, and then the sum of
any two `int`s in it, as an `int`. -/
theorem adder_answers (world : World) (l : RequestLine) (file : File) (h : l.Runs world file)
    (hprogram : world.program (fileName l.uri) = adder) :
    (Measured (l.answer world).sent.flatten ↔ 38 ∈ query l.uri) ∧
      ∀ a b : Int, -2147483648 ≤ a → a < 2147483648 → -2147483648 ≤ b → b < 2147483648 →
        query l.uri = decimal a ++ 38 :: decimal b →
          bodyOf (l.answer world).sent.flatten = sumPage a b := by
  rw [h.answer, hprogram]
  refine ⟨⟨fun hm => ?_, fun hm => ?_⟩, fun a b hal hau hbl hbu hquery => ?_⟩
  · by_contra hnot
    rw [adder, cutAt, if_neg hnot] at hm
    exact absurd hm (by decide)
  · exact (adder_measured (if_pos hm)).1
  · have hnot : 38 ∉ decimal a := not_mem_decimal rfl (by decide) a
    have hcut := cutAt_append hnot (decimal b)
    rw [hquery, (adder_measured hcut).2, atoi_decimal hal hau, atoi_decimal hbl hbu]

/-- A directory with the program only. -/
def oneProgram : World where
  file name := if name = chars "./cgi-bin/adder" then some ⟨true, true, true, true, []⟩ else none
  program _ := adder

def getSum : RequestLine :=
  ⟨chars "GET", chars "/cgi-bin/adder?15000&-213", chars "HTTP/1.0"⟩

theorem getSum_answered : Measured (getSum.answer oneProgram).sent.flatten ∧
    bodyOf (getSum.answer oneProgram).sent.flatten = sumPage 15000 (-213) := by
  obtain ⟨hiff, hsum⟩ := adder_answers oneProgram getSum ⟨true, true, true, true, []⟩
    ⟨by decide, by decide, by decide⟩ rfl
  exact ⟨hiff.2 (by decide),
    hsum 15000 (-213) (by decide) (by decide) (by decide) (by decide) (by decide)⟩

end Cs324.Tiny
