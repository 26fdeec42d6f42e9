import Cs324.EpollProxy.Rewriting

namespace Cs324.EpollProxy
set_option autoImplicit true

/-- A request line with an absolute URL that has a slash after the host. -/
structure RequestLine where
  method : List UInt8
  host : List UInt8
  port : Option (List UInt8)
  path : List UInt8
  version : List UInt8

def RequestLine.hostPort (l : RequestLine) : List UInt8 :=
  match l.port with
  | some port => l.host ++ 58 :: port
  | none => l.host

/-- The URL after `http://`. -/
def RequestLine.url (l : RequestLine) : List UInt8 := l.hostPort ++ 47 :: l.path

/-- The request line up to its version. -/
def RequestLine.target (l : RequestLine) : List UInt8 :=
  l.method ++ 32 :: (chars "http://" ++ (l.url ++ [32]))

def RequestLine.bytes (l : RequestLine) : List UInt8 := l.target ++ l.version ++ [13, 10]

/-- The parts have no space, CR or NUL, the delimiters of the URL are where they belong, and all
parts fit their arrays. -/
structure RequestLine.WellFormed (l : RequestLine) : Prop where
  method : l.method ≠ []
  host : l.host ≠ []
  plain : ∀ c ∈ l.method ++ l.url, c ≠ 0 ∧ c ≠ 13 ∧ c ≠ 32
  colon : 58 ∉ l.host
  slash : 47 ∉ l.hostPort
  methodFits : l.method.length < maxMethodSize
  urlFits : l.url.length < maxHostSize + maxPortSize
  hostFits : l.hostPort.length < maxHostSize
  portFits : ∀ port ∈ l.port, port.length < maxPortSize
  pathFits : l.path.length < maxUriSize

def RequestLine.parsed (l : RequestLine) : Target where
  method := l.method
  uri := l.path
  host := l.host
  port := l.port.getD (chars "80")

/-- The request that starts with this line. -/
def RequestLine.request (l : RequestLine) (rest : List UInt8) : UrlRequest where
  method := l.method
  host := l.host
  port := l.port
  path := some l.path
  rest := rest

section
variable {l : RequestLine}

theorem RequestLine.request_bytes (l : RequestLine) (rest : List UInt8) :
    (l.request rest).bytes = l.target ++ rest := by
  have hbytes : (l.request rest).bytes =
      l.method ++ 32 :: (chars "http://" ++ (l.url ++ 32 :: rest)) := rfl
  rw [hbytes, target]
  simp

theorem RequestLine.host_length (l : RequestLine) : l.host.length ≤ l.hostPort.length := by
  unfold hostPort
  split
  · rw [List.length_append]
    exact Nat.le_add_right _ _
  · exact le_rfl

/-- The CR of the blank line comes after the part of the request line that is looked at. -/
theorem RequestLine.WellFormed.cr_not_mem (h : l.WellFormed) : 13 ∉ l.target := by
  intro hm
  simp only [RequestLine.target, List.mem_append, List.mem_cons, List.not_mem_nil, or_false] at hm
  rcases hm with hm | hm | hm | hm | hm
  · exact (h.plain 13 (List.mem_append_left _ hm)).2.1 rfl
  · cases hm
  · revert hm
    decide
  · exact (h.plain 13 (List.mem_append_right _ hm)).2.1 rfl
  · cases hm

theorem RequestLine.WellFormed.request (h : l.WellFormed) (h0 : 0 ∉ l.target ++ rest)
    (hc : isCompleteRequest (l.target ++ rest)) : (l.request rest).WellFormed where
  method := h.method
  host := h.host
  plain := fun hm => (h.plain 32 hm).2.2 rfl
  colon := h.colon
  slash := h.slash
  text := l.request_bytes rest ▸ h0
  complete := l.request_bytes rest ▸ hc
  methodFits := h.methodFits
  urlFits := h.urlFits
  hostFits := l.host_length.trans_lt h.hostFits
  portFits := h.portFits
  pathFits := fun _ hp => Option.some.inj hp ▸ h.pathFits

/-- The parts depend on nothing that comes after the URL, -/
theorem RequestLine.WellFormed.targetOf (h : l.WellFormed) (h0 : 0 ∉ l.target ++ rest)
    (hc : isCompleteRequest (l.target ++ rest)) (block : List UInt8) :
    targetOf block (l.target ++ rest) = l.parsed := by
  have ht := (h.request h0 hc).targetOf block
  rw [l.request_bytes] at ht
  exact ht

/-- and they fit. -/
theorem RequestLine.WellFormed.fits_iff (h : l.WellFormed) (h0 : 0 ∉ l.target ++ rest)
    (hc : isCompleteRequest (l.target ++ rest)) (block : List UInt8) :
    Fits sizes block (l.target ++ rest) ↔ (l.target ++ rest).length < maxObjectSize := by
  have hf := (h.request h0 hc).fits_iff block
  rw [l.request_bytes] at hf
  rw [hf]
  exact and_iff_left ⟨h.hostFits, fun hp => by cases hp⟩

end
end Cs324.EpollProxy
