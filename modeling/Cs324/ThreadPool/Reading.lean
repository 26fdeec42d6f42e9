import Cs324.ThreadPool.ClientRequest
import Mathlib.Data.List.Infix

namespace Cs324.ThreadPool
set_option autoImplicit true
open EpollProxy (maxObjectSize blankLine isCompleteRequest)

/-- The first prefix that has a property. -/
theorem exists_first {P : List α → Prop} (h0 : ¬ P []) (h : ∃ p, p <+: l ∧ P p) :
    ∃ before last rest, l = before ++ last :: rest ∧ P (before ++ [last]) ∧
      ∀ p, p <+: before → ¬ P p := by
  induction l using List.reverseRecOn with
  | nil =>
    obtain ⟨p, hp, hP⟩ := h
    rw [List.prefix_nil.1 hp] at hP
    exact absurd hP h0
  | append_singleton l a ih =>
    by_cases hl : ∃ p, p <+: l ∧ P p
    · obtain ⟨before, last, rest, rfl, hlast, hbefore⟩ := ih hl
      exact ⟨before, last, rest ++ [a], by simp, hlast, hbefore⟩
    · obtain ⟨p, hp, hP⟩ := h
      rcases List.prefix_concat_iff.1 hp with rfl | hp
      · exact ⟨l, a, [], rfl, hP, fun p hp hP => hl ⟨p, hp, hP⟩⟩
      · exact absurd ⟨p, hp, hP⟩ hl

theorem received_append (reads reads' : List Chunk) :
    received (reads ++ reads') = received reads ++ received reads' := by
  simp [received]

theorem received_singleton (chunk : Chunk) : received [chunk] = chunk.1 := by
  simp [received]

theorem received_snoc_length (reads : List Chunk) (chunk : Chunk) :
    (received (reads ++ [chunk])).length = (received reads).length + chunk.1.length := by
  rw [received_append, received_singleton, List.length_append]

/-- A block after some reads into it: what they returned, and the old bytes behind that. -/
def filled (block : List UInt8) (reads : List Chunk) : List UInt8 :=
  received reads ++ block.drop (received reads).length

/-- After none of these reads the block holds a complete request; each stays inside the block and
leaves a terminator in it. -/
def Passed (block : List UInt8) (reads : List Chunk) : Prop :=
  ∀ p, p <+: reads → p ≠ [] → (received p).length ≤ block.length ∧ 0 ∈ filled block p ∧
    ¬ isCompleteRequest (cstring (filled block p))

/-- The read after which the block holds a complete request. -/
structure Completed (block : List UInt8) (before : List Chunk) (last : Chunk) : Prop where
  passed : Passed block before
  fits : (received (before ++ [last])).length ≤ block.length
  terminated : 0 ∈ filled block (before ++ [last])
  complete : isCompleteRequest (cstring (filled block (before ++ [last])))

theorem passed_nil (block : List UInt8) : Passed block [] := by
  intro p hp hne
  exact absurd (List.prefix_nil.1 hp) hne

theorem passed_snoc {block : List UInt8} {reads : List Chunk} {chunk : Chunk} :
    Passed block (reads ++ [chunk]) ↔ Passed block reads ∧
      (received (reads ++ [chunk])).length ≤ block.length ∧ 0 ∈ filled block (reads ++ [chunk]) ∧
        ¬ isCompleteRequest (cstring (filled block (reads ++ [chunk]))) := by
  constructor
  · intro h
    refine ⟨?_, h _ (List.prefix_refl _) (by simp)⟩
    intro p hp hne
    exact h p (hp.trans (List.prefix_append _ _)) hne
  · rintro ⟨h, hlast⟩ p hp hne
    rcases List.prefix_concat_iff.1 hp with rfl | hp
    · exact hlast
    · exact h p hp hne

theorem storeIn_filled (done : List Chunk) (chunk : Chunk) (block : List UInt8)
    (hd : (received done).length ≤ block.length) :
    storeIn (filled block done) (received done).length chunk.1 =
      if (received (done ++ [chunk])).length ≤ block.length then
        some (filled block (done ++ [chunk]))
      else none := by
  have hlength := received_snoc_length done chunk
  by_cases hfit : (received (done ++ [chunk])).length ≤ block.length
  · rw [if_pos hfit, filled, storeIn_append rfl (by rw [List.length_drop]; omega), List.drop_drop,
      filled, hlength, received_append, received_singleton]
  · rw [if_neg hfit, storeIn, if_neg]
    simp only [filled, List.length_append, List.length_drop]
    omega

section loop
variable {block : List UInt8} {before reads : List Chunk} {last : Chunk}

theorem Passed.fits (h : Passed block reads) : (received reads).length ≤ block.length := by
  cases reads with
  | nil => exact Nat.zero_le _
  | cons chunk reads => exact (h _ (List.prefix_refl _) (List.cons_ne_nil _ _)).1

theorem getClientRequest_cons (hd : (received before).length ≤ block.length) (reset : Bool)
    (chunk : Chunk) (reads : List Chunk) :
    getClientRequest (filled block before) (received before).length reset (chunk :: reads) =
      if (received (before ++ [chunk])).length ≤ block.length then
        if 0 ∈ filled block (before ++ [chunk]) then
          if isCompleteRequest (cstring (filled block (before ++ [chunk]))) then
            .ok (filled block (before ++ [chunk]), reads)
          else getClientRequest (filled block (before ++ [chunk]))
            (received (before ++ [chunk])).length reset reads
        else .error .undefined
      else .error .undefined := by
  rw [getClientRequest, storeIn_filled _ _ _ hd, ← received_snoc_length]
  by_cases hfit : (received (before ++ [chunk])).length ≤ block.length
  · rw [if_pos hfit, if_pos hfit]
    rfl
  · rw [if_neg hfit, if_neg hfit]
    rfl

/-- The loop goes through the reads that complete nothing. -/
theorem Passed.getClientRequest (h : Passed block before) (reset : Bool) (reads : List Chunk) :
    getClientRequest block 0 reset (before ++ reads) =
      ThreadPool.getClientRequest (filled block before) (received before).length reset reads := by
  induction before using List.reverseRecOn generalizing reads with
  | nil => rfl
  | append_singleton before chunk ih =>
    obtain ⟨h, hfit, h0, hc⟩ := passed_snoc.1 h
    rw [List.append_assoc, List.singleton_append, ih h, getClientRequest_cons h.fits, if_pos hfit,
      if_pos h0, if_neg hc]

theorem Completed.getClientRequest (h : Completed block before last) (reset : Bool)
    (unread : List Chunk) :
    getClientRequest block 0 reset (before ++ last :: unread) =
      .ok (filled block (before ++ [last]), unread) := by
  rw [h.passed.getClientRequest, getClientRequest_cons h.passed.fits, if_pos h.fits,
    if_pos h.terminated, if_pos h.complete]

/-- The loop ends with a complete request, or with the end of the stream. -/
theorem getClientRequest_ok (hp : Passed block before)
    (h : getClientRequest (filled block before) (received before).length reset reads =
      .ok (clientReq, unread)) :
    (∃ more last, reads = more ++ last :: unread ∧ Completed block (before ++ more) last ∧
      clientReq = filled block (before ++ more ++ [last])) ∨
    unread = [] ∧ reset = false ∧ Passed block (before ++ reads) ∧
      clientReq = filled block (before ++ reads) := by
  induction reads generalizing before with
  | nil =>
    rw [getClientRequest] at h
    cases reset with
    | true => cases h
    | false =>
      obtain ⟨_, h⟩ := ensure_eq_ok.1 h
      cases h
      rw [List.append_nil]
      exact .inr ⟨rfl, rfl, hp, rfl⟩
  | cons chunk reads ih =>
    rw [getClientRequest_cons hp.fits, ensure_eq_ok, ensure_eq_ok] at h
    obtain ⟨hfit, h0, h⟩ := h
    by_cases hc : isCompleteRequest (cstring (filled block (before ++ [chunk])))
    · rw [if_pos hc] at h
      cases h
      exact .inl ⟨[], chunk, rfl, by rw [List.append_nil]; exact ⟨hp, hfit, h0, hc⟩,
        by rw [List.append_nil]⟩
    · rw [if_neg hc] at h
      rcases ih (passed_snoc.2 ⟨hp, hfit, h0, hc⟩) h with ⟨more, last, rfl, hm, rfl⟩ | hend
      · refine .inl ⟨chunk :: more, last, rfl, ?_, ?_⟩
        · rw [List.append_cons]
          exact hm
        · rw [← List.append_cons]
      · rw [List.append_cons]
        exact .inr hend

end loop

theorem reformatClientRequest_iff {m : Memory} {request : List UInt8} {r : Reformatted} :
    reformatClientRequest m request = .ok (some r) ↔ isCompleteRequest request ∧
      ∃ t, parseRequest m request = some t ∧ 0 ∈ m.serverReq.1 ∧
        (cstring m.serverReq.1 ++ t.request).length < httpRequestMaxSize ∧
        r = ⟨t.host, t.port, cstring m.serverReq.1 ++ t.request⟩ := by
  rw [reformatClientRequest]
  by_cases hc : isCompleteRequest request
  · rw [if_pos hc, bind_eq_ok]
    simp only [orError_eq_ok, ensure_eq_ok, pure, Except.pure, Except.ok.injEq, Option.some.injEq,
      and_assoc, hc, true_and, eq_comm (a := r)]
  · simp [hc, pure, Except.pure]

theorem blankLine_not_received : ¬ blankLine <:+: received [] := by
  decide

/-- The first part of the work for a client whose blank line has been read when it is done. -/
theorem clientToProxy_iff {m : Memory} {client : Stream} {r : Reformatted} {unread : List Chunk} :
    (clientToProxy m client = .ok (some r, unread) ∧
      ∃ reads, client.reads = reads ++ unread ∧ blankLine <:+: received reads) ↔
    ∃ before last, client.reads = before ++ last :: unread ∧
      blankLine <:+: received (before ++ [last]) ∧ Completed m.clientReq.1 before last ∧
      reformatClientRequest m (cstring (filled m.clientReq.1 (before ++ [last]))) =
        .ok (some r) := by
  constructor
  · rintro ⟨h, reads, hreads, hblank⟩
    obtain ⟨⟨clientReq, unread⟩, hget, h⟩ := bind_eq_ok.1 h
    obtain ⟨r, hr, h⟩ := bind_eq_ok.1 h
    cases h
    rcases getClientRequest_ok (passed_nil m.clientReq.1) hget with
      ⟨before, last, he, hc, rfl⟩ | ⟨rfl, -, hp, rfl⟩
    · refine ⟨before, last, he, ?_, hc, hr⟩
      rw [he, List.append_cons, List.append_cancel_right_eq] at hreads
      rw [hreads]
      exact hblank
    · rw [List.append_nil] at hreads
      have hne : client.reads ≠ [] := by
        intro hnil
        rw [← hreads, hnil] at hblank
        exact blankLine_not_received hblank
      have hnever := (hp _ (List.prefix_refl _) hne).2.2
      rw [reformatClientRequest, if_neg hnever] at hr
      cases hr
  · rintro ⟨before, last, he, hblank, hc, hr⟩
    refine ⟨?_, before ++ [last], by rw [he, List.append_cons], hblank⟩
    rw [clientToProxy, he, hc.getClientRequest]
    simp only [bind, Except.bind, hr]
    rfl

end Cs324.ThreadPool
