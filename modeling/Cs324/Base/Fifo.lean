import Cs324.Base.Machine
import Mathlib.Data.List.Nodup

namespace Cs324
set_option autoImplicit true

/-- What has gone through a queue: the items put into it, and those taken out, each by whom. -/
structure Traffic (ω α : Type) where
  inserted : List α
  taken : List (ω × α)

inductive QueueOp (ω α : Type)
  | put (item : α)
  | take (taker : ω)

namespace Traffic
variable {ω α : Type} {q : Traffic ω α} {item : α}

def waiting (q : Traffic ω α) : List α := q.inserted.drop q.taken.length

/-- A queue with `n` places, first in, first out. -/
def fifo (ω α : Type) (n : Nat) : Machine (Traffic ω α) (QueueOp ω α) where
  start := ⟨[], []⟩
  next q
    | .put item =>
      if q.waiting.length < n then some { q with inserted := q.inserted ++ [item] } else none
    | .take taker =>
      q.waiting.head?.map fun item => { q with taken := q.taken ++ [(taker, item)] }

theorem waiting_length (q : Traffic ω α) :
    q.waiting.length = q.inserted.length - q.taken.length := List.length_drop

theorem head?_waiting (q : Traffic ω α) : q.waiting.head? = q.inserted[q.taken.length]? :=
  List.head?_drop

/-- The items are taken in the order in which they were put in, and no more wait than there are
places. -/
structure Orderly (n : Nat) (q : Traffic ω α) : Prop where
  order : q.taken.map Prod.snd <+: q.inserted
  bounded : q.waiting.length ≤ n

theorem Orderly.le (h : Orderly n q) : q.taken.length ≤ q.inserted.length := by
  simpa using h.order.length_le

theorem Orderly.put (h : Orderly n q) (hn : q.waiting.length < n) (item : α) :
    Orderly n { q with inserted := q.inserted ++ [item] } where
  order := h.order.trans (List.prefix_append _ _)
  bounded := by
    simp only [waiting_length, List.length_append, List.length_singleton] at hn ⊢
    omega

theorem Orderly.take (h : Orderly n q) (hw : q.waiting.head? = some item) (taker : ω) :
    Orderly n { q with taken := q.taken ++ [(taker, item)] } where
  order := by
    rw [head?_waiting] at hw
    obtain ⟨hlt, rfl⟩ := List.getElem?_eq_some_iff.1 hw
    have hpre := List.prefix_iff_eq_take.1 h.order
    rw [List.length_map] at hpre
    rw [List.map_append, List.map_singleton, hpre, List.take_append_getElem]
    exact List.take_prefix _ _
  bounded := by
    have hb := h.bounded
    simp only [waiting_length, List.length_append, List.length_singleton] at hb ⊢
    omega

theorem orderly (h : (fifo ω α n).Reachable q) : Orderly n q := by
  apply h.invariant
  · exact ⟨List.prefix_rfl, Nat.zero_le _⟩
  · intro q op q' _ hq _ hn
    cases op with
    | put item =>
      simp only [fifo, Option.ite_none_right_eq_some, Option.some.injEq] at hn
      obtain ⟨hlt, rfl⟩ := hn
      exact hq.put hlt item
    | take taker =>
      obtain ⟨item, hw, rfl⟩ := Option.map_eq_some_iff.1 hn
      exact hq.take hw taker

/-- No item is taken twice, if `f` tells the items apart. -/
theorem Orderly.taken_once (h : Orderly n q) (f : α → β) (hn : (q.inserted.map f).Nodup) :
    (q.taken.map fun entry => f entry.2).Nodup := by
  have hprefix := h.order.map f
  rw [List.map_map] at hprefix
  exact hn.sublist hprefix.sublist

end Traffic
end Cs324
