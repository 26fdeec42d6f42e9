import Mathlib.Data.List.Basic

namespace Cs324
set_option autoImplicit true

/-- Store bytes at an offset of a block of memory, which is given by its bytes up to the last one
that was stored; those after it are zero. -/
def store (block : List UInt8) (offset : Nat) (bytes : List UInt8) : List UInt8 :=
  block.take offset ++ List.replicate (offset - block.length) 0 ++ bytes ++
    block.drop (offset + bytes.length)

/-- Store bytes in a block of memory that ends with its bytes; `none` beyond the end. -/
def storeIn (block : List UInt8) (offset : Nat) (bytes : List UInt8) : Option (List UInt8) :=
  if offset + bytes.length ≤ block.length then some (store block offset bytes) else none

/-- The bytes of a block from an offset on. -/
def load (block : List UInt8) (offset count : Nat) : List UInt8 :=
  (block.drop offset).take count ++ List.replicate (count - (block.length - offset)) 0

theorem store_length (block bytes : List UInt8) :
    store block block.length bytes = block ++ bytes := by
  simp [store]

/-- Storing on from where the last store ended. -/
theorem storeIn_append (hd : List.length d = offset) (h : bytes.length ≤ rest.length) :
    storeIn (d ++ rest) offset bytes = some (d ++ bytes ++ rest.drop bytes.length) := by
  subst hd
  rw [storeIn, if_pos (by rw [List.length_append]; omega), store, List.take_left,
    List.drop_length_add_append, Nat.sub_eq_zero_of_le (by rw [List.length_append]; omega),
    List.replicate_zero, List.append_nil]

theorem storeIn_some (h : storeIn block offset bytes = some stored) :
    offset + bytes.length ≤ block.length ∧ stored.length = block.length := by
  rw [storeIn] at h
  split at h
  · rename_i hfit
    cases h
    refine ⟨hfit, ?_⟩
    simp only [store, List.length_append, List.length_take, List.length_replicate, List.length_drop]
    omega
  · cases h

theorem storeIn_front (h : bytes.length ≤ block.length) :
    storeIn block 0 bytes = some (bytes ++ block.drop bytes.length) :=
  storeIn_append (d := []) rfl h

theorem load_eq (h : offset + count ≤ block.length) :
    load block offset count = (block.drop offset).take count := by
  have : count - (block.length - offset) = 0 := by omega
  simp [load, this]

theorem load_isPrefix (hp : p <+: block) (h : offset + count ≤ p.length) :
    load block offset count = load p offset count := by
  obtain ⟨rest, rfl⟩ := hp
  rw [load_eq h, load_eq (by rw [List.length_append]; omega),
    List.drop_append_of_le_length (by omega),
    List.take_append_of_le_length (by rw [List.length_drop]; omega)]

theorem take_append_load (h : offset + count ≤ block.length) :
    block.take offset ++ load block offset count = block.take (offset + count) := by
  rw [load_eq h, List.take_add]

theorem load_length (block : List UInt8) (offset count : Nat) :
    (load block offset count).length = count := by
  simp only [load, List.length_append, List.length_take, List.length_drop, List.length_replicate]
  omega

/-- A store in three parts. -/
theorem storeIn_parts (h : storeIn block offset bytes = some stored) :
    stored = block.take offset ++ (bytes ++ block.drop (offset + bytes.length)) ∧
      (block.take offset).length = offset := by
  obtain ⟨hfit, -⟩ := storeIn_some h
  rw [storeIn, if_pos hfit] at h
  cases h
  refine ⟨?_, List.length_take_of_le (by omega)⟩
  rw [store, Nat.sub_eq_zero_of_le (by omega), List.replicate_zero, List.append_nil,
    List.append_assoc]

theorem load_storeIn (h : storeIn block offset bytes = some stored) :
    load stored offset bytes.length = bytes := by
  obtain ⟨hfit, hlength⟩ := storeIn_some h
  obtain ⟨hparts, htake⟩ := storeIn_parts h
  rw [load_eq (by omega), hparts, List.drop_left' htake, List.take_left]

/-- A store leaves the bytes before and behind it as they are. -/
theorem load_storeIn_other (h : storeIn block offset bytes = some stored)
    (hin : start + count ≤ block.length)
    (hapart : start + count ≤ offset ∨ offset + bytes.length ≤ start) :
    load stored start count = load block start count := by
  obtain ⟨hfit, hlength⟩ := storeIn_some h
  obtain ⟨hparts, htake⟩ := storeIn_parts h
  rcases hapart with hbefore | hbehind
  · have hprefix : block.take offset <+: stored := ⟨_, hparts.symm⟩
    have hle : start + count ≤ (block.take offset).length := by
      omega
    rw [load_isPrefix hprefix hle, load_isPrefix (List.take_prefix offset block) hle]
  · obtain ⟨d, rfl⟩ := Nat.exists_eq_add_of_le hbehind
    have hdrop : stored.drop (offset + bytes.length) = block.drop (offset + bytes.length) := by
      rw [hparts, ← List.append_assoc]
      apply List.drop_left'
      rw [List.length_append, htake]
    rw [load_eq (by omega), load_eq hin, ← List.drop_drop (i := d) (j := offset + bytes.length),
      hdrop, List.drop_drop]

theorem load_load (h : offset + count ≤ block.length) (hin : start + n ≤ count) :
    load (load block offset count) start n = load block (offset + start) n := by
  rw [load_eq (by rw [load_length]; exact hin), load_eq h, load_eq (by omega), List.drop_take,
    List.drop_drop, List.take_take, Nat.min_eq_left (by omega)]

/-- A block that is read in pieces of one width. -/
theorem eq_flatMap_load {piece : Nat → List UInt8} (hlength : block.length = n * width)
    (h : ∀ k < n, load block (k * width) width = piece k) :
    block = (List.range n).flatMap piece := by
  induction n generalizing block with
  | zero =>
    rw [Nat.zero_mul] at hlength
    exact List.eq_nil_of_length_eq_zero hlength
  | succ n ih =>
    rw [Nat.succ_mul] at hlength
    have htake : (block.take (n * width)).length = n * width := List.length_take_of_le (by omega)
    have hfront : block.take (n * width) = (List.range n).flatMap piece := by
      apply ih htake
      intro k hk
      have hle : k * width + width ≤ n * width := by
        rw [← Nat.succ_mul]
        exact Nat.mul_le_mul_right width hk
      rw [← load_isPrefix (List.take_prefix _ _) (by omega), h k (by omega)]
    have hlast := h n (Nat.lt_succ_self n)
    rw [load_eq (by omega), List.take_of_length_le (by rw [List.length_drop]; omega)] at hlast
    rw [List.range_succ, List.flatMap_append, ← hfront, List.flatMap_singleton, ← hlast,
      List.take_append_drop]

end Cs324
