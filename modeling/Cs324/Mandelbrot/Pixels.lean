import Cs324.Mandelbrot.Threads
import Mathlib.Tactic.Ring

namespace Cs324.Mandelbrot
set_option autoImplicit true

/-- Where the bytes of a pixel are in `buf`. -/
def Picture.slot (p : Picture) (j i : Nat) : Nat := (j * p.xres.toNat + i) * pixelSize

def Drawn (A : Arithmetic D) (p : Picture) (buf : List UInt8) (j i : Nat) : Prop :=
  load buf (p.slot j i) pixelSize = p.pixel A j i

section slots
variable {p : Picture}

theorem slot_apart (hi : i < p.xres.toNat) (hi' : i' < p.xres.toNat) (hne : j ≠ j' ∨ i ≠ i') :
    p.slot j i + pixelSize ≤ p.slot j' i' ∨ p.slot j' i' + pixelSize ≤ p.slot j i := by
  have hrow : ∀ {a b}, a < b → a * p.xres.toNat + p.xres.toNat ≤ b * p.xres.toNat := by
    intro a b hab
    rw [← Nat.succ_mul]
    exact Nat.mul_le_mul_right _ hab
  simp only [Picture.slot, pixelSize]
  rcases lt_trichotomy j j' with hj | rfl | hj
  · have := hrow hj
    omega
  · omega
  · have := hrow hj
    omega

theorem slot_inside (hj : j < p.yres.toNat) (hi : i < p.xres.toNat) :
    p.slot j i + pixelSize ≤ p.yres.toNat * p.xres.toNat * pixelSize := by
  have hrow : j * p.xres.toNat + p.xres.toNat ≤ p.yres.toNat * p.xres.toNat := by
    rw [← Nat.succ_mul]
    exact Nat.mul_le_mul_right _ hj
  simp only [Picture.slot, pixelSize]
  omega

theorem offset_eq (hsmall : pixelSize * p.xres * p.yres < 2 ^ 31) (hj : j < p.yres.toNat)
    (hi : i < p.xres.toNat) : int32 ((j * p.xres + i) * pixelSize) = p.slot j i := by
  have hinside := slot_inside hj hi
  have hx : (p.xres.toNat : Int) = p.xres := by
    omega
  have hy : (p.yres.toNat : Int) = p.yres := by
    omega
  have hslot : ((j * p.xres + i) * pixelSize : Int) = p.slot j i := by
    rw [Picture.slot, Nat.cast_mul, Nat.cast_add, Nat.cast_mul, hx]
  have hbytes : (p.slot j i : Int) + pixelSize ≤ p.yres * p.xres * pixelSize := by
    rw [← hx, ← hy]
    exact_mod_cast hinside
  have hcomm : p.yres * p.xres * pixelSize = pixelSize * p.xres * p.yres := by
    ring
  rw [hslot]
  apply int32_eq
  · omega
  · have : (0 : Int) ≤ pixelSize := by
      simp [pixelSize]
    omega

theorem byteRes_eq (hsmall : pixelSize * p.xres * p.yres < 2 ^ 31)
    (hsize : p.xres * p.yres = p.xres.toNat * p.yres.toNat) :
    p.byteRes.toNat = p.yres.toNat * p.xres.toNat * pixelSize := by
  have hbytes : p.xres * p.yres * pixelSize =
      ((p.yres.toNat * p.xres.toNat * pixelSize : Nat) : Int) := by
    rw [hsize]
    push_cast
    ring
  have hcomm : p.xres * p.yres * pixelSize = pixelSize * p.xres * p.yres := by
    ring
  rw [Picture.byteRes, int32_eq (by omega) (by omega), hbytes, Int.toNat_natCast]

end slots

/-- The picture is drawn exactly if all its pixels are. -/
theorem eq_orig {A : Arithmetic D} {p : Picture} {buf : List UInt8}
    (hlength : buf.length = p.yres.toNat * p.xres.toNat * pixelSize)
    (h : ∀ j < p.yres.toNat, ∀ i < p.xres.toNat, Drawn A p buf j i) : buf = orig p A := by
  rw [Nat.mul_assoc] at hlength
  apply eq_flatMap_load hlength
  intro j hj
  have hrow : j * (p.xres.toNat * pixelSize) + p.xres.toNat * pixelSize ≤ buf.length := by
    rw [hlength, ← Nat.succ_mul]
    exact Nat.mul_le_mul_right _ hj
  apply eq_flatMap_load (load_length _ _ _)
  intro i hi
  have hpixel : i * pixelSize + pixelSize ≤ p.xres.toNat * pixelSize := by
    rw [← Nat.succ_mul]
    exact Nat.mul_le_mul_right _ hi
  have hslot : j * (p.xres.toNat * pixelSize) + i * pixelSize = p.slot j i := by
    rw [Picture.slot]
    ring
  rw [load_load hrow hpixel, hslot]
  exact h j hj i hi

/-- The rows that a thread has not finished. -/
def Local.current (l : Local D) : List Nat :=
  match l.pc with
  | .nextRow | .done => l.rows
  | _ => l.j :: l.rows

/-- The thread is in the loop over `i`. -/
def Pc.InRow : Pc → Prop
  | .nextRow | .setY | .done => False
  | _ => True

/-- The thread is at work on the pixel in column `i`. -/
def Pc.InPixel : Pc → Prop
  | .nextRow | .setY | .testI | .done => False
  | _ => True

/-- From here on, the loop over `k` ends with the count of the pixel. -/
def Local.Counts (A : Arithmetic D) (p : Picture) (own : Vars D) (l : Local D) (k : Nat)
    (u v u2 v2 : D) : Prop :=
  iterate A own.x own.y (p.maxiter.toNat - k) k u v u2 v2 = p.count A l.j l.i

/-- What a thread without disturbance knows before each statement for a pixel. -/
def Local.Holds (A : Arithmetic D) (p : Picture) (own : Vars D) (l : Local D) : Prop :=
  match l.pc with
  | .nextRow | .setY | .testI | .setX | .incI => True
  | .done => l.rows = []
  | .setK => l.Counts A p own 1 l.u l.v l.u2 l.v2
  | .testK => l.Counts A p own own.k l.u l.v l.u2 l.v2
  | .setV => own.k < p.maxiter.toNat ∧ A.inside l.u2 l.v2 ∧
      l.Counts A p own own.k l.u l.v l.u2 l.v2
  | .setU => l.Counts A p own (own.k + 1) (A.nextU l.u2 l.v2 own.x) l.v
      (A.square (A.nextU l.u2 l.v2 own.x)) (A.square l.v)
  | .setU2 => l.Counts A p own (own.k + 1) l.u l.v (A.square l.u) (A.square l.v)
  | .setV2 => l.Counts A p own (own.k + 1) l.u l.v l.u2 (A.square l.v)
  | .incK => l.Counts A p own (own.k + 1) l.u l.v l.u2 l.v2
  | .setOffset => own.k = p.count A l.j l.i
  | .testPixel => own.k = p.count A l.j l.i ∧ own.offset = p.slot l.j l.i
  | .copyBlack => p.maxiter.toNat ≤ p.count A l.j l.i ∧ own.offset = p.slot l.j l.i
  | .setColor n => (own.k = p.count A l.j l.i ∧ own.offset = p.slot l.j l.i) ∧
      p.count A l.j l.i < p.maxiter.toNat ∧ n < pixelSize ∧
      l.color = (List.range n).map (colorByte (p.count A l.j l.i))
  | .copyColor => own.offset = p.slot l.j l.i ∧ l.color = p.pixel A l.j l.i

/-- A thread without disturbance has drawn all that it has been through of its rows. -/
structure Working (A : Arithmetic D) (p : Picture) (rows : List Nat) (own : Vars D)
    (buf : List UInt8) (l : Local D) : Prop where
  left : l.current ⊆ rows
  finished : ∀ j ∈ rows, j ∉ l.current → ∀ i < p.xres.toNat, Drawn A p buf j i
  row : l.pc.InRow → own.y = A.yAt l.j ∧ l.i ≤ p.xres.toNat ∧ ∀ i < l.i, Drawn A p buf l.j i
  column : l.pc.InPixel → l.i < p.xres.toNat
  holds : l.Holds A p own
  drawn : l.pc = .incI → Drawn A p buf l.j l.i

section threads
variable {A : Arithmetic D} {p : Picture} {rows : List Nat} {own own' : Vars D} {buf : List UInt8}
  {l l' : Local D}

theorem Pc.InPixel.inRow {pc : Pc} (h : pc.InPixel) : pc.InRow := by
  cases pc <;> first | exact h | trivial

theorem current_of_inRow (h : l.pc.InRow) : l.current = l.j :: l.rows := by
  unfold Local.current
  split
  next hpc => rw [hpc] at h; exact h.elim
  next hpc => rw [hpc] at h; exact h.elim
  next => rfl

theorem Working.mem_rows (h : Working A p rows own buf l) (hpc : l.pc.InRow) : l.j ∈ rows := by
  apply h.left
  rw [current_of_inRow hpc]
  exact List.mem_cons_self

/-- A statement that leaves the thread at the same pixel. -/
theorem Working.stay (h : Working A p rows own buf l) (hpc : l.pc.InPixel) (hpc' : l'.pc.InPixel)
    (hne : l'.pc ≠ .incI) (hrows : l'.rows = l.rows) (hj : l'.j = l.j) (hi : l'.i = l.i)
    (hy : own'.y = own.y) (hholds : l'.Holds A p own') : Working A p rows own' buf l' := by
  have hcurrent : l'.current = l.current := by
    rw [current_of_inRow hpc.inRow, current_of_inRow hpc'.inRow, hrows, hj]
  refine ⟨?_, ?_, fun _ => ?_, fun _ => ?_, hholds, fun he => absurd he hne⟩
  · rw [hcurrent]
    exact h.left
  · rw [hcurrent]
    exact h.finished
  · rw [hy, hj, hi]
    exact h.row hpc.inRow
  · rw [hi]
    exact h.column hpc

theorem Working.nextRow (h : Working A p rows own buf l) (hpc : l.pc = .nextRow)
    (he : exec A p own l = some e) :
    Working A p rows (e.store.apply own) buf e.thread ∧ e.copy = none := by
  have hcurrent : l.current = l.rows := by
    rw [Local.current, hpc]
  have hleft := h.left
  have hfinished := h.finished
  rw [hcurrent] at hleft hfinished
  simp only [exec, hpc] at he
  split at he
  next hrows =>
    cases he
    exact ⟨⟨hleft, hfinished, False.elim, False.elim, hrows, by simp⟩, rfl⟩
  next j rest hrows =>
    cases he
    rw [hrows] at hleft hfinished
    exact ⟨⟨hleft, hfinished, False.elim, False.elim, trivial, by simp⟩, rfl⟩

theorem Working.setY (h : Working A p rows own buf l) (hpc : l.pc = .setY)
    (he : exec A p own l = some e) :
    Working A p rows (e.store.apply own) buf e.thread ∧ e.copy = none := by
  have hcurrent : l.current = l.j :: l.rows := by
    rw [Local.current, hpc]
  have hleft := h.left
  have hfinished := h.finished
  rw [hcurrent] at hleft hfinished
  simp only [exec, hpc] at he
  cases he
  refine ⟨⟨hleft, hfinished, fun _ => ⟨rfl, Nat.zero_le _, ?_⟩, False.elim, trivial, by simp⟩, rfl⟩
  rintro i ⟨⟩

theorem Working.testI (h : Working A p rows own buf l) (hpc : l.pc = .testI)
    (he : exec A p own l = some e) :
    Working A p rows (e.store.apply own) buf e.thread ∧ e.copy = none := by
  have hrow : l.pc.InRow := by
    rw [hpc]
    trivial
  obtain ⟨hy, hi, hdrawn⟩ := h.row hrow
  have hleft := h.left
  have hfinished := h.finished
  rw [current_of_inRow hrow] at hleft hfinished
  simp only [exec, hpc] at he
  cases he
  refine ⟨?_, rfl⟩
  by_cases hlt : (l.i : Int) < p.xres
  · have hcolumn : l.i < p.xres.toNat := by
      omega
    rw [if_pos hlt]
    exact ⟨hleft, hfinished, fun _ => ⟨hy, hi, hdrawn⟩, fun _ => hcolumn, trivial, by simp⟩
  · rw [if_neg hlt]
    refine ⟨List.subset_of_cons_subset hleft, ?_, False.elim, False.elim, trivial, by simp⟩
    intro j hj hnot i hlt'
    by_cases he : j = l.j
    · subst he
      exact hdrawn i (by omega)
    · exact hfinished j hj (List.not_mem_cons_of_ne_of_not_mem he hnot) i hlt'

theorem Working.incI (h : Working A p rows own buf l) (hpc : l.pc = .incI)
    (he : exec A p own l = some e) :
    Working A p rows (e.store.apply own) buf e.thread ∧ e.copy = none := by
  have hpixel : l.pc.InPixel := by
    rw [hpc]
    trivial
  obtain ⟨hy, -, hdrawn⟩ := h.row hpixel.inRow
  have hleft := h.left
  have hfinished := h.finished
  rw [current_of_inRow hpixel.inRow] at hleft hfinished
  simp only [exec, hpc] at he
  cases he
  refine ⟨⟨hleft, hfinished, fun _ => ⟨hy, h.column hpixel, ?_⟩, False.elim, trivial, by simp⟩, rfl⟩
  intro i hlt
  rcases Nat.lt_succ_iff_lt_or_eq.1 hlt with hlt | rfl
  · exact hdrawn i hlt
  · exact h.drawn hpc

/-- The statements for a pixel up to the one that copies its bytes. -/
theorem Working.compute (h : Working A p rows own buf l) (hpc : l.pc.InPixel)
    (hcopy : l.pc ≠ .copyBlack ∧ l.pc ≠ .copyColor ∧ l.pc ≠ .incI)
    (hj : l.j < p.yres.toNat) (hsmall : pixelSize * p.xres * p.yres < 2 ^ 31)
    (he : exec A p own l = some e) :
    Working A p rows (e.store.apply own) buf e.thread ∧ e.copy = none := by
  obtain ⟨hy, -, -⟩ := h.row hpc.inRow
  have hi := h.column hpc
  have hholds := h.holds
  have hstay := @Working.stay _ A p rows own (e.store.apply own) buf l e.thread h hpc
  cases hl : l.pc <;> simp only [hl, exec, Local.Holds] at he hholds
  case nextRow | setY | testI | done =>
    rw [hl] at hpc
    exact hpc.elim
  case copyBlack | copyColor | incI => simp [hl] at hcopy
  case setX =>
    cases he
    refine ⟨hstay trivial (by simp) rfl rfl rfl rfl ?_, rfl⟩
    change iterate A (A.xAt l.i) own.y _ _ _ _ _ _ = _
    rw [hy]
    rfl
  case setK | setU | setU2 | setV2 | incK =>
    cases he
    exact ⟨hstay trivial (by simp) rfl rfl rfl rfl hholds, rfl⟩
  case testK =>
    cases he
    refine ⟨?_, rfl⟩
    by_cases hturn : own.k < p.maxiter.toNat ∧ A.inside l.u2 l.v2
    · rw [if_pos hturn] at hstay ⊢
      exact hstay trivial (by simp) rfl rfl rfl rfl ⟨hturn.1, hturn.2, hholds⟩
    · rw [if_neg hturn] at hstay ⊢
      exact hstay trivial (by simp) rfl rfl rfl rfl ((iterate_end hturn _ _ _ _).symm.trans hholds)
  case setV =>
    cases he
    obtain ⟨hk, hin, hcounts⟩ := hholds
    exact ⟨hstay trivial (by simp) rfl rfl rfl rfl
      ((iterate_turn hk hin _ _ _ _).symm.trans hcounts), rfl⟩
  case setOffset =>
    cases he
    exact ⟨hstay trivial (by simp) rfl rfl rfl rfl ⟨hholds, offset_eq hsmall hj hi⟩, rfl⟩
  case testPixel =>
    obtain ⟨hk, hoffset⟩ := hholds
    split at he
    next hle =>
      cases he
      exact ⟨hstay trivial (by simp) rfl rfl rfl rfl ⟨hk ▸ hle, hoffset⟩, rfl⟩
    next hlt =>
      cases he
      have hcount : p.count A l.j l.i < p.maxiter.toNat := by
        omega
      exact ⟨hstay trivial (by simp) rfl rfl rfl rfl ⟨⟨hk, hoffset⟩, hcount, by decide, rfl⟩, rfl⟩
  case setColor n =>
    cases he
    obtain ⟨⟨hk, hoffset⟩, hlt, hn, hcolor⟩ := hholds
    refine ⟨?_, rfl⟩
    have hnext : l.color ++ [colorByte own.k n] =
        (List.range (n + 1)).map (colorByte (p.count A l.j l.i)) := by
      rw [hcolor, hk, List.range_succ, List.map_append]
      rfl
    by_cases hlast : n + 1 < pixelSize
    · rw [if_pos hlast] at hstay ⊢
      exact hstay trivial (by simp) rfl rfl rfl rfl ⟨⟨hk, hoffset⟩, hlt, hlast, hnext⟩
    · rw [if_neg hlast] at hstay ⊢
      have hsix : n + 1 = pixelSize := by
        omega
      have hpixel : l.color ++ [colorByte own.k n] = p.pixel A l.j l.i := by
        rw [hnext, hsix, Picture.pixel, if_neg (by omega)]
        rfl
      exact hstay trivial (by simp) rfl rfl rfl rfl ⟨hoffset, hpixel⟩

theorem Drawn.other {bytes : List UInt8} (h : Drawn A p buf j' i')
    (hc : storeIn buf (p.slot j i) bytes = some buf') (hbytes : bytes.length = pixelSize)
    (hlength : buf.length = p.yres.toNat * p.xres.toNat * pixelSize) (hi : i < p.xres.toNat)
    (hj' : j' < p.yres.toNat) (hi' : i' < p.xres.toNat) (hne : j' ≠ j ∨ i' ≠ i) :
    Drawn A p buf' j' i' := by
  have hinside := slot_inside hj' hi'
  rw [← hlength] at hinside
  have hapart : p.slot j' i' + pixelSize ≤ p.slot j i ∨
      p.slot j i + bytes.length ≤ p.slot j' i' := by
    rw [hbytes]
    exact slot_apart hi' hi hne
  rw [Drawn, load_storeIn_other hc hinside hapart]
  exact h

/-- A thread has copied the bytes of its pixel. -/
theorem Working.copied (h : Working A p rows own buf l) (hpc : l.pc.InPixel)
    (hrows : ∀ j ∈ rows, j < p.yres.toNat)
    (hlength : buf.length = p.yres.toNat * p.xres.toNat * pixelSize)
    (hc : storeIn buf (p.slot l.j l.i) (p.pixel A l.j l.i) = some buf') :
    Working A p rows own buf' { l with pc := .incI } := by
  have hbytes := p.pixel_length A l.j l.i
  have hi := h.column hpc
  obtain ⟨hy, hle, hdrawn⟩ := h.row hpc.inRow
  have hleft := h.left
  have hfinished := h.finished
  rw [current_of_inRow hpc.inRow] at hleft hfinished
  have hj : l.j < p.yres.toNat := hrows _ (h.mem_rows hpc.inRow)
  refine ⟨hleft, ?_, fun _ => ⟨hy, hle, ?_⟩, fun _ => hi, trivial, fun _ => ?_⟩
  · intro j hj' hnot i hi'
    have hne : j ≠ l.j := by
      rintro rfl
      exact hnot List.mem_cons_self
    exact (hfinished j hj' hnot i hi').other hc hbytes hlength hi (hrows j hj') hi' (.inl hne)
  · intro i hlt
    exact (hdrawn i hlt).other hc hbytes hlength hi hj (hlt.trans hi) (.inr hlt.ne)
  · have hload := load_storeIn hc
    rw [hbytes] at hload
    exact hload

/-- What a statement leaves of the other rows. -/
def Leaves (A : Arithmetic D) (p : Picture) (rows : List Nat) (buf buf' : List UInt8) : Prop :=
  ∀ j < p.yres.toNat, j ∉ rows → ∀ i < p.xres.toNat, Drawn A p buf j i → Drawn A p buf' j i

theorem Working.frame (h : Working A p rows own buf l) (hrows : ∀ j ∈ rows, j < p.yres.toNat)
    (hdisjoint : ∀ j ∈ rows, j ∉ rows') (hleaves : Leaves A p rows' buf buf') :
    Working A p rows own buf' l := by
  have hkeep : ∀ j ∈ rows, ∀ i < p.xres.toNat, Drawn A p buf j i → Drawn A p buf' j i :=
    fun j hj => hleaves j (hrows j hj) (hdisjoint j hj)
  refine ⟨h.left, ?_, ?_, h.column, h.holds, ?_⟩
  · intro j hj hnot i hi
    exact hkeep j hj i hi (h.finished j hj hnot i hi)
  · intro hrow
    obtain ⟨hy, hle, hdrawn⟩ := h.row hrow
    exact ⟨hy, hle, fun i hi => hkeep _ (h.mem_rows hrow) i (hi.trans_le hle) (hdrawn i hi)⟩
  · intro hpc
    have hpixel : l.pc.InPixel := by
      rw [hpc]
      trivial
    exact hkeep _ (h.mem_rows hpixel.inRow) _ (h.column hpixel) (h.drawn hpc)

theorem Working.copy (h : Working A p rows own buf l) (hpc : l.pc.InPixel)
    (hrows : ∀ j ∈ rows, j < p.yres.toNat)
    (hlength : buf.length = p.yres.toNat * p.xres.toNat * pixelSize)
    (hoffset : own.offset = p.slot l.j l.i) (hbytes : bytes = p.pixel A l.j l.i)
    (hc : copyTo buf (some (own.offset, bytes)) = some buf') :
    Working A p rows own buf' { l with pc := .incI } ∧ buf'.length = buf.length ∧
      Leaves A p rows buf buf' := by
  rw [copyTo, hoffset, if_pos (Int.natCast_nonneg _), Int.toNat_natCast, hbytes] at hc
  refine ⟨h.copied hpc hrows hlength hc, (storeIn_some hc).2, ?_⟩
  intro j hj hnot i hi hdrawn
  apply hdrawn.other hc (p.pixel_length A _ _) hlength (h.column hpc) hj hi
  left
  rintro rfl
  exact hnot (h.mem_rows hpc.inRow)

/-- What one statement of an undisturbed thread does, for each statement of the loop. -/
theorem Working.step (h : Working A p rows own buf l) (hrows : ∀ j ∈ rows, j < p.yres.toNat)
    (hlength : buf.length = p.yres.toNat * p.xres.toNat * pixelSize)
    (hsmall : pixelSize * p.xres * p.yres < 2 ^ 31) (he : exec A p own l = some e)
    (hc : copyTo buf e.copy = some buf') :
    Working A p rows (e.store.apply own) buf' e.thread ∧ buf'.length = buf.length ∧
      Leaves A p rows buf buf' := by
  have hquiet : Working A p rows (e.store.apply own) buf e.thread ∧ e.copy = none →
      Working A p rows (e.store.apply own) buf' e.thread ∧ buf'.length = buf.length ∧
        Leaves A p rows buf buf' := by
    rintro ⟨hw, hnone⟩
    rw [hnone] at hc
    cases hc
    exact ⟨hw, rfl, fun _ _ _ _ _ hd => hd⟩
  have hholds := h.holds
  cases hl : l.pc with
  | nextRow => exact hquiet (h.nextRow hl he)
  | setY => exact hquiet (h.setY hl he)
  | testI => exact hquiet (h.testI hl he)
  | incI => exact hquiet (h.incI hl he)
  | done => simp [exec, hl] at he
  | copyBlack =>
    simp only [Local.Holds, hl] at hholds
    simp only [exec, hl] at he
    cases he
    refine h.copy (by rw [hl]; trivial) hrows hlength hholds.2 ?_ hc
    rw [Picture.pixel, if_pos hholds.1]
  | copyColor =>
    simp only [Local.Holds, hl] at hholds
    simp only [exec, hl] at he
    cases he
    exact h.copy (by rw [hl]; trivial) hrows hlength hholds.1 hholds.2 hc
  | _ =>
    have hpc : l.pc.InPixel := by
      rw [hl]
      trivial
    exact hquiet (h.compute hpc (by simp [hl]) (hrows _ (h.mem_rows hpc.inRow)) hsmall he)

end threads

/-- All threads draw what they should. -/
structure Drawing (A : Arithmetic D) (p : Picture) (schedule : Schedule T p.yres) (s : Sys T D) :
    Prop where
  length : s.buf.length = p.yres.toNat * p.xres.toNat * pixelSize
  threads : ∀ t, Working A p (schedule.rows t) (s.own t) s.buf (s.threads t)

section team
variable [DecidableEq T] {A : Arithmetic D} {p : Picture} {schedule : Schedule T p.yres}

theorem Drawing.step {s s' : Sys T D} (h : Drawing A p schedule s)
    (hsmall : pixelSize * p.xres * p.yres < 2 ^ 31) (hu : Undisturbed s t)
    (hn : Sys.next A p s t = some s') : Drawing A p schedule s' := by
  simp only [Sys.next, Option.bind_eq_bind, Option.bind_eq_some_iff, Option.pure_def,
    Option.some.injEq] at hn
  obtain ⟨e, he, buf, hc, rfl⟩ := hn
  rw [exec_own hu] at he
  obtain ⟨hw, hlength, hleaves⟩ :=
    (h.threads t).step (fun j hj => schedule.lt hj) h.length hsmall he hc
  refine ⟨hlength.trans h.length, fun t' => ?_⟩
  by_cases ht : t' = t
  · subst ht
    simpa only [Function.update_self] using hw
  · simp only [Function.update_of_ne ht]
    refine (h.threads t').frame (fun j hj => schedule.lt hj) ?_ hleaves
    intro j hj hj'
    exact ht (schedule.disjoint t' t j hj hj')

/-- In a run in which every statement finds what its own thread has stored, the threads write the
bytes of the sequential program, if `BYTE_RES` is the size of its pixels. -/
theorem drawn_as_sequential (A : Arithmetic D) {p : Picture} (schedule : Schedule T p.yres)
    (hsmall : pixelSize * p.xres * p.yres < 2 ^ 31)
    (hsize : p.xres * p.yres = p.xres.toNat * p.yres.toNat) (x y : D) (k : Nat)
    (block : List.Vector UInt8 p.byteRes.toNat) {s : Sys T D}
    (h : (mandelbrot A p schedule x y k block).Reach Undisturbed s)
    (hdone : ∀ t, (s.threads t).pc = .done) : s.buf = orig p A := by
  have hdrawing : Drawing A p schedule s := by
    apply h.invariant
    · refine ⟨block.2.trans (byteRes_eq hsmall hsize), fun t => ?_⟩
      exact ⟨List.Subset.refl _, fun j hj hnot => absurd hj hnot, False.elim, False.elim, trivial,
        nofun⟩
    · intro s t s' _ hs hu hn
      exact hs.step hsmall hu hn
  apply eq_orig hdrawing.length
  intro j hj i hi
  obtain ⟨t, ht⟩ := (schedule.covers j).2 (by omega)
  have hworking := hdrawing.threads t
  have hrows : (s.threads t).rows = [] := by
    have hholds := hworking.holds
    simpa only [Local.Holds, hdone t] using hholds
  apply hworking.finished j ht _ i hi
  rw [Local.current, hdone t]
  simp [hrows]

end team

def integers : Arithmetic Int where
  yAt j := j
  xAt i := i
  zero := 0
  square a := a * a
  nextV u v y := 2 * u * v + y
  nextU u2 v2 x := u2 - v2 + x
  inside u2 v2 := u2 + v2 < 4

/-- Two pixels, one above the other. -/
def column : Picture := ⟨1, 1, 2⟩

def columnRows (t : Fin 4) : List Nat := if t.1 < 2 then [t.1] else []

theorem mem_columnRows : j ∈ columnRows t ↔ t.1 < 2 ∧ j = t.1 := by
  rw [columnRows]
  split <;> simp [*]

/-- The first two of four threads get a row. -/
def columnSchedule : Schedule (Fin 4) column.yres where
  rows := columnRows
  nodup t := by
    rw [columnRows]
    split <;> simp
  disjoint t t' j h h' := by
    have hj := (mem_columnRows.1 h).2
    exact Fin.ext (hj.symm.trans (mem_columnRows.1 h').2)
  covers j := by
    have hyres : column.yres = 2 := rfl
    constructor
    · rintro ⟨t, ht⟩
      obtain ⟨hlt, rfl⟩ := mem_columnRows.1 ht
      omega
    · intro hj
      exact ⟨⟨j, by omega⟩, mem_columnRows.2 ⟨by dsimp only; omega, rfl⟩⟩

def columnStart : Machine (Sys (Fin 4) Int) (Fin 4) :=
  mandelbrot integers column columnSchedule 0 0 0 (List.Vector.replicate _ 1)

def inTurn : List (Fin 4) := List.replicate 12 0 ++ List.replicate 12 1 ++ [2, 3]

theorem drawn_in_turn : pixelSize * column.xres * column.yres < 2 ^ 31 ∧
    column.xres * column.yres = column.xres.toNat * column.yres.toNat ∧
    ∃ s, columnStart.Reach Undisturbed s ∧ (∀ t, (s.threads t).pc = .done) ∧
      s.buf = orig column integers := by
  obtain ⟨s, h, hdone⟩ := Machine.exists_reach_of_exec columnStart Undisturbed inTurn
    (P := fun s => ∀ t, (s.threads t).pc = .done) (by decide +kernel) (by decide +kernel)
  exact ⟨by decide, by decide, s, h, hdone,
    drawn_as_sequential integers columnSchedule (by decide) (by decide) 0 0 0 _ h hdone⟩

/-- Between `offset = ...` and `memcpy` of the first thread, the second one draws its pixel. -/
def overtaken : List (Fin 4) :=
  List.replicate 7 0 ++ List.replicate 12 1 ++ List.replicate 5 0 ++ [2, 3]

theorem pixel_lost : ∃ s, columnStart.Reachable s ∧ (∀ t, (s.threads t).pc = .done) ∧
    s.buf ≠ orig column integers :=
  Machine.exists_reach_of_exec columnStart (fun _ _ => True) overtaken
    (P := fun s => (∀ t, (s.threads t).pc = .done) ∧ s.buf ≠ orig column integers)
    (Machine.along_true _ _) (by decide +kernel)

end Cs324.Mandelbrot
