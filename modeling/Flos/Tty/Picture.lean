import Mathlib.Tactic.Ring
import Flos.Tty.Bounds

/-!
# What the terminal shows

The picture of a terminal is a function of its text: the cell of a pixel is looked up in the row of
`tty_buffer` that the view puts there. A redraw paints exactly this picture. The cells of the screen do not
overlap, so it does not matter in which order they are drawn.
-/

namespace Flos.Tty

open Flos.Lib

/-- The lines of the framebuffer do not overlap, and the place of every cell fits a `uint32_t`. -/
structure Screen.Plain (scr : Screen) : Prop where
  stride : scr.fb.width ≤ scr.fb.pitch / 4
  size : scr.fb.height * (scr.fb.pitch / 4) ≤ 2 ^ 64
  across : scr.cols * scr.font.width ≤ uint32Size
  down : scr.rows * scr.font.height ≤ uint32Size

/-- The colour of a pixel of a cell. An empty cell is background. -/
def cellColor (font : PsfFont) (c : UInt8) (x y : ℕ) : UInt32 :=
  if c = 0 then termBg else glyphColor font c x y

/-- The colour the text gives to a pixel. -/
def picture (scr : Screen) (s : Terminal) (x y : ℕ) : UInt32 :=
  if x / scr.font.width < scr.cols ∧ y / scr.font.height < scr.rows then
    cellColor scr.font (s.cell (s.bufRow (y / scr.font.height)) (x / scr.font.width))
      (x % scr.font.width) (y % scr.font.height)
  else termBg

/-- The colour of a pixel of the framebuffer. -/
def Terminal.shown (scr : Screen) (s : Terminal) (x y : ℕ) : UInt32 := s.pixels (scr.fb.index x y)

/-- The framebuffer shows the picture of the text. -/
def InSync (scr : Screen) (s : Terminal) : Prop :=
  ∀ x < scr.fb.width, ∀ y < scr.fb.height, s.shown scr x y = picture scr s x y

/-- Only the buffer and the view matter to the picture. -/
theorem picture_congr {s s' : Terminal} (scr : Screen) (hbuffer : s'.buffer = s.buffer)
    (hview : s'.viewRow = s.viewRow) : picture scr s' = picture scr s := by
  funext x y
  simp only [picture, Terminal.cell, Terminal.bufRow, hbuffer, hview]

section Pixels

variable {scr : Screen} (hplain : scr.Plain)

include hplain

/-- Two pixels of the framebuffer have two places. -/
theorem index_eq_iff {x y x' y' : ℕ} (hx : x < scr.fb.width) (hy : y < scr.fb.height)
    (hx' : x' < scr.fb.width) (hy' : y' < scr.fb.height) :
    scr.fb.index x y = scr.fb.index x' y' ↔ x = x' ∧ y = y' := by
  have hstride := hplain.stride
  have hplace : ∀ {x y : ℕ}, x < scr.fb.width → y < scr.fb.height →
      scr.fb.index x y = y * (scr.fb.pitch / 4) + x := by
    intro x y hx hy
    have hlast : (y + 1) * (scr.fb.pitch / 4) ≤ scr.fb.height * (scr.fb.pitch / 4) :=
      Nat.mul_le_mul_right _ hy
    have hsize := hplain.size
    rw [Nat.succ_mul] at hlast
    exact Nat.mod_eq_of_lt (by omega)
  rw [hplace hx hy, hplace hx' hy']
  constructor
  · intro heq
    have hpos : 0 < scr.fb.pitch / 4 := by omega
    have hmod := congrArg (· % (scr.fb.pitch / 4)) heq
    have hdiv := congrArg (· / (scr.fb.pitch / 4)) heq
    simp only [Nat.mul_add_mod', Nat.mod_eq_of_lt (hx.trans_le hstride),
      Nat.mod_eq_of_lt (hx'.trans_le hstride)] at hmod
    rw [hmod] at heq
    exact ⟨hmod, Nat.eq_of_mul_eq_mul_right hpos (Nat.add_right_cancel heq)⟩
  · rintro ⟨rfl, rfl⟩
    rfl

/-- A pixel stored on the screen. -/
theorem shown_fbPutpixel {x y X Y : ℕ} (hx : x < scr.fb.width) (hy : y < scr.fb.height)
    (hX : X < scr.fb.width) (hY : Y < scr.fb.height) (color : UInt32) (s : Terminal) :
    (fbPutpixel scr.fb x y color s).shown scr X Y =
      if X = x ∧ Y = y then color else s.shown scr X Y := by
  simp only [Terminal.shown, fbPutpixel, index_eq_iff hplain hX hY hx hy]

/-- A rectangle of pixels, row by row. -/
theorem shown_rect {px py w h X Y : ℕ} (hw : px + w ≤ scr.fb.width) (hh : py + h ≤ scr.fb.height)
    (hX : X < scr.fb.width) (hY : Y < scr.fb.height) (color : ℕ → ℕ → UInt32) (s : Terminal) :
    Terminal.shown scr (forRange h (fun row => forRange w fun col =>
        fbPutpixel scr.fb (px + col) (py + row) (color col row)) s) X Y =
      if (px ≤ X ∧ X < px + w) ∧ py ≤ Y ∧ Y < py + h then color (X - px) (Y - py)
      else s.shown scr X Y := by
  apply forRange_induction (fun i t => Terminal.shown scr t X Y =
    if (px ≤ X ∧ X < px + w) ∧ py ≤ Y ∧ Y < py + i then color (X - px) (Y - py)
    else s.shown scr X Y)
  · rw [if_neg]
    omega
  · intro row t hrow ht
    have hline : Terminal.shown scr (forRange w (fun col =>
        fbPutpixel scr.fb (px + col) (py + row) (color col row)) t) X Y =
        if (px ≤ X ∧ X < px + w) ∧ Y = py + row then color (X - px) row else t.shown scr X Y := by
      apply forRange_induction (fun i u => Terminal.shown scr u X Y =
        if (px ≤ X ∧ X < px + i) ∧ Y = py + row then color (X - px) row else t.shown scr X Y)
      · rw [if_neg]
        omega
      · intro col u hcol hu
        rw [shown_fbPutpixel hplain (by omega) (by omega) hX hY, hu]
        by_cases hhere : X = px + col ∧ Y = py + row
        · rw [if_pos hhere, if_pos (by omega), hhere.1, Nat.add_sub_cancel_left]
        · rw [if_neg hhere]
          exact if_congr (by omega) rfl rfl
    rw [hline, ht]
    by_cases hhere : (px ≤ X ∧ X < px + w) ∧ Y = py + row
    · rw [if_pos hhere, if_pos (by omega), hhere.2, Nat.add_sub_cancel_left]
    · rw [if_neg hhere]
      exact if_congr (by omega) rfl rfl

/-- A clear screen. -/
theorem shown_fbClear {X Y : ℕ} (hX : X < scr.fb.width) (hY : Y < scr.fb.height) (color : UInt32)
    (s : Terminal) : (fbClear scr.fb color s).shown scr X Y = color := by
  have h := shown_rect hplain (Nat.zero_add _).le (Nat.zero_add _).le hX hY (fun _ _ => color) s
  rw [if_pos (by omega)] at h
  exact h

/-- A cell of the screen is drawn at its own pixels. -/
theorem shown_drawCell {col row X Y : ℕ} (hcol : col < scr.cols) (hrow : row < scr.rows)
    (hX : X < scr.fb.width) (hY : Y < scr.fb.height) (c : UInt8) (s : Terminal) :
    (drawCell scr c col row s).shown scr X Y =
      if X / scr.font.width = col ∧ Y / scr.font.height = row then
        glyphColor scr.font c (X % scr.font.width) (Y % scr.font.height)
      else s.shown scr X Y := by
  have hplace : ∀ {i n d size : ℕ}, 0 < d → i < n → n * d ≤ uint32Size → n ≤ size / d →
      i * d % uint32Size = i * d ∧ i * d + d ≤ size := by
    intro i n d size hd hi hfit hn
    have hlast : (i + 1) * d ≤ n * d := Nat.mul_le_mul_right d hi
    have hsize : n * d ≤ size := (Nat.mul_le_mul_right d hn).trans (Nat.div_mul_le_self size d)
    rw [Nat.succ_mul] at hlast
    exact ⟨Nat.mod_eq_of_lt (by omega), by omega⟩
  have hbox : ∀ {i d X : ℕ}, 0 < d → ((i * d ≤ X ∧ X < i * d + d) ↔ X / d = i) := by
    intro i d X hd
    rw [Nat.div_eq_iff hd]
    constructor <;> intro h <;> constructor <;> omega
  have hoff : ∀ {i d X : ℕ}, X / d = i → X - i * d = X % d := by
    intro i d X hi
    rw [Nat.mod_eq_sub_div_mul, hi]
  obtain ⟨hx, hwidth⟩ := hplace scr.font.width_pos hcol hplain.across (Nat.mod_le _ _)
  obtain ⟨hy, hheight⟩ := hplace scr.font.height_pos hrow hplain.down (Nat.mod_le _ _)
  rw [drawCell, hx, hy, drawGlyph, shown_rect hplain hwidth hheight hX hY]
  simp only [hbox scr.font.width_pos, hbox scr.font.height_pos]
  split
  next hhere => rw [hoff hhere.1, hoff hhere.2]
  next => rfl

/-- A cell is drawn over background. -/
theorem shown_redrawCell {bufRow row col X Y : ℕ} (hcol : col < scr.cols) (hrow : row < scr.rows)
    (hX : X < scr.fb.width) (hY : Y < scr.fb.height) {s : Terminal}
    (hbg : X / scr.font.width = col ∧ Y / scr.font.height = row → s.shown scr X Y = termBg) :
    (redrawCell scr bufRow row col s).shown scr X Y =
      if X / scr.font.width = col ∧ Y / scr.font.height = row then
        cellColor scr.font (s.cell bufRow col) (X % scr.font.width) (Y % scr.font.height)
      else s.shown scr X Y := by
  unfold redrawCell
  dsimp only
  split
  next hzero =>
    rw [hzero, cellColor, if_pos rfl]
    split
    next hhere => exact hbg hhere
    next => rfl
  next hne =>
    rw [shown_drawCell hplain hcol hrow hX hY, cellColor, if_neg hne]
    rfl

/-- A redraw paints the picture. -/
theorem shown_ttyRedraw {X Y : ℕ} (hX : X < scr.fb.width) (hY : Y < scr.fb.height) {s : Terminal}
    (hcols : s.cols = scr.cols) (hrows : s.rows = scr.rows) :
    (ttyRedraw scr s).shown scr X Y = picture scr s X Y := by
  have hloop := @forRange_induction _ s.rows
    (fun row => forRange s.cols (redrawCell scr (s.bufRow row) row)) (fbClear scr.fb termBg s)
    (fun i t => SameText s t ∧ Terminal.shown scr t X Y =
      if X / scr.font.width < scr.cols ∧ Y / scr.font.height < i then picture scr s X Y else termBg)
    ⟨sameText_fbFillRect s _ _ _ _ _ _, by
      rw [if_neg fun hdrawn => absurd hdrawn.2 (Nat.not_lt_zero _), shown_fbClear hplain hX hY]⟩ ?_
  · rw [ttyRedraw, hloop.2, hrows, picture]
    split <;> rfl
  · intro row t hrow ht
    rw [hrows] at hrow
    -- the cells of the row that are drawn after `j` turns
    have hline := @forRange_induction _ s.cols (redrawCell scr (s.bufRow row) row) t
      (fun j u => SameText s u ∧ Terminal.shown scr u X Y =
        if X / scr.font.width < j ∧ Y / scr.font.height = row then picture scr s X Y
        else t.shown scr X Y)
      ⟨ht.1, (if_neg fun hdrawn => absurd hdrawn.1 (Nat.not_lt_zero _)).symm⟩ ?_
    · refine ⟨hline.1, hline.2.trans ?_⟩
      rw [ht.2, hcols]
      split
      next hhere => rw [if_pos (by omega)]
      next hout => exact if_congr (by omega) rfl rfl
    · intro col u hcol hu
      rw [hcols] at hcol
      refine ⟨hu.1.trans (sameText_redrawCell scr u _ _ _), ?_⟩
      rw [shown_redrawCell hplain hcol hrow hX hY]
      · have hcell : u.cell (s.bufRow row) col = s.cell (s.bufRow row) col := by
          simp only [Terminal.cell, hu.1.buffer]
        split
        next hhere =>
          obtain ⟨rfl, rfl⟩ := hhere
          rw [if_pos (by omega), picture, if_pos ⟨hcol, hrow⟩, hcell]
        next hout =>
          rw [hu.2]
          exact if_congr (by omega) rfl rfl
      · intro hhere
        rw [hu.2, if_neg (by omega), ht.2, if_neg (by omega)]

omit hplain in
/-- A redraw leaves the memory around the screen alone. -/
theorem pixels_ttyRedraw {k : ℕ} {s : Terminal} (hcols : s.cols = scr.cols) (hrows : s.rows = scr.rows)
    (hout : ∀ x < scr.fb.width, ∀ y < scr.fb.height, scr.fb.index x y ≠ k) :
    (ttyRedraw scr s).pixels k = s.pixels k := by
  have hput : ∀ {x y : ℕ} (color : UInt32) {t : Terminal}, x < scr.fb.width → y < scr.fb.height →
      t.pixels k = s.pixels k → (fbPutpixel scr.fb x y color t).pixels k = s.pixels k :=
    fun color t hx hy ht => (if_neg (hout _ hx _ hy).symm).trans ht
  apply forRange_invariant (fun t : Terminal => t.pixels k = s.pixels k)
  · intro row t hrow ht
    apply forRange_invariant (fun t : Terminal => t.pixels k = s.pixels k) _ ht
    intro col t hcol ht
    rw [hrows] at hrow
    rw [hcols] at hcol
    unfold redrawCell
    dsimp only
    split
    next => exact ht
    next =>
      apply forRange_invariant (fun t : Terminal => t.pixels k = s.pixels k)
      · intro j t hj ht
        apply forRange_invariant (fun t : Terminal => t.pixels k = s.pixels k) _ ht
        exact fun i t hi ht => hput _ (place_lt hcol hi) (place_lt hrow hj) ht
      · exact ht
  · apply forRange_invariant (fun t : Terminal => t.pixels k = s.pixels k) _ rfl
    intro row t hrow ht
    apply forRange_invariant (fun t : Terminal => t.pixels k = s.pixels k) _ ht
    exact fun col t hcol ht => hput _ (by omega) (by omega) ht

/-- A redraw would change nothing exactly when the framebuffer shows the picture. -/
theorem ttyRedraw_pixels_eq_iff {s : Terminal} (hcols : s.cols = scr.cols) (hrows : s.rows = scr.rows) :
    (ttyRedraw scr s).pixels = s.pixels ↔ InSync scr s := by
  constructor
  · intro heq x hx y hy
    rw [← shown_ttyRedraw hplain hx hy hcols hrows, Terminal.shown, Terminal.shown, heq]
  · intro hsync
    funext k
    by_cases hout : ∀ x < scr.fb.width, ∀ y < scr.fb.height, scr.fb.index x y ≠ k
    · exact pixels_ttyRedraw hcols hrows hout
    · push Not at hout
      obtain ⟨x, hx, y, hy, rfl⟩ := hout
      exact (shown_ttyRedraw hplain hx hy hcols hrows).trans (hsync x hx y hy).symm

end Pixels

end Flos.Tty
