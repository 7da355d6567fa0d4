import Flos.Tty.Picture

/-!
# Incremental drawing against a full redraw

`tty_putchar` draws one cell, or nothing when the cursor's row is off the screen. The screen stays in
step with the text except where the text changes behind its back: a zero byte is drawn but stored as an
empty cell, and a row of the ring buffer that is being written can be on the screen as an old line. Here
is exactly when a call keeps the screen in step, and so a run of such calls.
-/

namespace Flos.Tty

open Flos.Lib

/-- Two characters that look the same in a cell. -/
def SameLook (font : PsfFont) (a b : UInt8) : Prop :=
  ∀ x < font.width, ∀ y < font.height, cellColor font a x y = cellColor font b x y

/-- A glyph that is all background. -/
def BlankGlyph (font : PsfFont) (c : UInt8) : Prop :=
  ∀ x < font.width, ∀ y < font.height, glyphColor font c x y = termBg

/-- Putting a character at the cursor keeps the screen in step. On the screen, a zero byte must have a
blank glyph. Off the screen, an old line that shares the row of the buffer must not look different. -/
def PutInSync (scr : Screen) (s : Terminal) (c : UInt8) : Prop :=
  if sub32 s.ttyRow s.viewRow < s.rows then c = 0 → BlankGlyph scr.font 0
  else ∀ row < s.rows, s.bufRow row = s.ttyRow % maxRows →
    SameLook scr.font c (s.cell (s.ttyRow % maxRows) s.termCx)

/-- A newline keeps the screen in step: if the next line is on the screen, its row looks empty. -/
def NewlineInSync (scr : Screen) (s : Terminal) : Prop :=
  sub32 ((s.ttyRow + 1) % uint32Size) s.viewRow < s.rows →
    ∀ col < s.cols, SameLook scr.font 0 (s.cell ((s.ttyRow + 1) % uint32Size % maxRows) col)

/-- `tty_putchar` keeps the screen in step. -/
def PutcharInSync (scr : Screen) (s : Terminal) (c : UInt8) : Prop :=
  if c = newline then NewlineInSync scr s
  else if c = carriageReturn then True
  else if c = backspace then
    0 < s.termCx → PutInSync scr { s with termCx := s.termCx - 1 } space
  else s.termCx < s.cols → PutInSync scr s c

/-- A call keeps the screen in step with the text. -/
def KeepsSync (scr : Screen) (s : Terminal) : TtyOp → Prop
  | .putchar c => PutcharInSync scr s c
  | _ => True

instance (font : PsfFont) (a b : UInt8) : Decidable (SameLook font a b) :=
  inferInstanceAs (Decidable (∀ x < font.width, ∀ y < font.height, _ = _))

instance (font : PsfFont) (c : UInt8) : Decidable (BlankGlyph font c) :=
  inferInstanceAs (Decidable (∀ x < font.width, ∀ y < font.height, _ = _))

instance (scr : Screen) (s : Terminal) (c : UInt8) : Decidable (PutInSync scr s c) :=
  inferInstanceAs (Decidable (ite _ _ _))

instance (scr : Screen) (s : Terminal) : Decidable (NewlineInSync scr s) :=
  inferInstanceAs (Decidable (_ → ∀ col < s.cols, _))

instance (scr : Screen) (s : Terminal) (c : UInt8) : Decidable (PutcharInSync scr s c) :=
  inferInstanceAs (Decidable (ite _ _ (ite _ _ (ite _ _ _))))

instance (scr : Screen) (s : Terminal) : (op : TtyOp) → Decidable (KeepsSync scr s op)
  | .putchar c => inferInstanceAs (Decidable (PutcharInSync scr s c))
  | .scrollUp => .isTrue trivial
  | .scrollDown => .isTrue trivial
  | .clear => .isTrue trivial

/-! ## The cells on the screen -/

/-- The screen shows the colours `f` in its cells, and background around them. -/
def ShowsCells (scr : Screen) (s : Terminal) (f : ℕ → ℕ → ℕ → ℕ → UInt32) : Prop :=
  ∀ X < scr.fb.width, ∀ Y < scr.fb.height, s.shown scr X Y =
    if X / scr.font.width < scr.cols ∧ Y / scr.font.height < scr.rows then
      f (X / scr.font.width) (Y / scr.font.height) (X % scr.font.width) (Y % scr.font.height)
    else termBg

/-- The cursor does not matter to what is on the screen. -/
theorem inSync_cursor_iff (scr : Screen) (s : Terminal) (cx : ℕ) :
    InSync scr { s with termCx := cx } ↔ InSync scr s :=
  Iff.rfl

/-- A screen in step shows the cells of its text. -/
theorem InSync.showsCells {scr : Screen} {s : Terminal} (h : InSync scr s) :
    ShowsCells scr s fun col row => cellColor scr.font (s.cell (s.bufRow row) col) :=
  h

/-- A screen is in step exactly when each cell shows its character. -/
theorem ShowsCells.inSync_iff {scr : Screen} {s : Terminal} {f : ℕ → ℕ → ℕ → ℕ → UInt32}
    (h : ShowsCells scr s f) : InSync scr s ↔ ∀ col < scr.cols, ∀ row < scr.rows,
      ∀ x < scr.font.width, ∀ y < scr.font.height,
        f col row x y = cellColor scr.font (s.cell (s.bufRow row) col) x y := by
  constructor
  · intro hsync col hcol row hrow x hx y hy
    have hdiv : ∀ {i n d : ℕ}, n < d → (i * d + n) / d = i := by
      intro i n d hn
      rw [Nat.mul_comm, Nat.mul_add_div (Nat.zero_lt_of_lt hn), Nat.div_eq_of_lt hn, Nat.add_zero]
    have hmod : ∀ {i n d : ℕ}, n < d → (i * d + n) % d = n := by
      intro i n d hn
      rw [Nat.mul_add_mod', Nat.mod_eq_of_lt hn]
    have hshown := h _ (cell_lt hcol hx) _ (cell_lt hrow hy)
    rw [hsync _ (cell_lt hcol hx) _ (cell_lt hrow hy), picture] at hshown
    simp only [hdiv hx, hdiv hy, hmod hx, hmod hy, hcol, hrow, and_self, if_true] at hshown
    exact hshown.symm
  · intro hcells X hX Y hY
    rw [h X hX Y hY, picture]
    split
    next hgrid =>
      exact hcells _ hgrid.1 _ hgrid.2 _ (Nat.mod_lt _ scr.font.width_pos) _
        (Nat.mod_lt _ scr.font.height_pos)
    next => rfl

/-- A store to the buffer changes one cell. -/
theorem cell_setCell {r c r' c' : ℕ} (hc : c < rowSize) (hc' : c' < rowSize) (v : UInt8)
    (s : Terminal) :
    (s.setCell r c v).cell r' c' = if r' = r ∧ c' = c then v else s.cell r' c' := by
  have hplace : r' * rowSize + c' = r * rowSize + c ↔ r' = r ∧ c' = c := by
    simp only [rowSize] at *
    omega
  simp only [Terminal.cell, Terminal.setCell, hplace]

/-- The row of the cursor is emptied, and nothing else changes. -/
theorem clearRow_spec {s : Terminal} (hnarrow : s.cols ≤ rowSize) :
    s.clearRow.pixels = s.pixels ∧ s.clearRow.viewRow = s.viewRow ∧ s.clearRow.ttyRow = s.ttyRow ∧
      s.clearRow.cols = s.cols ∧ s.clearRow.rows = s.rows ∧
      ∀ r c, c < rowSize → s.clearRow.cell r c =
        if r = s.ttyRow % maxRows ∧ c < s.cols then 0 else s.cell r c := by
  apply forRange_induction (fun i (t : Terminal) => t.pixels = s.pixels ∧ t.viewRow = s.viewRow ∧
    t.ttyRow = s.ttyRow ∧ t.cols = s.cols ∧ t.rows = s.rows ∧ ∀ r c, c < rowSize → t.cell r c =
      if r = s.ttyRow % maxRows ∧ c < i then 0 else s.cell r c)
  · exact ⟨rfl, rfl, rfl, rfl, rfl, fun r c _ => (if_neg fun h => absurd h.2 (Nat.not_lt_zero _)).symm⟩
  · intro i t hi ht
    obtain ⟨hpixels, hview, hrow, hcols, hrows, hcell⟩ := ht
    refine ⟨hpixels, hview, hrow, hcols, hrows, fun r c hc => ?_⟩
    rw [cell_setCell (hi.trans_le hnarrow) hc, hcell r c hc]
    by_cases hlast : r = s.ttyRow % maxRows ∧ c = i
    · rw [if_pos hlast, if_pos ⟨hlast.1, by omega⟩]
    · rw [if_neg hlast]
      exact if_congr (by omega) rfl rfl

/-! ## One call -/

/-- The line numbers are values of `uint32_t`. -/
structure RowsFit (s : Terminal) : Prop where
  ttyRow : s.ttyRow < uint32Size
  viewRow : s.viewRow < uint32Size

/-- A terminal in step: its state is in bounds, and the screen shows its text. -/
structure Synced (scr : Screen) (s : Terminal) : Prop extends TtyInBounds scr s where
  fit : RowsFit s
  sync : InSync scr s

section Step

variable {scr : Screen} (hplain : scr.Plain) {s : Terminal}

include hplain

/-- Behind a redraw the screen is in step. -/
theorem inSync_ttyRedraw (hcols : s.cols = scr.cols) (hrows : s.rows = scr.rows) :
    InSync scr (ttyRedraw scr s) := by
  intro X hX Y hY
  have hsame := sameText_ttyRedraw scr s
  rw [shown_ttyRedraw hplain hX hY hcols hrows, picture_congr scr hsame.buffer hsame.viewRow]

omit hplain in
/-- The row of the screen that shows a line, and no other. -/
theorem bufRow_eq_iff {line : ℕ} (hline : line < uint32Size) (hview : s.viewRow < uint32Size)
    (hvis : sub32 line s.viewRow < maxRows) {row : ℕ} (hrow : row < maxRows) :
    s.bufRow row = line % maxRows ↔ row = sub32 line s.viewRow := by
  simp only [Terminal.bufRow, sub32, uint32Size, maxRows] at *
  omega

omit hplain in
/-- The cells on the screen, behind a store at the cursor. -/
theorem cell_put (hcol : s.termCx < rowSize) {col row : ℕ} (hcol' : col < rowSize) (c : UInt8) :
    (s.setCell (s.ttyRow % maxRows) s.termCx c).cell
        ((s.setCell (s.ttyRow % maxRows) s.termCx c).bufRow row) col =
      if s.bufRow row = s.ttyRow % maxRows ∧ col = s.termCx then c
      else s.cell (s.bufRow row) col :=
  cell_setCell hcol hcol' c s

/-- On the screen, only a zero byte can be drawn otherwise than a redraw would. -/
theorem inSync_put_visible_iff (h : Synced scr s) (hnarrow : scr.cols ≤ rowSize)
    (hshort : scr.rows ≤ maxRows) (hcol : s.termCx < scr.cols)
    (hvis : sub32 s.ttyRow s.viewRow < scr.rows) (c : UInt8) :
    InSync scr (drawCell scr c s.termCx (sub32 s.ttyRow s.viewRow)
        (s.setCell (s.ttyRow % maxRows) s.termCx c)) ↔ (c = 0 → BlankGlyph scr.font 0) := by
  have hshows : ShowsCells scr (drawCell scr c s.termCx (sub32 s.ttyRow s.viewRow)
      (s.setCell (s.ttyRow % maxRows) s.termCx c)) fun col row x y =>
        if col = s.termCx ∧ row = sub32 s.ttyRow s.viewRow then glyphColor scr.font c x y
        else cellColor scr.font (s.cell (s.bufRow row) col) x y := by
    intro X hX Y hY
    rw [shown_drawCell hplain hcol hvis hX hY]
    split
    next hhere =>
      rw [if_pos ⟨hhere.1 ▸ hcol, hhere.2 ▸ hvis⟩]
      exact (if_pos hhere).symm
    next hout =>
      exact (h.sync.showsCells X hX Y hY).trans (if_congr Iff.rfl (if_neg hout).symm rfl)
  have htext : ∀ col < scr.cols, ∀ row < scr.rows, (drawCell scr c s.termCx
      (sub32 s.ttyRow s.viewRow) (s.setCell (s.ttyRow % maxRows) s.termCx c)).cell
        ((drawCell scr c s.termCx (sub32 s.ttyRow s.viewRow)
          (s.setCell (s.ttyRow % maxRows) s.termCx c)).bufRow row) col =
      if col = s.termCx ∧ row = sub32 s.ttyRow s.viewRow then c
      else s.cell (s.bufRow row) col := by
    intro col hcol' row hrow
    have hsame := sameText_drawCell scr (s.setCell (s.ttyRow % maxRows) s.termCx c) c s.termCx
      (sub32 s.ttyRow s.viewRow)
    have hrowIff := bufRow_eq_iff h.fit.ttyRow h.fit.viewRow (hvis.trans_le hshort)
      (hrow.trans_le hshort)
    have hput := @cell_put s (hcol.trans_le hnarrow) col row (hcol'.trans_le hnarrow) c
    rw [Terminal.bufRow, Terminal.cell, hsame.buffer, hsame.viewRow]
    exact hput.trans (if_congr (by rw [hrowIff, and_comm]) rfl rfl)
  rw [hshows.inSync_iff]
  constructor
  · intro hcells hzero x hx y hy
    have hhere := hcells _ hcol _ hvis x hx y hy
    rw [htext _ hcol _ hvis, if_pos ⟨rfl, rfl⟩, if_pos ⟨rfl, rfl⟩, hzero, cellColor, if_pos rfl]
      at hhere
    exact hhere
  · intro hblank col hcol' row hrow x hx y hy
    rw [htext col hcol' row hrow]
    split
    next hhere =>
      rw [cellColor]
      split
      next hzero => rw [hzero, hblank hzero x hx y hy]
      next => rfl
    next => rfl

omit hplain in
/-- Off the screen nothing is drawn, so an old line in the same row must look as it did. -/
theorem inSync_put_hidden_iff (h : Synced scr s) (hnarrow : scr.cols ≤ rowSize)
    (hcol : s.termCx < scr.cols) (c : UInt8) :
    InSync scr (s.setCell (s.ttyRow % maxRows) s.termCx c) ↔
      ∀ row < scr.rows, s.bufRow row = s.ttyRow % maxRows →
        SameLook scr.font c (s.cell (s.ttyRow % maxRows) s.termCx) := by
  have hshows : ShowsCells scr (s.setCell (s.ttyRow % maxRows) s.termCx c) fun col row =>
      cellColor scr.font (s.cell (s.bufRow row) col) := h.sync.showsCells
  rw [hshows.inSync_iff]
  constructor
  · intro hcells row hrow hshared x hx y hy
    have hhere := hcells _ hcol row hrow x hx y hy
    rw [cell_put (hcol.trans_le hnarrow) (hcol.trans_le hnarrow), if_pos ⟨hshared, rfl⟩, hshared]
      at hhere
    exact hhere.symm
  · intro hlook col hcol' row hrow x hx y hy
    rw [cell_put (hcol.trans_le hnarrow) (hcol'.trans_le hnarrow)]
    split
    next hhere =>
      rw [hhere.1, hhere.2]
      exact (hlook row hrow hhere.1 x hx y hy).symm
    next => rfl

/-- A character put at the cursor leaves the screen in step exactly when `PutInSync` says so. -/
theorem inSync_putCell_iff (h : Synced scr s) (hnarrow : scr.cols ≤ rowSize)
    (hshort : scr.rows ≤ maxRows) (hcx : s.termCx < s.cols) (c : UInt8) :
    InSync scr (s.putCell scr c) ↔ PutInSync scr s c := by
  have hcol : s.termCx < scr.cols := h.cols ▸ hcx
  by_cases hvis : sub32 s.ttyRow s.viewRow < s.rows
  · rw [PutInSync, if_pos hvis, putCell_of_visible hvis]
    exact inSync_put_visible_iff hplain h hnarrow hshort hcol (h.rows ▸ hvis) c
  · rw [PutInSync, if_neg hvis, putCell_of_hidden hvis, h.rows]
    exact inSync_put_hidden_iff h hnarrow hcol c

/-- A newline leaves the screen in step exactly when `NewlineInSync` says so. -/
theorem inSync_newline_iff (h : Synced scr s) (hnarrow : scr.cols ≤ rowSize)
    (hshort : scr.rows ≤ maxRows) :
    InSync scr (putNewline scr s) ↔ NewlineInSync scr s := by
  obtain ⟨hpixels, hview, hrow, hcols, hrows, hcell⟩ := clearRow_spec
    (s := { s with ttyRow := (s.ttyRow + 1) % uint32Size, termCx := 0 }) (h.cols.trans_le hnarrow)
  unfold putNewline NewlineInSync
  dsimp only at hpixels hview hrow hcols hrows hcell ⊢
  generalize Terminal.clearRow _ = s' at hpixels hview hrow hcols hrows hcell ⊢
  rw [hrow, hview, hrows]
  by_cases hvis : sub32 ((s.ttyRow + 1) % uint32Size) s.viewRow < s.rows
  · have hshows : ShowsCells scr s' fun col row =>
        cellColor scr.font (s.cell (s.bufRow row) col) := by
      intro X hX Y hY
      rw [Terminal.shown, hpixels]
      exact h.sync.showsCells X hX Y hY
    have hbufRow : ∀ row, s'.bufRow row = s.bufRow row := fun row => by
      rw [Terminal.bufRow, hview, Terminal.bufRow]
    have hvis' : sub32 ((s.ttyRow + 1) % uint32Size) s.viewRow < scr.rows := h.rows ▸ hvis
    have hline : s.bufRow (sub32 ((s.ttyRow + 1) % uint32Size) s.viewRow) =
        (s.ttyRow + 1) % uint32Size % maxRows :=
      (bufRow_eq_iff (Nat.mod_lt _ (by decide)) h.fit.viewRow (hvis'.trans_le hshort)
        (hvis'.trans_le hshort)).mpr rfl
    rw [if_neg (not_le.mpr hvis), hshows.inSync_iff]
    constructor
    · intro hcells _ col hcol x hx y hy
      rw [h.cols] at hcol
      have hhere := hcells col hcol _ hvis' x hx y hy
      rw [hbufRow, hline, hcell _ _ (hcol.trans_le hnarrow), if_pos ⟨rfl, h.cols ▸ hcol⟩] at hhere
      exact hhere.symm
    · intro hempty col hcol row hrow x hx y hy
      rw [hbufRow, hcell _ _ (hcol.trans_le hnarrow)]
      split
      next hhere =>
        rw [hhere.1]
        exact (hempty hvis col hhere.2 x hx y hy).symm
      next => rfl
  · rw [if_pos (not_lt.mp hvis)]
    exact iff_of_true (inSync_ttyRedraw hplain (hcols.trans h.cols) h.rows)
      fun hvis' => absurd hvis' hvis

/-- A clear leaves the screen in step. -/
theorem inSync_ttyClear (s : Terminal) :
    InSync scr (ttyClear scr s) := by
  intro X hX Y hY
  have hsame := sameText_fbFillRect
    { s with buffer := fun _ => 0, ttyRow := 0, viewRow := 0, termCx := 0 } scr.fb 0 0 scr.fb.width
    scr.fb.height termBg
  rw [ttyClear, shown_fbClear hplain hX hY, fbClear, picture_congr scr hsame.buffer hsame.viewRow]
  unfold picture
  split <;> rfl

/-- A call leaves a terminal in step exactly when `KeepsSync` says so. -/
theorem inSync_exec_iff (h : Synced scr s) (hnarrow : scr.cols ≤ rowSize)
    (hshort : scr.rows ≤ maxRows) (op : TtyOp) :
    InSync scr (op.exec scr s) ↔ KeepsSync scr s op := by
  cases op with
  | putchar c =>
    change InSync scr (ttyPutchar scr c s) ↔ PutcharInSync scr s c
    unfold ttyPutchar PutcharInSync
    by_cases hnewline : c = newline
    · rw [if_pos hnewline, if_pos hnewline]
      exact inSync_newline_iff hplain h hnarrow hshort
    rw [if_neg hnewline, if_neg hnewline]
    by_cases hreturn : c = carriageReturn
    · rw [if_pos hreturn, if_pos hreturn]
      exact iff_of_true h.sync trivial
    rw [if_neg hreturn, if_neg hreturn]
    by_cases hback : c = backspace
    · rw [if_pos hback, if_pos hback]
      by_cases hcx : s.termCx > 0
      · have hcursor := h.cursor
        have hmoved : Synced scr { s with termCx := s.termCx - 1 } :=
          ⟨⟨h.cols, h.rows, (Nat.sub_le _ _).trans hcursor, h.log⟩,
            ⟨h.fit.ttyRow, h.fit.viewRow⟩, h.sync⟩
        have hcx' : s.termCx - 1 < s.cols := by omega
        rw [if_pos hcx, inSync_putCell_iff hplain hmoved hnarrow hshort hcx']
        exact ⟨fun hput _ => hput, fun hput => hput hcx⟩
      · rw [if_neg hcx]
        exact iff_of_true h.sync fun hcx' => absurd hcx' hcx
    rw [if_neg hback, if_neg hback]
    by_cases hcx : s.termCx < s.cols
    · have hput := inSync_putCell_iff hplain h hnarrow hshort hcx c
      rw [if_pos hcx, inSync_cursor_iff, hput]
      exact ⟨fun hkeeps _ => hkeeps, fun hkeeps => hkeeps hcx⟩
    · rw [if_neg hcx]
      exact iff_of_true h.sync fun hcx' => absurd hcx' hcx
  | scrollUp =>
    change InSync scr (ttyScrollUp scr s) ↔ True
    unfold ttyScrollUp
    split
    next => exact iff_of_true (inSync_ttyRedraw hplain h.cols h.rows) trivial
    next => exact iff_of_true h.sync trivial
  | scrollDown =>
    change InSync scr (ttyScrollDown scr s) ↔ True
    unfold ttyScrollDown
    split
    next => exact iff_of_true (inSync_ttyRedraw hplain h.cols h.rows) trivial
    next => exact iff_of_true h.sync trivial
  | clear => exact iff_of_true (inSync_ttyClear hplain s) trivial

end Step

section Runs

variable {scr : Screen} {s : Terminal}

namespace RowsFit

/-- Drawing keeps the line numbers. -/
theorem draw {s' : Terminal} (h : RowsFit s) (hsame : SameText s s') : RowsFit s' :=
  ⟨hsame.ttyRow ▸ h.ttyRow, hsame.viewRow ▸ h.viewRow⟩

/-- Moving the cursor keeps the line numbers. -/
theorem cursor (h : RowsFit s) (cx : ℕ) : RowsFit { s with termCx := cx } :=
  ⟨h.ttyRow, h.viewRow⟩

/-- Another view. -/
theorem view (h : RowsFit s) {row : ℕ} (hrow : row < uint32Size) :
    RowsFit { s with viewRow := row } :=
  ⟨h.ttyRow, hrow⟩

/-- A character put at the cursor keeps the line numbers. -/
theorem putCell (h : RowsFit s) (scr : Screen) (c : UInt8) : RowsFit (s.putCell scr c) := by
  have hstored : RowsFit (s.setCell (s.ttyRow % maxRows) s.termCx c) := ⟨h.ttyRow, h.viewRow⟩
  by_cases hvis : sub32 s.ttyRow s.viewRow < s.rows
  · rw [putCell_of_visible hvis]
    exact hstored.draw (sameText_drawCell scr _ c _ _)
  · rw [putCell_of_hidden hvis]
    exact hstored

/-- The next line number, and the view behind it, are reduced to `uint32_t`. -/
theorem newline (h : RowsFit s) (scr : Screen) (hnarrow : s.cols ≤ rowSize) :
    RowsFit (putNewline scr s) := by
  have hmod : ∀ n, n % uint32Size < uint32Size := fun n => Nat.mod_lt n (by decide)
  obtain ⟨-, hview, hrow, -⟩ := clearRow_spec
    (s := { s with ttyRow := (s.ttyRow + 1) % uint32Size, termCx := 0 }) hnarrow
  unfold putNewline
  dsimp only at hview hrow ⊢
  generalize Terminal.clearRow _ = s' at hview hrow ⊢
  have hfit : RowsFit s' := ⟨hrow ▸ hmod _, hview ▸ h.viewRow⟩
  split
  next => exact (hfit.view (hmod (s'.viewRow + 1))).draw (sameText_ttyRedraw scr _)
  next => exact hfit

/-- `tty_putchar` keeps the line numbers in `uint32_t`. -/
theorem putchar (h : RowsFit s) (scr : Screen) (hnarrow : s.cols ≤ rowSize) (c : UInt8) :
    RowsFit (ttyPutchar scr c s) := by
  unfold ttyPutchar
  split
  next => exact h.newline scr hnarrow
  next =>
    split
    next => exact h.cursor 0
    next =>
      split
      next =>
        split
        next => exact (h.cursor (s.termCx - 1)).putCell scr space
        next => exact h
      next =>
        split
        next => exact (h.putCell scr c).cursor _
        next => exact h

/-- Every call keeps the line numbers in `uint32_t`. -/
theorem exec (h : RowsFit s) (scr : Screen) (hnarrow : s.cols ≤ rowSize) (op : TtyOp) :
    RowsFit (op.exec scr s) := by
  cases op with
  | putchar c => exact h.putchar scr hnarrow c
  | scrollUp =>
    change RowsFit (ttyScrollUp scr s)
    unfold ttyScrollUp
    split
    next =>
      have hview : s.viewRow - 1 < uint32Size := lt_of_le_of_lt (Nat.sub_le _ _) h.viewRow
      exact (h.view hview).draw (sameText_ttyRedraw scr _)
    next => exact h
  | scrollDown =>
    change RowsFit (ttyScrollDown scr s)
    unfold ttyScrollDown
    split
    next =>
      have hview : (s.viewRow + 1) % uint32Size < uint32Size := Nat.mod_lt _ (by decide)
      exact (h.view hview).draw (sameText_ttyRedraw scr _)
    next => exact h
  | clear =>
    have hzero : RowsFit { s with buffer := fun _ => 0, ttyRow := 0, viewRow := 0, termCx := 0 } :=
      ⟨Nat.two_pow_pos 32, Nat.two_pow_pos 32⟩
    exact hzero.draw (sameText_fbFillRect _ _ _ _ _ _ _)

end RowsFit

/-- A call that may happen keeps a terminal in step. -/
theorem Synced.exec (hplain : scr.Plain) (hnarrow : scr.cols ≤ rowSize) (hshort : scr.rows ≤ maxRows)
    (h : Synced scr s) {op : TtyOp} (hkeeps : KeepsSync scr s op) : Synced scr (op.exec scr s) := by
  exact ⟨h.toTtyInBounds.exec hnarrow op, h.fit.exec scr (h.cols.trans_le hnarrow) op,
    (inSync_exec_iff hplain h hnarrow hshort op).mpr hkeeps⟩

/-- `tty_init` leaves the screen in step. -/
theorem synced_init (hplain : scr.Plain) (pixels : ℕ → UInt32) : Synced scr (ttyInit scr pixels) := by
  have hbounds := ttyInBounds_init scr pixels
  unfold ttyInit at hbounds ⊢
  have hsame := sameText_fbFillRect
    { buffer := fun _ => 0, ttyRow := 0, viewRow := 0, cols := scr.fb.width / scr.font.width % uint32Size,
      rows := scr.fb.height / scr.font.height % uint32Size, termCx := 0, pixels := pixels, log := [] }
    scr.fb 0 0 scr.fb.width scr.fb.height termBg
  have hfit : RowsFit _ := RowsFit.draw ⟨Nat.two_pow_pos 32, Nat.two_pow_pos 32⟩ hsame
  refine ⟨hbounds, hfit, fun X hX Y hY => ?_⟩
  · rw [shown_fbClear hplain hX hY, fbClear, picture_congr scr hsame.buffer hsame.viewRow]
    unfold picture
    split <;> rfl

/-- In a run whose calls all keep the screen in step, a redraw would not change the framebuffer in any
state reached. -/
theorem tty_run_inSync (scr : Screen) (hplain : scr.Plain) (hnarrow : scr.cols ≤ rowSize)
    (hshort : scr.rows ≤ maxRows) (pixels : ℕ → UInt32) {ops : List TtyOp} {s : Terminal}
    (hrun : Run (fun s op t => KeepsSync scr s op ∧ t = op.exec scr s) (ttyInit scr pixels) ops s) :
    (ttyRedraw scr s).pixels = s.pixels := by
  have h : Synced scr s := hrun.invariant (Synced scr)
    (fun s op t hs (hstep : KeepsSync scr s op ∧ t = op.exec scr s) =>
      hstep.2 ▸ hs.exec hplain hnarrow hshort hstep.1) (synced_init hplain pixels)
  exact (ttyRedraw_pixels_eq_iff hplain h.cols h.rows).mpr h.sync

/-- A screen of two by two cells of one pixel, and a font whose glyphs are all ink. -/
def tinyScreen : Screen where
  fb := ⟨2, 2, 8⟩
  font := ⟨256, 1, 1, 1, fun _ => 0x80, Nat.one_pos, Nat.one_pos⟩

/-- A letter and a newline keep the tiny screen in step. -/
theorem tty_run_inSync_tinyScreen :
    let s := ttyRun tinyScreen [.putchar 65, .putchar newline] (ttyInit tinyScreen fun _ => 0)
    (ttyRedraw tinyScreen s).pixels = s.pixels := by
  intro s
  have hrun : Run (fun s op t => KeepsSync tinyScreen s op ∧ t = op.exec tinyScreen s)
      (ttyInit tinyScreen fun _ => 0) [.putchar 65, .putchar newline] s :=
    Run.cons ⟨by decide +kernel, rfl⟩ (Run.cons ⟨by decide +kernel, rfl⟩ (Run.nil _))
  exact tty_run_inSync tinyScreen ⟨by decide, by decide, by decide, by decide⟩ (by decide)
    (by decide) (fun _ => 0) hrun

/-- A zero byte is drawn at once, and gone after a redraw. -/
theorem tty_zeroByte_outOfSync :
    let s := ttyRun tinyScreen [.putchar 0] (ttyInit tinyScreen fun _ => 0)
    (ttyRedraw tinyScreen s).pixels ≠ s.pixels := by
  intro s heq
  have hpixel : (ttyRedraw tinyScreen s).pixels 0 ≠ s.pixels 0 := by decide +kernel
  exact hpixel (congrFun heq 0)

end Runs

end Flos.Tty
