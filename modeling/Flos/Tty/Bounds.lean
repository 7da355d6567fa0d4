import Mathlib.Order.Nat
import Flos.Lib.Runs
import Flos.Tty.Terminal

/-!
# The terminal's accesses

Every pixel drawn lies on the framebuffer, for every geometry. The accesses to `tty_buffer` are bounded by
the number of columns on the screen, not by the length of a row: they stay inside exactly when the
screen is at most a row wide.
-/

namespace Flos.Tty

open Flos.Lib

/-- An access inside `tty_buffer`, or inside the framebuffer. -/
def Access.InBounds (fb : Framebuffer) : Access → Prop
  | .cell r c => r < maxRows ∧ c < rowSize
  | .pixel x y => x < fb.width ∧ y < fb.height

/-- `cols` as `tty_init` computes it. -/
def Screen.cols (scr : Screen) : ℕ := scr.fb.width / scr.font.width % uint32Size

/-- `rows` as `tty_init` computes it. -/
def Screen.rows (scr : Screen) : ℕ := scr.fb.height / scr.font.height % uint32Size

/-! ## Drawing leaves the text alone -/

/-- A state and a later one with the same static variables. -/
structure SameText (s s' : Terminal) : Prop where
  buffer : s'.buffer = s.buffer
  ttyRow : s'.ttyRow = s.ttyRow
  viewRow : s'.viewRow = s.viewRow
  cols : s'.cols = s.cols
  rows : s'.rows = s.rows
  termCx : s'.termCx = s.termCx
  log : s.log <+: s'.log

/-- Nothing is drawn. -/
theorem SameText.refl (s : Terminal) : SameText s s :=
  ⟨rfl, rfl, rfl, rfl, rfl, rfl, List.prefix_rfl⟩

/-- Drawings compose. -/
theorem SameText.trans {s₁ s₂ s₃ : Terminal} (h : SameText s₁ s₂) (h' : SameText s₂ s₃) :
    SameText s₁ s₃ :=
  ⟨h'.buffer.trans h.buffer, h'.ttyRow.trans h.ttyRow, h'.viewRow.trans h.viewRow,
    h'.cols.trans h.cols, h'.rows.trans h.rows, h'.termCx.trans h.termCx, h.log.trans h'.log⟩

section Frame

variable (scr : Screen) (s : Terminal)

/-- A loop whose turns leave the text alone does. -/
theorem SameText.forRange {n : ℕ} {body : ℕ → Terminal → Terminal}
    (h : ∀ i s, SameText s (body i s)) : SameText s (Lib.forRange n body s) :=
  forRange_invariant (SameText s) (fun i t _ ht => ht.trans (h i t)) (SameText.refl s)

/-- Filling a rectangle draws only. -/
theorem sameText_fbFillRect (fb : Framebuffer) (x y w h : ℕ) (color : UInt32) :
    SameText s (fbFillRect fb x y w h color s) :=
  SameText.forRange s fun _ s => SameText.forRange s fun _ _ =>
    ⟨rfl, rfl, rfl, rfl, rfl, rfl, List.prefix_append _ _⟩

/-- A glyph draws only. -/
theorem sameText_drawGlyph (c : UInt8) (px py : ℕ) : SameText s (drawGlyph scr c px py s) :=
  SameText.forRange s fun _ s => SameText.forRange s fun _ _ =>
    ⟨rfl, rfl, rfl, rfl, rfl, rfl, List.prefix_append _ _⟩

/-- A cell draws only. -/
theorem sameText_drawCell (c : UInt8) (col row : ℕ) : SameText s (drawCell scr c col row s) :=
  sameText_drawGlyph scr s c _ _

/-- Drawing a cell again draws only. -/
theorem sameText_redrawCell (bufRow row col : ℕ) : SameText s (redrawCell scr bufRow row col s) := by
  have hread : SameText s { s with log := s.log ++ [.cell bufRow col] } :=
    ⟨rfl, rfl, rfl, rfl, rfl, rfl, List.prefix_append _ _⟩
  unfold redrawCell
  dsimp only
  split
  next => exact hread
  next => exact hread.trans (sameText_drawCell scr _ _ _ _)

/-- A redraw draws only. -/
theorem sameText_ttyRedraw : SameText s (ttyRedraw scr s) :=
  (sameText_fbFillRect s _ _ _ _ _ _).trans
    (SameText.forRange _ fun _ s => SameText.forRange s fun _ s => sameText_redrawCell scr s _ _ _)

end Frame

/-- A character put on the screen is drawn. -/
theorem putCell_of_visible {scr : Screen} {s : Terminal} (h : sub32 s.ttyRow s.viewRow < s.rows)
    (c : UInt8) : s.putCell scr c = drawCell scr c s.termCx (sub32 s.ttyRow s.viewRow)
      (s.setCell (s.ttyRow % maxRows) s.termCx c) :=
  if_pos h

/-- A character put off the screen is only stored. -/
theorem putCell_of_hidden {scr : Screen} {s : Terminal} (h : ¬ sub32 s.ttyRow s.viewRow < s.rows)
    (c : UInt8) : s.putCell scr c = s.setCell (s.ttyRow % maxRows) s.termCx c :=
  if_neg h

/-! ## What is accessed -/

/-- Every access so far is in bounds. -/
def LogInBounds (scr : Screen) (s : Terminal) : Prop := ∀ a ∈ s.log, a.InBounds scr.fb

section Log

variable {scr : Screen} {s : Terminal}

/-- One more access. -/
theorem LogInBounds.snoc {s' : Terminal} {a : Access} (h : LogInBounds scr s)
    (hlog : s'.log = s.log ++ [a]) (ha : a.InBounds scr.fb) : LogInBounds scr s' := by
  intro b hb
  rw [hlog] at hb
  cases List.mem_append.mp hb with
  | inl hold => exact h b hold
  | inr hnew =>
    cases List.mem_singleton.mp hnew
    exact ha

/-- Clearing the screen stays on it. -/
theorem logInBounds_fbClear (h : LogInBounds scr s) (color : UInt32) :
    LogInBounds scr (fbClear scr.fb color s) := by
  apply forRange_invariant (LogInBounds scr) _ h
  intro row s hrow hs
  apply forRange_invariant (LogInBounds scr) _ hs
  intro col s hcol hs
  apply hs.snoc rfl
  exact ⟨by omega, by omega⟩

/-- A pixel of a cell lies on the screen. -/
theorem cell_lt {i n d size : ℕ} (hi : i < size / d % uint32Size) (hn : n < d) :
    i * d + n < size := by
  have hlast : (i + 1) * d ≤ size / d * d := Nat.mul_le_mul_right d (hi.trans_le (Nat.mod_le _ _))
  have hsize : size / d * d ≤ size := Nat.div_mul_le_self size d
  rw [Nat.succ_mul] at hlast
  omega

/-- Reducing the place of a cell to `uint32_t` only moves it back. -/
theorem place_lt {i n d size : ℕ} (hi : i < size / d % uint32Size) (hn : n < d) :
    i * d % uint32Size + n < size :=
  (Nat.add_le_add_right (Nat.mod_le _ _) n).trans_lt (cell_lt hi hn)

/-- A cell of the screen is drawn inside the framebuffer. -/
theorem logInBounds_drawCell {col row : ℕ} (hcol : col < scr.cols) (hrow : row < scr.rows) (c : UInt8)
    (h : LogInBounds scr s) : LogInBounds scr (drawCell scr c col row s) := by
  apply forRange_invariant (LogInBounds scr) _ h
  intro j s hj hs
  apply forRange_invariant (LogInBounds scr) _ hs
  intro i s hi hs
  apply hs.snoc rfl
  exact ⟨place_lt hcol hi, place_lt hrow hj⟩

/-- A redraw of a screen that is no wider than a row stays in bounds. -/
theorem logInBounds_ttyRedraw (hnarrow : scr.cols ≤ rowSize) (hcols : s.cols = scr.cols)
    (hrows : s.rows = scr.rows) (h : LogInBounds scr s) : LogInBounds scr (ttyRedraw scr s) := by
  apply forRange_invariant (LogInBounds scr) _ (logInBounds_fbClear h _)
  intro row s' hrow hs
  apply forRange_invariant (LogInBounds scr) _ hs
  intro col s' hcol hs
  rw [hrows] at hrow
  rw [hcols] at hcol
  have hread : LogInBounds scr { s' with log := s'.log ++ [.cell (s.bufRow row) col] } :=
    hs.snoc rfl ⟨Nat.mod_lt _ (by decide), hcol.trans_le hnarrow⟩
  unfold redrawCell
  dsimp only
  split
  next => exact hread
  next => exact logInBounds_drawCell hcol hrow _ hread

end Log

/-! ## Runs -/

/-- What every call keeps: the geometry, the cursor on the line, the accesses in bounds. -/
structure TtyInBounds (scr : Screen) (s : Terminal) : Prop where
  cols : s.cols = scr.cols
  rows : s.rows = scr.rows
  cursor : s.termCx ≤ s.cols
  log : LogInBounds scr s

namespace TtyInBounds

variable {scr : Screen} {s : Terminal}

/-- A redraw with the same geometry. -/
theorem redraw (h : TtyInBounds scr s) (hnarrow : scr.cols ≤ rowSize) :
    TtyInBounds scr (ttyRedraw scr s) := by
  have hsame := sameText_ttyRedraw scr s
  constructor
  · exact hsame.cols.trans h.cols
  · exact hsame.rows.trans h.rows
  · rw [hsame.termCx, hsame.cols]
    exact h.cursor
  · exact logInBounds_ttyRedraw hnarrow h.cols h.rows h.log

/-- A clear of the framebuffer. -/
theorem clear (h : TtyInBounds scr s) (color : UInt32) : TtyInBounds scr (fbClear scr.fb color s) := by
  have hsame := sameText_fbFillRect s scr.fb 0 0 scr.fb.width scr.fb.height color
  constructor
  · exact hsame.cols.trans h.cols
  · exact hsame.rows.trans h.rows
  · rw [fbClear, hsame.termCx, hsame.cols]
    exact h.cursor
  · exact logInBounds_fbClear h.log color

/-- A character put at a column of the screen. -/
theorem putCell (h : TtyInBounds scr s) (hnarrow : scr.cols ≤ rowSize) (hcx : s.termCx < s.cols)
    (c : UInt8) : TtyInBounds scr (s.putCell scr c) ∧ (s.putCell scr c).termCx = s.termCx := by
  have hcol : s.termCx < scr.cols := h.cols ▸ hcx
  have hstored : LogInBounds scr (s.setCell (s.ttyRow % maxRows) s.termCx c) :=
    h.log.snoc rfl ⟨Nat.mod_lt _ (by decide), hcol.trans_le hnarrow⟩
  by_cases hvis : sub32 s.ttyRow s.viewRow < s.rows
  · rw [putCell_of_visible hvis]
    have hsame := sameText_drawCell scr (s.setCell (s.ttyRow % maxRows) s.termCx c) c s.termCx
      (sub32 s.ttyRow s.viewRow)
    have hdrawn := logInBounds_drawCell hcol (h.rows ▸ hvis) c hstored
    refine ⟨⟨hsame.cols.trans h.cols, hsame.rows.trans h.rows, ?_, hdrawn⟩, hsame.termCx⟩
    exact hsame.termCx.trans_le (h.cursor.trans_eq hsame.cols.symm)
  · rw [putCell_of_hidden hvis]
    exact ⟨⟨h.cols, h.rows, h.cursor, hstored⟩, rfl⟩

/-- The row of the cursor is zeroed. -/
theorem clearRow (h : TtyInBounds scr s) (hnarrow : scr.cols ≤ rowSize) :
    TtyInBounds scr s.clearRow := by
  apply forRange_invariant (TtyInBounds scr) _ h
  intro col s' hcol hs
  rw [h.cols] at hcol
  exact ⟨hs.cols, hs.rows, hs.cursor,
    hs.log.snoc rfl ⟨Nat.mod_lt _ (by decide), hcol.trans_le hnarrow⟩⟩

/-- The cursor moves on. -/
theorem advance (h : TtyInBounds scr s) (hcx : s.termCx < s.cols) :
    TtyInBounds scr { s with termCx := s.termCx + 1 } :=
  ⟨h.cols, h.rows, hcx, h.log⟩

/-- The next line is begun within bounds. -/
theorem newline (h : TtyInBounds scr s) (hnarrow : scr.cols ≤ rowSize) :
    TtyInBounds scr (putNewline scr s) := by
  have hrow : TtyInBounds scr { s with ttyRow := (s.ttyRow + 1) % uint32Size, termCx := 0 } :=
    ⟨h.cols, h.rows, Nat.zero_le _, h.log⟩
  have hcleared := hrow.clearRow hnarrow
  unfold putNewline
  dsimp only
  generalize Terminal.clearRow _ = s' at hcleared ⊢
  split
  next => exact redraw ⟨hcleared.cols, hcleared.rows, hcleared.cursor, hcleared.log⟩ hnarrow
  next => exact hcleared

/-- A character is put within bounds on a narrow screen. -/
theorem putchar (h : TtyInBounds scr s) (hnarrow : scr.cols ≤ rowSize) (c : UInt8) :
    TtyInBounds scr (ttyPutchar scr c s) := by
  have hcursor := h.cursor
  unfold ttyPutchar
  split
  next => exact h.newline hnarrow
  next =>
    split
    next => exact ⟨h.cols, h.rows, Nat.zero_le _, h.log⟩
    next =>
      split
      next =>
        split
        next hcx =>
          have hback : TtyInBounds scr { s with termCx := s.termCx - 1 } :=
            ⟨h.cols, h.rows, (Nat.sub_le _ _).trans hcursor, h.log⟩
          have hcx' : s.termCx - 1 < s.cols := by omega
          exact (hback.putCell hnarrow hcx' space).1
        next => exact h
      next =>
        split
        next hcx =>
          obtain ⟨hput, hsame⟩ := h.putCell hnarrow hcx c
          apply hput.advance
          rwa [hsame, hput.cols, ← h.cols]
        next => exact h

/-- Every call keeps the bounds on a narrow screen. -/
theorem exec (h : TtyInBounds scr s) (hnarrow : scr.cols ≤ rowSize) (op : TtyOp) :
    TtyInBounds scr (op.exec scr s) := by
  cases op with
  | putchar c => exact h.putchar hnarrow c
  | scrollUp =>
    change TtyInBounds scr (ttyScrollUp scr s)
    unfold ttyScrollUp
    split
    next => exact redraw ⟨h.cols, h.rows, h.cursor, h.log⟩ hnarrow
    next => exact h
  | scrollDown =>
    change TtyInBounds scr (ttyScrollDown scr s)
    unfold ttyScrollDown
    split
    next => exact redraw ⟨h.cols, h.rows, h.cursor, h.log⟩ hnarrow
    next => exact h
  | clear =>
    have hzero : TtyInBounds scr
        { s with buffer := fun _ => 0, ttyRow := 0, viewRow := 0, termCx := 0 } :=
      ⟨h.cols, h.rows, Nat.zero_le _, h.log⟩
    exact hzero.clear termBg

end TtyInBounds

/-- `tty_init` accesses nothing but pixels of the framebuffer. -/
theorem ttyInBounds_init (scr : Screen) (pixels : ℕ → UInt32) : TtyInBounds scr (ttyInit scr pixels) :=
  TtyInBounds.clear ⟨rfl, rfl, Nat.zero_le _, fun _ ha => absurd ha List.not_mem_nil⟩ termBg

/-- The `memset` of a row touches each of its first `cols` bytes. -/
theorem mem_log_clearRow {s : Terminal} {c : ℕ} (hc : c < s.cols) :
    .cell (s.ttyRow % maxRows) c ∈ s.clearRow.log := by
  have hall : ∀ c < s.cols, .cell (s.ttyRow % maxRows) c ∈ s.clearRow.log := by
    apply forRange_induction (fun i (t : Terminal) => ∀ c < i, .cell (s.ttyRow % maxRows) c ∈ t.log)
    · exact fun _ hc => absurd hc (Nat.not_lt_zero _)
    · intro i t _ ht c hc
      apply List.mem_append.mpr
      cases Nat.lt_succ_iff_lt_or_eq.mp hc with
      | inl hlt => exact .inl (ht c hlt)
      | inr heq => exact .inr (heq ▸ List.mem_singleton_self _)
  exact hall c hc

/-- A newline stores past the end of a row when the screen is wider than the row. -/
theorem putNewline_overruns {scr : Screen} {s : Terminal} (hwide : rowSize < s.cols) :
    .cell ((s.ttyRow + 1) % uint32Size % maxRows) rowSize ∈ (putNewline scr s).log := by
  have hrow := mem_log_clearRow (s := { s with ttyRow := (s.ttyRow + 1) % uint32Size, termCx := 0 }) hwide
  unfold putNewline
  dsimp only at hrow ⊢
  generalize Terminal.clearRow _ = s' at hrow ⊢
  split
  next => exact (sameText_ttyRedraw scr { s' with viewRow := _ }).log.subset hrow
  next => exact hrow

/-- A run of one newline. -/
theorem ttyRun_newline (scr : Screen) (s : Terminal) :
    ttyRun scr [.putchar newline] s = putNewline scr s := by
  change ttyPutchar scr newline s = putNewline scr s
  rw [ttyPutchar, if_pos rfl]

/-- Every run of the terminal stays within its memory exactly when the screen is at most a row of
`tty_buffer` wide. -/
theorem tty_run_inBounds_iff (scr : Screen) :
    (∀ pixels ops, ∀ a ∈ (ttyRun scr ops (ttyInit scr pixels)).log, a.InBounds scr.fb) ↔
      scr.fb.width / scr.font.width % uint32Size ≤ rowSize := by
  constructor
  · intro h
    by_contra hwide
    have hcols : rowSize < (ttyInit scr fun _ => 0).cols := by
      rw [(ttyInBounds_init scr _).cols]
      exact not_le.mp hwide
    have hlog := h (fun _ => 0) [.putchar newline]
    rw [ttyRun_newline] at hlog
    exact absurd (hlog _ (putNewline_overruns hcols)).2 (lt_irrefl _)
  · intro hnarrow pixels ops
    have hrun : TtyInBounds scr (ttyRun scr ops (ttyInit scr pixels)) :=
      (Run.of_foldl _ ops).invariant (TtyInBounds scr)
        (fun s op t hs (hstep : t = op.exec scr s) => hstep ▸ hs.exec hnarrow op)
        (ttyInBounds_init scr pixels)
    exact hrun.log

/-- A framebuffer of 2560 × 1440 pixels with a font of 8 × 16: 320 columns. -/
def wideScreen : Screen where
  fb := ⟨2560, 1440, 10240⟩
  font := ⟨256, 16, 16, 8, fun _ => 0xFF, by decide, by decide⟩

/-- On a wide screen the first newline already zeroes bytes behind the end of a row. -/
theorem tty_newline_overruns :
    ¬ ∀ a ∈ (ttyRun wideScreen [.putchar newline] (ttyInit wideScreen fun _ => 0)).log,
      a.InBounds wideScreen.fb := by
  intro h
  have hcols : rowSize < (ttyInit wideScreen fun _ => 0).cols := by
    rw [(ttyInBounds_init wideScreen _).cols]
    decide
  rw [ttyRun_newline] at h
  exact absurd (h _ (putNewline_overruns hcols)).2 (lt_irrefl _)

end Flos.Tty
