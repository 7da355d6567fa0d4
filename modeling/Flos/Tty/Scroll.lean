import Flos.Tty.Bounds

/-!
# Scrolling by hand

`tty_putchar` moves the window on as soon as the line that is written has left it, while
`tty_scroll_down` moves it only when a further line lies behind that one. The two agree on lines that are
far behind the window, and differ by one line at its end: the window cannot be scrolled back down to
where the newline put it.
-/

namespace Flos.Tty

open Flos.Lib

/-- The number of the first line in the window, and of the line that is written. -/
@[ext]
structure Lines where
  viewRow : ℕ
  ttyRow : ℕ

/-- The line numbers of a terminal. -/
def Terminal.lines (s : Terminal) : Lines := ⟨s.viewRow, s.ttyRow⟩

/-- What a call does to the line numbers, in a window of `rows` rows. -/
def Lines.step (rows : ℕ) : TtyOp → Lines → Lines
  | .putchar c, l =>
    if c = newline then
      let ttyRow := (l.ttyRow + 1) % uint32Size
      ⟨if sub32 ttyRow l.viewRow ≥ rows then (l.viewRow + 1) % uint32Size else l.viewRow, ttyRow⟩
    else l
  | .scrollUp, l => ⟨l.viewRow - 1, l.ttyRow⟩
  | .scrollDown, l =>
    ⟨if (l.viewRow + rows) % uint32Size < l.ttyRow then (l.viewRow + 1) % uint32Size else l.viewRow,
      l.ttyRow⟩
  | .clear, _ => ⟨0, 0⟩

section Step

variable {scr : Screen} {s : Terminal}

/-- Drawing keeps the line numbers. -/
theorem SameText.lines {s' : Terminal} (h : SameText s s') : s'.lines = s.lines ∧ s'.rows = s.rows :=
  ⟨Lines.ext h.viewRow h.ttyRow, h.rows⟩

/-- A character put at the cursor keeps the line numbers. -/
theorem putCell_lines (scr : Screen) (s : Terminal) (c : UInt8) :
    (s.putCell scr c).lines = s.lines ∧ (s.putCell scr c).rows = s.rows := by
  by_cases hvis : sub32 s.ttyRow s.viewRow < s.rows
  · rw [putCell_of_visible hvis]
    exact (sameText_drawCell scr _ c _ _).lines
  · rw [putCell_of_hidden hvis]
    exact ⟨rfl, rfl⟩

/-- Emptying the row of the cursor keeps the line numbers, however wide the screen is. -/
theorem clearRow_lines (s : Terminal) : s.clearRow.lines = s.lines ∧ s.clearRow.rows = s.rows :=
  forRange_invariant (fun t : Terminal => t.lines = s.lines ∧ t.rows = s.rows) (fun _ _ _ h => h)
    ⟨rfl, rfl⟩

/-- The line numbers after a newline. -/
theorem putNewline_lines (scr : Screen) (s : Terminal) :
    (putNewline scr s).lines = Lines.step s.rows (.putchar newline) s.lines ∧
      (putNewline scr s).rows = s.rows := by
  obtain ⟨hlines, hrows⟩ :=
    clearRow_lines { s with ttyRow := (s.ttyRow + 1) % uint32Size, termCx := 0 }
  have hview := congrArg Lines.viewRow hlines
  have hrow := congrArg Lines.ttyRow hlines
  unfold putNewline
  dsimp only [Terminal.lines] at hview hrow hrows ⊢
  generalize Terminal.clearRow _ = s' at hview hrow hrows ⊢
  simp only [Lines.step, if_true, ← hview, ← hrow, ← hrows]
  split
  next =>
    have hsame := sameText_ttyRedraw scr { s' with viewRow := (s'.viewRow + 1) % uint32Size }
    exact ⟨Lines.ext hsame.viewRow hsame.ttyRow, hsame.rows⟩
  next => exact ⟨rfl, rfl⟩

/-- Moving the cursor keeps the line numbers. -/
theorem cursor_lines (s : Terminal) (cx : ℕ) :
    { s with termCx := cx }.lines = s.lines ∧ { s with termCx := cx }.rows = s.rows :=
  ⟨rfl, rfl⟩

/-- A character other than a newline keeps the line numbers. -/
theorem ttyPutchar_lines_of_ne (scr : Screen) {c : UInt8} (hc : c ≠ newline) (s : Terminal) :
    (ttyPutchar scr c s).lines = s.lines ∧ (ttyPutchar scr c s).rows = s.rows := by
  unfold ttyPutchar
  rw [if_neg hc]
  split
  next => exact ⟨rfl, rfl⟩
  next =>
    split
    next =>
      split
      next => exact putCell_lines scr { s with termCx := s.termCx - 1 } space
      next => exact ⟨rfl, rfl⟩
    next =>
      split
      next =>
        have hcursor := cursor_lines (s.putCell scr c) ((s.putCell scr c).termCx + 1)
        have hput := putCell_lines scr s c
        exact ⟨hcursor.1.trans hput.1, hcursor.2.trans hput.2⟩
      next => exact ⟨rfl, rfl⟩

/-- `tty_putchar` moves the window at a newline only. -/
theorem ttyPutchar_lines (scr : Screen) (c : UInt8) (s : Terminal) :
    (ttyPutchar scr c s).lines = Lines.step s.rows (.putchar c) s.lines ∧
      (ttyPutchar scr c s).rows = s.rows := by
  by_cases hc : c = newline
  · rw [ttyPutchar, if_pos hc, hc]
    exact putNewline_lines scr s
  · have hstep : Lines.step s.rows (.putchar c) s.lines = s.lines := if_neg hc
    rw [hstep]
    exact ttyPutchar_lines_of_ne scr hc s

/-- `tty_scroll_up` takes the window one line back, if there is one. -/
theorem ttyScrollUp_lines (scr : Screen) (s : Terminal) :
    (ttyScrollUp scr s).lines = ⟨s.viewRow - 1, s.ttyRow⟩ ∧ (ttyScrollUp scr s).rows = s.rows := by
  unfold ttyScrollUp
  split
  next => exact (sameText_ttyRedraw scr { s with viewRow := s.viewRow - 1 }).lines
  next => exact ⟨Lines.ext (show s.viewRow = s.viewRow - 1 by omega) rfl, rfl⟩

/-- `tty_scroll_down` takes the window one line on, if the line after it is before the one that is
written. -/
theorem ttyScrollDown_lines (scr : Screen) (s : Terminal) :
    (ttyScrollDown scr s).lines = Lines.step s.rows .scrollDown s.lines ∧
      (ttyScrollDown scr s).rows = s.rows := by
  unfold ttyScrollDown
  by_cases hbelow : (s.viewRow + s.rows) % uint32Size < s.ttyRow
  · have hstep : Lines.step s.rows .scrollDown s.lines =
        ⟨(s.viewRow + 1) % uint32Size, s.ttyRow⟩ :=
      Lines.ext (if_pos hbelow) rfl
    rw [if_pos hbelow, hstep]
    exact (sameText_ttyRedraw scr { s with viewRow := (s.viewRow + 1) % uint32Size }).lines
  · have hstep : Lines.step s.rows .scrollDown s.lines = s.lines := Lines.ext (if_neg hbelow) rfl
    rw [if_neg hbelow, hstep]
    exact ⟨rfl, rfl⟩

/-- Every call changes the line numbers as described, and keeps the size of the window. -/
theorem exec_lines (scr : Screen) (s : Terminal) (op : TtyOp) :
    (op.exec scr s).lines = Lines.step s.rows op s.lines ∧ (op.exec scr s).rows = s.rows := by
  cases op with
  | putchar c => exact ttyPutchar_lines scr c s
  | scrollUp => exact ttyScrollUp_lines scr s
  | scrollDown => exact ttyScrollDown_lines scr s
  | clear =>
    exact (sameText_fbFillRect { s with buffer := fun _ => 0, ttyRow := 0, viewRow := 0, termCx := 0 }
      scr.fb 0 0 scr.fb.width scr.fb.height termBg).lines

end Step

/-- The line numbers are values of `uint32_t`. -/
def Lines.Fit (l : Lines) : Prop := l.viewRow < uint32Size ∧ l.ttyRow < uint32Size

/-- A line number that moves on, or does not, is a value of `uint32_t`. -/
theorem ite_succ_lt (p : Prop) [Decidable p] {n : ℕ} (hn : n < uint32Size) :
    (if p then (n + 1) % uint32Size else n) < uint32Size := by
  split
  next => exact Nat.mod_lt _ (by decide)
  next => exact hn

/-- Every call keeps the line numbers in `uint32_t`. -/
theorem Lines.Fit.step {rows : ℕ} {l : Lines} (h : l.Fit) (op : TtyOp) :
    (Lines.step rows op l).Fit := by
  cases op with
  | putchar c =>
    by_cases hc : c = newline
    · rw [Lines.step, if_pos hc]
      exact ⟨ite_succ_lt _ h.1, Nat.mod_lt _ (by decide)⟩
    · rw [Lines.step, if_neg hc]
      exact h
  | scrollUp => exact ⟨(Nat.sub_le _ _).trans_lt h.1, h.2⟩
  | scrollDown => exact ⟨ite_succ_lt _ h.1, h.2⟩
  | clear => exact ⟨Nat.two_pow_pos 32, Nat.two_pow_pos 32⟩

/-- Scrolling up and down again restores the view, and where scrolling down has no effect the line that
is written is in the window. -/
structure ScrollReversible (scr : Screen) (s : Terminal) : Prop where
  restores : 0 < s.viewRow → (ttyScrollDown scr (ttyScrollUp scr s)).viewRow = s.viewRow
  live : ttyScrollDown scr s = s → sub32 s.ttyRow s.viewRow < s.rows

/-- The line after the window is before the one that is written; or the window is at the first line, and
the line after it is not the one that is written. -/
def BehindLiveView (s : Terminal) : Prop :=
  if s.viewRow = 0 then s.ttyRow ≠ s.rows
  else s.viewRow + s.rows ≠ uint32Size ∧ (s.viewRow + s.rows) % uint32Size < s.ttyRow

/-- The first line of the window after scrolling down. -/
theorem viewRow_ttyScrollDown (scr : Screen) (s : Terminal) :
    (ttyScrollDown scr s).viewRow =
      if (s.viewRow + s.rows) % uint32Size < s.ttyRow then (s.viewRow + 1) % uint32Size
      else s.viewRow :=
  congrArg Lines.viewRow (ttyScrollDown_lines scr s).1

/-- Scrolling down has no effect exactly when the line after the window is not before the one that is
written. -/
theorem ttyScrollDown_eq_self_iff (scr : Screen) {s : Terminal} (hfit : s.lines.Fit) :
    ttyScrollDown scr s = s ↔ ¬ (s.viewRow + s.rows) % uint32Size < s.ttyRow := by
  constructor
  · intro hsame hbelow
    have hview := viewRow_ttyScrollDown scr s
    have hlt : s.viewRow < uint32Size := hfit.1
    rw [hsame, if_pos hbelow] at hview
    simp only [uint32Size] at hview hlt
    omega
  · exact fun hbelow => if_neg hbelow

/-- Scrolling up and down again restores the view exactly when the last line of the window is before the
one that is written. -/
theorem viewRow_scrollUp_scrollDown_iff (scr : Screen) {s : Terminal} (hfit : s.lines.Fit)
    (hview : 0 < s.viewRow) :
    (ttyScrollDown scr (ttyScrollUp scr s)).viewRow = s.viewRow ↔
      (s.viewRow - 1 + s.rows) % uint32Size < s.ttyRow := by
  obtain ⟨hup, hrows⟩ := ttyScrollUp_lines scr s
  have hupView : (ttyScrollUp scr s).viewRow = s.viewRow - 1 := congrArg Lines.viewRow hup
  have hupRow : (ttyScrollUp scr s).ttyRow = s.ttyRow := congrArg Lines.ttyRow hup
  have hlt : s.viewRow < uint32Size := hfit.1
  rw [viewRow_ttyScrollDown, hupView, hupRow, hrows, Nat.sub_add_cancel hview,
    Nat.mod_eq_of_lt hlt]
  constructor
  · intro h
    by_contra hbelow
    rw [if_neg hbelow] at h
    omega
  · exact fun hbelow => if_pos hbelow

/-- The condition, on the line numbers alone. -/
theorem behindLiveView_iff {view row rows : ℕ} (hview : view < uint32Size) (hrow : row < uint32Size)
    (hrows : rows < uint32Size) :
    ((0 < view → (view - 1 + rows) % uint32Size < row) ∧
        (¬ (view + rows) % uint32Size < row → sub32 row view < rows)) ↔
      if view = 0 then row ≠ rows
      else view + rows ≠ uint32Size ∧ (view + rows) % uint32Size < row := by
  simp only [sub32, uint32Size] at *
  split
  next hzero => omega
  next hpos => omega

/-- A run keeps the line numbers in `uint32_t`, and the window's size. -/
theorem ttyRun_lines {scr : Screen} {s : Terminal} (hfit : s.lines.Fit) (ops : List TtyOp) :
    (ttyRun scr ops s).lines.Fit ∧ (ttyRun scr ops s).rows = s.rows := by
  induction ops generalizing s with
  | nil => exact ⟨hfit, rfl⟩
  | cons op ops ih =>
    obtain ⟨hlines, hrows⟩ := exec_lines scr s op
    obtain ⟨hrun, hkeep⟩ := ih (s := op.exec scr s) (hlines ▸ hfit.step op)
    exact ⟨hrun, hkeep.trans hrows⟩

/-- The window starts at the first line. -/
theorem ttyInit_lines (scr : Screen) (pixels : ℕ → UInt32) :
    (ttyInit scr pixels).lines = ⟨0, 0⟩ ∧ (ttyInit scr pixels).rows = scr.rows :=
  (sameText_fbFillRect
    { buffer := fun _ => 0, ttyRow := 0, viewRow := 0, cols := scr.cols, rows := scr.rows,
      termCx := 0, pixels := pixels, log := [] }
    scr.fb 0 0 scr.fb.width scr.fb.height termBg).lines

/-- In a reachable state scrolling is reversible and returns to the live view exactly when the window
leaves a whole line between its last one and the one that is written, or shows the first line and has not
just lost the one that is written. -/
theorem ttyRun_scrollReversible_iff (scr : Screen) (pixels : ℕ → UInt32) (ops : List TtyOp) :
    ScrollReversible scr (ttyRun scr ops (ttyInit scr pixels)) ↔
      BehindLiveView (ttyRun scr ops (ttyInit scr pixels)) := by
  obtain ⟨hinit, hsize⟩ := ttyInit_lines scr pixels
  have hzero : Lines.Fit ⟨0, 0⟩ := ⟨Nat.two_pow_pos 32, Nat.two_pow_pos 32⟩
  obtain ⟨hfit, hkeep⟩ := @ttyRun_lines scr _ (hinit ▸ hzero) ops
  have hrows : (ttyRun scr ops (ttyInit scr pixels)).rows < uint32Size := by
    rw [hkeep, hsize]
    exact Nat.mod_lt _ (by decide)
  generalize ttyRun scr ops (ttyInit scr pixels) = s at hfit hrows ⊢
  have hview : s.viewRow < uint32Size := hfit.1
  have hrow : s.ttyRow < uint32Size := hfit.2
  rw [BehindLiveView, ← behindLiveView_iff hview hrow hrows]
  constructor
  · intro h
    exact ⟨fun hview => (viewRow_scrollUp_scrollDown_iff scr hfit hview).mp (h.restores hview),
      fun hbelow => h.live ((ttyScrollDown_eq_self_iff scr hfit).mpr hbelow)⟩
  · intro h
    exact ⟨fun hview => (viewRow_scrollUp_scrollDown_iff scr hfit hview).mpr (h.1 hview),
      fun hsame => h.2 ((ttyScrollDown_eq_self_iff scr hfit).mp hsame)⟩

/-- A screen of one column and two rows. -/
def narrowScreen : Screen where
  fb := ⟨1, 2, 4⟩
  font := ⟨256, 1, 1, 1, fun _ => 0x80, Nat.one_pos, Nat.one_pos⟩

/-- Two newlines move a window of two rows on by one line. Scrolling up and down again leaves it at the
first line, where scrolling down has no effect and the line that is written is out of sight. -/
theorem ttyRun_stuckAbove :
    let s := ttyRun narrowScreen [.putchar newline, .putchar newline] (ttyInit narrowScreen fun _ => 0)
    let t := ttyScrollUp narrowScreen s
    s.viewRow = 1 ∧ (ttyScrollDown narrowScreen t).viewRow = 0 ∧ ttyScrollDown narrowScreen t = t ∧
      ¬ sub32 t.ttyRow t.viewRow < t.rows ∧ ¬ ScrollReversible narrowScreen s ∧
      ¬ ScrollReversible narrowScreen t := by
  intro s t
  have hview : s.viewRow = 1 := by decide +kernel
  have hback : (ttyScrollDown narrowScreen t).viewRow = 0 := by decide +kernel
  have hstuck : ttyScrollDown narrowScreen t = t :=
    if_neg (show ¬ (t.viewRow + t.rows) % uint32Size < t.ttyRow by decide +kernel)
  have hhidden : ¬ sub32 t.ttyRow t.viewRow < t.rows := by decide +kernel
  refine ⟨hview, hback, hstuck, hhidden, fun h => ?_, fun h => hhidden (h.live hstuck)⟩
  have hrestored := h.restores (by rw [hview]; exact Nat.one_pos)
  rw [hview] at hrestored
  exact absurd (hback.symm.trans hrestored) (by decide)

end Flos.Tty
