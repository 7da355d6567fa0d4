import Flos.Tty.Sync

/-!
# What scrolling back shows

`tty_buffer` is a ring of `MAX_ROWS` lines that forgets the oldest line silently, and `tty_scroll_up` only
looks at the number of the first line in the window. Next to the terminal runs a transcript that forgets
nothing: the text of each line and which line each row of the ring was last given to. Line numbers count as
`tty_row` does. The window shows the transcript as long as it does not reach a full ring back.
-/

namespace Flos.Tty

open Flos.Lib

/-- The text of every line as it was last written, and the line that begun last in each row of the ring. -/
structure Transcript where
  line : ℕ → ℕ → UInt8
  owner : ℕ → Option ℕ

/-- Line 0 begins in row 0. -/
def Transcript.init : Transcript := ⟨fun _ _ => 0, fun row => if row = 0 then some 0 else none⟩

/-- A character is written in a line. -/
def Transcript.put (h : Transcript) (n col : ℕ) (c : UInt8) : Transcript :=
  { h with line := fun n' col' => if n' = n ∧ col' = col then c else h.line n' col' }

/-- A line begins, empty. -/
def Transcript.begin (h : Transcript) (n : ℕ) : Transcript where
  line n' col := if n' = n then 0 else h.line n' col
  owner row := if row = n % maxRows then some n else h.owner row

/-- What a character adds to the transcript of a terminal. -/
def Transcript.putchar (h : Transcript) (s : Terminal) (c : UInt8) : Transcript :=
  if c = newline then h.begin ((s.ttyRow + 1) % uint32Size)
  else if c = carriageReturn then h
  else if c = backspace then
    if s.termCx > 0 then h.put s.ttyRow (s.termCx - 1) space else h
  else if s.termCx < s.cols then h.put s.ttyRow s.termCx c
  else h

/-- A terminal with its transcript. -/
abbrev Recorded := Terminal × Transcript

/-- A call on the terminal, and what it adds to the transcript. -/
def execRecorded (scr : Screen) (p : Recorded) (op : TtyOp) : Recorded :=
  (op.exec scr p.1,
    match op with
    | .putchar c => p.2.putchar p.1 c
    | .scrollUp => p.2
    | .scrollDown => p.2
    | .clear => Transcript.init)

/-- How far the first line of the window lies behind the line that is written. -/
def Terminal.back (s : Terminal) : ℕ := sub32 s.ttyRow s.viewRow

/-- The number of the line in a row of the window. -/
def Terminal.windowLine (s : Terminal) (r : ℕ) : ℕ := (s.viewRow + r) % uint32Size

/-- Each row of the window, down to the line that is written, reads a row of the ring that belongs to its
line and holds its text. -/
def ShowsHistory (p : Recorded) : Prop :=
  ∀ r < p.1.rows, r ≤ p.1.back → p.2.owner (p.1.bufRow r) = some (p.1.windowLine r) ∧
    ∀ col < p.1.cols, p.1.cell (p.1.bufRow r) col = p.2.line (p.1.windowLine r) col

/-- Scrolling up stops before the window is a full ring back, and scrolling down before it passes the
line that is written. -/
def ScrollsWithin (p : Recorded) : TtyOp → Prop
  | .putchar _ => True
  | .scrollUp => 0 < p.1.viewRow → p.1.back < maxRows - 1
  | .scrollDown => (p.1.viewRow + p.1.rows) % uint32Size < p.1.ttyRow → 0 < p.1.back
  | .clear => True

instance ScrollsWithin.decidable (p : Recorded) : (op : TtyOp) → Decidable (ScrollsWithin p op)
  | .putchar _ => .isTrue trivial
  | .scrollUp => inferInstanceAs (Decidable (_ → _))
  | .scrollDown => inferInstanceAs (Decidable (_ → _))
  | .clear => .isTrue trivial

/-- After `n` newlines, the last lines of the transcript are in the ring, and the window begins among
them. -/
structure RingHolds (n : ℕ) (s : Terminal) (h : Transcript) : Prop where
  ttyRow : s.ttyRow = n % uint32Size
  back_le : s.back ≤ n
  back_lt : s.back < maxRows
  owner : ∀ d < maxRows, d ≤ n → h.owner ((n - d) % maxRows) = some ((n - d) % uint32Size)
  text : ∀ d < maxRows, d ≤ n → ∀ col < s.cols,
    s.cell ((n - d) % maxRows) col = h.line ((n - d) % uint32Size) col

variable {scr : Screen} {n : ℕ} {s : Terminal} {h : Transcript}

namespace RingHolds

/-- The line of a window row, counted from the line that is written. -/
theorem windowLine_eq (hring : RingHolds n s h) (hview : s.viewRow < uint32Size) {r : ℕ}
    (hr : r ≤ s.back) :
    s.windowLine r = (n - (s.back - r)) % uint32Size ∧ s.bufRow r = (n - (s.back - r)) % maxRows := by
  have hrow := hring.ttyRow
  have hback := hring.back_le
  have hlt := hring.back_lt
  simp only [Terminal.windowLine, Terminal.bufRow, Terminal.back, sub32, uint32Size, maxRows] at *
  omega

/-- The invariant gives the property. -/
theorem showsHistory (hring : RingHolds n s h) (hview : s.viewRow < uint32Size) :
    ShowsHistory (s, h) := by
  intro r _ hback
  obtain ⟨hline, hrow⟩ := hring.windowLine_eq hview hback
  have hlt : s.back - r < maxRows := lt_of_le_of_lt (Nat.sub_le _ _) hring.back_lt
  have hle : s.back - r ≤ n := (Nat.sub_le _ _).trans hring.back_le
  show h.owner (s.bufRow r) = some (s.windowLine r) ∧
    ∀ col < s.cols, s.cell (s.bufRow r) col = h.line (s.windowLine r) col
  rw [hline, hrow]
  exact ⟨hring.owner _ hlt hle, hring.text _ hlt hle⟩

/-- Drawing keeps the text. -/
theorem draw {s' : Terminal} (hring : RingHolds n s h) (hsame : SameText s s') :
    RingHolds n s' h := by
  have hback : s'.back = s.back := by
    rw [Terminal.back, hsame.ttyRow, hsame.viewRow, Terminal.back]
  refine ⟨hsame.ttyRow.trans hring.ttyRow, hback ▸ hring.back_le, hback ▸ hring.back_lt, hring.owner, ?_⟩
  rw [hsame.cols]
  intro d hd hn col hcol
  rw [Terminal.cell, hsame.buffer]
  exact hring.text d hd hn col hcol

/-- The cursor does not matter. -/
theorem cursor (hring : RingHolds n s h) (cx : ℕ) : RingHolds n { s with termCx := cx } h :=
  ⟨hring.ttyRow, hring.back_le, hring.back_lt, hring.owner, hring.text⟩

/-- Another view that begins within the ring. -/
theorem view (hring : RingHolds n s h) {row : ℕ} (hle : sub32 s.ttyRow row ≤ n)
    (hlt : sub32 s.ttyRow row < maxRows) : RingHolds n { s with viewRow := row } h :=
  ⟨hring.ttyRow, hle, hlt, hring.owner, hring.text⟩

/-- Among the last lines, only the line that is written has its number and its row. -/
theorem last_iff {d : ℕ} (hd : d < maxRows) (hn : d ≤ n) :
    ((n - d) % maxRows = n % uint32Size % maxRows ↔ d = 0) ∧
      ((n - d) % uint32Size = n % uint32Size ↔ d = 0) := by
  simp only [uint32Size, maxRows] at *
  omega

/-- A character stored in the line that is written. -/
theorem setCell (hring : RingHolds n s h) {cx : ℕ} (hcx : cx < rowSize) (hnarrow : s.cols ≤ rowSize)
    (c : UInt8) : RingHolds n (s.setCell (s.ttyRow % maxRows) cx c) (h.put s.ttyRow cx c) := by
  refine ⟨hring.ttyRow, hring.back_le, hring.back_lt, hring.owner, ?_⟩
  intro d hd hn col hcol
  obtain ⟨hslot, hline⟩ := last_iff hd hn
  rw [cell_setCell hcx (hcol.trans_le hnarrow), hring.text d hd hn col hcol]
  simp only [Transcript.put, hring.ttyRow, hslot, hline]

/-- A character put at the cursor. -/
theorem putCell (hring : RingHolds n s h) (hcx : s.termCx < rowSize) (hnarrow : s.cols ≤ rowSize)
    (c : UInt8) : RingHolds n (s.putCell scr c) (h.put s.ttyRow s.termCx c) := by
  have hstored := hring.setCell hcx hnarrow c
  by_cases hvis : sub32 s.ttyRow s.viewRow < s.rows
  · rw [putCell_of_visible hvis]
    exact hstored.draw (sameText_drawCell scr _ c _ _)
  · rw [putCell_of_hidden hvis]
    exact hstored

/-- A line begins: it takes the row of the line that was a full ring back. -/
theorem begin (hring : RingHolds n s h) {s' : Terminal} (hnarrow : s.cols ≤ rowSize)
    (hrow : s'.ttyRow = (s.ttyRow + 1) % uint32Size) (hcols : s'.cols = s.cols)
    (hcell : ∀ r c, c < rowSize → s'.cell r c =
      if r = s'.ttyRow % maxRows ∧ c < s.cols then 0 else s.cell r c)
    (hle : s'.back ≤ n + 1) (hlt : s'.back < maxRows) :
    RingHolds (n + 1) s' (h.begin ((s.ttyRow + 1) % uint32Size)) := by
  have hlast : (s.ttyRow + 1) % uint32Size = (n + 1) % uint32Size := by
    rw [hring.ttyRow, Nat.mod_add_mod]
  refine ⟨hrow.trans hlast, hle, hlt, ?_, ?_⟩
  · intro d hd hn
    obtain ⟨hslot, _⟩ := last_iff hd hn
    simp only [Transcript.begin, hlast, hslot]
    by_cases hzero : d = 0
    · rw [if_pos hzero, hzero, Nat.sub_zero]
    · rw [if_neg hzero]
      have hprev := hring.owner (d - 1) (by omega) (by omega)
      rwa [show n + 1 - d = n - (d - 1) by omega]
  · intro d hd hn col hcol
    rw [hcols] at hcol
    obtain ⟨hslot, hline⟩ := last_iff hd hn
    rw [hcell _ _ (hcol.trans_le hnarrow), hrow, hlast]
    simp only [Transcript.begin, hslot, hline]
    by_cases hzero : d = 0
    · rw [if_pos hzero, if_pos ⟨hzero, hcol⟩]
    · rw [if_neg hzero, if_neg fun hc => hzero hc.1]
      have hprev := hring.text (d - 1) (by omega) (by omega) col hcol
      rwa [show n + 1 - d = n - (d - 1) by omega]

/-- A newline moves the window on when it is full. -/
theorem newline (hring : RingHolds n s h) (hview : s.viewRow < uint32Size)
    (hnarrow : s.cols ≤ rowSize) (hshort : s.rows ≤ maxRows) :
    RingHolds (n + 1) (putNewline scr s) (h.begin ((s.ttyRow + 1) % uint32Size)) := by
  obtain ⟨-, hview', hrow', hcols', hrows', hcell⟩ := clearRow_spec
    (s := { s with ttyRow := (s.ttyRow + 1) % uint32Size, termCx := 0 }) hnarrow
  have hrow := hring.ttyRow
  have hback := hring.back_le
  have hlt := hring.back_lt
  unfold putNewline
  dsimp only at hview' hrow' hcols' hrows' hcell ⊢
  generalize Terminal.clearRow _ = s' at hview' hrow' hcols' hrows' hcell ⊢
  have hcell' : ∀ r c, c < rowSize → s'.cell r c =
      if r = s'.ttyRow % maxRows ∧ c < s.cols then 0 else s.cell r c := by
    intro r c hc
    rw [hcell r c hc, hrow']
    rfl
  by_cases hfull : sub32 s'.ttyRow s'.viewRow ≥ s'.rows
  · rw [if_pos hfull]
    refine draw (s := { s' with viewRow := (s'.viewRow + 1) % uint32Size }) ?_ (sameText_ttyRedraw scr _)
    refine hring.begin hnarrow hrow' hcols' hcell' ?_ ?_
    · show sub32 s'.ttyRow ((s'.viewRow + 1) % uint32Size) ≤ n + 1
      rw [hrow', hview']
      simp only [Terminal.back, sub32, uint32Size, maxRows] at *
      omega
    · show sub32 s'.ttyRow ((s'.viewRow + 1) % uint32Size) < maxRows
      rw [hrow', hview']
      simp only [Terminal.back, sub32, uint32Size, maxRows] at *
      omega
  · rw [if_neg hfull]
    refine hring.begin hnarrow hrow' hcols' hcell' ?_ ?_
    · show sub32 s'.ttyRow s'.viewRow ≤ n + 1
      rw [hrow', hview']
      simp only [Terminal.back, sub32, uint32Size, maxRows] at *
      omega
    · exact (Nat.not_le.mp hfull).trans_le (hrows'.trans_le hshort)

/-- A character keeps the ring, and a newline makes it one line longer. -/
theorem putchar (hring : RingHolds n s h) (hview : s.viewRow < uint32Size) (hcursor : s.termCx ≤ s.cols)
    (hnarrow : s.cols ≤ rowSize) (hshort : s.rows ≤ maxRows) (c : UInt8) :
    ∃ m, RingHolds m (ttyPutchar scr c s) (h.putchar s c) := by
  rw [ttyPutchar, Transcript.putchar]
  by_cases hnewline : c = Tty.newline
  · rw [if_pos hnewline, if_pos hnewline]
    exact ⟨n + 1, hring.newline hview hnarrow hshort⟩
  rw [if_neg hnewline, if_neg hnewline]
  by_cases hreturn : c = carriageReturn
  · rw [if_pos hreturn, if_pos hreturn]
    exact ⟨n, hring.cursor 0⟩
  rw [if_neg hreturn, if_neg hreturn]
  by_cases hback : c = backspace
  · rw [if_pos hback, if_pos hback]
    by_cases hcx : s.termCx > 0
    · rw [if_pos hcx, if_pos hcx]
      have hcol : s.termCx - 1 < rowSize := by omega
      exact ⟨n, (hring.cursor (s.termCx - 1)).putCell hcol hnarrow space⟩
    · rw [if_neg hcx, if_neg hcx]
      exact ⟨n, hring⟩
  rw [if_neg hback, if_neg hback]
  by_cases hcx : s.termCx < s.cols
  · rw [if_pos hcx, if_pos hcx]
    exact ⟨n, (hring.putCell (hcx.trans_le hnarrow) hnarrow c).cursor _⟩
  · rw [if_neg hcx, if_neg hcx]
    exact ⟨n, hring⟩

end RingHolds

/-- What holds in every state of a run. -/
structure HistorySound (scr : Screen) (p : Recorded) : Prop where
  bounds : TtyInBounds scr p.1
  fit : RowsFit p.1
  ring : ∃ n, RingHolds n p.1 p.2

/-- `tty_scroll_up` on the window of a sound terminal. -/
theorem RingHolds.scrollUp (hring : RingHolds n s h) (hview : s.viewRow < uint32Size)
    (hwithin : ScrollsWithin (s, h) .scrollUp) : RingHolds n (ttyScrollUp scr s) h := by
  have hrow := hring.ttyRow
  have hback := hring.back_le
  by_cases hmoves : s.viewRow > 0
  · rw [ttyScrollUp, if_pos hmoves]
    have hlt : s.back < maxRows - 1 := hwithin hmoves
    refine (hring.view ?_ ?_).draw (sameText_ttyRedraw scr _) <;>
    · simp only [Terminal.back, sub32, uint32Size, maxRows] at *
      omega
  · rw [ttyScrollUp, if_neg hmoves]
    exact hring

/-- `tty_scroll_down` on the window of a sound terminal. -/
theorem RingHolds.scrollDown (hring : RingHolds n s h)
    (hwithin : ScrollsWithin (s, h) .scrollDown) : RingHolds n (ttyScrollDown scr s) h := by
  have hrow := hring.ttyRow
  have hback := hring.back_le
  have hlt := hring.back_lt
  by_cases hmoves : (s.viewRow + s.rows) % uint32Size < s.ttyRow
  · rw [ttyScrollDown, if_pos hmoves]
    have hpos : 0 < s.back := hwithin hmoves
    refine (hring.view ?_ ?_).draw (sameText_ttyRedraw scr _) <;>
    · simp only [Terminal.back, sub32, uint32Size, maxRows] at *
      omega
  · rw [ttyScrollDown, if_neg hmoves]
    exact hring

/-- A call that scrolls within the ring keeps it. -/
theorem HistorySound.exec {p : Recorded} (hp : HistorySound scr p) (hnarrow : scr.cols ≤ rowSize)
    (hshort : scr.rows ≤ maxRows) {op : TtyOp} (hclear : op ≠ .clear) (hwithin : ScrollsWithin p op) :
    HistorySound scr (execRecorded scr p op) := by
  have hcols : p.1.cols ≤ rowSize := hp.bounds.cols.trans_le hnarrow
  have hrows : p.1.rows ≤ maxRows := hp.bounds.rows.trans_le hshort
  obtain ⟨n, hring⟩ := hp.ring
  refine ⟨hp.bounds.exec hnarrow op, hp.fit.exec scr hcols op, ?_⟩
  cases op with
  | putchar c => exact hring.putchar hp.fit.viewRow hp.bounds.cursor hcols hrows c
  | scrollUp => exact ⟨n, hring.scrollUp hp.fit.viewRow hwithin⟩
  | scrollDown => exact ⟨n, hring.scrollDown hwithin⟩
  | clear => exact absurd rfl hclear

/-- Scrolling out of the ring shows a wrong line at the top. -/
theorem HistorySound.scrollsWithin {p : Recorded} (hp : HistorySound scr p) (hrows : 0 < scr.rows)
    (hshort : scr.rows ≤ maxRows) {op : TtyOp} (hshows : ShowsHistory (execRecorded scr p op)) : ScrollsWithin p op := by
  obtain ⟨n, hring⟩ := hp.ring
  have hrow := hring.ttyRow
  have hback := hring.back_le
  have hlt := hring.back_lt
  have hview := hp.fit.viewRow
  -- the line at the top of the window is the one that the ring holds there
  have htop : ∀ row, row < uint32Size → ShowsHistory (ttyRedraw scr { p.1 with viewRow := row }, p.2) →
      p.2.owner (row % maxRows) = some row := by
    intro row hlt' hshown
    have hsame := sameText_ttyRedraw scr { p.1 with viewRow := row }
    have hpos : 0 < (ttyRedraw scr { p.1 with viewRow := row }).rows := by
      rw [hsame.rows]
      exact lt_of_lt_of_eq hrows hp.bounds.rows.symm
    have howner := (hshown 0 hpos (Nat.zero_le _)).1
    rwa [Terminal.bufRow, Terminal.windowLine, hsame.viewRow, Nat.add_zero,
      Nat.mod_eq_of_lt hlt'] at howner
  cases op with
  | putchar c => trivial
  | clear => trivial
  | scrollUp =>
    intro hmoves
    by_contra hfar
    have hup : ttyScrollUp scr p.1 = ttyRedraw scr { p.1 with viewRow := p.1.viewRow - 1 } :=
      if_pos hmoves
    have hshown : ShowsHistory (ttyScrollUp scr p.1, p.2) := hshows
    rw [hup] at hshown
    have howner := htop (p.1.viewRow - 1) (by omega) hshown
    have hlast := hring.owner 0 (by decide) (Nat.zero_le _)
    have hslot : (n - 0) % maxRows = (p.1.viewRow - 1) % maxRows := by
      simp only [Terminal.back, sub32, uint32Size, maxRows] at *
      omega
    rw [hslot, howner] at hlast
    have hnumber := Option.some.inj hlast
    simp only [Terminal.back, sub32, uint32Size, maxRows] at *
    omega
  | scrollDown =>
    intro hmoves
    by_contra hzero
    have hdown : ttyScrollDown scr p.1 =
        ttyRedraw scr { p.1 with viewRow := (p.1.viewRow + 1) % uint32Size } := if_pos hmoves
    have hshown : ShowsHistory (ttyScrollDown scr p.1, p.2) := hshows
    rw [hdown] at hshown
    have howner := htop _ (Nat.mod_lt _ (by decide)) hshown
    -- the window moves past the line that is written only where the line numbers wrap
    have hlong : maxRows ≤ n := by
      have hshort' : p.1.rows ≤ maxRows := hp.bounds.rows.trans_le hshort
      simp only [Terminal.back, sub32, uint32Size, maxRows] at *
      omega
    have hfirst := hring.owner (maxRows - 1) (by decide) ((Nat.sub_le _ _).trans hlong)
    have hslot : (n - (maxRows - 1)) % maxRows = (p.1.viewRow + 1) % uint32Size % maxRows := by
      simp only [Terminal.back, sub32, uint32Size, maxRows] at *
      omega
    rw [hslot, howner] at hfirst
    have hnumber := Option.some.inj hfirst
    simp only [Terminal.back, sub32, uint32Size, maxRows] at *
    omega

/-- `tty_init` begins line 0. -/
theorem historySound_init (scr : Screen) (pixels : ℕ → UInt32) :
    HistorySound scr (ttyInit scr pixels, Transcript.init) := by
  have hbounds := ttyInBounds_init scr pixels
  unfold ttyInit at hbounds ⊢
  have hsame := sameText_fbFillRect
    { buffer := fun _ => 0, ttyRow := 0, viewRow := 0, cols := scr.fb.width / scr.font.width % uint32Size,
      rows := scr.fb.height / scr.font.height % uint32Size, termCx := 0, pixels := pixels, log := [] }
    scr.fb 0 0 scr.fb.width scr.fb.height termBg
  refine ⟨hbounds, RowsFit.draw ⟨Nat.two_pow_pos 32, Nat.two_pow_pos 32⟩ hsame, 0, ?_⟩
  refine RingHolds.draw ⟨rfl, ?_, ?_, ?_, ?_⟩ hsame
  · show sub32 0 0 ≤ 0
    decide
  · show sub32 0 0 < maxRows
    decide
  · intro d _ hd
    rw [Nat.le_zero.mp hd]
    rfl
  · intro d _ _ col _
    rfl

/-- In every run, all windows show the transcript exactly when no call scrolls out of the ring. -/
theorem tty_run_showsHistory_iff (scr : Screen) (hnarrow : scr.cols ≤ rowSize) (hpos : 0 < scr.rows)
    (hshort : scr.rows ≤ maxRows) (pixels : ℕ → UInt32) {ops : List TtyOp}
    (hops : ∀ op ∈ ops, op ≠ .clear) :
    EveryState (execRecorded scr) ShowsHistory (ttyInit scr pixels, Transcript.init) ops ↔
      EveryStep (execRecorded scr) ScrollsWithin (ttyInit scr pixels, Transcript.init) ops := by
  have hallowed : EveryStep (execRecorded scr) (fun _ op => op ≠ .clear)
      (ttyInit scr pixels, Transcript.init) ops := by
    generalize (ttyInit scr pixels, Transcript.init) = p
    induction ops generalizing p with
    | nil => trivial
    | cons op ops ih =>
      exact ⟨hops op List.mem_cons_self, ih (fun op' h => hops op' (List.mem_cons_of_mem op h)) _⟩
  apply everyState_iff_everyStep (P := ShowsHistory) _ _ _ hallowed (historySound_init scr pixels)
  · rintro p hp
    obtain ⟨n, hring⟩ := hp.ring
    exact hring.showsHistory hp.fit.viewRow
  · exact fun p op hp hclear hwithin => hp.exec hnarrow hshort hclear hwithin
  · exact fun p op hp _ hshows => hp.scrollsWithin hpos hshort hshows

/-! ## A screen that scrolls out of the ring -/

/-- The line numbers behind a newline. -/
theorem putNewline_rows (scr : Screen) (s : Terminal) (hnarrow : s.cols ≤ rowSize) :
    (putNewline scr s).ttyRow = (s.ttyRow + 1) % uint32Size ∧
      (putNewline scr s).viewRow =
        if sub32 ((s.ttyRow + 1) % uint32Size) s.viewRow ≥ s.rows then (s.viewRow + 1) % uint32Size
        else s.viewRow := by
  obtain ⟨-, hview, hrow, -, hrows, -⟩ := clearRow_spec
    (s := { s with ttyRow := (s.ttyRow + 1) % uint32Size, termCx := 0 }) hnarrow
  unfold putNewline
  dsimp only at hview hrow hrows ⊢
  generalize Terminal.clearRow _ = s' at hview hrow hrows ⊢
  rw [← hrow, ← hview, ← hrows]
  by_cases hfull : sub32 s'.ttyRow s'.viewRow ≥ s'.rows
  · rw [if_pos hfull, if_pos hfull]
    have hsame := sameText_ttyRedraw scr { s' with viewRow := (s'.viewRow + 1) % uint32Size }
    exact ⟨hsame.ttyRow, hsame.viewRow⟩
  · rw [if_neg hfull, if_neg hfull]
    exact ⟨rfl, rfl⟩

/-- A run of newlines: the last line is at the bottom of the window. -/
theorem run_newlines (scr : Screen) (hnarrow : scr.cols ≤ rowSize) (hpos : 0 < scr.rows)
    (hshort : scr.rows ≤ maxRows) (pixels : ℕ → UInt32) {n : ℕ} (hn : n < uint32Size) :
    let p := (List.replicate n (TtyOp.putchar newline)).foldl (execRecorded scr)
      (ttyInit scr pixels, Transcript.init)
    HistorySound scr p ∧ p.1.ttyRow = n ∧ p.1.viewRow = n + 1 - scr.rows := by
  induction n with
  | zero =>
    have hinit := historySound_init scr pixels
    have hrow := sameText_fbFillRect
      { buffer := fun _ => 0, ttyRow := 0, viewRow := 0, cols := scr.fb.width / scr.font.width % uint32Size,
        rows := scr.fb.height / scr.font.height % uint32Size, termCx := 0, pixels := pixels, log := [] }
      scr.fb 0 0 scr.fb.width scr.fb.height termBg
    refine ⟨hinit, hrow.ttyRow, hrow.viewRow.trans ?_⟩
    show 0 = 0 + 1 - scr.rows
    omega
  | succ n ih =>
    obtain ⟨hsound, hrow, hview⟩ := ih (by omega)
    rw [List.replicate_succ', List.foldl_append]
    generalize (List.replicate n (TtyOp.putchar newline)).foldl (execRecorded scr)
      (ttyInit scr pixels, Transcript.init) = p at hsound hrow hview ⊢
    have hexec : (execRecorded scr p (.putchar newline)).1 = putNewline scr p.1 := by
      show ttyPutchar scr newline p.1 = _
      rw [ttyPutchar, if_pos rfl]
    obtain ⟨hrow', hview'⟩ := putNewline_rows scr p.1 (hsound.bounds.cols.trans_le hnarrow)
    have hrows := hsound.bounds.rows
    refine ⟨hsound.exec hnarrow hshort (by rintro ⟨⟩) trivial, ?_, ?_⟩
    · show (execRecorded scr p (.putchar newline)).1.ttyRow = n + 1
      rw [hexec, hrow', hrow, Nat.mod_eq_of_lt hn]
    · show (execRecorded scr p (.putchar newline)).1.viewRow = n + 1 + 1 - scr.rows
      rw [hexec, hview', hrow, hview, hrows]
      by_cases hfull : scr.rows ≤ n + 1
      · rw [if_pos] <;>
        · simp only [sub32, uint32Size] at *
          omega
      · rw [if_neg] <;>
        · simp only [sub32, uint32Size] at *
          omega

/-- Scrolling up all the way only looks at the number of the first line. -/
theorem run_scrollUps (scr : Screen) (p : Recorded) (n : ℕ) :
    let q := (List.replicate n TtyOp.scrollUp).foldl (execRecorded scr) p
    q.1.ttyRow = p.1.ttyRow ∧ q.1.viewRow = p.1.viewRow - n ∧ q.1.rows = p.1.rows ∧ q.2 = p.2 := by
  induction n generalizing p with
  | zero => exact ⟨rfl, rfl, rfl, rfl⟩
  | succ n ih =>
    have hstep : (execRecorded scr p .scrollUp).1.ttyRow = p.1.ttyRow ∧
        (execRecorded scr p .scrollUp).1.viewRow = p.1.viewRow - 1 ∧
        (execRecorded scr p .scrollUp).1.rows = p.1.rows := by
      show (ttyScrollUp scr p.1).ttyRow = _ ∧ (ttyScrollUp scr p.1).viewRow = _ ∧
        (ttyScrollUp scr p.1).rows = _
      rw [ttyScrollUp]
      split
      next =>
        have hsame := sameText_ttyRedraw scr { p.1 with viewRow := p.1.viewRow - 1 }
        exact ⟨hsame.ttyRow, hsame.viewRow, hsame.rows⟩
      next hzero => exact ⟨rfl, by omega, rfl⟩
    obtain ⟨hrow, hview, hrows, htext⟩ := ih (execRecorded scr p .scrollUp)
    rw [List.replicate_succ, List.foldl_cons]
    refine ⟨hrow.trans hstep.1, ?_, hrows.trans hstep.2.2, htext⟩
    rw [hview, hstep.2.1]
    omega

/-- 512 newlines and back to the first line: its row holds line 512. -/
theorem scrollUp_shows_other_line :
    ¬ EveryState (execRecorded tinyScreen) ShowsHistory
      (ttyInit tinyScreen fun _ => 0, Transcript.init)
      (List.replicate 512 (.putchar newline) ++ List.replicate 511 .scrollUp) := by
  intro hall
  have hlast := hall.last
  rw [List.foldl_append] at hlast
  obtain ⟨hsound, hrow, hview⟩ := run_newlines tinyScreen (by decide) (by decide) (by decide)
    (fun _ => 0) (n := 512) (by decide)
  generalize List.foldl (execRecorded tinyScreen) _ (List.replicate 512 (.putchar newline)) = p
    at hlast hsound hrow hview
  obtain ⟨hrow', hview', hrows', htext⟩ := run_scrollUps tinyScreen p 511
  rw [hview, show 512 + 1 - tinyScreen.rows - 511 = 0 by decide] at hview'
  generalize List.foldl (execRecorded tinyScreen) p (List.replicate 511 .scrollUp) = q
    at hlast hrow' hview' hrows' htext
  have hrows : 0 < q.1.rows := by
    rw [hrows', hsound.bounds.rows]
    decide
  obtain ⟨n, hring⟩ := hsound.ring
  have hnumber := hring.ttyRow
  have howner := hring.owner 0 (by decide) (Nat.zero_le _)
  have htop := (hlast 0 hrows (Nat.zero_le _)).1
  rw [htext, Terminal.bufRow, Terminal.windowLine, hview'] at htop
  rw [hrow] at hnumber
  have hslot : (n - 0) % maxRows = (0 + 0) % uint32Size % maxRows := by
    simp only [uint32Size, maxRows] at *
    omega
  rw [hslot, htop] at howner
  have hline := Option.some.inj howner
  simp only [uint32Size] at *
  omega

/-- A short run on the tiny screen that scrolls back and forth. -/
theorem tty_run_showsHistory_tinyScreen :
    EveryState (execRecorded tinyScreen) ShowsHistory
      (ttyInit tinyScreen fun _ => 0, Transcript.init)
      [.putchar 65, .putchar newline, .putchar newline, .scrollUp, .scrollDown] :=
  (tty_run_showsHistory_iff tinyScreen (by decide) (by decide) (by decide) (fun _ => 0)
    (by decide)).mpr (by decide +kernel)

end Flos.Tty
