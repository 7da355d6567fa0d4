import Flos.Lib.Loops
import Mathlib.Algebra.Order.Group.Nat

/-!
# The terminal

`tty.c` over the framebuffer and the font. The buffer and the framebuffer are flat memories, as C lays
them out, so an index past a row's end lands in the next row. The state also records every element of
`tty_buffer` that `tty_putchar` and `tty_redraw` touch, the bytes of the per-row `memset` among them, and
every call of `fb_putpixel`.
-/

namespace Flos.Tty

open Flos.Lib

/-- `MAX_ROWS`. -/
abbrev maxRows : ℕ := 512

/-- The length of a row of `tty_buffer`. -/
abbrev rowSize : ℕ := 256

/-- The values of `uint32_t`. -/
abbrev uint32Size : ℕ := 2 ^ 32

/-- `framebuffer_t`, without its address. -/
structure Framebuffer where
  width : ℕ
  height : ℕ
  pitch : ℕ

/-- `psf_font_t`: what is read of the header, and the bytes of the glyphs. -/
structure PsfFont where
  numglyph : ℕ
  bytesperglyph : ℕ
  height : ℕ
  width : ℕ
  glyphs : ℕ → UInt8
  height_pos : 0 < height
  width_pos : 0 < width

/-- `term_fb` and `term_font`. -/
structure Screen where
  fb : Framebuffer
  font : PsfFont

/-- `term_fg`. -/
def termFg : UInt32 := 0xFFFFFFFF

/-- `term_bg`. -/
def termBg : UInt32 := 0

/-- A byte of `tty_buffer`, by row and column, or a pixel passed to `fb_putpixel`. -/
inductive Access
  | cell (r c : ℕ)
  | pixel (x y : ℕ)
  deriving DecidableEq

/-- The static variables of `tty.c`, the framebuffer's memory, and the accesses made. -/
structure Terminal where
  buffer : ℕ → UInt8
  ttyRow : ℕ
  viewRow : ℕ
  cols : ℕ
  rows : ℕ
  termCx : ℕ
  pixels : ℕ → UInt32
  log : List Access

/-- `tty_buffer[r][c]`. -/
def Terminal.cell (s : Terminal) (r c : ℕ) : UInt8 := s.buffer (r * rowSize + c)

/-- Store to `tty_buffer[r][c]`. -/
def Terminal.setCell (r c : ℕ) (v : UInt8) (s : Terminal) : Terminal :=
  { s with
    buffer := fun i => if i = r * rowSize + c then v else s.buffer i
    log := s.log ++ [.cell r c] }

/-- `a - b` on `uint32_t`. -/
def sub32 (a b : ℕ) : ℕ := (a + uint32Size - b) % uint32Size

/-- The index of a pixel in `fb->addr`. -/
def Framebuffer.index (fb : Framebuffer) (x y : ℕ) : ℕ := (y * (fb.pitch / 4) + x) % 2 ^ 64

/-- `fb_putpixel`. -/
def fbPutpixel (fb : Framebuffer) (x y : ℕ) (color : UInt32) (s : Terminal) : Terminal :=
  { s with
    pixels := fun i => if i = fb.index x y then color else s.pixels i
    log := s.log ++ [.pixel x y] }

/-- `fb_fill_rect`. -/
def fbFillRect (fb : Framebuffer) (x y w h : ℕ) (color : UInt32) : Terminal → Terminal :=
  forRange h fun row => forRange w fun col => fbPutpixel fb (x + col) (y + row) color

/-- `fb_clear`. -/
def fbClear (fb : Framebuffer) (color : UInt32) : Terminal → Terminal :=
  fbFillRect fb 0 0 fb.width fb.height color

/-- The colour of a pixel of a glyph. -/
def glyphColor (font : PsfFont) (c : UInt8) (col row : ℕ) : UInt32 :=
  let bytesPerLine := (font.width + 7) % uint32Size / 8
  let c := if c.toNat ≥ font.numglyph then 0 else c.toNat
  let byte := font.glyphs (c * font.bytesperglyph % uint32Size + (row * bytesPerLine + col / 8) % uint32Size)
  if byte.toNat &&& (0x80 >>> (col % 8)) ≠ 0 then termFg else termBg

/-- `draw_glyph`. -/
def drawGlyph (scr : Screen) (c : UInt8) (px py : ℕ) : Terminal → Terminal :=
  forRange scr.font.height fun row => forRange scr.font.width fun col =>
    fbPutpixel scr.fb (px + col) (py + row) (glyphColor scr.font c col row)

/-- `draw_glyph` at a cell of the screen, whose place is computed on `uint32_t`. -/
def drawCell (scr : Screen) (c : UInt8) (col row : ℕ) : Terminal → Terminal :=
  drawGlyph scr c (col * scr.font.width % uint32Size) (row * scr.font.height % uint32Size)

/-- The body of the loop of `tty_redraw`: a cell of row `bufRow` is read, and drawn if not zero. -/
def redrawCell (scr : Screen) (bufRow row col : ℕ) (s : Terminal) : Terminal :=
  let c := s.cell bufRow col
  let s := { s with log := s.log ++ [.cell bufRow col] }
  if c = 0 then s else drawCell scr c col row s

/-- `buf_row`. -/
def Terminal.bufRow (s : Terminal) (row : ℕ) : ℕ := (s.viewRow + row) % uint32Size % maxRows

/-- `tty_redraw`. -/
def ttyRedraw (scr : Screen) (s : Terminal) : Terminal :=
  forRange s.rows (fun row => forRange s.cols (redrawCell scr (s.bufRow row) row))
    (fbClear scr.fb termBg s)

/-- `tty_init`, over a framebuffer that holds `pixels`. -/
def ttyInit (scr : Screen) (pixels : ℕ → UInt32) : Terminal :=
  fbClear scr.fb termBg
    { buffer := fun _ => 0
      ttyRow := 0
      viewRow := 0
      cols := scr.fb.width / scr.font.width % uint32Size
      rows := scr.fb.height / scr.font.height % uint32Size
      termCx := 0
      pixels := pixels
      log := [] }

/-- `tty_scroll_down`. -/
def ttyScrollDown (scr : Screen) (s : Terminal) : Terminal :=
  if (s.viewRow + s.rows) % uint32Size < s.ttyRow then
    ttyRedraw scr { s with viewRow := (s.viewRow + 1) % uint32Size }
  else s

/-- `tty_scroll_up`. -/
def ttyScrollUp (scr : Screen) (s : Terminal) : Terminal :=
  if s.viewRow > 0 then ttyRedraw scr { s with viewRow := s.viewRow - 1 } else s

/-- `tty_buffer[tty_row % MAX_ROWS][term_cx] = c`, drawn if the row is on the screen. -/
def Terminal.putCell (scr : Screen) (c : UInt8) (s : Terminal) : Terminal :=
  let s := s.setCell (s.ttyRow % maxRows) s.termCx c
  let visRow := sub32 s.ttyRow s.viewRow
  if visRow < s.rows then drawCell scr c s.termCx visRow s else s

/-- `memset(tty_buffer[tty_row % MAX_ROWS], 0, cols)`. -/
def Terminal.clearRow (s : Terminal) : Terminal :=
  forRange s.cols (fun col => Terminal.setCell (s.ttyRow % maxRows) col 0) s

/-- `'\b'`. -/
abbrev backspace : UInt8 := 8

/-- `'\n'`. -/
abbrev newline : UInt8 := 10

/-- `'\r'`. -/
abbrev carriageReturn : UInt8 := 13

/-- `' '`. -/
abbrev space : UInt8 := 32

/-- The branch of `tty_putchar` for `'\n'`. -/
def putNewline (scr : Screen) (s : Terminal) : Terminal :=
  let s := Terminal.clearRow { s with ttyRow := (s.ttyRow + 1) % uint32Size, termCx := 0 }
  if sub32 s.ttyRow s.viewRow ≥ s.rows then
    ttyRedraw scr { s with viewRow := (s.viewRow + 1) % uint32Size }
  else s

/-- `tty_putchar`. -/
def ttyPutchar (scr : Screen) (c : UInt8) (s : Terminal) : Terminal :=
  if c = newline then putNewline scr s
  else if c = carriageReturn then { s with termCx := 0 }
  else if c = backspace then
    if s.termCx > 0 then Terminal.putCell scr space { s with termCx := s.termCx - 1 } else s
  else if s.termCx < s.cols then
    let s := s.putCell scr c
    { s with termCx := s.termCx + 1 }
  else s

/-- `tty_clear`. -/
def ttyClear (scr : Screen) (s : Terminal) : Terminal :=
  fbClear scr.fb termBg { s with buffer := fun _ => 0, ttyRow := 0, viewRow := 0, termCx := 0 }

/-- A call of the terminal. -/
inductive TtyOp
  | putchar (c : UInt8)
  | scrollUp
  | scrollDown
  | clear
  deriving DecidableEq

/-- The effect of a call. -/
def TtyOp.exec (scr : Screen) : TtyOp → Terminal → Terminal
  | .putchar c => ttyPutchar scr c
  | .scrollUp => ttyScrollUp scr
  | .scrollDown => ttyScrollDown scr
  | .clear => ttyClear scr

/-- A sequence of calls. -/
def ttyRun (scr : Screen) (ops : List TtyOp) (s : Terminal) : Terminal := ops.foldl (fun s op => op.exec scr s) s

end Flos.Tty
