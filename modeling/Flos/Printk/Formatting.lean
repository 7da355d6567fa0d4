import Flos.Kprintf.Texts
import Flos.Printk.Message

/-!
# Formatting a message

`printk` with the formatter itself: a format and its arguments are printed into the 256 bytes on the stack,
whatever these held before, and what `vsnprintf` returns decides how many of them are logged.
-/

namespace Flos.Printk

open Flos.Lib Flos.Tty Flos.Kprintf

/-- A call of `printk`, and what is in the memory of `temp` before. -/
structure PrintkCall where
  format : CString
  va : VaList
  temp : ℕ → UInt8

/-- The text that a call formats. -/
def PrintkCall.text (strAt : BitVec 64 → Option CString) (call : PrintkCall) : Option (List UInt8) :=
  formatText strAt call.format.chars call.va

/-- `printk` from its format on. -/
def printkFormat (scr : Screen) (strAt : BitVec 64 → Option CString) (call : PrintkCall) (log : PrintkLog)
    (s : Terminal) : Option (PrintkLog × Terminal) := do
  let (buffer, len) ← vsnprintf_ strAt (some call.temp) 256 call.format call.va
  let temp ← buffer
  if len ≤ 0 then some (log, s) else some (ttyFlush scr (copyBytes temp len.toNat 0 log).2 s)

/-- Calls of `printk`, one after the other. -/
def printkCalls (scr : Screen) (strAt : BitVec 64 → Option CString) :
    List PrintkCall → PrintkLog → Terminal → Option (PrintkLog × Terminal)
  | [], log, s => some (log, s)
  | call :: calls, log, s =>
    (printkFormat scr strAt call log s).bind fun r => printkCalls scr strAt calls r.1 r.2

variable {scr : Screen} {strAt : BitVec 64 → Option CString} {log : PrintkLog} {s : Terminal}

/-- What `vsnprintf` returns and leaves for a text whose length is an `int`. -/
def formattedText (temp : ℕ → UInt8) (text : List UInt8) (hlen : text.length < 2 ^ 31) : Formatted text where
  len := (BitVec.ofNat 32 text.length).toInt
  temp := overwrite temp (storedBytes 256 text)
  len_eq := by
    rw [BitVec.toInt_eq_toNat_cond, BitVec.toNat_ofNat, Nat.mod_eq_of_lt (by omega), if_pos (by omega)]
  stored i h := by
    rw [overwrite, storedBytes, if_neg (by decide), List.getD_append _ _ _ _ h, List.getD_eq_getElem _ _ h]
  terminated := by
    rw [overwrite, storedBytes, if_neg (by decide), List.getD_append_right _ _ _ _ le_rfl, Nat.sub_self]
    rfl

/-- `printk` logs and flushes what `vsnprintf` has formatted. -/
theorem printkFormat_eq {call : PrintkCall} {text : List UInt8} (htext : call.text strAt = some text)
    (hlen : text.length < 2 ^ 31) :
    printkFormat scr strAt call log s = some (printk scr (formattedText call.temp text hlen) log s) := by
  have hprint : vsnprintf_ strAt (some call.temp) 256 call.format call.va =
      some (some (formattedText call.temp text hlen).temp, (formattedText call.temp text hlen).len) := by
    rw [vsnprintf_buffer (by decide)]
    exact congrArg (Option.map _) htext
  rw [printkFormat, hprint, printk, printkCopy]
  simp only [Option.bind_eq_bind, Option.bind_some]
  split
  next => rfl
  next => rfl

/-- From an empty log on, every sequence of calls whose texts have at most 255 characters each shows the
texts on the terminal, one behind the other, and leaves the log empty. -/
theorem printkCalls_show {calls : List PrintkCall} {texts : List (List UInt8)}
    (h : List.Forall₂ (fun call text => call.text strAt = some text ∧ text.length ≤ 255) calls texts)
    (hlog : HoldsQueue log []) :
    ∃ log', printkCalls scr strAt calls log s = some (log', ttyWrite scr texts.flatten s) ∧
      HoldsQueue log' [] := by
  induction h generalizing log s with
  | nil => exact ⟨log, rfl, hlog⟩
  | @cons call text calls texts hcall hcalls ih =>
    obtain ⟨log₁, hrun, hempty⟩ :=
      @printk_shows text log scr s (formattedText call.temp text (by omega)) hlog hcall.2
    obtain ⟨log', hrest, hempty'⟩ := ih (s := ttyWrite scr text s) hempty
    refine ⟨log', ?_, hempty'⟩
    rw [printkCalls, printkFormat_eq hcall.1 (by omega), hrun, Option.bind_some, hrest, List.flatten_cons,
      ttyWrite_append]

/-- A framebuffer of 640 × 480 pixels with a font of 10 × 20. -/
def vgaScreen : Screen where
  fb := ⟨640, 480, 2560⟩
  font := ⟨256, 40, 20, 10, fun _ => 0xFF, by decide, by decide⟩

/-- `cpu %u: %s` and `%#x`, with a string at address 8. -/
theorem printkCalls_show_twoCalls :
    ∃ log', printkCalls vgaScreen
        (fun p => if p = 8 then some ⟨bytes ['u', 'p'], by decide, by decide⟩ else none)
        [⟨⟨bytes ['c', 'p', 'u', ' ', '%', 'u', ':', ' ', '%', 's'], by decide, by decide⟩, [3, 8], fun _ => 0⟩,
          ⟨⟨bytes ['%', '#', 'x'], by decide, by decide⟩, [255], fun _ => 0⟩]
        PrintkLog.init (ttyInit vgaScreen fun _ => 0) =
      some (log', ttyWrite vgaScreen
        (bytes ['c', 'p', 'u', ' ', '3', ':', ' ', 'u', 'p', '0', 'x', 'f', 'f'])
        (ttyInit vgaScreen fun _ => 0)) ∧ HoldsQueue log' [] :=
  @printkCalls_show _ _ _ _ _
    [bytes ['c', 'p', 'u', ' ', '3', ':', ' ', 'u', 'p'], bytes ['0', 'x', 'f', 'f']]
    (.cons ⟨by decide +kernel, by decide⟩ (.cons ⟨by decide +kernel, by decide⟩ .nil)) holdsQueue_init

end Flos.Printk
