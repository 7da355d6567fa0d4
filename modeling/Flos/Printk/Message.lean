import Mathlib.Data.List.GetD
import Mathlib.Data.List.TakeDrop
import Flos.Printk.Log
import Flos.Tty.Terminal

/-!
# Printing a message

`printk` formats a message into 256 bytes on its stack, copies it to the log and flushes the log to the
terminal. How many bytes it copies is the length that the formatter returns, which is that of the whole
message, whether it fitted or not.
-/

namespace Flos.Printk

open Flos.Lib Flos.Tty

/-- What `vsnprintf(temp, 256, format, ptr)` returns and leaves for a message: the length of the message,
and its first 255 characters with a NUL behind them. The memory behind `temp` holds anything. -/
structure Formatted (text : List UInt8) where
  len : ℤ
  temp : ℕ → UInt8
  len_eq : len = text.length
  stored : ∀ i (h : i < (text.take 255).length), temp i = (text.take 255)[i]
  terminated : temp (text.take 255).length = 0

/-- The loop of `printk` from byte `i` on, with `n` iterations left: the places of `temp` that it reads, and
the log. -/
def copyBytes (temp : ℕ → UInt8) : (n i : ℕ) → PrintkLog → List ℕ × PrintkLog
  | 0, _, log => ([], log)
  | n + 1, i, log =>
    let r := copyBytes temp n (i + 1) (appendByte log (temp i))
    (i :: r.1, r.2)

/-- `printk` up to the flush. -/
def printkCopy {text : List UInt8} (f : Formatted text) (log : PrintkLog) : List ℕ × PrintkLog :=
  if f.len ≤ 0 then ([], log) else copyBytes f.temp f.len.toNat 0 log

/-- `tty_write`. -/
def ttyWrite (scr : Screen) (data : List UInt8) (s : Terminal) : Terminal :=
  data.foldl (fun s c => ttyPutchar scr c s) s

/-- The loop of `tty_flush`, with at most `fuel` iterations left. -/
def ttyFlushLoop (scr : Screen) : (fuel : ℕ) → PrintkLog → Terminal → PrintkLog × Terminal
  | 0, log, s => (log, s)
  | fuel + 1, log, s =>
    let r := printkReadBuf 128 log
    if r.1.length > 0 then ttyFlushLoop scr fuel r.2 (ttyWrite scr r.1 s) else (r.2, s)

/-- `tty_flush`. Each iteration but the last takes a byte, so one for each place of the log is enough. -/
def ttyFlush (scr : Screen) (log : PrintkLog) (s : Terminal) : PrintkLog × Terminal :=
  ttyFlushLoop scr printkBufSize log s

/-- `printk`. -/
def printk (scr : Screen) {text : List UInt8} (f : Formatted text) (log : PrintkLog) (s : Terminal) :
    PrintkLog × Terminal :=
  if f.len ≤ 0 then (log, s) else ttyFlush scr (printkCopy f log).2 s

/-- `printk` logs the first 255 characters of the message and reads nothing behind them. -/
def LogsMessage {text : List UInt8} (f : Formatted text) (log : PrintkLog) : Prop :=
  (∀ i ∈ (printkCopy f log).1, i < (text.take 255).length) ∧
    (printkCopy f log).2 = (text.take 255).foldl appendByte log

variable {text : List UInt8} {f : Formatted text} {log : PrintkLog} {scr : Screen} {s : Terminal}

/-! ## Copying -/

/-- The loop reads the places in order and appends their bytes. -/
theorem copyBytes_eq (temp : ℕ → UInt8) (n i : ℕ) (log : PrintkLog) :
    copyBytes temp n i log =
      (List.range' i n, ((List.range' i n).map temp).foldl appendByte log) := by
  induction n generalizing i log with
  | zero => rfl
  | succ n ih =>
    rw [copyBytes, ih]
    rfl

/-- `printk` reads as many bytes as the message has. -/
theorem printkCopy_eq (f : Formatted text) (log : PrintkLog) :
    printkCopy f log =
      (List.range text.length, ((List.range text.length).map f.temp).foldl appendByte log) := by
  rw [printkCopy, f.len_eq]
  split
  next hzero =>
    have hnil : text.length = 0 := by omega
    rw [hnil]
    rfl
  next => rw [copyBytes_eq, Int.toNat_natCast, List.range_eq_range']

/-- A message that fits is in the buffer. -/
theorem Formatted.map_temp (f : Formatted text) (h : text.length ≤ 255) :
    (List.range text.length).map f.temp = text := by
  have htake : text.take 255 = text := List.take_of_length_le h
  refine List.ext_getElem (by simp) fun i h1 h2 => ?_
  rw [List.getElem_map, List.getElem_range, f.stored i (by rwa [htake])]
  simp only [htake]

/-- Of a longer message `printk` reads what is behind the characters. -/
theorem not_logsMessage (f : Formatted text) (log : PrintkLog) (hlong : 255 < text.length) :
    ¬ LogsMessage f log := by
  rintro ⟨hreads, -⟩
  rw [printkCopy_eq] at hreads
  have hread := hreads 255 (List.mem_range.mpr hlong)
  rw [List.length_take] at hread
  omega

/-- `printk` logs exactly what was formatted if and only if the message has at most 255 characters. -/
theorem printk_logsMessage_iff (f : Formatted text) (log : PrintkLog) :
    LogsMessage f log ↔ text.length ≤ 255 := by
  constructor
  · intro h
    by_contra hlong
    exact not_logsMessage f log (not_le.mp hlong) h
  · intro h
    rw [LogsMessage, printkCopy_eq, f.map_temp h, List.take_of_length_le h]
    exact ⟨fun i hi => List.mem_range.mp hi, rfl⟩

/-- A message behind which `temp` is followed by zeros. -/
def formatted (text : List UInt8) : Formatted text where
  len := text.length
  temp i := (text.take 255).getD i 0
  len_eq := rfl
  stored i h := by rw [List.getD_eq_getElem _ _ h]
  terminated := by rw [List.getD_eq_default _ _ le_rfl]

/-- Of a message with 256 characters, `printk` reads and logs the NUL that ends the buffer. -/
theorem printk_readsTerminator : ¬ LogsMessage (formatted (List.replicate 256 65)) PrintkLog.init :=
  not_logsMessage _ _ (by rw [List.length_replicate]; decide)

/-! ## Flushing -/

/-- Writing is writing one part behind the other. -/
theorem ttyWrite_append (data data' : List UInt8) (s : Terminal) :
    ttyWrite scr (data ++ data') s = ttyWrite scr data' (ttyWrite scr data s) := List.foldl_append

/-- With an iteration for each byte and one more, the loop writes the whole log. -/
theorem ttyFlushLoop_spec (fuel : ℕ) (h : log.Valid) (hfuel : log.queue.length < fuel) :
    ∃ log', ttyFlushLoop scr fuel log s = (log', ttyWrite scr log.queue s) ∧ HoldsQueue log' [] := by
  induction fuel generalizing log s with
  | zero => omega
  | succ fuel ih =>
    obtain ⟨hvalid, htaken, hleft⟩ := readBytes_spec 128 h
    rw [ttyFlushLoop, printkReadBuf, htaken]
    split
    next hmore =>
      have hlen : (readBytes 128 log).2.queue.length < fuel := by
        rw [List.length_take] at hmore
        rw [hleft, List.length_drop]
        omega
      obtain ⟨log', hrun, hempty⟩ := ih hvalid hlen
      refine ⟨log', ?_, hempty⟩
      rw [hrun, hleft, ← ttyWrite_append, List.take_append_drop]
    next hdone =>
      have hnil : log.queue = [] := by
        rw [List.length_take] at hdone
        exact List.length_eq_zero_iff.mp (by omega)
      refine ⟨_, ?_, hvalid, by rw [hleft, hnil]; rfl⟩
      rw [hnil]
      rfl

/-- `tty_flush` writes the log to the terminal, oldest byte first, and leaves it empty. -/
theorem ttyFlush_spec (h : log.Valid) :
    ∃ log', ttyFlush scr log s = (log', ttyWrite scr log.queue s) ∧ HoldsQueue log' [] := by
  refine ttyFlushLoop_spec printkBufSize h ?_
  exact Lib.Ring.contents_length.trans_lt (Lib.Ring.Valid.length_lt h)

/-- Bytes that fit are appended to an empty log as they are. -/
theorem foldl_appendByte (data : List UInt8) {q : List UInt8} (h : HoldsQueue log q)
    (hroom : q.length + data.length < printkBufSize) :
    HoldsQueue (data.foldl appendByte log) (q ++ data) := by
  induction data generalizing log q with
  | nil => rwa [List.append_nil]
  | cons byte data ih =>
    rw [List.length_cons] at hroom
    obtain ⟨hvalid, hqueue⟩ := appendByte_spec h.1 byte
    have hlt : q.length ≠ printkBufSize - 1 := by omega
    rw [h.2, pushDropping, if_neg hlt] at hqueue
    rw [List.append_cons]
    exact ih ⟨hvalid, hqueue⟩ (by rw [List.length_append, List.length_singleton]; omega)

/-- A message that fits is shown on the terminal, and the log is empty again. -/
theorem printk_shows (f : Formatted text) (h : HoldsQueue log []) (hfits : text.length ≤ 255) :
    ∃ log', printk scr f log s = (log', ttyWrite scr text s) ∧ HoldsQueue log' [] := by
  rw [printk, f.len_eq]
  split
  next hzero =>
    have hnil : text = [] := List.length_eq_zero_iff.mp (by omega)
    exact ⟨log, by rw [hnil]; rfl, h⟩
  next =>
    have hsize : ([] : List UInt8).length + text.length < printkBufSize := by
      rw [List.length_nil, printkBufSize]
      omega
    obtain ⟨hvalid, hqueue⟩ := foldl_appendByte text h hsize
    rw [printkCopy_eq, f.map_temp hfits]
    obtain ⟨log', hrun, hempty⟩ := @ttyFlush_spec _ scr s hvalid
    rw [hqueue, List.nil_append] at hrun
    exact ⟨log', hrun, hempty⟩

end Flos.Printk
