import Flos.Lib.Ring
import Flos.Lib.Runs

/-!
# The kernel log

`printk` appends the bytes of a message to a ring, and `printk_read_buf` takes bytes from it. The ring is a
queue of at most 8191 bytes that loses its oldest byte when another one is appended to a full queue.
-/

namespace Flos.Printk

open Flos.Lib

/-- `PRINTK_BUF_SIZE`. -/
abbrev printkBufSize : ℕ := 8192

/-- `string_buffer`, `log_head` and `log_tail`. -/
structure PrintkLog where
  stringBuffer : ℕ → UInt8
  logHead : ℕ
  logTail : ℕ

/-- The empty log. -/
def PrintkLog.init : PrintkLog := ⟨fun _ => 0, 0, 0⟩

/-- The body of the loop of `printk`. -/
def appendByte (log : PrintkLog) (byte : UInt8) : PrintkLog :=
  let next := (log.logHead + 1) % printkBufSize
  let logTail := if next = log.logTail then (log.logTail + 1) % printkBufSize else log.logTail
  { stringBuffer := Function.update log.stringBuffer log.logHead byte, logHead := next, logTail }

/-- The loop of `printk_read_buf` with at most `n` iterations left: the bytes that it stores. -/
def readBytes : (n : ℕ) → PrintkLog → List UInt8 × PrintkLog
  | 0, log => ([], log)
  | n + 1, log =>
    if log.logTail = log.logHead then ([], log)
    else
      let r := readBytes n { log with logTail := (log.logTail + 1) % printkBufSize }
      (log.stringBuffer log.logTail :: r.1, r.2)

/-- `printk_read_buf`: the bytes stored in `out`, of which it returns the number. -/
def printkReadBuf (max : ℕ) (log : PrintkLog) : List UInt8 × PrintkLog := readBytes max log

/-- A use of the log. -/
inductive LogOp
  | append (byte : UInt8)
  | read (max : ℕ)
  deriving DecidableEq, Repr

/-- What a use of the log returns and leaves. -/
def LogOp.exec (log : PrintkLog) : LogOp → List UInt8 × PrintkLog
  | .append byte => ([], appendByte log byte)
  | .read max => printkReadBuf max log

/-- What the log is for: a queue that holds at most 8191 bytes and drops the oldest. -/
def LogOp.execQueue (q : List UInt8) : LogOp → List UInt8 × List UInt8
  | .append byte => ([], pushDropping (printkBufSize - 1) q byte)
  | .read max => (q.take max, q.drop max)

/-- The ring of the log. -/
def PrintkLog.ring (log : PrintkLog) : Lib.Ring UInt8 := ⟨log.stringBuffer, log.logHead, log.logTail⟩

/-- The bytes in the log, oldest first. -/
def PrintkLog.queue (log : PrintkLog) : List UInt8 := log.ring.contents printkBufSize

/-- Both indices stay in the buffer. -/
def PrintkLog.Valid (log : PrintkLog) : Prop := log.ring.Valid printkBufSize

variable {log : PrintkLog}

/-- An append is one of the queue. -/
theorem appendByte_spec (h : log.Valid) (byte : UInt8) :
    (appendByte log byte).Valid ∧
      (appendByte log byte).queue = pushDropping (printkBufSize - 1) log.queue byte :=
  Lib.Ring.Valid.contents_push h (by decide) byte

/-- A read takes the oldest bytes. -/
theorem readBytes_spec (n : ℕ) (h : log.Valid) :
    (readBytes n log).2.Valid ∧ (readBytes n log).1 = log.queue.take n ∧
      (readBytes n log).2.queue = log.queue.drop n := by
  induction n generalizing log with
  | zero => exact ⟨h, rfl, rfl⟩
  | succ n ih =>
    rw [readBytes]
    split
    next heq =>
      have hnil : log.queue = [] := (Lib.Ring.Valid.contents_eq_nil h).mpr heq
      rw [hnil]
      exact ⟨h, rfl, rfl⟩
    next hne =>
      obtain ⟨hvalid, hcontents⟩ := Lib.Ring.Valid.contents_advance h hne
      obtain ⟨hvalid', htaken, hleft⟩ := @ih { log with logTail := (log.logTail + 1) % printkBufSize } hvalid
      have hqueue : log.queue = log.stringBuffer log.logTail ::
          PrintkLog.queue { log with logTail := (log.logTail + 1) % printkBufSize } := hcontents
      rw [hqueue, List.take_succ_cons, List.drop_succ_cons]
      exact ⟨hvalid', congrArg _ htaken, hleft⟩

/-- The log holds the bytes of a queue. -/
def HoldsQueue (log : PrintkLog) (q : List UInt8) : Prop := log.Valid ∧ log.queue = q

/-- Every use of the log is one of the queue. -/
theorem HoldsQueue.exec {q : List UInt8} (h : HoldsQueue log q) (op : LogOp) :
    (op.exec log).1 = (op.execQueue q).1 ∧ HoldsQueue (op.exec log).2 (op.execQueue q).2 := by
  obtain ⟨hvalid, rfl⟩ := h
  cases op with
  | append byte => exact ⟨rfl, appendByte_spec hvalid byte⟩
  | read max =>
    obtain ⟨hvalid', htaken, hleft⟩ := readBytes_spec max hvalid
    exact ⟨htaken, hvalid', hleft⟩

/-- The empty log is an empty queue. -/
theorem holdsQueue_init : HoldsQueue PrintkLog.init [] := by
  have hvalid : PrintkLog.init.Valid := ⟨by decide, by decide⟩
  exact ⟨hvalid, (Lib.Ring.Valid.contents_eq_nil hvalid).mpr rfl⟩

/-- The log is a drop-oldest queue: from the empty log, in every state that appends and reads lead to, both
indices are in the buffer, the bytes in the log are those of the queue after the same uses, and every read
has returned what the queue returned. -/
theorem printk_run_refinesQueue (ops : List LogOp) :
    (outputs LogOp.exec PrintkLog.init ops).2.logHead < printkBufSize ∧
      (outputs LogOp.exec PrintkLog.init ops).2.logTail < printkBufSize ∧
      (outputs LogOp.exec PrintkLog.init ops).1 = (outputs LogOp.execQueue [] ops).1 ∧
      (outputs LogOp.exec PrintkLog.init ops).2.queue = (outputs LogOp.execQueue [] ops).2 := by
  obtain ⟨houts, ⟨hhead, htail⟩, hqueue⟩ :=
    outputs_simulation HoldsQueue (fun _ _ op h => h.exec op) holdsQueue_init ops
  exact ⟨hhead, htail, houts, hqueue⟩

end Flos.Printk
