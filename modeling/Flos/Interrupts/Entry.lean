import Mathlib.Algebra.Group.Nat.Defs
import Mathlib.Data.List.GetD
import Mathlib.Logic.Function.Basic
import Mathlib.Tactic.Common

/-!
# Interrupt entry and exit

What happens between an instruction of the interrupted code and `interrupt_handler`, and on the way back: the
processor delivers the interrupt on a stack, the stub of the vector pushes what is missing, `_isr_handler`
saves the registers below it and passes the address of the whole as a `struct interrupt_frame`; at the end it
restores them and executes `iretq`. Stacks lie far from the ends of the address space, so addresses are
natural numbers; accesses are to aligned words.
-/

namespace Flos.Interrupts

/-- The general registers. -/
inductive Register where
  | rax | rbx | rcx | rdx | rsi | rdi | rbp | r8 | r9 | r10 | r11 | r12 | r13 | r14 | r15 | rsp
deriving DecidableEq, Repr

/-- What an interrupt has to preserve. -/
structure Context where
  regs : Register → ℕ
  rip : ℕ
  cs : ℕ
  rflags : ℕ
  ss : ℕ

/-- `IF`: interrupts are enabled. -/
def Context.interrupts (c : Context) : Bool := c.rflags.testBit 9

/-- A processor, with the words of the memory by address. `rsp0` is that of the task state segment. -/
structure Processor extends Context where
  mem : ℕ → ℕ
  rsp0 : ℕ

/-- `struct interrupt_frame`. -/
structure InterruptFrame extends Context where
  intNo : ℕ
  errorCode : ℕ

/-- The offsets of the registers in `struct interrupt_frame`. -/
def frameOffset : Register → ℕ
  | .rax => 0
  | .rbx => 8
  | .rcx => 16
  | .rdx => 24
  | .rsi => 32
  | .rdi => 40
  | .rbp => 48
  | .r8 => 56
  | .r9 => 64
  | .r10 => 72
  | .r11 => 80
  | .r12 => 88
  | .r13 => 96
  | .r14 => 104
  | .r15 => 112
  | .rsp => 160

/-- The size of `struct interrupt_frame`. -/
def frameSize : ℕ := 176

/-- The `struct interrupt_frame` at an address. -/
def frameAt (mem : ℕ → ℕ) (frame : ℕ) : InterruptFrame where
  regs r := mem (frame + frameOffset r)
  intNo := mem (frame + 120)
  errorCode := mem (frame + 128)
  rip := mem (frame + 136)
  cs := mem (frame + 144)
  rflags := mem (frame + 152)
  ss := mem (frame + 168)

/-! ## Instructions -/

/-- The instructions of the stubs, `pusha64`, `popa64` and `_isr_handler`. -/
inductive Instr where
  | push (r : Register)
  | pushImm (n : ℕ)
  | pop (r : Register)
  | movRdiRsp
  | addRsp (n : ℕ)
  | cld
  | iretq
deriving DecidableEq, Repr

namespace Processor

/-- A register is written. -/
def setReg (p : Processor) (r : Register) (v : ℕ) : Processor := { p with regs := Function.update p.regs r v }

/-- A word is pushed. -/
def pushWord (p : Processor) (v : ℕ) : Processor :=
  { p with
    regs := Function.update p.regs .rsp (p.regs .rsp - 8)
    mem := Function.update p.mem (p.regs .rsp - 8) v }

/-- The code at the instruction pointer runs in ring 3. -/
def user (p : Processor) : Bool := p.cs % 4 = 3

end Processor

/-- Flags are cleared in `RFLAGS`. -/
def clearFlags (flags rflags : ℕ) : ℕ := rflags &&& (2 ^ 64 - 1 - flags)

/-- `DF`. -/
def directionFlag : ℕ := 1 <<< 10

/-- `TF`, `IF`, `NT`, `RF` and `VM`, which an interrupt gate clears. -/
def gateFlags : ℕ := 1 <<< 8 ||| 1 <<< 9 ||| 1 <<< 14 ||| 1 <<< 16 ||| 1 <<< 17

/-- What an instruction does. -/
def Instr.exec (p : Processor) : Instr → Processor
  | .push r => p.pushWord (p.regs r)
  | .pushImm n => p.pushWord n
  | .pop r => (p.setReg .rsp (p.regs .rsp + 8)).setReg r (p.mem (p.regs .rsp))
  | .movRdiRsp => p.setReg .rdi (p.regs .rsp)
  | .addRsp n => p.setReg .rsp (p.regs .rsp + n)
  | .cld => { p with rflags := clearFlags directionFlag p.rflags }
  | .iretq =>
    let sp := p.regs .rsp
    { p with
      regs := Function.update p.regs .rsp (p.mem (sp + 24))
      rip := p.mem sp
      cs := p.mem (sp + 8)
      rflags := p.mem (sp + 16)
      ss := p.mem (sp + 32) }

/-- What a sequence of instructions does. -/
def execAll (code : List Instr) (p : Processor) : Processor := code.foldl Instr.exec p

/-- The registers in the order in which `pusha64` pushes them. -/
def savedRegisters : List Register :=
  [.r15, .r14, .r13, .r12, .r11, .r10, .r9, .r8, .rbp, .rdi, .rsi, .rdx, .rcx, .rbx, .rax]

/-- `pusha64`. -/
def pusha64 : List Instr := savedRegisters.map .push

/-- `popa64`. -/
def popa64 : List Instr :=
  [.pop .rax, .pop .rbx, .pop .rcx, .pop .rdx, .pop .rsi, .pop .rdi, .pop .rbp, .pop .r8, .pop .r9, .pop .r10,
    .pop .r11, .pop .r12, .pop .r13, .pop .r14, .pop .r15]

/-- The vectors with an `isr_err_stub`. -/
def hasErrStub (vector : ℕ) : Bool := vector ∈ [8, 10, 11, 12, 13, 14, 17, 30]

/-- `isr_stub_*`, before its jump. -/
def isrStub (vector : ℕ) : List Instr :=
  if hasErrStub vector then [.pushImm vector] else [.pushImm 0, .pushImm vector]

/-- `_isr_handler` up to the call of `interrupt_handler`. -/
def isrHandlerEntry : List Instr := pusha64 ++ [.cld, .movRdiRsp]

/-- `_isr_handler` behind the call. -/
def isrHandlerExit : List Instr := popa64 ++ [.addRsp 16, .iretq]

/-! ## Delivery -/

/-- The stack on which an interrupt is delivered: that of the task state segment from ring 3, else the
current one. -/
def entryStack (p : Processor) : ℕ := if p.user then p.rsp0 else p.regs .rsp

/-- The end of the frame: the processor aligns the stack. -/
def frameEnd (p : Processor) : ℕ := entryStack p / 16 * 16

/-- Pushes words, one after the other. -/
def pushAll (words : List ℕ) (p : Processor) : Processor := words.foldl Processor.pushWord p

/-- What the processor does to deliver an interrupt through a gate for code at `handler` in the segment
`kernelCs`, with an error code for some exceptions. -/
def deliver (kernelCs handler : ℕ) (errorCode : Option ℕ) (p : Processor) : Processor :=
  let q := pushAll ([p.ss, p.regs .rsp, p.rflags, p.cs, p.rip] ++ errorCode.toList)
    (p.setReg .rsp (frameEnd p))
  { q with
    cs := kernelCs
    ss := if p.user then 0 else p.ss
    rflags := clearFlags gateFlags p.rflags
    rip := handler }

/-- An interrupt up to the call of `interrupt_handler`. -/
def interruptEntry (kernelCs handler vector : ℕ) (errorCode : Option ℕ) (p : Processor) : Processor :=
  execAll isrHandlerEntry (execAll (isrStub vector) (deliver kernelCs handler errorCode p))

/-- An interrupt from the return of `interrupt_handler` on. -/
def interruptExit (p : Processor) : Processor := execAll isrHandlerExit p

/-- The words that a stub pushes. -/
def stubWords (vector : ℕ) : List ℕ := if hasErrStub vector then [vector] else [0, vector]

/-- The context in which `interrupt_handler` is called, with a frame at an address. -/
def entryContext (kernelCs handler frame : ℕ) (user : Bool) (c : Context) : Context where
  regs := Function.update (Function.update c.regs .rsp frame) .rdi frame
  rip := handler
  cs := kernelCs
  rflags := clearFlags directionFlag (clearFlags gateFlags c.rflags)
  ss := if user then 0 else c.ss

variable {p : Processor} {kernelCs handler vector : ℕ} {errorCode : Option ℕ}

/-! ## Pushing -/

/-- Pushing words stores them downwards, and changes nothing else. -/
theorem pushAll_eq (words : List ℕ) (hroom : 8 * words.length ≤ p.regs .rsp) :
    ∃ mem, pushAll words p =
        { p with
          regs := Function.update p.regs .rsp (p.regs .rsp - 8 * words.length)
          mem := mem } ∧
      (∀ i (hi : i < words.length), mem (p.regs .rsp - 8 * (i + 1)) = words.get ⟨i, hi⟩) ∧
      ∀ a, a < p.regs .rsp - 8 * words.length ∨ p.regs .rsp ≤ a → mem a = p.mem a := by
  induction words generalizing p with
  | nil =>
    refine ⟨p.mem, ?_, fun i hi => absurd hi (Nat.not_lt_zero i), fun _ _ => rfl⟩
    rw [List.length_nil, Nat.mul_zero, Nat.sub_zero, Function.update_eq_self]
    rfl
  | cons w words ih =>
    rw [List.length_cons] at hroom
    have hrsp : (p.pushWord w).regs .rsp = p.regs .rsp - 8 := Function.update_self Register.rsp _ p.regs
    obtain ⟨mem, heq, hwords, hother⟩ := @ih (p.pushWord w) (by rw [hrsp]; omega)
    rw [hrsp] at heq hwords hother
    refine ⟨mem, ?_, fun i hi => ?_, fun a ha => ?_⟩
    · rw [pushAll, List.foldl_cons, ← pushAll, heq, Processor.pushWord, List.length_cons]
      have hsub : p.regs .rsp - 8 - 8 * words.length = p.regs .rsp - 8 * (words.length + 1) := by omega
      simp only [Function.update_idem, hsub]
    · cases i with
      | zero =>
        rw [hother _ (Or.inr (by omega))]
        exact Function.update_self (p.regs .rsp - 8 * (0 + 1)) w p.mem
      | succ i =>
        have hsub : p.regs .rsp - 8 * (i + 1 + 1) = p.regs .rsp - 8 - 8 * (i + 1) := by omega
        rw [hsub, hwords i (Nat.lt_of_succ_lt_succ hi)]
        rfl
    · rw [List.length_cons] at ha
      rw [hother a (by omega)]
      exact Function.update_of_ne (show a ≠ p.regs .rsp - 8 by omega) w p.mem

/-- Saving registers pushes their values. -/
theorem execAll_push (rs : List Register) (hrs : .rsp ∉ rs) (p : Processor) :
    execAll (rs.map .push) p = pushAll (rs.map p.regs) p := by
  induction rs generalizing p with
  | nil => rfl
  | cons r rs ih =>
    rw [List.mem_cons, not_or] at hrs
    have hregs : rs.map (p.pushWord (p.regs r)).regs = rs.map p.regs :=
      List.map_congr_left fun r' hr' => Function.update_of_ne (ne_of_mem_of_not_mem hr' hrs.2) _ _
    rw [List.map_cons, List.map_cons, execAll, List.foldl_cons, ← execAll, Instr.exec, ih hrs.2, hregs]
    rfl

/-- One sequence behind the other. -/
theorem execAll_append (code code' : List Instr) (p : Processor) :
    execAll (code ++ code') p = execAll code' (execAll code p) := List.foldl_append

/-- A stub pushes its words. -/
theorem execAll_isrStub (vector : ℕ) (p : Processor) :
    execAll (isrStub vector) p = pushAll (stubWords vector) p := by
  rw [isrStub, stubWords]
  split <;> rfl

/-! ## Leaving -/

/-- `popa64`, dropping two words and `iretq` take the context from the frame at the stack pointer. -/
theorem interruptExit_eq (p : Processor) :
    interruptExit p = { p with toContext := (frameAt p.mem (p.regs .rsp)).toContext } := by
  have hregs : (interruptExit p).regs = (frameAt p.mem (p.regs .rsp)).regs := by
    funext r
    cases r <;>
      simp [interruptExit, isrHandlerExit, popa64, execAll, Instr.exec, Processor.setReg, frameAt,
        frameOffset, Nat.add_assoc]
  have hrest : interruptExit p =
      { p with toContext := { (frameAt p.mem (p.regs .rsp)).toContext with regs := (interruptExit p).regs } } := by
    simp [interruptExit, isrHandlerExit, popa64, execAll, Instr.exec, Processor.setReg, frameAt, Nat.add_assoc]
  rw [hrest, hregs]

/-! ## Entering -/

/-- The words of a frame, from its end downwards. -/
def frameWords (vector : ℕ) (errorCode : Option ℕ) (p : Processor) : List ℕ :=
  [p.ss, p.regs .rsp, p.rflags, p.cs, p.rip] ++ errorCode.toList ++ stubWords vector ++
    savedRegisters.map p.regs

/-- Words are pushed one behind the other. -/
theorem pushAll_append (words words' : List ℕ) (p : Processor) :
    pushAll (words ++ words') p = pushAll words' (pushAll words p) := List.foldl_append

/-- Pushing does not look at the rest of the context. -/
theorem pushAll_congr (words : List ℕ) (rip cs rflags ss : ℕ) (p : Processor) :
    pushAll words { p with rip := rip, cs := cs, rflags := rflags, ss := ss } =
      { pushAll words p with rip := rip, cs := cs, rflags := rflags, ss := ss } := by
  induction words generalizing p with
  | nil => rfl
  | cons w words ih => exact ih (p.pushWord w)

/-- Pushing leaves the other registers. -/
theorem pushAll_regs (words : List ℕ) (p : Processor) {r : Register} (hr : r ≠ .rsp) :
    (pushAll words p).regs r = p.regs r := by
  induction words generalizing p with
  | nil => rfl
  | cons w words ih => exact (ih (p.pushWord w)).trans (Function.update_of_ne hr _ _)

/-- So the registers that are saved are those from before. -/
theorem savedRegisters_map_pushAll (words : List ℕ) (p : Processor) :
    savedRegisters.map (pushAll words p).regs = savedRegisters.map p.regs :=
  List.map_congr_left fun r hr =>
    pushAll_regs words p (ne_of_mem_of_not_mem hr (show Register.rsp ∉ savedRegisters by decide))

/-- Entering pushes the words of the frame below its end, and changes the rest of the context. -/
theorem interruptEntry_eq_pushAll :
    interruptEntry kernelCs handler vector errorCode p =
      let q := pushAll (frameWords vector errorCode p) (p.setReg .rsp (frameEnd p))
      { q with
        regs := Function.update q.regs .rdi (q.regs .rsp)
        rip := handler
        cs := kernelCs
        rflags := clearFlags directionFlag (clearFlags gateFlags p.rflags)
        ss := if p.user then 0 else p.ss } := by
  have hsaved : savedRegisters.map (p.setReg .rsp (frameEnd p)).regs = savedRegisters.map p.regs :=
    List.map_congr_left fun r hr =>
      Function.update_of_ne (ne_of_mem_of_not_mem hr (show Register.rsp ∉ savedRegisters by decide)) _ _
  rw [interruptEntry, isrHandlerEntry, deliver, execAll_isrStub, pushAll_congr, execAll_append, pusha64,
    execAll_push _ (by decide), pushAll_congr]
  have hwords (q : Processor) : pushAll (frameWords vector errorCode p) q =
      pushAll (savedRegisters.map p.regs) (pushAll (stubWords vector)
        (pushAll ([p.ss, p.regs .rsp, p.rflags, p.cs, p.rip] ++ errorCode.toList) q)) := by
    rw [frameWords, pushAll_append, pushAll_append]
  dsimp only
  rw [savedRegisters_map_pushAll, savedRegisters_map_pushAll, hsaved, hwords]
  generalize pushAll (savedRegisters.map p.regs) (pushAll (stubWords vector)
    (pushAll ([p.ss, p.regs .rsp, p.rflags, p.cs, p.rip] ++ errorCode.toList)
      (p.setReg .rsp (frameEnd p)))) = q
  rfl

/-- Entering leaves a frame with the interrupted context, the vector and the error code at the stack
pointer, which is also what `interrupt_handler` is passed, and changes no other memory, if the stub of the
vector knows whether the processor pushes an error code. -/
theorem interruptEntry_eq (hcode : errorCode.isSome = hasErrStub vector) (hroom : frameSize ≤ frameEnd p) :
    ∃ mem, interruptEntry kernelCs handler vector errorCode p =
        ⟨entryContext kernelCs handler (frameEnd p - frameSize) p.user p.toContext, mem, p.rsp0⟩ ∧
      frameAt mem (frameEnd p - frameSize) = ⟨p.toContext, vector, errorCode.getD 0⟩ ∧
      ∀ a, a < frameEnd p - frameSize ∨ frameEnd p ≤ a → mem a = p.mem a := by
  have hlen : (frameWords vector errorCode p).length = 22 := by
    rw [frameWords, stubWords, ← hcode]
    cases errorCode <;> rfl
  have hrsp : (p.setReg .rsp (frameEnd p)).regs .rsp = frameEnd p :=
    Function.update_self Register.rsp _ p.regs
  obtain ⟨mem, heq, hwords, hother⟩ :=
    @pushAll_eq (p.setReg .rsp (frameEnd p)) (frameWords vector errorCode p) (by rw [hlen, hrsp]; exact hroom)
  rw [hrsp, hlen] at heq hother
  rw [hrsp] at hwords
  refine ⟨mem, ?_, ?_, hother⟩
  · rw [interruptEntry_eq_pushAll, heq]
    simp only [Processor.setReg, Function.update_idem, Function.update_self]
    rfl
  · have hlist : frameWords vector errorCode p = [p.ss, p.regs .rsp, p.rflags, p.cs, p.rip, errorCode.getD 0,
        vector] ++ savedRegisters.map p.regs := by
      rw [frameWords, stubWords, ← hcode]
      cases errorCode <;> rfl
    have hat (i o : ℕ) (hi : i < 22) (ho : o + 8 * i = 168) :
        mem (frameEnd p - frameSize + o) = ([p.ss, p.regs .rsp, p.rflags, p.cs, p.rip, errorCode.getD 0,
          vector] ++ savedRegisters.map p.regs).getD i 0 := by
      have hplace : frameEnd p - frameSize + o = frameEnd p - 8 * (i + 1) := by
        rw [frameSize] at hroom ⊢
        omega
      rw [hplace, hwords i (by rw [hlen]; exact hi), ← hlist, List.get_eq_getElem,
        List.getD_eq_getElem _ _ (by rw [hlen]; exact hi)]
    have hregs : (fun r => mem (frameEnd p - frameSize + frameOffset r)) = p.regs := by
      funext r
      rw [hat ((168 - frameOffset r) / 8) (frameOffset r) (by cases r <;> decide) (by cases r <;> rfl)]
      cases r <;> rfl
    rw [frameAt, hregs, hat 6 120 (by decide) rfl, hat 5 128 (by decide) rfl, hat 4 136 (by decide) rfl,
      hat 3 144 (by decide) rfl, hat 2 152 (by decide) rfl, hat 0 168 (by decide) rfl]
    rfl

/-- The stack pointer and the argument of `interrupt_handler` are the frame. -/
theorem entryContext_regs (frame : ℕ) (user : Bool) (c : Context) :
    (entryContext kernelCs handler frame user c).regs .rsp = frame ∧
      (entryContext kernelCs handler frame user c).regs .rdi = frame := by
  simp [entryContext]

/-- Handlers run with interrupts disabled. -/
theorem entryContext_interrupts (frame : ℕ) (user : Bool) (c : Context) :
    (entryContext kernelCs handler frame user c).interrupts = false := by
  have hgate : (2 ^ 64 - 1 - gateFlags).testBit 9 = false := by decide
  simp only [Context.interrupts, entryContext, clearFlags, Nat.testBit_and, hgate, Bool.and_false,
    Bool.false_and]

/-- Interrupts are transparent. `interrupt_handler` is called with interrupts disabled and gets a frame with
the interrupted context, the vector and the error code, below a stack that stays as it is. Whatever it does, if
the context in the frame is the same when it returns, the interrupted code goes on in the context that it had,
with the memory that the handler left. -/
theorem interrupt_transparent (hcode : errorCode.isSome = hasErrStub vector) (hroom : frameSize ≤ frameEnd p) :
    let q := interruptEntry kernelCs handler vector errorCode p
    let frame := frameEnd p - frameSize
    (q.interrupts = false ∧ q.regs .rdi = frame ∧ frameAt q.mem frame = ⟨p.toContext, vector, errorCode.getD 0⟩) ∧
      (∀ a, a < frame ∨ frameEnd p ≤ a → q.mem a = p.mem a) ∧
      ∀ r : Processor, r.regs .rsp = q.regs .rsp → (frameAt r.mem frame).toContext = p.toContext →
        (interruptExit r).toContext = p.toContext ∧ (interruptExit r).mem = r.mem := by
  obtain ⟨mem, hentry, hframe, hother⟩ :=
    @interruptEntry_eq p kernelCs handler vector errorCode hcode hroom
  rw [hentry]
  obtain ⟨hrsp, hrdi⟩ :=
    @entryContext_regs kernelCs handler (frameEnd p - frameSize) p.user p.toContext
  refine ⟨⟨entryContext_interrupts _ _ _, hrdi, hframe⟩, hother, fun r hr hkept => ?_⟩
  rw [interruptExit_eq, hr, hrsp]
  exact ⟨hkept, rfl⟩

/-- A processor in ring 3. -/
def userProcessor : Processor := ⟨⟨fun _ => 7, 0x400000, 0x23, 0x202, 0x1b⟩, fun _ => 0, 0x9000⟩

/-- A page fault in ring 3, whose handler returns with other registers and another word below the frame. -/
theorem interrupt_transparent_pageFault :
    let q := interruptEntry 0x08 0x200000 14 (some 4) userProcessor
    frameAt q.mem 0x8f50 = ⟨userProcessor.toContext, 14, 4⟩ ∧
      (interruptExit { q with
        regs := Function.update (fun _ => 1) .rsp (q.regs .rsp)
        mem := Function.update q.mem 0x8f48 1 }).toContext = userProcessor.toContext := by
  have hplace : frameEnd userProcessor - frameSize = 0x8f50 := by decide
  obtain ⟨⟨-, -, hframe⟩, -, hexit⟩ :=
    @interrupt_transparent userProcessor 0x08 0x200000 14 (some 4) rfl (by decide)
  rw [hplace] at hframe hexit
  intro q
  have hword (o : ℕ) : Function.update q.mem 0x8f48 1 (0x8f50 + o) = q.mem (0x8f50 + o) :=
    Function.update_of_ne (by omega) 1 q.mem
  have hsame : frameAt (Function.update q.mem 0x8f48 1) 0x8f50 = frameAt q.mem 0x8f50 := by
    simp only [frameAt, hword]
  refine ⟨hframe, (hexit _ (Function.update_self Register.rsp (q.regs .rsp) fun _ => 1) ?_).1⟩
  exact congrArg InterruptFrame.toContext (hsame.trans hframe)

end Flos.Interrupts
