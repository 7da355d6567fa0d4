import Mathlib.Algebra.Order.Group.Nat
import Mathlib.Data.List.Nodup
import Mathlib.Logic.Function.Basic
import Mathlib.Order.Nat

/-!
# The instructions of the switching code

A processor as the assembly code of the scheduler uses it: registers, the words of the stacks, the fields
of C objects, the per-CPU words behind `gs`, and the page-table root. Stacks lie far from the ends of the
address space, so stack addresses are natural numbers; accesses are to aligned words.
-/

namespace Flos.Cpu

/-- The registers that the code names. -/
inductive Reg
  | rax
  | rbx
  | rbp
  | rsp
  | rdi
  | rsi
  | r8
  | r11
  | r12
  | r13
  | r14
  | r15
  deriving DecidableEq, Repr

/-- A field of a C object; its offset comes from `asm-offsets.h`, which takes it from the C type. -/
inductive Field
  | taskStack
  | taskKstackTop
  | taskVmmap
  | vmMapPt
  | ptPhy
  deriving DecidableEq, Repr

/-- The state of a processor: the registers, the words of the stacks by address, the fields of objects by
the object's address, the per-CPU words by offset, the page-table root, whether interrupts are enabled,
and the address of the code that is executed next. -/
structure Core where
  regs : Reg → ℕ
  mem : ℕ → ℕ
  field : ℕ → Field → ℕ
  percpu : ℕ → ℕ
  cr3 : ℕ
  interrupts : Bool
  rip : ℕ

/-- A word that is accessed through `gs`. -/
inductive PercpuWord
  | currentTask
  | tssRsp0
  | preemptCount
  deriving DecidableEq, Repr

/-- The offset of the word in its variable: `OFFSET_TSS_RSP0` for the task state segment, whose first
field has four bytes. -/
def PercpuWord.displacement : PercpuWord → ℕ
  | .currentTask => 0
  | .tssRsp0 => 4
  | .preemptCount => 0

/-- Where the linker puts what the code refers to, and what C code leaves in registers that it need not
preserve. The variables of the per-CPU section lie apart. -/
structure Linkage where
  percpuStart : ℕ
  symbolOffset : PercpuWord → ℕ
  kforkReturn : ℕ
  afterSwitchPt : ℕ
  afterEntry : ℕ
  scratch : Core → Reg → ℕ
  apart : ∀ w w', symbolOffset w + w.displacement = symbolOffset w' + w'.displacement → w = w'

/-- The offset of a per-CPU word. -/
def Linkage.wordOffset (L : Linkage) (w : PercpuWord) : ℕ := L.symbolOffset w + w.displacement

/-- Two words have two offsets. -/
@[simp] theorem Linkage.wordOffset_inj {L : Linkage} {w w' : PercpuWord} :
    L.wordOffset w = L.wordOffset w' ↔ w = w' :=
  ⟨L.apart w w', congrArg L.wordOffset⟩

/-- An instruction, a macro, or the call of a C function. -/
inductive Instr
  | push (r : Reg)
  | pop (r : Reg)
  | store (base : Reg) (f : Field) (src : Reg)
  | load (dst base : Reg) (f : Field)
  | percpuOffset (dst : Reg) (w : PercpuWord)
  | storeGs (base : Reg) (w : PercpuWord) (src : Reg)
  | decGs (base : Reg) (w : PercpuWord)
  | callSwitchPt
  | callReg (r : Reg)
  | sti
  | ret
  deriving DecidableEq, Repr

namespace Core

/-- A register is written. -/
def setReg (c : Core) (r : Reg) (v : ℕ) : Core := { c with regs := Function.update c.regs r v }

/-- A word is pushed. -/
def pushWord (c : Core) (v : ℕ) : Core :=
  { c with
    regs := Function.update c.regs .rsp (c.regs .rsp - 8)
    mem := Function.update c.mem (c.regs .rsp - 8) v }

/-- A field of an object is written. -/
def setField (c : Core) (o : ℕ) (f : Field) (v : ℕ) : Core :=
  { c with field := Function.update c.field o (Function.update (c.field o) f v) }

/-- A per-CPU word is written. -/
def setPercpu (c : Core) (off v : ℕ) : Core := { c with percpu := Function.update c.percpu off v }

/-- The word at the stack pointer. -/
def top (c : Core) : ℕ := c.mem (c.regs .rsp)

/-- A word is dropped. -/
def drop (c : Core) : Core := c.setReg .rsp (c.regs .rsp + 8)

/-- The registers that a C function may change. -/
def CallerSaved (r : Reg) : Prop := r = .rax ∨ r = .rdi ∨ r = .rsi ∨ r = .r8 ∨ r = .r11

instance (r : Reg) : Decidable (CallerSaved r) := by
  unfold CallerSaved
  infer_instance

/-- `pmap_switch_pt(rdi)` behind its `call`, up to and with its return. -/
def switchPt (L : Linkage) (c : Core) : Core :=
  { c with
    cr3 := c.field (c.regs .rdi) .ptPhy
    regs := fun r => if CallerSaved r then L.scratch c r else c.regs r }

variable (c : Core) (r : Reg) (v : ℕ)

/-- The register that was written. -/
@[simp] theorem setReg_self : (c.setReg r v).regs r = v := Function.update_self _ _ _

/-- No other register is written. -/
theorem setReg_of_ne {r r' : Reg} (h : r' ≠ r) : (c.setReg r v).regs r' = c.regs r' :=
  Function.update_of_ne h _ _

/-- A push moves the stack pointer down. -/
@[simp] theorem pushWord_rsp : (c.pushWord v).regs .rsp = c.regs .rsp - 8 :=
  Function.update_self Reg.rsp _ c.regs

/-- A push leaves the other registers. -/
theorem pushWord_regs {r : Reg} (h : r ≠ .rsp) : (c.pushWord v).regs r = c.regs r :=
  Function.update_of_ne h _ _

/-- Dropping a word moves the stack pointer up. -/
@[simp] theorem drop_rsp : c.drop.regs .rsp = c.regs .rsp + 8 := setReg_self _ _ _

/-- Dropping a word leaves the other registers. -/
theorem drop_regs {r : Reg} (h : r ≠ .rsp) : c.drop.regs r = c.regs r := setReg_of_ne _ _ h

end Core

/-- What an instruction does. -/
def Instr.exec (L : Linkage) (c : Core) : Instr → Core
  | .push r => c.pushWord (c.regs r)
  | .pop r => c.drop.setReg r c.top
  | .store base f src => c.setField (c.regs base) f (c.regs src)
  | .load dst base f => c.setReg dst (c.field (c.regs base) f)
  | .percpuOffset dst w => (c.setReg .r11 L.percpuStart).setReg dst (L.symbolOffset w)
  | .storeGs base w src => c.setPercpu (c.regs base + w.displacement) (c.regs src)
  | .decGs base w => c.setPercpu (c.regs base + w.displacement)
      ((c.percpu (c.regs base + w.displacement) + (2 ^ 64 - 1)) % 2 ^ 64)
  | .callSwitchPt => ((c.pushWord L.afterSwitchPt).switchPt L).drop
  | .callReg r => { (c.pushWord L.afterEntry) with rip := c.regs r }
  | .sti => { c with interrupts := true }
  | .ret => { c.drop with rip := c.top }

/-- What a sequence of instructions does. -/
def execAll (L : Linkage) (code : List Instr) (c : Core) : Core := code.foldl (Instr.exec L) c

variable {L : Linkage} {c : Core}

/-- One sequence behind the other. -/
theorem execAll_append (code code' : List Instr) (c : Core) :
    execAll L (code ++ code') c = execAll L code' (execAll L code c) := List.foldl_append

/-- No instruction. -/
@[simp] theorem execAll_nil (c : Core) : execAll L [] c = c := rfl

/-- The first instruction, then the rest. -/
@[simp] theorem execAll_cons (i : Instr) (code : List Instr) (c : Core) :
    execAll L (i :: code) c = execAll L code (i.exec L c) := rfl

/-! ## Saving and restoring registers -/

/-- Pushing registers stores them downwards, and changes nothing else. -/
theorem execAll_push (rs : List Reg) (hrs : .rsp ∉ rs) (hroom : 8 * rs.length ≤ c.regs .rsp) :
    ∃ mem, execAll L (rs.map .push) c =
        { c with
          regs := Function.update c.regs .rsp (c.regs .rsp - 8 * rs.length)
          mem := mem } ∧
      (∀ i (hi : i < rs.length), mem (c.regs .rsp - 8 * (i + 1)) = c.regs (rs.get ⟨i, hi⟩)) ∧
      ∀ a, c.regs .rsp ≤ a ∨ a + 8 * rs.length < c.regs .rsp → mem a = c.mem a := by
  induction rs generalizing c with
  | nil => exact ⟨c.mem, by simp, by simp, fun _ _ => rfl⟩
  | cons r rs ih =>
    rw [List.mem_cons, not_or] at hrs
    rw [List.length_cons] at hroom
    have hsp := c.pushWord_rsp (c.regs r)
    obtain ⟨mem, heq, hsaved, hother⟩ := @ih (c.pushWord (c.regs r)) hrs.2 (by rw [hsp]; omega)
    rw [hsp] at heq hsaved hother
    refine ⟨mem, ?_, fun i hi => ?_, fun a ha => ?_⟩
    · rw [List.map_cons, execAll_cons]
      refine heq.trans ?_
      have hlen : c.regs .rsp - 8 - 8 * rs.length = c.regs .rsp - 8 * (rs.length + 1) := by omega
      simp only [Core.pushWord, Function.update_idem, hlen, List.length_cons]
    · cases i with
      | zero =>
        -- the first register lies above what the others are pushed to
        rw [hother _ (by omega)]
        exact Function.update_self _ _ _
      | succ i =>
        rw [List.length_cons] at hi
        have hslot : c.regs .rsp - 8 - 8 * (i + 1) = c.regs .rsp - 8 * (i + 1 + 1) := by omega
        rw [← hslot, hsaved i (by omega)]
        refine c.pushWord_regs _ ?_
        rintro h
        exact hrs.2 (h ▸ List.get_mem _ _)
    · rw [List.length_cons] at ha
      rw [hother a (by omega)]
      exact Function.update_of_ne (by omega) _ _

/-- Popping registers loads them upwards, and changes nothing else. -/
theorem execAll_pop (rs : List Reg) (hrs : .rsp ∉ rs) (hnodup : rs.Nodup) :
    ∃ regs, execAll L (rs.map .pop) c = { c with regs := regs } ∧
      regs .rsp = c.regs .rsp + 8 * rs.length ∧
      (∀ i (hi : i < rs.length), regs (rs.get ⟨i, hi⟩) = c.mem (c.regs .rsp + 8 * i)) ∧
      ∀ r, r ∉ rs → r ≠ .rsp → regs r = c.regs r := by
  induction rs generalizing c with
  | nil => exact ⟨c.regs, rfl, rfl, by simp, fun _ _ _ => rfl⟩
  | cons r rs ih =>
    rw [List.mem_cons, not_or] at hrs
    obtain ⟨hr, hnodup⟩ := List.nodup_cons.mp hnodup
    have hsp : ((Instr.pop r).exec L c).regs .rsp = c.regs .rsp + 8 :=
      (Core.setReg_of_ne _ _ hrs.1).trans c.drop_rsp
    obtain ⟨regs, heq, hfinal, hloaded, hother⟩ := @ih ((Instr.pop r).exec L c) hrs.2 hnodup
    rw [hsp] at hfinal hloaded
    refine ⟨regs, heq, by rw [hfinal, List.length_cons]; omega, fun i hi => ?_, fun q hq hqsp => ?_⟩
    · cases i with
      | zero => exact (hother r hr (Ne.symm hrs.1)).trans (Core.setReg_self _ _ _)
      | succ i =>
        rw [List.length_cons] at hi
        have hslot : c.regs .rsp + 8 + 8 * i = c.regs .rsp + 8 * (i + 1) := by omega
        exact (hloaded i (by omega)).trans (by rw [hslot]; rfl)
    · rw [List.mem_cons, not_or] at hq
      rw [hother q hq.2 hqsp]
      exact (Core.setReg_of_ne _ _ hq.1).trans (c.drop_regs hqsp)

end Flos.Cpu
