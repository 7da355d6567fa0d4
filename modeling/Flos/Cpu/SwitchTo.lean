import Flos.Cpu.Instructions

/-!
# `__switch_to` and `__kfork_return`

The two assembly routines, instruction by instruction. `__switch_to` saves the callee-saved registers on
the stack of the task that it leaves, takes the stack of the next one, and restores what it finds there;
in between it stores which task runs, its kernel stack and its page table, and uses three words below the
next stack.
-/

namespace Flos.Cpu

/-- The registers that `__switch_to` saves, in the order in which it pushes them. -/
def calleeSaved : List Reg := [.rbx, .rbp, .r12, .r13, .r14, .r15]

/-- `__switch_to`. -/
def switchTo : List Instr := [
  .push .rbx,
  .push .rbp,
  .push .r12,
  .push .r13,
  .push .r14,
  .push .r15,
  .store .rdi .taskStack .rsp,
  .load .rsp .rsi .taskStack,
  .push .rdi,
  .push .rax,
  .percpuOffset .r8 .currentTask,
  .storeGs .r8 .currentTask .rsi,
  .percpuOffset .r8 .tssRsp0,
  .load .rax .rsi .taskKstackTop,
  .storeGs .r8 .tssRsp0 .rax,
  .load .rax .rsi .taskVmmap,
  .load .rdi .rax .vmMapPt,
  .callSwitchPt,
  .pop .rax,
  .pop .rdi,
  .percpuOffset .r8 .preemptCount,
  .decGs .r8 .preemptCount,
  .pop .r15,
  .pop .r14,
  .pop .r13,
  .pop .r12,
  .pop .rbp,
  .pop .rbx,
  .ret]

/-- `__kfork_return`, up to the entry of the task. -/
def kforkReturn : List Instr := [.pop .rdi, .pop .rax, .sti, .callReg .rax]

/-- The part of `__switch_to` between saving and restoring registers, on the next stack. -/
def takeOver : List Instr := [
  .push .rdi,
  .push .rax,
  .percpuOffset .r8 .currentTask,
  .storeGs .r8 .currentTask .rsi,
  .percpuOffset .r8 .tssRsp0,
  .load .rax .rsi .taskKstackTop,
  .storeGs .r8 .tssRsp0 .rax,
  .load .rax .rsi .taskVmmap,
  .load .rdi .rax .vmMapPt,
  .callSwitchPt,
  .pop .rax,
  .pop .rdi,
  .percpuOffset .r8 .preemptCount,
  .decGs .r8 .preemptCount]

/-- The parts of `__switch_to`. -/
theorem switchTo_eq : switchTo = calleeSaved.map .push ++
    ([.store .rdi .taskStack .rsp, .load .rsp .rsi .taskStack] ++
      (takeOver ++ (calleeSaved.reverse.map .pop ++ [.ret]))) := rfl

variable {L : Linkage} {c : Core}

/-- The processor belongs to a task: it is the current one, its kernel stack is the one for interrupts,
and its page table is loaded. -/
structure RunsTask (L : Linkage) (task : ℕ) (c : Core) : Prop where
  currentTask : c.percpu (L.wordOffset .currentTask) = task
  tssRsp0 : c.percpu (L.wordOffset .tssRsp0) = c.field task .taskKstackTop
  cr3 : c.cr3 = c.field (c.field (c.field task .taskVmmap) .vmMapPt) .ptPhy

/-- Taking over writes three words below the stack pointer and leaves the stack pointer where it was. -/
theorem execAll_takeOver (hroom : 24 ≤ c.regs .rsp) :
    (execAll L takeOver c).regs .rsp = c.regs .rsp ∧
      (execAll L takeOver c).field = c.field ∧
      RunsTask L (c.regs .rsi) (execAll L takeOver c) ∧
      ∀ a, a < c.regs .rsp - 24 ∨ c.regs .rsp ≤ a → (execAll L takeOver c).mem a = c.mem a := by
  have hfold : ∀ w, L.symbolOffset w + PercpuWord.displacement w = L.wordOffset w := fun _ => rfl
  simp only [takeOver, execAll_cons, execAll_nil, Instr.exec, Core.pushWord, Core.setReg, Core.setPercpu,
    Core.drop, Core.top, Core.switchPt]
  refine ⟨?_, trivial, ⟨?_, ?_, ?_⟩, fun a ha => ?_⟩
  · simp [Function.update_apply, Core.CallerSaved]
    omega
  · simp [Function.update_apply, Core.CallerSaved, hfold]
  · simp [Function.update_apply, Core.CallerSaved, hfold]
  · simp
  · simp only [Function.update_apply, reduceCtorEq, if_true, if_false]
    rw [if_neg (by omega), if_neg (by omega), if_neg (by omega)]

/-- The words that `__switch_to` leaves on the stack of the previous task: the registers below the return
address. -/
def savedMem (L : Linkage) (c : Core) : ℕ → ℕ := (execAll L (calleeSaved.map .push) c).mem

/-- Saving puts the registers below the stack pointer and changes no other word. -/
theorem savedMem_spec (hroom : 48 ≤ c.regs .rsp) :
    (∀ i (hi : i < 6), savedMem L c (c.regs .rsp - 8 * (i + 1)) = c.regs (calleeSaved.get ⟨i, hi⟩)) ∧
      ∀ a, a < c.regs .rsp - 48 ∨ c.regs .rsp ≤ a → savedMem L c a = c.mem a := by
  obtain ⟨mem, heq, hsaved, hother⟩ := @execAll_push L c calleeSaved (by decide) hroom
  rw [savedMem, heq]
  refine ⟨hsaved, fun a ha => hother a ?_⟩
  have hlen : calleeSaved.length = 6 := rfl
  omega

/-- The stack pointer that the next task was left with; a task may be its own successor. -/
def nextStack (c : Core) : ℕ :=
  (c.setField (c.regs .rdi) .taskStack (c.regs .rsp - 48)).field (c.regs .rsi) .taskStack

/-- What `__switch_to` does: the previous task's registers are saved and its stack pointer is stored, the
registers, the stack pointer and the place to continue at are taken from the next task's stack, and the
processor belongs to the next task. -/
theorem execAll_switchTo (hroom : 48 ≤ c.regs .rsp) (hnext : 24 ≤ nextStack c) :
    (execAll L switchTo c).field =
        (c.setField (c.regs .rdi) .taskStack (c.regs .rsp - 48)).field ∧
      RunsTask L (c.regs .rsi) (execAll L switchTo c) ∧
      (∀ a, a < nextStack c - 24 ∨ nextStack c ≤ a → (execAll L switchTo c).mem a = savedMem L c a) ∧
      (∀ i (hi : i < 6), (execAll L switchTo c).regs (calleeSaved.reverse.get ⟨i, hi⟩) =
        savedMem L c (nextStack c + 8 * i)) ∧
      (execAll L switchTo c).rip = savedMem L c (nextStack c + 48) ∧
      (execAll L switchTo c).regs .rsp = nextStack c + 56 := by
  obtain ⟨mem, hpush, -, -⟩ := @execAll_push L c calleeSaved (by decide) hroom
  have hmem : savedMem L c = mem := by rw [savedMem, hpush]
  -- the processor on the next stack
  obtain ⟨c₂, hload, hsp, hmem₂, hfield₂, hrsi⟩ : ∃ c₂,
      execAll L [.store .rdi .taskStack .rsp, .load .rsp .rsi .taskStack]
        (execAll L (calleeSaved.map .push) c) = c₂ ∧ c₂.regs .rsp = nextStack c ∧ c₂.mem = mem ∧
      c₂.field = (c.setField (c.regs .rdi) .taskStack (c.regs .rsp - 48)).field ∧
      c₂.regs .rsi = c.regs .rsi := by
    rw [hpush]
    exact ⟨_, rfl, rfl, rfl, rfl, rfl⟩
  obtain ⟨hsp₃, hfield, hruns, hbelow⟩ := @execAll_takeOver L c₂ (by rwa [hsp])
  generalize hc₃ : execAll L takeOver c₂ = c₃ at hsp₃ hfield hruns hbelow
  obtain ⟨regs, hpop, hsp₄, hloaded, -⟩ := @execAll_pop L c₃ calleeSaved.reverse (by decide) (by decide)
  have hlen : 8 * calleeSaved.reverse.length = 48 := rfl
  rw [hsp] at hsp₃ hbelow
  rw [hsp₃] at hloaded hsp₄
  rw [hlen] at hsp₄
  rw [hmem₂, ← hmem] at hbelow
  rw [hfield₂] at hfield
  rw [hrsi] at hruns
  have hfinal : execAll L switchTo c = Instr.exec L { c₃ with regs := regs } .ret := by
    rw [switchTo_eq, execAll_append, execAll_append, execAll_append, execAll_append, hload, hc₃, hpop]
    rfl
  rw [hfinal]
  refine ⟨hfield, ⟨hruns.currentTask, hruns.tssRsp0, hruns.cr3⟩, hbelow, fun i hi => ?_, ?_, ?_⟩
  · refine (Core.drop_regs _ ?_).trans ((hloaded i hi).trans (hbelow _ (.inr (Nat.le_add_right _ _))))
    intro h
    exact (by decide : Reg.rsp ∉ calleeSaved.reverse) (h ▸ List.get_mem _ _)
  · exact (congrArg c₃.mem hsp₄).trans (hbelow _ (.inr (Nat.le_add_right _ 48)))
  · exact (Core.drop_rsp _).trans (congrArg (· + 8) hsp₄)

/-- What `__kfork_return` does with the words that `ktask_spawn` put on the stack: the entry is called with
the arguments, on the stack above them. -/
theorem execAll_kforkReturn (c : Core) :
    (execAll L kforkReturn c).regs .rdi = c.mem (c.regs .rsp) ∧
      (execAll L kforkReturn c).rip = c.mem (c.regs .rsp + 8) ∧
      (execAll L kforkReturn c).regs .rsp = c.regs .rsp + 16 - 8 ∧
      (execAll L kforkReturn c).interrupts = true := by
  simp only [kforkReturn, execAll_cons, execAll_nil, Instr.exec, Core.pushWord, Core.setReg, Core.drop,
    Core.top]
  refine ⟨?_, ?_, ?_, trivial⟩
  all_goals simp

end Flos.Cpu
