import Flos.Cpu.SwitchTo
import Flos.Lib.Runs
import Flos.Mm.PageSource
import Flos.Mm.SlabRuns

/-!
# Switching between kernel tasks

`ktask_spawn` puts nine words on a new stack, `__switch_to` takes seven of them, and `__kfork_return` the
last two. Between its switches a task may do anything that leaves the stacks of the others alone. The frames
of a new stack come from `pmm_alloc_pages`, whose failure `ktask_spawn` does not notice: all tasks that are
spawned without frames have one stack, the frames from address 0 on.
-/

namespace Flos.Sched

open Flos.Cpu Flos.Lib Flos.Mm

/-- `KSTACK_PAGES`. -/
def kstackPages : ℕ := 2

/-- `KSTACK_SIZE`. -/
def kstackSize : ℕ := 4096 * kstackPages

/-- What a call of `__switch_to` leaves behind: the registers, the address it returns to, and the words of
the stacks. -/
structure Context where
  regs : Reg → ℕ
  ret : ℕ
  mem : ℕ → ℕ

/-- Where a task is in its life. -/
inductive TaskPhase
  | fresh (entry args : ℕ)
  | running
  | waiting (ctx : Context)

/-- The stack of a task, from `low` up to `high`, and where the task is. -/
structure TaskStack where
  low : ℕ
  high : ℕ
  phase : TaskPhase

/-- The tasks of a processor. The fields of the task at address `t` are `core.field t`; `tasks` is the
history, which the code does not have. -/
structure SwitchState where
  core : Core
  pages : Pmm
  hhdm : ℕ
  kernelVmMap : ℕ
  current : ℕ
  tasks : ℕ → Option TaskStack

/-- `*--stack = word` for each word: the final stack pointer, and the words of the stacks. -/
def pushWords (stack : ℕ) (mem : ℕ → ℕ) : List ℕ → ℕ × (ℕ → ℕ)
  | [] => (stack, mem)
  | word :: words => pushWords (stack - 8) (Function.update mem (stack - 8) word) words

/-- The words that `ktask_spawn` puts on a stack: the two that `__kfork_return` takes, the address it
is entered by, and the callee-saved registers. -/
def spawnWords (L : Linkage) (entry args : ℕ) : List ℕ :=
  [entry, args, L.kforkReturn] ++ List.replicate 6 0

/-- The top of the stack that `ktask_spawn` takes. -/
def SwitchState.kstackTop (s : SwitchState) : ℕ :=
  kstackSize + (s.hhdm + (pmmAllocPages s.pages kstackPages).1)

/-- `ktask_spawn`, where `kmalloc` returns `t`. -/
def SwitchState.ktaskSpawn (L : Linkage) (s : SwitchState) (t entry args : ℕ) : SwitchState :=
  let stack := pushWords s.kstackTop s.core.mem (spawnWords L entry args)
  { s with
    pages := (pmmAllocPages s.pages kstackPages).2
    core := ((({ s.core with mem := stack.2 }.setField t .taskKstackTop s.kstackTop).setField t
      .taskVmmap s.kernelVmMap).setField t .taskStack stack.1)
    tasks := Function.update s.tasks t
      (some ⟨s.kstackTop - kstackSize, s.kstackTop, .fresh entry args⟩) }

/-- The processor at the first instruction of `__switch_to(current, next)`. -/
def SwitchState.atSwitch (s : SwitchState) (next ret : ℕ) : Core :=
  ((s.core.setReg .rdi s.current).setReg .rsi next).pushWord ret

/-- The tasks once the current one has called `__switch_to`. -/
def SwitchState.departed (s : SwitchState) (ret : ℕ) : ℕ → Option TaskStack :=
  Function.update s.tasks s.current ((s.tasks s.current).map fun k =>
    { k with phase := .waiting ⟨s.core.regs, ret, s.core.mem⟩ })

/-- The call of `__switch_to(current, next)` that returns to `ret`. -/
def SwitchState.switchTo (L : Linkage) (s : SwitchState) (next ret : ℕ) : SwitchState :=
  { s with
    core := execAll L Cpu.switchTo (s.atSwitch next ret)
    current := next
    tasks := Function.update (s.departed ret) next ((s.departed ret next).map fun k =>
      { k with phase := .running }) }

/-- What can happen: a task is spawned, the current task calls `__switch_to`, or it does something
else. -/
inductive SwitchOp
  | spawn (t entry args : ℕ)
  | switch (next ret : ℕ)
  | work (core : Core) (pages : Pmm)

/-- What an operation leaves. -/
def SwitchOp.exec (L : Linkage) (s : SwitchState) : SwitchOp → SwitchState
  | .spawn t entry args => s.ktaskSpawn L t entry args
  | .switch next ret => s.switchTo L next ret
  | .work core pages => { s with core := core, pages := pages }

/-- The room that a task needs to leave and come back: a return address, six registers, and the three words
that are pushed while it is made the current task. -/
def switchRoom : ℕ := 80

/-- A stack pointer in a stack, with room for a switch. -/
def TaskStack.Holds (k : TaskStack) (sp : ℕ) : Prop := k.low + switchRoom ≤ sp ∧ sp ≤ k.high

/-- No free frame lies in a stack. -/
def TaskStack.Reserved (k : TaskStack) (hhdm : ℕ) (pages : Pmm) : Prop :=
  ∀ i, pages.Free i → hhdm + (i + 1) * 4096 ≤ k.low ∨ k.high ≤ hhdm + i * 4096

/-- The current task does something: it stays on its stack and keeps the stacks of the others. -/
structure Works (s : SwitchState) (core : Core) (pages : Pmm) : Prop where
  ok : pages.Ok
  reserved : ∀ t k, s.tasks t = some k → k.Reserved s.hhdm pages
  holds : ∀ k, s.tasks s.current = some k → k.Holds (core.regs .rsp)
  stack : ∀ t, t ≠ s.current → core.field t .taskStack = s.core.field t .taskStack
  mem : ∀ t k, s.tasks t = some k → t ≠ s.current → ∀ a, k.low ≤ a → a < k.high →
    core.mem a = s.core.mem a

/-- The operations that a processor can perform: a new object is none of the tasks, and the next task is
one. -/
def SwitchLegal (s : SwitchState) : SwitchOp → Prop
  | .spawn t _ _ => t ≠ 0 → s.tasks t = none
  | .switch next _ => (s.tasks next).isSome
  | .work core pages => Works s core pages

/-- Both allocations of `ktask_spawn` succeed. -/
def SpawnSucceeds (s : SwitchState) : SwitchOp → Prop
  | .spawn t _ _ => t ≠ 0 ∧ (pmmAllocPages s.pages kstackPages).1 ≠ 0
  | .switch _ _ => True
  | .work _ _ => True

/-- A task continues where it was. One that was switched out has its callee-saved registers, its stack
pointer and the words of its stack as at its call of `__switch_to`, which returns; a new one reaches
`__kfork_return`, which calls its entry with its arguments and an aligned stack. -/
def Continues (L : Linkage) (c : Core) (k : TaskStack) : Prop :=
  match k.phase with
  | .fresh entry args => c.rip = L.kforkReturn ∧ (execAll L Cpu.kforkReturn c).rip = entry ∧
      (execAll L Cpu.kforkReturn c).regs .rdi = args ∧
      16 ∣ (execAll L Cpu.kforkReturn c).regs .rsp + 8
  | .running => False
  | .waiting ctx => c.rip = ctx.ret ∧ (∀ r ∈ calleeSaved, c.regs r = ctx.regs r) ∧
      c.regs .rsp = ctx.regs .rsp ∧ ∀ a, ctx.regs .rsp ≤ a → a < k.high → c.mem a = ctx.mem a

/-- After a switch the next task continues and the processor belongs to it. -/
def SwitchCorrect (L : Linkage) (s : SwitchState) : SwitchOp → Prop
  | .spawn _ _ _ => True
  | .switch next ret => RunsTask L next (s.switchTo L next ret).core ∧
      ∃ k, s.departed ret next = some k ∧ Continues L (s.switchTo L next ret).core k
  | .work _ _ => True

/-- The first task runs on the stack that the boot loader set up; no other task exists. -/
structure StartsOn (s : SwitchState) (low high : ℕ) : Prop where
  ok : s.pages.Ok
  aligned : 4096 ∣ s.hhdm
  tasks : s.tasks = Function.update (fun _ => none) s.current (some ⟨low, high, .running⟩)
  holds : TaskStack.Holds ⟨low, high, .running⟩ (s.core.regs .rsp)
  reserved : TaskStack.Reserved ⟨low, high, .running⟩ s.hhdm s.pages

variable {L : Linkage} {s : SwitchState} {c c' : Core} {t : ℕ} {k : TaskStack}

/-! ## A task that does not run -/

/-- The words that `__switch_to` takes from a stack: the callee-saved registers and a return address. -/
structure SavedFrame (mem : ℕ → ℕ) (sp : ℕ) (regs : Reg → ℕ) (ret : ℕ) : Prop where
  saved : ∀ i (hi : i < 6), mem (sp + 8 * i) = regs (calleeSaved.reverse.get ⟨i, hi⟩)
  ret : mem (sp + 48) = ret

/-- What lies on a stack from the saved stack pointer on, by what the task did last. -/
def TaskPhase.OnStack (L : Linkage) (mem : ℕ → ℕ) (sp high : ℕ) : TaskPhase → Prop
  | .fresh entry args => sp + 72 = high ∧ 16 ∣ high ∧ SavedFrame mem sp (fun _ => 0) L.kforkReturn ∧
      mem (sp + 56) = args ∧ mem (sp + 64) = entry
  | .running => False
  | .waiting ctx => sp + 56 = ctx.regs .rsp ∧ SavedFrame mem sp ctx.regs ctx.ret ∧
      ∀ a, sp + 56 ≤ a → a < high → mem a = ctx.mem a

/-- A task can be switched to. -/
structure Ready (L : Linkage) (c : Core) (t : ℕ) (k : TaskStack) : Prop where
  holds : k.Holds (c.field t .taskStack + 56)
  onStack : k.phase.OnStack L c.mem (c.field t .taskStack) k.high

/-- The invariant: stacks lie apart and in no free frame, the current task is on its own, and the others
can be switched to. -/
structure SwitchInv (L : Linkage) (s : SwitchState) : Prop where
  ok : s.pages.Ok
  aligned : 4096 ∣ s.hhdm
  reserved : ∀ t k, s.tasks t = some k → k.Reserved s.hhdm s.pages
  apart : ∀ t t' k k', s.tasks t = some k → s.tasks t' = some k' → t ≠ t' →
    k.high ≤ k'.low ∨ k'.high ≤ k.low
  current : ∃ k, s.tasks s.current = some k ∧ k.phase = .running ∧ k.Holds (s.core.regs .rsp)
  ready : ∀ t k, s.tasks t = some k → t ≠ s.current → Ready L s.core t k

/-- A task stays ready while its stack and its stack pointer stay. -/
theorem Ready.congr (h : Ready L c t k) (hstack : c'.field t .taskStack = c.field t .taskStack)
    (hmem : ∀ a, k.low ≤ a → a < k.high → c'.mem a = c.mem a) : Ready L c' t k := by
  obtain ⟨hholds, hon⟩ := h
  have hlow := hholds.1
  have hhigh := hholds.2
  rw [switchRoom] at hlow
  rw [← hstack] at hholds hon hlow hhigh
  refine ⟨hholds, ?_⟩
  have hframe : ∀ {regs ret}, SavedFrame c.mem (c'.field t .taskStack) regs ret →
      SavedFrame c'.mem (c'.field t .taskStack) regs ret := fun ⟨hsaved, hret⟩ =>
    ⟨fun i hi => (hmem _ (by omega) (by omega)).trans (hsaved i hi),
      (hmem _ (by omega) (by omega)).trans hret⟩
  generalize k.phase = phase at hon ⊢
  cases phase with
  | fresh entry args =>
    obtain ⟨htop, halign, hsaved, hargs, hentry⟩ := hon
    exact ⟨htop, halign, hframe hsaved, (hmem _ (by omega) (by omega)).trans hargs,
      (hmem _ (by omega) (by omega)).trans hentry⟩
  | running => exact hon
  | waiting ctx =>
    obtain ⟨hsp, hsaved, hlive⟩ := hon
    exact ⟨hsp, hframe hsaved, fun a ha hah => (hmem a (by omega) hah).trans (hlive a ha hah)⟩

/-! ## Spawning -/

/-- The words are stored downwards, and nothing else changes. -/
theorem pushWords_spec (words : List ℕ) (stack : ℕ) (mem : ℕ → ℕ) (hroom : 8 * words.length ≤ stack) :
    (pushWords stack mem words).1 = stack - 8 * words.length ∧
      (∀ i (hi : i < words.length),
        (pushWords stack mem words).2 (stack - 8 * (i + 1)) = words.get ⟨i, hi⟩) ∧
      ∀ a, a + 8 * words.length < stack ∨ stack ≤ a → (pushWords stack mem words).2 a = mem a := by
  induction words generalizing stack mem with
  | nil => exact ⟨rfl, by simp, fun _ _ => rfl⟩
  | cons word words ih =>
    rw [List.length_cons] at hroom
    obtain ⟨hfinal, hstored, hother⟩ := ih (stack - 8) (Function.update mem (stack - 8) word) (by omega)
    simp only [pushWords, List.length_cons]
    refine ⟨by rw [hfinal]; omega, fun i hi => ?_, fun a ha => ?_⟩
    · cases i with
      | zero =>
        rw [hother _ (by omega)]
        exact Function.update_self _ _ _
      | succ i =>
        rw [show stack - 8 * (i + 1 + 1) = stack - 8 - 8 * (i + 1) by omega]
        exact hstored i (by omega)
    · rw [hother a (by omega)]
      exact Function.update_of_ne (by omega) _ _

/-- The top of a stack, when its frames are there. -/
theorem SwitchInv.kstackTop (hinv : SwitchInv L s) (hsome : (pmmAllocPages s.pages kstackPages).1 ≠ 0) :
    ∃ i, s.pages.FreeRange i kstackPages ∧ s.kstackTop = s.hhdm + i * 4096 + kstackSize ∧
      (pmmAllocPages s.pages kstackPages).2.freeSet = s.pages.freeSet \ frameRange i kstackPages := by
  rcases hinv.ok.allocPages (show 0 < kstackPages by decide) with ⟨i, hfree, -, -, haddr, hset⟩ | heq
  · refine ⟨i, hfree, ?_, hset⟩
    rw [SwitchState.kstackTop, haddr]
    omega
  · rw [heq] at hsome
    exact absurd rfl hsome

/-- The stack of a new task is laid out for its first switch. -/
theorem Ready.spawn {entry args base : ℕ} (hbase : 4096 ∣ base) (htop : s.kstackTop = base + kstackSize) :
    Ready L (s.ktaskSpawn L t entry args).core t
      ⟨s.kstackTop - kstackSize, s.kstackTop, .fresh entry args⟩ := by
  rw [kstackSize, kstackPages] at htop
  obtain ⟨hfinal, hstored, -⟩ := pushWords_spec (spawnWords L entry args) s.kstackTop s.core.mem
    (show 8 * 9 ≤ _ by omega)
  have hsp : (s.ktaskSpawn L t entry args).core.field t .taskStack = s.kstackTop - 72 := by
    rw [← hfinal.trans (show _ = s.kstackTop - 72 from rfl)]
    simp [SwitchState.ktaskSpawn, Core.setField]
  have hmem : (s.ktaskSpawn L t entry args).core.mem =
      (pushWords s.kstackTop s.core.mem (spawnWords L entry args)).2 := rfl
  -- the word that lies `a` above the stack pointer was stored as number `8 - a / 8`
  have hword : ∀ a i, a + 8 * (i + 1) = 72 → ∀ hi : i < 9,
      (s.ktaskSpawn L t entry args).core.mem (s.kstackTop - 72 + a) =
        (spawnWords L entry args).get ⟨i, hi⟩ := fun a i ha hi => by
    rw [hmem, ← hstored i hi, show s.kstackTop - 72 + a = s.kstackTop - 8 * (i + 1) by omega]
  have hbelow : s.kstackTop - 72 + 72 = s.kstackTop := by omega
  have halign : 16 ∣ s.kstackTop := by omega
  refine ⟨⟨?_, ?_⟩, ?_⟩
  · rw [hsp, switchRoom]
    simp only [kstackSize, kstackPages]
    omega
  · rw [hsp]
    simp only
    omega
  · rw [hsp]
    refine ⟨hbelow, halign, ⟨fun i hi => ?_, hword 48 2 rfl (by decide)⟩, hword 56 1 rfl (by decide),
      hword 64 0 rfl (by decide)⟩
    rw [hword (8 * i) (8 - i) (by omega) (by omega), List.get_eq_getElem]
    exact (List.getElem_append_right (show 3 ≤ 8 - i by omega)).trans (List.getElem_replicate _)

/-- The stacks of the tasks are not empty. -/
theorem SwitchInv.low_lt (hinv : SwitchInv L s) (hk : s.tasks t = some k) : k.low < k.high := by
  have hroom : ∃ sp, k.Holds sp := by
    by_cases h : t = s.current
    · obtain ⟨k', hk', -, hholds⟩ := hinv.current
      rw [← h, hk, Option.some.injEq] at hk'
      exact ⟨_, hk' ▸ hholds⟩
    · exact ⟨_, (hinv.ready t k hk h).holds⟩
  obtain ⟨sp, hlow, hhigh⟩ := hroom
  rw [switchRoom] at hlow
  omega

/-- Spawning with frames keeps the invariant. -/
theorem SwitchInv.spawn {entry args : ℕ} (hinv : SwitchInv L s) (hnew : s.tasks t = none)
    (hsome : (pmmAllocPages s.pages kstackPages).1 ≠ 0) : SwitchInv L (s.ktaskSpawn L t entry args) := by
  obtain ⟨i, hfree, htop, hset⟩ := hinv.kstackTop hsome
  obtain ⟨kc, hcur, hrunning, hholds⟩ := hinv.current
  have hcur_ne : s.current ≠ t := fun h => by
    rw [← h, hcur] at hnew
    cases hnew
  have hlow : s.kstackTop - kstackSize = s.hhdm + i * 4096 := by omega
  have hsize : kstackSize = 8192 := rfl
  have hself : (s.ktaskSpawn L t entry args).tasks t =
      some ⟨s.kstackTop - kstackSize, s.kstackTop, .fresh entry args⟩ := Function.update_self _ _ _
  have htasks : ∀ t', t' ≠ t → (s.ktaskSpawn L t entry args).tasks t' = s.tasks t' := fun t' h =>
    Function.update_of_ne h _ _
  have hfreeAfter : ∀ j, (s.ktaskSpawn L t entry args).pages.Free j →
      s.pages.Free j ∧ j ∉ frameRange i kstackPages := fun j hj => by
    have hmem : j ∈ (pmmAllocPages s.pages kstackPages).2.freeSet := hj
    rwa [hset] at hmem
  -- the frames of the new stack were free, so that no other stack is there
  have hnewApart : ∀ t' k', s.tasks t' = some k' →
      k'.high ≤ s.kstackTop - kstackSize ∨ s.kstackTop ≤ k'.low := fun t' k' hk' => by
    have hfirst := hinv.reserved t' k' hk' i (hfree i ⟨le_rfl, by rw [kstackPages]; omega⟩)
    have hsecond := hinv.reserved t' k' hk' (i + 1) (hfree (i + 1) ⟨by omega, by rw [kstackPages]; omega⟩)
    have := hinv.low_lt hk'
    omega
  refine ⟨(pmmSource_lawful.allocPages_ok _ _ hinv.ok (by decide)), hinv.aligned, ?_, ?_, ?_, ?_⟩
  · intro t' k' hk' j hj
    obtain ⟨hjFree, hjOut⟩ := hfreeAfter j hj
    by_cases h : t' = t
    · rw [h, hself, Option.some.injEq] at hk'
      subst hk'
      rw [mem_frameRange, kstackPages] at hjOut
      change s.hhdm + (j + 1) * 4096 ≤ s.kstackTop - kstackSize ∨ s.kstackTop ≤ s.hhdm + j * 4096
      omega
    · rw [htasks t' h] at hk'
      exact hinv.reserved t' k' hk' j hjFree
  · intro t₁ t₂ k₁ k₂ hk₁ hk₂ hne
    by_cases h₁ : t₁ = t
    · rw [h₁, hself, Option.some.injEq] at hk₁
      rw [htasks t₂ (fun h => hne (h₁.trans h.symm))] at hk₂
      subst hk₁
      exact (hnewApart t₂ k₂ hk₂).symm
    · rw [htasks t₁ h₁] at hk₁
      by_cases h₂ : t₂ = t
      · rw [h₂, hself, Option.some.injEq] at hk₂
        subst hk₂
        exact hnewApart t₁ k₁ hk₁
      · rw [htasks t₂ h₂] at hk₂
        exact hinv.apart t₁ t₂ k₁ k₂ hk₁ hk₂ hne
  · exact ⟨kc, (htasks _ hcur_ne).trans hcur, hrunning, hholds⟩
  · intro t' k' hk' hne
    by_cases h : t' = t
    · rw [h, hself, Option.some.injEq] at hk'
      subst hk'
      rw [h]
      exact Ready.spawn (Nat.dvd_add hinv.aligned (Nat.dvd_mul_left _ _)) htop
    · rw [htasks t' h] at hk'
      refine (hinv.ready t' k' hk' hne).congr ?_ fun a ha hah => ?_
      · simp [SwitchState.ktaskSpawn, Core.setField, h]
      · have hlen : 8 * (spawnWords L entry args).length = 72 := rfl
        refine (pushWords_spec (spawnWords L entry args) s.kstackTop s.core.mem (by omega)).2.2 a ?_
        have := hnewApart t' k' hk'
        omega

/-! ## Switching -/

/-- The processor in the middle of `__switch_to`, with the registers of the previous task on its stack. -/
def SwitchState.leaving (L : Linkage) (s : SwitchState) (next ret : ℕ) : Core :=
  { s.core.setField s.current .taskStack (s.core.regs .rsp - 56) with
    mem := savedMem L (s.atSwitch next ret) }

variable {next ret : ℕ}

/-- The call leaves the return address at the stack pointer, and the callee-saved registers as they
were. -/
theorem SwitchState.atSwitch_regs {r : Reg} (h : r ∈ calleeSaved) :
    (s.atSwitch next ret).regs r = s.core.regs r := by
  have hne : r ≠ .rsp ∧ r ≠ .rdi ∧ r ≠ .rsi := by
    refine ⟨?_, ?_, ?_⟩
    all_goals
      rintro rfl
      revert h
      decide
  obtain ⟨hrsp, hrdi, hrsi⟩ := hne
  rw [atSwitch, Core.pushWord_regs _ _ hrsp, Core.setReg_of_ne _ _ hrsi, Core.setReg_of_ne _ _ hrdi]

/-- The call of `__switch_to` pushes a word. -/
theorem SwitchState.atSwitch_rsp : (s.atSwitch next ret).regs .rsp = s.core.regs .rsp - 8 :=
  Core.pushWord_rsp _ _

/-- That word is the return address. -/
theorem SwitchState.atSwitch_mem (a : ℕ) : (s.atSwitch next ret).mem a =
    if a = s.core.regs .rsp - 8 then ret else s.core.mem a := Function.update_apply _ _ _ _

/-- The stack pointer of the next task is the one that it was left with. -/
theorem SwitchState.nextStack_atSwitch :
    nextStack (s.atSwitch next ret) = (s.leaving L next ret).field next .taskStack := by
  have h : s.core.regs .rsp - 8 - 48 = s.core.regs .rsp - 56 := by omega
  rw [nextStack, s.atSwitch_rsp, h]
  rfl

/-- The task that leaves has the return address and six registers on its stack. -/
theorem SwitchState.leaving_stack :
    (s.leaving L next ret).field s.current .taskStack = s.core.regs .rsp - 56 := by
  simp [leaving, Core.setField]

/-- The other stack pointers stay. -/
theorem SwitchState.leaving_stack_of_ne (ht : t ≠ s.current) :
    (s.leaving L next ret).field t .taskStack = s.core.field t .taskStack := by
  simp [leaving, Core.setField, ht]

/-- The words outside the seven below the stack pointer stay as they were. -/
theorem SwitchState.leaving_mem (hroom : 56 ≤ s.core.regs .rsp) {a : ℕ}
    (ha : a < s.core.regs .rsp - 56 ∨ s.core.regs .rsp ≤ a) :
    (s.leaving L next ret).mem a = s.core.mem a := by
  have hsp := @SwitchState.atSwitch_rsp s next ret
  have hother := (@savedMem_spec L (s.atSwitch next ret) (by omega)).2 a (by omega)
  rw [s.atSwitch_mem, if_neg (by omega)] at hother
  exact hother

/-- The seven words are those that a later switch takes. -/
theorem SwitchState.leaving_frame (hroom : 56 ≤ s.core.regs .rsp) :
    SavedFrame (s.leaving L next ret).mem (s.core.regs .rsp - 56) s.core.regs ret := by
  have hsp := @SwitchState.atSwitch_rsp s next ret
  obtain ⟨hsaved, hother⟩ := @savedMem_spec L (s.atSwitch next ret) (by omega)
  rw [hsp] at hsaved hother
  refine ⟨fun i hi => ?_, ?_⟩
  · have hslot : s.core.regs .rsp - 56 + 8 * i = s.core.regs .rsp - 8 - 8 * (5 - i + 1) := by omega
    have hlt : 5 - i < 6 := by omega
    have hrev : calleeSaved.reverse.get ⟨i, hi⟩ = calleeSaved.get ⟨5 - i, hlt⟩ := List.getElem_reverse _
    rw [hslot, hrev, ← s.atSwitch_regs (List.get_mem calleeSaved ⟨5 - i, hlt⟩)]
    exact hsaved (5 - i) hlt
  · have hslot : s.core.regs .rsp - 56 + 48 = s.core.regs .rsp - 8 := by omega
    have hret := hother (s.core.regs .rsp - 8) (.inr le_rfl)
    rw [s.atSwitch_mem, if_pos rfl] at hret
    rw [hslot]
    exact hret

/-- A task that has called `__switch_to` is as ready as the others. -/
theorem SwitchInv.departed (hinv : SwitchInv L s) (hk : s.departed ret t = some k) :
    Ready L (s.leaving L next ret) t k := by
  obtain ⟨kc, hcur, hrunning, hlow, hhigh⟩ := hinv.current
  rw [switchRoom] at hlow
  have hroom : 56 ≤ s.core.regs .rsp := by omega
  by_cases ht : t = s.current
  · subst ht
    rw [SwitchState.departed, Function.update_self, hcur, Option.map_some, Option.some.injEq] at hk
    subst hk
    have hback : s.core.regs .rsp - 56 + 56 = s.core.regs .rsp := by omega
    refine ⟨?_, ?_⟩
    · rw [s.leaving_stack, hback]
      exact ⟨hlow, hhigh⟩
    · rw [s.leaving_stack]
      refine ⟨hback, s.leaving_frame hroom, fun a ha _ => s.leaving_mem hroom (.inr ?_)⟩
      omega
  · rw [SwitchState.departed, Function.update_of_ne ht] at hk
    have hapart := hinv.apart _ _ _ _ hk hcur ht
    refine (hinv.ready t k hk ht).congr (s.leaving_stack_of_ne ht) fun a ha hah => ?_
    exact s.leaving_mem hroom (by omega)

/-- What a switch to a ready task leaves. -/
theorem SwitchInv.exec_switchTo (hinv : SwitchInv L s) (hk : s.departed ret next = some k) :
    let c := (s.switchTo L next ret).core
    let sp := (s.leaving L next ret).field next .taskStack
    c.field = (s.leaving L next ret).field ∧ RunsTask L next c ∧
      (∀ a, a < sp - 24 ∨ sp ≤ a → c.mem a = (s.leaving L next ret).mem a) ∧
      (∀ i (hi : i < 6), c.regs (calleeSaved.reverse.get ⟨i, hi⟩) =
        (s.leaving L next ret).mem (sp + 8 * i)) ∧
      c.rip = (s.leaving L next ret).mem (sp + 48) ∧ c.regs .rsp = sp + 56 := by
  obtain ⟨kc, hcur, hrunning, hlow, hhigh⟩ := hinv.current
  rw [switchRoom] at hlow
  have hready := (@SwitchInv.departed L s next k next ret hinv hk).holds.1
  rw [switchRoom] at hready
  have hnext := @SwitchState.nextStack_atSwitch L s next ret
  have hsp := @SwitchState.atSwitch_rsp s next ret
  obtain ⟨hfield, hruns, hmem, hregs, hrip, hfinal⟩ :=
    @execAll_switchTo L (s.atSwitch next ret) (by omega) (by omega)
  rw [hnext] at hmem hregs hrip hfinal
  refine ⟨hfield.trans ?_, hruns, hmem, hregs, hrip, hfinal⟩
  rw [hsp, show s.core.regs .rsp - 8 - 48 = s.core.regs .rsp - 56 by omega]
  rfl

/-- A ready task that is switched to continues. -/
theorem SwitchInv.continues (hinv : SwitchInv L s) (hk : s.departed ret next = some k) :
    Continues L (s.switchTo L next ret).core k := by
  obtain ⟨-, -, hmem, hregs, hrip, hsp⟩ := hinv.exec_switchTo hk
  obtain ⟨⟨hlow, hhigh⟩, hon⟩ := @SwitchInv.departed L s next k next ret hinv hk
  generalize (s.leaving L next ret).field next .taskStack = sp at *
  generalize (s.switchTo L next ret).core = c at *
  rw [Continues]
  cases hphase : k.phase with
  | fresh entry args =>
    rw [hphase] at hon
    obtain ⟨htop, halign, hframe, hargs, hentry⟩ := hon
    obtain ⟨hrdi, hcall, hpushed, -⟩ := execAll_kforkReturn (L := L) c
    rw [hsp] at hrdi hcall hpushed
    refine ⟨hrip.trans hframe.ret, hcall.trans ((hmem _ (by omega)).trans hentry),
      hrdi.trans ((hmem _ (by omega)).trans hargs), ?_⟩
    rw [hpushed]
    omega
  | running =>
    rw [hphase] at hon
    exact hon
  | waiting ctx =>
    rw [hphase] at hon
    obtain ⟨hback, hframe, hlive⟩ := hon
    refine ⟨hrip.trans hframe.ret, fun r hr => ?_, hsp.trans hback, fun a ha hah => ?_⟩
    · obtain ⟨⟨i, hi⟩, hget⟩ := List.get_of_mem (List.mem_reverse.mpr hr)
      rw [← hget]
      exact (hregs i hi).trans (hframe.saved i hi)
    · exact (hmem a (by omega)).trans (hlive a (by omega) hah)

/-- The tasks keep their stacks when one of them departs. -/
theorem SwitchState.departed_stack (hk : s.departed ret t = some k) :
    ∃ k', s.tasks t = some k' ∧ k'.low = k.low ∧ k'.high = k.high := by
  rw [departed, Function.update_apply] at hk
  split at hk
  · rename_i h
    obtain ⟨k', hk', rfl⟩ := Option.map_eq_some_iff.mp hk
    exact ⟨k', h ▸ hk', rfl, rfl⟩
  · exact ⟨k, hk, rfl, rfl⟩

/-- The next task runs, and the others are as before. -/
theorem SwitchState.switchTo_tasks : (s.switchTo L next ret).tasks t =
    if t = next then (s.departed ret t).map fun k => { k with phase := .running }
    else s.departed ret t := by
  change Function.update (s.departed ret) next _ t = _
  rw [Function.update_apply]
  split
  · next h => rw [h]
  · rfl

/-- The tasks keep their stacks when one of them is switched to. -/
theorem SwitchState.switchTo_stack (hk : (s.switchTo L next ret).tasks t = some k) :
    ∃ k', s.tasks t = some k' ∧ k'.low = k.low ∧ k'.high = k.high := by
  rw [switchTo_tasks] at hk
  split at hk
  · obtain ⟨k', hk', rfl⟩ := Option.map_eq_some_iff.mp hk
    obtain ⟨k₀, hk₀, hlow, hhigh⟩ := SwitchState.departed_stack hk'
    exact ⟨k₀, hk₀, hlow, hhigh⟩
  · exact SwitchState.departed_stack hk

/-- A switch to a task keeps the invariant. -/
theorem SwitchInv.switch (hinv : SwitchInv L s) (hk : s.departed ret next = some k) :
    SwitchInv L (s.switchTo L next ret) := by
  obtain ⟨hfield, -, hmem, -, -, hsp⟩ := hinv.exec_switchTo hk
  have hready := @SwitchInv.departed L s next k next ret hinv hk
  have hroom := hready.holds.1
  rw [switchRoom] at hroom
  refine ⟨hinv.ok, hinv.aligned, ?_, ?_, ⟨{ k with phase := .running }, ?_, rfl, ?_⟩, ?_⟩
  · intro t k' hk'
    obtain ⟨k₀, hk₀, hlow, hhigh⟩ := SwitchState.switchTo_stack hk'
    rw [TaskStack.Reserved, ← hlow, ← hhigh]
    exact hinv.reserved t k₀ hk₀
  · intro t t' k₁ k₂ hk₁ hk₂ hne
    obtain ⟨k₁', hk₁', hlow₁, hhigh₁⟩ := SwitchState.switchTo_stack hk₁
    obtain ⟨k₂', hk₂', hlow₂, hhigh₂⟩ := SwitchState.switchTo_stack hk₂
    have := hinv.apart t t' _ _ hk₁' hk₂' hne
    omega
  · change (s.switchTo L next ret).tasks next = _
    rw [SwitchState.switchTo_tasks, if_pos rfl, hk]
    rfl
  · rw [hsp]
    exact hready.holds
  · intro t k' hk' hne
    -- the three words that were pushed lie on the stack of the task that runs now
    change t ≠ next at hne
    rw [SwitchState.switchTo_tasks, if_neg hne] at hk'
    obtain ⟨k₁, hk₁, hlow₁, hhigh₁⟩ := SwitchState.departed_stack hk
    obtain ⟨k₂, hk₂, hlow₂, hhigh₂⟩ := SwitchState.departed_stack hk'
    have hapart := hinv.apart t next _ _ hk₂ hk₁ hne
    have hhigh := hready.holds.2
    refine (hinv.departed hk').congr (by rw [hfield]) fun a ha hah => hmem a ?_
    omega

/-- Anything else that the current task does keeps the invariant. -/
theorem SwitchInv.work {core : Core} {pages : Pmm} (hinv : SwitchInv L s) (h : Works s core pages) :
    SwitchInv L { s with core := core, pages := pages } := by
  obtain ⟨k, hk, hrunning, -⟩ := hinv.current
  refine ⟨h.ok, hinv.aligned, h.reserved, hinv.apart, ⟨k, hk, hrunning, h.holds k hk⟩, ?_⟩
  intro t k' hk' hne
  exact (hinv.ready t k' hk' hne).congr (h.stack t hne) (h.mem t k' hk' hne)

/-! ## Runs -/

/-- The first task starts with the invariant. -/
theorem StartsOn.inv {low high : ℕ} (h : StartsOn s low high) : SwitchInv L s := by
  have honly : ∀ t k, s.tasks t = some k → t = s.current ∧ k = ⟨low, high, .running⟩ := by
    intro t k hk
    rw [h.tasks, Function.update_apply] at hk
    split at hk
    · exact ⟨‹_›, (Option.some.inj hk).symm⟩
    · cases hk
  refine ⟨h.ok, h.aligned, ?_, ?_, ⟨_, by rw [h.tasks, Function.update_self], rfl, h.holds⟩, ?_⟩
  · intro t k hk
    obtain ⟨-, rfl⟩ := honly t k hk
    exact h.reserved
  · intro t t' k k' hk hk' hne
    exact absurd ((honly t k hk).1.trans (honly t' k' hk').1.symm) hne
  · intro t k hk hne
    exact absurd (honly t k hk).1 hne

/-- The next task of a switch is one of the tasks, also after the current one departed. -/
theorem SwitchState.departed_isSome (h : (s.tasks next).isSome) :
    ∃ k, s.departed ret next = some k := by
  obtain ⟨k, hk⟩ := Option.isSome_iff_exists.mp h
  by_cases hne : next = s.current
  · refine ⟨{ k with phase := .waiting ⟨s.core.regs, ret, s.core.mem⟩ }, ?_⟩
    rw [departed, ← hne, Function.update_self, hk, Option.map_some]
  · exact ⟨k, (Function.update_of_ne hne _ _).trans hk⟩

/-- Every operation keeps the invariant. -/
theorem SwitchInv.exec {op : SwitchOp} (hinv : SwitchInv L s) (hlegal : SwitchLegal s op)
    (hgood : SpawnSucceeds s op) : SwitchInv L (op.exec L s) := by
  cases op with
  | spawn t entry args => exact hinv.spawn (hlegal hgood.1) hgood.2
  | switch next ret =>
    obtain ⟨k, hk⟩ := SwitchState.departed_isSome hlegal
    exact hinv.switch hk
  | work core pages => exact hinv.work hlegal

/-- Every operation does what it is for. -/
theorem SwitchInv.correct {op : SwitchOp} (hinv : SwitchInv L s) (hlegal : SwitchLegal s op) :
    SwitchCorrect L s op := by
  cases op with
  | spawn t entry args => trivial
  | switch next ret =>
    obtain ⟨k, hk⟩ := SwitchState.departed_isSome hlegal
    exact ⟨(hinv.exec_switchTo hk).2.1, k, hk, hinv.continues hk⟩
  | work core pages => trivial

/-- Context switches preserve execution: in a run in which every `ktask_spawn` gets its memory, each task
that is switched to continues where it was, and the processor belongs to it. -/
theorem switchTo_run_preserves {low high : ℕ} (hstart : StartsOn s low high) {ops : List SwitchOp}
    (hops : EveryStep (SwitchOp.exec L) (fun s op => SwitchLegal s op ∧ SpawnSucceeds s op) s ops) :
    EveryStep (SwitchOp.exec L) (SwitchCorrect L) s ops := by
  have hcorrect : ∀ s op, SwitchInv L s → SwitchLegal s op ∧ SpawnSucceeds s op → SwitchCorrect L s op :=
    fun s op hinv hop => hinv.correct hop.1
  have hkeeps : ∀ s op, SwitchInv L s → SwitchLegal s op ∧ SpawnSucceeds s op →
      SwitchInv L (op.exec L s) := fun s op hinv hop => hinv.exec hop.1 hop.2
  exact hops.of_inv hcorrect hkeeps hstart.inv

/-- The per-CPU words one behind the other. -/
def flatLinkage : Linkage where
  percpuStart := 0
  symbolOffset
    | .currentTask => 0
    | .tssRsp0 => 12
    | .preemptCount => 8
  kforkReturn := 0xf0
  afterSwitchPt := 0xf1
  afterEntry := 0xf2
  scratch _ _ := 0
  apart w w' := by cases w <;> cases w' <;> decide

/-- A processor on the stack of the boot loader. -/
def bootCore : Core where
  regs r := if r = .rsp then 0x8000 else 0
  mem _ := 0
  field _ _ := 0
  percpu _ := 0
  cr3 := 0
  interrupts := true
  rip := 0

/-- The first task, which nothing was spawned after. -/
def bootTasks (pages : Pmm) : SwitchState where
  core := bootCore
  pages := pages
  hhdm := hhdmOffset
  kernelVmMap := 0x20
  current := 0x10
  tasks := Function.update (fun _ => none) 0x10 (some ⟨0x6000, 0x8000, .running⟩)

/-- The first task runs on the stack of the boot loader. -/
theorem bootTasks_startsOn {pages : Pmm} (h : pages.Ok) : StartsOn (bootTasks pages) 0x6000 0x8000 := by
  have haligned : 4096 ∣ hhdmOffset := by decide
  have hholds : TaskStack.Holds ⟨0x6000, 0x8000, .running⟩ 0x8000 := ⟨by decide, by decide⟩
  have hbelow : 0x8000 ≤ hhdmOffset := by decide
  exact ⟨h, haligned, rfl, hholds, fun i _ => .inr (hbelow.trans (Nat.le_add_right _ _))⟩

/-- On the larger map a task is spawned and switched to, and both tasks resume. -/
theorem switchTo_run_preserves_sixteenFrameMap :
    ∃ pages, initBitmapPmm sixteenFrameMap (fun _ => 0#8) = some pages ∧
      EveryStep (SwitchOp.exec flatLinkage) (SwitchCorrect flatLinkage) (bootTasks pages)
        [.spawn 0x100 7 9, .switch 0x100 11, .switch 0x10 12, .switch 0x100 13] := by
  obtain ⟨pages, hinit⟩ := initBitmapPmm_isSome sixteenFrameMap_bootable (fun _ => 0#8)
  have hframes : ((initBitmapPmm sixteenFrameMap (fun _ => 0#8)).map fun pages =>
      decide ((pmmAllocPages pages kstackPages).1 = 0)) = some false := by decide +kernel
  rw [hinit, Option.map_some, Option.some.injEq, decide_eq_false_iff_not] at hframes
  refine ⟨pages, hinit, switchTo_run_preserves
    (bootTasks_startsOn (Pmm.Ok.of_init sixteenFrameMap_bootable hinit)) ?_⟩
  exact ⟨⟨fun _ => rfl, by decide, hframes⟩, ⟨rfl, trivial⟩, ⟨rfl, trivial⟩, ⟨rfl, trivial⟩, trivial⟩

/-- All frames are taken, one after the other. -/
def takeAllFrames (pages : Pmm) : Pmm := (fun pages => (pmmAllocPage pages).2)^[16] pages

/-- Taking every frame keeps the frame manager in order. -/
theorem takeAllFrames_ok {pages : Pmm} (h : pages.Ok) : (takeAllFrames pages).Ok := by
  rw [takeAllFrames]
  generalize 16 = n
  induction n generalizing pages with
  | zero => exact h
  | succ n ih => exact ih (pmmSource_lawful.allocPage_ok _ h)

/-- Taking frames is work of the first task. -/
theorem bootTasks_works {pages taken : Pmm} (h : taken.Ok) : Works (bootTasks pages) bootCore taken := by
  have hinv : SwitchInv flatLinkage (bootTasks taken) := (bootTasks_startsOn h).inv
  refine ⟨h, hinv.reserved, fun k hk => ?_, fun _ _ => rfl, fun _ _ _ _ _ _ _ => rfl⟩
  obtain ⟨k', hk', -, hholds⟩ := hinv.current
  have heq : k' = k := Option.some.inj (hk'.symm.trans hk)
  exact heq ▸ hholds

/-- With all frames taken, two tasks are spawned on one stack, and the first one calls the entry of the
second. -/
theorem switchTo_run_sharesStack :
    ∃ pages, initBitmapPmm sixteenFrameMap (fun _ => 0#8) = some pages ∧
      ∃ ops, EveryStep (SwitchOp.exec flatLinkage) SwitchLegal (bootTasks pages) ops ∧
        ¬ EveryStep (SwitchOp.exec flatLinkage) (SwitchCorrect flatLinkage) (bootTasks pages) ops := by
  obtain ⟨pages, hinit⟩ := initBitmapPmm_isSome sixteenFrameMap_bootable (fun _ => 0#8)
  have hentry : ((initBitmapPmm sixteenFrameMap (fun _ => 0#8)).map fun pages =>
      (execAll flatLinkage Cpu.kforkReturn ([.work bootCore (takeAllFrames pages), .spawn 0x100 7 9,
        .spawn 0x200 8 9, .switch 0x100 11].foldl (SwitchOp.exec flatLinkage)
          (bootTasks pages)).core).rip) = some 8 := by decide +kernel
  rw [hinit, Option.map_some, Option.some.injEq] at hentry
  refine ⟨pages, hinit, [.work bootCore (takeAllFrames pages), .spawn 0x100 7 9, .spawn 0x200 8 9,
    .switch 0x100 11], ⟨bootTasks_works (takeAllFrames_ok ?_), fun _ => rfl, fun _ => rfl, rfl, trivial⟩, ?_⟩
  · exact Pmm.Ok.of_init sixteenFrameMap_bootable hinit
  rintro ⟨-, -, -, ⟨-, k, hk, hcontinues⟩, -⟩
  obtain ⟨low, high, hk'⟩ : ∃ low high, k = ⟨low, high, .fresh 7 9⟩ := ⟨_, _, (Option.some.inj hk).symm⟩
  rw [hk', Continues] at hcontinues
  exact absurd (hentry.symm.trans hcontinues.2.1) (by decide)

end Flos.Sched
