import Flos.Mm.PmmRuns

/-!
# The frame manager behind its interface

The slab and heap code calls the four frame routines and relies on little of them: a
successful allocation returns frames that were not in use, and freeing takes them out of use
again. The heap code is stated over any state type with these routines; the frame manager of
this kernel satisfies the laws.
-/

namespace Flos.Mm

/-- `pmm_alloc_page`, `pmm_alloc_pages`, `pmm_free_page` and `pmm_free_pages` on a state. -/
structure PageSource (P : Type*) where
  allocPage : P → ℕ × P
  allocPages : P → ℕ → ℕ × P
  freePage : P → ℕ → P
  freePages : P → ℕ → ℕ → P

/-- The physical addresses of `n` frames from `phys` on. -/
def frameAddrs (phys n : ℕ) : Set ℕ := {f | ∃ i < n, f = phys + i * 4096}

/-- The laws of `pmm_alloc_page`; `inUse` are the addresses of the frames that may not be handed
out, and all frames lie below `limit`. -/
structure PageSource.LawfulPage {P : Type*} (F : PageSource P) (Ok : P → Prop)
    (inUse : P → Set ℕ) (limit : ℕ) : Prop where
  allocPage_ok : ∀ p, Ok p → Ok (F.allocPage p).2
  allocPage_fail : ∀ p, Ok p → (F.allocPage p).1 = 0 → inUse (F.allocPage p).2 = inUse p
  allocPage_fresh : ∀ p, Ok p → (F.allocPage p).1 ≠ 0 → (F.allocPage p).1 ∉ inUse p
  allocPage_inUse : ∀ p, Ok p → (F.allocPage p).1 ≠ 0 →
    inUse (F.allocPage p).2 = insert (F.allocPage p).1 (inUse p)
  allocPage_addr : ∀ p, Ok p → 4096 ∣ (F.allocPage p).1 ∧ (F.allocPage p).1 + 4096 ≤ limit

/-- The laws of all four frame routines. -/
structure PageSource.Lawful {P : Type*} (F : PageSource P) (Ok : P → Prop) (inUse : P → Set ℕ)
    (limit : ℕ) : Prop extends F.LawfulPage Ok inUse limit where
  allocPages_ok : ∀ p n, Ok p → 0 < n → Ok (F.allocPages p n).2
  allocPages_fail : ∀ p n, Ok p → 0 < n → (F.allocPages p n).1 = 0 →
    inUse (F.allocPages p n).2 = inUse p
  allocPages_fresh : ∀ p n, Ok p → 0 < n → (F.allocPages p n).1 ≠ 0 →
    Disjoint (frameAddrs (F.allocPages p n).1 n) (inUse p)
  allocPages_inUse : ∀ p n, Ok p → 0 < n → (F.allocPages p n).1 ≠ 0 →
    inUse (F.allocPages p n).2 = frameAddrs (F.allocPages p n).1 n ∪ inUse p
  allocPages_addr : ∀ p n, Ok p → 0 < n → (F.allocPages p n).1 ≠ 0 →
    4096 ∣ (F.allocPages p n).1 ∧ (F.allocPages p n).1 + n * 4096 ≤ limit
  freePage_ok : ∀ p f, Ok p → f ∈ inUse p → Ok (F.freePage p f)
  freePage_inUse : ∀ p f, Ok p → f ∈ inUse p → inUse (F.freePage p f) = inUse p \ {f}
  freePages_ok : ∀ p f n, Ok p → 0 < n → frameAddrs f n ⊆ inUse p → Ok (F.freePages p f n)
  freePages_inUse : ∀ p f n, Ok p → 0 < n → frameAddrs f n ⊆ inUse p →
    inUse (F.freePages p f n) = inUse p \ frameAddrs f n

/-- The frame manager of the kernel. -/
def pmmSource : PageSource Pmm where
  allocPage := pmmAllocPage
  allocPages := pmmAllocPages
  freePage := pmmFreePage
  freePages := pmmFreePages

/-- A state in which the frame manager works: few enough frames, a cursor in range, and frame 0
not free. -/
structure Pmm.Ok (s : Pmm) : Prop where
  small : s.totalPages < 2 ^ 31
  cursor : s.cachedIndex ≤ s.totalPages
  zero : ¬ s.Free 0

/-- The addresses of the managed frames, other than frame 0, that are marked used. -/
def Pmm.inUse (s : Pmm) : Set ℕ :=
  {f | 4096 ∣ f ∧ f ≠ 0 ∧ f / 4096 < s.totalPages ∧ ¬ s.Free (f / 4096)}

/-- Membership among the used frames, by frame number. -/
theorem Pmm.mem_inUse {s : Pmm} {f : ℕ} :
    f ∈ s.inUse ↔ 4096 ∣ f ∧ f ≠ 0 ∧ f / 4096 < s.totalPages ∧ f / 4096 ∉ s.freeSet := Iff.rfl

/-- Taking frames out of the free set puts them in use. -/
theorem Pmm.inUse_of_sdiff {s t : Pmm} {taken : Set ℕ} (htotal : t.totalPages = s.totalPages)
    (h : t.freeSet = s.freeSet \ taken) :
    t.inUse = {f | 4096 ∣ f ∧ f ≠ 0 ∧ f / 4096 < s.totalPages ∧ f / 4096 ∈ taken} ∪ s.inUse := by
  ext f
  simp only [Set.mem_union, Set.mem_ofPred_eq, Pmm.mem_inUse, h, htotal, Set.mem_sdiff]
  by_cases htaken : f / 4096 ∈ taken
  · simp only [htaken, and_true, not_true, and_false]
    tauto
  · simp [htaken]

/-- Adding frames to the free set takes them out of use. -/
theorem Pmm.inUse_of_union {s t : Pmm} {given : Set ℕ} (htotal : t.totalPages = s.totalPages)
    (h : t.freeSet = s.freeSet ∪ given) : t.inUse = s.inUse \ {f | f / 4096 ∈ given} := by
  ext f
  simp only [Set.mem_sdiff, Set.mem_ofPred_eq, Pmm.mem_inUse, h, htotal, Set.mem_union]
  by_cases hgiven : f / 4096 ∈ given <;> simp [hgiven]

/-- A state whose cursor is in range stays so, and keeps its size, under every routine. -/
theorem Pmm.Ok.exec {s : Pmm} (h : s.Ok) (op : PmmOp) (hzero : ¬ (op.exec s).2.Free 0) :
    (op.exec s).2.Ok := by
  obtain ⟨hlayout, hcursor⟩ := op.exec_layout s h.cursor
  exact ⟨hlayout.totalPages ▸ h.small, hlayout.totalPages ▸ hcursor, hzero⟩

/-- What `pmm_alloc_page` takes from a working state. -/
theorem Pmm.Ok.allocPage {s : Pmm} (h : s.Ok) :
    (∃ i, s.Free i ∧ i ≠ 0 ∧ (pmmAllocPage s).1 = i * 4096 ∧
      (pmmAllocPage s).2.freeSet = s.freeSet \ {i}) ∨ pmmAllocPage s = (0, s) := by
  rcases pmmAllocPage_cases h.cursor with ⟨i, hfree, heq⟩ | ⟨_, heq⟩
  · refine .inl ⟨i, hfree, ?_, by rw [heq], ?_⟩
    · rintro rfl
      exact h.zero hfree
    · rw [heq]
      exact takeFrame_freeSet h.small (hfree.1.trans h.small)
  · exact .inr heq

/-- What `pmm_alloc_pages` takes from a working state. -/
theorem Pmm.Ok.allocPages {s : Pmm} (h : s.Ok) {n : ℕ} (hn : 0 < n) :
    (∃ i, s.FreeRange i n ∧ i ≠ 0 ∧ i + n ≤ s.totalPages ∧ (pmmAllocPages s n).1 = i * 4096 ∧
      (pmmAllocPages s n).2.freeSet = s.freeSet \ frameRange i n) ∨
    pmmAllocPages s n = (0, s) := by
  rcases pmmAllocPages_cases h.small hn h.cursor with ⟨i, _, hhigh, hrange, haddr, hset, _⟩ | ⟨_, heq⟩
  · refine .inl ⟨i, hrange, ?_, hhigh, haddr, hset⟩
    rintro rfl
    exact h.zero (hrange 0 ⟨le_rfl, by omega⟩)
  · exact .inr heq

/-- A frame address by the number of the frame. -/
theorem mem_frameAddrs {i n f : ℕ} :
    f ∈ frameAddrs (i * 4096) n ↔ 4096 ∣ f ∧ f / 4096 ∈ frameRange i n := by
  simp only [frameAddrs, Set.mem_ofPred_eq, mem_frameRange]
  constructor
  · rintro ⟨k, hk, rfl⟩
    omega
  · rintro ⟨hdvd, hlow, hhigh⟩
    exact ⟨f / 4096 - i, by omega, by omega⟩

/-- Frames in use can be given back. -/
theorem Pmm.Ok.freePages {s : Pmm} (h : s.Ok) {f n : ℕ} (hn : 0 < n)
    (hused : frameAddrs f n ⊆ s.inUse) :
    4096 ∣ f ∧ f ≠ 0 ∧ (pmmFreePages s f n).freeSet = s.freeSet ∪ frameRange (f / 4096) n := by
  obtain ⟨hdvd, hne, -, -⟩ := hused (a := f) ⟨0, hn, by omega⟩
  obtain ⟨-, -, hlast, -⟩ := hused ⟨n - 1, by omega, rfl⟩
  exact ⟨hdvd, hne, pmmFreePages_freeSet h.small (by omega)⟩

/-- The frame manager satisfies the laws. -/
theorem pmmSource_lawful : pmmSource.Lawful Pmm.Ok Pmm.inUse (2 ^ 43) where
  allocPage_ok s h := by
    refine h.exec .allocPage ?_
    rcases h.allocPage with ⟨i, -, -, -, hset⟩ | heq
    · change (0 : ℕ) ∉ (pmmAllocPage s).2.freeSet
      rw [hset]
      exact fun hz => h.zero hz.1
    · change ¬ (pmmAllocPage s).2.Free 0
      rw [heq]
      exact h.zero
  allocPage_fail s h hfail := by
    rcases h.allocPage with ⟨i, -, hi, haddr, -⟩ | heq
    · simp only [pmmSource, haddr] at hfail
      omega
    · simp only [pmmSource, heq]
  allocPage_fresh s h hsome := by
    rcases h.allocPage with ⟨i, hfree, -, haddr, -⟩ | heq
    · simp only [pmmSource, haddr, Pmm.mem_inUse, Nat.mul_div_cancel i (show 0 < 4096 by decide)]
      exact fun hused => hused.2.2.2 hfree
    · simp [pmmSource, heq] at hsome
  allocPage_inUse s h hsome := by
    rcases h.allocPage with ⟨i, hfree, hi, haddr, hset⟩ | heq
    · simp only [pmmSource, haddr]
      rw [Pmm.inUse_of_sdiff (pmmAllocPage_layout s).totalPages hset, Set.insert_eq]
      congr 1
      ext f
      have := hfree.1
      simp only [Set.mem_ofPred_eq, Set.mem_singleton_iff]
      omega
    · simp [pmmSource, heq] at hsome
  allocPage_addr s h := by
    rcases h.allocPage with ⟨i, hfree, -, haddr, -⟩ | heq
    · have := hfree.1
      have := h.small
      simp only [pmmSource, haddr]
      omega
    · simp [pmmSource, heq]
  allocPages_ok s n h hn := by
    refine h.exec (.allocPages n) ?_
    rcases h.allocPages hn with ⟨i, -, -, -, -, hset⟩ | heq
    · change (0 : ℕ) ∉ (pmmAllocPages s n).2.freeSet
      rw [hset]
      exact fun hz => h.zero hz.1
    · change ¬ (pmmAllocPages s n).2.Free 0
      rw [heq]
      exact h.zero
  allocPages_fail s n h hn hfail := by
    rcases h.allocPages hn with ⟨i, -, hi, -, haddr, -⟩ | heq
    · simp only [pmmSource, haddr] at hfail
      omega
    · simp only [pmmSource, heq]
  allocPages_fresh s n h hn hsome := by
    rcases h.allocPages hn with ⟨i, hrange, -, -, haddr, -⟩ | heq
    · simp only [pmmSource, haddr]
      refine Set.disjoint_left.mpr fun f hf hused => ?_
      exact hused.2.2.2 (hrange _ (mem_frameAddrs.mp hf).2)
    · simp [pmmSource, heq] at hsome
  allocPages_inUse s n h hn hsome := by
    rcases h.allocPages hn with ⟨i, -, hi, hhigh, haddr, hset⟩ | heq
    · simp only [pmmSource, haddr]
      rw [Pmm.inUse_of_sdiff (pmmAllocPages_layout s n).totalPages hset]
      congr 1
      ext f
      simp only [Set.mem_ofPred_eq, mem_frameAddrs, mem_frameRange]
      omega
    · simp [pmmSource, heq] at hsome
  allocPages_addr s n h hn hsome := by
    rcases h.allocPages hn with ⟨i, -, -, hhigh, haddr, -⟩ | heq
    · have := h.small
      simp only [pmmSource, haddr]
      omega
    · simp [pmmSource, heq] at hsome
  freePage_ok s f h hused := by
    refine h.exec (.freePage f) ?_
    change (0 : ℕ) ∉ (pmmFreePage s f).freeSet
    rw [pmmFreePage_freeSet h.small]
    rintro (hz | ⟨hz, -⟩)
    · exact h.zero hz
    · have := hused.1
      have := hused.2.1
      omega
  freePage_inUse s f h hused := by
    simp only [pmmSource]
    rw [Pmm.inUse_of_union (pmmFreePage_layout s f).1.totalPages (pmmFreePage_freeSet h.small f)]
    ext g
    simp only [Set.mem_sdiff, Set.mem_ofPred_eq, Set.mem_singleton_iff, Pmm.mem_inUse]
    refine and_congr_right fun hg => ?_
    have := hused.1
    obtain ⟨hdvd, -, hlt, -⟩ := hg
    omega
  freePages_ok s f n h hn hused := by
    obtain ⟨hdvd, hne, hset⟩ := h.freePages hn hused
    refine h.exec (.freePages f n) ?_
    change (0 : ℕ) ∉ (pmmFreePages s f n).freeSet
    rw [hset]
    rintro (hz | hz)
    · exact h.zero hz
    · have := hz.1
      omega
  freePages_inUse s f n h hn hused := by
    obtain ⟨hdvd, -, hset⟩ := h.freePages hn hused
    obtain ⟨i, rfl⟩ := hdvd
    simp only [pmmSource]
    rw [Pmm.inUse_of_union (pmmFreePages_layout s _ n).1.totalPages hset, Nat.mul_comm 4096 i]
    ext g
    simp only [Set.mem_sdiff, Set.mem_ofPred_eq, mem_frameAddrs, Pmm.mem_inUse,
      Nat.mul_div_cancel i (show 0 < 4096 by decide)]
    tauto

/-- The state left by initialisation works. -/
theorem Pmm.Ok.of_init {m : MemoryMap} (hm : m.Bootable) {mem : ℤ → BitVec 8} {s : Pmm}
    (hinit : initBitmapPmm m mem = some s) : s.Ok := by
  have hinv := pmmInv_init hm hinit
  exact ⟨hinv.small, hinv.cursor, hinv.zero⟩

end Flos.Mm
