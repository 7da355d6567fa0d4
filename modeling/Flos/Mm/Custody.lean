import Flos.Mm.Holding

/-!
# Custody of resources

A part of the kernel works with what it holds while the rest, which belongs to others, stays in use
and keeps its contents. Failed allocations do not matter here, and something held may be forgotten:
it then stays in use for good.
-/

namespace Flos.Mm

variable {S : Type*}

/-- A resource is in use. -/
def Live (frames : S → Set ℕ) (objects : CacheName → S → Set ℕ) (a : S) : Resource → Prop
  | .frame f => f ∈ frames a
  | .object c o => o ∈ objects c a

/-- What is held is in use, once each, and apart from the rest, which is in use with its frames as
in `mem`; so is the upper half of the fixed frames. -/
structure Custody (Ok : S → Prop) (frames : S → Set ℕ) (objects : CacheName → S → Set ℕ)
    (rest : Set Resource) (fixed : Set ℕ) (mem : ℕ → Fin 512 → ℕ) (s : Machine S)
    (held : List Resource) : Prop where
  ok : Ok s.alloc
  nodup : held.Nodup
  live : ∀ r ∈ held, Live frames objects s.alloc r
  addr : ∀ f, .frame f ∈ held → f ≠ 0 ∧ 4096 ∣ f ∧ f < 2 ^ 52
  restLive : ∀ r ∈ rest, Live frames objects s.alloc r
  apart : ∀ r ∈ rest, r ∉ held
  restMem : ∀ f, .frame f ∈ rest → s.mem f = mem f
  fixedMem : ∀ f ∈ fixed, ∀ i : Fin 512, 256 ≤ i.val → s.mem f i = mem f i

namespace Custody

variable {A : KernelAlloc S} {Ok : S → Prop} {frames : S → Set ℕ}
  {objects : CacheName → S → Set ℕ} {rest : Set Resource} {fixed : Set ℕ}
  {mem : ℕ → Fin 512 → ℕ} {s s' : Machine S} {held : List Resource} {r : Resource}

/-- The order does not matter. -/
theorem perm {held' : List Resource} (h : Custody Ok frames objects rest fixed mem s held)
    (hperm : held.Perm held') : Custody Ok frames objects rest fixed mem s held' :=
  ⟨h.ok, hperm.nodup_iff.mp h.nodup, fun r hr => h.live r (hperm.mem_iff.mpr hr),
    fun f hf => h.addr f (hperm.mem_iff.mpr hf), h.restLive,
    fun r hr hmem => h.apart r hr (hperm.mem_iff.mpr hmem), h.restMem, h.fixedMem⟩

/-- Something new is held. -/
theorem take (h : Custody Ok frames objects rest fixed mem s held) (hok : Ok s'.alloc)
    (hmem : s'.mem = s.mem) (hnew : ¬ Live frames objects s.alloc r)
    (hlive : ∀ r', Live frames objects s'.alloc r' ↔ r' = r ∨ Live frames objects s.alloc r')
    (haddr : ∀ f, r = .frame f → f ≠ 0 ∧ 4096 ∣ f ∧ f < 2 ^ 52) :
    Custody Ok frames objects rest fixed mem s' (r :: held) := by
  refine ⟨hok, List.nodup_cons.mpr ⟨fun hmem => hnew (h.live r hmem), h.nodup⟩, ?_, ?_,
    fun r' hr' => (hlive r').mpr (.inr (h.restLive r' hr')), ?_, hmem ▸ h.restMem, hmem ▸ h.fixedMem⟩
  · intro r' hr'
    rw [hlive]
    exact (List.mem_cons.mp hr').imp_right (h.live r')
  · intro f hf
    rcases List.mem_cons.mp hf with heq | hf
    · exact haddr f heq.symm
    · exact h.addr f hf
  · intro r' hr' hmem
    rcases List.mem_cons.mp hmem with rfl | hmem
    · exact hnew (h.restLive r' hr')
    · exact h.apart r' hr' hmem

/-- Nothing is taken. -/
theorem keep (h : Custody Ok frames objects rest fixed mem s held) (hok : Ok s'.alloc)
    (hmem : s'.mem = s.mem)
    (hlive : ∀ r', Live frames objects s'.alloc r' ↔ Live frames objects s.alloc r') :
    Custody Ok frames objects rest fixed mem s' held :=
  ⟨hok, h.nodup, fun r hr => (hlive r).mpr (h.live r hr), h.addr,
    fun r hr => (hlive r).mpr (h.restLive r hr), h.apart, hmem ▸ h.restMem, hmem ▸ h.fixedMem⟩

/-- Something held is given back. -/
theorem give (h : Custody Ok frames objects rest fixed mem s (r :: held)) (hok : Ok s'.alloc)
    (hmem : s'.mem = s.mem)
    (hlive : ∀ r', Live frames objects s'.alloc r' ↔ Live frames objects s.alloc r' ∧ r' ≠ r) :
    Custody Ok frames objects rest fixed mem s' held := by
  obtain ⟨hout, hnodup⟩ := List.nodup_cons.mp h.nodup
  refine ⟨hok, hnodup, fun r' hr' => (hlive r').mpr ⟨h.live r' (List.mem_cons_of_mem _ hr'), ?_⟩,
    fun f hf => h.addr f (List.mem_cons_of_mem _ hf),
    fun r' hr' => (hlive r').mpr ⟨h.restLive r' hr', ?_⟩,
    fun r' hr' hmem => h.apart r' hr' (List.mem_cons_of_mem _ hmem), hmem ▸ h.restMem,
    hmem ▸ h.fixedMem⟩
  · rintro rfl
    exact hout hr'
  · rintro rfl
    exact h.apart r' hr' List.mem_cons_self

/-- What is held need not be kept in mind, nor all of the rest, and the contents of the rest can be
taken down afresh, with other frames fixed. -/
theorem restart {others : List Resource} {rest' : Set Resource} (fixed' : Set ℕ)
    (h : Custody Ok frames objects rest fixed mem s (held ++ others)) (hrest : rest' ⊆ rest) :
    Custody Ok frames objects rest' fixed' s.mem s held :=
  ⟨h.ok, (List.nodup_append.mp h.nodup).1, fun r hr => h.live r (List.mem_append_left _ hr),
    fun f hf => h.addr f (List.mem_append_left _ hf), fun r hr => h.restLive r (hrest hr),
    fun r hr hmem => h.apart r (hrest hr) (List.mem_append_left _ hmem), fun _ _ => rfl,
    fun _ _ _ _ => rfl⟩

end Custody

/-- Custody is a discipline of holding resources that failed allocations do not disturb. -/
theorem custody_holding {A : KernelAlloc S} {Ok : S → Prop} {frames : S → Set ℕ}
    {objects : CacheName → S → Set ℕ} (hA : A.Lawful Ok frames objects) (rest : Set Resource)
    (fixed : Set ℕ) (mem : ℕ → Fin 512 → ℕ) :
    Holding A (Custody Ok frames objects rest fixed mem) (fun _ => True) ∅ ∅ fixed where
  perm h := h.perm
  frames_nodup h := by
    refine h.nodup.filterMap ?_
    intro r r' f hf hf'
    cases r <;> cases r' <;> simp_all
  frame_addr h hf := by
    obtain ⟨hne, hdvd, hlt⟩ := h.addr _ hf
    exact ⟨hne, hdvd, hlt, Set.notMem_empty _⟩
  node_addr _ _ := Set.notMem_empty _
  write {s held f mem'} h hf hother hupper := by
    refine ⟨h.ok, h.nodup, h.live, h.addr, h.restLive, h.apart, fun g hg => ?_, fun g hg i hi => ?_⟩
    · refine (hother g ?_).trans (h.restMem g hg)
      rintro rfl
      exact h.apart _ hg hf
    · by_cases hgf : g = f
      · subst hgf
        exact (hupper hg i hi).trans (h.fixedMem g hg i hi)
      · exact (congrFun (hother g hgf) i).trans (h.fixedMem g hg i hi)
  allocPage {s held} h hsome := by
    have hframes := hA.allocPage_frames _ h.ok hsome
    refine h.take (hA.allocPage_ok _ h.ok) rfl (hA.allocPage_fresh _ h.ok hsome) ?_ ?_
    · rintro (f | ⟨c, o⟩)
      · simp only [Live, Machine.allocPage, hframes, Set.mem_insert_iff, Resource.frame.injEq]
      · simp only [Live, Machine.allocPage, hA.allocPage_objects _ c h.ok]
        simp
    · rintro f ⟨⟩
      exact ⟨hsome, hA.allocPage_addr _ h.ok⟩
  allocPage_fail {s held} h hfail _ := by
    have hframes := hA.allocPage_fail _ h.ok hfail
    refine h.keep (hA.allocPage_ok _ h.ok) rfl ?_
    rintro (f | ⟨c, o⟩)
    · simp only [Live, Machine.allocPage, hframes]
    · simp only [Live, Machine.allocPage, hA.allocPage_objects _ c h.ok]
  freePage {s f held} h := by
    have hf : f ∈ frames s.alloc := h.live _ List.mem_cons_self
    refine h.give (hA.freePage_ok _ _ h.ok hf) rfl ?_
    rintro (g | ⟨c, o⟩)
    · simp only [Live, Machine.freePage, hA.freePage_frames _ _ h.ok hf]
      simp
    · simp only [Live, Machine.freePage, hA.freePage_objects _ _ c h.ok hf]
      simp
  cacheAlloc {s c held} h hsome := by
    refine h.take (hA.cacheAlloc_ok _ _ h.ok) rfl (hA.cacheAlloc_fresh _ _ h.ok hsome) ?_ (by simp)
    rintro (f | ⟨d, o⟩)
    · simp only [Live, Machine.cacheAlloc, hA.cacheAlloc_frames _ _ h.ok]
      simp
    · by_cases hdc : d = c
      · subst hdc
        simp only [Live, Machine.cacheAlloc, hA.cacheAlloc_objects _ _ h.ok hsome]
        simp
      · simp only [Live, Machine.cacheAlloc, hA.cacheAlloc_other _ _ _ h.ok hdc]
        simp [hdc]
  cacheAlloc_fail {s c held} h hfail _ := by
    refine h.keep (hA.cacheAlloc_ok _ _ h.ok) rfl ?_
    rintro (f | ⟨d, o⟩)
    · simp only [Live, Machine.cacheAlloc, hA.cacheAlloc_frames _ _ h.ok]
    · by_cases hdc : d = c
      · subst hdc
        simp only [Live, Machine.cacheAlloc, hA.cacheAlloc_fail _ _ h.ok hfail]
      · simp only [Live, Machine.cacheAlloc, hA.cacheAlloc_other _ _ _ h.ok hdc]
  cacheFree {s c a held} h := by
    have ha : a ∈ objects c s.alloc := h.live _ List.mem_cons_self
    refine h.give (hA.cacheFree_ok _ _ _ h.ok ha) rfl ?_
    rintro (f | ⟨d, o⟩)
    · simp only [Live, Machine.cacheFree, hA.cacheFree_frames _ _ _ h.ok ha]
      simp
    · by_cases hdc : d = c
      · subst hdc
        simp only [Live, Machine.cacheFree, hA.cacheFree_objects _ _ _ h.ok ha]
        simp
      · simp only [Live, Machine.cacheFree, hA.cacheFree_other _ _ _ _ h.ok ha hdc]
        simp [hdc]
  good_of_isPrefix _ _ := trivial

end Flos.Mm
