import Flos.Mm.Holding

/-!
# Accounts of frames alone

Which frames a part of the kernel took from the frame manager since some moment and has not given
back, whatever happens to the objects of the slab caches. Beside them there are frames that are
nobody's to take: as long as each frame given back was taken, those stay out of circulation.
-/

namespace Flos.Mm

open Flos.Lib

variable {S : Type*}

/-- The laws of the allocators as far as frames go. `used` are the frames that the frame manager
would not hand out; a freed object may be any address. -/
structure KernelAlloc.LawfulFrames (A : KernelAlloc S) (Ok : S → Prop) (used : S → Set ℕ) :
    Prop where
  allocPage_ok : ∀ s, Ok s → Ok (A.allocPage s).2
  allocPage_used : ∀ s, Ok s → used s ⊆ used (A.allocPage s).2
  allocPage_fresh : ∀ s, Ok s → (A.allocPage s).1 ≠ 0 → (A.allocPage s).1 ∉ used s
  allocPage_taken : ∀ s, Ok s → (A.allocPage s).1 ≠ 0 → (A.allocPage s).1 ∈ used (A.allocPage s).2
  allocPage_addr : ∀ s, Ok s → 4096 ∣ (A.allocPage s).1 ∧ (A.allocPage s).1 < 2 ^ 52
  freePage_ok : ∀ s f, Ok s → f ∈ used s → f ≠ 0 → Ok (A.freePage s f)
  freePage_used : ∀ s f, Ok s → f ∈ used s → used s \ {f} ⊆ used (A.freePage s f)
  cacheAlloc_ok : ∀ s c, Ok s → Ok (A.cacheAlloc c s).2
  cacheAlloc_used : ∀ s c, Ok s → used s ⊆ used (A.cacheAlloc c s).2
  cacheFree_ok : ∀ s c a, Ok s → Ok (A.cacheFree c s a)
  cacheFree_used : ∀ s c a, Ok s → used s ⊆ used (A.cacheFree c s a)

/-- The entry of a call in the accounts of frames; a failed allocation has none. -/
def MemEvent.frameEntry : MemEvent → Option (LedgerEvent ℕ)
  | .allocFrame phys => if phys = 0 then none else some (.acquire phys)
  | .freeFrame phys => some (.release phys)
  | _ => none

/-- The frames taken and not given back since the log had `n` entries. -/
def Machine.frameBook (s : Machine S) (n : ℕ) : Option (List ℕ) := s.book MemEvent.frameEntry n

/-- The held frames are those taken and not given back; they, and the frames that are nobody's to
take, are not handed out. -/
structure FrameAccounts (Ok : S → Prop) (used : S → Set ℕ) (foreign : Set ℕ) (n : ℕ) (s : Machine S)
    (held : List Resource) : Prop where
  ok : Ok s.alloc
  grown : n ≤ s.log.length
  book : ∃ out, s.frameBook n = some out ∧ out.Perm (heldFrames held)
  taken : ∀ f ∈ heldFrames held, f ∈ used s.alloc ∧ f ≠ 0 ∧ 4096 ∣ f ∧ f < 2 ^ 52 ∧ f ∉ foreign
  foreign : ∀ f ∈ foreign, f ∈ used s.alloc

/-- A call extends the frames' book by its entry. -/
theorem Machine.frameBook_append {s s' : Machine S} {n : ℕ} {e : MemEvent} (hn : n ≤ s.log.length)
    (hlog : s'.log = s.log ++ [e]) :
    s'.frameBook n = (s.frameBook n).bind fun out => settle e.frameEntry.toList out :=
  Machine.book_append hn hlog

namespace FrameAccounts

variable {A : KernelAlloc S} {Ok : S → Prop} {used : S → Set ℕ} {foreign : Set ℕ} {n : ℕ}
  {s s' : Machine S} {held : List Resource} {e : MemEvent}

/-- The accounts at the start. -/
theorem start (hok : Ok s.alloc) (hforeign : ∀ f ∈ foreign, f ∈ used s.alloc) :
    FrameAccounts Ok used foreign s.log.length s [] := by
  refine ⟨hok, le_rfl, ⟨[], ?_, .refl _⟩, by simp [heldFrames], hforeign⟩
  simp [Machine.frameBook, Machine.book, Machine.since, settle]

/-- Only the frames among the held resources matter, in any order. -/
theorem perm {held' : List Resource} (h : FrameAccounts Ok used foreign n s held)
    (hperm : (heldFrames held).Perm (heldFrames held')) :
    FrameAccounts Ok used foreign n s held' := by
  obtain ⟨out, hout, hheld⟩ := h.book
  exact ⟨h.ok, h.grown, ⟨out, hout, hheld.trans hperm⟩,
    fun f hf => h.taken f (hperm.mem_iff.mpr hf), h.foreign⟩

/-- No frame is held twice. -/
theorem nodup (h : FrameAccounts Ok used foreign n s held) : (heldFrames held).Nodup := by
  obtain ⟨out, hout, hheld⟩ := h.book
  exact hheld.nodup_iff.mp (nodup_of_settle hout List.nodup_nil)

/-- A step that is no frame's, or none of this part of the kernel, keeps the accounts. -/
theorem keep (h : FrameAccounts Ok used foreign n s held) (hok : Ok s'.alloc)
    (hgrown : s.log.length ≤ s'.log.length) (hbook : s'.frameBook n = s.frameBook n)
    (hheld : ∀ f ∈ heldFrames held, f ∈ used s'.alloc)
    (hforeign : ∀ f ∈ foreign, f ∈ used s'.alloc) :
    FrameAccounts Ok used foreign n s' held :=
  ⟨hok, h.grown.trans hgrown, by rw [hbook]; exact h.book,
    fun f hf => ⟨hheld f hf, (h.taken f hf).2⟩, hforeign⟩

/-- A call that has no entry and gives no frame back keeps the accounts. -/
theorem call (h : FrameAccounts Ok used foreign n s held) (hok : Ok s'.alloc)
    (hlog : s'.log = s.log ++ [e]) (hentry : e.frameEntry = none)
    (hused : used s.alloc ⊆ used s'.alloc) : FrameAccounts Ok used foreign n s' held := by
  refine h.keep hok (by simp [hlog]) ?_ (fun f hf => hused (h.taken f hf).1)
    (fun f hf => hused (h.foreign f hf))
  rw [Machine.frameBook_append h.grown hlog, hentry]
  cases s.frameBook n <;> rfl

variable (hA : A.LawfulFrames Ok used)

include hA

/-- A frame is taken. -/
theorem allocPage (h : FrameAccounts Ok used foreign n s held) (hsome : (s.allocPage A).1 ≠ 0) :
    FrameAccounts Ok used foreign n (s.allocPage A).2 (.frame (s.allocPage A).1 :: held) := by
  have hlog : (s.allocPage A).2.log = s.log ++ [.allocFrame (s.allocPage A).1] := rfl
  have hfresh := hA.allocPage_fresh _ h.ok hsome
  have hused := hA.allocPage_used _ h.ok
  obtain ⟨out, hout, hheld⟩ := h.book
  have hnew : (s.allocPage A).1 ∉ out := fun hmem =>
    hfresh (h.taken _ (hheld.mem_iff.mp hmem)).1
  refine ⟨hA.allocPage_ok _ h.ok, h.grown.trans (by simp [hlog]),
    ⟨(s.allocPage A).1 :: out, ?_, hheld.cons _⟩, fun f hf => ?_,
    fun f hf => hused (h.foreign f hf)⟩
  · rw [Machine.frameBook_append h.grown hlog, hout, Option.bind_some, MemEvent.frameEntry,
      if_neg hsome]
    exact if_neg hnew
  · rcases List.mem_cons.mp hf with rfl | hf
    · obtain ⟨hdvd, hlt⟩ := hA.allocPage_addr _ h.ok
      exact ⟨hA.allocPage_taken _ h.ok hsome, hsome, hdvd, hlt,
        fun hmem => hfresh (h.foreign _ hmem)⟩
    · exact ⟨hused (h.taken f hf).1, (h.taken f hf).2⟩

/-- A held frame is given back. -/
theorem freePage {f : ℕ} (h : FrameAccounts Ok used foreign n s (.frame f :: held)) :
    FrameAccounts Ok used foreign n (s.freePage A f) held := by
  have hlog : (s.freePage A f).log = s.log ++ [.freeFrame f] := rfl
  obtain ⟨hf, hne, -, -, hown⟩ := h.taken f List.mem_cons_self
  have hleft : ∀ g ∈ used s.alloc, g ≠ f → g ∈ used (s.freePage A f).alloc :=
    fun g hg hgf => hA.freePage_used _ f h.ok hf ⟨hg, hgf⟩
  obtain ⟨out, hout, hheld⟩ := h.book
  refine ⟨hA.freePage_ok _ f h.ok hf hne, h.grown.trans (by simp [hlog]), ⟨out.erase f, ?_, ?_⟩,
    fun g hg => ?_, fun g hg => hleft g (h.foreign g hg) ?_⟩
  · rw [Machine.frameBook_append h.grown hlog, hout, Option.bind_some]
    exact if_pos (hheld.mem_iff.mpr List.mem_cons_self)
  · simpa using hheld.erase f
  · have hgf : g ≠ f := fun heq => (List.nodup_cons.mp h.nodup).1 (heq ▸ hg)
    exact ⟨hleft g (h.taken g (List.mem_cons_of_mem _ hg)).1 hgf,
      (h.taken g (List.mem_cons_of_mem _ hg)).2⟩
  · rintro rfl
    exact hown hg

end FrameAccounts

/-- Accounts of frames are a discipline of holding resources that failed allocations do not disturb;
the frames that are nobody's to take, and the null frame, are borrowed. -/
theorem frameAccounts_holding {A : KernelAlloc S} {Ok : S → Prop} {used : S → Set ℕ}
    (hA : A.LawfulFrames Ok used) (foreign : Set ℕ) (n : ℕ) :
    Holding A (FrameAccounts Ok used foreign n) (fun _ => True) (insert 0 foreign) ∅ ∅ where
  perm h hperm := h.perm (hperm.filterMap _)
  frames_nodup h := h.nodup
  frame_addr h hf := by
    obtain ⟨-, hne, hdvd, hlt, hown⟩ := h.taken _ (mem_heldFrames.mpr hf)
    exact ⟨hne, hdvd, hlt, fun hmem => hmem.elim hne hown⟩
  node_addr _ _ := Set.notMem_empty _
  write h _ _ _ := h.keep h.ok le_rfl rfl (fun f hf => (h.taken f hf).1) h.foreign
  allocPage h hsome := h.allocPage hA hsome
  allocPage_fail h hfail _ := h.call (e := .allocFrame _) (hA.allocPage_ok _ h.ok) rfl
    (if_pos hfail) (hA.allocPage_used _ h.ok)
  freePage h := h.freePage hA
  cacheAlloc h _ := (h.call (e := .allocObject _ _) (hA.cacheAlloc_ok _ _ h.ok) rfl rfl
    (hA.cacheAlloc_used _ _ h.ok)).perm (.refl _)
  cacheAlloc_fail h _ _ := h.call (e := .allocObject _ _) (hA.cacheAlloc_ok _ _ h.ok) rfl rfl
    (hA.cacheAlloc_used _ _ h.ok)
  cacheFree {_ c a _} h := (h.call (e := .freeObject c a) (hA.cacheFree_ok _ _ _ h.ok) rfl rfl
    (hA.cacheFree_used _ _ _ h.ok)).perm (.refl _)
  good_of_isPrefix _ _ := trivial

end Flos.Mm
