import Flos.Mm.Accounts

/-!
# Holding resources

What the address-space code needs to know about the resources that it holds: how a list of them
changes with the calls of the allocators, and that held frames are distinct. Exact accounts are one
such discipline, for runs in which no allocation fails; custody is another, which survives failed
allocations and in addition keeps everything that belongs to somebody else as it is.
-/

namespace Flos.Mm

open Flos.Lib

variable {S : Type*}

/-- The frames among some resources. -/
def heldFrames (held : List Resource) : List ℕ :=
  held.filterMap fun
    | .frame f => some f
    | .object _ _ => none

/-- A frame in front of the list. -/
@[simp] theorem heldFrames_frame (f : ℕ) (held : List Resource) :
    heldFrames (.frame f :: held) = f :: heldFrames held := rfl

/-- The frames of two lists. -/
@[simp] theorem heldFrames_append (held held' : List Resource) :
    heldFrames (held ++ held') = heldFrames held ++ heldFrames held' := List.filterMap_append

/-- A list of frames. -/
@[simp] theorem heldFrames_map_frame (fs : List ℕ) : heldFrames (fs.map .frame) = fs := by
  induction fs with
  | nil => rfl
  | cons f fs ih => rw [List.map_cons, heldFrames_frame, ih]

/-- The frames of a list of resources are its frame entries. -/
theorem mem_heldFrames {held : List Resource} {f : ℕ} : f ∈ heldFrames held ↔ .frame f ∈ held := by
  rw [heldFrames, List.mem_filterMap]
  constructor
  · rintro ⟨r, hr, hf⟩
    cases r with
    | frame g => rwa [← Option.some.inj hf]
    | object c a => cases hf
  · exact fun hf => ⟨_, hf, rfl⟩

/-- An allocation failed between two states. -/
def Failed (s s' : Machine S) : Prop := ∃ e ∈ s'.log.drop s.log.length, ¬ e.Succeeds

instance (s s' : Machine S) : Decidable (Failed s s') :=
  inferInstanceAs (Decidable (∃ e ∈ s'.log.drop s.log.length, ¬ e.Succeeds))

/-- A failure is still one in the view of an earlier start and a later end. -/
theorem Failed.extend {s₀ s s' s'' : Machine S} (h : Failed s s') (hstart : s₀.log <+: s.log)
    (hend : s'.log <+: s''.log) : Failed s₀ s'' := by
  obtain ⟨e, he, hfail⟩ := h
  have hmem : e ∈ s''.log.drop s.log.length := (hend.drop s.log.length).subset he
  refine ⟨e, ?_, hfail⟩
  have hsplit : s.log.length = s₀.log.length + (s.log.length - s₀.log.length) := by
    have := hstart.length_le
    omega
  rw [hsplit, ← List.drop_drop] at hmem
  exact List.mem_of_mem_drop hmem

/-- A failed call is a failure. -/
theorem Failed.of_log {s s' : Machine S} {e : MemEvent} (hlog : s'.log = s.log ++ [e])
    (hfail : ¬ e.Succeeds) : Failed s s' :=
  ⟨e, by rw [hlog, List.drop_left]; exact List.mem_cons_self, hfail⟩

/-- The frames that have been taken since the state `s`. -/
def framesTaken (s s' : Machine S) : Set ℕ := {f | f ≠ 0 ∧ .allocFrame f ∈ s'.log.drop s.log.length}

/-- An allocation adds its frame, if it gets one. -/
theorem framesTaken_allocPage {s s' : Machine S} (A : KernelAlloc S) (hlog : s.log <+: s'.log) (f : ℕ) :
    f ∈ framesTaken s (s'.allocPage A).2 ↔
      f ∈ framesTaken s s' ∨ f ≠ 0 ∧ f = (s'.allocPage A).1 := by
  have hdrop : (s'.allocPage A).2.log.drop s.log.length =
      s'.log.drop s.log.length ++ [.allocFrame (s'.allocPage A).1] :=
    List.drop_append_of_le_length hlog.length_le
  simp only [framesTaken, Set.mem_ofPred_eq, hdrop, List.mem_append, List.mem_singleton,
    MemEvent.allocFrame.injEq, and_or_left]

/-- Without failed calls nothing failed. -/
theorem Machine.Succeeds.not_failed {s s' : Machine S} {n : ℕ} (h : s'.Succeeds n)
    (hn : n ≤ s.log.length) : ¬ Failed s s' := by
  rintro ⟨e, he, hfail⟩
  refine hfail (h e ?_)
  rw [show s.log.length = n + (s.log.length - n) by omega, ← List.drop_drop] at he
  exact List.mem_of_mem_drop he

/-- A discipline of holding resources: `H s held` says that `held` is held in `s`; `Good` are the
states in which the calls so far went as the discipline asks. Borrowed frames and borrowed area nodes
are never held, and the upper half of a fixed frame is not written. -/
structure Holding (A : KernelAlloc S) (H : Machine S → List Resource → Prop)
    (Good : Machine S → Prop) (borrowed nodes fixed : Set ℕ) : Prop where
  perm : ∀ {s held held'}, H s held → held.Perm held' → H s held'
  frames_nodup : ∀ {s held}, H s held → (heldFrames held).Nodup
  frame_addr : ∀ {s held f}, H s held → .frame f ∈ held →
    f ≠ 0 ∧ 4096 ∣ f ∧ f < 2 ^ 52 ∧ f ∉ borrowed
  node_addr : ∀ {s held a}, H s held → .object .vmAreaCache a ∈ held → a ∉ nodes
  write : ∀ {s held f mem}, H s held → .frame f ∈ held → (∀ g, g ≠ f → mem g = s.mem g) →
    (f ∈ fixed → ∀ i : Fin 512, 256 ≤ i.val → mem f i = s.mem f i) →
      H ⟨mem, s.alloc, s.log⟩ held
  allocPage : ∀ {s held}, H s held → (s.allocPage A).1 ≠ 0 →
    H (s.allocPage A).2 (.frame (s.allocPage A).1 :: held)
  allocPage_fail : ∀ {s held}, H s held → (s.allocPage A).1 = 0 → Good (s.allocPage A).2 →
    H (s.allocPage A).2 held
  freePage : ∀ {s f held}, H s (.frame f :: held) → H (s.freePage A f) held
  cacheAlloc : ∀ {s c held}, H s held → (s.cacheAlloc A c).1 ≠ 0 →
    H (s.cacheAlloc A c).2 (.object c (s.cacheAlloc A c).1 :: held)
  cacheAlloc_fail : ∀ {s c held}, H s held → (s.cacheAlloc A c).1 = 0 → Good (s.cacheAlloc A c).2 →
    H (s.cacheAlloc A c).2 held
  cacheFree : ∀ {s c a held}, H s (.object c a :: held) → H (s.cacheFree A c a) held
  good_of_isPrefix : ∀ {s s' : Machine S}, s.log <+: s'.log → Good s' → Good s

namespace Holding

variable {A : KernelAlloc S} {H : Machine S → List Resource → Prop} {Good : Machine S → Prop}
  {borrowed nodes fixed : Set ℕ} (hH : Holding A H Good borrowed nodes fixed) {s : Machine S}

include hH

/-- Held frames are distinct, and no other held frame is one of them. -/
theorem frames_split {fs : List ℕ} {others : List Resource} (h : H s (fs.map .frame ++ others)) :
    fs.Nodup ∧ ∀ f ∈ fs, .frame f ∉ others := by
  have hnodup := hH.frames_nodup h
  rw [heldFrames_append, heldFrames_map_frame] at hnodup
  obtain ⟨hfs, -, hapart⟩ := List.nodup_append.mp hnodup
  exact ⟨hfs, fun f hf hmem => hapart f hf f (mem_heldFrames.mpr hmem) rfl⟩

/-- Freeing the frames of a list one after the other. -/
theorem freePages {fs : List ℕ} {held : List Resource} (h : H s (fs.map .frame ++ held)) :
    H (fs.foldl (fun s f => s.freePage A f) s) held := by
  induction fs generalizing s with
  | nil => exact h
  | cons f fs ih => exact ih (hH.freePage h)

end Holding

/-- Exact accounts hold resources as long as no allocation fails. -/
theorem holds_holding {A : KernelAlloc S} {Ok : S → Prop} {frames : S → Set ℕ}
    {objects : CacheName → S → Set ℕ} (hA : A.Lawful Ok frames objects) (base : Base) :
    Holding A (Holds Ok frames objects base) (fun s => s.Succeeds base.log.length) ∅ ∅ ∅ where
  perm h := h.perm
  frames_nodup h := by
    refine h.nodup.filterMap ?_
    intro r r' f hf hf'
    cases r <;> cases r' <;> simp_all
  frame_addr h hf := by
    obtain ⟨hne, hdvd, hlt⟩ := h.frame_addr hf
    exact ⟨hne, hdvd, hlt, Set.notMem_empty _⟩
  node_addr _ _ := Set.notMem_empty _
  write h _ _ _ := h.setMem _
  allocPage h := h.allocPage hA
  allocPage_fail h hfail hgood :=
    absurd hfail (hgood.last h.grown.length_le rfl)
  freePage h := h.freePage hA
  cacheAlloc h := h.cacheAlloc hA _
  cacheAlloc_fail h hfail hgood :=
    absurd hfail (hgood.last h.grown.length_le rfl)
  cacheFree h := h.cacheFree hA
  good_of_isPrefix hlog hgood := hgood.of_isPrefix hlog

end Flos.Mm
