import Mathlib.Data.List.Infix
import Flos.Lib.Ledger
import Flos.Mm.KernelAlloc

/-!
# Accounts of frames and objects

What a part of the kernel took from the allocators since some moment and has not given back, read
off the log of its calls. The accounts tie the ledger of the log to the allocators' own view: the
frames in use and the live objects are those of the start and the outstanding ones.
-/

namespace Flos.Mm

open Flos.Lib

/-- Something that can be allocated. -/
inductive Resource
  | frame (phys : ℕ)
  | object (cache : CacheName) (obj : ℕ)
  deriving DecidableEq, Repr

/-- The ledger entry of a call. -/
def MemEvent.entry : MemEvent → LedgerEvent Resource
  | .allocFrame phys => .acquire (.frame phys)
  | .freeFrame phys => .release (.frame phys)
  | .allocObject cache obj => .acquire (.object cache obj)
  | .freeObject cache obj => .release (.object cache obj)

/-- The call is no failed allocation. -/
def MemEvent.Succeeds : MemEvent → Prop
  | .allocFrame phys => phys ≠ 0
  | .allocObject _ obj => obj ≠ 0
  | _ => True

instance (e : MemEvent) : Decidable e.Succeeds := by
  cases e <;> unfold MemEvent.Succeeds <;> infer_instance

variable {S : Type*}

/-- The calls since the log had `n` entries. -/
def Machine.since (s : Machine S) (n : ℕ) : List MemEvent := s.log.drop n

/-- No allocation has failed since the log had `n` entries. -/
def Machine.Succeeds (s : Machine S) (n : ℕ) : Prop := ∀ e ∈ s.since n, e.Succeeds

/-- The log and what was in use at the start. -/
structure Base where
  log : List MemEvent
  frames : Set ℕ
  objects : CacheName → Set ℕ

/-- The accounts since the start: `out` is outstanding. -/
structure Accounts (Ok : S → Prop) (frames : S → Set ℕ) (objects : CacheName → S → Set ℕ)
    (base : Base) (s : Machine S) (out : List Resource) : Prop where
  ok : Ok s.alloc
  grown : base.log <+: s.log
  settled : settle ((s.since base.log.length).map MemEvent.entry) [] = some out
  frames : ∀ f, f ∈ frames s.alloc ↔ f ∈ base.frames ∨ .frame f ∈ out
  newFrame : ∀ f, .frame f ∈ out → f ∉ base.frames ∧ f ≠ 0 ∧ 4096 ∣ f ∧ f < 2 ^ 52
  objects : ∀ c a, a ∈ objects c s.alloc ↔ a ∈ base.objects c ∨ .object c a ∈ out
  newObject : ∀ c a, .object c a ∈ out → a ∉ base.objects c
  kept : ∀ f ∈ base.frames, .freeFrame f ∉ s.since base.log.length

/-- The calls since the start grow with the log. -/
theorem Machine.since_append {s s' : Machine S} {n : ℕ} {e : MemEvent} (hn : n ≤ s.log.length)
    (h : s'.log = s.log ++ [e]) : s'.since n = s.since n ++ [e] := by
  rw [Machine.since, Machine.since, h, List.drop_append_of_le_length hn]

/-- A call extends the ledger by its entry. -/
theorem Machine.settle_since_append {R : Type*} [DecidableEq R]
    {entry : MemEvent → Option (LedgerEvent R)} {s s' : Machine S} {n : ℕ} {e : MemEvent}
    (start : List R) (hn : n ≤ s.log.length) (hlog : s'.log = s.log ++ [e]) :
    settle ((s'.since n).filterMap entry) start =
      (settle ((s.since n).filterMap entry) start).bind fun out => settle (entry e).toList out := by
  have hentry : [e].filterMap entry = (entry e).toList := by
    cases he : entry e <;> simp [he]
  rw [Machine.since_append hn hlog, List.filterMap_append, settle_append, hentry]

/-- An entry that only one call has occurs as often as that call. -/
theorem count_filterMap_entry {R : Type*} [DecidableEq R]
    {entry : MemEvent → Option (LedgerEvent R)} {x : LedgerEvent R} {e₀ : MemEvent}
    (hx : ∀ e, entry e = some x ↔ e = e₀) (events : List MemEvent) :
    (events.filterMap entry).count x = events.count e₀ := by
  induction events with
  | nil => rfl
  | cons e events ih =>
    have he := hx e
    cases hentry : entry e with
    | none =>
      rw [hentry] at he
      rw [List.filterMap_cons_none hentry, ih, List.count_cons_of_ne]
      exact fun heq => Option.some_ne_none x (he.mpr heq).symm
    | some y =>
      rw [hentry, Option.some.injEq] at he
      rw [List.filterMap_cons_some hentry, List.count_cons, List.count_cons, ih]
      simp only [beq_iff_eq, he]

section Calls

variable {R : Type*} [DecidableEq R] {entry : MemEvent → Option (LedgerEvent R)} {s : Machine S} {n : ℕ}
  {start out : List R} {before after : List MemEvent} {take give : MemEvent} {r : R}
  (hout : settle ((s.since n).filterMap entry) start = some out)
  (hcalls : s.since n = before ++ give :: after) (hstart : start.Nodup) (hr : r ∉ start)

include hout hcalls hstart hr

/-- In a ledger of calls, what is given back and was not held at the start has more entries as taken
than as given back before. -/
theorem Machine.count_entries_of_settle (hgive : entry give = some (.release r)) :
    (before.filterMap entry).count (.acquire r) = (before.filterMap entry).count (.release r) + 1 := by
  rw [hcalls, List.filterMap_append, List.filterMap_cons_some hgive] at hout
  exact count_of_settle_release hout hstart hr

/-- What is given back was taken. -/
theorem Machine.taken_of_settle (hgive : entry give = some (.release r)) :
    ∃ e ∈ before, entry e = some (.acquire r) := by
  have hcount := Machine.count_entries_of_settle hout hcalls hstart hr hgive
  exact List.mem_filterMap.mp (List.count_pos_iff.mp (by omega))

/-- If only one call takes it and only one gives it back, those calls count. -/
theorem Machine.count_of_settle (htake : ∀ e, entry e = some (.acquire r) ↔ e = take)
    (hgive : ∀ e, entry e = some (.release r) ↔ e = give) :
    before.count take = before.count give + 1 := by
  have hcount := Machine.count_entries_of_settle hout hcalls hstart hr ((hgive give).mpr rfl)
  rwa [count_filterMap_entry htake, count_filterMap_entry hgive] at hcount

end Calls

/-- The book of the calls since the log had `n` entries, in the entries that count: what was taken and
not given back, or `none` when something was given back that was not taken, or was given back
before. -/
def Machine.book {R : Type*} [DecidableEq R] (entry : MemEvent → Option (LedgerEvent R))
    (s : Machine S) (n : ℕ) : Option (List R) :=
  settle ((s.since n).filterMap entry) []

/-- A call extends the book by its entry. -/
theorem Machine.book_append {R : Type*} [DecidableEq R] {entry : MemEvent → Option (LedgerEvent R)}
    {s s' : Machine S} {n : ℕ} {e : MemEvent} (hn : n ≤ s.log.length)
    (hlog : s'.log = s.log ++ [e]) :
    s'.book entry n = (s.book entry n).bind fun out => settle (entry e).toList out :=
  Machine.settle_since_append [] hn hlog

/-- Fewer calls have fewer failures. -/
theorem Machine.Succeeds.of_isPrefix {s s' : Machine S} {n : ℕ} (h : s'.Succeeds n)
    (hlog : s.log <+: s'.log) : s.Succeeds n :=
  fun e he => h e ((List.IsPrefix.drop hlog n).subset he)

/-- The last call was no failed allocation. -/
theorem Machine.Succeeds.last {s s' : Machine S} {n : ℕ} {e : MemEvent} (h : s'.Succeeds n)
    (hn : n ≤ s.log.length) (hlog : s'.log = s.log ++ [e]) : e.Succeeds :=
  h e (by rw [Machine.since_append hn hlog]; exact List.mem_append_right _ List.mem_cons_self)

namespace Accounts

variable {A : KernelAlloc S} {Ok : S → Prop} {frames : S → Set ℕ} {objects : CacheName → S → Set ℕ}
  {base : Base} {s : Machine S} {out : List Resource}

/-- The accounts at the start. -/
theorem start (hok : Ok s.alloc) :
    Accounts Ok frames objects
      ⟨s.log, frames s.alloc, fun c => objects c s.alloc⟩ s [] := by
  refine ⟨hok, List.prefix_rfl, ?_, by simp, by simp, by simp, by simp, ?_⟩
  · simp [Machine.since, settle]
  · simp [Machine.since]

/-- The accounts do not depend on memory. -/
theorem setMem (h : Accounts Ok frames objects base s out) (mem : ℕ → Fin 512 → ℕ) :
    Accounts Ok frames objects base ⟨mem, s.alloc, s.log⟩ out :=
  ⟨h.ok, h.grown, h.settled, h.frames, h.newFrame, h.objects, h.newObject, h.kept⟩

/-- Nothing is outstanding twice. -/
theorem nodup (h : Accounts Ok frames objects base s out) : out.Nodup :=
  nodup_of_settle h.settled List.nodup_nil

/-- The log of one more call. -/
theorem grown_append (h : Accounts Ok frames objects base s out) {s' : Machine S} {e : MemEvent}
    (hlog : s'.log = s.log ++ [e]) : base.log <+: s'.log := by
  rw [hlog]
  exact h.grown.trans (List.prefix_append _ _)

variable (hA : A.Lawful Ok frames objects) (h : Accounts Ok frames objects base s out)

include hA h

/-- A frame is taken. -/
theorem allocPage (hsome : (s.allocPage A).1 ≠ 0) :
    Accounts Ok frames objects base (s.allocPage A).2 (.frame (s.allocPage A).1 :: out) ∧
      (.frame (s.allocPage A).1 ∉ out) := by
  have hlog : (s.allocPage A).2.log = s.log ++ [.allocFrame (s.allocPage A).1] := rfl
  have hfresh := hA.allocPage_fresh _ h.ok hsome
  have haddr := hA.allocPage_addr _ h.ok
  have hframes := hA.allocPage_frames _ h.ok hsome
  have hnew : Resource.frame (s.allocPage A).1 ∉ out ∧ (s.allocPage A).1 ∉ base.frames :=
    ⟨fun hmem => hfresh ((h.frames _).mpr (.inr hmem)),
      fun hmem => hfresh ((h.frames _).mpr (.inl hmem))⟩
  refine ⟨⟨hA.allocPage_ok _ h.ok, h.grown_append hlog, ?_, fun f => ?_, fun f hf => ?_,
    fun c a => ?_, fun c a ha => ?_, fun f hf => ?_⟩, hnew.1⟩
  · rw [Machine.since_append h.grown.length_le hlog, List.map_append]
    exact settle_acquire h.settled hnew.1
  · change f ∈ frames (A.allocPage s.alloc).2 ↔ _
    rw [hframes, Set.mem_insert_iff, h.frames f, List.mem_cons, Resource.frame.injEq]
    exact or_left_comm
  · rcases List.mem_cons.mp hf with heq | hf
    · obtain rfl := Resource.frame.inj heq
      exact ⟨hnew.2, hsome, haddr⟩
    · exact h.newFrame f hf
  · change a ∈ objects c (A.allocPage s.alloc).2 ↔ _
    rw [hA.allocPage_objects _ c h.ok, h.objects c a]
    simp
  · exact h.newObject c a (by simpa using ha)
  · rw [Machine.since_append h.grown.length_le hlog]
    simpa using h.kept f hf

/-- An outstanding frame is given back. -/
theorem freePage {f : ℕ} (hf : .frame f ∈ out) :
    Accounts Ok frames objects base (s.freePage A f) (out.erase (.frame f)) := by
  have hlog : (s.freePage A f).log = s.log ++ [.freeFrame f] := rfl
  have hused : f ∈ frames s.alloc := (h.frames f).mpr (.inr hf)
  have hmem : ∀ r, r ∈ out.erase (.frame f) ↔ r ≠ .frame f ∧ r ∈ out :=
    fun r => h.nodup.mem_erase_iff
  refine ⟨hA.freePage_ok _ f h.ok hused, h.grown_append hlog, ?_, fun f' => ?_, fun f' hf' => ?_,
    fun c a => ?_, fun c a ha => ?_, fun f' hf' => ?_⟩
  · rw [Machine.since_append h.grown.length_le hlog, List.map_append]
    exact settle_release h.settled hf
  · change f' ∈ frames (A.freePage s.alloc f) ↔ _
    rw [hA.freePage_frames _ f h.ok hused, Set.mem_sdiff, h.frames f', hmem,
      Set.mem_singleton_iff]
    have hne : f' ∈ base.frames → f' ≠ f := by
      rintro hbase rfl
      exact (h.newFrame f' hf).1 hbase
    simp only [ne_eq, Resource.frame.injEq]
    tauto
  · exact h.newFrame f' ((hmem _).mp hf').2
  · change a ∈ objects c (A.freePage s.alloc f) ↔ _
    rw [hA.freePage_objects _ f c h.ok hused, h.objects c a, hmem]
    simp
  · exact h.newObject c a ((hmem _).mp ha).2
  · rw [Machine.since_append h.grown.length_le hlog]
    have hne : f' ≠ f := by
      rintro rfl
      exact (h.newFrame f' hf).1 hf'
    simpa [hne] using h.kept f' hf'

/-- An object is taken. -/
theorem cacheAlloc (c : CacheName) (hsome : (s.cacheAlloc A c).1 ≠ 0) :
    Accounts Ok frames objects base (s.cacheAlloc A c).2
        (.object c (s.cacheAlloc A c).1 :: out) ∧
      (.object c (s.cacheAlloc A c).1 ∉ out) := by
  have hlog : (s.cacheAlloc A c).2.log = s.log ++ [.allocObject c (s.cacheAlloc A c).1] := rfl
  have hfresh := hA.cacheAlloc_fresh _ c h.ok hsome
  have hnew : Resource.object c (s.cacheAlloc A c).1 ∉ out ∧
      (s.cacheAlloc A c).1 ∉ base.objects c :=
    ⟨fun hmem => hfresh ((h.objects c _).mpr (.inr hmem)),
      fun hmem => hfresh ((h.objects c _).mpr (.inl hmem))⟩
  refine ⟨⟨hA.cacheAlloc_ok _ c h.ok, h.grown_append hlog, ?_, fun f => ?_, fun f hf => ?_,
    fun d a => ?_, fun d a ha => ?_, fun f hf => ?_⟩, hnew.1⟩
  · rw [Machine.since_append h.grown.length_le hlog, List.map_append]
    exact settle_acquire h.settled hnew.1
  · change f ∈ frames (A.cacheAlloc c s.alloc).2 ↔ _
    rw [hA.cacheAlloc_frames _ c h.ok, h.frames f]
    simp
  · exact h.newFrame f (by simpa using hf)
  · change a ∈ objects d (A.cacheAlloc c s.alloc).2 ↔ _
    by_cases hdc : d = c
    · subst hdc
      rw [hA.cacheAlloc_objects _ d h.ok hsome, Set.mem_insert_iff, h.objects d a, List.mem_cons,
        Resource.object.injEq, eq_self, true_and]
      exact or_left_comm
    · rw [hA.cacheAlloc_other _ c d h.ok hdc, h.objects d a]
      simp [hdc]
  · rcases List.mem_cons.mp ha with heq | ha
    · obtain ⟨rfl, rfl⟩ := Resource.object.inj heq
      exact hnew.2
    · exact h.newObject d a ha
  · rw [Machine.since_append h.grown.length_le hlog]
    simpa using h.kept f hf

/-- An outstanding object is given back. -/
theorem cacheFree {c : CacheName} {a : ℕ} (ha : .object c a ∈ out) :
    Accounts Ok frames objects base (s.cacheFree A c a) (out.erase (.object c a)) := by
  have hlog : (s.cacheFree A c a).log = s.log ++ [.freeObject c a] := rfl
  have hlive : a ∈ objects c s.alloc := (h.objects c a).mpr (.inr ha)
  have hmem : ∀ r, r ∈ out.erase (.object c a) ↔ r ≠ .object c a ∧ r ∈ out :=
    fun r => h.nodup.mem_erase_iff
  refine ⟨hA.cacheFree_ok _ c a h.ok hlive, h.grown_append hlog, ?_, fun f => ?_, fun f hf => ?_,
    fun d b => ?_, fun d b hb => ?_, fun f hf => ?_⟩
  · rw [Machine.since_append h.grown.length_le hlog, List.map_append]
    exact settle_release h.settled ha
  · change f ∈ frames (A.cacheFree c s.alloc a) ↔ _
    rw [hA.cacheFree_frames _ c a h.ok hlive, h.frames f, hmem]
    simp
  · exact h.newFrame f ((hmem _).mp hf).2
  · change b ∈ objects d (A.cacheFree c s.alloc a) ↔ _
    rw [hmem]
    by_cases hdc : d = c
    · subst hdc
      have hne : b ∈ base.objects d → b ≠ a := by
        rintro hbase rfl
        exact h.newObject d b ha hbase
      rw [hA.cacheFree_objects _ d a h.ok hlive, Set.mem_sdiff, h.objects d b,
        Set.mem_singleton_iff]
      simp only [ne_eq, Resource.object.injEq, true_and]
      tauto
    · rw [hA.cacheFree_other _ c d a h.ok hlive hdc, h.objects d b]
      simp [hdc]
  · exact h.newObject d b ((hmem _).mp hb).2
  · rw [Machine.since_append h.grown.length_le hlog]
    simpa using h.kept f hf

end Accounts

/-- The outstanding resources are exactly these, in some order. -/
def Holds (Ok : S → Prop) (frames : S → Set ℕ) (objects : CacheName → S → Set ℕ) (base : Base)
    (s : Machine S) (held : List Resource) : Prop :=
  ∃ out, Accounts Ok frames objects base s out ∧ out.Perm held

namespace Holds

variable {A : KernelAlloc S} {Ok : S → Prop} {frames : S → Set ℕ} {objects : CacheName → S → Set ℕ}
  {base : Base} {s : Machine S} {held held' : List Resource}

/-- The order of the held resources does not matter. -/
theorem perm (h : Holds Ok frames objects base s held) (hperm : held.Perm held') :
    Holds Ok frames objects base s held' := by
  obtain ⟨out, hout, hheld⟩ := h
  exact ⟨out, hout, hheld.trans hperm⟩

/-- What is held does not depend on memory. -/
theorem setMem (h : Holds Ok frames objects base s held) (mem : ℕ → Fin 512 → ℕ) :
    Holds Ok frames objects base ⟨mem, s.alloc, s.log⟩ held := by
  obtain ⟨out, hout, hheld⟩ := h
  exact ⟨out, hout.setMem mem, hheld⟩

/-- Nothing is held twice. -/
theorem nodup (h : Holds Ok frames objects base s held) : held.Nodup := by
  obtain ⟨out, hout, hheld⟩ := h
  exact hheld.nodup_iff.mp hout.nodup

/-- The log has only grown since the start. -/
theorem grown (h : Holds Ok frames objects base s held) : base.log <+: s.log := by
  obtain ⟨_, hout, _⟩ := h
  exact hout.grown

/-- A held frame is aligned, a physical address, and not the null address. -/
theorem frame_addr (h : Holds Ok frames objects base s held) {f : ℕ} (hf : .frame f ∈ held) :
    f ≠ 0 ∧ 4096 ∣ f ∧ f < 2 ^ 52 := by
  obtain ⟨out, hout, hheld⟩ := h
  exact (hout.newFrame f (hheld.mem_iff.mpr hf)).2

variable (hA : A.Lawful Ok frames objects)

include hA

/-- A new frame is held. -/
theorem allocPage (h : Holds Ok frames objects base s held) (hsome : (s.allocPage A).1 ≠ 0) :
    Holds Ok frames objects base (s.allocPage A).2 (.frame (s.allocPage A).1 :: held) := by
  obtain ⟨out, hout, hheld⟩ := h
  exact ⟨_, (hout.allocPage hA hsome).1, hheld.cons _⟩

/-- A freed frame is no longer held. -/
theorem freePage {f : ℕ} (h : Holds Ok frames objects base s (.frame f :: held)) :
    Holds Ok frames objects base (s.freePage A f) held := by
  obtain ⟨out, hout, hheld⟩ := h
  refine ⟨_, hout.freePage hA (hheld.mem_iff.mpr List.mem_cons_self), ?_⟩
  simpa using hheld.erase (.frame f)

/-- A new object is held. -/
theorem cacheAlloc (c : CacheName) (h : Holds Ok frames objects base s held)
    (hsome : (s.cacheAlloc A c).1 ≠ 0) :
    Holds Ok frames objects base (s.cacheAlloc A c).2 (.object c (s.cacheAlloc A c).1 :: held) := by
  obtain ⟨out, hout, hheld⟩ := h
  exact ⟨_, (hout.cacheAlloc hA c hsome).1, hheld.cons _⟩

/-- A freed object is no longer held. -/
theorem cacheFree {c : CacheName} {a : ℕ}
    (h : Holds Ok frames objects base s (.object c a :: held)) :
    Holds Ok frames objects base (s.cacheFree A c a) held := by
  obtain ⟨out, hout, hheld⟩ := h
  refine ⟨_, hout.cacheFree hA (hheld.mem_iff.mpr List.mem_cons_self), ?_⟩
  simpa using hheld.erase (.object c a)

end Holds

end Flos.Mm
