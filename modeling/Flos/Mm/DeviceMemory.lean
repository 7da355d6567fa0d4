import Flos.Mm.KernelImage
import Flos.Mm.SharedHalf

/-!
# Mapping device memory

`pmap_map_mmio` maps the pages of a device in the direct map, with caching disabled. The direct map is
there already, with huge pages where they fit. A page of the device in a huge page cannot be mapped, and
stays cached; nobody looks at the result. The number of pages is computed from the size alone, so a device
that does not start at a page may reach a page further.
-/

namespace Flos.Mm

open Flos.Lib

/-- The flags of device memory. -/
abbrev mmioFlags : ℕ := mmuFlagWrite ||| mmuFlagNoExec ||| mmuFlagUc

/-- Every byte of the device is translated in the direct map, writable, not executable and uncached. -/
def DeviceMapped {S : Type*} (phys size root : ℕ) (s : Machine S) : Prop :=
  ∀ b, phys ≤ b → b < phys + size → ∃ a, translate s.mem root (b + hhdmOffset) = some ⟨b, a⟩ ∧
    a.write = true ∧ a.noExec = true ∧ a.uncached = true

section Pages

variable {S : Type*} {A : KernelAlloc S} {Ok : S → Prop} {frames : S → Set ℕ} {root virt phys : ℕ}
  {s : Machine S} (hA : A.LawfulPages Ok frames)

/-- Mapping device pages extends the log. -/
theorem mapMmioPages_log (n off : ℕ) : s.log <+: (mapMmioPages A root virt phys n off s).log := by
  induction n generalizing off s with
  | zero => exact List.prefix_rfl
  | succ n ih =>
    exact ((callInvariant_log A s.log).pmapMapPage root ((virt + off) % wordSize)
      ((phys + off) % wordSize) mmioFlags List.prefix_rfl).trans (ih _)

include hA

/-- One page of the device is mapped if it is not blocked. -/
theorem mapMmioPage_spec {va pa : ℕ} (hs : PtState Ok frames root s) (hva : 4096 ∣ va) (hpa : 4096 ∣ pa)
    (hlt : pa < 2 ^ 52) (hhalf : InOneHalf va 4096)
    (hsucc : ¬ Failed s (map A root va pa (parseCommonFlags mmioFlags) s).2) :
    PtState Ok frames root (map A root va pa (parseCommonFlags mmioFlags) s).2 ∧
      (∀ x, Blocked (map A root va pa (parseCommonFlags mmioFlags) s).2.mem root x ↔
        Blocked s.mem root x) ∧
      (∀ x, va ≤ x → x < va + 4096 → ¬ Blocked s.mem root x →
        translate (map A root va pa (parseCommonFlags mmioFlags) s).2.mem root x =
          some ⟨pa + (x - va), flagsAccess mmioFlags⟩) ∧
      ∀ x, x < va ∨ va + 4096 ≤ x ∨ Blocked s.mem root x →
        translate (map A root va pa (parseCommonFlags mmioFlags) s).2.mem root x =
          translate s.mem root x := by
  obtain ⟨hs', hover⟩ := map_spec hA mmioFlags hs hva hpa hlt hhalf
  obtain ⟨hstop, hgo, hsame⟩ := map_blocked hA mmioFlags hs hpa hlt hsucc
  refine ⟨hs', hsame, fun x h1 h2 hfree => ?_, fun x hx => ?_⟩
  · have hstart : ¬ Blocked s.mem root va := (blocked_congr (by omega)).not.mp hfree
    rw [hover x, hgo hstart, if_pos ⟨h1, h2⟩]
  · by_cases hblocked : Blocked s.mem root va
    · rw [hover x, hstop hblocked, if_neg (by omega)]
    · rw [hover x, hgo hblocked, if_neg]
      rintro ⟨h1, h2⟩
      rcases hx with hx | hx | hx
      · omega
      · omega
      · exact hblocked ((blocked_congr (by omega)).mp hx)

/-- The loop of `pmap_map_mmio` maps the pages that are not blocked, and nothing else. -/
theorem mapMmioPages_spec {n off : ℕ} (hs : PtState Ok frames root s) (hoff : 4096 ∣ off)
    (hlt : phys / 4096 * 4096 + off + n * 4096 ≤ 2 ^ 52)
    (hhalf : InOneHalf (virt / 4096 * 4096 + off) (n * 4096))
    (hsucc : ¬ Failed s (mapMmioPages A root virt phys n off s)) :
    (∀ x, virt / 4096 * 4096 + off ≤ x → x < virt / 4096 * 4096 + off + n * 4096 →
      ¬ Blocked s.mem root x → translate (mapMmioPages A root virt phys n off s).mem root x =
        some ⟨phys / 4096 * 4096 + (x - virt / 4096 * 4096), flagsAccess mmioFlags⟩) ∧
      ∀ x, x < virt / 4096 * 4096 + off ∨ virt / 4096 * 4096 + off + n * 4096 ≤ x ∨
          Blocked s.mem root x →
        translate (mapMmioPages A root virt phys n off s).mem root x = translate s.mem root x := by
  induction n generalizing off s with
  | zero => exact ⟨by omega, fun _ _ => rfl⟩
  | succ n ih =>
    simp only [InOneHalf] at hhalf
    have hva : alignDown ((virt + off) % wordSize) pageSize = virt / 4096 * 4096 + off := by
      rw [alignDown_page (Nat.mod_lt _ (by decide)), Nat.mod_eq_of_lt (by simp only [wordSize]; omega)]
      omega
    have hpa : alignDown ((phys + off) % wordSize) pageSize = phys / 4096 * 4096 + off := by
      rw [alignDown_page (Nat.mod_lt _ (by decide)), Nat.mod_eq_of_lt (by simp only [wordSize]; omega)]
      omega
    rw [mapMmioPages, pmapMapPage, hva, hpa] at hsucc ⊢
    have hlog := @mapMmioPages_log _ A root virt phys
      (map A root (virt / 4096 * 4096 + off) (phys / 4096 * 4096 + off) (parseCommonFlags mmioFlags) s).2
      n (off + pageSize)
    have hlog' := (callInvariant_log A s.log).pmapMapPage root ((virt + off) % wordSize)
      ((phys + off) % wordSize) mmioFlags List.prefix_rfl
    rw [pmapMapPage, hva, hpa] at hlog'
    clear hva hpa
    obtain ⟨hs', hsame, hin, hout⟩ := mapMmioPage_spec hA hs (show 4096 ∣ virt / 4096 * 4096 + off by omega)
      (show 4096 ∣ phys / 4096 * 4096 + off by omega) (by omega) (by simp only [InOneHalf]; omega)
      fun h => hsucc (h.extend List.prefix_rfl hlog)
    generalize (map A root (virt / 4096 * 4096 + off) (phys / 4096 * 4096 + off)
      (parseCommonFlags mmioFlags) s).2 = s₁ at *
    obtain ⟨ihin, ihout⟩ := @ih s₁ (off + pageSize) hs' (by simp only [pageSize]; omega)
      (by simp only [pageSize]; omega) (by simp only [pageSize, InOneHalf]; omega)
      fun h => hsucc (h.extend hlog' List.prefix_rfl)
    simp only [pageSize, hsame] at ihin ihout
    simp only [pageSize]
    constructor
    · intro x h1 h2 hfree
      clear hlog hlog' hsucc
      by_cases hx : x < virt / 4096 * 4096 + (off + 4096)
      · have hoffset : phys / 4096 * 4096 + off + (x - (virt / 4096 * 4096 + off)) =
            phys / 4096 * 4096 + (x - virt / 4096 * 4096) := by omega
        rw [ihout x (.inl hx), hin x h1 (by rwa [Nat.add_assoc]) hfree, hoffset]
      · have hend : x < virt / 4096 * 4096 + (off + 4096) + n * 4096 := by omega
        exact ihin x (Nat.le_of_not_lt hx) hend hfree
    · intro x hx
      have hpage : x < virt / 4096 * 4096 + off ∨ virt / 4096 * 4096 + off + 4096 ≤ x ∨
          Blocked s.mem root x := hx.imp_right (Or.imp_left (by omega))
      have hrest : x < virt / 4096 * 4096 + (off + 4096) ∨
          virt / 4096 * 4096 + (off + 4096) + n * 4096 ≤ x ∨ Blocked s.mem root x :=
        hx.imp (by omega) (Or.imp_left (by omega))
      rw [ihout x hrest, hout x hpage]

end Pages

section Boot

variable {S : Type*} {A : KernelAlloc S} {Ok : S → Prop} {frames : S → Set ℕ} {root : ℕ}
  {s : Machine S}

/-- Nothing is translated without caching. -/
structure Cached (Ok : S → Prop) (frames : S → Set ℕ) (root : ℕ) (s : Machine S) : Prop where
  state : PtState Ok frames root s
  cached : ∀ va t, translate s.mem root va = some t → t.access.uncached = false

/-- An entry without the cache-disable bit. -/
def CachedEntry (entry : ℕ) : Prop := entry.testBit 4 = false

/-- Whether a translation is cached is up to the last entry of its walk. -/
theorem uncached_of_decodeWalk {entries : List ℕ} {entry va : ℕ} {t : Translation}
    (h : decodeWalk (entries ++ [entry]) va = some t) : t.access.uncached = entry.testBit 4 := by
  rw [decodeWalk, List.getLast?_concat] at h
  dsimp only at h
  split at h
  · split at h
    all_goals cases h
    all_goals rfl
  · cases h

/-- Writing last entries without the cache-disable bit leaves everything cached. -/
theorem entryInvariant_cached (hA : A.LawfulPages Ok frames) (root : ℕ) :
    EntryInvariant A root CachedEntry (Cached Ok frames root) where
  level p i t s hp hs ht := by
    obtain ⟨⟨hs', hsame⟩, hnext⟩ := getNextLevel_spec hA i hs.state hp ht
    exact ⟨⟨hs', fun va t htrans => hs.cached va t (hsame va ▸ htrans)⟩, hnext⟩
  leaf p i t e s he hpos hlen hend hs ht := by
    have htable := hs.state.table
    refine ⟨⟨hs.state.ok, htable.writeLeaf hlen ht hend⟩, fun va t' htrans => ?_⟩
    by_cases hextends : p ++ [i] <+: pathOf va
    · obtain ⟨r, hr⟩ := hextends
      have hstop : tableEntry e = none ∨ r = [] := by
        refine hend.imp_right fun hdepth => ?_
        have hlength := congrArg List.length hr
        simp only [List.length_append, List.length_singleton, pathOf_length] at hlength
        exact List.length_eq_zero_iff.mp (by omega)
      rw [translate] at htrans
      split at htrans
      · rw [← hr, List.append_assoc, List.singleton_append, walkEntries_writeSlot_leaf htable.distinct
          hlen ht (inTables_closed p hlen) hstop] at htrans
        exact (uncached_of_decodeWalk htrans).trans he
      · cases htrans
    · rw [translate_congr (agreeAlong_writeSlot htable.distinct hlen ht
        (readsWithin_inTables (pathOf_length va).le) hextends).walkEntries_eq] at htrans
      exact hs.cached va t' htrans

/-- Flags that do not disable caching make cached entries for pages. -/
theorem makesEntries_cached {archFlags : ℕ} (hflags : archFlags.testBit 4 = false) :
    MakesEntries CachedEntry (4096 ∣ ·) archFlags where
  small phys hphys := by
    rw [CachedEntry, Nat.testBit_or, testBit_of_dvd_two_pow (k := 12) hphys (by decide), hflags]
    rfl
  huge phys hphys := by
    rw [CachedEntry, Nat.testBit_or, Nat.testBit_or, testBit_of_dvd_two_pow (k := 12) hphys (by decide),
      hflags]
    rfl
  next phys n hphys hn := by
    simp only [wordSize]
    omega

/-- The kernel image is cached. -/
theorem Cached.mapKernelImage (hA : A.LawfulPages Ok frames) (kphys : ℕ) {sects : List KernelSection}
    (hflags : ∀ sect ∈ sects, (parseCommonFlags sect.flags).testBit 4 = false)
    (h : Cached Ok frames root s) : Cached Ok frames root (mapKernelImage A root kphys sects s) := by
  induction sects generalizing s with
  | nil => exact h
  | cons sect rest ih =>
    rw [mapKernelImage, List.foldl_cons]
    exact ih (fun sect h => hflags sect (List.mem_cons_of_mem _ h))
      ((entryInvariant_cached hA root).pmapMapRange _ _
        (makesEntries_cached (hflags sect List.mem_cons_self)) (dvd_alignDown_page _) h)

/-- `init_pmap` maps nothing without caching. -/
theorem initPmap_cached {objects : CacheName → S → Set ℕ} (hA : A.Lawful Ok frames objects)
    {map : MemoryMap} {kernel : VmMap} {s' : Machine S} (hok : Ok s.alloc) {hhdm : ℕ}
    (hinit : initPmap A hhdm map s = (some kernel, s')) (L : KernelLayout) (kphys : ℕ) :
    Cached Ok frames kernel.pageTable.pml4Phy
      (mapKernelImage A kernel.pageTable.pml4Phy kphys L.ksects s') := by
  have hsects : ∀ sect ∈ L.ksects, (parseCommonFlags sect.flags).testBit 4 = false := by
    simp only [KernelLayout.ksects, List.forall_mem_cons]
    decide
  refine Cached.mapKernelImage hA.toLawfulPages kphys hsects ?_
  rw [initPmap] at hinit
  rcases hcreate : vmMapCreate A none s with ⟨_ | space, s₁⟩
  all_goals rw [hcreate] at hinit
  · cases hinit
  · cases hinit
    obtain ⟨hstate, hempty⟩ := vmMapCreate_none_empty hA hok hcreate
    refine (entryInvariant_cached hA.toLawfulPages _).mapMemory hhdm (makesEntries_cached (by decide))
      (fun e _ => dvd_alignDown_page _) ⟨hstate, fun va t ht => ?_⟩
    rw [translate_of_empty hempty va] at ht
    cases ht

end Boot

/-- The last page that `pmap_map_mmio` maps is the last page of the device, and no page of the device is
in a huge page of the direct map. -/
structure DeviceInReach {S : Type*} (phys size root : ℕ) (s : Machine S) : Prop where
  last : phys % 4096 + size ≤ pageCeil size
  unblocked : ∀ b, phys ≤ b → b < phys + size → ¬ Blocked s.mem root (b + hhdmOffset)

/-- Where a byte of the device lies in the pages that are mapped, as many as its size says. -/
theorem deviceByte_lt {hhdm phys size x : ℕ} (hhhdm : 4096 ∣ hhdm) (hx : phys ≤ x) :
    (phys + hhdm) / 4096 * 4096 ≤ x + hhdm ∧
      (x + hhdm < (phys + hhdm) / 4096 * 4096 + pageCeil size ↔
        phys % 4096 + (x - phys) < pageCeil size) ∧
      phys / 4096 * 4096 + (x + hhdm - (phys + hhdm) / 4096 * 4096) = x := by
  obtain ⟨q, rfl⟩ := hhhdm
  generalize pageCeil size = c
  omega

/-- When a device is mapped, on a page table without uncached pages.

With enough frames for tables, `pmap_map_mmio` makes every byte of the device reachable without caching if
and only if its pages are as many as its size says, and none of them is in a huge page. -/
theorem pmapMapMmio_deviceMapped_iff {S : Type*} {A : KernelAlloc S} {Ok : S → Prop}
    {frames : S → Set ℕ} (hA : A.LawfulPages Ok frames) {kernel : VmMap} {s : Machine S}
    {phys size : ℕ} (hcached : Cached Ok frames kernel.pageTable.pml4Phy s) (hsize : 0 < size)
    (hphys : phys + size < 2 ^ 46)
    (hsucc : ¬ Failed s (pmapMapMmio A hhdmOffset kernel phys size s)) :
    DeviceMapped phys size kernel.pageTable.pml4Phy (pmapMapMmio A hhdmOffset kernel phys size s) ↔
      DeviceInReach phys size kernel.pageTable.pml4Phy s := by
  have hvirt : (phys + hhdmOffset) % wordSize = phys + hhdmOffset := by
    simp only [hhdmOffset, wordSize]
    omega
  have hn : alignUp size pageSize / pageSize * 4096 = pageCeil size := by
    rw [alignUp_page_of_lt (by simp only [wordSize]; omega), pageCeil]
    simp only [pageSize]
    omega
  rw [pmapMapMmio, hvirt] at hsucc ⊢
  generalize alignUp size pageSize / pageSize = n at *
  obtain ⟨hin, hout⟩ := @mapMmioPages_spec _ A _ _ _ (phys + hhdmOffset) phys s hA n 0
    hcached.state (by decide) (by simp only [pageCeil] at hn; omega)
    (by simp only [InOneHalf, hhdmOffset]; simp only [pageCeil] at hn; omega) hsucc
  have hhhdm : 4096 ∣ hhdmOffset := by decide
  have hbyte {b : ℕ} (hb : phys ≤ b) := @deviceByte_lt hhdmOffset phys size b hhhdm hb
  generalize mapMmioPages A kernel.pageTable.pml4Phy (phys + hhdmOffset) phys n 0 s = s' at *
  rw [hn, Nat.add_zero] at hin hout
  -- a byte that the loop does not reach keeps its cached translation, if any
  have hkept {b : ℕ} {a : Access} (hsame : translate s'.mem kernel.pageTable.pml4Phy (b + hhdmOffset) =
      translate s.mem kernel.pageTable.pml4Phy (b + hhdmOffset))
      (htrans : translate s'.mem kernel.pageTable.pml4Phy (b + hhdmOffset) = some ⟨b, a⟩) :
      a.uncached = false :=
    hcached.cached _ ⟨b, a⟩ (hsame ▸ htrans)
  constructor
  · intro hmapped
    refine ⟨?_, fun b h1 h2 hblocked => ?_⟩
    · by_contra hshort
      have hlast : phys ≤ phys + size - 1 := by omega
      obtain ⟨a, htrans, -, -, huncached⟩ := hmapped _ hlast (by omega)
      have hbeyond : ¬ phys % 4096 + (phys + size - 1 - phys) < pageCeil size := by
        generalize pageCeil size = c at hshort ⊢
        omega
      have hcache := hkept (hout _ (.inr (.inl
        (Nat.le_of_not_lt ((hbyte hlast).2.1.not.mpr hbeyond))))) htrans
      rw [huncached] at hcache
      cases hcache
    · obtain ⟨a, htrans, -, -, huncached⟩ := hmapped b h1 h2
      have hcache := hkept (hout _ (.inr (.inr hblocked))) htrans
      rw [huncached] at hcache
      cases hcache
  · intro hreach b h1 h2
    obtain ⟨hge, hlt, hphysical⟩ := hbyte h1
    have hlast := hreach.last
    have hcover : phys % 4096 + (b - phys) < pageCeil size := by
      generalize pageCeil size = c at hlast ⊢
      omega
    have htrans := hin _ hge (hlt.mpr hcover) (hreach.unblocked b h1 h2)
    rw [hphysical] at htrans
    exact ⟨_, htrans, rfl, rfl, rfl⟩

/-- When a device is mapped.

For every memory map, every kernel image and every device below `2 ^ 46`, with enough frames for tables,
`pmap_map_mmio` after `init_pmap` makes every byte of the device reachable without caching if and only if
its pages are as many as its size says, and none of them is in a huge page of the direct map. -/
theorem initPmap_deviceMapped_iff {S : Type*} {A : KernelAlloc S} {Ok : S → Prop} {frames : S → Set ℕ}
    {objects : CacheName → S → Set ℕ} (hA : A.Lawful Ok frames objects) {map : MemoryMap}
    {kernel : VmMap} {s s₁ s₂ : Machine S} {L : KernelLayout} {kphys phys size : ℕ} (hok : Ok s.alloc)
    (hinit : initPmap A hhdmOffset map s = (some kernel, s₁))
    (hkernel : mapKernelImage A kernel.pageTable.pml4Phy kphys L.ksects s₁ = s₂) (hsize : 0 < size)
    (hphys : phys + size < 2 ^ 46)
    (hsucc : ¬ Failed s (pmapMapMmio A hhdmOffset kernel phys size s₂)) :
    DeviceMapped phys size kernel.pageTable.pml4Phy (pmapMapMmio A hhdmOffset kernel phys size s₂) ↔
      DeviceInReach phys size kernel.pageTable.pml4Phy s₂ := by
  subst hkernel
  have hlog : s.log <+: s₁.log := (callInvariant_log A s.log).initPmap hinit List.prefix_rfl
  have hlog' := hlog.trans
    (@mapKernelImage_log _ A kernel.pageTable.pml4Phy kphys s₁ L.ksects)
  exact pmapMapMmio_deviceMapped_iff hA.toLawfulPages (initPmap_cached hA hok hinit L kphys) hsize
    hphys fun h => hsucc (h.extend hlog' List.prefix_rfl)

/-- A device in a page of its own is mapped, on a map with sixteen USABLE frames. -/
theorem initPmap_deviceMapped_sixteenFrameMap :
    ∃ s₀ kernel s, initBitmapPmm sixteenFrameMap (fun _ => 0#8) = some s₀ ∧
      initPmap kernelAllocators hhdmOffset sixteenFrameMap (bootMachine s₀) = (some kernel, s) ∧
      DeviceMapped 0x500000 0x1000 kernel.pageTable.pml4Phy
        (pmapMapMmio kernelAllocators hhdmOffset kernel 0x500000 0x1000 (mapKernelImage
          kernelAllocators kernel.pageTable.pml4Phy 0x200000 smallLayout.ksects s)) := by
  obtain ⟨s₀, hinit⟩ := initBitmapPmm_isSome sixteenFrameMap_bootable (fun _ => 0#8)
  have hconcrete : ((initBitmapPmm sixteenFrameMap (fun _ => 0#8)).bind fun pages =>
      let r := initPmap kernelAllocators hhdmOffset sixteenFrameMap (bootMachine pages)
      r.1.map fun kernel =>
        let s := mapKernelImage kernelAllocators kernel.pageTable.pml4Phy 0x200000 smallLayout.ksects r.2
        decide (¬ Failed (bootMachine pages)
            (pmapMapMmio kernelAllocators hhdmOffset kernel 0x500000 0x1000 s) ∧
          hugeOnPath s.mem kernel.pageTable.pml4Phy (tablePath (0x500000 + hhdmOffset)) = false)) =
      some true := by
    decide +kernel
  rw [hinit, Option.bind_some] at hconcrete
  obtain ⟨kernel, hkernel, hcheck⟩ := Option.map_eq_some_iff.mp hconcrete
  obtain ⟨hsucc, hfree⟩ := of_decide_eq_true hcheck
  refine ⟨s₀, kernel, _, hinit, Prod.ext hkernel rfl, (initPmap_deviceMapped_iff kernelAllocators_lawful
    (bootMem_ok (Pmm.Ok.of_init sixteenFrameMap_bootable hinit)) (Prod.ext hkernel rfl) rfl (by decide)
    (by decide) hsucc).mpr ⟨by decide, fun b h1 h2 => ?_⟩⟩
  have hblock : (b + hhdmOffset) / 2 ^ 21 = (0x500000 + hhdmOffset) / 2 ^ 21 := by
    simp only [hhdmOffset]
    omega
  rw [blocked_congr hblock, Blocked, hfree]
  decide

/-- A boot map with a reserved entry of 2 MiB, which the direct map covers by a huge page. -/
def reservedBlockMap : MemoryMap :=
  memmapInit [⟨0, 0x10000, .usable⟩, ⟨0x200000, 0x200000, .reserved⟩]

/-- The map meets the boot loader's guarantees. -/
theorem reservedBlockMap_bootable : reservedBlockMap.Bootable := by
  refine ⟨?_, ?_, ?_, ?_⟩
  · simp [reservedBlockMap, memmapInit]
  · simp only [reservedBlockMap, memmapInit, List.take, List.pairwise_cons, List.mem_cons,
      List.not_mem_nil, or_false, forall_eq, List.Pairwise.nil, and_true, false_imp_iff, implies_true]
    omega
  · simp [reservedBlockMap, memmapInit]
  · exact ⟨⟨0, 0x10000, .usable⟩, by simp [reservedBlockMap, memmapInit], rfl, by decide⟩

/-- A device in the reserved entry stays cached, and the last bytes of a device that does not start at a
page are not mapped. -/
theorem initPmap_missesDevice :
    ∃ s₀ kernel s, initBitmapPmm reservedBlockMap (fun _ => 0#8) = some s₀ ∧
      initPmap kernelAllocators hhdmOffset reservedBlockMap (bootMachine s₀) = (some kernel, s) ∧
      let s' := mapKernelImage kernelAllocators kernel.pageTable.pml4Phy 0x200000 smallLayout.ksects s
      ¬ Failed (bootMachine s₀) (pmapMapMmio kernelAllocators hhdmOffset kernel 0x300000 0x1000 s') ∧
      ¬ DeviceMapped 0x300000 0x1000 kernel.pageTable.pml4Phy
        (pmapMapMmio kernelAllocators hhdmOffset kernel 0x300000 0x1000 s') ∧
      ¬ Failed (bootMachine s₀) (pmapMapMmio kernelAllocators hhdmOffset kernel 0x500800 0x1000 s') ∧
      ¬ DeviceMapped 0x500800 0x1000 kernel.pageTable.pml4Phy
        (pmapMapMmio kernelAllocators hhdmOffset kernel 0x500800 0x1000 s') := by
  obtain ⟨s₀, hinit⟩ := initBitmapPmm_isSome reservedBlockMap_bootable (fun _ => 0#8)
  have hconcrete : ((initBitmapPmm reservedBlockMap (fun _ => 0#8)).bind fun pages =>
      let r := initPmap kernelAllocators hhdmOffset reservedBlockMap (bootMachine pages)
      r.1.map fun kernel =>
        let s := mapKernelImage kernelAllocators kernel.pageTable.pml4Phy 0x200000 smallLayout.ksects r.2
        let huge := pmapMapMmio kernelAllocators hhdmOffset kernel 0x300000 0x1000 s
        let odd := pmapMapMmio kernelAllocators hhdmOffset kernel 0x500800 0x1000 s
        decide (¬ Failed (bootMachine pages) huge ∧
          (translate huge.mem kernel.pageTable.pml4Phy (0x300000 + hhdmOffset)).map
            (fun t => t.access.uncached) = some false ∧
          ¬ Failed (bootMachine pages) odd ∧
          translate odd.mem kernel.pageTable.pml4Phy (0x501000 + hhdmOffset) = none)) = some true := by
    decide +kernel
  rw [hinit, Option.bind_some] at hconcrete
  obtain ⟨kernel, hkernel, hcheck⟩ := Option.map_eq_some_iff.mp hconcrete
  obtain ⟨hsucc, hcached, hsucc', hnone⟩ := of_decide_eq_true hcheck
  refine ⟨s₀, kernel, _, hinit, Prod.ext hkernel rfl, hsucc, fun hmapped => ?_, hsucc',
    fun hmapped => ?_⟩
  · obtain ⟨a, htrans, -, -, huncached⟩ := hmapped 0x300000 (by decide) (by decide)
    rw [htrans, Option.map_some, huncached] at hcached
    cases hcached
  · obtain ⟨a, htrans, -⟩ := hmapped 0x501000 (by decide) (by decide)
    rw [hnone] at htrans
    cases htrans

end Flos.Mm
