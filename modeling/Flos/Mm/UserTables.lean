import Flos.Lib.RadixTeardown
import Flos.Mm.CallInvariants
import Flos.Mm.Holding
import Flos.Mm.UserTree

/-!
# Holding the frames of a page table

The frames of the user half of a page table, together with other resources, are what is held from
the allocators. Mapping a page takes frames for the tables on its path, unmapping gives the page
back, and the teardown loops give back what is left, each frame once.
-/

namespace Flos.Mm

open Flos.Lib

variable {S : Type*} {A : KernelAlloc S} {H : Machine S → List Resource → Prop}
  {Good : Machine S → Prop} {borrowed nodes fixed : Set ℕ} {root : ℕ} {others : List Resource}

/-- The held resources are the frames of the user half and some others. -/
structure UserTables (H : Machine S → List Resource → Prop) (borrowed : Set ℕ) (root : ℕ)
    (others : List Resource) (s : Machine S) : Prop where
  tree : UserTree borrowed s.mem root
  holds : ∃ fs : List ℕ, (∀ f, f ∈ fs ↔ f ∈ userFrames borrowed s.mem root) ∧
    H s (fs.map .frame ++ others)

/-! ## Mapping -/

variable (hH : Holding A H Good borrowed nodes fixed)

include hH

/-- Writing a slot of a held frame, of the lower half if the frame is fixed. -/
theorem Holding.writeSlot {s : Machine S} {held : List Resource} {t : ℕ} {i : Fin 512} (h : H s held)
    (ht : .frame t ∈ held) (hi : t ∈ fixed → i.val < 256) (e : ℕ) :
    H ⟨writeSlot s.mem t i e, s.alloc, s.log⟩ held := by
  refine hH.write h ht (fun f hf => Function.update_of_ne hf _ _) fun hfixed j hj => ?_
  refine writeSlot_of_ne ?_
  rintro ⟨-, rfl⟩
  exact absurd (hi hfixed) (by omega)

/-- Clearing a held frame and linking it into a slot of another. -/
theorem Holding.linkTable {s : Machine S} {held : List Resource} {t g : ℕ} {i : Fin 512}
    (h : H s held) (ht : .frame t ∈ held) (hi : t ∈ fixed → i.val < 256) (hg : .frame g ∈ held)
    (hfixed : g ∉ fixed) : H { s with mem := linkTable s.mem t i g } held := by
  have hcleared : H ⟨Function.update s.mem g fun _ => 0, s.alloc, s.log⟩ held :=
    hH.write h hg (fun f hf => Function.update_of_ne hf _ _) fun hmem => absurd hmem hfixed
  exact hH.writeSlot hcleared ht hi _

/-- A held frame beside the page table is no frame of it. -/
theorem UserTables.fresh {s : Machine S} {f : ℕ} (h : UserTables H borrowed root others s)
    (hf : .frame f ∈ others) : f ∉ userFrames borrowed s.mem root := by
  obtain ⟨fs, hfs, hholds⟩ := h.holds
  exact fun hmem => (hH.frames_split hholds).2 f ((hfs f).mpr hmem) hf

omit hH in
/-- A frame that the page table does not own is not fixed. -/
theorem UserTables.not_fixed {s : Machine S} {f : ℕ} (h : UserTables H borrowed root others s)
    (hfix : fixed ⊆ {root}) (hf : f ∉ userFrames borrowed s.mem root) : f ∉ fixed := by
  intro hfixed
  obtain rfl := hfix hfixed
  exact hf ⟨[], ⟨by simp, by simp⟩, rfl⟩

omit hH in
/-- A slot on a user path is in the lower half if its table is fixed. -/
theorem UserTables.slot_lower {s : Machine S} {p : List (Fin 512)} {i : Fin 512} {t : ℕ}
    (h : UserTables H borrowed root others s) (hfix : fixed ⊆ {root}) (hp : UserPath (p ++ [i]))
    (ht : tableAt (ownEntry borrowed) s.mem root p = some t) (hfixed : t ∈ fixed) : i.val < 256 := by
  obtain rfl := hfix hfixed
  obtain rfl := h.tree.distinct p [] t hp.of_append ⟨by simp, by simp⟩ ht rfl
  exact hp.2 i rfl

/-- Clearing a held frame beside the page table changes no path. -/
theorem UserTables.zeroFrame {s : Machine S} {f : ℕ} (h : UserTables H borrowed root others s)
    (hfix : fixed ⊆ {root}) (hf : .frame f ∈ others) :
    UserTables H borrowed root others (s.zeroFrame f) ∧ ∀ q, UserPath q →
      tableAt (ownEntry borrowed) (s.zeroFrame f).mem root q =
        tableAt (ownEntry borrowed) s.mem root q := by
  obtain ⟨htree, hsame⟩ := h.tree.zeroFrame (h.fresh hH hf)
  obtain ⟨fs, hfs, hholds⟩ := h.holds
  refine ⟨⟨htree, fs, fun g => (hfs g).trans ?_, hH.write hholds (List.mem_append_right _ hf)
    (fun g hg => Function.update_of_ne hg _ _)
    fun hfixed => absurd hfixed (h.not_fixed hfix (h.fresh hH hf))⟩, hsame⟩
  exact (Set.ext_iff.mp (reachedTables_congr hsame) g).symm

/-- One level of a walk: the table below is reached unless an allocation failed, and no other path
changes. -/
theorem UserTables.nextLevel {p : List (Fin 512)} {i : Fin 512} {t : ℕ} {s : Machine S}
    (h : UserTables H borrowed root others s) (hfix : fixed ⊆ {root}) (hp : UserPath (p ++ [i]))
    (hlen : p.length ≤ 2)
    (ht : tableAt (ownEntry borrowed) s.mem root p = some t)
    (hgood : Good (getNextLevel A t i true s).2) :
    UserTables H borrowed root others (getNextLevel A t i true s).2 ∧
      ((getNextLevel A t i true s).1 = none → Failed s (getNextLevel A t i true s).2) ∧
      (∀ g, (getNextLevel A t i true s).1 = some g →
        tableAt (ownEntry borrowed) (getNextLevel A t i true s).2.mem root (p ++ [i]) = some g) ∧
      ∀ q, UserPath q → q ≠ p ++ [i] →
        tableAt (ownEntry borrowed) (getNextLevel A t i true s).2.mem root q =
          tableAt (ownEntry borrowed) s.mem root q := by
  obtain ⟨fs, hfs, hholds⟩ := h.holds
  have hentry := h.tree.entries p i t hp ht
  rcases getNextLevel_cases A t i s with ⟨f, hf, hr⟩ | ⟨hhuge, hr⟩ | ⟨hclear, hfail, hr⟩ |
    ⟨hclear, hnew, hr⟩
  · rw [hr]
    refine ⟨h, by simp, ?_, fun _ _ _ => rfl⟩
    rintro _ ⟨⟩
    rcases hentry with hzero | ⟨g, hg, hborrowed⟩
    · rw [hzero, tableEntry_zero] at hf
      cases hf
    · obtain rfl := Option.some.inj (hf.symm.trans hg)
      rw [tableAt_concat ht]
      exact ownEntry_eq_some.mpr ⟨hf, fun hmem => absurd (hborrowed hmem) (by omega)⟩
  · -- there are no huge pages in the user half
    rcases hentry with hzero | ⟨f, hf, -⟩
    · simp [hzero] at hhuge
    · simp [(tableEntry_eq_some.mp hf).2.1] at hhuge
  · rw [hr] at hgood ⊢
    exact ⟨⟨h.tree, fs, hfs, hH.allocPage_fail hholds hfail hgood⟩,
      fun _ => .of_log rfl (not_not.mpr hfail), by simp, fun _ _ _ => rfl⟩
  · have hzero : s.mem t i = 0 := by
      rcases hentry with hzero | ⟨f, hf, -⟩
      · exact hzero
      · simp [(tableEntry_eq_some.mp hf).1] at hclear
    have hheld := hH.allocPage hholds hnew
    have hfresh : (s.allocPage A).1 ∉ userFrames borrowed s.mem root := by
      intro hmem
      have hnodup := hH.frames_nodup hheld
      rw [heldFrames_frame, heldFrames_append, heldFrames_map_frame, List.nodup_cons] at hnodup
      exact hnodup.1 (List.mem_append_left _ ((hfs _).mpr hmem))
    obtain ⟨-, hdvd, hlt, hown⟩ := hH.frame_addr hheld List.mem_cons_self
    obtain ⟨htree, hpath⟩ := h.tree.link hp ht hzero hfresh hdvd hlt hown
    have hnone : tableAt (ownEntry borrowed) s.mem root (p ++ [i]) = none := by
      rw [tableAt_concat ht, hzero, ownEntry_zero]
    have hwrite : H { (s.allocPage A).2 with mem := linkTable s.mem t i (s.allocPage A).1 }
        (.frame (s.allocPage A).1 :: (fs.map .frame ++ others)) :=
      hH.linkTable hheld (List.mem_cons_of_mem _ (List.mem_append_left _
        (List.mem_map_of_mem ((hfs t).mpr ⟨p, hp.of_append, ht⟩))))
        (h.slot_lower hfix hp ht) List.mem_cons_self (h.not_fixed hfix hfresh)
    obtain ⟨fs', hfs', hexchange⟩ :=
      hpath.exchange hp h.tree.distinct (hH.frames_split hholds).1 hfs
    rw [hnone] at hexchange
    rw [hr]
    refine ⟨⟨htree, fs', hfs', hH.perm hwrite ((hexchange.map Resource.frame).append_right others)⟩, by simp,
      ?_, fun q hq hne => by rw [hpath q hq, if_neg hne]⟩
    rintro _ ⟨⟩
    rw [hpath _ hp, if_pos rfl]

/-- A walk ends in the table at its path unless an allocation failed, and changes no path to a
page. -/
theorem UserTables.walk {path p : List (Fin 512)} {t : ℕ} {s : Machine S}
    (h : UserTables H borrowed root others s) (hfix : fixed ⊆ {root}) (hp : UserPath (p ++ path))
    (hlen : (p ++ path).length ≤ 3) (ht : tableAt (ownEntry borrowed) s.mem root p = some t)
    (hgood : Good (descend A true t path s).2) :
    UserTables H borrowed root others (descend A true t path s).2 ∧
      ((descend A true t path s).1 = none → Failed s (descend A true t path s).2) ∧
      (∀ g, (descend A true t path s).1 = some g →
        tableAt (ownEntry borrowed) (descend A true t path s).2.mem root (p ++ path) = some g) ∧
      ∀ q, UserPath q → q.length = 4 →
        tableAt (ownEntry borrowed) (descend A true t path s).2.mem root q =
          tableAt (ownEntry borrowed) s.mem root q := by
  induction path generalizing p t s with
  | nil =>
    refine ⟨h, by simp [descend], ?_, fun _ _ _ => rfl⟩
    rintro _ ⟨⟩
    rwa [List.append_nil]
  | cons i path ih =>
    rw [List.append_cons] at hp hlen
    have hlog : s.log <+: (getNextLevel A t i true s).2.log :=
      (callInvariant_log A s.log).getNextLevel t i List.prefix_rfl
    have hlast : ∀ q : List (Fin 512), q.length = 4 → q ≠ p ++ [i] := by
      -- the new table is no page
      rintro q hq4 rfl
      rw [List.length_append] at hlen
      omega
    rw [descend] at hgood ⊢
    have hgood' : Good (getNextLevel A t i true s).2 := by
      rcases hr : getNextLevel A t i true s with ⟨_ | g, s'⟩
      · rwa [hr] at hgood
      · rw [hr] at hgood
        exact hH.good_of_isPrefix ((callInvariant_log A s'.log).descend path g List.prefix_rfl) hgood
    have hp2 : p.length ≤ 2 := by
      simp only [List.length_append, List.length_singleton] at hlen
      omega
    have hlevel := h.nextLevel hH hfix hp.of_append hp2 ht hgood'
    rcases hr : getNextLevel A t i true s with ⟨_ | g, s'⟩
    all_goals
      rw [hr] at hgood hlevel hlog
      obtain ⟨htables, hfail, hnext, hsame⟩ := hlevel
    · exact ⟨htables, hfail, by simp, fun q hq hq4 => hsame q hq (hlast q hq4)⟩
    · obtain ⟨hend, hfail', hreach, hpages⟩ := ih htables hp hlen (hnext g rfl) hgood
      refine ⟨hend, fun hnone => (hfail' hnone).extend hlog List.prefix_rfl, ?_,
        fun q hq hq4 => (hpages q hq hq4).trans (hsame q hq (hlast q hq4))⟩
      rwa [List.append_cons]

/-- Mapping an entry at an address of the lower half: a held page, or a borrowed one. Either a table
could not be allocated, or the entry is mapped and the page that was there before is left beside the
page table. -/
theorem UserTables.mapEntry {va e size : ℕ} {s : Machine S} (hva : va < 2 ^ 47)
    (he : ∃ f, tableEntry e = some f) (hfix : fixed ⊆ {root})
    (h : UserTables H borrowed root ((ownEntry borrowed e).toList.map .frame ++ others) s)
    (hgood : Good (mapLeaf A root [pml4Idx va, pdptIdx va, pdIdx va] (ptIdx va) e size s).2) :
    let r := mapLeaf A root [pml4Idx va, pdptIdx va, pdIdx va] (ptIdx va) e size s
    (r.1 = 0 ∧ Failed s r.2 ∧
      UserTables H borrowed root ((ownEntry borrowed e).toList.map .frame ++ others) r.2 ∧
      ∀ q, UserPath q → q.length = 4 → tableAt (ownEntry borrowed) r.2.mem root q =
        tableAt (ownEntry borrowed) s.mem root q) ∨
    (r.1 = size ∧
      UserTables H borrowed root
        ((tableAt (ownEntry borrowed) s.mem root (pathOf va)).toList.map .frame ++ others) r.2 ∧
      ∀ q, UserPath q → q.length = 4 → tableAt (ownEntry borrowed) r.2.mem root q =
        if q = pathOf va then ownEntry borrowed e
        else tableAt (ownEntry borrowed) s.mem root q) := by
  have hpath : UserPath ([pml4Idx va, pdptIdx va, pdIdx va] ++ [ptIdx va]) := userPath_pathOf hva
  rw [mapLeaf] at hgood ⊢
  have hgood' : Good (descend A true root [pml4Idx va, pdptIdx va, pdIdx va] s).2 := by
    refine hH.good_of_isPrefix ?_ hgood
    split <;> next hd => rw [hd]
  obtain ⟨htables, hfail, hreach, hpages⟩ :=
    h.walk hH (p := []) hfix hpath.of_append (by simp) rfl hgood'
  rcases hd : descend A true root [pml4Idx va, pdptIdx va, pdIdx va] s with ⟨_ | t, s'⟩
  all_goals rw [hd] at htables hfail hreach hpages
  · exact .inl ⟨rfl, hfail rfl, htables, hpages⟩
  refine .inr ⟨rfl, ?_⟩
  have ht := hreach t rfl
  have hold := hpages (pathOf va) (userPath_pathOf hva) (pathOf_length va)
  obtain ⟨fs, hfs, hholds⟩ := htables.holds
  have hfresh : ∀ f, ownEntry borrowed e = some f → f ∉ userFrames borrowed s'.mem root :=
    fun f hf => htables.fresh hH (List.mem_append_left _ (by simp [hf]))
  obtain ⟨htree, hretarget⟩ := htables.tree.setPage (i := ptIdx va) hpath ht rfl (.inr he) hfresh
  have hwrite := hH.writeSlot hholds (List.mem_append_left _ (List.mem_map_of_mem
    ((hfs t).mpr ⟨_, hpath.of_append, ht⟩))) (htables.slot_lower hfix hpath ht) e
  obtain ⟨fs', hfs', hexchange⟩ :=
    hretarget.exchange hpath htables.tree.distinct (hH.frames_split hholds).1 hfs
  change (_ ++ fs).Perm ((tableAt (ownEntry borrowed) s'.mem root (pathOf va)).toList ++ fs')
    at hexchange
  rw [hold] at hexchange
  refine ⟨⟨htree, fs', hfs', hH.perm hwrite ?_⟩, fun q hq hq4 => ?_⟩
  · -- the new page moves into the tree and the old one out of it
    have hheld := (hexchange.map Resource.frame).append_right others
    simp only [List.map_append, List.append_assoc] at hheld
    exact (List.perm_append_comm_assoc _ _ _).trans
      (hheld.trans (List.perm_append_comm_assoc _ _ _))
  · rw [hretarget q hq, hpages q hq hq4]
    rfl

/-! ## Unmapping -/

/-- Unmapping an address of the lower half gives back its page, if there was one of its own. -/
theorem UserTables.unmapPage {va : ℕ} {s : Machine S}
    (h : UserTables H borrowed root others s) (hfix : fixed ⊆ {root}) (hva : va < 2 ^ 47)
    (hsafe : ∀ f ∈ borrowed, PageLeaf s.mem root va f → f = 0) :
    let r := pmapUnmapPage A root va s
    let s' := if r.1 ≠ 0 then r.2.freePage A r.1 else r.2
    UserTables H borrowed root others s' ∧
      Retargets (ownEntry borrowed) UserPath s.mem s'.mem root (pathOf va) none := by
  obtain ⟨fs, hfs, hholds⟩ := h.holds
  have hpath : UserPath ([pml4Idx va, pdptIdx va, pdIdx va] ++ [ptIdx va]) := userPath_pathOf hva
  have htop := h.tree.tableAt_eq hpath.of_append (by simp)
  rcases pmapUnmapPage_cases A root va s with ⟨ht, hr⟩ | ⟨t, ht, hr⟩
  · rw [ht] at htop
    have hnone : tableAt (ownEntry borrowed) s.mem root (pathOf va) = none :=
      (tableAt_append root [pml4Idx va, pdptIdx va, pdIdx va] [ptIdx va]).trans (by rw [htop]; rfl)
    simp only [hr, ne_eq, not_true, if_false]
    refine ⟨h, fun q _ => ?_⟩
    by_cases hq : q = pathOf va
    · rw [if_pos hq, hq]
      exact hnone
    · rw [if_neg hq]
  · have ht' := htop.trans ht
    have hold : tableAt (ownEntry borrowed) s.mem root (pathOf va) =
        ownEntry borrowed (s.mem t (ptIdx va)) := tableAt_concat ht' (ptIdx va)
    obtain ⟨htree, hretarget⟩ := h.tree.setPage (i := ptIdx va) (e := 0) hpath ht' rfl (.inl rfl)
      (by simp)
    rw [ownEntry_zero] at hretarget
    have hwrite := hH.writeSlot hholds (List.mem_append_left _ (List.mem_map_of_mem
      ((hfs t).mpr ⟨_, hpath.of_append, ht'⟩))) (h.slot_lower hfix hpath ht') 0
    obtain ⟨fs', hfs', hexchange⟩ :=
      hretarget.exchange hpath h.tree.distinct (hH.frames_split hholds).1 hfs
    change fs.Perm ((tableAt (ownEntry borrowed) s.mem root (pathOf va)).toList ++ fs') at hexchange
    have hheld := hH.perm hwrite ((hexchange.map Resource.frame).append_right others)
    simp only [hr]
    cases hown : ownEntry borrowed (s.mem t (ptIdx va)) with
    | some f =>
      obtain ⟨hf, hfb⟩ := ownEntry_eq_some.mp hown
      obtain ⟨-, -, haddr⟩ := tableEntry_eq_some.mp hf
      rw [hold, hown] at hheld
      have hne := (hH.frame_addr hheld List.mem_cons_self).1
      simp only [haddr, ne_eq, hne, not_false_eq_true, if_true]
      exact ⟨⟨htree, fs', hfs', hH.freePage hheld⟩, hretarget⟩
    | none =>
      rw [hold, hown] at hheld
      -- a borrowed frame in the range is the null frame, which is not freed
      have hzero : s.mem t (ptIdx va) &&& pagePhysMask = 0 := by
        rcases h.tree.entries _ _ _ hpath ht' with hzero | ⟨f, hf, -⟩
        · rw [hzero, Nat.zero_and]
        · obtain ⟨-, -, haddr⟩ := tableEntry_eq_some.mp hf
          rw [haddr]
          exact hsafe f (ownEntry_eq_none.mp hown f hf) ⟨t, ht, haddr⟩
      simp only [hzero, ne_eq, not_true, if_false]
      exact ⟨⟨htree, fs', hfs', hheld⟩, hretarget⟩

omit hH in
/-- The memory behind the release of one page is that behind its unmapping. -/
theorem freePage_ite_mem (f : ℕ) (s : Machine S) :
    (if f ≠ 0 then s.freePage A f else s).mem = s.mem := by
  split <;> rfl

omit hH in
/-- The unmapping loop creates no leaf. -/
theorem PageLeaf.of_unmapPages {endAddr fuel va x f : ℕ} {s : Machine S}
    (h : PageLeaf (unmapPages A root endAddr fuel va s).mem root x f) (hne : f ≠ 0) :
    PageLeaf s.mem root x f := by
  induction fuel generalizing va s with
  | zero => exact h
  | succ fuel ih =>
    rw [Mm.unmapPages] at h
    split at h
    · have hstep := ih h
      rw [freePage_ite_mem] at hstep
      exact hstep.of_unmapPage A hne
    · exact h

/-- Pages of a range are unmapped: none of them is left and no other path is changed. -/
structure Unmapped (borrowed : Set ℕ) (mem mem' : ℕ → Fin 512 → ℕ) (root va endAddr : ℕ) : Prop where
  none : ∀ x, va ≤ x → x < endAddr → 4096 ∣ x →
    tableAt (ownEntry borrowed) mem' root (pathOf x) = none
  kept : ∀ q f, UserPath q → tableAt (ownEntry borrowed) mem' root q = some f →
    tableAt (ownEntry borrowed) mem root q = some f

/-- The unmapping loop gives back every page of its range. -/
theorem UserTables.unmapPages {va endAddr fuel : ℕ} {s : Machine S}
    (h : UserTables H borrowed root others s) (hfix : fixed ⊆ {root}) (hdvd : 4096 ∣ va)
    (hend : endAddr ≤ 2 ^ 47) (hfuel : pagesBetween va endAddr ≤ fuel)
    (hsafe : ∀ x, va ≤ x → x < endAddr → ∀ f ∈ borrowed, PageLeaf s.mem root x f → f = 0) :
    UserTables H borrowed root others (unmapPages A root endAddr fuel va s) ∧
      Unmapped borrowed s.mem (unmapPages A root endAddr fuel va s).mem root va endAddr := by
  have hempty : ∀ {va : ℕ} {s : Machine S}, ¬ va < endAddr →
      Unmapped borrowed s.mem s.mem root va endAddr :=
    fun hva => ⟨fun x hx hlt => absurd (hx.trans_lt hlt) hva, fun _ _ _ hf => hf⟩
  induction fuel generalizing va s with
  | zero =>
    refine ⟨h, hempty ?_⟩
    simp only [pagesBetween] at hfuel
    omega
  | succ fuel ih =>
    rw [Mm.unmapPages]
    split
    next hva =>
      obtain ⟨hstep, hpath⟩ := h.unmapPage hH hfix (hva.trans_le hend) (hsafe va le_rfl hva)
      have hnext : (va + 0x1000) % wordSize = va + 0x1000 :=
        Nat.mod_eq_of_lt (by simp only [wordSize]; omega)
      have hsafe' : ∀ x, va + 0x1000 ≤ x → x < endAddr → ∀ f ∈ borrowed,
          PageLeaf (pmapUnmapPage A root va s).2.mem root x f → f = 0 := by
        intro x hx hlt f hf hleaf
        by_contra hne
        exact hne (hsafe x (by omega) hlt f hf (hleaf.of_unmapPage A hne))
      have hfuel' : pagesBetween (va + 0x1000) endAddr ≤ fuel := by
        simp only [pagesBetween] at hfuel ⊢
        omega
      obtain ⟨hrest, hunmapped⟩ := ih hstep (Nat.dvd_add hdvd (Nat.dvd_refl 4096)) hfuel'
        (by simpa only [freePage_ite_mem] using hsafe')
      simp only [hnext]
      refine ⟨hrest, fun x hx hlt hxdvd => ?_, fun q f hq hf => ?_⟩
      · by_cases hxva : x = va
        · subst hxva
          cases hf : tableAt (ownEntry borrowed) _ root (pathOf x) with
          | none => rfl
          | some f =>
            have hold := hunmapped.kept _ _ (userPath_pathOf (hlt.trans_le hend)) hf
            rw [hpath _ (userPath_pathOf (hlt.trans_le hend)), if_pos rfl] at hold
            cases hold
        · exact hunmapped.none x (by omega) hlt hxdvd
      · have hold := hunmapped.kept q f hq hf
        rw [hpath q hq] at hold
        split at hold
        · cases hold
        · exact hold
    next hva => exact ⟨h, hempty hva⟩

/-! ## Teardown -/

omit hH in
/-- Freeing frames leaves memory as it is. -/
theorem foldl_freePage_mem (fs : List ℕ) (s : Machine S) :
    (fs.foldl (fun s f => s.freePage A f) s).mem = s.mem := by
  induction fs generalizing s with
  | nil => rfl
  | cons f fs ih => exact ih (s.freePage A f)

omit hH in
/-- Freeing frames is logged. -/
theorem foldl_freePage_log (fs : List ℕ) (s : Machine S) :
    (fs.foldl (fun s f => s.freePage A f) s).log = s.log ++ fs.map .freeFrame := by
  induction fs generalizing s with
  | nil => exact (List.append_nil _).symm
  | cons f fs ih => exact (ih (s.freePage A f)).trans (List.append_assoc _ [_] _)

omit hH in
/-- The entries of the tables that a teardown visits: clear, or the frame of a table. -/
def TeardownEntries (child : ℕ → Option ℕ) (m : ℕ → Fin 512 → ℕ) (root : ℕ) : Prop :=
  ∀ p i t, UserPath (p ++ [i]) → p.length ≤ 2 → tableAt child m root p = some t →
    (m t i).testBit 0 = false ∧ child (m t i) = none ∨
      (m t i).testBit 0 = true ∧ child (m t i) = some (m t i &&& pagePhysMask)

omit hH in
/-- The teardown loops free the tables below the given slots, each behind the tables below it. -/
theorem freeTables_eq {child : ℕ → Option ℕ} {m : ℕ → Fin 512 → ℕ}
    (hentries : TeardownEntries child m root) {depth t : ℕ} {p slots : List (Fin 512)} {s : Machine S}
    (hs : s.mem = m) (ht : tableAt child m root p = some t) (hslots : ∀ i ∈ slots, UserPath (p ++ [i]))
    (hlen : p.length + depth ≤ 3) :
    freeTables A depth t slots s =
      (subtables child m allSlots depth t slots).foldl (fun s f => s.freePage A f) s := by
  induction depth generalizing p t slots s with
  | zero => rfl
  | succ depth ih =>
    rw [freeTables, subtables]
    induction slots generalizing s with
    | nil => rfl
    | cons i slots ihs =>
      rw [List.foldl_cons, List.flatMap_cons, List.foldl_append]
      have hslot := hslots i List.mem_cons_self
      have hrest := fun j hj => hslots j (List.mem_cons_of_mem i hj)
      rcases hentries p i t hslot (by omega) ht with ⟨hclear, hnone⟩ | ⟨hpresent, hchild⟩
      · have hbit : m t i &&& pagePresent = 0 := by
          by_contra hne
          rw [(and_bit_ne_zero _ 0).mp hne] at hclear
          cases hclear
        simp only [hs, hbit, if_true, hnone, List.foldl_nil]
        exact ihs hs hrest
      · have hbit : m t i &&& pagePresent ≠ 0 := (and_bit_ne_zero _ 0).mpr hpresent
        have hallSlots : ∀ j ∈ allSlots, UserPath (p ++ [i] ++ [j]) := fun j _ =>
          hslot.append (by simp) (by
            simp only [List.length_append, List.length_singleton]
            omega)
        have hbelow := ih hs ((tableAt_concat ht i).trans hchild) hallSlots (by
          simp only [List.length_append, List.length_singleton]
          omega)
        simp only [hs, hbit, if_false, hchild, List.foldl_append, List.foldl_cons,
          List.foldl_nil, hbelow]
        refine ihs ?_ hrest
        exact (foldl_freePage_mem _ s).trans hs

omit hH in
/-- In a user tree the teardown finds the tables that are owned. -/
theorem UserTree.teardownEntries {m : ℕ → Fin 512 → ℕ} (h : UserTree borrowed m root) :
    TeardownEntries (ownEntry borrowed) m root := by
  intro p i t hp hlen ht
  rcases h.entries p i t hp ht with hzero | ⟨g, hg, hborrowed⟩
  · exact .inl ⟨by rw [hzero, Nat.zero_testBit], by rw [hzero, ownEntry_zero]⟩
  · obtain ⟨hpresent, -, haddr⟩ := tableEntry_eq_some.mp hg
    exact .inr ⟨hpresent, ownEntry_eq_some.mpr ⟨haddr ▸ hg, fun hmem => absurd (hborrowed (haddr ▸ hmem))
      (by omega)⟩⟩

omit hH in
/-- The tables that the teardown frees: those behind the lower half, and at last the PML4. -/
def teardownTables (child : ℕ → Option ℕ) (m : ℕ → Fin 512 → ℕ) (root : ℕ) : List ℕ :=
  subtables child m allSlots 3 root userSlots ++ [root]

omit hH in
/-- In a tree each table behind the lower half is listed once. -/
theorem teardownTables_spec {child : ℕ → Option ℕ} {m : ℕ → Fin 512 → ℕ}
    (hdistinct : DistinctTables child LowerPath m root) :
    (teardownTables child m root).Nodup ∧
      ∀ f, f ∈ teardownTables child m root ↔ f ∈ reachedTables child LowerPath m root := by
  have hall : ∀ i, i ∈ allSlots := List.mem_finRange
  have huser : ∀ i, i ∈ userSlots ↔ i.val < 256 := fun i => by simp [userSlots, hall i]
  have hnil : LowerPath [] := ⟨⟨by simp, by simp⟩, by simp⟩
  have hdom : ∀ i ∈ userSlots, ∀ q : List (Fin 512), q.length < 3 → LowerPath ([] ++ i :: q) := by
    intro i hi q hq
    refine ⟨⟨Nat.le_succ_of_le hq, ?_⟩, hq⟩
    rintro _ ⟨⟩
    exact (huser i).mp hi
  have hnodup : (subtables child m allSlots 3 root userSlots).Nodup :=
    nodup_subtables (p := []) hdistinct hall (List.nodup_finRange 512) rfl
      ((List.nodup_finRange 512).filter _) hdom
  refine ⟨List.nodup_append.mpr ⟨hnodup, by simp, fun a ha b hb => ?_⟩, fun f => ?_⟩
  · obtain rfl := List.mem_singleton.mp hb
    rintro rfl
    obtain ⟨i, hi, q, hq, hf⟩ := (mem_subtables hall).mp ha
    exact List.cons_ne_nil i q (hdistinct _ [] a (hdom i hi q hq) hnil hf rfl)
  · rw [teardownTables, List.mem_append, List.mem_singleton, mem_subtables hall]
    constructor
    · rintro (⟨i, hi, q, hq, hf⟩ | rfl)
      · exact ⟨_, hdom i hi q hq, hf⟩
      · exact ⟨[], hnil, rfl⟩
    · rintro ⟨q, hq, hf⟩
      cases q with
      | nil => exact .inr (Option.some.inj hf).symm
      | cons i q =>
        have hlen := hq.2
        simp only [List.length_cons] at hlen
        exact .inl ⟨i, (huser i).mpr (hq.1.2 i rfl), q, by omega, hf⟩

omit hH in
/-- `pmap_destroy_table` frees these tables, and then the record of the page table. -/
theorem pmapDestroyTable_eq {child : ℕ → Option ℕ} {obj : ℕ} {s : Machine S}
    (hentries : TeardownEntries child s.mem root) :
    pmapDestroyTable A ⟨obj, root⟩ s =
      ((teardownTables child s.mem root).foldl (fun s f => s.freePage A f) s).cacheFree A
        .pageTableCache obj := by
  have hslots : ∀ i ∈ userSlots, UserPath ([] ++ [i]) := by
    intro i hi
    refine ⟨by simp, ?_⟩
    rintro _ ⟨⟩
    simpa [userSlots, allSlots] using hi
  rw [pmapDestroyTable, freeTables_eq hentries rfl rfl hslots (show [].length + 3 ≤ 3 by decide),
    teardownTables, List.foldl_append]
  rfl

/-- Destroying the page table gives back everything but the others and the pages that are left. -/
theorem UserTables.destroyTable {obj : ℕ} {s : Machine S}
    (h : UserTables H borrowed root (.object .pageTableCache obj :: others) s) :
    ∃ pages : List ℕ, (∀ f ∈ pages, ∃ q, UserPath q ∧ q.length = 4 ∧
        tableAt (ownEntry borrowed) s.mem root q = some f) ∧
      H (pmapDestroyTable A ⟨obj, root⟩ s) (pages.map .frame ++ others) := by
  obtain ⟨fs, hfs, hholds⟩ := h.holds
  obtain ⟨hnodup, hmem⟩ := @teardownTables_spec root (ownEntry borrowed) s.mem
    fun a b f ha hb => h.tree.distinct a b f ha.1 hb.1
  have heq := @pmapDestroyTable_eq _ A _ _ obj _ h.tree.teardownEntries
  -- the tables, and behind them the pages
  set tables := teardownTables (ownEntry borrowed) s.mem root
  have hsub : tables ⊆ fs := by
    intro f hf
    obtain ⟨q, hq, hpath⟩ := (hmem f).mp hf
    exact (hfs f).mpr ⟨q, hq.1, hpath⟩
  obtain ⟨l, hl, hsublist⟩ := List.subperm_of_subset hnodup hsub
  obtain ⟨pages, hpages⟩ := hsublist.exists_perm_append
  have hperm : fs.Perm (tables ++ pages) := hpages.trans (hl.append_right pages)
  refine ⟨pages, fun f hf => ?_, ?_⟩
  · obtain ⟨q, hq, hpath⟩ := (hfs f).mp (hperm.mem_iff.mpr (List.mem_append_right _ hf))
    refine ⟨q, hq, ?_, hpath⟩
    by_contra hlen
    -- a shorter path leads to a table
    have hle := hq.1
    have hout : f ∈ tables := (hmem f).mpr ⟨q, ⟨hq, by omega⟩, hpath⟩
    have hnodup := hperm.nodup_iff.mp (hH.frames_split hholds).1
    exact (List.nodup_append.mp hnodup).2.2 f hout f hf rfl
  · have hheld : H s (tables.map .frame ++
        (.object .pageTableCache obj :: (pages.map .frame ++ others))) := by
      refine hH.perm hholds (((hperm.map Resource.frame).append_right _).trans ?_)
      simp only [List.map_append, List.append_assoc]
      exact List.perm_middle.append_left _
    rw [heq]
    exact hH.cacheFree (hH.freePages hheld)

end Flos.Mm
