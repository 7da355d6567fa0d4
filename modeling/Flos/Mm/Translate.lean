import Flos.Mm.Pmap

/-!
# Address translation by the processor

The four-level walk of the memory management unit: which physical address a canonical virtual
address means under a page table, and with which effective permissions. A write or a user
access needs the flag at every level; a set no-execute flag at any level forbids fetches. The
second half computes the bits of the entries that the page-table code builds.
-/

namespace Flos.Mm

open Flos.Lib

/-- Effective permissions of a translated address. -/
structure Access where
  write : Bool
  user : Bool
  noExec : Bool
  uncached : Bool
  deriving DecidableEq, Repr

/-- The physical address and the permissions of a translated address. -/
structure Translation where
  phys : ℕ
  access : Access
  deriving DecidableEq, Repr

/-- A 48-bit address, sign-extended to 64 bits. -/
def Canonical (va : ℕ) : Prop := va < 2 ^ 47 ∨ (2 ^ 64 - 2 ^ 47 ≤ va ∧ va < 2 ^ 64)

instance (va : ℕ) : Decidable (Canonical va) := by unfold Canonical; infer_instance

/-- The table an entry points to: present, and not a huge page. -/
def tableEntry (entry : ℕ) : Option ℕ :=
  if entry.testBit 0 && !entry.testBit 7 then some (entry &&& pagePhysMask) else none

/-- The slots that the walk for an address visits. -/
def pathOf (va : ℕ) : List (Fin 512) := [pml4Idx va, pdptIdx va, pdIdx va, ptIdx va]

/-- Permissions over all levels; the last entry is the leaf. -/
def walkAccess (entries : List ℕ) (leaf : ℕ) : Access where
  write := entries.all (·.testBit 1)
  user := entries.all (·.testBit 2)
  noExec := entries.any (·.testBit 63)
  uncached := leaf.testBit 4

/-- The meaning of the entries read by a walk: the last one must be present, and the number of
levels decides the page size. -/
def decodeWalk (entries : List ℕ) (va : ℕ) : Option Translation :=
  match entries.getLast? with
  | none => none
  | some leaf =>
    if leaf.testBit 0 then
      match entries.length with
      | 4 => some ⟨(leaf &&& pagePhysMask) + va % 2 ^ 12, walkAccess entries leaf⟩
      | 3 => some ⟨(leaf &&& pagePhysMask) / 2 ^ 21 * 2 ^ 21 + va % 2 ^ 21, walkAccess entries leaf⟩
      | 2 => some ⟨(leaf &&& pagePhysMask) / 2 ^ 30 * 2 ^ 30 + va % 2 ^ 30, walkAccess entries leaf⟩
      | _ => none
    else none

/-- The translation of a virtual address under the page table at `root`. -/
def translate (mem : ℕ → Fin 512 → ℕ) (root va : ℕ) : Option Translation :=
  if Canonical va then decodeWalk (walkEntries tableEntry mem root (pathOf va)) va else none

/-- The permissions that a flags word asks for. -/
def flagsAccess (flags : ℕ) : Access where
  write := flags.testBit 1
  user := flags.testBit 2
  noExec := flags.testBit 3
  uncached := flags.testBit 4

/-- Testing one flag of a word. -/
theorem and_bit_ne_zero (x k : ℕ) : (x &&& 1 <<< k ≠ 0) ↔ x.testBit k = true := by
  rw [Nat.shiftLeft_eq, one_mul, Nat.and_two_pow]
  cases x.testBit k <;> simp

/-- The address mask keeps the bits from 12 up to 52. -/
theorem pagePhysMask_eq : pagePhysMask = bitBlock 12 52 := by decide

/-- The address bits of an aligned physical address are the address. -/
theorem and_pagePhysMask {phys : ℕ} (hdvd : 4096 ∣ phys) (hlt : phys < 2 ^ 52) :
    phys &&& pagePhysMask = phys := by
  rw [pagePhysMask_eq, and_bitBlock_eq (by decide) hlt]
  omega

/-- The address bits of any entry form an aligned address. -/
theorem dvd_and_pagePhysMask (entry : ℕ) : 4096 ∣ entry &&& pagePhysMask := by
  rw [Nat.dvd_iff_mod_eq_zero]
  apply Nat.eq_of_testBit_eq
  intro i
  rw [show 4096 = 2 ^ 12 from rfl, Nat.testBit_mod_two_pow, Nat.testBit_and, pagePhysMask_eq,
    testBit_bitBlock (by decide)]
  by_cases hi : i < 12
  · simp [hi, Nat.not_le.mpr hi]
  · simp [hi]

/-- The flag part of an entry, by permission: `parse_common_flags` as a function of bits. -/
def archBits (write user uncached noExec : Bool) : ℕ :=
  1 + (if write then 2 else 0) + (if user then 4 else 0) + (if uncached then 16 else 0) +
    (if noExec then 2 ^ 63 else 0)

/-- `parse_common_flags` depends on four flags only. -/
theorem parseCommonFlags_eq (flags : ℕ) :
    parseCommonFlags flags =
      archBits (flags.testBit 1) (flags.testBit 2) (flags.testBit 4) (flags.testBit 3) := by
  simp only [parseCommonFlags, mmuFlagWrite, mmuFlagUser, mmuFlagUc, mmuFlagNoExec,
    and_bit_ne_zero]
  cases flags.testBit 1 <;> cases flags.testBit 2 <;> cases flags.testBit 4 <;>
    cases flags.testBit 3 <;> decide

/-- The bits of the flag part. -/
theorem testBit_archBits (w u c x : Bool) :
    (archBits w u c x).testBit 0 = true ∧ (archBits w u c x).testBit 1 = w ∧
      (archBits w u c x).testBit 2 = u ∧ (archBits w u c x).testBit 4 = c ∧
      (archBits w u c x).testBit 7 = false ∧ (archBits w u c x).testBit 63 = x ∧
      archBits w u c x &&& pagePhysMask = 0 := by
  cases w <;> cases u <;> cases c <;> cases x <;> decide

/-- What a built leaf entry says: its address, its permissions and its page-size bit. -/
structure LeafEntry (entry phys : ℕ) (access : Access) (huge : Bool) : Prop where
  present : entry.testBit 0 = true
  write : entry.testBit 1 = access.write
  user : entry.testBit 2 = access.user
  uncached : entry.testBit 4 = access.uncached
  noExec : entry.testBit 63 = access.noExec
  pageSize : entry.testBit 7 = huge
  addr : entry &&& pagePhysMask = phys

/-- An aligned address has none of the flag bits. -/
theorem testBit_of_frame {phys i : ℕ} (hdvd : 4096 ∣ phys) (hlt : phys < 2 ^ 52)
    (hi : i < 12 ∨ 52 ≤ i) : phys.testBit i = false := by
  rcases hi with hi | hi
  · exact testBit_of_dvd_two_pow (k := 12) hdvd hi
  · exact testBit_of_lt_two_pow hlt hi

/-- The 4 KiB leaf entry built from an address and a flags word. -/
theorem leafEntry_small {phys : ℕ} (flags : ℕ) (hdvd : 4096 ∣ phys) (hlt : phys < 2 ^ 52) :
    LeafEntry (phys ||| parseCommonFlags flags) phys (flagsAccess flags) false := by
  obtain ⟨h0, h1, h2, h4, h7, h63, hmask⟩ := testBit_archBits (flags.testBit 1) (flags.testBit 2)
    (flags.testBit 4) (flags.testBit 3)
  rw [parseCommonFlags_eq]
  have hbit := fun i hi => testBit_of_frame (i := i) hdvd hlt hi
  refine ⟨?_, ?_, ?_, ?_, ?_, ?_, ?_⟩
  · rw [Nat.testBit_or, h0, Bool.or_true]
  · rw [Nat.testBit_or, hbit 1 (by omega), h1]; rfl
  · rw [Nat.testBit_or, hbit 2 (by omega), h2]; rfl
  · rw [Nat.testBit_or, hbit 4 (by omega), h4]; rfl
  · rw [Nat.testBit_or, hbit 63 (by omega), h63]; rfl
  · rw [Nat.testBit_or, hbit 7 (by omega), h7]; rfl
  · rw [Nat.and_or_distrib_right, hmask, Nat.or_zero, and_pagePhysMask hdvd hlt]

/-- The 2 MiB or 1 GiB leaf entry built from an address and a flags word. -/
theorem leafEntry_huge {phys : ℕ} (flags : ℕ) (hdvd : 4096 ∣ phys) (hlt : phys < 2 ^ 52) :
    LeafEntry (phys ||| (parseCommonFlags flags ||| pdePs)) phys (flagsAccess flags) true := by
  have hsmall := leafEntry_small flags hdvd hlt
  have hbit : ∀ i, (phys ||| (parseCommonFlags flags ||| pdePs)).testBit i =
      ((phys ||| parseCommonFlags flags).testBit i || pdePs.testBit i) := by
    intro i
    simp only [Nat.testBit_or, Bool.or_assoc]
  refine ⟨?_, ?_, ?_, ?_, ?_, ?_, ?_⟩
  · rw [hbit, hsmall.present, Bool.true_or]
  · rw [hbit, hsmall.write, show pdePs.testBit 1 = false by decide, Bool.or_false]
  · rw [hbit, hsmall.user, show pdePs.testBit 2 = false by decide, Bool.or_false]
  · rw [hbit, hsmall.uncached, show pdePs.testBit 4 = false by decide, Bool.or_false]
  · rw [hbit, hsmall.noExec, show pdePs.testBit 63 = false by decide, Bool.or_false]
  · rw [hbit, show pdePs.testBit 7 = true by decide, Bool.or_true]
  · rw [← Nat.or_assoc, Nat.and_or_distrib_right, hsmall.addr,
      show pdePs &&& pagePhysMask = 0 by decide, Nat.or_zero]

/-- An entry that grants every access and leaves the decision to the leaf. -/
structure OpenEntry (entry : ℕ) : Prop where
  write : entry.testBit 1 = true
  user : entry.testBit 2 = true
  noExec : entry.testBit 63 = false

/-- The entry that links a new table: present, open, and pointing at the table. -/
theorem linkEntry {frame : ℕ} (hdvd : 4096 ∣ frame) (hlt : frame < 2 ^ 52) :
    OpenEntry (frame ||| pagePresent ||| pageRw ||| pageUser) ∧
      tableEntry (frame ||| pagePresent ||| pageRw ||| pageUser) = some frame := by
  have hleaf := leafEntry_small (mmuFlagWrite ||| mmuFlagUser) hdvd hlt
  have hword : frame ||| pagePresent ||| pageRw ||| pageUser =
      frame ||| parseCommonFlags (mmuFlagWrite ||| mmuFlagUser) := by
    rw [Nat.or_assoc, Nat.or_assoc]
    rfl
  rw [hword]
  refine ⟨⟨hleaf.write, hleaf.user, hleaf.noExec⟩, ?_⟩
  rw [tableEntry, hleaf.present, hleaf.pageSize, hleaf.addr]
  rfl

/-- A huge leaf points to no table. -/
theorem LeafEntry.tableEntry_huge {entry phys : ℕ} {access : Access}
    (h : LeafEntry entry phys access true) : tableEntry entry = none := by
  rw [tableEntry, h.pageSize, Bool.not_true, Bool.and_false]
  rfl

/-- A zero entry points to no table. -/
@[simp] theorem tableEntry_zero : tableEntry 0 = none := by decide

end Flos.Mm
