import BasicOS.Lib.PageWalk
import BasicOS.Paging.Tables
import Mathlib.Data.List.GetD

/-! The system call that hands a program its arguments, `sys_get_process_arguments`.

The program passes an address for `struct process_arguments`, and the kernel, under its own
directory, where every address is physical, stores the two words at what
`paging_get_physical_address` makes of it. That function drops the bits of the page's word
and knows one page only, so the eight bytes end up where the program itself could write them
just when it may write the pages they lie on and the second page, if there is one, has the
next frame (`getProcessArguments_iff`). -/
namespace BasicOS
open Lib

/-- The offset of `arguments` in `struct process`, with `argc` and then `argv`. -/
abbrev offsetofArguments : Nat := 9356
abbrev sizeofProcessArguments : Nat := 8

def bytes32 (v : Nat) : List UInt8 :=
  [UInt8.ofNat v, UInt8.ofNat (v / 2 ^ 8), UInt8.ofNat (v / 2 ^ 16), UInt8.ofNat (v / 2 ^ 24)]

/-- How far `b` is behind `a`, around the end of the address space. -/
def distance (a b : Nat) : Nat := (b + 2 ^ 32 - a) % 2 ^ 32

/-- `*(uint32_t*) a = v`, around the end of the address space. -/
def poke32 (m : Memory) (a v : Nat) : Memory := fun b =>
  if b < 2 ^ 32 ∧ distance a b < 4 then (bytes32 v).getD (distance a b) 0 else m b

/-- `process_get_arguments` for a process in memory. -/
def processGetArguments (mem : Memory) (process argc argv : Nat) : Memory :=
  let mem := poke32 mem argc (read32 mem (process + offsetofArguments))
  poke32 mem argv (read32 mem (process + offsetofArguments + 4))

/-- `sys_get_process_arguments`: `dEntry` is the task's directory, `pointer` the program's argument. -/
def sysGetProcessArguments (mem : Memory) (dEntry process pointer : Nat) : Memory :=
  let arguments := pagingGetPhysicalAddress mem dEntry pointer
  processGetArguments mem process arguments (u32 (arguments + 4))

/-! ### What is promised -/

/-- The bytes at `pointer` the program could write itself, by their physical addresses. -/
def WritableAt (mem : Memory) (dEntry pointer b : Nat) : Prop :=
  ∃ k, k < sizeofProcessArguments ∧ UserWritable mem dEntry (u32 (pointer + k)) ∧
    physicalAddress mem dEntry (u32 (pointer + k)) = b

/-- The bytes the kernel stores, in order. -/
def argumentBytes (mem : Memory) (process arguments : Nat) : List UInt8 :=
  let argc := read32 mem (process + offsetofArguments)
  bytes32 argc ++ bytes32 (read32 (poke32 mem arguments argc) (process + offsetofArguments + 4))

/-- Byte `k` of the structure is not what is there already. -/
def Changes (mem : Memory) (dEntry process pointer k : Nat) : Prop :=
  let arguments := pagingGetPhysicalAddress mem dEntry pointer
  (argumentBytes mem process arguments).getD k 0 ≠ mem (u32 (arguments + k))

/-- The bytes that change lie on pages the program may write; those on a second page, in the
frame behind the one `paging_get` has for the first. -/
structure WithinRights (mem : Memory) (dEntry process pointer : Nat) : Prop where
  first : ∀ k, k < sizeofProcessArguments → pointer % pagingPageSize + k < pagingPageSize →
    Changes mem dEntry process pointer k → UserWritable mem dEntry pointer
  second : ∀ k, k < sizeofProcessArguments → pagingPageSize ≤ pointer % pagingPageSize + k →
    Changes mem dEntry process pointer k → UserWritable mem dEntry (u32 (pointer + k)) ∧
      pageEntry mem dEntry (u32 (pointer + k)) &&& 0xFFFFF000 =
        u32 ((pagingGet mem dEntry (pagingAlignToLowerPageAddr pointer) &&& 0xFFFFF000) + pagingPageSize)

/-! ### What is stored -/

variable {mem : Memory} {dEntry process pointer : Nat}

theorem distance_self_add {a k : Nat} (ha : a < 2 ^ 32) (hk : k < 2 ^ 32) : distance a (u32 (a + k)) = k := by
  unfold distance u32
  omega

theorem distance_succ {a b : Nat} (ha : a < 2 ^ 32) (hb : b < 2 ^ 32) :
    distance (u32 (a + 4)) b = if distance a b < 4 then distance a b + 2 ^ 32 - 4 else distance a b - 4 := by
  unfold distance u32
  split <;> omega

theorem eq_of_distance {a b : Nat} (ha : a < 2 ^ 32) (hb : b < 2 ^ 32) : b = u32 (a + distance a b) := by
  unfold distance u32
  omega

/-- The eight bytes from `arguments` on are the stored ones, and no other byte changes. -/
theorem processGetArguments_apply {arguments : Nat} (ha : arguments < 2 ^ 32) (b : Nat) :
    processGetArguments mem process arguments (u32 (arguments + 4)) b =
      if b < 2 ^ 32 ∧ distance arguments b < sizeofProcessArguments then
        (argumentBytes mem process arguments).getD (distance arguments b) 0
      else mem b := by
  unfold processGetArguments argumentBytes
  simp only [sizeofProcessArguments]
  generalize read32 (poke32 mem arguments _) (process + offsetofArguments + 4) = argv
  generalize read32 mem (process + offsetofArguments) = argc
  by_cases hb : b < 2 ^ 32
  · have hd := distance_succ ha hb
    have hlt : distance arguments b < 2 ^ 32 := Nat.mod_lt _ (by decide)
    unfold poke32
    by_cases hfirst : distance arguments b < 4
    · rw [if_pos hfirst] at hd
      rw [if_neg (by omega), if_pos ⟨hb, hfirst⟩, if_pos ⟨hb, by omega⟩, List.getD_append _ _ _ _ hfirst]
    · rw [if_neg hfirst] at hd
      by_cases hsecond : distance arguments b < 8
      · rw [if_pos ⟨hb, by omega⟩, if_pos ⟨hb, hsecond⟩, hd, List.getD_append_right _ _ _ _ (Nat.le_of_not_lt hfirst)]
        rfl
      · rw [if_neg (by omega), if_neg (by omega), if_neg (by omega)]
  · unfold poke32
    rw [if_neg (by omega), if_neg (by omega), if_neg (by omega)]

/-! ### Where it is stored -/

/-- `paging_get` finds the word of a page whose table is present. -/
theorem pagingGet_page (h : directoryEntry mem dEntry pointer &&& 0x1 ≠ 0) :
    pagingGet mem dEntry (pagingAlignToLowerPageAddr pointer) = pageEntry mem dEntry pointer := by
  have halign : pagingAlignToLowerPageAddr pointer = pointer / pagingPageSize * pagingPageSize := by
    unfold pagingAlignToLowerPageAddr
    simp only [pagingPageSize]
    omega
  have hdir : pointer / pagingPageSize / pagingTotalTableEntriesPerDirectory = pointer / 2 ^ 22 := by
    simp only [pagingPageSize, pagingTotalTableEntriesPerDirectory]
    omega
  unfold pagingGet
  rw [halign, pagingGetIndexes_page]
  unfold directoryEntry at h
  simp only [hdir, if_neg h]
  rfl

theorem frame_lt {w : Nat} (h : w < 2 ^ 32) :
    (w &&& 0xFFFFF000) % 2 ^ 12 = 0 ∧ (w &&& 0xFFFFF000) + 2 ^ 12 ≤ 2 ^ 32 := by
  rw [and_pageMask h]
  simp only [pagingPageSize]
  omega

theorem pagingGet_lt (m : Memory) (d v : Nat) : pagingGet m d v < 2 ^ 32 := by
  unfold pagingGet
  generalize pagingGetIndexes v 0 0 = indexes
  obtain ⟨res, directoryIndex, tableIndex⟩ := indexes
  dsimp only
  split
  · decide
  · exact read32_lt _ _

/-- The kernel's translation: the frame it has for the first page and the offset. -/
theorem pagingGetPhysicalAddress_eq (mem : Memory) (dEntry pointer : Nat) : pagingGetPhysicalAddress mem dEntry pointer =
    (pagingGet mem dEntry (pagingAlignToLowerPageAddr pointer) &&& 0xFFFFF000) + pointer % pagingPageSize := by
  have hframe := frame_lt (pagingGet_lt mem dEntry (pagingAlignToLowerPageAddr pointer))
  have hoffset : pointer - pagingAlignToLowerPageAddr pointer = pointer % pagingPageSize := by
    unfold pagingAlignToLowerPageAddr
    have := Nat.mod_le pointer pagingPageSize
    omega
  unfold pagingGetPhysicalAddress
  simp only [hoffset]
  refine u32_of_lt ?_
  simp only [pagingPageSize]
  omega

/-- The bytes that change are those of the structure that do. -/
theorem sysGetProcessArguments_ne_iff (b : Nat) : sysGetProcessArguments mem dEntry process pointer b ≠ mem b ↔
    ∃ k, k < sizeofProcessArguments ∧ b = u32 (pagingGetPhysicalAddress mem dEntry pointer + k) ∧
      Changes mem dEntry process pointer k := by
  have ha : pagingGetPhysicalAddress mem dEntry pointer < 2 ^ 32 := u32_lt _
  unfold sysGetProcessArguments Changes
  simp only
  generalize pagingGetPhysicalAddress mem dEntry pointer = arguments at *
  rw [processGetArguments_apply ha]
  constructor
  · intro h
    split at h
    · next hin =>
      have hb := eq_of_distance ha hin.1
      refine ⟨distance arguments b, hin.2, hb, ?_⟩
      rwa [← hb]
    · exact absurd rfl h
  · rintro ⟨k, hk, rfl, hchange⟩
    have hk' : k < 2 ^ 32 := Nat.lt_trans hk (by decide)
    rw [if_pos ⟨u32_lt _, by rwa [distance_self_add ha hk']⟩, distance_self_add ha hk']
    exact hchange

/-- An address of the structure on the first page is the kernel's byte for it, if the program may write there. -/
theorem writable_first {k : Nat} (hp : pointer < 2 ^ 32) (hk : pointer % pagingPageSize + k < pagingPageSize)
    (h : UserWritable mem dEntry pointer) : UserWritable mem dEntry (u32 (pointer + k)) ∧
      physicalAddress mem dEntry (u32 (pointer + k)) = u32 (pagingGetPhysicalAddress mem dEntry pointer + k) := by
  simp only [pagingPageSize] at hk
  have hsum : u32 (pointer + k) = pointer + k := u32_of_lt (by omega)
  have hpage : (pointer + k) / 2 ^ 12 = pointer / 2 ^ 12 := by omega
  have hframe := frame_lt (show pageEntry mem dEntry pointer < 2 ^ 32 from read32_lt _ _)
  rw [hsum]
  refine ⟨(userWritable_page hpage).2 h, ?_⟩
  unfold physicalAddress
  rw [pageEntry_page hpage, pagingGetPhysicalAddress_eq, pagingGet_page h.present_and]
  simp only [pagingPageSize]
  rw [u32_of_lt (by omega)]
  omega

/-- **`sys_get_process_arguments` changes only what the program could write itself just when
the bytes that change lie on pages it may write, a second page in the frame behind the first.** -/
theorem getProcessArguments_iff (mem : Memory) (dEntry process pointer : Nat) (hp : pointer < 2 ^ 32) :
    (∀ b, sysGetProcessArguments mem dEntry process pointer b ≠ mem b → WritableAt mem dEntry pointer b) ↔
      WithinRights mem dEntry process pointer := by
  have hframe := frame_lt (pagingGet_lt mem dEntry (pagingAlignToLowerPageAddr pointer))
  have hkernel := pagingGetPhysicalAddress_eq mem dEntry pointer
  simp only [sysGetProcessArguments_ne_iff]
  constructor
  · intro h
    -- the byte the program reaches at `pointer + j` has the offset of `pointer + j` in its page
    have hoffset : ∀ k j, k < sizeofProcessArguments → j < sizeofProcessArguments →
        physicalAddress mem dEntry (u32 (pointer + j)) = u32 (pagingGetPhysicalAddress mem dEntry pointer + k) →
        j = k := by
      intro k j hk hj heq
      have hj' := frame_lt (show pageEntry mem dEntry (u32 (pointer + j)) < 2 ^ 32 from read32_lt _ _)
      rw [hkernel] at heq
      unfold physicalAddress at heq
      unfold u32 at heq hj'
      simp only [pagingPageSize, sizeofProcessArguments] at *
      omega
    refine ⟨fun k hk hin hchange => ?_, fun k hk hout hchange => ?_⟩
    · obtain ⟨j, hj, hwritable, heq⟩ := h _ ⟨k, hk, rfl, hchange⟩
      obtain rfl := hoffset k j hk hj heq
      refine (userWritable_page ?_).1 hwritable
      unfold u32
      simp only [pagingPageSize] at hin
      omega
    · obtain ⟨j, hj, hwritable, heq⟩ := h _ ⟨k, hk, rfl, hchange⟩
      obtain rfl := hoffset k j hk hj heq
      have hj' := frame_lt (show pageEntry mem dEntry (u32 (pointer + j)) < 2 ^ 32 from read32_lt _ _)
      refine ⟨hwritable, ?_⟩
      rw [hkernel] at heq
      unfold physicalAddress at heq
      unfold u32 at heq hj' ⊢
      simp only [pagingPageSize, sizeofProcessArguments] at *
      omega
  · rintro h b ⟨k, hk, rfl, hchange⟩
    by_cases hin : pointer % pagingPageSize + k < pagingPageSize
    · exact ⟨k, hk, writable_first hp hin (h.first k hk hin hchange)⟩
    · obtain ⟨hwritable, hnext⟩ := h.second k hk (Nat.le_of_not_lt hin) hchange
      refine ⟨k, hk, hwritable, ?_⟩
      unfold physicalAddress
      rw [hnext, hkernel]
      unfold u32
      simp only [pagingPageSize, sizeofProcessArguments] at *
      omega

/-- A directory at 0x1000 with one table, at 0x3000: page 0x100000 of the kernel is there to be
read, page 0x3FE000 is a stack page in frame 0x1002000. The process at 0x5000 has one argument. -/
def argumentsMemory : Memory :=
  write32 (write32 (write32 (write32 (fun _ => 0) 0x1000 0x3007) 0x3400 0x100005) 0x3FF8 0x1002007)
    (0x5000 + offsetofArguments) 1

theorem withinRights_stack : WithinRights argumentsMemory 0x1000 0x5000 0x3FE010 := by
  refine ⟨fun _ _ _ _ => by decide +kernel, fun k hk hout _ => ?_⟩
  simp only [sizeofProcessArguments, pagingPageSize] at hk hout
  omega

/-- A structure on the stack. -/
theorem getProcessArguments_stack : WithinRights argumentsMemory 0x1000 0x5000 0x3FE010 ∧
    ∀ b, sysGetProcessArguments argumentsMemory 0x1000 0x5000 0x3FE010 b ≠ argumentsMemory b →
      WritableAt argumentsMemory 0x1000 0x3FE010 b :=
  ⟨withinRights_stack, (getProcessArguments_iff argumentsMemory 0x1000 0x5000 0x3FE010
    (by decide)).2 withinRights_stack⟩

/-- A pointer into the kernel: the count goes over the kernel's own byte. -/
theorem getProcessArguments_kernel : ¬ ∀ b, sysGetProcessArguments argumentsMemory 0x1000 0x5000 0x100500 b ≠
    argumentsMemory b → WritableAt argumentsMemory 0x1000 0x100500 b := by
  intro h
  obtain ⟨k, hk, hwritable, -⟩ := h 0x100500 (by decide +kernel)
  have hpage : UserWritable argumentsMemory 0x1000 0x100500 := by
    refine (userWritable_page ?_).1 hwritable
    unfold u32
    simp only [sizeofProcessArguments] at hk
    omega
  exact absurd hpage (by decide +kernel)

end BasicOS
