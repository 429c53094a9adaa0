import BasicOS.Word
import BasicOS.Lib.Memory
import BasicOS.Lib.Program

/-! Kernel memory as `kheap.c` hands it out.

An `Allocator` is what stands behind `kmalloc` and `kfree`: the heap of `heap.c`, or
anything else that meets the same contract. `Ram` is its state with the bytes of
memory. The functions over it are programs that can stop, by `kernel_panic` or at one
of the points past which the C code has no meaning. -/
namespace BasicOS
open Lib

/-- How kernel code can end without returning. -/
inductive Stop where
  /-- `kernel_panic` halts the machine. -/
  | panic (message : String)
  /-- A null or dangling pointer was followed. -/
  | fault
  /-- The heap was asked for what it cannot grant. -/
  | heapOverrun
  /-- A loop of the source that never ends. -/
  | diverges
deriving DecidableEq, Repr

/-- What `kmalloc` and `kfree` do to the allocator's state; `none` is a request
outside what the allocator answers for. -/
structure Allocator (H : Type) where
  kmalloc : Nat → H → Option (Nat × H)
  kfree : Nat → H → H

/-- The allocator's state and the bytes of memory. -/
structure Ram (H : Type) where
  heap : H
  mem : Memory

variable {H : Type}

def kmalloc (A : Allocator H) (size : Nat) : Program Stop (Ram H) Nat := fun s =>
  match A.kmalloc size s.heap with
  | some (ptr, heap) => .ok (ptr, {s with heap := heap})
  | none => .error .heapOverrun

def kzalloc (A : Allocator H) (size : Nat) : Program Stop (Ram H) Nat := do
  let ptr ← kmalloc A size
  if ptr = 0 then return 0
  modify fun s => {s with mem := fill s.mem ptr size 0}
  return ptr

def kfree (A : Allocator H) (ptr : Nat) : Program Stop (Ram H) Unit :=
  modify fun s => {s with heap := A.kfree ptr s.heap}

/-- `*(uint32_t*) addr`. -/
def load32 (addr : Nat) : Program Stop (Ram H) Nat := do return read32 (← get).mem addr

/-- `*(uint32_t*) addr = val`. -/
def store32 (addr val : Nat) : Program Stop (Ram H) Unit :=
  modify fun s => {s with mem := write32 s.mem addr val}

end BasicOS
