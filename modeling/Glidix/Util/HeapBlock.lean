import Glidix.Lib.Memory
import Glidix.Lib.Runs

/-!
# The block heap

The heap lies at `HEAP_BASE_ADDR` and grows by tables of 2 MB.  It is a sequence of blocks, each
between a header and a footer in the same memory as the data of the blocks; both begin with a magic
number, the size of the block and its flags (`Tag`).  Addresses are natural numbers: the heap ends
below `2 ^ 64`.  The size of a request is any `size_t`.
-/

namespace Glidix.Util

open Bytes

def HEAP_BASE_ADDR : ℕ := 0xFFFF810000000000

def HEAP_HEADER_MAGIC : ℕ := 0xDEADBEEF
def HEAP_FOOTER_MAGIC : ℕ := 0xBAD00BAD

/-- Shared flag. -/
def HEAP_BLOCK_TAKEN : UInt8 := 1
/-- Header flag. -/
def HEAP_BLOCK_HAS_LEFT : UInt8 := 2
/-- Footer flag. -/
def HEAP_BLOCK_HAS_RIGHT : UInt8 := 4

/-- `sizeof(HeapHeader)`. -/
def sizeofHeader : ℕ := 32
/-- `sizeof(HeapFooter)`. -/
def sizeofFooter : ℕ := 16

/-- The fields with which both a `HeapHeader` and a `HeapFooter` begin. -/
structure Tag where
  magic : ℕ
  size : ℕ
  flags : UInt8
  deriving DecidableEq

/-- The memory, and the number of tables that are mapped for the heap. -/
structure HeapMem where
  mem : Bytes
  nextHeapTable : ℕ

namespace HeapMem

/-- The packed header or footer at an address. -/
def tagAt (s : HeapMem) (a : ℕ) : Tag := ⟨load 4 s.mem a, load 8 s.mem (a + 4), s.mem (a + 12)⟩

def setMagic (s : HeapMem) (a magic : ℕ) : HeapMem := { s with mem := store 4 s.mem a magic }

def setSize (s : HeapMem) (a size : ℕ) : HeapMem := { s with mem := store 8 s.mem (a + 4) size }

def setFlags (s : HeapMem) (a : ℕ) (flags : UInt8) : HeapMem :=
  { s with mem := Function.update s.mem (a + 12) flags }

/-- Write all three fields. -/
def setTag (s : HeapMem) (a : ℕ) (tag : Tag) : HeapMem :=
  ((s.setMagic a tag.magic).setSize a tag.size).setFlags a tag.flags

end HeapMem

/-- Why a call does not return. -/
inductive HeapPanic where
  /-- `ran out of heap memory (expanding beyond 1GB)` -/
  | outOfHeap
  /-- `the last footer has invalid magic` -/
  | lastFooter
  /-- `detected heap corruption (invalid header magic ..., stepping from ...)` -/
  | walkRight
  /-- `heap corruption detected: block header ... has invalid magic` -/
  | reallocHeader
  /-- `invalid pointer passed to kfree(): below heap start` -/
  | belowHeap
  /-- `invalid pointer passed to kfree(): lacking or corrupt block header` -/
  | freeHeader
  /-- `heap corruption detected: the header ... is not linked to a valid footer` -/
  | freeFooter
  /-- `invalid pointer passed to kfree(): already free` -/
  | alreadyFree
  /-- `the header ... does not agree with the footer on block size` -/
  | sizeMismatch
  /-- `block to the left ... is marked as existing but has invalid footer magic` -/
  | leftFooter
  /-- `block to the right ... is marked as existing but has invalid header magic` -/
  | rightHeader
  /-- A null pointer is dereferenced. -/
  | nullPointer
  /-- A loop does not end. -/
  | spins
  deriving DecidableEq

/-- One free block of 2 MB; what is in the new frames is left from their last use. -/
def initMemoryPhase2 (mem : Bytes) : HeapMem :=
  let s : HeapMem := ⟨mem, 1⟩
  let s := s.setTag HEAP_BASE_ADDR ⟨HEAP_HEADER_MAGIC, 0x200000 - sizeofHeader - sizeofFooter, 0⟩
  s.setTag (HEAP_BASE_ADDR + 0x200000 - sizeofFooter)
    ⟨HEAP_FOOTER_MAGIC, (s.tagAt HEAP_BASE_ADDR).size, 0⟩

def heapHeaderFromFooter (s : HeapMem) (foot : ℕ) : ℕ := foot - (s.tagAt foot).size - sizeofHeader

def heapFooterFromHeader (s : HeapMem) (head : ℕ) : ℕ := head + sizeofHeader + (s.tagAt head).size

/-- A new block in the table at `addr`, after a block that is taken. -/
def newLastBlock (s : HeapMem) (addr lastFoot : ℕ) : HeapMem :=
  let s := s.setFlags lastFoot ((s.tagAt lastFoot).flags ||| HEAP_BLOCK_HAS_RIGHT)
  let s := s.setTag addr
    ⟨HEAP_HEADER_MAGIC, 0x200000 - sizeofHeader - sizeofFooter, HEAP_BLOCK_HAS_LEFT⟩
  s.setTag (addr + (s.tagAt addr).size + sizeofHeader)
    ⟨HEAP_FOOTER_MAGIC, (s.tagAt addr).size, 0⟩

/-- The last block, which is not taken, goes on over the table at `addr`. -/
def extendLastBlock (s : HeapMem) (addr lastHead : ℕ) : HeapMem :=
  let s := s.setSize lastHead ((s.tagAt lastHead).size + 0x200000)
  s.setTag (addr + 0x200000 - sizeofFooter) ⟨HEAP_FOOTER_MAGIC, (s.tagAt lastHead).size, 0⟩

/-- Map another table, and extend the last block or put a new one after it. -/
def expandHeap (s : HeapMem) : Except HeapPanic HeapMem :=
  if s.nextHeapTable = 512 then .error .outOfHeap
  else
    let addr := HEAP_BASE_ADDR + 0x200000 * s.nextHeapTable
    let s := { s with nextHeapTable := s.nextHeapTable + 1 }
    let lastFoot := addr - sizeofFooter
    let lastHead := heapHeaderFromFooter s lastFoot
    if (s.tagAt lastFoot).magic ≠ HEAP_FOOTER_MAGIC then .error .lastFooter
    else if (s.tagAt lastHead).flags &&& HEAP_BLOCK_TAKEN ≠ 0 then
      .ok (newLastBlock s addr lastFoot)
    else .ok (extendLastBlock s addr lastHead)

/-- The header after a block, if there is one. -/
def heapWalkRight (s : HeapMem) (head : ℕ) : Except HeapPanic (Option ℕ) :=
  let addr := head + sizeofHeader + (s.tagAt head).size + sizeofFooter
  if (s.tagAt (addr - sizeofFooter)).flags &&& HEAP_BLOCK_HAS_RIGHT = 0 then .ok none
  else if (s.tagAt addr).magic ≠ HEAP_HEADER_MAGIC then .error .walkRight
  else .ok (some addr)

/-- Cut a block: its first `size` bytes stay, and the rest becomes a block of its own. -/
def heapSplitBlock (s : HeapMem) (head size : ℕ) : HeapMem :=
  let currentFooter := head + sizeofHeader + (s.tagAt head).size
  let s := s.setSize head size
  let s := s.setSize currentFooter
    ((s.tagAt currentFooter).size - (size + sizeofHeader + sizeofFooter))
  let newFooter := head + sizeofHeader + size
  let newHeader := newFooter + sizeofFooter
  let s := s.setTag newHeader ⟨HEAP_HEADER_MAGIC, (s.tagAt currentFooter).size, HEAP_BLOCK_HAS_LEFT⟩
  s.setTag newFooter ⟨HEAP_FOOTER_MAGIC, size, HEAP_BLOCK_HAS_RIGHT⟩

/-- `while (head->size < size) expandHeap();` -/
def growHead : ℕ → HeapMem → (head size : ℕ) → Except HeapPanic HeapMem
  | 0, _, _, _ => .error .spins
  | rounds + 1, s, head, size =>
    if (s.tagAt head).size < size then do
      growHead rounds (← expandHeap s) head size
    else .ok s

/-- The new last block when the last block is taken, and the last block itself when it is not. -/
def expandTaken (s : HeapMem) (head : ℕ) : Except HeapPanic (HeapMem × ℕ) :=
  if (s.tagAt head).flags &&& HEAP_BLOCK_TAKEN ≠ 0 then do
    let s ← expandHeap s
    match ← heapWalkRight s head with
    | none => .error .nullPointer
    | some head => .ok (s, head)
  else .ok (s, head)

/-- The loop that looks for the first free block of at least `size` bytes. -/
def findHead : ℕ → HeapMem → (head size : ℕ) → Except HeapPanic (HeapMem × ℕ)
  | 0, _, _, _ => .error .spins
  | rounds + 1, s, head, size =>
    if (s.tagAt head).flags &&& HEAP_BLOCK_TAKEN ≠ 0 ∨ (s.tagAt head).size < size then do
      match ← heapWalkRight s head with
      | none =>
        let (s, head) ← expandTaken s head
        findHead rounds (← growHead rounds s head size) head size
      | some nextHead => findHead rounds s nextHead size
    else .ok (s, head)

/-- More rounds than any loop over the blocks and the tables of the heap takes. -/
def heapRounds : ℕ := 2 ^ 30

/-- Mark a block as taken and record the caller. -/
def takeBlock (s : HeapMem) (head aid lineno : ℕ) : HeapMem :=
  let s := s.setFlags head ((s.tagAt head).flags ||| HEAP_BLOCK_TAKEN)
  let s := { s with mem := store 8 s.mem (head + 13) aid }
  let s := { s with mem := store 4 s.mem (head + 21) lineno }
  let foot := heapFooterFromHeader s head
  s.setFlags foot ((s.tagAt foot).flags ||| HEAP_BLOCK_TAKEN)

/-- A size that is divisible by 16; it is 0 after the last 15 values of `size_t`. -/
def roundSize (size : ℕ) : ℕ := if size % 16 ≠ 0 then (size / 16 * 16 + 16) % 2 ^ 64 else size

def kxmallocDynamic (s : HeapMem) (size aid lineno : ℕ) : Except HeapPanic (ℕ × HeapMem) := do
  let size := roundSize size
  let (s, head) ← findHead heapRounds s HEAP_BASE_ADDR size
  let s :=
    if (s.tagAt head).size > (size + sizeofHeader + sizeofFooter + 8) % 2 ^ 64 then
      heapSplitBlock s head size
    else s
  .ok (head + sizeofHeader, takeBlock s head aid lineno)

/-- `NULL` for nothing, and for 1 GB or more. -/
def kmalloc (s : HeapMem) (size aid lineno : ℕ) : Except HeapPanic (ℕ × HeapMem) :=
  if size = 0 then .ok (0, s)
  else if size ≥ 0x40000000 then .ok (0, s)
  else kxmallocDynamic s size aid lineno

/-- The free block to the left of a block. -/
def freeLeft (s : HeapMem) (head : ℕ) : Except HeapPanic (Option ℕ) :=
  if (s.tagAt head).flags &&& HEAP_BLOCK_HAS_LEFT ≠ 0 then
    let footLeft := head - sizeofFooter
    if (s.tagAt footLeft).magic ≠ HEAP_FOOTER_MAGIC then .error .leftFooter
    else
      let tmpHead := heapHeaderFromFooter s footLeft
      if (s.tagAt tmpHead).flags &&& HEAP_BLOCK_TAKEN = 0 then .ok (some tmpHead) else .ok none
  else .ok none

/-- The footer of the free block to the right of a footer. -/
def freeRight (s : HeapMem) (foot : ℕ) : Except HeapPanic (Option ℕ) :=
  if (s.tagAt foot).flags &&& HEAP_BLOCK_HAS_RIGHT ≠ 0 then
    let headRight := foot + sizeofFooter
    if (s.tagAt headRight).magic ≠ HEAP_HEADER_MAGIC then .error .rightHeader
    else
      let tmpFoot := heapFooterFromHeader s headRight
      if (s.tagAt headRight).flags &&& HEAP_BLOCK_TAKEN = 0 then .ok (some tmpFoot) else .ok none
  else .ok none

/-- Join a block that has become free with the free blocks next to it. -/
def joinBlocks (s : HeapMem) (head foot : ℕ) (headLeft footRight : Option ℕ) : HeapMem :=
  match headLeft, footRight with
  | some headLeft, none =>
    let newSize := (s.tagAt headLeft).size + sizeofHeader + sizeofFooter + (s.tagAt head).size
    (s.setSize headLeft newSize).setSize foot newSize
  | none, some footRight =>
    let newSize := (s.tagAt head).size + sizeofHeader + sizeofFooter + (s.tagAt footRight).size
    (s.setSize head newSize).setSize footRight newSize
  | some headLeft, some footRight =>
    let newSize := (s.tagAt headLeft).size + (s.tagAt footRight).size + (s.tagAt head).size +
      2 * sizeofHeader + 2 * sizeofFooter
    (s.setSize headLeft newSize).setSize footRight newSize
  | none, none => s

def kfree (s : HeapMem) (block : ℕ) : Except HeapPanic HeapMem :=
  if block = 0 then .ok s
  else if block < HEAP_BASE_ADDR + sizeofHeader then .error .belowHeap
  else
    let head := block - sizeofHeader
    if (s.tagAt head).magic ≠ HEAP_HEADER_MAGIC then .error .freeHeader
    else
      let foot := heapFooterFromHeader s head
      if (s.tagAt foot).magic ≠ HEAP_FOOTER_MAGIC then .error .freeFooter
      else if (s.tagAt head).flags &&& HEAP_BLOCK_TAKEN = 0 then .error .alreadyFree
      else if (s.tagAt foot).size ≠ (s.tagAt head).size then .error .sizeMismatch
      else do
        let headLeft ← freeLeft s head
        let footRight ← freeRight s foot
        let s := s.setFlags head ((s.tagAt head).flags &&& ~~~HEAP_BLOCK_TAKEN)
        let s := s.setFlags foot ((s.tagAt foot).flags &&& ~~~HEAP_BLOCK_TAKEN)
        .ok (joinBlocks s head foot headLeft footRight)

/-- `memcpy`, which faults on a null destination. -/
def memcpy (s : HeapMem) (dst src n : ℕ) : Except HeapPanic HeapMem :=
  if dst = 0 ∧ n ≠ 0 then .error .nullPointer
  else .ok { s with mem := s.mem.setRange dst (s.mem.slice src n) }

def krealloc (s : HeapMem) (block size aid lineno : ℕ) : Except HeapPanic (ℕ × HeapMem) :=
  if block = 0 then kmalloc s size aid lineno
  else
    let head := block - sizeofHeader
    if (s.tagAt head).magic ≠ HEAP_HEADER_MAGIC then .error .reallocHeader
    else do
      let (ret, s) ← kmalloc s size aid lineno
      let headSize := (s.tagAt head).size
      let s ← memcpy s ret block (if size < headSize then size else headSize)
      let s ← kfree s block
      .ok (ret, s)

/-! ## Runs -/

/-- The heap with the blocks its callers hold: the size that was asked for at each address. -/
structure HeapState where
  heap : HeapMem
  live : ℕ → Option ℕ

/-- Calls of the allocator, and writes by the holders of blocks. -/
inductive HeapOp where
  | kxmallocDynamic (size aid lineno : ℕ)
  | krealloc (block size aid lineno : ℕ)
  | kfree (block : ℕ)
  | write (block off : ℕ) (byte : UInt8)

namespace HeapState

/-- The holder of `block` loses it, and `ret`, unless it is `NULL`, is held with `size` bytes. -/
def swap (s : HeapState) (heap : HeapMem) (block ret size : ℕ) : HeapState where
  heap := heap
  live :=
    let live := Function.update s.live block none
    if ret = 0 then live else Function.update live ret (some size)

/-- What a call returns and leaves. -/
def exec (s : HeapState) : HeapOp → Except HeapPanic (ℕ × HeapState)
  | .kxmallocDynamic size aid lineno => do
    let (ret, heap) ← Util.kxmallocDynamic s.heap size aid lineno
    .ok (ret, s.swap heap 0 ret size)
  | .krealloc block size aid lineno => do
    let (ret, heap) ← Util.krealloc s.heap block size aid lineno
    .ok (ret, s.swap heap block ret size)
  | .kfree block => do
    let heap ← Util.kfree s.heap block
    .ok (0, s.swap heap block 0 0)
  | .write block off byte =>
    .ok (0, { s with heap.mem := Function.update s.heap.mem (block + off) byte })

/-- Only blocks that are held are freed, reallocated and written, and no request is above 1 GB. -/
def Legal (s : HeapState) : HeapOp → Prop
  | .kxmallocDynamic size _ _ => size ≤ 0x40000000
  | .krealloc block size _ _ => (block = 0 ∨ (s.live block).isSome) ∧ size ≤ 0x40000000
  | .kfree block => block = 0 ∨ (s.live block).isSome
  | .write block off _ => ∃ size, s.live block = some size ∧ off < size

end HeapState

/-- The runs of the heap, with any memory under it. -/
def heapSystem : System HeapState HeapOp where
  init s := ∃ mem, s = ⟨initMemoryPhase2 mem, fun _ => none⟩
  step s op t := s.Legal op ∧ ∃ ret, s.exec op = .ok (ret, t)

end Glidix.Util
