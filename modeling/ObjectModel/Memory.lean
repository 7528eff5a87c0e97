import Std.Data.TreeMap
import ObjectModel.Slot

/-!
Memory: bytes by address. Numbers lie in it with the least byte first, and a byte that was never
written is zero. The heap hands out blocks of it.
-/

set_option autoImplicit false

namespace ObjectModel

/-- The bytes that were written. -/
structure Memory where
  written : Std.TreeMap Nat UInt8 := ∅
  deriving Inhabited

namespace Memory

def byte (m : Memory) (a : Nat) : UInt8 := m.written.getD a 0

def setByte (m : Memory) (a : Nat) (b : UInt8) : Memory := ⟨m.written.insert a b⟩

/-- The number in the `width` bytes from an address on. -/
def load (m : Memory) (a : Nat) : (width : Nat) → Nat
  | 0 => 0
  | width + 1 => (m.byte a).toNat + 256 * m.load (a + 1) width

def store (m : Memory) (a : Nat) : (width : Nat) → (word : Nat) → Memory
  | 0, _ => m
  | width + 1, word => (m.setByte a (UInt8.ofNat word)).store (a + 1) width (word / 256)

/-- The slot of a kind at an address. -/
def read (m : Memory) (a : Nat) (k : Kind) : Slot := .ofWord k (m.load a k.size)

def write (m : Memory) (a : Nat) (s : Slot) : Memory := m.store a s.width s.word

def bytes (m : Memory) (a : Nat) : (count : Nat) → List UInt8
  | 0 => []
  | count + 1 => m.byte a :: m.bytes (a + 1) count

def setBytes (m : Memory) (a : Nat) : List UInt8 → Memory
  | [] => m
  | b :: rest => (m.setByte a b).setBytes (a + 1) rest

def copy (m : Memory) (source target count : Nat) : Memory := m.setBytes target (m.bytes source count)

def clear (m : Memory) (a count : Nat) : Memory := m.setBytes a (List.replicate count 0)

/-- Sets all bytes from an address on to zero. -/
def clearFrom (m : Memory) (a : Nat) : Memory := ⟨m.written.filter fun b _ => b < a⟩

def word (m : Memory) (a : Nat) : UInt64 := UInt64.ofNat (m.load a 8)

def setWord (m : Memory) (a : Nat) (w : UInt64) : Memory := m.store a 8 w.toNat

/-- The 32-bit number at an address. -/
def half (m : Memory) (a : Nat) : UInt32 := UInt32.ofNat (m.load a 4)

def setHalf (m : Memory) (a : Nat) (w : UInt32) : Memory := m.store a 4 w.toNat

end Memory

/-! The heap hands out blocks of zeroed memory, one after the other. Each block has a header in front of
it, and both start at multiples of sixteen. Nothing is ever taken back. -/

/-- May a block hold addresses? -/
inductive BlockKind
  | pointers
  | noPointers
  deriving DecidableEq, Repr, Inhabited

/-- What is known of a block: where its content starts, how many bytes were asked for, its kind, and its mark. -/
structure Block where
  address : Addr
  size : UInt64
  kind : BlockKind
  marked : Bool := false
  deriving DecidableEq, Repr, Inhabited

/-- Why a request for a block cannot be met; the program ends. -/
inductive HeapError
  | invalidSize (size : Nat)
  | limitExceeded
  | outOfMemory
  deriving DecidableEq, Repr, Inhabited

def HeapError.message : HeapError → String
  | invalidSize size => "Invalid allocation size " ++ toString size
  | limitExceeded => "Heap size limit exceeded"
  | outOfMemory => "Out of memory"

/-- A heap: its byte limit, its memory, the blocks in the order in which they were handed out, where
the next block goes, and the counts that are kept of them: the bytes of all blocks, as a 64-bit
number, and the blocks that may hold addresses. -/
structure Heap where
  limit : Option UInt64 := none
  memory : Memory := {}
  blocks : Array Block := #[]
  next : Nat := 0x10000
  allocated : UInt64 := 0
  pointerBlocks : Nat := 0
  deriving Inhabited

namespace Heap

/-- The bytes of a block's header, and what blocks and contents are aligned to. -/
def headerSize : UInt64 := 16

def maxBlockSize : Nat := 0x7FFFFFFFFFFFFFF0

def allocatedBytes (h : Heap) : Nat := h.allocated.toNat

/-- How many sixteens hold a content: its size, at least one byte, divided by sixteen and rounded up. -/
def units (size : UInt64) : UInt64 :=
  let size := if size = 0 then 1 else size
  size / headerSize + if size % headerSize = 0 then 0 else 1

/-- The bytes of a block without its header, in 64-bit arithmetic. -/
def payloadSize (size : UInt64) : UInt64 := units size * headerSize

/-- The bytes of a block with its header, in 64-bit arithmetic. -/
def blockSize (size : UInt64) : UInt64 := headerSize + payloadSize size

/-- Hands out a block. Its content has not been handed out before, and is made zero. -/
def allocate (h : Heap) (size : UInt64) (kind : BlockKind) : Except HeapError (Addr × Heap) :=
  let total := blockSize size
  if maxBlockSize < total.toNat then
    .error (.invalidSize size.toNat)
  else if h.limit.any (· < h.allocated + total) then
    .error .limitExceeded
  else if UInt64.size ≤ h.next + headerSize.toNat + total.toNat then
    .error .outOfMemory
  else
    let address := UInt64.ofNat (h.next + headerSize.toNat)
    .ok (address,
      { h with
        memory := h.memory.clearFrom h.next
        blocks := h.blocks.push { address, size, kind }
        next := h.next + total.toNat
        allocated := h.allocated + total
        pointerBlocks := h.pointerBlocks + if kind = .pointers then 1 else 0 })

def blockAt? (h : Heap) (a : Addr) : Option Nat := h.blocks.findIdx? (·.address == a)

def mark (h : Heap) (i : Nat) (marked : Bool) : Heap :=
  { h with blocks := h.blocks.modify i fun b => { b with marked } }

end Heap

end ObjectModel
