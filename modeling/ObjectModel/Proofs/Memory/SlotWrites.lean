import Mathlib.Data.Nat.Digits.Defs
import ObjectModel.Proofs.Memory.Frame

/-!
Slots in a buffer, at any offsets. A write fills just the bytes of its slot, with the number in it, the least
byte first and negative numbers in two's complement. After any run of writes each byte of the buffer is that of
the last write that covers it, so a slot is read back as long as no later write overlaps it.
-/

set_option autoImplicit false
set_option relaxedAutoImplicit false

namespace ObjectModel

variable {m : Memory} {start len i : Nat} {s : Slot} {k : Kind} {bs : List UInt8}

/-- The number that bytes are, the least one first. -/
def littleEndian (bs : List UInt8) : Nat := Nat.ofDigits 256 (bs.map UInt8.toNat)

theorem littleEndian_inj {cs : List UInt8} (hlength : bs.length = cs.length)
    (h : littleEndian bs = littleEndian cs) : bs = cs := by
  have hbyte (ds : List UInt8) : ∀ d ∈ ds.map UInt8.toNat, d < 256 := by
    intro d hd
    obtain ⟨b, -, rfl⟩ := List.mem_map.1 hd
    exact b.toNat_lt
  have hdigits : bs.map UInt8.toNat = cs.map UInt8.toNat := by
    apply Nat.ofDigits_inj_of_len_eq (by decide : 1 < 256)
    · simpa using hlength
    · exact hbyte bs
    · exact hbyte cs
    · exact h
  exact (List.map_inj_right fun _ _ => UInt8.toNat_inj.1).1 hdigits

namespace Slot

/-- The number in a slot, with its sign. Floating-point numbers and addresses count as their bits. -/
def value : Slot → Int
  | void => 0
  | i8 n => n.toInt
  | i16 n => n.toInt
  | i32 n => n.toInt
  | f32 bits => bits.toNat
  | f64 bits => bits.toNat
  | bool b => if b then 1 else 0
  | pointer a => a.toNat

/-- The bytes are those of a slot: as many as it takes, and the number that they are is the residue of the one in
the slot, so its two's complement if it is negative. -/
def IsHeldBy (s : Slot) (bs : List UInt8) : Prop :=
  bs.length = s.width ∧ (littleEndian bs : Int) = s.value % (256 ^ s.width : Nat)

instance (s : Slot) (bs : List UInt8) : Decidable (s.IsHeldBy bs) := inferInstanceAs (Decidable (_ ∧ _))

private theorem toNat_eq_toInt_emod {w : Nat} (x : BitVec w) : (x.toNat : Int) = x.toInt % (2 ^ w : Nat) := by
  have hlt : (x.toNat : Int) < (2 ^ w : Nat) := Int.ofNat_lt.2 x.isLt
  rw [BitVec.toInt_eq_toNat_bmod, Int.bmod_emod, Int.emod_eq_of_lt (Int.natCast_nonneg _) hlt]

theorem word_eq_value_emod (s : Slot) : (s.word : Int) = s.value % (256 ^ s.width : Nat) := by
  cases s with
  | void => rfl
  | i8 n => exact toNat_eq_toInt_emod n.toBitVec
  | i16 n => exact toNat_eq_toInt_emod n.toBitVec
  | i32 n => exact toNat_eq_toInt_emod n.toBitVec
  | bool b => cases b <;> rfl
  | f32 bits | f64 bits | pointer bits =>
    have := bits.toNat_lt
    simp only [word, value, width]
    omega

theorem isHeldBy_iff : s.IsHeldBy bs ↔ bs.length = s.width ∧ littleEndian bs = s.word := by
  unfold IsHeldBy
  rw [← word_eq_value_emod, Int.natCast_inj]

end Slot

namespace Memory

theorem littleEndian_bytes (m : Memory) (a count : Nat) : littleEndian (m.bytes a count) = m.load a count := by
  induction count generalizing a with
  | zero => rfl
  | succ count ih =>
    rw [load, ← ih]
    rfl

theorem isHeldBy_iff_bytes_write (m : Memory) (a : Nat) (s : Slot) :
    s.IsHeldBy bs ↔ bs = (m.write a s).bytes a s.width := by
  have hlength := (m.write a s).length_bytes a s.width
  have hword : littleEndian ((m.write a s).bytes a s.width) = s.word := by
    rw [littleEndian_bytes, write, load_store_same, Nat.mod_eq_of_lt (word_lt_width s)]
  rw [Slot.isHeldBy_iff]
  constructor
  · rintro ⟨hlen, hbs⟩
    apply littleEndian_inj
    · rw [hlen, hlength]
    · rw [hbs, hword]
  · rintro rfl
    exact ⟨hlength, hword⟩

end Memory

/-! Runs of writes. -/

/-- A slot that is written to an offset of a buffer. -/
structure SlotWrite where
  offset : Nat
  slot : Slot
  deriving DecidableEq, Repr

namespace SlotWrite

variable {p q : SlotWrite} {before later writes : List SlotWrite}

/-- The byte at an offset is one of those that are written. -/
def Covers (p : SlotWrite) (i : Nat) : Prop := p.offset ≤ i ∧ i < p.offset + p.slot.width

instance (p : SlotWrite) (i : Nat) : Decidable (p.Covers i) := inferInstanceAs (Decidable (_ ∧ _))

/-- All bytes that are written are among the first `len`. -/
def InRange (p : SlotWrite) (len : Nat) : Prop := p.offset + p.slot.width ≤ len

instance (p : SlotWrite) (len : Nat) : Decidable (p.InRange len) := inferInstanceAs (Decidable (_ ≤ _))

/-- The writes have no byte in common. -/
def Apart (p q : SlotWrite) : Prop := ∀ i, p.Covers i → ¬q.Covers i

theorem apart_iff : p.Apart q ↔ p.slot.width = 0 ∨ q.slot.width = 0 ∨
    p.offset + p.slot.width ≤ q.offset ∨ q.offset + q.slot.width ≤ p.offset := by
  unfold Apart Covers
  constructor
  · intro h
    by_contra hmeet
    exact h (max p.offset q.offset) (by omega) (by omega)
  · omega

instance (p q : SlotWrite) : Decidable (p.Apart q) := decidable_of_iff _ apart_iff.symm

/-- The byte that is written to an offset. -/
def byte (p : SlotWrite) (i : Nat) : UInt8 := .ofNat (p.slot.word / 256 ^ (i - p.offset))

/-- The last write that covers the byte at an offset. -/
def last? (writes : List SlotWrite) (i : Nat) : Option SlotWrite := writes.findRev? fun p => p.Covers i

theorem last?_append (before later : List SlotWrite) (i : Nat) :
    last? (before ++ later) i = (last? later i).or (last? before i) := by
  simp [last?, List.find?_append]

theorem last?_cons (p : SlotWrite) (later : List SlotWrite) (i : Nat) :
    last? (p :: later) i = (last? later i).or (if p.Covers i then some p else none) := by
  rw [← List.singleton_append, last?_append]
  by_cases h : p.Covers i <;> simp [last?, h]

theorem last?_of_apart (hi : p.Covers i) (hapart : ∀ q ∈ later, p.Apart q) :
    last? (before ++ p :: later) i = some p := by
  have hlater : last? later i = none := by
    simpa [last?] using fun q hq => hapart q hq i hi
  rw [last?_append, last?_cons, hlater, if_pos hi]
  rfl

theorem covers_of_last? (h : last? writes i = some p) : p.Covers i := by
  rw [last?, List.findRev?_eq_find?_reverse] at h
  simpa using List.find?_some h

theorem getElem?_of_isHeldBy (hi : p.Covers i) (hbs : p.slot.IsHeldBy bs) :
    bs[i - p.offset]? = some (p.byte i) := by
  obtain ⟨hlow, hhigh⟩ := hi
  have hin : i - p.offset < p.slot.width := by omega
  rw [(Memory.isHeldBy_iff_bytes_write {} p.offset p.slot).1 hbs, Memory.getElem?_bytes, if_pos hin,
    Memory.byte_write, if_pos (by omega), Nat.add_sub_cancel_left]
  rfl

end SlotWrite

namespace Memory

variable {p : SlotWrite} {before later writes : List SlotWrite}

/-- Writes to the buffer at `start`, one after the other. -/
def writeSlots (m : Memory) (start : Nat) (writes : List SlotWrite) : Memory :=
  writes.foldl (fun m p => m.write (start + p.offset) p.slot) m

theorem byte_write_slot (m : Memory) (start : Nat) (p : SlotWrite) (i : Nat) :
    (m.write (start + p.offset) p.slot).byte (start + i) =
      if p.Covers i then p.byte i else m.byte (start + i) := by
  have hcovers : start + p.offset ≤ start + i ∧ start + i < start + p.offset + p.slot.width ↔ p.Covers i := by
    unfold SlotWrite.Covers
    omega
  have hplace : start + i - (start + p.offset) = i - p.offset := by omega
  simp only [byte_write, hcovers, hplace]
  rfl

/-- A run of writes: each byte is that of the last one that covers it. -/
theorem byte_writeSlots (m : Memory) (start : Nat) (writes : List SlotWrite) (i : Nat) :
    (m.writeSlots start writes).byte (start + i) =
      ((SlotWrite.last? writes i).map fun p => p.byte i).getD (m.byte (start + i)) := by
  induction writes generalizing m with
  | nil => rfl
  | cons p later ih =>
    have hlater := ih (m.write (start + p.offset) p.slot)
    rw [byte_write_slot] at hlater
    rw [SlotWrite.last?_cons]
    change ((m.write (start + p.offset) p.slot).writeSlots start later).byte (start + i) = _
    rw [hlater]
    by_cases hp : p.Covers i <;> cases SlotWrite.last? later i <;> simp [hp]

theorem changesOnly_writeSlots (hin : ∀ p ∈ writes, p.InRange len) :
    m.ChangesOnly (m.writeSlots start writes) start len := by
  induction writes generalizing m with
  | nil => exact .refl m start len
  | cons p later ih =>
    obtain ⟨hp, hlater⟩ := List.forall_mem_cons.1 hin
    have hfirst := changesOnly_write m (start + p.offset) p.slot
    have hroom : p.offset + p.slot.width ≤ len := hp
    exact (hfirst.mono (by omega) (by omega)).trans (ih hlater)

theorem read_writeSlots (hfits : p.slot.fits k = true) (hapart : ∀ q ∈ later, p.Apart q) :
    (m.writeSlots start (before ++ p :: later)).read (start + p.offset) k = p.slot := by
  have hsame : SameOn (m.write (start + p.offset) p.slot) (m.writeSlots start (before ++ p :: later))
      (start + p.offset) k.size := by
    intro x hlow hhigh
    obtain ⟨i, rfl⟩ := Nat.exists_eq_add_of_le (Nat.le_of_add_right_le hlow)
    have hi : p.Covers i := by
      have := Slot.width_of_fits hfits
      constructor <;> omega
    rw [byte_writeSlots, byte_write_slot, SlotWrite.last?_of_apart hi hapart, if_pos hi]
    rfl
  rw [hsame.read]
  exact read_write_same m _ hfits

/-- What a run of writes makes of a buffer, the `len` bytes from `start` on. A slot that no later write overlaps is
read at each kind that it fits. A byte that was written to is the one that the last of these writes has there, and
the other bytes are what they were, within the buffer and outside of it. -/
structure Overwritten (m : Memory) (start len : Nat) (writes : List SlotWrite) (m' : Memory) : Prop where
  read : ∀ before p later k, writes = before ++ p :: later → p.slot.fits k = true →
    (∀ q ∈ later, p.Apart q) → m'.read (start + p.offset) k = p.slot
  covered : ∀ i p bs, SlotWrite.last? writes i = some p → p.slot.IsHeldBy bs →
    bs[i - p.offset]? = some (m'.byte (start + i))
  uncovered : ∀ i, SlotWrite.last? writes i = none → m'.byte (start + i) = m.byte (start + i)
  outside : m.ChangesOnly m' start len

/-- Any run of writes at offsets in range overwrites a buffer so. Each write changes just the bytes that its kind
takes, none for `void`, to those of its slot: the least one first, in two's complement. -/
theorem writeSlots_overwrites (m : Memory) (start : Nat) (hin : ∀ p ∈ writes, p.InRange len) :
    Overwritten m start len writes (m.writeSlots start writes) ∧
    ∀ (n : Memory) a s k, s.fits k = true →
      (∀ bs, s.IsHeldBy bs ↔ bs = (n.write a s).bytes a k.size) ∧ n.ChangesOnly (n.write a s) a k.size := by
  refine ⟨⟨?_, ?_, ?_, changesOnly_writeSlots hin⟩, ?_⟩
  · rintro before p later k rfl hfits hapart
    exact read_writeSlots hfits hapart
  · intro i p bs hlast hbs
    rw [byte_writeSlots, hlast]
    exact SlotWrite.getElem?_of_isHeldBy (SlotWrite.covers_of_last? hlast) hbs
  · intro i hlast
    rw [byte_writeSlots, hlast]
    rfl
  · intro n a s k hfits
    rw [← Slot.width_of_fits hfits]
    exact ⟨fun bs => isHeldBy_iff_bytes_write n a s, changesOnly_write n a s⟩

/-! Writes at unaligned offsets. A short number overwrites the upper half of a longer one, and nothing is written
into the midst of it. -/

def mixedWrites : List SlotWrite :=
  [⟨1, .i32 (-2)⟩, ⟨3, .i16 (-300)⟩, ⟨4, .void⟩, ⟨7, .f64 0x7FF8000000000001⟩, ⟨5, .bool true⟩]

theorem mixedWrites_overwrite : (∀ p ∈ mixedWrites, p.InRange 16) ∧
    (writeSlots {} 100 mixedWrites).read 103 .i16 = .i16 (-300) ∧
    (writeSlots {} 100 mixedWrites).read 107 .f64 = .f64 0x7FF8000000000001 ∧
    (writeSlots {} 100 mixedWrites).byte 101 = 0xFE ∧
    (writeSlots {} 100 mixedWrites).byte 106 = 0 := by
  have hin : ∀ p ∈ mixedWrites, p.InRange 16 := by decide
  obtain ⟨hall, -⟩ := writeSlots_overwrites {} 100 hin
  refine ⟨hin, ?_, ?_, ?_, ?_⟩
  · exact hall.read [⟨1, .i32 (-2)⟩] ⟨3, .i16 (-300)⟩ _ .i16 rfl rfl (by decide)
  · exact hall.read (mixedWrites.take 3) ⟨7, .f64 0x7FF8000000000001⟩ [⟨5, .bool true⟩] .f64 rfl rfl (by decide)
  · have hbyte := hall.covered 1 ⟨1, .i32 (-2)⟩ [0xFE, 0xFF, 0xFF, 0xFF] (by decide) (by decide)
    exact (Option.some.inj hbyte).symm
  · exact hall.uncovered 6 (by decide)

end Memory

end ObjectModel
