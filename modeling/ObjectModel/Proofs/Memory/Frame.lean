import Mathlib.Algebra.Group.Nat.Defs
import ObjectModel.Value.Action

/-!
What each operation on memory does to the byte at an address, and from that: a number or a slot that
was written is read back, and what lies outside the bytes written is left alone. What is read from
bytes that are the same, in one place or in two, is the same.
-/

set_option autoImplicit false
set_option relaxedAutoImplicit false

namespace ObjectModel

namespace Memory

@[simp] theorem byte_empty (a : Nat) : ({} : Memory).byte a = 0 := by
  simp [byte]

theorem byte_setByte (m : Memory) (a b : Nat) (x : UInt8) :
    (m.setByte a x).byte b = if a = b then x else m.byte b := by
  simp only [byte, setByte, Std.TreeMap.getD_insert, Nat.compare_eq_eq]

theorem byte_store (m : Memory) (a width word b : Nat) :
    (m.store a width word).byte b =
      if a ≤ b ∧ b < a + width then UInt8.ofNat (word / 256 ^ (b - a)) else m.byte b := by
  induction width generalizing m a word with
  | zero =>
    have : ¬(a ≤ b ∧ b < a + 0) := by omega
    simp only [store, if_neg this]
  | succ width ih =>
    rw [store, ih, byte_setByte]
    by_cases hb : a = b
    · subst hb
      have h1 : ¬(a + 1 ≤ a ∧ a < a + 1 + width) := by omega
      have h2 : a ≤ a ∧ a < a + (width + 1) := by omega
      rw [if_neg h1, if_pos rfl, if_pos h2, Nat.sub_self, Nat.pow_zero, Nat.div_one]
    · by_cases hin : a + 1 ≤ b ∧ b < a + 1 + width
      · have h2 : a ≤ b ∧ b < a + (width + 1) := by omega
        have h3 : b - a = b - (a + 1) + 1 := by omega
        rw [if_pos hin, if_pos h2, Nat.div_div_eq_div_mul, h3, Nat.pow_succ, Nat.mul_comm 256]
      · have h2 : ¬(a ≤ b ∧ b < a + (width + 1)) := by omega
        rw [if_neg hin, if_neg hb, if_neg h2]

theorem load_congr {m n : Memory} {a b width : Nat} (h : ∀ i, i < width → m.byte (a + i) = n.byte (b + i)) :
    m.load a width = n.load b width := by
  induction width generalizing a b with
  | zero => rfl
  | succ width ih =>
    have h0 := h 0 (by omega)
    have hrest : m.load (a + 1) width = n.load (b + 1) width := by
      apply ih
      intro i hi
      have := h (i + 1) (by omega)
      rwa [Nat.add_right_comm, Nat.add_right_comm b]
    rw [load, load, hrest]
    simp only [Nat.add_zero] at h0
    rw [h0]

theorem load_store_same (m : Memory) (a width word : Nat) :
    (m.store a width word).load a width = word % 256 ^ width := by
  induction width generalizing m a word with
  | zero => simp [load, Nat.mod_one]
  | succ width ih =>
    have hfirst : (m.store a (width + 1) word).byte a = UInt8.ofNat word := by
      rw [byte_store, if_pos (by omega), Nat.sub_self, Nat.pow_zero, Nat.div_one]
    rw [load, hfirst, store, ih, Nat.pow_succ, Nat.mul_comm (256 ^ width), Nat.mod_mul]
    simp

theorem load_store_of_disjoint (m : Memory) {a width word b count : Nat}
    (h : b + count ≤ a ∨ a + width ≤ b) : (m.store a width word).load b count = m.load b count := by
  apply load_congr
  intro i hi
  rw [byte_store, if_neg (by omega)]

theorem word_lt_width (s : Slot) : s.word < 256 ^ s.width := by
  cases s with
  | void => exact Nat.one_pos
  | i8 n => exact n.toUInt8.toNat_lt
  | i16 n => exact n.toUInt16.toNat_lt
  | i32 n => exact n.toUInt32.toNat_lt
  | f32 b => exact b.toNat_lt
  | f64 b => exact b.toNat_lt
  | bool b => cases b <;> decide
  | pointer a => exact a.toNat_lt

/-- A slot is read back at every kind that it fits. -/
theorem read_write_same (m : Memory) (a : Nat) {s : Slot} {k : Kind} (h : s.fits k = true) :
    (m.write a s).read a k = s := by
  rw [read, write, ← Slot.width_of_fits h, load_store_same, Nat.mod_eq_of_lt (word_lt_width s)]
  exact Slot.ofWord_word h

theorem read_write_of_disjoint (m : Memory) {a b : Nat} (s : Slot) (k : Kind)
    (h : b + k.size ≤ a ∨ a + s.width ≤ b) : (m.write a s).read b k = m.read b k := by
  rw [read, write, load_store_of_disjoint m h]
  rfl

theorem byte_write (m : Memory) (a : Nat) (s : Slot) (b : Nat) :
    (m.write a s).byte b =
      if a ≤ b ∧ b < a + s.width then UInt8.ofNat (s.word / 256 ^ (b - a)) else m.byte b :=
  byte_store m a s.width s.word b

theorem length_bytes (m : Memory) (a count : Nat) : (m.bytes a count).length = count := by
  induction count generalizing a with
  | zero => rfl
  | succ count ih => simp [bytes, ih]

theorem getElem?_bytes (m : Memory) (a count i : Nat) :
    (m.bytes a count)[i]? = if i < count then some (m.byte (a + i)) else none := by
  induction count generalizing a i with
  | zero => simp [bytes]
  | succ count ih =>
    cases i with
    | zero => simp [bytes]
    | succ i => simp [bytes, ih, Nat.add_right_comm, Nat.add_assoc]

theorem byte_setBytes (m : Memory) (a : Nat) (bs : List UInt8) (b : Nat) :
    (m.setBytes a bs).byte b = if a ≤ b then (bs[b - a]?).getD (m.byte b) else m.byte b := by
  induction bs generalizing m a with
  | nil => simp [setBytes]
  | cons x rest ih =>
    rw [setBytes, ih, byte_setByte]
    by_cases hb : a = b
    · subst hb
      rw [if_neg (by omega), if_pos rfl, if_pos (Nat.le_refl a), Nat.sub_self]
      rfl
    · by_cases hle : a + 1 ≤ b
      · have h3 : b - a = b - (a + 1) + 1 := by omega
        rw [if_pos hle, if_pos (by omega : a ≤ b), if_neg hb, h3, List.getElem?_cons_succ]
      · rw [if_neg hle, if_neg hb, if_neg (by omega : ¬a ≤ b)]

theorem byte_copy (m : Memory) (source target count b : Nat) :
    (m.copy source target count).byte b =
      if target ≤ b ∧ b < target + count then m.byte (source + (b - target)) else m.byte b := by
  rw [copy, byte_setBytes, getElem?_bytes]
  by_cases hle : target ≤ b
  · by_cases hlt : b < target + count
    · rw [if_pos hle, if_pos (by omega), if_pos ⟨hle, hlt⟩]
      rfl
    · rw [if_pos hle, if_neg (by omega), if_neg (by omega)]
      rfl
  · rw [if_neg hle, if_neg (by omega)]

theorem byte_clear (m : Memory) (a count b : Nat) :
    (m.clear a count).byte b = if a ≤ b ∧ b < a + count then 0 else m.byte b := by
  rw [clear, byte_setBytes, List.getElem?_replicate]
  by_cases hle : a ≤ b
  · by_cases hlt : b < a + count
    · rw [if_pos hle, if_pos (by omega), if_pos ⟨hle, hlt⟩]
      rfl
    · rw [if_pos hle, if_neg (by omega), if_neg (by omega)]
      rfl
  · rw [if_neg hle, if_neg (by omega)]

theorem byte_clearFrom (m : Memory) (a b : Nat) :
    (m.clearFrom a).byte b = if b < a then m.byte b else 0 := by
  rw [byte, clearFrom, Std.TreeMap.getD_filter', byte, Std.TreeMap.getD_eq_getD_getElem?]
  cases m.written[b]? with
  | none => simp
  | some x => by_cases h : b < a <;> simp [Option.filter, h]

theorem word_setWord_same (m : Memory) (a : Nat) (w : UInt64) : (m.setWord a w).word a = w := by
  have hw : w.toNat < 256 ^ 8 := w.toNat_lt
  rw [word, setWord, load_store_same, Nat.mod_eq_of_lt hw, UInt64.ofNat_toNat]

theorem half_setHalf_same (m : Memory) (a : Nat) (w : UInt32) : (m.setHalf a w).half a = w := by
  have hw : w.toNat < 256 ^ 4 := w.toNat_lt
  rw [half, setHalf, load_store_same, Nat.mod_eq_of_lt hw, UInt32.ofNat_toNat]

end Memory

/-! Where two memories hold the same bytes, and where an operation on memory changes bytes. -/

namespace Memory

variable {l m n : Memory} {a b len width : Nat}

def SameOn (m n : Memory) (a len : Nat) : Prop := ∀ x, a ≤ x → x < a + len → n.byte x = m.byte x

/-- The memories hold the same bytes outside the `len` places from `a` on. -/
def ChangesOnly (m n : Memory) (a len : Nat) : Prop := ∀ x, x < a ∨ a + len ≤ x → n.byte x = m.byte x

def ZeroOn (m : Memory) (a len : Nat) : Prop := ∀ x, a ≤ x → x < a + len → m.byte x = 0

/-- The `len` bytes from `b` on in the second memory are those from `a` on in the first. -/
def CopiedTo (m n : Memory) (a b len : Nat) : Prop := ∀ i < len, n.byte (b + i) = m.byte (a + i)

theorem SameOn.refl (m : Memory) (a len : Nat) : SameOn m m a len := fun _ _ _ => rfl

theorem SameOn.trans (h : SameOn l m a len) (h' : SameOn m n a len) : SameOn l n a len :=
  fun x hx hx' => (h' x hx hx').trans (h x hx hx')

theorem SameOn.mono (h : SameOn m n a len) (hb : a ≤ b) (hwidth : b + width ≤ a + len) :
    SameOn m n b width :=
  fun x hx hx' => h x (by omega) (by omega)

theorem ChangesOnly.refl (m : Memory) (a len : Nat) : ChangesOnly m m a len := fun _ _ => rfl

theorem ChangesOnly.trans (h : ChangesOnly l m a len) (h' : ChangesOnly m n a len) :
    ChangesOnly l n a len :=
  fun x hx => (h' x hx).trans (h x hx)

theorem ChangesOnly.mono (h : ChangesOnly m n b width) (hb : a ≤ b) (hwidth : b + width ≤ a + len) :
    ChangesOnly m n a len :=
  fun x hx => h x (by omega)

theorem ChangesOnly.sameOn (h : ChangesOnly m n a len) (hb : b + width ≤ a ∨ a + len ≤ b) :
    SameOn m n b width :=
  fun x hx hx' => h x (by omega)

theorem SameOn.below (h : SameOn l m 0 a) (hchange : ChangesOnly m n b len) (hb : a ≤ b) :
    SameOn l n 0 a :=
  h.trans (hchange.sameOn (Or.inl (by omega)))

theorem ZeroOn.mono (h : ZeroOn m a len) (hb : a ≤ b) (hwidth : b + width ≤ a + len) :
    ZeroOn m b width :=
  fun x hx hx' => h x (by omega) (by omega)

theorem SameOn.copiedTo (h : SameOn m n a len) : CopiedTo m n a a len :=
  fun i hi => h (a + i) (by omega) (by omega)

theorem CopiedTo.trans {c : Nat} (h : CopiedTo l m a b len) (h' : CopiedTo m n b c len) :
    CopiedTo l n a c len :=
  fun i hi => (h' i hi).trans (h i hi)

theorem CopiedTo.read {k : Kind} (h : CopiedTo m n a b k.size) : n.read b k = m.read a k := by
  rw [Memory.read, Memory.read, load_congr h]

theorem ZeroOn.same (h : ZeroOn m a len) (hsame : SameOn m n a len) : ZeroOn n a len :=
  fun x hx hx' => (hsame x hx hx').trans (h x hx hx')

namespace SameOn

theorem load (h : SameOn m n a width) : n.load a width = m.load a width :=
  load_congr fun i hi => h (a + i) (by omega) (by omega)

theorem word (h : SameOn m n a 8) : n.word a = m.word a := by
  rw [Memory.word, Memory.word, h.load]

theorem half (h : SameOn m n a 4) : n.half a = m.half a := by
  rw [Memory.half, Memory.half, h.load]

theorem count (h : SameOn m n a 4) : n.count a = m.count a := by
  rw [Memory.count, Memory.count, h.half]

theorem read {k : Kind} (h : SameOn m n a k.size) : n.read a k = m.read a k := by
  rw [Memory.read, Memory.read, h.load]

theorem typeOf {v : Addr} (h : SameOn m n v.toNat 8) : n.typeOf v = m.typeOf v := by
  rw [Memory.typeOf, Memory.typeOf, h.word]

end SameOn

namespace ZeroOn

theorem load (h : ZeroOn m a width) : m.load a width = 0 := by
  induction width generalizing a with
  | zero => rfl
  | succ width ih =>
    have hrest : ZeroOn m (a + 1) width := h.mono (by omega) (by omega)
    rw [Memory.load, ih hrest, h a (by omega) (by omega)]
    rfl

theorem word (h : ZeroOn m a 8) : m.word a = 0 := by
  rw [Memory.word, h.load]
  rfl

theorem half (h : ZeroOn m a 4) : m.half a = 0 := by
  rw [Memory.half, h.load]
  rfl

theorem count (h : ZeroOn m a 4) : m.count a = 0 := by
  rw [Memory.count, h.half]
  rfl

theorem read {k : Kind} (h : ZeroOn m a k.size) : m.read a k = .ofWord k 0 := by
  rw [Memory.read, h.load]

end ZeroOn

theorem changesOnly_store (m : Memory) (a width word : Nat) :
    ChangesOnly m (m.store a width word) a width := by
  intro x hx
  rw [byte_store, if_neg (by omega)]

theorem changesOnly_write (m : Memory) (a : Nat) (s : Slot) : ChangesOnly m (m.write a s) a s.width :=
  changesOnly_store m a s.width s.word

theorem changesOnly_setWord (m : Memory) (a : Nat) (w : UInt64) : ChangesOnly m (m.setWord a w) a 8 :=
  changesOnly_store m a 8 w.toNat

theorem changesOnly_setHalf (m : Memory) (a : Nat) (w : UInt32) : ChangesOnly m (m.setHalf a w) a 4 :=
  changesOnly_store m a 4 w.toNat

theorem changesOnly_setCount (m : Memory) (a n : Nat) : ChangesOnly m (m.setCount a n) a 4 :=
  changesOnly_setHalf m a (UInt32.ofNat n)

theorem changesOnly_setType (m : Memory) (v : Addr) (t : TypeId) :
    ChangesOnly m (m.setType v t) v.toNat 8 :=
  changesOnly_setWord m v.toNat t.raw.toUInt64

theorem changesOnly_setBytes (m : Memory) (a : Nat) (bs : List UInt8) :
    ChangesOnly m (m.setBytes a bs) a bs.length := by
  intro x hx
  rw [byte_setBytes]
  split
  · rw [List.getElem?_eq_none (by omega)]
    rfl
  · rfl

theorem changesOnly_copy (m : Memory) (source target len : Nat) :
    ChangesOnly m (m.copy source target len) target len := by
  intro x hx
  rw [byte_copy, if_neg (by omega)]

theorem changesOnly_clear (m : Memory) (a len : Nat) : ChangesOnly m (m.clear a len) a len := by
  intro x hx
  rw [byte_clear, if_neg (by omega)]

theorem typeOf_setType_same (m : Memory) (v : Addr) (t : TypeId) : (m.setType v t).typeOf v = t := by
  rw [typeOf, setType, word_setWord_same]
  simp

private theorem toNat_signExtended (w : UInt32) :
    w.toInt32.toInt64.toUInt64.toNat =
      if w.toNat < 2 ^ 31 then w.toNat else w.toNat + (2 ^ 64 - 2 ^ 32) := by
  rw [← UInt64.toNat_toBitVec]
  have h : w.toInt32.toInt64.toUInt64.toBitVec = w.toBitVec.signExtend 64 := rfl
  have hw := w.toNat_lt
  rw [h, BitVec.toNat_signExtend, BitVec.msb_eq_decide, BitVec.toNat_setWidth, UInt32.toNat_toBitVec]
  by_cases hlow : w.toNat < 2 ^ 31
  · have hmsb : ¬2 ^ (32 - 1) ≤ w.toNat := by omega
    simp only [hlow, hmsb, decide_false, if_true, Bool.false_eq_true, if_false]
    omega
  · have hmsb : 2 ^ (32 - 1) ≤ w.toNat := by omega
    simp only [hlow, hmsb, decide_true, if_true, if_false]
    omega

theorem count_small_or_huge (m : Memory) (a : Nat) : m.count a < 2 ^ 31 ∨ 2 ^ 63 ≤ m.count a := by
  rw [count, toNat_signExtended]
  split <;> omega

theorem count_setCount (m : Memory) (a : Nat) {k : Nat} (h : k < 2 ^ 32) :
    k ≤ (m.setCount a k).count a ∧ (k < 2 ^ 31 → (m.setCount a k).count a = k) := by
  have hk : (UInt32.ofNat k).toNat = k := by
    rw [UInt32.toNat_ofNat', Nat.mod_eq_of_lt h]
  rw [count, setCount, half_setHalf_same, toNat_signExtended, hk]
  split
  · exact ⟨Nat.le_refl _, fun _ => rfl⟩
  · exact ⟨by omega, fun hlow => absurd hlow (by omega)⟩

end Memory

end ObjectModel
