import Mathlib.Algebra.BigOperators.Intervals
import Mathlib.Algebra.BigOperators.Ring.Finset
import Mathlib.Tactic.Ring
import ObjectModel.Name

/-!
The hash of a name as a number. Its code units are the digits of a number in base 223, and however long the
name is, the wrapped sum is the signed 32-bit residue of this number; the hash is what remains of it. The code
units are those of UTF-16, which is given here by what a decoder reads.
-/

set_option autoImplicit false
set_option relaxedAutoImplicit false

namespace ObjectModel

namespace Name

variable {c : Char} {cs : List Char} {u : UInt16} {us vs : List UInt16}

/-! The sum of the units. -/

/-- The number whose digits in base 223 are the units, the first one the highest. -/
def digitSum (us : List UInt16) : Int :=
  ∑ i ∈ Finset.range us.length, ((us.getD i 0).toNat : Int) * 223 ^ (us.length - 1 - i)

theorem digitSum_concat (us : List UInt16) (u : UInt16) :
    digitSum (us ++ [u]) = 223 * digitSum us + u.toNat := by
  have hlength : (us ++ [u]).length = us.length + 1 := by simp
  have hlast : (us ++ [u]).getD us.length 0 = u := by simp
  unfold digitSum
  rw [hlength, Finset.sum_range_succ, hlast, Finset.mul_sum]
  congr 1
  · refine Finset.sum_congr rfl fun i hi => ?_
    have hi := Finset.mem_range.1 hi
    have hunit : (us ++ [u]).getD i 0 = us.getD i 0 := by
      rw [List.getD_eq_getElem?_getD, List.getElem?_append_left hi, ← List.getD_eq_getElem?_getD]
    have hexponent : us.length + 1 - 1 - i = us.length - 1 - i + 1 := by omega
    rw [hunit, hexponent, pow_succ]
    ring
  · simp

theorem toInt_unit (u : UInt16) : u.toUInt32.toInt32.toInt = u.toNat := by
  have hsmall : u.toNat < 2 ^ 16 := u.toNat_lt
  have hword : u.toUInt32.toInt32.toInt = (u.toNat : Int).bmod (2 ^ 32) := by
    change u.toUInt32.toBitVec.toInt = _
    rw [BitVec.toInt_eq_toNat_bmod]
    rfl
  rw [hword]
  exact Int.bmod_eq_of_le (by omega) (by omega)

theorem toInt_hashStep {h : Int32} {n : Int} (hn : h.toInt = n.bmod (2 ^ 32)) (u : UInt16) :
    (hashStep h u).toInt = (223 * n + u.toNat).bmod (2 ^ 32) := by
  rw [hashStep, Int32.toInt_add, Int32.toInt_mul, hn, toInt_unit, Int.bmod_add_bmod]
  rw [← Int.bmod_add_bmod, show (223 : Int32).toInt = 223 from rfl, Int.mul_bmod_bmod, Int.bmod_add_bmod]

/-- The wrapped sum of units is the residue of their exact sum. -/
theorem toInt_foldl_hashStep (us : List UInt16) :
    (us.foldl hashStep 0).toInt = (digitSum us).bmod (2 ^ 32) := by
  induction us using List.reverseRecOn with
  | nil => rfl
  | append_singleton us u ih =>
    rw [List.foldl_append, List.foldl_cons, List.foldl_nil, toInt_hashStep ih, digitSum_concat]

theorem toInt_hashUnits (us : List UInt16) :
    (hashUnits us).toInt = ((digitSum us).bmod (2 ^ 32)).tmod 0x1FFFFF7B := by
  rw [hashUnits, Int32.toInt_mod, toInt_foldl_hashStep]
  rfl

theorem natAbs_hashUnits_lt (us : List UInt16) : (hashUnits us).toInt.natAbs < 0x1FFFFF7B := by
  rw [toInt_hashUnits, Int.natAbs_tmod]
  exact Nat.mod_lt _ (by decide)

/-! The units of a text. -/

/-- Units are the UTF-16 encoding of characters. A unit that is no surrogate is the character of its own
number; a high and a low surrogate have ten bits each of how far their character lies above the basic plane. -/
inductive IsUtf16 : List Char → List UInt16 → Prop
  | nil : IsUtf16 [] []
  | unit {c : Char} {cs : List Char} {u : UInt16} {us : List UInt16} : c.toNat = u.toNat →
    IsUtf16 cs us → IsUtf16 (c :: cs) (u :: us)
  | pair {c : Char} {cs : List Char} {high low : UInt16} {us : List UInt16} :
    0xD800 ≤ high.toNat → high.toNat < 0xDC00 → 0xDC00 ≤ low.toNat → low.toNat < 0xE000 →
      c.toNat = 0x10000 + (high.toNat - 0xD800) * 0x400 + (low.toNat - 0xDC00) →
        IsUtf16 cs us → IsUtf16 (c :: cs) (high :: low :: us)

theorem charUnits_of_basic (hc : c.toNat = u.toNat) : charUnits c = [u] := by
  have hlow : u.toNat < 0x10000 := u.toNat_lt
  rw [charUnits, if_pos (by omega), hc, UInt16.ofNat_toNat]

theorem charUnits_of_pair {high low : UInt16} (hhigh : 0xD800 ≤ high.toNat) (hlow : 0xDC00 ≤ low.toNat)
    (hend : low.toNat < 0xE000)
    (hc : c.toNat = 0x10000 + (high.toNat - 0xD800) * 0x400 + (low.toNat - 0xDC00)) :
    charUnits c = [high, low] := by
  have hfirst : 0xD800 + (c.toNat - 0x10000) / 0x400 = high.toNat := by omega
  have hsecond : 0xDC00 + (c.toNat - 0x10000) % 0x400 = low.toNat := by omega
  rw [charUnits, if_neg (by omega)]
  simp only [hfirst, hsecond, UInt16.ofNat_toNat]

theorem IsUtf16.cons (c : Char) (h : IsUtf16 cs us) : IsUtf16 (c :: cs) (charUnits c ++ us) := by
  have hvalid : c.toNat < 0x110000 := by
    rcases c.valid with hc | ⟨-, hc⟩
    · exact Nat.lt_trans hc (by decide)
    · exact hc
  by_cases hbasic : c.toNat < 0x10000
  · have hunit : c.toNat = (UInt16.ofNat c.toNat).toNat := by
      rw [UInt16.toNat_ofNat', Nat.mod_eq_of_lt hbasic]
    rw [charUnits_of_basic hunit]
    exact .unit hunit h
  · have hhigh : (UInt16.ofNat (0xD800 + (c.toNat - 0x10000) / 0x400)).toNat =
        0xD800 + (c.toNat - 0x10000) / 0x400 := by
      rw [UInt16.toNat_ofNat', Nat.mod_eq_of_lt (by omega)]
    have hlow : (UInt16.ofNat (0xDC00 + (c.toNat - 0x10000) % 0x400)).toNat =
        0xDC00 + (c.toNat - 0x10000) % 0x400 := by
      rw [UInt16.toNat_ofNat', Nat.mod_eq_of_lt (by omega)]
    rw [charUnits, if_neg hbasic]
    exact .pair (by omega) (by omega) (by omega) (by omega) (by omega) h

/-- A text has one encoding. -/
theorem isUtf16_iff : IsUtf16 cs us ↔ us = cs.flatMap charUnits := by
  constructor
  · intro h
    induction h with
    | nil => rfl
    | unit hc _ ih => rw [List.flatMap_cons, charUnits_of_basic hc, ← ih, List.singleton_append]
    | pair hhigh _ hlow hend hc _ ih =>
      rw [List.flatMap_cons, charUnits_of_pair hhigh hlow hend hc, ← ih]
      rfl
  · rintro rfl
    induction cs with
    | nil => exact .nil
    | cons c cs ih => exact ih.cons c

/-- The hash of units is the remainder, with its sign, of the signed 32-bit residue of their exact sum in base
223, and after every unit the wrapped sum so far is the residue of the exact one. The hash of a name is that
of its UTF-16 encoding. -/
theorem hash_of_exact_sum :
    (∀ us : List UInt16, (hashUnits us).toInt = ((digitSum us).bmod (2 ^ 32)).tmod 0x1FFFFF7B ∧
      (hashUnits us).toInt.natAbs < 0x1FFFFF7B ∧
      ∀ n, ((us.take n).foldl hashStep 0).toInt = (digitSum (us.take n)).bmod (2 ^ 32)) ∧
    ∀ s : String, ∃ us, IsUtf16 s.toList us ∧ (∀ vs, IsUtf16 s.toList vs → vs = us) ∧ hash s = hashUnits us := by
  refine ⟨fun us => ⟨toInt_hashUnits us, natAbs_hashUnits_lt us, ?_⟩, fun s => ?_⟩
  · exact fun n => toInt_foldl_hashStep (us.take n)
  · exact ⟨units s, isUtf16_iff.2 rfl, fun vs => isUtf16_iff.1, rfl⟩

/-! A sum that wraps to a negative one, and a character outside of the basic plane. -/

example : (hash "length").toInt = -16280745 := by decide +kernel

example : units "a😀" = [0x61, 0xD83D, 0xDE00] := by decide +kernel

end Name

end ObjectModel
