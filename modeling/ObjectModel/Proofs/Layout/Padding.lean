import Mathlib.Tactic.IntervalCases
import ObjectModel.Proofs.Layout.Placement

/-!
Padding in 64-bit arithmetic. Every alignment is a power of two, so the low bits of an offset are its
remainder, and the padding found from them is just what is missing to the next multiple. An offset moves up to
the least multiple of the alignment as long as this is a 64-bit number; the few offsets behind the last one
wrap around to zero.
-/

set_option autoImplicit false
set_option relaxedAutoImplicit false

namespace ObjectModel

namespace Kind

variable {k : Kind} {offset offset' : UInt64}

theorem align_isPowerOfTwo (k : Kind) : ∃ i ≤ 3, k.align = 2 ^ i := by
  cases k with
  | void | i8 | bool => exact ⟨0, by decide, rfl⟩
  | i16 => exact ⟨1, by decide, rfl⟩
  | i32 | f32 => exact ⟨2, by decide, rfl⟩
  | _ => exact ⟨3, by decide, rfl⟩

theorem alignUp_eq_add (k : Kind) (n : Nat) :
    k.alignUp n = n + if n % k.align = 0 then 0 else k.align - n % k.align := by
  obtain ⟨i, hi, halign⟩ := k.align_isPowerOfTwo
  rw [alignUp, halign]
  interval_cases i <;> split_ifs <;> omega

theorem toNat_align (k : Kind) : (UInt64.ofNat k.align).toNat = k.align := by
  cases k <;> rfl

theorem toNat_lowBits (k : Kind) (offset : UInt64) :
    (offset &&& (UInt64.ofNat k.align - 1)).toNat = offset.toNat % k.align := by
  obtain ⟨i, -, halign⟩ := k.align_isPowerOfTwo
  have hone : (1 : UInt64) ≤ UInt64.ofNat k.align := by
    rw [UInt64.le_iff_toNat_le, toNat_align]
    exact k.align_pos
  have hmask : (UInt64.ofNat k.align - 1).toNat = k.align - 1 := by
    rw [UInt64.toNat_sub_of_le _ _ hone, toNat_align]
    rfl
  rw [UInt64.toNat_and, hmask, halign, Nat.and_two_pow_sub_one_eq_mod]

/-- The padding is exact for every offset, even where the padded offset wraps around. -/
theorem toNat_padSize (k : Kind) (offset : UInt64) :
    (k.padSize offset).toNat = k.alignUp offset.toNat - offset.toNat := by
  have hlow := k.toNat_lowBits offset
  have hlt : offset.toNat % k.align < k.align := Nat.mod_lt _ k.align_pos
  rw [alignUp_eq_add, Nat.add_sub_cancel_left]
  unfold padSize
  dsimp only
  generalize offset &&& (UInt64.ofNat k.align - 1) = low at hlow
  have hzero : low = 0 ↔ offset.toNat % k.align = 0 := by
    rw [← hlow, ← UInt64.toNat_inj]
    rfl
  by_cases h : low = 0
  · rw [if_pos h, if_pos (hzero.1 h)]
    rfl
  · have hle : low ≤ UInt64.ofNat k.align := by
      rw [UInt64.le_iff_toNat_le, toNat_align]
      omega
    rw [if_neg h, if_neg (mt hzero.2 h), UInt64.toNat_sub_of_le _ _ hle, toNat_align, hlow]

theorem toNat_padSize_lt (k : Kind) (offset : UInt64) : (k.padSize offset).toNat < k.align := by
  have hpos := k.align_pos
  rw [toNat_padSize, alignUp_eq_add, Nat.add_sub_cancel_left]
  split_ifs <;> omega

theorem toNat_pad (k : Kind) (offset : UInt64) : (k.pad offset).toNat = k.alignUp offset.toNat % 2 ^ 64 := by
  rw [pad, UInt64.toNat_add, toNat_padSize, Nat.add_sub_cancel' (k.le_alignUp _)]

/-- There is a 64-bit number from the offset on that suits the kind. -/
def HasMultipleFrom (k : Kind) (offset : UInt64) : Prop := ∃ n : UInt64, offset ≤ n ∧ k.align ∣ n.toNat

theorem hasMultipleFrom_iff : k.HasMultipleFrom offset ↔ k.alignUp offset.toNat < 2 ^ 64 := by
  constructor
  · rintro ⟨n, hle, hdvd⟩
    have hleast := alignUp_le_of_dvd (UInt64.le_iff_toNat_le.1 hle) hdvd
    have hlt := n.toNat_lt
    omega
  · intro hlt
    have hn : (UInt64.ofNat (k.alignUp offset.toNat)).toNat = k.alignUp offset.toNat :=
      UInt64.toNat_ofNat_of_lt' hlt
    refine ⟨.ofNat (k.alignUp offset.toNat), ?_, ?_⟩
    · rw [UInt64.le_iff_toNat_le, hn]
      exact k.le_alignUp _
    · rw [hn]
      exact k.align_dvd_alignUp _

theorem HasMultipleFrom.of_le (h : k.HasMultipleFrom offset') (hle : offset ≤ offset') :
    k.HasMultipleFrom offset := by
  obtain ⟨n, hn, hdvd⟩ := h
  exact ⟨n, UInt64.le_trans hle hn, hdvd⟩

theorem HasMultipleFrom.toNat_pad (h : k.HasMultipleFrom offset) :
    (k.pad offset).toNat = k.alignUp offset.toNat := by
  rw [Kind.toNat_pad, Nat.mod_eq_of_lt (hasMultipleFrom_iff.1 h)]

theorem pad_eq_zero (h : ¬k.HasMultipleFrom offset) : k.pad offset = 0 := by
  obtain ⟨i, hi, halign⟩ := k.align_isPowerOfTwo
  have hle : 2 ^ 64 ≤ k.alignUp offset.toNat := Nat.le_of_not_lt (mt hasMultipleFrom_iff.2 h)
  have hwhole : k.alignUp offset.toNat ≤ 2 ^ 64 := by
    apply alignUp_le_of_dvd
    · exact offset.toNat_lt.le
    · rw [halign]
      exact Nat.pow_dvd_pow 2 (by omega)
  rw [← UInt64.toNat_inj, Kind.toNat_pad, Nat.le_antisymm hwhole hle]
  rfl

example : pad .f64 0xFFFFFFFFFFFFFFF9 = 0 := by decide

/-- An offset is padded to the least multiple of the alignment from it on, if this is a 64-bit number. The padding
is the difference of the two, without wrapping around, and less than the alignment; a padded offset stays where it
is, and offsets keep their order. -/
theorem pad_least_multiple (h : k.HasMultipleFrom offset) :
    IsLeast {n | offset.toNat ≤ n ∧ k.align ∣ n} (k.pad offset).toNat ∧
    (k.pad offset).toNat = offset.toNat + (k.padSize offset).toNat ∧
    (k.padSize offset).toNat < k.align ∧
    k.pad (k.pad offset) = k.pad offset ∧
    ∀ lower ≤ offset, k.pad lower ≤ k.pad offset := by
  have hpad := h.toNat_pad
  have hdvd : k.align ∣ (k.pad offset).toNat := hpad ▸ k.align_dvd_alignUp _
  refine ⟨?_, ?_, k.toNat_padSize_lt offset, ?_, ?_⟩
  · rw [hpad]
    exact k.isLeast_alignUp offset.toNat
  · have hle := k.le_alignUp offset.toNat
    rw [hpad, toNat_padSize]
    omega
  · have hpadded : k.HasMultipleFrom (k.pad offset) := ⟨k.pad offset, UInt64.le_refl _, hdvd⟩
    rw [← UInt64.toNat_inj, hpadded.toNat_pad]
    exact alignUp_of_dvd hdvd
  · intro lower hlower
    rw [UInt64.le_iff_toNat_le, (h.of_le hlower).toNat_pad, hpad]
    exact alignUp_mono (UInt64.le_iff_toNat_le.1 hlower)

/-- An offset for a number of eight bytes that is padded to the last multiple of eight. -/
theorem pad_to_last_word : HasMultipleFrom .f64 0xFFFFFFFFFFFFFFF1 ∧
    IsLeast {n | 0xFFFFFFFFFFFFFFF1 ≤ n ∧ 8 ∣ n} (pad .f64 0xFFFFFFFFFFFFFFF1).toNat ∧
    (pad .f64 0xFFFFFFFFFFFFFFF1).toNat = 0xFFFFFFFFFFFFFFF1 + 7 ∧
    pad .f64 0xFFFFFFFFFFFFFFF8 = 0xFFFFFFFFFFFFFFF8 ∧ pad .f64 12 ≤ 0xFFFFFFFFFFFFFFF8 := by
  have hroom : HasMultipleFrom .f64 0xFFFFFFFFFFFFFFF1 := ⟨0xFFFFFFFFFFFFFFF8, by decide, by decide⟩
  have hpad : pad .f64 0xFFFFFFFFFFFFFFF1 = 0xFFFFFFFFFFFFFFF8 := by decide
  obtain ⟨hleast, hexact, -, hagain, hmono⟩ := pad_least_multiple hroom
  rw [hpad] at hagain hmono
  exact ⟨hroom, hleast, hexact, hagain, hmono 12 (by decide)⟩

end Kind

end ObjectModel
