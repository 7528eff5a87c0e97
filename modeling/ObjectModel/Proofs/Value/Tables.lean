import ObjectModel.Proofs.Value.Frame

/-!
The tables of open objects: searching and inserting by hash, and entries as they lie in memory.
-/

set_option autoImplicit false
set_option relaxedAutoImplicit false

namespace ObjectModel

namespace OpenObject

variable {fields : List OpenField} {f g : OpenField} {hash : NameHash} {m n : Memory} {a count i : Nat}

theorem position_cons (f : OpenField) (fields : List OpenField) (hash : NameHash) :
    position (f :: fields) hash = if f.hash < hash then position fields hash + 1 else 0 := by
  unfold position
  rw [List.takeWhile_cons]
  by_cases hlt : f.hash < hash
  · simp [hlt]
  · simp [hlt]

theorem mem_of_find? (hf : find? fields hash = some f) : f ∈ fields ∧ f.hash = hash := by
  obtain ⟨hget, hhash⟩ := Option.filter_eq_some_iff.1 hf
  exact ⟨List.mem_of_getElem? hget, beq_iff_eq.1 hhash⟩

theorem getElem?_position (hf : find? fields hash = some f) :
    fields[position fields hash]? = some f :=
  (Option.filter_eq_some_iff.1 hf).1

theorem find?_hash (hsorted : fields.Pairwise (·.hash < ·.hash)) (hf : f ∈ fields) :
    find? fields f.hash = some f := by
  unfold find?
  induction hsorted with
  | nil => cases hf
  | @cons g rest hall _ ih =>
    rw [position_cons]
    rcases List.mem_cons.1 hf with rfl | hf
    · rw [if_neg Int32.lt_irrefl, List.getElem?_cons_zero]
      simp
    · rw [if_pos (hall f hf), List.getElem?_cons_succ]
      exact ih hf

theorem isSome_find?_iff (hsorted : fields.Pairwise (·.hash < ·.hash)) :
    (find? fields hash).isSome = true ↔ hash ∈ fields.map OpenField.hash := by
  rw [List.mem_map]
  constructor
  · intro hfound
    obtain ⟨f, hf⟩ := Option.isSome_iff_exists.1 hfound
    exact ⟨f, mem_of_find? hf⟩
  · rintro ⟨f, hf, rfl⟩
    rw [find?_hash hsorted hf]
    rfl

theorem hash_lt_of_mem_take (hg : g ∈ fields.take (position fields hash)) : g.hash < hash := by
  induction fields with
  | nil => cases hg
  | cons f fields ih =>
    rw [position_cons] at hg
    by_cases hlt : f.hash < hash
    · rw [if_pos hlt, List.take_succ_cons] at hg
      rcases List.mem_cons.1 hg with rfl | hg
      · exact hlt
      · exact ih hg
    · rw [if_neg hlt] at hg
      cases hg

theorem lt_hash_of_mem_drop (hsorted : fields.Pairwise (·.hash < ·.hash))
    (hnone : find? fields hash = none) (hg : g ∈ fields.drop (position fields hash)) : hash < g.hash := by
  induction hsorted with
  | nil =>
    rw [List.drop_nil] at hg
    cases hg
  | @cons f rest hall hrest ih =>
    have hne : f.hash ≠ hash := by
      rintro rfl
      rw [find?_hash (hrest.cons hall) List.mem_cons_self] at hnone
      cases hnone
    rw [position_cons] at hg
    by_cases hlt : f.hash < hash
    · rw [if_pos hlt, List.drop_succ_cons] at hg
      refine ih ?_ hg
      unfold find? at hnone ⊢
      rwa [position_cons, if_pos hlt, List.getElem?_cons_succ] at hnone
    · rw [if_neg hlt, List.drop_zero] at hg
      have hgt : hash < f.hash := by
        rcases Int32.lt_or_le f.hash hash with h | h
        · exact absurd h hlt
        · exact Int32.lt_of_le_of_ne h hne.symm
      rcases List.mem_cons.1 hg with rfl | hg
      · exact hgt
      · exact Int32.lt_trans hgt (hall g hg)

def inserted (fields : List OpenField) (f : OpenField) : List OpenField :=
  fields.take (position fields f.hash) ++ f :: fields.drop (position fields f.hash)

theorem mem_inserted : g ∈ inserted fields f ↔ g = f ∨ g ∈ fields := by
  have hsplit := List.take_append_drop (position fields f.hash) fields
  unfold inserted
  rw [List.mem_append, List.mem_cons]
  conv_rhs => rw [← hsplit, List.mem_append]
  exact or_left_comm

theorem length_inserted : (inserted fields f).length = fields.length + 1 := by
  have hsplit := congrArg List.length (List.take_append_drop (position fields f.hash) fields)
  rw [List.length_append] at hsplit
  unfold inserted
  rw [List.length_append, List.length_cons]
  omega

theorem pairwise_inserted {R : OpenField → OpenField → Prop} (hall : fields.Pairwise R)
    (hbefore : ∀ g ∈ fields.take (position fields f.hash), R g f)
    (hbehind : ∀ g ∈ fields.drop (position fields f.hash), R f g) : (inserted fields f).Pairwise R := by
  rw [← List.take_append_drop (position fields f.hash) fields, List.pairwise_append] at hall
  obtain ⟨htake, hdrop, hacross⟩ := hall
  refine List.pairwise_append.2 ⟨htake, hdrop.cons hbehind, fun x hx y hy => ?_⟩
  rcases List.mem_cons.1 hy with rfl | hy
  · exact hbefore x hx
  · exact hacross x hx y hy

theorem sorted_inserted (hsorted : fields.Pairwise (·.hash < ·.hash))
    (hnone : find? fields f.hash = none) : (inserted fields f).Pairwise (·.hash < ·.hash) :=
  pairwise_inserted hsorted (fun _ hg => hash_lt_of_mem_take hg)
    fun _ hg => lt_hash_of_mem_drop hsorted hnone hg

/-! Entries in memory. -/

theorem getElem?_readEntries (m : Memory) (a count i : Nat) :
    (readEntries m a count)[i]? = if i < count then some (readEntry m (a + i * entrySize)) else none := by
  induction count generalizing a i with
  | zero => rfl
  | succ count ih =>
    rw [readEntries]
    cases i with
    | zero => simp
    | succ i =>
      have hplace : a + (i + 1) * entrySize = a + entrySize + i * entrySize := by
        rw [Nat.succ_mul]
        omega
      rw [List.getElem?_cons_succ, ih, hplace]
      simp only [Nat.succ_lt_succ_iff]

theorem offset_lt_of_mem (hf : f ∈ readEntries m a count) : f.offset < 2 ^ 32 := by
  obtain ⟨i, hi⟩ := List.mem_iff_getElem?.1 hf
  rw [getElem?_readEntries] at hi
  split_ifs at hi
  obtain rfl := Option.some.inj hi
  exact UInt32.toNat_lt _

theorem changesOnly_writeEntry (m : Memory) (a : Nat) (f : OpenField) :
    Memory.ChangesOnly m (writeEntry m a f) a entrySize := by
  have hstep : entrySize = 12 := rfl
  unfold writeEntry
  have hhash := Memory.changesOnly_setHalf m a f.hash.toUInt32
  have htype := Memory.changesOnly_setHalf (m.setHalf a f.hash.toUInt32) (a + 4) f.type.raw
  have hoffset := Memory.changesOnly_setHalf ((m.setHalf a f.hash.toUInt32).setHalf (a + 4) f.type.raw)
    (a + 8) (UInt32.ofNat f.offset)
  exact ((hhash.mono (by omega) (by omega)).trans (htype.mono (by omega) (by omega))).trans
    (hoffset.mono (by omega) (by omega))

theorem changesOnly_writeEntry_of_lt (m : Memory) (a : Nat) (f : OpenField) (hi : i < count) :
    Memory.ChangesOnly m (writeEntry m (a + i * entrySize) f) a (count * entrySize) := by
  have hroom : i * entrySize + entrySize ≤ count * entrySize := by
    rw [← Nat.succ_mul]
    exact Nat.mul_le_mul_right _ hi
  exact (changesOnly_writeEntry m _ f).mono (Nat.le_add_right _ _) (by omega)

theorem readEntry_writeEntry (m : Memory) (a : Nat) (hf : f.offset < 2 ^ 32) :
    readEntry (writeEntry m a f) a = f := by
  set m₁ := m.setHalf a f.hash.toUInt32 with hm₁
  set m₂ := m₁.setHalf (a + 4) f.type.raw with hm₂
  have htype : Memory.ChangesOnly m₁ m₂ (a + 4) 4 := Memory.changesOnly_setHalf _ _ _
  have hoffset : Memory.ChangesOnly m₂ (writeEntry m a f) (a + 8) 4 := Memory.changesOnly_setHalf _ _ _
  have hfirst : (writeEntry m a f).half a = f.hash.toUInt32 := by
    rw [(hoffset.sameOn (b := a) (Or.inl (by omega))).half,
      (htype.sameOn (b := a) (Or.inl le_rfl)).half, hm₁, Memory.half_setHalf_same]
  have hsecond : (writeEntry m a f).half (a + 4) = f.type.raw := by
    rw [(hoffset.sameOn (b := a + 4) (Or.inl le_rfl)).half, hm₂, Memory.half_setHalf_same]
  have hthird : (writeEntry m a f).half (a + 8) = UInt32.ofNat f.offset :=
    Memory.half_setHalf_same _ _ _
  unfold readEntry
  rw [hfirst, hsecond, hthird, UInt32.toNat_ofNat', Nat.mod_eq_of_lt hf]
  rfl

theorem changesOnly_writeEntries (m : Memory) (a : Nat) (fields : List OpenField) :
    Memory.ChangesOnly m (writeEntries m a fields) a (fields.length * entrySize) := by
  induction fields generalizing m a with
  | nil => exact .refl m a _
  | cons f rest ih =>
    have hlength : (f :: rest).length * entrySize = rest.length * entrySize + entrySize := by
      rw [List.length_cons, Nat.succ_mul]
    rw [writeEntries, hlength]
    have hfirst := changesOnly_writeEntry m a f
    have hrest := ih (writeEntry m a f) (a + entrySize)
    exact (hfirst.mono le_rfl (by omega)).trans (hrest.mono (by omega) (by omega))

/-- A table whose offsets have 32 bits is read back. -/
theorem readEntries_writeEntries (m : Memory) (a : Nat) (hall : ∀ f ∈ fields, f.offset < 2 ^ 32) :
    readEntries (writeEntries m a fields) a fields.length = fields := by
  induction fields generalizing m a with
  | nil => rfl
  | cons f rest ih =>
    have hrest := changesOnly_writeEntries (writeEntry m a f) (a + entrySize) rest
    have hentry : Memory.SameOn (writeEntry m a f) (writeEntries (writeEntry m a f) (a + entrySize) rest)
        a (1 * entrySize) := hrest.sameOn (Or.inl (by omega))
    have hhead := readEntries_same hentry
    rw [readEntries, readEntries, readEntries] at hhead
    rw [List.length_cons, readEntries, writeEntries, List.head_eq_of_cons_eq hhead,
      readEntry_writeEntry m a (hall f List.mem_cons_self),
      ih (writeEntry m a f) (a + entrySize) fun g hg => hall g (List.mem_cons_of_mem f hg)]

theorem readEntries_writeEntry (m : Memory) (a : Nat) (hf : f.offset < 2 ^ 32) :
    readEntries (writeEntry m (a + i * entrySize) f) a count = (readEntries m a count).set i f := by
  refine List.ext_getElem? fun j => ?_
  rw [List.getElem?_set, getElem?_readEntries, length_readEntries, getElem?_readEntries]
  by_cases hij : i = j
  · subst hij
    by_cases hlt : i < count
    · rw [if_pos rfl, if_pos hlt, if_pos hlt, readEntry_writeEntry _ _ hf]
    · rw [if_pos rfl, if_neg hlt, if_neg hlt]
  · rw [if_neg hij]
    by_cases hlt : j < count
    · rw [if_pos hlt, if_pos hlt]
      have hchange := changesOnly_writeEntry m (a + i * entrySize) f
      have hstep : entrySize = 12 := rfl
      have hi : i * entrySize = i * 12 := rfl
      have hj : j * entrySize = j * 12 := rfl
      have hentry : Memory.SameOn m (writeEntry m (a + i * entrySize) f) (a + j * entrySize)
          (1 * entrySize) := hchange.sameOn (by omega)
      have hhead := readEntries_same hentry
      rw [readEntries, readEntries, readEntries] at hhead
      rw [List.head_eq_of_cons_eq hhead]
    · rw [if_neg hlt, if_neg hlt]

end OpenObject

end ObjectModel
