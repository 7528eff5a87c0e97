import Mathlib.Data.List.Basic
import Mathlib.Data.String.Basic
import ObjectModel.Layout

/-!
An index holds the entries that it was made from, sorted by hash and then by name. Halving the range finds
where the entries of a hash begin, so looking an entry up gives what a walk over all entries gives. So it is
for any entries, whatever their hashes, names and places: of those with a hash the first one of the smallest
name is found, and of those with a name and its hash the first one.
-/

set_option autoImplicit false
set_option relaxedAutoImplicit false

namespace ObjectModel

namespace Entry

variable {a b c : Entry}

/-- An entry has a smaller hash than another one, or the same hash and a name that is not greater. -/
def NotAfter (a b : Entry) : Prop := a.hash < b.hash ∨ a.hash = b.hash ∧ a.name ≤ b.name

theorem precedes_iff : a.precedes b = true ↔ a.hash < b.hash ∨ a.hash = b.hash ∧ a.name < b.name := by
  simp [precedes]

theorem notAfter_of_precedes (h : a.precedes b = true) : a.NotAfter b := by
  rcases precedes_iff.1 h with h | ⟨h, hname⟩
  · exact Or.inl h
  · exact Or.inr ⟨h, le_of_lt hname⟩

theorem notAfter_of_not_precedes (h : ¬a.precedes b = true) : b.NotAfter a := by
  rw [precedes_iff, not_or, not_and] at h
  by_cases hhash : b.hash = a.hash
  · exact Or.inr ⟨hhash, not_lt.1 (h.2 hhash.symm)⟩
  · exact Or.inl (Std.lt_of_le_of_ne (Std.not_lt.1 h.1) hhash)

theorem NotAfter.trans (hab : a.NotAfter b) (hbc : b.NotAfter c) : a.NotAfter c := by
  rcases hab with hab | ⟨hab, hname⟩
  · rcases hbc with hbc | ⟨hbc, -⟩
    · exact Or.inl (Std.lt_trans hab hbc)
    · exact Or.inl (hbc ▸ hab)
  · rcases hbc with hbc | ⟨hbc, hname'⟩
    · exact Or.inl (hab ▸ hbc)
    · exact Or.inr ⟨hab.trans hbc, hname.trans hname'⟩

theorem NotAfter.hash_le (h : a.NotAfter b) : a.hash ≤ b.hash := by
  rcases h with h | ⟨h, -⟩
  · exact Std.le_of_lt h
  · exact h ▸ Std.le_refl _

end Entry

namespace MemberIndex

variable {entries : List Entry} {index : MemberIndex} {e x : Entry} {hash : NameHash}

theorem mem_insertSorted : x ∈ insertSorted e entries ↔ x = e ∨ x ∈ entries := by
  induction entries with
  | nil => simp [insertSorted]
  | cons y rest ih =>
    rw [insertSorted]
    by_cases hprecedes : y.precedes e = true
    · rw [if_pos hprecedes, List.mem_cons, ih, List.mem_cons]
      exact or_left_comm
    · rw [if_neg hprecedes, List.mem_cons, List.mem_cons]

theorem mem_ofList : x ∈ (ofList entries).entries.toList ↔ x ∈ entries := by
  induction entries with
  | nil => exact Iff.rfl
  | cons e rest ih =>
    rw [List.mem_cons, ← ih]
    exact mem_insertSorted

/-- The entries of an index are in order. -/
def Sorted (index : MemberIndex) : Prop := index.entries.toList.Pairwise Entry.NotAfter

theorem pairwise_insertSorted (h : entries.Pairwise Entry.NotAfter) :
    (insertSorted e entries).Pairwise Entry.NotAfter := by
  induction entries with
  | nil => simp [insertSorted]
  | cons y rest ih =>
    obtain ⟨hy, hrest⟩ := List.pairwise_cons.1 h
    rw [insertSorted]
    by_cases hprecedes : y.precedes e = true
    · rw [if_pos hprecedes]
      refine List.pairwise_cons.2 ⟨?_, ih hrest⟩
      intro z hz
      rcases mem_insertSorted.1 hz with rfl | hz
      · exact Entry.notAfter_of_precedes hprecedes
      · exact hy z hz
    · rw [if_neg hprecedes]
      have hey := Entry.notAfter_of_not_precedes hprecedes
      refine List.pairwise_cons.2 ⟨?_, h⟩
      intro z hz
      rcases List.mem_cons.1 hz with rfl | hz
      · exact hey
      · exact hey.trans (hy z hz)

theorem sorted_ofList (entries : List Entry) : (ofList entries).Sorted := by
  induction entries with
  | nil => exact .nil
  | cons e rest ih => exact pairwise_insertSorted ih

/-! Where the entries of a hash begin. -/

/-- What comes before `lo` has a smaller hash, and what comes from `hi` on has not. -/
structure Between (entries : Array Entry) (hash : NameHash) (lo hi : Nat) : Prop where
  below : ∀ i e, i < lo → entries[i]? = some e → e.hash < hash
  above : ∀ i e, hi ≤ i → entries[i]? = some e → hash ≤ e.hash

theorem Sorted.hash_le (hs : index.Sorted) {i j : Nat} (hij : i ≤ j) (hi : index.entries[i]? = some e)
    (hj : index.entries[j]? = some x) : e.hash ≤ x.hash := by
  rcases Nat.eq_or_lt_of_le hij with rfl | hlt
  · obtain rfl := Option.some.inj (hi.symm.trans hj)
    exact Std.le_refl _
  · obtain ⟨hi', rfl⟩ := Array.getElem?_eq_some_iff.1 hi
    obtain ⟨hj', rfl⟩ := Array.getElem?_eq_some_iff.1 hj
    exact (List.pairwise_iff_getElem.1 hs i j hi' hj' hlt).hash_le

theorem Sorted.between_lowerBound (hs : index.Sorted) {fuel lo len : Nat} (hfuel : len ≤ fuel)
    (hroom : lo + len ≤ index.size) (h : Between index.entries hash lo (lo + len)) :
    ∃ p, lowerBound index.entries hash fuel lo len = p ∧ Between index.entries hash p p := by
  induction fuel generalizing lo len with
  | zero =>
    obtain rfl : len = 0 := by omega
    exact ⟨lo, rfl, h⟩
  | succ fuel ih =>
    rw [lowerBound]
    by_cases hlen : len = 0
    · subst hlen
      exact ⟨lo, rfl, h⟩
    · have hmid : lo + len / 2 < index.entries.size := lt_of_lt_of_le (by omega) hroom
      have hget := Array.getElem?_eq_getElem hmid
      simp only [hlen, if_false, hget]
      split_ifs with hbelow
      · apply ih (by omega) (by omega)
        refine ⟨?_, ?_⟩
        · intro i e hi he
          exact Std.lt_of_le_of_lt (hs.hash_le (by omega) he hget) hbelow
        · intro i e hi
          exact h.above i e (by omega)
      · apply ih (by omega) (by omega)
        refine ⟨h.below, ?_⟩
        intro i e hi he
        exact Std.le_trans (Std.not_lt.1 hbelow) (hs.hash_le hi hget he)

theorem Sorted.between_start (hs : index.Sorted) (hash : NameHash) :
    Between index.entries hash (index.start hash) (index.start hash) := by
  have hall : Between index.entries hash 0 (0 + index.size) := by
    refine ⟨fun i e hi => absurd hi (Nat.not_lt_zero i), ?_⟩
    intro i e hi he
    have hlt : i < index.size := (Array.getElem?_eq_some_iff.1 he).1
    omega
  obtain ⟨p, hp, hbetween⟩ := hs.between_lowerBound le_rfl (Nat.zero_add _).le hall
  rwa [start, hp]

private theorem Sorted.hash_lt_of_mem_take (hs : index.Sorted)
    (he : e ∈ index.entries.toList.take (index.start hash)) : e.hash < hash := by
  obtain ⟨i, hi⟩ := List.mem_iff_getElem?.1 he
  rw [List.getElem?_take] at hi
  split_ifs at hi with hlt
  exact (hs.between_start hash).below i e hlt (by rwa [← Array.getElem?_toList])

private theorem Sorted.hash_le_of_mem_drop (hs : index.Sorted)
    (he : e ∈ index.entries.toList.drop (index.start hash)) : hash ≤ e.hash := by
  obtain ⟨i, hi⟩ := List.mem_iff_getElem?.1 he
  rw [List.getElem?_drop, Array.getElem?_toList] at hi
  exact (hs.between_start hash).above _ e (Nat.le_add_right _ _) hi

/-! Looking an entry up. -/

theorem mem_of_find? (h : index.find? hash = some e) : e ∈ index.entries.toList ∧ e.hash = hash := by
  obtain ⟨hget, hhash⟩ := Option.filter_eq_some_iff.1 h
  exact ⟨Array.mem_toList_iff.2 (Array.mem_of_getElem? hget), beq_iff_eq.1 hhash⟩

private theorem hash_ne_of_mem_dropWhile (h : entries.Pairwise Entry.NotAfter)
    (hall : ∀ e ∈ entries, hash ≤ e.hash) (he : e ∈ entries.dropWhile (·.hash == hash)) :
    e.hash ≠ hash := by
  induction entries with
  | nil => cases he
  | cons y rest ih =>
    obtain ⟨hy, hrest⟩ := List.pairwise_cons.1 h
    by_cases hhash : y.hash = hash
    · rw [List.dropWhile_cons_of_pos (by simpa using hhash)] at he
      exact ih hrest (fun e he => hall e (List.mem_cons_of_mem y he)) he
    · rw [List.dropWhile_cons_of_neg (by simpa using hhash)] at he
      have hlt : hash < y.hash := Std.lt_of_le_of_ne (hall y List.mem_cons_self) (Ne.symm hhash)
      rcases List.mem_cons.1 he with rfl | he
      · exact hhash
      · exact (Std.ne_of_lt (Std.lt_of_lt_of_le hlt (hy e he).hash_le)).symm

private theorem Sorted.hash_ne_behind (hs : index.Sorted)
    (he : e ∈ (index.entries.toList.drop (index.start hash)).dropWhile (·.hash == hash)) :
    e.hash ≠ hash :=
  hash_ne_of_mem_dropWhile (hs.drop) (fun _ => hs.hash_le_of_mem_drop) he

private theorem Sorted.find?_eq (hs : index.Sorted) (hash : NameHash) {p : Entry → Bool}
    (hp : ∀ e, p e = true → e.hash = hash) :
    index.entries.toList.find? p =
      ((index.entries.toList.drop (index.start hash)).takeWhile (·.hash == hash)).find? p := by
  have hbefore : (index.entries.toList.take (index.start hash)).find? p = none := by
    rw [List.find?_eq_none]
    intro e he hpe
    exact Std.lt_irrefl (hp e hpe ▸ hs.hash_lt_of_mem_take he)
  have hbehind :
      ((index.entries.toList.drop (index.start hash)).dropWhile (·.hash == hash)).find? p = none := by
    rw [List.find?_eq_none]
    intro e he hpe
    exact hs.hash_ne_behind he (hp e hpe)
  calc index.entries.toList.find? p
      = (index.entries.toList.take (index.start hash) ++
          index.entries.toList.drop (index.start hash)).find? p := by rw [List.take_append_drop]
    _ = (index.entries.toList.drop (index.start hash)).find? p := by
        rw [List.find?_append, hbefore, Option.none_or]
    _ = ((index.entries.toList.drop (index.start hash)).takeWhile (·.hash == hash) ++
          (index.entries.toList.drop (index.start hash)).dropWhile (·.hash == hash)).find? p := by
        rw [List.takeWhile_append_dropWhile]
    _ = _ := by rw [List.find?_append, hbehind, Option.or_none]

/-- Halving finds what a walk over all entries finds. -/
theorem Sorted.find?_eq_findLinear? (hs : index.Sorted) (hash : NameHash) :
    index.find? hash = index.findLinear? hash := by
  rw [findLinear?, hs.find?_eq hash (fun e he => beq_iff_eq.1 he), find?,
    ← Array.getElem?_toList, ← List.head?_drop]
  generalize index.entries.toList.drop (index.start hash) = rest
  cases rest with
  | nil => rfl
  | cons e rest => by_cases hhash : e.hash = hash <;> simp [hhash]

private theorem find?_takeWhile {p q : Entry → Bool} (entries : List Entry) :
    (entries.takeWhile q).find? p = (entries.takeWhile q).find? fun e => q e && p e := by
  induction entries with
  | nil => rfl
  | cons e rest ih =>
    by_cases hq : q e = true
    · rw [List.takeWhile_cons_of_pos hq, List.find?_cons, List.find?_cons, ih, hq, Bool.true_and]
    · rw [List.takeWhile_cons_of_neg hq]
      rfl

theorem Sorted.findNamed?_eq (hs : index.Sorted) (name : String) :
    index.findNamed? name =
      index.entries.toList.find? fun e => e.hash == Name.hash name && e.name == name := by
  rw [hs.find?_eq (Name.hash name), ← find?_takeWhile]
  · rfl
  · intro e he
    exact beq_iff_eq.1 (Bool.and_eq_true_iff.1 he).1

theorem Sorted.findNamed?_eq_some (hs : index.Sorted)
    (hhash : ∀ e ∈ index.entries.toList, e.hash = Name.hash e.name)
    (hunique : ∀ e ∈ index.entries.toList, ∀ x ∈ index.entries.toList, e.name = x.name → e = x)
    {name : String} :
    index.findNamed? name = some e ↔ e ∈ index.entries.toList ∧ e.name = name := by
  rw [hs.findNamed?_eq]
  constructor
  · intro h
    have hname := List.find?_some h
    rw [Bool.and_eq_true, beq_iff_eq, beq_iff_eq] at hname
    exact ⟨List.mem_of_find?_eq_some h, hname.2⟩
  · rintro ⟨he, rfl⟩
    cases hfind : index.entries.toList.find? fun x => x.hash == Name.hash e.name && x.name == e.name with
    | none =>
      have hnot := List.find?_eq_none.1 hfind e he
      simp [hhash e he] at hnot
    | some x =>
      have hname := List.find?_some hfind
      rw [Bool.and_eq_true, beq_iff_eq, beq_iff_eq] at hname
      rw [hunique x (List.mem_of_find?_eq_some hfind) e he hname.2]

/-- What is found by a hash has it, and no other entry of this hash has a smaller name. -/
theorem Sorted.find?_eq_some (hs : index.Sorted) (h : index.find? hash = some e) :
    e ∈ index.entries.toList ∧ e.hash = hash ∧
      ∀ x ∈ index.entries.toList, x.hash = hash → e.name ≤ x.name := by
  obtain ⟨hmem, hhash⟩ := mem_of_find? h
  refine ⟨hmem, hhash, ?_⟩
  rw [hs.find?_eq_findLinear?] at h
  obtain ⟨-, before, behind, hsplit, hbefore⟩ := List.find?_eq_some_iff_append.1 h
  intro x hx hxhash
  rw [hsplit] at hx
  rcases List.mem_append.1 hx with hx | hx
  · exact absurd hxhash (by simpa using hbefore x hx)
  · rcases List.mem_cons.1 hx with rfl | hx
    · exact le_rfl
    · have hsorted : (before ++ e :: behind).Pairwise Entry.NotAfter := hsplit ▸ hs
      have hrest := (List.pairwise_append.1 hsorted).2.1
      rcases (List.pairwise_cons.1 hrest).1 x hx with hlt | ⟨-, hname⟩
      · exact absurd hlt (by simp [hhash, hxhash, Std.lt_irrefl])
      · exact hname

theorem Sorted.find?_eq_none (hs : index.Sorted) :
    index.find? hash = none ↔ ∀ e ∈ index.entries.toList, e.hash ≠ hash := by
  simp [hs.find?_eq_findLinear?, findLinear?]

end MemberIndex

/-! An index of any entries is the given list put in order, in which entries of one hash and name stand as they
were given. -/

/-- An entry has a given hash and a given name. -/
def Entry.isAt (hash : NameHash) (name : String) (e : Entry) : Bool := e.hash == hash && e.name == name

theorem Entry.isAt_iff {hash : NameHash} {name : String} {e : Entry} :
    e.isAt hash name = true ↔ e.hash = hash ∧ e.name = name := by
  rw [isAt, Bool.and_eq_true, beq_iff_eq, beq_iff_eq]

theorem Entry.not_precedes_of_isAt {hash : NameHash} {name : String} {a b : Entry}
    (ha : a.isAt hash name = true) (hb : b.isAt hash name = true) : ¬a.precedes b = true := by
  obtain ⟨rfl, rfl⟩ := isAt_iff.1 ha
  obtain ⟨hhash, hname⟩ := isAt_iff.1 hb
  rw [precedes_iff, hhash, hname]
  rintro (hlt | ⟨-, hlt⟩)
  · exact Std.lt_irrefl hlt
  · exact lt_irrefl _ hlt

namespace MemberIndex

variable {entries : List Entry} {index : MemberIndex} {e x : Entry} {hash : NameHash} {name : String}

theorem insertSorted_perm (e : Entry) (entries : List Entry) : (insertSorted e entries).Perm (e :: entries) := by
  induction entries with
  | nil => exact .refl [e]
  | cons y rest ih =>
    rw [insertSorted]
    split_ifs
    · exact (ih.cons y).trans (.swap e y rest)
    · exact .refl _

theorem ofList_perm (entries : List Entry) : (ofList entries).entries.toList.Perm entries := by
  induction entries with
  | nil => exact .refl []
  | cons e rest ih => exact (insertSorted_perm e _).trans (ih.cons e)

theorem filter_insertSorted (e : Entry) (entries : List Entry) :
    (insertSorted e entries).filter (Entry.isAt hash name) = (e :: entries).filter (Entry.isAt hash name) := by
  induction entries with
  | nil => rfl
  | cons y rest ih =>
    rw [insertSorted]
    split_ifs with hprecedes
    · by_cases hy : y.isAt hash name = true
      · have he : ¬e.isAt hash name = true := fun he => Entry.not_precedes_of_isAt hy he hprecedes
        rw [List.filter_cons_of_pos hy, ih, List.filter_cons_of_neg he, List.filter_cons_of_neg he,
          List.filter_cons_of_pos hy]
      · rw [List.filter_cons_of_neg hy, ih, List.filter_cons, List.filter_cons, List.filter_cons_of_neg hy]
    · rfl

/-- Entries of one hash and name keep their order. -/
theorem filter_ofList (entries : List Entry) :
    (ofList entries).entries.toList.filter (Entry.isAt hash name) = entries.filter (Entry.isAt hash name) := by
  induction entries with
  | nil => rfl
  | cons e rest ih =>
    calc (ofList (e :: rest)).entries.toList.filter (Entry.isAt hash name)
        = (e :: (ofList rest).entries.toList).filter (Entry.isAt hash name) := filter_insertSorted e _
      _ = (e :: rest).filter (Entry.isAt hash name) := by rw [List.filter_cons, List.filter_cons, ih]

theorem find?_isAt (entries : List Entry) :
    (ofList entries).entries.toList.find? (Entry.isAt hash name) = entries.find? (Entry.isAt hash name) := by
  rw [← List.head?_filter, ← List.head?_filter, filter_ofList]

theorem findNamed?_ofList (entries : List Entry) (name : String) :
    (ofList entries).findNamed? name = entries.find? (Entry.isAt (Name.hash name) name) :=
  ((sorted_ofList entries).findNamed?_eq name).trans (find?_isAt entries)

theorem find?_isAt_of_find? (hfind : (ofList entries).find? hash = some e) :
    entries.find? (Entry.isAt hash e.name) = some e := by
  obtain ⟨-, hhash, -⟩ := (sorted_ofList entries).find?_eq_some hfind
  rw [(sorted_ofList entries).find?_eq_findLinear?] at hfind
  obtain ⟨-, before, behind, hsplit, hbefore⟩ := List.find?_eq_some_iff_append.1 hfind
  rw [← find?_isAt, List.find?_eq_some_iff_append]
  refine ⟨Entry.isAt_iff.2 ⟨hhash, rfl⟩, before, behind, hsplit, fun x hx => ?_⟩
  have hother : x.hash ≠ hash := by simpa using hbefore x hx
  rw [Entry.isAt, beq_false_of_ne hother]
  rfl

theorem find?_ofList : (ofList entries).find? hash = some e ↔
    (∀ x ∈ entries, x.hash = hash → e.name ≤ x.name) ∧ entries.find? (Entry.isAt hash e.name) = some e := by
  constructor
  · intro hfind
    obtain ⟨-, -, hleast⟩ := (sorted_ofList entries).find?_eq_some hfind
    exact ⟨fun x hx => hleast x (mem_ofList.2 hx), find?_isAt_of_find? hfind⟩
  · rintro ⟨hleast, hfirst⟩
    have hmem := List.mem_of_find?_eq_some hfirst
    obtain ⟨hhash, -⟩ := Entry.isAt_iff.1 (List.find?_some hfirst)
    cases hfind : (ofList entries).find? hash with
    | none => exact absurd hhash ((sorted_ofList entries).find?_eq_none.1 hfind e (mem_ofList.2 hmem))
    | some x =>
      obtain ⟨hx, hxhash, hxleast⟩ := (sorted_ofList entries).find?_eq_some hfind
      have hname : x.name = e.name :=
        le_antisymm (hxleast e (mem_ofList.2 hmem) hhash) (hleast x (mem_ofList.1 hx) hxhash)
      have hxfirst := find?_isAt_of_find? hfind
      rw [hname] at hxfirst
      exact hxfirst.symm.trans hfirst

theorem find?_ofList_eq_none : (ofList entries).find? hash = none ↔ ∀ e ∈ entries, e.hash ≠ hash := by
  rw [(sorted_ofList entries).find?_eq_none]
  exact forall_congr' fun e => imp_congr_left mem_ofList

/-- An index has entries in order, and finds what a walk over them as they were given would choose. -/
structure Serves (index : MemberIndex) (entries : List Entry) : Prop where
  permuted : index.entries.toList.Perm entries
  sorted : index.Sorted
  stable : ∀ hash name, index.entries.toList.filter (Entry.isAt hash name) = entries.filter (Entry.isAt hash name)
  linear : ∀ hash, index.find? hash = index.findLinear? hash
  found : ∀ hash e, index.find? hash = some e ↔
    (∀ x ∈ entries, x.hash = hash → e.name ≤ x.name) ∧ entries.find? (Entry.isAt hash e.name) = some e
  absent : ∀ hash, index.find? hash = none ↔ ∀ e ∈ entries, e.hash ≠ hash
  named : ∀ name, index.findNamed? name = entries.find? (Entry.isAt (Name.hash name) name)

/-- An index of any entries holds them sorted by hash and name, equal ones in the order in which they were given.
By a hash it finds, as a walk over it does, the first given entry of the smallest name, and by a name the first
given one that has the name and its hash. -/
theorem ofList_serves (entries : List Entry) : (ofList entries).Serves entries where
  permuted := ofList_perm entries
  sorted := sorted_ofList entries
  stable _ _ := filter_ofList entries
  linear := (sorted_ofList entries).find?_eq_findLinear?
  found _ _ := find?_ofList
  absent _ := find?_ofList_eq_none
  named := findNamed?_ofList entries

/-! Two names of one hash, one of them twice, and an entry whose hash is not that of its name. -/

example :
    let index := ofList [⟨21951, "ba", .i32, .field 0⟩, ⟨21951, "aŀ", .f64, .field 1⟩,
      ⟨-5, "ba", .bool, .field 2⟩, ⟨21951, "aŀ", .bytes, .method 0⟩]
    index.find? 21951 = some ⟨21951, "aŀ", .f64, .field 1⟩ ∧
      index.findNamed? "ba" = some ⟨21951, "ba", .i32, .field 0⟩ ∧
      index.find? (-5) = some ⟨-5, "ba", .bool, .field 2⟩ := by
  decide +kernel

end MemberIndex

end ObjectModel
