import Mathlib.Logic.Relation
import Mathlib.Order.Bounds.Defs
import ObjectModel.Proofs.Registry.Built

/-!
What is left of function types when their leading arguments are given, one after the other. The types are
scanned in their order while new ones are appended behind them; the scan comes to an end, since what is
appended takes one argument less than the type that it comes from.
-/

set_option autoImplicit false
set_option relaxedAutoImplicit false

namespace ObjectModel

namespace Descriptor

/-- The number of arguments of a function type, and zero for all other types. -/
def arity : Descriptor → Nat
  | function args _ => args.length
  | _ => 0

/-- A function type is left of one of some descriptors when some of its leading arguments are given. -/
def LeftOf (ds : List Descriptor) (d : Descriptor) : Prop :=
  ∃ args ret n, function args ret ∈ ds ∧ 0 < n ∧ n ≤ args.length ∧ d = function (args.drop n) ret

end Descriptor

namespace Builder

variable {ds wave : List Descriptor} {types : Array Descriptor} {d e : Descriptor} {i n : Nat}

theorem applied?_eq_some : applied? d = some e ↔
    ∃ a args ret, d = .function (a :: args) ret ∧ e = .function args ret := by
  unfold applied?
  split
  · rename_i a args ret
    constructor
    · intro h
      exact ⟨a, args, ret, rfl, (Option.some.inj h).symm⟩
    · rintro ⟨_, _, _, h, rfl⟩
      cases h
      rfl
  · rename_i hnot
    constructor
    · intro h
      cases h
    · rintro ⟨a, args, ret, rfl, -⟩
      exact absurd rfl (hnot a args ret)

private theorem arity_of_applied? (h : applied? d = some e) : d.arity = e.arity + 1 := by
  obtain ⟨a, args, ret, rfl, rfl⟩ := applied?_eq_some.1 h
  rfl

private theorem le_foldl_max (ds : List Descriptor) (n : Nat) :
    n ≤ ds.foldl (fun n d => max n d.arity) n ∧
      ∀ d ∈ ds, d.arity ≤ ds.foldl (fun n d => max n d.arity) n := by
  induction ds generalizing n with
  | nil => exact ⟨le_rfl, List.forall_mem_nil _⟩
  | cons d ds ih =>
    obtain ⟨hstart, hall⟩ := ih (max n d.arity)
    exact ⟨(le_max_left _ _).trans hstart, List.forall_mem_cons.2 ⟨(le_max_right _ _).trans hstart, hall⟩⟩

private theorem le_maxArity (h : d ∈ ds) : d.arity ≤ maxArity ds := by
  have hmax : maxArity ds = ds.foldl (fun n d => max n d.arity) 0 := by
    unfold maxArity
    congr
    funext n d
    cases d <;> simp [Descriptor.arity]
  rw [hmax]
  exact (le_foldl_max ds 0).2 d h

/-- The position at which a descriptor is found first. -/
def firstOf? (types : Array Descriptor) (d : Descriptor) : Option Nat := types.findIdx? (· == d)

theorem firstOf?_eq_some : firstOf? types d = some i ↔ IsLeast {i | types[i]? = some d} i := by
  rw [firstOf?, Array.findIdx?_eq_some_iff_getElem]
  constructor
  · rintro ⟨hlt, hfound, hbefore⟩
    refine ⟨Array.getElem?_eq_some_iff.2 ⟨hlt, beq_iff_eq.1 hfound⟩, ?_⟩
    intro j hj
    obtain ⟨hj, hd⟩ := Array.getElem?_eq_some_iff.1 hj
    by_contra hless
    exact hbefore j (Nat.lt_of_not_le hless) (beq_iff_eq.2 hd)
  · rintro ⟨hi, hleast⟩
    obtain ⟨hlt, hd⟩ := Array.getElem?_eq_some_iff.1 hi
    refine ⟨hlt, beq_iff_eq.2 hd, ?_⟩
    intro j hj hfound
    have hle := hleast (Array.getElem?_eq_some_iff.2 ⟨hj.trans hlt, beq_iff_eq.1 hfound⟩)
    omega

theorem firstOf?_eq_none : firstOf? types d = none ↔ d ∉ types := by
  rw [firstOf?, Array.findIdx?_eq_none_iff]
  constructor
  · intro h hmem
    simpa using h d hmem
  · intro h x hx
    simp only [beq_eq_false_iff_ne, ne_eq]
    rintro rfl
    exact h hx

private theorem firstOf?_push_of_mem (h : d ∈ types) : firstOf? (types.push e) d = firstOf? types d := by
  rw [firstOf?, Array.findIdx?_push]
  obtain ⟨i, hi⟩ := Option.ne_none_iff_exists'.1 (mt firstOf?_eq_none.1 (not_not.2 h))
  rw [firstOf?] at hi
  rw [firstOf?, hi]
  rfl

private theorem firstOf?_push_self (h : d ∉ types) : firstOf? (types.push d) d = some types.size := by
  have hnone := firstOf?_eq_none.2 h
  rw [firstOf?] at hnone ⊢
  rw [Array.findIdx?_push, hnone]
  simp

/-! ### The scan -/

/-- A scan over types: the position that it looks at next, the types so far, and for the positions of
function types that it has passed where that is which is left of them, the latest first. -/
structure Scan where
  next : Nat
  types : Array Descriptor
  found : List (Nat × Nat)

namespace Scan

def start (ds : List Descriptor) : Scan := ⟨0, ds.toArray, []⟩

/-- One turn of the scan; behind the last type there is none. What is left of a function type is appended
unless it is there. -/
def turn (s : Scan) : Option Scan :=
  match s.types[s.next]? with
  | none => none
  | some d =>
    match applied? d with
    | none => some { s with next := s.next + 1 }
    | some e =>
      match firstOf? s.types e with
      | some j => some { s with next := s.next + 1, found := (s.next, j) :: s.found }
      | none => some ⟨s.next + 1, s.types.push e, (s.next, s.types.size) :: s.found⟩

/-- What holds after any number of turns that started with the types `ds`. -/
structure Sound (ds : List Descriptor) (s : Scan) : Prop where
  starts : ds <+: s.types.toList
  next_le : s.next ≤ s.types.size
  found : ∀ i, s.found.lookup i =
    if i < s.next then (s.types[i]?.bind applied?).bind (firstOf? s.types) else none
  closed : ∀ i < s.next, ∀ d e, s.types[i]? = some d → applied? d = some e → e ∈ s.types
  appended : ∀ i d, ds.length ≤ i → s.types[i]? = some d →
    d.LeftOf ds ∧ ∀ j < i, s.types[j]? ≠ some d

variable {s s' : Scan}

private theorem sound_start (ds : List Descriptor) : (start ds).Sound ds where
  starts := List.prefix_rfl
  next_le := Nat.zero_le _
  found _ := rfl
  closed _ hi := absurd hi (Nat.not_lt_zero _)
  appended i d hi hd := by
    have hlt := (List.getElem?_eq_some_iff.1 (List.getElem?_toArray ▸ hd)).1
    omega

/-- What a turn can do. -/
theorem turn_eq_some : s.turn = some s' ↔
    ∃ d, s.types[s.next]? = some d ∧
      (applied? d = none ∧ s' = { s with next := s.next + 1 } ∨
        ∃ e, applied? d = some e ∧
          ((∃ j, firstOf? s.types e = some j ∧
              s' = { s with next := s.next + 1, found := (s.next, j) :: s.found }) ∨
            firstOf? s.types e = none ∧
              s' = ⟨s.next + 1, s.types.push e, (s.next, s.types.size) :: s.found⟩)) := by
  unfold turn
  cases hd : s.types[s.next]? with
  | none => simp
  | some d =>
    cases happlied : applied? d with
    | none => simp [happlied, eq_comm]
    | some e => cases hfirst : firstOf? s.types e <;> simp [happlied, hfirst, eq_comm]

private theorem Sound.leftOf (h : s.Sound ds) {d e : Descriptor} {i : Nat} (hd : s.types[i]? = some d)
    (happlied : applied? d = some e) : e.LeftOf ds := by
  obtain ⟨a, args, ret, rfl, rfl⟩ := applied?_eq_some.1 happlied
  by_cases hi : i < ds.length
  · have hfirst : ds[i]? = some (.function (a :: args) ret) := by
      rw [← hd, ← Array.getElem?_toList, List.prefix_iff_getElem?.1 h.starts i hi, List.getElem?_eq_getElem hi]
    exact ⟨a :: args, ret, 1, List.mem_of_getElem? hfirst, by simp, by simp, rfl⟩
  · obtain ⟨⟨args', ret', n, hmem, hpos, hle, heq⟩, -⟩ := h.appended i _ (by omega) hd
    obtain ⟨hargs, rfl⟩ := Descriptor.function.inj heq
    have hlt : n < args'.length := by
      by_contra hnot
      rw [List.drop_eq_nil_of_le (by omega)] at hargs
      cases hargs
    refine ⟨args', ret, n + 1, hmem, by omega, by omega, ?_⟩
    rw [← List.tail_drop, ← hargs, List.tail_cons]

private theorem Sound.grow (h : s.Sound ds) {e : Descriptor} (hnew : e ∉ s.types) (hleft : e.LeftOf ds) :
    Sound ds { s with types := s.types.push e } := by
  have hold {i : Nat} (hi : i < s.types.size) : (s.types.push e)[i]? = s.types[i]? := by
    rw [Array.getElem?_push, if_neg hi.ne]
  refine ⟨?_, ?_, ?_, ?_, ?_⟩
  · rw [Array.toList_push]
    exact h.starts.trans (List.prefix_append _ _)
  · rw [Array.size_push]
    exact Nat.le_succ_of_le h.next_le
  · intro i
    rw [h.found]
    by_cases hi : i < s.next
    · rw [if_pos hi, if_pos hi, hold (lt_of_lt_of_le hi h.next_le)]
      cases hd : s.types[i]? with
      | none => rfl
      | some d =>
        cases happlied : applied? d with
        | none => simp [happlied]
        | some e' => simp [happlied, firstOf?_push_of_mem (h.closed i hi d e' hd happlied)]
    · rw [if_neg hi, if_neg hi]
  · intro i hi d e' hd happlied
    rw [hold (lt_of_lt_of_le hi h.next_le)] at hd
    exact Array.mem_push.2 (Or.inl (h.closed i hi d e' hd happlied))
  · intro i d hi hd
    rcases Nat.lt_trichotomy i s.types.size with hlt | rfl | hgt
    · rw [hold hlt] at hd
      obtain ⟨hleft, hfirst⟩ := h.appended i d hi hd
      refine ⟨hleft, ?_⟩
      intro j hj
      rw [hold (hj.trans hlt)]
      exact hfirst j hj
    · rw [Array.getElem?_push_size] at hd
      obtain rfl := Option.some.inj hd
      refine ⟨hleft, ?_⟩
      intro j hj hfound
      rw [hold hj] at hfound
      exact hnew (Array.mem_of_getElem? hfound)
    · rw [Array.getElem?_eq_none (by rw [Array.size_push]; omega)] at hd
      cases hd

private theorem Sound.advance (h : s.Sound ds) {d : Descriptor} {found : List (Nat × Nat)}
    (hd : s.types[s.next]? = some d) (hclosed : ∀ e, applied? d = some e → e ∈ s.types)
    (hfound : ∀ i, found.lookup i =
      if i = s.next then (applied? d).bind (firstOf? s.types) else s.found.lookup i) :
    Sound ds { s with next := s.next + 1, found } where
  starts := h.starts
  next_le := (Array.getElem?_eq_some_iff.1 hd).1
  found i := by
    rw [hfound, h.found]
    rcases Nat.lt_trichotomy i s.next with hlt | rfl | hgt
    · rw [if_neg hlt.ne, if_pos hlt, if_pos (Nat.lt_succ_of_lt hlt)]
    · rw [if_pos rfl, if_pos (Nat.lt_succ_self _), hd, Option.bind_some]
    · rw [if_neg hgt.ne', if_neg (Nat.lt_asymm hgt), if_neg (Nat.not_lt.2 hgt)]
  closed i hi d' e hd' happlied := by
    rcases Nat.lt_succ_iff_lt_or_eq.1 hi with hi | rfl
    · exact h.closed i hi d' e hd' happlied
    · obtain rfl := Option.some.inj (hd.symm.trans hd')
      exact hclosed e happlied
  appended := h.appended

private theorem Sound.record (h : s.Sound ds) {d e : Descriptor} {j : Nat}
    (hd : s.types[s.next]? = some d) (happlied : applied? d = some e) (hj : firstOf? s.types e = some j) :
    Sound ds { s with next := s.next + 1, found := (s.next, j) :: s.found } := by
  refine h.advance hd ?_ ?_
  · intro e' happlied'
    obtain rfl := Option.some.inj (happlied.symm.trans happlied')
    exact Array.mem_of_getElem? (firstOf?_eq_some.1 hj).1
  · intro i
    rw [List.lookup_cons]
    by_cases hi : i = s.next
    · simp [hi, happlied, hj]
    · rw [if_neg hi, beq_false_of_ne hi]

private theorem Sound.turn (h : s.Sound ds) (hturn : s.turn = some s') : s'.Sound ds := by
  obtain ⟨d, hd, hcase⟩ := turn_eq_some.1 hturn
  rcases hcase with ⟨happlied, rfl⟩ | ⟨e, happlied, ⟨j, hj, rfl⟩ | ⟨hnone, rfl⟩⟩
  · refine h.advance hd (fun e he => absurd (happlied.symm.trans he) (Option.some_ne_none e).symm) ?_
    intro i
    by_cases hi : i = s.next
    · rw [if_pos hi, happlied, hi, h.found, if_neg (Nat.lt_irrefl _)]
      rfl
    · rw [if_neg hi]
  · exact h.record hd happlied hj
  · have hnew : e ∉ s.types := firstOf?_eq_none.1 hnone
    have hgrown := h.grow hnew (h.leftOf hd happlied)
    have hlt : s.next < s.types.size := (Array.getElem?_eq_some_iff.1 hd).1
    have hd' : (s.types.push e)[s.next]? = some d := by rw [Array.getElem?_push, if_neg hlt.ne, hd]
    exact hgrown.record hd' happlied (firstOf?_push_self hnew)

/-- Any number of turns. -/
def Turns : Scan → Scan → Prop := Relation.ReflTransGen fun s s' => s.turn = some s'

private theorem Turns.sound (h : Turns s s') (hs : s.Sound ds) : s'.Sound ds := by
  induction h with
  | refl => exact hs
  | tail _ hturn ih => exact ih.turn hturn

end Scan

/-! ### Waves of appended types are turns of the scan -/

private theorem mem_fresh {state : Array Descriptor × List Descriptor}
    (h : d ∈ (ds.foldl appendNew state).2) : d ∈ state.2 ∨ d ∈ ds := by
  induction ds generalizing state with
  | nil => exact Or.inl h
  | cons e ds ih =>
    rcases ih h with h | h
    · unfold appendNew at h
      split at h
      · exact Or.inl h
      · rcases List.mem_cons.1 h with rfl | h
        · exact Or.inr List.mem_cons_self
        · exact Or.inl h
    · exact Or.inr (List.mem_cons_of_mem e h)

private theorem turns_wave {fresh : List Descriptor} (found : List (Nat × Nat))
    (hrest : types.toList.drop n = wave ++ fresh.reverse) :
    ∃ found', Scan.Turns ⟨n, types, found⟩
        ⟨n + wave.length, ((wave.filterMap applied?).foldl appendNew (types, fresh)).1, found'⟩ ∧
      ((wave.filterMap applied?).foldl appendNew (types, fresh)).1.toList.drop (n + wave.length) =
        ((wave.filterMap applied?).foldl appendNew (types, fresh)).2.reverse := by
  induction wave generalizing types fresh n found with
  | nil => exact ⟨found, .refl, hrest⟩
  | cons d wave ih =>
    have hd : types[n]? = some d := by
      rw [← Array.getElem?_toList, ← Nat.add_zero n, ← List.getElem?_drop, hrest]
      rfl
    have hnext : types.toList.drop (n + 1) = wave ++ fresh.reverse := by
      rw [← List.drop_drop, hrest]
      rfl
    have hlt : n < types.size := (Array.getElem?_eq_some_iff.1 hd).1
    rw [List.length_cons, ← Nat.add_assoc, Nat.add_right_comm]
    cases happlied : applied? d with
    | none =>
      rw [List.filterMap_cons_none happlied]
      obtain ⟨found', hturns, hdrop⟩ := ih found hnext
      have hturn : Scan.turn ⟨n, types, found⟩ = some ⟨n + 1, types, found⟩ :=
        Scan.turn_eq_some.2 ⟨d, hd, Or.inl ⟨happlied, rfl⟩⟩
      exact ⟨found', .head hturn hturns, hdrop⟩
    | some e =>
      rw [List.filterMap_cons_some happlied, List.foldl_cons, appendNew]
      cases hfirst : firstOf? types e with
      | some j =>
        have hmem : types.contains e = true := by
          by_contra hnot
          rw [firstOf?_eq_none.2 (by simpa using hnot)] at hfirst
          cases hfirst
        rw [if_pos hmem]
        obtain ⟨found', hturns, hdrop⟩ := ih ((n, j) :: found) hnext
        have hturn : Scan.turn ⟨n, types, found⟩ = some ⟨n + 1, types, (n, j) :: found⟩ :=
          Scan.turn_eq_some.2 ⟨d, hd, Or.inr ⟨e, happlied, Or.inl ⟨j, hfirst, rfl⟩⟩⟩
        exact ⟨found', .head hturn hturns, hdrop⟩
      | none =>
        have hnot : ¬types.contains e = true := by simpa using firstOf?_eq_none.1 hfirst
        rw [if_neg hnot]
        have hpushed : (types.push e).toList.drop (n + 1) = wave ++ (e :: fresh).reverse := by
          rw [Array.toList_push, List.drop_append_of_le_length hlt, hnext, List.reverse_cons,
            List.append_assoc]
        obtain ⟨found', hturns, hdrop⟩ := ih ((n, types.size) :: found) hpushed
        have hturn : Scan.turn ⟨n, types, found⟩ =
            some ⟨n + 1, types.push e, (n, types.size) :: found⟩ :=
          Scan.turn_eq_some.2 ⟨d, hd, Or.inr ⟨e, happlied, Or.inr ⟨hfirst, rfl⟩⟩⟩
        exact ⟨found', .head hturn hturns, hdrop⟩

private theorem add_length_of_drop (hn : n ≤ types.size) (hrest : types.toList.drop n = wave) :
    n + wave.length = types.size := by
  rw [← hrest, List.length_drop, Array.length_toList]
  omega

private theorem turns_appendApplied {arity : Nat} (found : List (Nat × Nat)) (hn : n ≤ types.size)
    (hrest : types.toList.drop n = wave) (harity : ∀ d ∈ wave, d.arity ≤ arity) :
    ∃ found', Scan.Turns ⟨n, types, found⟩
      ⟨(appendApplied arity wave types).size, appendApplied arity wave types, found'⟩ := by
  have hwave : types.toList.drop n = wave ++ [].reverse := by simpa using hrest
  induction arity generalizing wave types n found with
  | zero =>
    have hnone : wave.filterMap applied? = [] := by
      rw [List.filterMap_eq_nil_iff]
      intro d hd
      cases happlied : applied? d with
      | none => rfl
      | some e =>
        have hle := harity d hd
        rw [arity_of_applied? happlied] at hle
        omega
    obtain ⟨found', hturns, -⟩ := turns_wave found hwave
    rw [hnone, add_length_of_drop hn hrest] at hturns
    exact ⟨found', hturns⟩
  | succ arity ih =>
    obtain ⟨found₁, hturns₁, hrest₁⟩ := turns_wave found hwave
    have hgrown := (types_foldl_appendNew (wave.filterMap applied?) (types, [])).length_le
    rw [Array.length_toList, Array.length_toList, ← add_length_of_drop hn hrest] at hgrown
    have harity₁ : ∀ d ∈ ((wave.filterMap applied?).foldl appendNew (types, [])).2.reverse,
        d.arity ≤ arity := by
      intro e he
      rcases mem_fresh (List.mem_reverse.1 he) with he | he
      · cases he
      · obtain ⟨d, hd, happlied⟩ := List.mem_filterMap.1 he
        have hle := harity d hd
        rw [arity_of_applied? happlied] at hle
        omega
    obtain ⟨found₂, hturns₂⟩ := ih found₁ hgrown hrest₁ harity₁ (by simpa using hrest₁)
    rw [appendApplied]
    exact ⟨found₂, hturns₁.trans hturns₂⟩

private theorem turns_of_build {b : Builder} {r : Registry} (h : b.build = .ok r) :
    ∃ ds found, b.slots.toList = ds.map some ∧
      Scan.Turns (.start ds) ⟨r.types.size, r.types, found⟩ := by
  obtain ⟨ds, hslots, -, htypes⟩ := build_ok h
  have hstart : ds.toArray.toList.drop 0 = ds := rfl
  obtain ⟨found, hturns⟩ := turns_appendApplied [] (Nat.zero_le _) hstart fun d hd => le_maxArity hd
  refine ⟨ds, found, hslots, ?_⟩
  rw [htypes]
  exact hturns

end Builder

namespace Registry

variable {r : Registry} {t u : TypeId} {d : Descriptor}

/-- The id of the first place where a registry holds a descriptor. Ids are 32-bit numbers. -/
def FirstId (r : Registry) (d : Descriptor) (t : TypeId) : Prop :=
  ∃ i, IsLeast {i | r.types[i]? = some d} i ∧ t = .ofIndex i

/-- While every type has an id, the first place of a descriptor has the smallest id that leads to it. -/
theorem firstId_iff (hids : r.size ≤ UInt32.size) :
    r.FirstId d t ↔ r.get? t = some d ∧ ∀ u, r.get? u = some d → t.index ≤ u.index := by
  have hindex {i : Nat} (hi : r.types[i]? = some d) : (TypeId.ofIndex i).index = i :=
    TypeId.index_ofIndex (lt_of_lt_of_le (Array.getElem?_eq_some_iff.1 hi).1 hids)
  constructor
  · rintro ⟨i, ⟨hi, hleast⟩, rfl⟩
    rw [get?, hindex hi]
    exact ⟨hi, fun u hu => hleast hu⟩
  · rintro ⟨ht, hleast⟩
    refine ⟨t.index, ⟨ht, ?_⟩, ?_⟩
    · intro j hj
      have hle := hleast (.ofIndex j) (by rwa [get?, hindex hj])
      rwa [hindex hj] at hle
    · rw [TypeId.ofIndex, TypeId.index, UInt32.ofNat_toNat]

private theorem closureType?_eq : r.closureType? t =
    (((r.get? t).bind Builder.applied?).bind (Builder.firstOf? r.types)).map .ofIndex := by
  unfold closureType?
  split
  · rename_i hget
    rw [hget]
    rfl
  · rename_i hnot
    have hnone : (r.get? t).bind Builder.applied? = none := by
      rw [Option.bind_eq_none_iff]
      intro d hd
      by_contra hsome
      obtain ⟨e, he⟩ := Option.ne_none_iff_exists'.1 hsome
      obtain ⟨a, args, ret, rfl, -⟩ := Builder.applied?_eq_some.1 he
      exact hnot a args ret hd
    rw [hnone]
    rfl

theorem closureType?_eq_some : r.closureType? t = some u ↔
    ∃ a args ret, r.get? t = some (.function (a :: args) ret) ∧ r.FirstId (.function args ret) u := by
  unfold closureType?
  constructor
  · intro h
    split at h
    · rename_i a args ret hget
      obtain ⟨i, hi, rfl⟩ := Option.map_eq_some_iff.1 h
      exact ⟨a, args, ret, hget, i, Builder.firstOf?_eq_some.1 hi, rfl⟩
    · cases h
  · rintro ⟨a, args, ret, hget, i, hi, rfl⟩
    rw [hget]
    exact Option.map_eq_some_iff.2 ⟨i, Builder.firstOf?_eq_some.2 hi, rfl⟩

open Builder in
theorem Built.exists_closureType {a : TypeId} {args : List TypeId} {ret : TypeId} (h : r.Built)
    (hget : r.get? t = some (.function (a :: args) ret)) :
    ∃ u, r.closureType? t = some u ∧ r.get? u = some (.function args ret) := by
  obtain ⟨b, -, hbuild⟩ := h.built
  obtain ⟨ds, found, -, hturns⟩ := turns_of_build hbuild
  have hsound := hturns.sound (Scan.sound_start ds)
  have hlt : t.index < r.types.size := (Array.getElem?_eq_some_iff.1 hget).1
  have hmem := hsound.closed t.index hlt _ _ hget (applied?_eq_some.2 ⟨a, args, ret, rfl, rfl⟩)
  obtain ⟨i, hi⟩ := Option.ne_none_iff_exists'.1 (mt firstOf?_eq_none.1 (not_not.2 hmem))
  have hleast := firstOf?_eq_some.1 hi
  refine ⟨.ofIndex i, closureType?_eq_some.2 ⟨a, args, ret, hget, i, hleast, rfl⟩, ?_⟩
  have hids : i < UInt32.size := lt_of_lt_of_le (Array.getElem?_eq_some_iff.1 hleast.1).1 h.ids
  rw [get?, TypeId.index_ofIndex hids]
  exact hleast.1

open Builder in
/-- The scan that appends what is left of function types comes to an end for every set of types that is
built, and the registry holds what it has found. Every function type that takes an argument, appended ones
included, has a type that is left of it when its first argument is given, the one of the smallest id; no other
type has one. What is appended is left of a function type that was given, and was not there before. -/
theorem closureTypes_of_build {b : Builder} (h : b.build = .ok r) :
    ∃ ds s, b.slots.toList = ds.map some ∧
      Scan.Turns (.start ds) s ∧ s.turn = none ∧ s.types = r.types ∧
      (∀ t, r.closureType? t = (s.found.lookup t.index).map .ofIndex) ∧
      (∀ t, (∃ u, r.closureType? t = some u) ↔
        ∃ a args ret, r.get? t = some (.function (a :: args) ret)) ∧
      (∀ t u, r.closureType? t = some u ↔ ∃ a args ret,
        r.get? t = some (.function (a :: args) ret) ∧ r.FirstId (.function args ret) u) ∧
      (r.size ≤ UInt32.size → ∀ d t, r.FirstId d t ↔
        r.get? t = some d ∧ ∀ u, r.get? u = some d → t.index ≤ u.index) ∧
      (∀ i < ds.length, r.types[i]? = ds[i]?) ∧
      ∀ i d, ds.length ≤ i → r.types[i]? = some d → d.LeftOf ds ∧ ∀ j < i, r.types[j]? ≠ some d := by
  obtain ⟨ds, found, hslots, hturns⟩ := turns_of_build h
  have hsound := hturns.sound (Scan.sound_start ds)
  refine ⟨ds, _, hslots, hturns, ?_, rfl, ?_, ?_, fun t u => closureType?_eq_some,
    fun hids d t => firstId_iff hids, ?_, hsound.appended⟩
  · simp [Scan.turn]
  · intro t
    rw [closureType?_eq, hsound.found, get?]
    by_cases hlt : t.index < r.types.size
    · rw [if_pos hlt]
    · rw [if_neg hlt, Array.getElem?_eq_none (Nat.le_of_not_lt hlt)]
      rfl
  · intro t
    constructor
    · rintro ⟨u, hu⟩
      obtain ⟨a, args, ret, hget, -⟩ := closureType?_eq_some.1 hu
      exact ⟨a, args, ret, hget⟩
    · rintro ⟨a, args, ret, hget⟩
      have hlt : t.index < r.types.size := (Array.getElem?_eq_some_iff.1 hget).1
      have hmem := hsound.closed t.index hlt _ _ hget (applied?_eq_some.2 ⟨a, args, ret, rfl, rfl⟩)
      obtain ⟨i, hi⟩ := Option.ne_none_iff_exists'.1 (mt firstOf?_eq_none.1 (not_not.2 hmem))
      exact ⟨_, closureType?_eq_some.2 ⟨a, args, ret, hget, i, firstOf?_eq_some.1 hi, rfl⟩⟩
  · intro i hi
    rw [← Array.getElem?_toList, List.prefix_iff_getElem?.1 hsound.starts i hi, List.getElem?_eq_getElem hi]

/-- A function of three arguments and the one that is left of it behind two of them. -/
def sharedCalls : Builder :=
  ([.function [.i32, .i32, .f64] .void, .function [.f64] .void] : List Descriptor).foldl
    (fun b d => (b.add d).2) .new

/-- What is left of the first function is appended, and what is left of that one was there. The last one in
the row has nothing more to give. -/
theorem sharedCalls_closed :
    ∃ r ds, sharedCalls.build = .ok r ∧ sharedCalls.slots.toList = ds.map some ∧ ds.length = 14 ∧
      [12, 14, 13, 15].map (fun i => r.closureType? (.ofIndex i)) =
        [some (.ofIndex 14), some (.ofIndex 13), some (.ofIndex 15), none] ∧
      r.FirstId (.function [.i32, .f64] .void) (.ofIndex 14) ∧
      (Descriptor.function [.i32, .f64] .void).LeftOf ds := by
  have hall : sharedCalls.build.map (fun r =>
      ([12, 14, 13, 15].map fun i => r.closureType? (.ofIndex i), r.types[14]?)) =
        .ok ([some (.ofIndex 14), some (.ofIndex 13), some (.ofIndex 15), none],
          some (.function [.i32, .f64] .void)) := by
    decide +kernel
  have hcount : sharedCalls.slots.toList.length = 14 := by decide +kernel
  cases hbuild : sharedCalls.build with
  | error e =>
    rw [hbuild] at hall
    cases hall
  | ok r =>
    rw [hbuild] at hall
    obtain ⟨hleft, htype⟩ := Prod.mk.inj (Except.ok.inj hall)
    obtain ⟨ds, s, hslots, -, -, -, -, -, -, -, -, happended⟩ := closureTypes_of_build hbuild
    have hlength : ds.length = 14 := by rwa [hslots, List.length_map] at hcount
    obtain ⟨hleftOf, hnew⟩ := happended 14 _ hlength.le htype
    have hfirst : r.FirstId (.function [.i32, .f64] .void) (.ofIndex 14) :=
      ⟨14, ⟨htype, fun j hj => Nat.le_of_not_lt fun hlt => hnew j hlt hj⟩, rfl⟩
    exact ⟨r, ds, rfl, hslots, hlength, hleft, hfirst, hleftOf⟩

end Registry

end ObjectModel
