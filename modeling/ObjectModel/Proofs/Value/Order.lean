import ObjectModel.Proofs.Value.FieldWrites

/-!
The order of dynamic values, as long as no class compares its instances itself. What a value counts for is its
rank: null, the whole number in a box, or a place among the values of one kind. The verdict on two values is the
verdict on their ranks, so the laws of ranks are laws of all values in every heap that a program can have.
Boxes with floating-point numbers have no rank, as not all of these numbers compare.
-/

set_option autoImplicit false
set_option relaxedAutoImplicit false

namespace ObjectModel

namespace Verdict

/-- The verdict on two values that are taken the other way round. -/
def swap : Verdict → Verdict
  | less => greater
  | equal => equal
  | greater => less
  | invalid => invalid

/-- The first of two values is not behind the second one. -/
def isAtMost : Verdict → Bool
  | less | equal => true
  | greater | invalid => false

@[simp] theorem swap_swap (v : Verdict) : v.swap.swap = v := by
  cases v <;> rfl

theorem swap_inj {v v' : Verdict} : v.swap = v'.swap ↔ v = v' :=
  (Function.LeftInverse.injective swap_swap).eq_iff

@[simp] theorem swap_ofOrdering (o : Ordering) : (ofOrdering o).swap = ofOrdering o.swap := by
  cases o <;> rfl

@[simp] theorem isAtMost_ofOrdering (o : Ordering) : (ofOrdering o).isAtMost = o.isLE := by
  cases o <;> rfl

@[simp] theorem ofOrdering_ne_invalid (o : Ordering) : ofOrdering o ≠ invalid := by
  cases o <;> decide

theorem isAtMost_or_swap {v : Verdict} (hv : v ≠ invalid) : v.isAtMost = true ∨ v.swap.isAtMost = true := by
  cases v with
  | less => exact Or.inl rfl
  | equal => exact Or.inl rfl
  | greater => exact Or.inr rfl
  | invalid => exact absurd rfl hv

end Verdict

/-- What a value counts for in the order of values. -/
inductive Rank
  | null
  /-- A whole number in a box, however wide it is. -/
  | number (n : Int)
  /-- A place among the values of one kind. -/
  | place (k : Kind) (a : Addr)

namespace Rank

def verdict : Rank → Rank → Verdict
  | null, null => .equal
  | null, _ => .less
  | _, null => .greater
  | number x, number y => .ofOrdering (compare x y)
  | place k a, place l b => if k = l then .ofOrdering (compare a b) else .invalid
  | _, _ => .invalid

/-- The kind among whose values there is a place. -/
def kind? : Rank → Option Kind
  | null | number _ => none
  | place k _ => some k

variable {x y z : Rank}

theorem verdict_self (x : Rank) : x.verdict x = .equal := by
  cases x with
  | null => rfl
  | number n => rw [verdict, Std.ReflOrd.compare_self, Verdict.ofOrdering]
  | place k a => rw [verdict, if_pos rfl, Std.ReflOrd.compare_self, Verdict.ofOrdering]

theorem verdict_swap (x y : Rank) : y.verdict x = (x.verdict y).swap := by
  cases x <;> cases y
  case number.number x y =>
    rw [verdict, verdict, Verdict.swap_ofOrdering, Std.OrientedOrd.eq_swap]
  case place.place k a l b =>
    rw [verdict, verdict]
    by_cases hkl : k = l
    · rw [if_pos hkl, if_pos hkl.symm, Verdict.swap_ofOrdering, Std.OrientedOrd.eq_swap]
    · rw [if_neg hkl, if_neg (Ne.symm hkl), Verdict.swap]
  all_goals rfl

theorem verdict_ne_invalid (hx : x ≠ null) (hy : y ≠ null) : x.verdict y ≠ .invalid ↔ x.kind? = y.kind? := by
  cases x with
  | null => exact absurd rfl hx
  | number _ => cases y <;> simp [verdict, kind?] at hy ⊢
  | place k _ => cases y <;> simp [verdict, kind?] at hy ⊢

theorem null_verdict (hx : x ≠ null) : null.verdict x = .less := by
  cases x with
  | null => exact absurd rfl hx
  | number _ | place _ _ => rfl

theorem null_isAtMost (x : Rank) : (null.verdict x).isAtMost = true := by
  cases x <;> rfl

theorem isAtMost_trans (hxy : (x.verdict y).isAtMost = true) (hyz : (y.verdict z).isAtMost = true) :
    (x.verdict z).isAtMost = true := by
  -- What is not null is at most what has a rank of the same kind, and nothing else.
  cases x with
  | null => exact null_isAtMost z
  | number x =>
    cases y with
    | null | place _ _ => cases hxy
    | number y =>
      cases z with
      | null | place _ _ => cases hyz
      | number z =>
        rw [verdict, Verdict.isAtMost_ofOrdering] at hxy hyz ⊢
        exact Std.TransOrd.isLE_trans hxy hyz
  | place k a =>
    cases y with
    | null | number _ => cases hxy
    | place l b =>
      cases z with
      | null | number _ => cases hyz
      | place o c =>
        rw [verdict] at hxy hyz ⊢
        split_ifs at hxy hyz with hkl hlo
        · rw [Verdict.isAtMost_ofOrdering] at hxy hyz
          rw [if_pos (hkl.trans hlo), Verdict.isAtMost_ofOrdering]
          exact Std.TransOrd.isLE_trans hxy hyz
        all_goals contradiction

end Rank

variable {r : Registry} {held : Addr → TypeId → Prop} {values : Set Addr} {h : Heap} {m : Memory} {w : World}
  {a b u v : Addr} {k l : Kind}

/-- Null, or a value that is no box with a floating-point number. -/
def Sortable (r : Registry) (values : Set Addr) (m : Memory) (v : Addr) : Prop :=
  v = 0 ∨ (v ∈ values ∧ r.kindAt m v ≠ some .f32 ∧ r.kindAt m v ≠ some .f64)

/-- A box with a whole number or a truth value. -/
def IsIntegerBox (r : Registry) (m : Memory) (v : Addr) : Prop :=
  ∃ k, r.kindAt m v = some k ∧ k.isInteger = true

theorem Kind.isInteger_of_numeric (hk : k.isNumeric = true) (hf32 : k ≠ .f32) (hf64 : k ≠ .f64) :
    k.isInteger = true := by
  cases k <;> first | rfl | contradiction

private theorem compare_toInt (x y : Int32) : compare x y = compare x.toInt y.toInt := by
  simp only [compare, compareOfLessAndEq, Int32.lt_iff_toInt_lt, Int32.toInt_inj]

namespace World

/-- The verdict on two dynamic values, of which each may be null. -/
def verdict (w : World) (m : Memory) (a b : Addr) : Verdict := (w.compareValues m a b).verdict

/-- The rank of a value that is no view. -/
def ownRank (w : World) (m : Memory) (v : Addr) : Rank :=
  match w.numberIn? m v, w.registry.kindAt m v with
  | some (.int n), _ => .number n.toInt
  | _, some k => .place k (if k.isSelfDescribing then v else Box.pointer m v)
  | _, none => .null

/-- The rank of a dynamic value. A view has the rank of what it shows. -/
def rank (w : World) (m : Memory) (v : Addr) : Rank := if v = 0 then .null else w.ownRank m (w.unwrapped m v)

/-- No class of a value has a comparison function that is bound. -/
def NoneCompares (w : World) (values : Set Addr) (m : Memory) : Prop :=
  ∀ v ∈ values, ∀ c function, w.registry.classLayout (m.typeOf v) = .ok c →
    c.compareFunction = some function → w.functions.code? function = none

theorem NoneCompares.comparator? (hnone : w.NoneCompares values m) (hv : v ∈ values) :
    w.comparator? m v = none := by
  unfold World.comparator?
  cases hc : w.registry.classLayout (m.typeOf v) with
  | error e => rfl
  | ok c =>
    cases hfunction : c.compareFunction with
    | none => simp [hfunction]
    | some function => simp [hfunction, hnone v hv c function hc hfunction]

theorem numberIn?_of_integer (hk : w.registry.kindAt m v = some k) (hinteger : k.isInteger = true) :
    ∃ n, w.numberIn? m v = some (.int n) := by
  have hself : k.isSelfDescribing = false := by cases k <;> first | rfl | cases hinteger
  rw [numberIn?, Box.content_of_boxed hk hself]
  cases k <;> first | exact ⟨_, rfl⟩ | cases hinteger

theorem numberIn?_of_not_numeric (hk : w.registry.kindAt m v = some k) (hnumeric : k.isNumeric = false) :
    w.numberIn? m v = none := by
  rw [numberIn?, Box.content_of_kind hk]
  cases k <;> first | rfl | cases hnumeric

theorem ownRank_of_not_numeric (hk : w.registry.kindAt m v = some k) (hnumeric : k.isNumeric = false) :
    w.ownRank m v = .place k (if k.isSelfDescribing then v else Box.pointer m v) := by
  rw [ownRank, numberIn?_of_not_numeric hk hnumeric, hk]

theorem ownRank_of_number {n : Int32} (hn : w.numberIn? m v = some (.int n)) :
    w.ownRank m v = .number n.toInt := by
  rw [ownRank, hn]

theorem compareDistinct_verdict (ha : w.registry.kindAt m a = some k) (hb : w.registry.kindAt m b = some l)
    (hk : k.isNumeric = true → k.isInteger = true) (hl : l.isNumeric = true → l.isInteger = true)
    (hnone : w.comparator? m a = none) :
    (w.compareDistinct m a b).verdict = (w.ownRank m a).verdict (w.ownRank m b) := by
  have ha' : w.registry.kind? (m.typeOf a) = some k := ha
  have hb' : w.registry.kind? (m.typeOf b) = some l := hb
  rw [compareDistinct, ha', hb']
  dsimp only
  cases hnumeric : k.isNumeric with
  | true =>
    obtain ⟨x, hx⟩ := numberIn?_of_integer ha (hk hnumeric)
    rw [ownRank_of_number hx, hx]
    cases hother : l.isNumeric with
    | true =>
      obtain ⟨y, hy⟩ := numberIn?_of_integer hb (hl hother)
      rw [ownRank_of_number hy, hy, if_pos ⟨rfl, rfl⟩, Rank.verdict, ← compare_toInt]
      rfl
    | false =>
      rw [ownRank_of_not_numeric hb hother, if_neg (by simp), if_pos (Or.inl rfl)]
      rfl
  | false =>
    rw [ownRank_of_not_numeric ha hnumeric, if_neg (by simp)]
    cases hother : l.isNumeric with
    | true =>
      obtain ⟨y, hy⟩ := numberIn?_of_integer hb (hl hother)
      rw [ownRank_of_number hy, if_pos (by simp)]
      rfl
    | false =>
      rw [ownRank_of_not_numeric hb hother, Rank.verdict, hnone, ite_self]
      by_cases hkl : k = l
      · subst hkl
        rw [if_neg (by simp), if_pos rfl]
        cases hself : k.isSelfDescribing <;> rfl
      · rw [if_pos (by simp [hkl]), if_neg hkl]
        rfl

end World

/-- A view compares as what it shows does. -/
theorem RootOf.compareValues (hroot : RootOf w.registry m u v) (hv : v ≠ 0) (x : Addr) :
    w.compareValues m v x = w.compareValues m u x ∧ w.compareValues m x v = w.compareValues m x u := by
  have hu : w.unwrapped m u = u := World.unwrapped_of_root hroot.root
  have hshown : w.unwrapped m v = u := by
    rcases hroot.reached with rfl | ⟨hk, rfl⟩
    · exact hu
    · exact World.unwrapped_of_shown hk hroot.ne_zero
  constructor
  · simp only [World.compareValues, hv, hroot.ne_zero, hu, hshown]
  · simp only [World.compareValues, hv, hroot.ne_zero, hu, hshown]

namespace Sortable

theorem kindAt_unwrapped (hsort : Sortable w.registry values h.memory v) (hv : v ≠ 0)
    (hs : Arranged w.registry ∅ h values) :
    v ∈ values ∧ ∃ k, w.registry.kindAt h.memory (w.unwrapped h.memory v) = some k ∧
      (k.isNumeric = true → k.isInteger = true) := by
  obtain ⟨hmem, hf32, hf64⟩ := hsort.resolve_left hv
  obtain ⟨k, hk, -⟩ := hs.kinds v hmem
  refine ⟨hmem, ?_⟩
  by_cases hview : k = .virtual ∧ View.wrapped h.memory v ≠ 0
  · obtain ⟨rfl, hshown⟩ := hview
    obtain ⟨_, -, hat⟩ := hs.views v hmem hk
    rw [World.unwrapped_of_shown hk hshown]
    rcases (hat.shown hshown).2.1 with hobject | hopen | ⟨halone, -⟩
    · exact ⟨_, hobject, nofun⟩
    · exact ⟨_, hopen, nofun⟩
    · exact ⟨_, halone, nofun⟩
  · have hsame : w.unwrapped h.memory v = v := by
      rw [World.unwrapped, if_neg]
      rintro ⟨hvirtual, hshown⟩
      exact hview ⟨Option.some.inj (hk.symm.trans hvirtual), hshown⟩
    rw [hsame]
    exact ⟨k, hk, fun hnumeric => k.isInteger_of_numeric hnumeric (fun heq => hf32 (heq ▸ hk))
      fun heq => hf64 (heq ▸ hk)⟩

theorem rank_cases (hsort : Sortable w.registry values h.memory v) (hv : v ≠ 0)
    (hs : Arranged w.registry ∅ h values) :
    (∃ n, w.rank h.memory v = .number n ∧ IsIntegerBox w.registry h.memory (w.unwrapped h.memory v)) ∨
      ∃ k a, w.rank h.memory v = .place k a ∧
        w.registry.kindAt h.memory (w.unwrapped h.memory v) = some k ∧ k.isInteger = false := by
  obtain ⟨-, k, hk, hinteger⟩ := hsort.kindAt_unwrapped hv hs
  rw [World.rank, if_neg hv]
  cases hnumeric : k.isNumeric with
  | true =>
    obtain ⟨n, hn⟩ := World.numberIn?_of_integer hk (hinteger hnumeric)
    exact Or.inl ⟨_, World.ownRank_of_number hn, k, hk, hinteger hnumeric⟩
  | false =>
    refine Or.inr ⟨k, _, World.ownRank_of_not_numeric hk hnumeric, hk, ?_⟩
    cases k <;> first | rfl | cases hnumeric

theorem rank_ne_null (hsort : Sortable w.registry values h.memory v) (hv : v ≠ 0)
    (hs : Arranged w.registry ∅ h values) : w.rank h.memory v ≠ .null := by
  rcases hsort.rank_cases hv hs with ⟨n, hn, -⟩ | ⟨k, a, ha, -⟩
  · rw [hn]
    nofun
  · rw [ha]
    nofun

end Sortable

theorem World.compareValues_null (w : World) (m : Memory) (hv : v ≠ 0) :
    w.compareValues m 0 v = .byContent .less ∧ w.compareValues m v 0 = .byContent .greater := by
  constructor
  · rw [compareValues, if_neg (by simp [hv]), if_pos rfl]
  · rw [compareValues, if_neg (by simp [hv]), if_neg hv, if_pos rfl]

/-- The verdict on two values is that on their ranks. -/
theorem Arranged.verdict_eq (hs : Arranged w.registry ∅ h values) (hnone : w.NoneCompares values h.memory)
    (ha : Sortable w.registry values h.memory a) (hb : Sortable w.registry values h.memory b) :
    w.verdict h.memory a b = (w.rank h.memory a).verdict (w.rank h.memory b) := by
  have hnull : w.rank h.memory 0 = .null := if_pos rfl
  by_cases hzero : a = 0
  · subst hzero
    by_cases hzero' : b = 0
    · subst hzero'
      rfl
    · rw [hnull, Rank.null_verdict (hb.rank_ne_null hzero' hs), World.verdict,
        (World.compareValues_null w _ hzero').1]
      rfl
  · by_cases hzero' : b = 0
    · subst hzero'
      rw [hnull, Rank.verdict_swap .null, Rank.null_verdict (ha.rank_ne_null hzero hs), World.verdict,
        (World.compareValues_null w _ hzero).2]
      rfl
    · obtain ⟨hmem, k, hk, hinteger⟩ := ha.kindAt_unwrapped hzero hs
      obtain ⟨-, l, hl, hinteger'⟩ := hb.kindAt_unwrapped hzero' hs
      rw [World.verdict, World.compareValues, if_neg (by simp [hzero]), if_neg hzero, if_neg hzero']
      dsimp only
      rw [World.rank, World.rank, if_neg hzero, if_neg hzero']
      split_ifs with heq
      · rw [heq, Rank.verdict_self]
        rfl
      · exact World.compareDistinct_verdict hk hl hinteger hinteger'
          (hnone.comparator? (hs.unwrapped_mem hmem))

theorem Sortable.rank_kind?_eq (ha : Sortable w.registry values h.memory a)
    (hb : Sortable w.registry values h.memory b) (hne : a ≠ 0) (hne' : b ≠ 0)
    (hs : Arranged w.registry ∅ h values) :
    (w.rank h.memory a).kind? = (w.rank h.memory b).kind? ↔
      (IsIntegerBox w.registry h.memory (w.unwrapped h.memory a) ∧
        IsIntegerBox w.registry h.memory (w.unwrapped h.memory b)) ∨
      w.registry.kindAt h.memory (w.unwrapped h.memory a) =
        w.registry.kindAt h.memory (w.unwrapped h.memory b) := by
  have hother : ∀ {v k}, w.registry.kindAt h.memory v = some k → k.isInteger = false →
      ¬IsIntegerBox w.registry h.memory v := by
    rintro v k hk hinteger ⟨k', hk', hinteger'⟩
    obtain rfl := Option.some.inj (hk.symm.trans hk')
    rw [hinteger] at hinteger'
    cases hinteger'
  rcases ha.rank_cases hne hs with ⟨x, hx, hbox⟩ | ⟨k, p, hx, hk, hinteger⟩ <;>
    rcases hb.rank_cases hne' hs with ⟨y, hy, hbox'⟩ | ⟨l, q, hy, hl, hinteger'⟩ <;> rw [hx, hy]
  · exact iff_of_true rfl (Or.inl ⟨hbox, hbox'⟩)
  · refine iff_of_false nofun ?_
    rintro (⟨-, hfalse⟩ | hkinds)
    · exact hother hl hinteger' hfalse
    · rw [hl] at hkinds
      exact hother hkinds hinteger' hbox
  · refine iff_of_false nofun ?_
    rintro (⟨hfalse, -⟩ | hkinds)
    · exact hother hk hinteger hfalse
    · rw [hk] at hkinds
      exact hother hkinds.symm hinteger hbox'
  · rw [hk, hl]
    exact (or_iff_right fun hboth => hother hk hinteger hboth.1).symm

/-- The laws of the order of the values in a heap: values that compare are totally preordered, with null in
front of all others, and views stand where what they show stands. -/
structure InOrder (w : World) (values : Set Addr) (m : Memory) : Prop where
  mirrored : ∀ a b, Sortable w.registry values m a → Sortable w.registry values m b →
    w.verdict m b a = (w.verdict m a b).swap
  equivalence : Equivalence fun a b : { v : Addr // v ≠ 0 ∧ Sortable w.registry values m v } =>
    w.verdict m a b ≠ .invalid
  comparable : ∀ a b, a ≠ 0 → b ≠ 0 → Sortable w.registry values m a → Sortable w.registry values m b →
    (w.verdict m a b ≠ .invalid ↔
      (IsIntegerBox w.registry m (w.unwrapped m a) ∧ IsIntegerBox w.registry m (w.unwrapped m b)) ∨
        w.registry.kindAt m (w.unwrapped m a) = w.registry.kindAt m (w.unwrapped m b))
  total : ∀ a b, Sortable w.registry values m a → Sortable w.registry values m b →
    w.verdict m a b ≠ .invalid → (w.verdict m a b).isAtMost = true ∨ (w.verdict m b a).isAtMost = true
  transitive : ∀ a b c, Sortable w.registry values m a → Sortable w.registry values m b →
    Sortable w.registry values m c → (w.verdict m a b).isAtMost = true →
      (w.verdict m b c).isAtMost = true → (w.verdict m a c).isAtMost = true
  null_first : w.verdict m 0 0 = .equal ∧ ∀ v, v ≠ 0 → w.verdict m 0 v = .less
  integers : ∀ a b, a ∈ values → b ∈ values → IsIntegerBox w.registry m a → IsIntegerBox w.registry m b →
    ∃ x y : Int32, w.numberIn? m a = some (.int x) ∧ w.numberIn? m b = some (.int y) ∧
      w.verdict m a b = .ofOrdering (compare x.toInt y.toInt)
  views : ∀ u v, v ∈ values → RootOf w.registry m u v → ∀ x,
    w.compareValues m v x = w.compareValues m u x ∧ w.compareValues m x v = w.compareValues m x u

theorem IsIntegerBox.sortable (hbox : IsIntegerBox r m v) (hv : v ∈ values) : Sortable r values m v := by
  obtain ⟨k, hk, hinteger⟩ := hbox
  refine Or.inr ⟨hv, ?_, ?_⟩
  · rintro hf32
    obtain rfl := Option.some.inj (hk.symm.trans hf32)
    cases hinteger
  · rintro hf64
    obtain rfl := Option.some.inj (hk.symm.trans hf64)
    cases hinteger

theorem IsIntegerBox.rank (hbox : IsIntegerBox w.registry m v) (hv : v ≠ 0) :
    ∃ n : Int32, w.numberIn? m v = some (.int n) ∧ w.rank m v = .number n.toInt := by
  obtain ⟨k, hk, hinteger⟩ := hbox
  obtain ⟨n, hn⟩ := World.numberIn?_of_integer hk hinteger
  have hsame : w.unwrapped m v = v := by
    rw [World.unwrapped, if_neg]
    rintro ⟨hvirtual, -⟩
    obtain rfl := Option.some.inj (hk.symm.trans hvirtual)
    cases hinteger
  rw [World.rank, if_neg hv, hsame]
  exact ⟨n, hn, World.ownRank_of_number hn⟩

namespace Arranged

theorem verdict_swap (hs : Arranged w.registry ∅ h values) (hnone : w.NoneCompares values h.memory)
    (ha : Sortable w.registry values h.memory a) (hb : Sortable w.registry values h.memory b) :
    w.verdict h.memory b a = (w.verdict h.memory a b).swap := by
  rw [hs.verdict_eq hnone ha hb, hs.verdict_eq hnone hb ha, Rank.verdict_swap]

theorem verdict_valid (hs : Arranged w.registry ∅ h values) (hnone : w.NoneCompares values h.memory)
    (ha : Sortable w.registry values h.memory a) (hb : Sortable w.registry values h.memory b) (hne : a ≠ 0)
    (hne' : b ≠ 0) :
    w.verdict h.memory a b ≠ .invalid ↔ (w.rank h.memory a).kind? = (w.rank h.memory b).kind? := by
  rw [hs.verdict_eq hnone ha hb]
  exact Rank.verdict_ne_invalid (ha.rank_ne_null hne hs) (hb.rank_ne_null hne' hs)

theorem verdict_equivalence (hs : Arranged w.registry ∅ h values) (hnone : w.NoneCompares values h.memory) :
    Equivalence fun a b : { v : Addr // v ≠ 0 ∧ Sortable w.registry values h.memory v } =>
      w.verdict h.memory a b ≠ .invalid := by
  refine ⟨?_, ?_, ?_⟩
  · rintro ⟨a, hne, ha⟩
    exact (hs.verdict_valid hnone ha ha hne hne).2 rfl
  · rintro ⟨a, hne, ha⟩ ⟨b, hne', hb⟩ hab
    exact (hs.verdict_valid hnone hb ha hne' hne).2 ((hs.verdict_valid hnone ha hb hne hne').1 hab).symm
  · rintro ⟨a, hne, ha⟩ ⟨b, hne', hb⟩ ⟨c, hne'', hc⟩ hab hbc
    have hkinds := (hs.verdict_valid hnone ha hb hne hne').1 hab
    have hkinds' := (hs.verdict_valid hnone hb hc hne' hne'').1 hbc
    exact (hs.verdict_valid hnone ha hc hne hne'').2 (hkinds.trans hkinds')

theorem verdict_trans (hs : Arranged w.registry ∅ h values) (hnone : w.NoneCompares values h.memory)
    (ha : Sortable w.registry values h.memory a) (hb : Sortable w.registry values h.memory b)
    (hc : Sortable w.registry values h.memory v) (hab : (w.verdict h.memory a b).isAtMost = true)
    (hbc : (w.verdict h.memory b v).isAtMost = true) : (w.verdict h.memory a v).isAtMost = true := by
  rw [hs.verdict_eq hnone ha hb] at hab
  rw [hs.verdict_eq hnone hb hc] at hbc
  rw [hs.verdict_eq hnone ha hc]
  exact Rank.isAtMost_trans hab hbc

theorem verdict_integers (hs : Arranged w.registry ∅ h values) (hnone : w.NoneCompares values h.memory)
    (ha : a ∈ values) (hb : b ∈ values) (hbox : IsIntegerBox w.registry h.memory a)
    (hbox' : IsIntegerBox w.registry h.memory b) :
    ∃ x y : Int32, w.numberIn? h.memory a = some (.int x) ∧ w.numberIn? h.memory b = some (.int y) ∧
      w.verdict h.memory a b = .ofOrdering (compare x.toInt y.toInt) := by
  obtain ⟨x, hx, hrank⟩ := hbox.rank (hs.ne_zero ha)
  obtain ⟨y, hy, hrank'⟩ := hbox'.rank (hs.ne_zero hb)
  refine ⟨x, y, hx, hy, ?_⟩
  rw [hs.verdict_eq hnone (hbox.sortable ha) (hbox'.sortable hb), hrank, hrank', Rank.verdict]

end Arranged

/-- As long as no class compares its instances itself, the values of every heap that a program can have are
in order. -/
theorem Reachable.inOrder (hb : w.registry.Built) (hr : Reachable w.registry held h values)
    (hnone : w.NoneCompares values h.memory) : InOrder w values h.memory := by
  have hs : Arranged w.registry ∅ h values := (hr.sound hb).arranged
  constructor
  case mirrored =>
    intro a b ha hb
    exact hs.verdict_swap hnone ha hb
  case equivalence => exact hs.verdict_equivalence hnone
  case comparable =>
    intro a b hne hne' ha hb
    exact (hs.verdict_valid hnone ha hb hne hne').trans (ha.rank_kind?_eq hb hne hne' hs)
  case total =>
    intro a b ha hb hvalid
    rw [hs.verdict_swap hnone ha hb]
    exact Verdict.isAtMost_or_swap hvalid
  case transitive =>
    intro a b c ha hb hc hab hbc
    exact hs.verdict_trans hnone ha hb hc hab hbc
  case null_first =>
    refine ⟨rfl, fun v hv => ?_⟩
    rw [World.verdict, (World.compareValues_null w _ hv).1]
    rfl
  case integers =>
    intro a b ha hb hbox hbox'
    exact hs.verdict_integers hnone ha hb hbox hbox'
  case views =>
    intro u v hv hroot
    exact hroot.compareValues (hs.ne_zero hv)

/-! A heap with an open object, a view of it, and boxes of two widths. -/

def mixedHeap : Heap :=
  ((do
    let number ← Action.boxNumber (.i32 5) .i32
    let truth ← Action.boxNumber (.bool true) .bool
    return (number, truth)) (.ofTypes .paddedTypes) viewedHeap).2

theorem mixedHeap_inOrder : ∃ values, InOrder (.ofTypes .paddedTypes) values mixedHeap.memory ∧
    0x10010 ∈ values ∧ 0x100E0 ∈ values ∧ 0x10130 ∈ values ∧ 0x10150 ∈ values ∧
    World.verdict (.ofTypes .paddedTypes) mixedHeap.memory 0x10150 0x10130 = .less ∧
    World.verdict (.ofTypes .paddedTypes) mixedHeap.memory 0x100E0 0x10010 = .equal ∧
    World.verdict (.ofTypes .paddedTypes) mixedHeap.memory 0x100E0 0x10130 = .invalid := by
  let w : World := .ofTypes .paddedTypes
  let h₁ := (Action.boxNumber (.i32 5) .i32 w viewedHeap).2
  let h₂ := (Action.boxNumber (.bool true) .bool w h₁).2
  have hnumber : Action.boxNumber (.i32 5) .i32 w viewedHeap = (.ok 0x10130, h₁) :=
    Action.eq_of_fst (by decide +kernel)
  have htruth : Action.boxNumber (.bool true) .bool w h₁ = (.ok 0x10150, h₂) :=
    Action.eq_of_fst (by decide +kernel)
  have hrun : mixedHeap = h₂ := by
    unfold mixedHeap
    rw [Action.bind_ok hnumber, Action.bind_ok htruth]
    rfl
  have hb : w.registry.Built := Registry.paddedTypes_built
  obtain ⟨values₀, hr₀, hv, hx⟩ := viewedHeap_reachable
  obtain ⟨values₁, hsub₁, hr₁, hnew₁⟩ := hr₀.after_keeps (w := w) rfl
    (.boxNumber (k := .i32) rfl rfl rfl) (Action.boxNumber_keeps (hr₀.sound hb) rfl rfl rfl) hnumber
  obtain ⟨values₂, hsub₂, hr₂, hnew₂⟩ := hr₁.after_keeps (w := w) rfl
    (.boxNumber (k := .bool) rfl rfl rfl) (Action.boxNumber_keeps (hr₁.sound hb) rfl rfl rfl) htruth
  rw [hrun]
  exact ⟨values₂, Reachable.inOrder hb hr₂ fun _ _ _ _ _ _ => rfl, hsub₂ (hsub₁ hv), hsub₂ (hsub₁ hx),
    hsub₂ hnew₁.1, hnew₂.1, by decide +kernel, by decide +kernel, by decide +kernel⟩

end ObjectModel
