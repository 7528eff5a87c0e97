import ObjectModel.Proofs.Value.Order

/-!
Instances of classes that compare. Which function compares two instances depends on the class of the first one
alone: the class of the second one may have another function or none, and then the two orders of the instances
are decided by different means. So a function that answers the other way round for instances in the other order
does not make the verdicts do so, unless the classes of both are compared by it.
-/

set_option autoImplicit false
set_option relaxedAutoImplicit false

namespace ObjectModel

variable {held : Addr → TypeId → Prop} {values : Set Addr} {h : Heap} {m : Memory} {w : World} {a b v : Addr}

theorem Verdict.ofCode_toCode (v : Verdict) : ofCode v.toCode = v := by
  cases v <;> decide

/-- A comparison function that answers the other way round if it is asked the other way round. -/
def Comparator.IsAntisymmetric (f : Comparator) (m : Memory) : Prop :=
  ∀ a b, Verdict.ofCode (f m b a) = (Verdict.ofCode (f m a b)).swap

namespace World

theorem comparator?_of_layout {c : ClassLayout} (hc : w.registry.classLayout (m.typeOf v) = .ok c) :
    w.comparator? m v =
      (c.compareFunction.bind w.functions.code?).bind fun code => w.comparators.lookup code := by
  rw [comparator?, hc]
  exact (Option.bind_assoc c.compareFunction w.functions.code? _).symm

/-- Two instances are compared by the function of the class of the first one, and by where they are if it has
none. What class the second one is of makes no difference. -/
theorem compareValues_instances (ha : w.registry.kindAt m a = some .object)
    (hb : w.registry.kindAt m b = some .object) (hzero : a ≠ 0) (hzero' : b ≠ 0) (hne : a ≠ b) :
    w.compareValues m a b =
      match w.comparator? m a with
      | some f => .byContent (.ofCode (f m a b))
      | none => .byAddress (compare a b) := by
  have ha' : w.registry.kind? (m.typeOf a) = some .object := ha
  have hb' : w.registry.kind? (m.typeOf b) = some .object := hb
  rw [compareValues, if_neg fun hboth => hzero hboth.1, if_neg hzero, if_neg hzero']
  dsimp only
  rw [unwrapped_of_root (Or.inl ha), unwrapped_of_root (Or.inl hb), if_neg hne, compareDistinct, ha', hb']
  rfl

theorem verdict_of_comparator {f : Comparator} (ha : w.registry.kindAt m a = some .object)
    (hb : w.registry.kindAt m b = some .object) (hzero : a ≠ 0) (hzero' : b ≠ 0) (hne : a ≠ b)
    (hf : w.comparator? m a = some f) : w.verdict m a b = .ofCode (f m a b) := by
  rw [verdict, compareValues_instances ha hb hzero hzero' hne, hf]
  rfl

theorem verdict_of_no_comparator (ha : w.registry.kindAt m a = some .object)
    (hb : w.registry.kindAt m b = some .object) (hzero : a ≠ 0) (hzero' : b ≠ 0) (hne : a ≠ b)
    (hf : w.comparator? m a = none) : w.verdict m a b = .ofOrdering (compare a b) := by
  rw [verdict, compareValues_instances ha hb hzero hzero' hne, hf]
  rfl

theorem verdict_swap_of_shared (ha : w.registry.kindAt m a = some .object)
    (hb : w.registry.kindAt m b = some .object) (hzero : a ≠ 0) (hzero' : b ≠ 0) (hne : a ≠ b)
    (hshared : w.comparator? m a = w.comparator? m b)
    (hanti : ∀ f, w.comparator? m a = some f → f.IsAntisymmetric m) :
    w.verdict m b a = (w.verdict m a b).swap := by
  cases hf : w.comparator? m a with
  | none =>
    rw [verdict_of_no_comparator ha hb hzero hzero' hne hf,
      verdict_of_no_comparator hb ha hzero' hzero hne.symm (hshared.symm.trans hf), Verdict.swap_ofOrdering,
      Std.OrientedOrd.eq_swap]
  | some f =>
    rw [verdict_of_comparator ha hb hzero hzero' hne hf,
      verdict_of_comparator hb ha hzero' hzero hne.symm (hshared.symm.trans hf)]
    exact hanti f hf a b

end World

/-- In every heap that a program can have, an instance is compared with another one by the function to which the
compare method of its own class is bound, and by address if there is none. If both classes compare by the same
antisymmetric function, or neither does, the verdict on the instances in the other order is the opposite one. If
only the first class compares, this is so just if its function happens to agree with the addresses. -/
theorem Reachable.compares_instances (hb : w.registry.Built) (hr : Reachable w.registry held h values)
    (hav : a ∈ values) (hbv : b ∈ values) (ha : w.registry.kindAt h.memory a = some .object)
    (hbk : w.registry.kindAt h.memory b = some .object) (hne : a ≠ b) :
    (∃ c, w.registry.classLayout (h.memory.typeOf a) = .ok c ∧
      w.compareValues h.memory a b =
        match (c.compareFunction.bind w.functions.code?).bind fun code => w.comparators.lookup code with
        | some f => .byContent (.ofCode (f h.memory a b))
        | none => .byAddress (compare a b)) ∧
    (w.comparator? h.memory a = w.comparator? h.memory b →
      (∀ f, w.comparator? h.memory a = some f → f.IsAntisymmetric h.memory) →
        w.verdict h.memory b a = (w.verdict h.memory a b).swap) ∧
    ∀ f, w.comparator? h.memory a = some f → w.comparator? h.memory b = none →
      (w.verdict h.memory b a = (w.verdict h.memory a b).swap ↔
        Verdict.ofCode (f h.memory a b) = .ofOrdering (compare a b)) := by
  have hs : Arranged w.registry ∅ h values := (hr.sound hb).arranged
  have hzero : a ≠ 0 := hs.ne_zero hav
  have hzero' : b ≠ 0 := hs.ne_zero hbv
  refine ⟨?_, World.verdict_swap_of_shared ha hbk hzero hzero' hne, ?_⟩
  · obtain ⟨c, hc, -⟩ := hs.instances a hav ha
    refine ⟨c, hc, ?_⟩
    rw [World.compareValues_instances ha hbk hzero hzero' hne, World.comparator?_of_layout hc]
  · intro f hf hnone
    rw [World.verdict_of_comparator ha hbk hzero hzero' hne hf,
      World.verdict_of_no_comparator hbk ha hzero' hzero hne.symm hnone,
      ← Verdict.swap_inj, Verdict.swap_swap, Verdict.swap_ofOrdering, ← Std.OrientedOrd.eq_swap, eq_comm]

/-! Two classes with the same field, one of which compares its instances by it. -/

def Registry.rankedTypes : Registry :=
  ⟨(Descriptor.builtins ++
    ([.function [.ofIndex 13, .ofIndex 13] .i32,
      .object ⟨"Ranked", none, [⟨"rank", .i32⟩], [⟨"__compare", 0, .ofIndex 12⟩]⟩,
      .object ⟨"Plain", none, [⟨"rank", .i32⟩], []⟩,
      .function [.ofIndex 13] .i32, .function [] .i32] : List Descriptor)).toArray⟩

theorem Registry.rankedTypes_built : rankedTypes.Built :=
  .of_adds (rankedTypes.types.toList.drop Descriptor.builtins.length) (by decide +kernel) (by decide +kernel)

/-- Compares two instances by the number in their first field. -/
def Comparator.byRank : Comparator := fun m a b =>
  (Verdict.ofOrdering (compare (m.half (a.toNat + 8)).toInt32 (m.half (b.toNat + 8)).toInt32)).toCode

theorem Comparator.byRank_isAntisymmetric (m : Memory) : byRank.IsAntisymmetric m := by
  intro a b
  rw [byRank, byRank, Verdict.ofCode_toCode, Verdict.ofCode_toCode, Verdict.swap_ofOrdering,
    Std.OrientedOrd.eq_swap]

def World.ranked : World where
  registry := .rankedTypes
  functions := ({} : FunctionTable).define 0 1 (.ofIndex 12)
  comparators := [(1, .byRank)]

/-- A heap with an instance of the class that compares, one of the other class and one more of the first. -/
def rankedHeap : Heap :=
  ((do
    let a ← Action.newInstance (.ofIndex 13)
    Action.set a (Name.hash "rank") .i32 (.i32 9)
    let _ ← Action.newInstance (.ofIndex 14)
    Action.newInstance (.ofIndex 13)) World.ranked {}).2

theorem rankedHeap_reachable : ∃ values, Reachable .rankedTypes (fun _ _ => False) rankedHeap values ∧
    0x10010 ∈ values ∧ 0x10030 ∈ values ∧ 0x10050 ∈ values := by
  let h₀ := (Action.newInstance (.ofIndex 13) World.ranked {}).2
  let h₁ := (Action.set 0x10010 (Name.hash "rank") .i32 (.i32 9) World.ranked h₀).2
  let h₂ := (Action.newInstance (.ofIndex 14) World.ranked h₁).2
  let h₃ := (Action.newInstance (.ofIndex 13) World.ranked h₂).2
  have hfirst : Action.newInstance (.ofIndex 13) World.ranked {} = (.ok 0x10010, h₀) :=
    Action.eq_of_fst (by decide +kernel)
  have hset : Action.set 0x10010 (Name.hash "rank") .i32 (.i32 9) World.ranked h₀ = (.ok (), h₁) :=
    Action.eq_of_fst (by decide +kernel)
  have hplain : Action.newInstance (.ofIndex 14) World.ranked h₁ = (.ok 0x10030, h₂) :=
    Action.eq_of_fst (by decide +kernel)
  have hlast : Action.newInstance (.ofIndex 13) World.ranked h₂ = (.ok 0x10050, h₃) :=
    Action.eq_of_fst (by decide +kernel)
  have hrun : rankedHeap = h₃ := by
    unfold rankedHeap
    rw [Action.bind_ok hfirst, Action.bind_ok hset, Action.bind_ok hplain]
  have hb : World.ranked.registry.Built := Registry.rankedTypes_built
  have hstart : Reachable .rankedTypes (fun _ _ => False) {} ∅ := .start none
  obtain ⟨values₀, -, hr₀, hnew₀⟩ := hstart.after_keeps (w := World.ranked) rfl (.newInstance (.ofIndex 13))
    (Action.newInstance_keeps (hstart.sound hb)) hfirst
  obtain ⟨values₁, hsub₁, hr₁⟩ := hr₀.after (w := World.ranked) rfl
    (.set (t := .i32) (s := .i32 9) _ hnew₀.1 (.of_numeric (k := .i32) rfl rfl rfl)) hset
  obtain ⟨values₂, hsub₂, hr₂, hnew₂⟩ := hr₁.after_keeps (w := World.ranked) rfl (.newInstance (.ofIndex 14))
    (Action.newInstance_keeps (hr₁.sound hb)) hplain
  obtain ⟨values₃, hsub₃, hr₃, hnew₃⟩ := hr₂.after_keeps (w := World.ranked) rfl (.newInstance (.ofIndex 13))
    (Action.newInstance_keeps (hr₂.sound hb)) hlast
  rw [hrun]
  exact ⟨values₃, hr₃, hsub₃ (hsub₂ (hsub₁ hnew₀.1)), hsub₃ hnew₂.1, hnew₃.1⟩

private theorem comparator?_ranked {v : Addr} (hv : rankedHeap.memory.typeOf v = .ofIndex 13) :
    World.ranked.comparator? rankedHeap.memory v = some .byRank := by
  have hlayout : (Registry.rankedTypes.classLayout (.ofIndex 13)).map ClassLayout.compareFunction =
      .ok (some 0) := by decide +kernel
  obtain ⟨c, hc, hfunction⟩ := Outcome.map_eq_ok.1 hlayout
  have hc' : World.ranked.registry.classLayout (rankedHeap.memory.typeOf v) = .ok c := by
    rw [hv]
    exact hc
  rw [World.comparator?_of_layout hc', hfunction]
  rfl

/-- The verdicts on two instances of the class that compares are opposite, and the higher rank is behind. -/
theorem rankedHeap_mirrored : ∃ values, Reachable .rankedTypes (fun _ _ => False) rankedHeap values ∧
    0x10010 ∈ values ∧ 0x10050 ∈ values ∧
    World.ranked.verdict rankedHeap.memory 0x10010 0x10050 = .greater ∧
    World.ranked.verdict rankedHeap.memory 0x10050 0x10010 = .less := by
  obtain ⟨values, hr, ha, -, hb⟩ := rankedHeap_reachable
  have hgreater : World.ranked.verdict rankedHeap.memory 0x10010 0x10050 = .greater := by decide +kernel
  have hfirst := comparator?_ranked (v := 0x10010) (by decide +kernel)
  have hlast := comparator?_ranked (v := 0x10050) (by decide +kernel)
  obtain ⟨-, hmirrored, -⟩ := Reachable.compares_instances (w := World.ranked) Registry.rankedTypes_built hr
    ha hb (by decide +kernel) (by decide +kernel) (by decide)
  have hless := hmirrored (hfirst.trans hlast.symm) (by
    intro f hf
    obtain rfl := Option.some.inj (hfirst.symm.trans hf)
    exact Comparator.byRank_isAntisymmetric _)
  rw [hgreater] at hless
  exact ⟨values, hr, ha, hb, hgreater, hless⟩

/-- An instance of either class is behind the other one when it comes first: the first order is decided by the
ranks, the second one by the addresses. -/
theorem rankedHeap_not_mirrored : ∃ values, Reachable .rankedTypes (fun _ _ => False) rankedHeap values ∧
    0x10010 ∈ values ∧ 0x10030 ∈ values ∧
    Registry.rankedTypes.kindAt rankedHeap.memory 0x10010 = some .object ∧
    Registry.rankedTypes.kindAt rankedHeap.memory 0x10030 = some .object ∧
    World.ranked.comparator? rankedHeap.memory 0x10010 = some .byRank ∧
    (∀ m, Comparator.byRank.IsAntisymmetric m) ∧
    World.ranked.comparator? rankedHeap.memory 0x10030 = none ∧
    World.ranked.compareValues rankedHeap.memory 0x10010 0x10030 = .byContent .greater ∧
    World.ranked.verdict rankedHeap.memory 0x10030 0x10010 = .greater := by
  obtain ⟨values, hr, ha, hb, -⟩ := rankedHeap_reachable
  exact ⟨values, hr, ha, hb, by decide +kernel, by decide +kernel, comparator?_ranked (by decide +kernel),
    Comparator.byRank_isAntisymmetric, Option.isNone_iff_eq_none.1 (by decide +kernel), by decide +kernel,
    by decide +kernel⟩

end ObjectModel
