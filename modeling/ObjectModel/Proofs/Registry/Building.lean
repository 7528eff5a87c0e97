import ObjectModel.Proofs.Registry.Ancestors
import Mathlib.Data.List.Basic

/-!
What a builder holds is settled by the history of its calls: which ids were set aside and still wait
for their types, and which type every other id was given. In terms of that history, definitions are
refused exactly when nothing waits for them, and a set of types is built exactly when it is complete.
-/

set_option autoImplicit false
set_option relaxedAutoImplicit false

namespace ObjectModel

/-- A descriptor names a type in one of its places. -/
inductive Descriptor.Mentions : Descriptor → TypeId → Prop
  | arg {args : List TypeId} {ret t : TypeId} (h : t ∈ args) : Mentions (function args ret) t
  | result {args : List TypeId} {ret : TypeId} : Mentions (function args ret) ret
  | super {c : Class} {t : TypeId} (h : c.super = some t) : Mentions (object c) t
  | field {c : Class} {f : Field} (h : f ∈ c.fields) : Mentions (object c) f.type
  | method {c : Class} {m : Method} (h : m ∈ c.methods) : Mentions (object c) m.type
  | openField {fields : List Field} {f : Field} (h : f ∈ fields) : Mentions (virtual fields) f.type
  | param {name : String} {constructs : List Construct} {k : Construct} {t : TypeId}
      (hk : k ∈ constructs) (ht : t ∈ k.params) : Mentions (enum name constructs) t
  | element {t : TypeId} : Mentions (array t) t
  | ref {t : TypeId} : Mentions (ref t) t
  | null {t : TypeId} : Mentions (null t) t

theorem Descriptor.mentions_iff {d : Descriptor} {t : TypeId} : d.Mentions t ↔ t ∈ d.references := by
  constructor
  · intro h
    cases h with
    | arg h => simp [references, h]
    | result => simp [references]
    | super h => simp [references, h]
    | field h => simp [references, List.mem_map_of_mem h]
    | method h => simp [references, List.mem_map_of_mem h]
    | openField h => simp [references, List.mem_map_of_mem h]
    | param hk ht => exact List.mem_flatMap.2 ⟨_, hk, ht⟩
    | element => simp [references]
    | ref => simp [references]
    | null => simp [references]
  · intro h
    cases d with
    | function args ret =>
      rcases List.mem_append.1 h with h | h
      · exact .arg h
      · obtain rfl := List.mem_singleton.1 h
        exact .result
    | object c =>
      rcases List.mem_append.1 h with h | h
      · rcases List.mem_append.1 h with h | h
        · exact .super (Option.mem_toList.1 h)
        · obtain ⟨f, hf, rfl⟩ := List.mem_map.1 h
          exact .field hf
      · obtain ⟨m, hm, rfl⟩ := List.mem_map.1 h
        exact .method hm
    | virtual fields =>
      obtain ⟨f, hf, rfl⟩ := List.mem_map.1 h
      exact .openField hf
    | enum name constructs =>
      obtain ⟨k, hk, ht⟩ := List.mem_flatMap.1 h
      exact .param hk ht
    | array element =>
      obtain rfl := List.mem_singleton.1 h
      exact .element
    | ref target =>
      obtain rfl := List.mem_singleton.1 h
      exact .ref
    | null target =>
      obtain rfl := List.mem_singleton.1 h
      exact .null
    | _ => cases h

namespace Builder

/-- A call on a builder. -/
inductive Call
  | add (d : Descriptor)
  | function (args : List TypeId) (ret : TypeId)
  | reserve
  | define (t : TypeId) (d : Descriptor)
  deriving DecidableEq, Repr

namespace Call

/-- What a call makes of a builder. A definition that is refused leaves it as it is. -/
def run (b : Builder) : Call → Builder
  | add d => (b.add d).2
  | function args ret => (b.add (.function args ret)).2
  | reserve => b.reserve.2
  | define t d =>
    match b.define t d with
    | .ok b' => b'
    | .error _ => b

/-- The type that a call gives to an id of its own. -/
def added? : Call → Option Descriptor
  | add d => some d
  | function args ret => some (.function args ret)
  | reserve | define _ _ => none

/-- A call hands out an id. -/
def opensSlot : Call → Bool
  | add _ | function _ _ | reserve => true
  | define _ _ => false

end Call

variable {calls : List Call} {call : Call} {i : Nat} {d : Descriptor}

/-- The builder after a list of calls on a new one. -/
def ofCalls (calls : List Call) : Builder := calls.foldl Call.run .new

/-- The number of ids that are handed out after a list of calls. -/
def slotCount (calls : List Call) : Nat := Descriptor.builtins.length + calls.countP Call.opensSlot

/-- The id at index `i` was set aside, and no call after that defined it. -/
def Awaits (calls : List Call) (i : Nat) : Prop :=
  ∃ before after, calls = before ++ .reserve :: after ∧ slotCount before = i ∧
    ∀ t d, .define t d ∈ after → t.index ≠ i

/-- The id at index `i` was given a type: it is built in, was added with its type, or was defined when it
awaited this. -/
inductive Given (calls : List Call) (i : Nat) (d : Descriptor) : Prop
  | builtin (h : Descriptor.builtins[i]? = some d)
  | added {before after : List Call} {call : Call} (hcalls : calls = before ++ call :: after)
      (hindex : slotCount before = i) (hadded : call.added? = some d)
  | defined {before after : List Call} {t : TypeId} (hcalls : calls = before ++ .define t d :: after)
      (hindex : t.index = i) (hawaits : Awaits before i)

theorem ofCalls_concat (calls : List Call) (call : Call) :
    ofCalls (calls ++ [call]) = call.run (ofCalls calls) := by
  rw [ofCalls, List.foldl_append]
  rfl

theorem slotCount_concat (calls : List Call) (call : Call) :
    slotCount (calls ++ [call]) = slotCount calls + if call.opensSlot then 1 else 0 := by
  simp [slotCount, List.countP_append, Nat.add_assoc, List.countP_cons]

private theorem concat_eq_split {before after : List Call} {x : Call} :
    calls ++ [call] = before ++ x :: after ↔
      (calls = before ∧ x = call ∧ after = []) ∨
        ∃ rest, calls = before ++ x :: rest ∧ after = rest ++ [call] := by
  constructor
  · intro h
    rcases after.eq_nil_or_concat with rfl | ⟨rest, last, rfl⟩
    · obtain ⟨hbefore, hlast⟩ := List.append_inj' h rfl
      exact Or.inl ⟨hbefore, (List.singleton_inj.1 hlast).symm, rfl⟩
    · have hsplit : calls ++ [call] = (before ++ x :: rest) ++ [last] := by
        rw [h, List.concat_eq_append, List.append_assoc, List.cons_append]
      obtain ⟨hcalls, hlast⟩ := List.append_inj' hsplit rfl
      obtain rfl := List.singleton_inj.1 hlast
      exact Or.inr ⟨rest, hcalls, List.concat_eq_append⟩
  · rintro (⟨rfl, rfl, rfl⟩ | ⟨rest, rfl, rfl⟩)
    · rfl
    · rw [List.append_assoc, List.cons_append]

theorem awaits_concat : Awaits (calls ++ [call]) i ↔
    (call = .reserve ∧ slotCount calls = i) ∨ (Awaits calls i ∧ ∀ t d, call = .define t d → t.index ≠ i) := by
  constructor
  · rintro ⟨before, after, hcalls, hindex, hopen⟩
    rcases concat_eq_split.1 hcalls with ⟨rfl, hcall, -⟩ | ⟨rest, rfl, rfl⟩
    · exact Or.inl ⟨hcall.symm, hindex⟩
    · refine Or.inr ⟨⟨before, rest, rfl, hindex, ?_⟩, ?_⟩
      · intro t d hdefine
        exact hopen t d (List.mem_append_left _ hdefine)
      · rintro t d rfl
        exact hopen t d (List.mem_append_right _ (List.mem_singleton_self _))
  · rintro (⟨rfl, hindex⟩ | ⟨⟨before, after, rfl, hindex, hopen⟩, hcall⟩)
    · exact ⟨calls, [], rfl, hindex, by simp⟩
    · refine ⟨before, after ++ [call], by simp, hindex, ?_⟩
      intro t d hdefine
      rcases List.mem_append.1 hdefine with hdefine | hdefine
      · exact hopen t d hdefine
      · exact hcall t d (List.mem_singleton.1 hdefine).symm

theorem given_concat : Given (calls ++ [call]) i d ↔
    Given calls i d ∨ (call.added? = some d ∧ slotCount calls = i) ∨
      ∃ t, call = .define t d ∧ t.index = i ∧ Awaits calls i := by
  constructor
  · rintro (hbuiltin | ⟨hcalls, hindex, hadded⟩ | ⟨hcalls, hindex, hawaits⟩)
    · exact Or.inl (.builtin hbuiltin)
    · rcases concat_eq_split.1 hcalls with ⟨rfl, rfl, -⟩ | ⟨rest, rfl, -⟩
      · exact Or.inr (Or.inl ⟨hadded, hindex⟩)
      · exact Or.inl (.added rfl hindex hadded)
    · rcases concat_eq_split.1 hcalls with ⟨rfl, hcall, -⟩ | ⟨rest, rfl, -⟩
      · exact Or.inr (Or.inr ⟨_, hcall.symm, hindex, hawaits⟩)
      · exact Or.inl (.defined rfl hindex hawaits)
  · rintro (hgiven | ⟨hadded, hindex⟩ | ⟨t, rfl, hindex, hawaits⟩)
    · cases hgiven with
      | builtin h => exact .builtin h
      | added hcalls hindex hadded =>
        exact .added (concat_eq_split.2 (Or.inr ⟨_, hcalls, rfl⟩)) hindex hadded
      | defined hcalls hindex hawaits =>
        exact .defined (concat_eq_split.2 (Or.inr ⟨_, hcalls, rfl⟩)) hindex hawaits
    · exact .added rfl hindex hadded
    · exact .defined rfl hindex hawaits

/-- The state of a builder as its history tells it. -/
structure Tells (calls : List Call) (b : Builder) : Prop where
  size : b.slots.size = slotCount calls
  awaits : ∀ i, b.slots[i]? = some none ↔ Awaits calls i
  given : ∀ i d, b.slots[i]? = some (some d) ↔ Given calls i d

private theorem tells_new : Tells [] .new := by
  have hslot (i : Nat) : new.slots[i]? = (Descriptor.builtins[i]?).map some := by
    rw [new, List.getElem?_toArray, List.getElem?_map]
  refine ⟨rfl, ?_, ?_⟩
  · intro i
    constructor
    · intro h
      rw [hslot] at h
      obtain ⟨d, -, hd⟩ := Option.map_eq_some_iff.1 h
      cases hd
    · rintro ⟨before, after, hcalls, -⟩
      simp at hcalls
  · intro i d
    rw [hslot, Option.map_eq_some_iff]
    constructor
    · rintro ⟨d', hd', hd⟩
      obtain rfl := Option.some.inj hd
      exact .builtin hd'
    · rintro (h | ⟨hcalls, -, -⟩ | ⟨hcalls, -, -⟩)
      · exact ⟨d, h, rfl⟩
      · simp at hcalls
      · simp at hcalls

private theorem Tells.push {b : Builder} (h : Tells calls b) (slot : Option Descriptor)
    (hopens : call.opensSlot = true) (hslot : call.added? = slot) :
    Tells (calls ++ [call]) ⟨b.slots.push slot⟩ := by
  have hreserve : call = .reserve ↔ slot = none := by
    subst hslot
    cases call <;> simp [Call.added?]
    cases hopens
  have hdefine (t : TypeId) (d : Descriptor) : call ≠ .define t d := by
    rintro rfl
    cases hopens
  have hend : b.slots[slotCount calls]? = none := Array.getElem?_eq_none h.size.le
  have hawaits : ¬Awaits calls (slotCount calls) := by
    rw [← h.awaits, hend]
    simp
  have hgiven (d : Descriptor) : ¬Given calls (slotCount calls) d := by
    rw [← h.given, hend]
    simp
  refine ⟨?_, ?_, ?_⟩
  · rw [Array.size_push, slotCount_concat, h.size, hopens, if_pos rfl]
  · intro i
    rw [awaits_concat, Array.getElem?_push, h.size, hreserve]
    by_cases hi : i = slotCount calls
    · subst hi
      simp [hawaits]
    · rw [if_neg hi, h.awaits]
      simp [Ne.symm hi, hdefine]
  · intro i d
    rw [given_concat, Array.getElem?_push, h.size, hslot]
    by_cases hi : i = slotCount calls
    · subst hi
      simp [hgiven, hdefine]
    · rw [if_neg hi, h.given]
      simp [Ne.symm hi, hdefine]

theorem define_eq_ok {b b' : Builder} {t : TypeId} : b.define t d = .ok b' ↔
    b.slots[t.index]? = some none ∧ b' = ⟨b.slots.setIfInBounds t.index (some d)⟩ := by
  unfold Builder.define
  rcases hslot : b.slots[t.index]? with - | - | d'
  · simp
  · simp [eq_comm]
  · simp

theorem awaits_define {t : TypeId} :
    Awaits (calls ++ [.define t d]) i ↔ Awaits calls i ∧ t.index ≠ i := by
  simp [awaits_concat]

theorem given_define {t : TypeId} {e : Descriptor} :
    Given (calls ++ [.define t e]) i d ↔ Given calls i d ∨ (e = d ∧ t.index = i ∧ Awaits calls i) := by
  simp [given_concat, Call.added?]

theorem Call.run_define_ok {b b' : Builder} {t : TypeId} (h : b.define t d = .ok b') :
    Call.run b (.define t d) = b' := by
  simp only [Call.run, h]

theorem Call.run_define_error {b : Builder} {t : TypeId} {e : TypeError} (h : b.define t d = .error e) :
    Call.run b (.define t d) = b := by
  simp only [Call.run, h]

theorem slotCount_define (calls : List Call) (t : TypeId) (d : Descriptor) :
    slotCount (calls ++ [.define t d]) = slotCount calls := by
  simp [slotCount_concat, Call.opensSlot]

private theorem Tells.defined {b : Builder} {t : TypeId} (h : Tells calls b)
    (hslot : b.slots[t.index]? = some none) (d : Descriptor) :
    Tells (calls ++ [.define t d]) ⟨b.slots.setIfInBounds t.index (some d)⟩ := by
  have hawaits : Awaits calls t.index := (h.awaits _).1 hslot
  have hlt : t.index < b.slots.size := (Array.getElem?_eq_some_iff.1 hslot).1
  refine ⟨?_, ?_, ?_⟩
  · rw [slotCount_define, ← h.size, Array.size_setIfInBounds]
  · intro i
    rw [awaits_define, Array.getElem?_setIfInBounds]
    by_cases hi : t.index = i
    · subst hi
      simp [hlt]
    · rw [if_neg hi, h.awaits]
      simp [hi]
  · intro i e
    rw [given_define, Array.getElem?_setIfInBounds]
    by_cases hi : t.index = i
    · subst hi
      have hgiven : ¬Given calls t.index e := by
        rw [← h.given, hslot]
        simp
      simp [hlt, hgiven, hawaits]
    · rw [if_neg hi, h.given]
      simp [hi]

private theorem Tells.refused {b : Builder} {t : TypeId} (h : Tells calls b)
    (hnot : ¬Awaits calls t.index) (d : Descriptor) : Tells (calls ++ [.define t d]) b := by
  refine ⟨h.size.trans (slotCount_define calls t d).symm, ?_, ?_⟩
  · intro i
    rw [awaits_define, h.awaits]
    constructor
    · intro hi
      refine ⟨hi, ?_⟩
      rintro rfl
      exact hnot hi
    · exact And.left
  · intro i e
    rw [given_define, h.given]
    constructor
    · exact Or.inl
    · rintro (hi | ⟨-, rfl, hi⟩)
      · exact hi
      · exact absurd hi hnot

private theorem Tells.define {b : Builder} (h : Tells calls b) (t : TypeId) (d : Descriptor) :
    Tells (calls ++ [.define t d]) (Call.run b (.define t d)) := by
  cases hdefine : b.define t d with
  | ok b' =>
    rw [Call.run_define_ok hdefine]
    obtain ⟨hslot, rfl⟩ := define_eq_ok.1 hdefine
    exact h.defined hslot d
  | error e =>
    rw [Call.run_define_error hdefine]
    refine h.refused ?_ d
    rw [← h.awaits]
    intro hslot
    have hok := define_eq_ok (d := d).2 ⟨hslot, rfl⟩
    rw [hdefine] at hok
    cases hok

theorem tells_ofCalls (calls : List Call) : Tells calls (ofCalls calls) := by
  induction calls using List.reverseRecOn with
  | nil => exact tells_new
  | append_singleton calls call ih =>
    rw [ofCalls_concat]
    cases call with
    | add d => exact ih.push (some d) rfl rfl
    | function args ret => exact ih.push _ rfl rfl
    | reserve => exact ih.push none rfl rfl
    | define t d => exact ih.define t d

/-- The class at index `i` names the type at index `j` as its super class. -/
def GivenSuper (calls : List Call) (i j : Nat) : Prop :=
  ∃ c up, Given calls i (.object c) ∧ c.super = some up ∧ up.index = j

/-- A history that leaves nothing open: every id that was set aside is defined, every id that is mentioned
was handed out, what a class extends is a class, and no class is its own ancestor. -/
structure Complete (calls : List Call) : Prop where
  defined : ∀ i, ¬Awaits calls i
  mentioned : ∀ i d t, Given calls i d → d.Mentions t → t.index < slotCount calls
  supers : ∀ i c up, Given calls i (.object c) → c.super = some up →
    ∃ parent, Given calls up.index (.object parent)
  acyclic : ∀ i, ¬Relation.TransGen (GivenSuper calls) i i

private theorem forall_not_awaits_iff : (∀ i, ¬Awaits calls i) ↔
    ∃ ds : List Descriptor, (ofCalls calls).slots.toList = ds.map some := by
  constructor
  · intro h
    have hsome : ∀ slot ∈ (ofCalls calls).slots.toList, ∃ d, some d = slot := by
      intro slot hslot
      cases slot with
      | some d => exact ⟨d, rfl⟩
      | none =>
        obtain ⟨i, hi⟩ := List.mem_iff_getElem?.1 hslot
        rw [Array.getElem?_toList] at hi
        exact absurd (((tells_ofCalls calls).awaits i).1 hi) (h i)
    have hrange : (ofCalls calls).slots.toList ∈ Set.range (List.map some) := by
      rw [Set.range_list_map]
      exact hsome
    obtain ⟨ds, hds⟩ := hrange
    exact ⟨ds, hds.symm⟩
  · rintro ⟨ds, hds⟩ i hawaits
    rw [← (tells_ofCalls calls).awaits, ← Array.getElem?_toList, hds, List.getElem?_map] at hawaits
    obtain ⟨d, -, hd⟩ := Option.map_eq_some_iff.1 hawaits
    cases hd

section

variable {ds : List Descriptor} (hds : (ofCalls calls).slots.toList = ds.map some)

include hds

private theorem given_iff : Given calls i d ↔ ds[i]? = some d := by
  rw [← (tells_ofCalls calls).given, ← Array.getElem?_toList, hds, List.getElem?_map,
    Option.map_eq_some_iff]
  simp

private theorem slotCount_eq : slotCount calls = ds.length := by
  rw [← (tells_ofCalls calls).size, ← Array.length_toList, hds, List.length_map]

private theorem complete_iff : Complete calls ↔
    danglingReference? ds = none ∧ checkInheritance ds.toArray ds = .ok () := by
  have hsuper : GivenSuper calls = Extends ds := by
    funext i j
    simp only [GivenSuper, Extends, given_iff hds]
  rw [checkInheritance_iff_acyclic, danglingReference?_eq_none]
  constructor
  · intro h
    refine ⟨?_, ?_, ?_⟩
    · intro d hd u hu
      obtain ⟨i, hi⟩ := List.mem_iff_getElem?.1 hd
      rw [← slotCount_eq hds]
      exact h.mentioned i d u ((given_iff hds).2 hi) (Descriptor.mentions_iff.2 hu)
    · intro i c up hc hup
      obtain ⟨parent, hparent⟩ := h.supers i c up ((given_iff hds).2 hc) hup
      exact ⟨parent, (given_iff hds).1 hparent⟩
    · rw [← hsuper]
      exact h.acyclic
  · rintro ⟨hreferences, hclasses, hacyclic⟩
    refine ⟨forall_not_awaits_iff.2 ⟨ds, hds⟩, ?_, ?_, ?_⟩
    · intro i d t hgiven ht
      rw [slotCount_eq hds]
      exact hreferences d (List.mem_of_getElem? ((given_iff hds).1 hgiven)) t (Descriptor.mentions_iff.1 ht)
    · intro i c up hc hup
      obtain ⟨parent, hparent⟩ := hclasses i c up ((given_iff hds).1 hc) hup
      exact ⟨parent, (given_iff hds).2 hparent⟩
    · rw [hsuper]
      exact hacyclic

end

theorem build_iff_complete : (∃ r, (ofCalls calls).build = .ok r) ↔ Complete calls := by
  constructor
  · rintro ⟨r, h⟩
    obtain ⟨ds, hds, hdangling, hinherit, -⟩ := build_eq_ok.1 h
    exact (complete_iff hds).2 ⟨hdangling, hinherit⟩
  · intro h
    obtain ⟨ds, hds⟩ := forall_not_awaits_iff.1 h.defined
    obtain ⟨hdangling, hinherit⟩ := (complete_iff hds).1 h
    exact ⟨_, build_eq_ok.2 ⟨ds, hds, hdangling, hinherit, rfl⟩⟩

theorem define_iff_awaits {t : TypeId} :
    (∃ b, (ofCalls calls).define t d = .ok b) ↔ Awaits calls t.index := by
  rw [← (tells_ofCalls calls).awaits]
  constructor
  · rintro ⟨b, h⟩
    exact (define_eq_ok.1 h).1
  · intro h
    exact ⟨_, define_eq_ok.2 ⟨h, rfl⟩⟩

end Builder

end ObjectModel
