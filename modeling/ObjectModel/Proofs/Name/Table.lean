import Mathlib.Data.Finset.Card
import Mathlib.Data.Prod.Lex
import ObjectModel.Machine

/-!
Which name a table gives for a hash: the first one of this hash that was recorded, after any calls. A machine
that records names starts with those of all members that its types declare, and where names share a hash, the
one that is declared first counts: types by their ids, and in a class the fields before the methods.
-/

set_option autoImplicit false
set_option relaxedAutoImplicit false

namespace ObjectModel

namespace NameTable

variable {table : NameTable} {name n : String} {names : List String} {h : NameHash}

/-- A name to hash, which is recorded if it is to be kept. A name is interned by a call that keeps it. -/
structure Call where
  name : String
  keep : Bool
  deriving DecidableEq, Repr, Inhabited

/-- The names that calls record. -/
def Call.kept (calls : List Call) : List String := (calls.filter Call.keep).map Call.name

/-- The table after calls, one after the other. -/
def afterAll (table : NameTable) (calls : List Call) : NameTable :=
  calls.foldl (fun table call => (table.hash call.name call.keep).2) table

/-- No two entries have one hash, and the hash of every entry is that of its name. -/
structure Faithful (table : NameTable) : Prop where
  unique : (table.entries.map Prod.fst).Nodup
  hashed : ∀ e ∈ table.entries, Name.hash e.2 = e.1

theorem contains_iff : table.contains h = true ↔ h ∈ table.entries.map Prod.fst := by
  rw [contains, name?, List.lookup_isSome_iff]
  simp

theorem name?_record :
    (table.record name).name? h = (table.name? h).or (if Name.hash name = h then some name else none) := by
  unfold record
  by_cases hheld : table.contains (Name.hash name) = true
  · rw [if_pos hheld]
    by_cases heq : Name.hash name = h
    · obtain ⟨n, hn⟩ := Option.isSome_iff_exists.1 (heq ▸ hheld)
      rw [hn, Option.some_or]
    · rw [if_neg heq, Option.or_none]
  · rw [if_neg hheld]
    by_cases heq : Name.hash name = h
    · have hnone : table.name? h = none := Option.not_isSome_iff_eq_none.1 (heq ▸ hheld)
      rw [hnone, if_pos heq, Option.none_or, name?, ← heq, List.lookup_cons_self]
    · have hother : (h == Name.hash name) = false := beq_false_of_ne (Ne.symm heq)
      rw [if_neg heq, Option.or_none, name?, List.lookup_cons, hother]
      rfl

/-- Of the names that are recorded, the first one of a hash counts. -/
theorem name?_recordAll :
    (table.recordAll names).name? h = (table.name? h).or (names.find? (Name.hash · == h)) := by
  unfold recordAll
  induction names generalizing table with
  | nil => rw [List.foldl_nil, List.find?_nil, Option.or_none]
  | cons name names ih =>
    rw [List.foldl_cons, ih, name?_record, Option.or_assoc]
    congr 1
    by_cases heq : Name.hash name = h
    · rw [if_pos heq, Option.some_or, List.find?_cons_of_pos (by simpa using heq)]
    · rw [if_neg heq, Option.none_or, List.find?_cons_of_neg (by simpa using heq)]

theorem afterAll_eq (table : NameTable) (calls : List Call) :
    table.afterAll calls = table.recordAll (Call.kept calls) := by
  unfold afterAll Call.kept recordAll
  induction calls generalizing table with
  | nil => rfl
  | cons call calls ih =>
    rw [List.foldl_cons, ih]
    by_cases hkeep : call.keep = true
    · rw [List.filter_cons_of_pos hkeep, List.map_cons, List.foldl_cons, hash, if_pos hkeep]
    · rw [List.filter_cons_of_neg hkeep, hash, if_neg hkeep]

namespace Faithful

theorem empty : ({} : NameTable).Faithful := ⟨.nil, fun _ he => nomatch he⟩

theorem record (hf : table.Faithful) (name : String) : (table.record name).Faithful := by
  unfold NameTable.record
  split_ifs with hheld
  · exact hf
  · refine ⟨List.nodup_cons.2 ⟨fun hmem => hheld (contains_iff.2 hmem), hf.unique⟩, fun e he => ?_⟩
    rcases List.mem_cons.1 he with rfl | he
    · rfl
    · exact hf.hashed e he

theorem recordAll (hf : table.Faithful) (names : List String) : (table.recordAll names).Faithful := by
  unfold NameTable.recordAll
  induction names generalizing table with
  | nil => exact hf
  | cons name names ih => exact ih (hf.record name)

theorem hash_of_name? (hf : table.Faithful) (hn : table.name? h = some n) : Name.hash n = h := by
  obtain ⟨before, behind, hsplit, -⟩ := List.lookup_eq_some_iff.1 hn
  exact hf.hashed (h, n) (hsplit ▸ List.mem_append_right before List.mem_cons_self)

end Faithful

theorem contains_recordAll :
    (table.recordAll names).contains h = true ↔ table.contains h = true ∨ h ∈ names.map Name.hash := by
  rw [contains, name?_recordAll, Option.isSome_or, Bool.or_eq_true, List.find?_isSome]
  simp [contains]

theorem size_recordAll (names : List String) :
    (({} : NameTable).recordAll names).size = (names.map Name.hash).toFinset.card := by
  have hf := Faithful.empty.recordAll names
  have hsame : (((({} : NameTable).recordAll names).entries).map Prod.fst).toFinset =
      (names.map Name.hash).toFinset := by
    ext h
    rw [List.mem_toFinset, List.mem_toFinset, ← contains_iff, contains_recordAll]
    exact or_iff_right Bool.false_ne_true
  rw [← hsame, List.toFinset_card_of_nodup hf.unique, List.length_map]
  rfl

/-- What is to be known of a table that was empty before calls. -/
structure Records (calls : List Call) (table : NameTable) : Prop where
  first : ∀ h, table.name? h = (Call.kept calls).find? (Name.hash · == h)
  hashed : ∀ h n, table.name? h = some n → Name.hash n = h
  lasting : ∀ h n later, table.name? h = some n → (table.afterAll later).name? h = some n
  size : table.size = ((Call.kept calls).map Name.hash).toFinset.card

theorem name?_afterAll_of_some (hn : table.name? h = some n) (later : List Call) :
    (table.afterAll later).name? h = some n := by
  rw [afterAll_eq, name?_recordAll, hn, Option.some_or]

theorem records_afterAll (calls : List Call) : Records calls (({} : NameTable).afterAll calls) := by
  rw [afterAll_eq]
  refine ⟨fun h => ?_, fun h n => (Faithful.empty.recordAll _).hash_of_name?, ?_, size_recordAll _⟩
  · rw [name?_recordAll]
    rfl
  · exact fun h n later hn => name?_afterAll_of_some hn later

end NameTable

/-! The names that a registry declares. -/

/-- Where a type declares the name of a member: the number of the type, whether the member is a method, and its
number among the fields or among the methods. They are ordered by the first of these in which they differ. -/
abbrev MemberPlace := Nat ×ₗ Bool ×ₗ Nat

def memberPlace (t : Nat) (isMethod : Bool) (i : Nat) : MemberPlace := toLex (t, toLex (isMethod, i))

/-- The names of members that types declare. A field of a class may have none. -/
inductive Registry.Declares (r : Registry) : MemberPlace → String → Prop
  | field {t i : Nat} {c : Class} {f : Field} : r.types[t]? = some (.object c) → c.fields[i]? = some f →
    f.name ≠ "" → Declares r (memberPlace t false i) f.name
  | method {t i : Nat} {c : Class} {m : Method} : r.types[t]? = some (.object c) → c.methods[i]? = some m →
    Declares r (memberPlace t true i) m.name
  | viewField {t i : Nat} {fields : List Field} {f : Field} : r.types[t]? = some (.virtual fields) →
    fields[i]? = some f → Declares r (memberPlace t false i) f.name

variable {r : Registry} {t : Nat} {isMethod : Bool} {p : MemberPlace} {n : String} {names : List String}
  {d : Descriptor} {h : NameHash} {options : Options}

/-- Names in their order, each with its place. -/
private def placed (t : Nat) (isMethod : Bool) (names : List String) : List (MemberPlace × String) :=
  names.zipIdx.map fun n => (memberPlace t isMethod n.2, n.1)

private theorem mem_placed :
    (p, n) ∈ placed t isMethod names ↔ ∃ i, names[i]? = some n ∧ p = memberPlace t isMethod i := by
  rw [placed, List.mem_map]
  constructor
  · rintro ⟨⟨n', i⟩, hmem, heq⟩
    obtain ⟨rfl, rfl⟩ := Prod.mk.inj heq
    exact ⟨i, List.mem_zipIdx_iff_getElem?.1 hmem, rfl⟩
  · rintro ⟨i, hi, rfl⟩
    exact ⟨(n, i), List.mem_zipIdx_iff_getElem?.2 hi, rfl⟩

private theorem map_snd_placed (t : Nat) (isMethod : Bool) (names : List String) :
    (placed t isMethod names).map Prod.snd = names := by
  rw [placed, List.map_map]
  exact List.zipIdx_map_fst 0 names

private theorem pairwise_placed : (placed t isMethod names).Pairwise (·.1 < ·.1) := by
  rw [placed, List.pairwise_map]
  have hnumbers : (names.zipIdx.map Prod.snd).Pairwise (· < ·) := by
    rw [List.zipIdx_map_snd]
    exact List.pairwise_lt_range'
  refine (List.pairwise_map.1 hnumbers).imp fun hlt => ?_
  exact Prod.Lex.toLex_lt_toLex.2 (.inr ⟨rfl, Prod.Lex.toLex_lt_toLex.2 (.inr ⟨rfl, hlt⟩)⟩)

/-- The names that a type declares, each with its place. -/
private def Descriptor.placedNames (t : Nat) : Descriptor → List (MemberPlace × String)
  | .object c => (placed t false (c.fields.map Field.name)).filter (·.2 != "") ++
      placed t true (c.methods.map Method.name)
  | .virtual fields => placed t false (fields.map Field.name)
  | _ => []

private theorem Descriptor.map_snd_placedNames (t : Nat) (d : Descriptor) :
    (d.placedNames t).map Prod.snd = d.memberNames := by
  cases d with
  | object c =>
    rw [placedNames, List.map_append, map_snd_placed, memberNames]
    congr 1
    conv_rhs => rw [← map_snd_placed t false (c.fields.map Field.name)]
    rw [List.filter_map]
    rfl
  | virtual fields => exact map_snd_placed _ _ _
  | _ => rfl

private theorem Descriptor.type_of_placedNames (hp : (p, n) ∈ d.placedNames t) : (ofLex p).1 = t := by
  cases d with
  | object c =>
    rcases List.mem_append.1 hp with hp | hp
    · obtain ⟨i, -, rfl⟩ := mem_placed.1 (List.mem_filter.1 hp).1
      rfl
    · obtain ⟨i, -, rfl⟩ := mem_placed.1 hp
      rfl
  | virtual fields =>
    obtain ⟨i, -, rfl⟩ := mem_placed.1 hp
    rfl
  | _ => cases hp

private theorem Descriptor.pairwise_placedNames (t : Nat) (d : Descriptor) :
    (d.placedNames t).Pairwise (·.1 < ·.1) := by
  cases d with
  | object c =>
    refine List.pairwise_append.2 ⟨pairwise_placed.filter _, pairwise_placed, ?_⟩
    rintro ⟨p, n⟩ hp ⟨q, m⟩ hq
    obtain ⟨i, -, rfl⟩ := mem_placed.1 (List.mem_filter.1 hp).1
    obtain ⟨j, -, rfl⟩ := mem_placed.1 hq
    exact Prod.Lex.toLex_lt_toLex.2 (.inr ⟨rfl, Prod.Lex.toLex_lt_toLex.2 (.inl rfl)⟩)
  | virtual fields => exact pairwise_placed
  | _ => exact .nil

/-- The names that all types declare, each with its place, in the order in which a machine records them. -/
private def Registry.placedNames (r : Registry) : List (MemberPlace × String) :=
  r.types.toList.zipIdx.flatMap fun d => d.1.placedNames d.2

private theorem Registry.map_snd_placedNames (r : Registry) :
    r.placedNames.map Prod.snd = r.types.toList.flatMap Descriptor.memberNames := by
  rw [placedNames, List.map_flatMap]
  simp only [Descriptor.map_snd_placedNames]
  conv_rhs => rw [← List.zipIdx_map_fst 0 r.types.toList, List.flatMap_map]

private theorem Registry.mem_placedNames : (p, n) ∈ r.placedNames ↔ r.Declares p n := by
  rw [placedNames, List.mem_flatMap]
  constructor
  · rintro ⟨⟨d, t⟩, hd, hp⟩
    have hget : r.types[t]? = some d := by
      rw [← Array.getElem?_toList]
      exact List.mem_zipIdx_iff_getElem?.1 hd
    cases d with
    | object c =>
      rcases List.mem_append.1 hp with hp | hp
      · obtain ⟨hp, hnamed⟩ := List.mem_filter.1 hp
        obtain ⟨i, hi, rfl⟩ := mem_placed.1 hp
        obtain ⟨f, hf, rfl⟩ := Option.map_eq_some_iff.1 (List.getElem?_map ▸ hi)
        exact .field hget hf (by simpa using hnamed)
      · obtain ⟨i, hi, rfl⟩ := mem_placed.1 hp
        obtain ⟨m, hm, rfl⟩ := Option.map_eq_some_iff.1 (List.getElem?_map ▸ hi)
        exact .method hget hm
    | virtual fields =>
      obtain ⟨i, hi, rfl⟩ := mem_placed.1 hp
      obtain ⟨f, hf, rfl⟩ := Option.map_eq_some_iff.1 (List.getElem?_map ▸ hi)
      exact .viewField hget hf
    | _ => cases hp
  · intro hdeclared
    have hmem : ∀ {t : Nat} {d : Descriptor}, r.types[t]? = some d → (d, t) ∈ r.types.toList.zipIdx := by
      intro t d hget
      rw [List.mem_zipIdx_iff_getElem?, Array.getElem?_toList]
      exact hget
    cases hdeclared with
    | field hget hf hnamed =>
      refine ⟨_, hmem hget, List.mem_append_left _ (List.mem_filter.2 ⟨mem_placed.2 ⟨_, ?_, rfl⟩, ?_⟩)⟩
      · rw [List.getElem?_map, hf]
        rfl
      · simpa using hnamed
    | method hget hm =>
      refine ⟨_, hmem hget, List.mem_append_right _ (mem_placed.2 ⟨_, ?_, rfl⟩)⟩
      rw [List.getElem?_map, hm]
      rfl
    | viewField hget hf =>
      refine ⟨_, hmem hget, mem_placed.2 ⟨_, ?_, rfl⟩⟩
      rw [List.getElem?_map, hf]
      rfl

private theorem Registry.pairwise_placedNames (r : Registry) : r.placedNames.Pairwise (·.1 < ·.1) := by
  rw [placedNames, List.pairwise_flatMap]
  refine ⟨fun d _ => d.1.pairwise_placedNames d.2, ?_⟩
  have hnumbers : (r.types.toList.zipIdx.map Prod.snd).Pairwise (· < ·) := by
    rw [List.zipIdx_map_snd]
    exact List.pairwise_lt_range'
  refine (List.pairwise_map.1 hnumbers).imp ?_
  rintro ⟨d, t⟩ ⟨d', t'⟩ hlt ⟨p, n⟩ hp ⟨q, m⟩ hq
  have hp := Descriptor.type_of_placedNames hp
  have hq := Descriptor.type_of_placedNames hq
  exact Prod.Lex.lt_iff.2 (.inl (by rw [hp, hq]; exact hlt))

private theorem find?_map_snd_iff {entries : List (MemberPlace × String)} {wanted : String → Bool}
    (hs : entries.Pairwise (·.1 < ·.1)) : (entries.map Prod.snd).find? wanted = some n ↔
      ∃ p, (p, n) ∈ entries ∧ wanted n = true ∧ ∀ q m, (q, m) ∈ entries → wanted m = true → p ≤ q := by
  induction entries with
  | nil => simp
  | cons e entries ih =>
    obtain ⟨p₀, n₀⟩ := e
    obtain ⟨hbehind, hs⟩ := List.pairwise_cons.1 hs
    rw [List.map_cons]
    by_cases hfirst : wanted n₀ = true
    · rw [List.find?_cons_of_pos hfirst]
      constructor
      · intro heq
        obtain rfl := Option.some.inj heq
        refine ⟨p₀, List.mem_cons_self, hfirst, fun q m hq _ => ?_⟩
        rcases List.mem_cons.1 hq with heq | hq
        · exact (congrArg Prod.fst heq).ge
        · exact (hbehind (q, m) hq).le
      · rintro ⟨p, hp, -, hleast⟩
        rcases List.mem_cons.1 hp with heq | hp
        · exact congrArg some (Prod.mk.inj heq).2.symm
        · exact absurd (hbehind (p, n) hp) (hleast p₀ n₀ List.mem_cons_self hfirst).not_gt
    · rw [List.find?_cons_of_neg hfirst, ih hs]
      constructor
      · rintro ⟨p, hp, hn, hleast⟩
        refine ⟨p, List.mem_cons_of_mem _ hp, hn, fun q m hq hm => ?_⟩
        rcases List.mem_cons.1 hq with heq | hq
        · exact absurd ((Prod.mk.inj heq).2 ▸ hm) hfirst
        · exact hleast q m hq hm
      · rintro ⟨p, hp, hn, hleast⟩
        rcases List.mem_cons.1 hp with heq | hp
        · exact absurd ((Prod.mk.inj heq).2 ▸ hn) hfirst
        · exact ⟨p, hp, hn, fun q m hq => hleast q m (List.mem_cons_of_mem _ hq)⟩

/-- The names that a registry declares have been added to a table: each has its hash in it, what the table said
before stays, and of the names that it has by the registry alone each is the first one of its hash. -/
structure Registry.NamesAdded (r : Registry) (before after : NameTable) : Prop where
  lasting : ∀ h n, before.name? h = some n → after.name? h = some n
  declared : ∀ p n, r.Declares p n → after.contains (Name.hash n) = true
  first : before.isEmpty = true → ∀ h n, after.name? h = some n ↔
    ∃ p, r.Declares p n ∧ Name.hash n = h ∧ ∀ q m, r.Declares q m → Name.hash m = h → p ≤ q

theorem Registry.namesAdded_recordAll (r : Registry) (table : NameTable) :
    r.NamesAdded table (table.recordAll (r.types.toList.flatMap Descriptor.memberNames)) := by
  rw [← r.map_snd_placedNames]
  refine ⟨fun h n hn => ?_, fun p n hp => ?_, fun hempty h n => ?_⟩
  · rw [NameTable.name?_recordAll, hn, Option.some_or]
  · rw [NameTable.contains_recordAll]
    exact .inr (List.mem_map_of_mem (List.mem_map_of_mem (mem_placedNames.2 hp)))
  · have hnone : table.name? h = none := by
      rw [NameTable.name?, List.isEmpty_iff.1 hempty, List.lookup_nil]
    rw [NameTable.name?_recordAll, hnone, Option.none_or, find?_map_snd_iff r.pairwise_placedNames]
    simp only [mem_placedNames, beq_iff_eq]

theorem Machine.names_start (r : Registry) (hcache : options.cacheFieldNames = true)
    (comparators : List (UInt64 × Comparator)) : (Machine.start r options comparators).world.names =
      (options.names.getD {}).recordAll (r.types.toList.flatMap Descriptor.memberNames) :=
  if_pos hcache

/-- After any calls a table gives for a hash the first name that was recorded with it, keeps to this, and has as
many names as hashes were recorded. A machine that records names starts with those of all members; if its table
was empty, the name of a hash is the one that is declared first. -/
theorem NameTable.first_name_counts (calls : List NameTable.Call) (r : Registry)
    (hcache : options.cacheFieldNames = true) (comparators : List (UInt64 × Comparator)) :
    NameTable.Records calls (({} : NameTable).afterAll calls) ∧
      r.NamesAdded (options.names.getD {}) (Machine.start r options comparators).world.names := by
  rw [Machine.names_start r hcache]
  exact ⟨NameTable.records_afterAll calls, r.namesAdded_recordAll _⟩

/-- A class with a method whose name has the hash of a field, and a virtual type with both names. -/
def Registry.homonymTypes : Registry :=
  ⟨(Descriptor.builtins ++
    [Descriptor.function [.ofIndex 13] .void,
      Descriptor.object
        { name := "Pair", fields := [⟨"", .i32⟩, ⟨"ba", .i32⟩], methods := [⟨"aŀ", 0, .ofIndex 12⟩] },
      Descriptor.virtual [⟨"aŀ", .i32⟩, ⟨"ba", .i32⟩]]).toArray⟩

/-- A name that is hashed but not kept leaves its hash to the next one, and a field comes before a method. -/
theorem homonyms_recorded :
    let calls : List NameTable.Call := [⟨"ba", false⟩, ⟨"aŀ", true⟩, ⟨"ba", true⟩]
    let table := ({} : NameTable).afterAll calls
    let names := (Machine.start .homonymTypes {}).world.names
    NameTable.Records calls table ∧ table.name? 21951 = some "aŀ" ∧ table.size = 1 ∧
      Registry.homonymTypes.NamesAdded {} names ∧ names.name? 21951 = some "ba" ∧ names.size = 1 := by
  have hcache : ({} : Options).cacheFieldNames = true := rfl
  have hboth := NameTable.first_name_counts [⟨"ba", false⟩, ⟨"aŀ", true⟩, ⟨"ba", true⟩] .homonymTypes hcache []
  exact ⟨hboth.1, by decide +kernel, by decide +kernel, hboth.2, by decide +kernel, by decide +kernel⟩

end ObjectModel
