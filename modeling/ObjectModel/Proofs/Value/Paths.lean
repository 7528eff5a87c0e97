import Mathlib.Data.List.Forall2
import ObjectModel.Proofs.Value.Separation
import ObjectModel.Proofs.Value.Tables

/-!
The paths of views: how they are written as words and read back, and which fields they lead to.
-/

set_option autoImplicit false
set_option relaxedAutoImplicit false

namespace ObjectModel

variable {r : Registry} {held : Addr → TypeId → Prop} {stale values : Set Addr} {h : Heap}
  {u : Addr} {t : TypeId}

namespace Path

/-- Offsets and slots that have room in a word. -/
def Fits : Path → Prop
  | direct offset => offset < 2 ^ 63
  | method slot => slot < slotBound
  | indirect => True

theorem ofWord_toWord {p : Path} (h : p.Fits) : ofWord p.toWord = p := by
  have hindirect : indirectWord.toNat = 2 ^ 63 := rfl
  cases p with
  | direct offset =>
    have hlt : offset < 2 ^ 63 := h
    have hnat : (UInt64.ofNat offset).toNat = offset := by
      rw [UInt64.toNat_ofNat', Nat.mod_eq_of_lt (by omega)]
    have hne : UInt64.ofNat offset ≠ indirectWord := by
      intro heq
      rw [heq, hindirect] at hnat
      omega
    have hbelow : UInt64.ofNat offset < indirectWord := by
      rw [UInt64.lt_iff_toNat_lt, hnat, hindirect]
      exact hlt
    rw [toWord, ofWord, if_neg hne, if_pos hbelow, hnat]
  | method slot =>
    have hlt : slot < 0x7FFFFFFFFFFFFFFF := h
    have hsize : UInt64.size = 2 ^ 64 := rfl
    have hnat : (UInt64.ofNat (UInt64.size - 1 - slot)).toNat = UInt64.size - 1 - slot := by
      rw [UInt64.toNat_ofNat', Nat.mod_eq_of_lt (by omega)]
    have hne : UInt64.ofNat (UInt64.size - 1 - slot) ≠ indirectWord := by
      intro heq
      rw [heq, hindirect] at hnat
      omega
    have habove : ¬UInt64.ofNat (UInt64.size - 1 - slot) < indirectWord := by
      rw [UInt64.lt_iff_toNat_lt, hnat, hindirect]
      omega
    rw [toWord, ofWord, if_neg hne, if_neg habove, hnat]
    congr 1
    omega
  | indirect => rfl

end Path

namespace View

theorem changesOnly_writePaths (m : Memory) (a : Nat) (paths : List Path) :
    Memory.ChangesOnly m (writePaths m a paths) a (paths.length * Kind.wordSize) := by
  induction paths generalizing m a with
  | nil => exact .refl m a _
  | cons p rest ih =>
    have hstep : Kind.wordSize = 8 := rfl
    have hlength : (p :: rest).length * Kind.wordSize = rest.length * 8 + 8 := by
      rw [List.length_cons, Nat.succ_mul, hstep]
    rw [writePaths, hlength]
    have hfirst := Memory.changesOnly_setWord m a p.toWord
    have hrest := ih (m.setWord a p.toWord) (a + Kind.wordSize)
    rw [hstep] at hrest
    exact (hfirst.mono le_rfl (by omega)).trans (hrest.mono (by omega) (by omega))

theorem word_writePaths (m : Memory) (a : Nat) {paths : List Path} {i : Nat} {p : Path}
    (hp : paths[i]? = some p) :
    (writePaths m a paths).word (a + i * Kind.wordSize) = p.toWord := by
  induction paths generalizing m a i with
  | nil => cases hp
  | cons q rest ih =>
    have hstep : Kind.wordSize = 8 := rfl
    rw [writePaths]
    cases i with
    | zero =>
      obtain rfl : q = p := Option.some.inj hp
      have hrest := changesOnly_writePaths (m.setWord a q.toWord) (a + Kind.wordSize) rest
      have hbefore : a + 8 ≤ a + Kind.wordSize := le_rfl
      rw [Nat.zero_mul, Nat.add_zero]
      rw [(hrest.sameOn (Or.inl hbefore)).word, Memory.word_setWord_same]
    | succ i =>
      have hplace : a + (i + 1) * Kind.wordSize = a + Kind.wordSize + i * Kind.wordSize := by
        rw [Nat.succ_mul]
        omega
      rw [hplace]
      exact ih (m.setWord a q.toWord) (a + Kind.wordSize) hp

theorem map_path_eq {m : Memory} {v : Addr} {paths : List Path} {n : Nat} (hn : paths.length = n)
    (hfits : ∀ p ∈ paths, p.Fits) {a : Nat} (ha : (m.word (v.toNat + pathsOffset)).toNat = a)
    (hwords : ∀ i p, paths[i]? = some p → m.word (a + i * Kind.wordSize) = p.toWord) :
    (List.range n).map (path m v) = paths := by
  refine List.ext_getElem (by simp [hn]) fun i hi hi' => ?_
  rw [List.getElem_map, List.getElem_range, path, ha,
    hwords i _ (List.getElem?_eq_getElem hi'), Path.ofWord_toWord (hfits _ (List.getElem_mem hi'))]

theorem require_ok {path? : Field → Option Path} {fs : List Field} {paths : List Path}
    (hok : require path? fs = .ok paths) : List.Forall₂ (fun f p => path? f = some p) fs paths := by
  induction fs generalizing paths with
  | nil =>
    cases hok
    exact .nil
  | cons f rest ih =>
    rw [require] at hok
    cases hf : path? f with
    | none => simp [hf] at hok
    | some p =>
      rw [hf] at hok
      obtain ⟨ps, hps, rfl⟩ := Outcome.map_eq_ok.1 hok
      exact .cons hf (ih hps)

theorem require_of_isSome {path? : Field → Option Path} {fs : List Field}
    (hall : ∀ f ∈ fs, (path? f).isSome = true) : ∃ paths, require path? fs = .ok paths := by
  induction fs with
  | nil => exact ⟨[], rfl⟩
  | cons f rest ih =>
    obtain ⟨ps, hps⟩ := ih fun g hg => hall g (List.mem_cons_of_mem f hg)
    obtain ⟨p, hp⟩ := Option.isSome_iff_exists.1 (hall f List.mem_cons_self)
    exact ⟨p :: ps, by rw [require, hp, hps]; rfl⟩

theorem isSome_of_require {path? : Field → Option Path} {fs : List Field} {paths : List Path}
    (hok : require path? fs = .ok paths) {f : Field} (hf : f ∈ fs) : (path? f).isSome = true := by
  induction fs generalizing paths with
  | nil => cases hf
  | cons g rest ih =>
    rw [require] at hok
    cases hg : path? g with
    | none => simp [hg] at hok
    | some p =>
      rw [hg] at hok
      obtain ⟨ps, hps, -⟩ := Outcome.map_eq_ok.1 hok
      rcases List.mem_cons.1 hf with rfl | hf
      · rw [hg]
        rfl
      · exact ih hps hf

/-- How the fields of a view are found in a value, by the kind of the value. -/
inductive Reach (r : Registry) (m : Memory) (fs : List Field) (u : Addr) (paths : List Path) : Prop
  | instance {c : ClassLayout} : r.classLayout (m.typeOf u) = .ok c →
    List.Forall₂ (fun f p => instancePath? r c f = some p) fs paths → Reach r m fs u paths
  | openObject : r.kindAt m u = some .dynobj →
    List.Forall₂ (fun f p => openPath? r (OpenObject.table m u) f = some p) fs paths →
      Reach r m fs u paths
  | standalone {source : ViewLayout} : r.viewLayout (m.typeOf u) = .ok source →
    List.Forall₂ (fun f p => standalonePath? r source f = some p) fs paths → Reach r m fs u paths

theorem paths_ok {w : World} {m : Memory} {l : ViewLayout} {paths : List Path}
    (hok : View.paths w m l u = .ok paths) : Reach w.registry m l.fields.values u paths := by
  unfold View.paths at hok
  obtain ⟨k, hk, hok⟩ := Outcome.bind_eq_ok.1 hok
  have hkind : w.registry.kindAt m u = some k := World.kind_eq_ok.1 hk
  cases k with
  | object =>
    obtain ⟨c, hc, hok⟩ := Outcome.bind_eq_ok.1 hok
    exact .instance (Outcome.mapError_eq_ok.1 hc) (require_ok hok)
  | dynobj => exact .openObject hkind (require_ok hok)
  | virtual =>
    obtain ⟨source, hsource, hok⟩ := Outcome.bind_eq_ok.1 hok
    exact .standalone (Outcome.mapError_eq_ok.1 hsource) (require_ok hok)
  | _ => cases hok

theorem Reach.length_eq {m : Memory} {fs : List Field} {paths : List Path}
    (h : Reach r m fs u paths) : paths.length = fs.length := by
  cases h with
  | «instance» _ hall => exact hall.length_eq.symm
  | openObject _ hall => exact hall.length_eq.symm
  | standalone _ hall => exact hall.length_eq.symm

private theorem storedPath_fits {declared stored : TypeId} {offset : Nat} (hoffset : offset < 2 ^ 63) :
    (storedPath r declared offset stored).Fits := by
  unfold storedPath
  split_ifs
  · exact hoffset
  · trivial

theorem rel_getElem? {α β : Type} (R : α → β → Prop) {xs : List α} {ys : List β} {i : Nat}
    {x : α} {y : β} (h : List.Forall₂ R xs ys) (hx : xs[i]? = some x) (hy : ys[i]? = some y) : R x y := by
  obtain ⟨hi, rfl⟩ := List.getElem?_eq_some_iff.1 hx
  obtain ⟨hi', rfl⟩ := List.getElem?_eq_some_iff.1 hy
  exact h.get hi hi'

/-- Where a value that views show stores the field of a name: at an offset from the start of its storage,
with a type. -/
inductive StoredIn (r : Registry) (m : Memory) (u : Addr) (hash : NameHash) : Nat → TypeId → Prop
  | instance {c : ClassLayout} {i offset : Nat} {t : TypeId} : r.classLayout (m.typeOf u) = .ok c →
    c.resolve? hash = some (.field i offset t) → StoredIn r m u hash offset t
  | openField {f : OpenField} : r.kindAt m u = some .dynobj →
    OpenObject.find? (OpenObject.table m u) hash = some f → StoredIn r m u hash f.offset f.type
  | standalone {l : ViewLayout} {i : Nat} {p : Placed Field} : r.viewLayout (m.typeOf u) = .ok l →
    l.position? hash = some i → l.fields.get? i = some p → StoredIn r m u hash p.offset p.item.type

theorem Reach.cases_at {m : Memory} {fs : List Field} {paths : List Path} (hreach : Reach r m fs u paths)
    {i : Nat} {f : Field} {p : Path} (hf : fs[i]? = some f) (hp : paths[i]? = some p) :
    (∃ offset t, StoredIn r m u f.hash offset t ∧ p = storedPath r f.type offset t) ∨
      ∃ c slot function t, r.classLayout (m.typeOf u) = .ok c ∧
        c.resolve? f.hash = some (.method slot function t) ∧
          (p = .indirect ∨ (p = .method slot ∧ slot < Path.slotBound)) := by
  cases hreach with
  | @«instance» c hc hpaths =>
    have hpath : instancePath? r c f = some p :=
      rel_getElem? (fun f p => instancePath? r c f = some p) hpaths hf hp
    unfold instancePath? at hpath
    cases hfound : c.resolve? f.hash with
    | none => simp [hfound] at hpath
    | some found =>
      rw [hfound] at hpath
      cases found with
      | field index offset t =>
        exact Or.inl ⟨offset, t, .instance hc hfound, (Option.some.inj hpath).symm⟩
      | method slot function t =>
        refine Or.inr ⟨c, slot, function, t, hc, hfound, ?_⟩
        obtain rfl := Option.some.inj hpath
        split_ifs with hslot
        · exact Or.inr ⟨rfl, hslot.2⟩
        · exact Or.inl rfl
  | openObject hk hpaths =>
    have hpath : openPath? r (OpenObject.table m u) f = some p :=
      rel_getElem? (fun f p => openPath? r (OpenObject.table m u) f = some p) hpaths hf hp
    obtain ⟨o, ho, rfl⟩ := Option.map_eq_some_iff.1 hpath
    exact Or.inl ⟨o.offset, o.type, .openField hk ho, rfl⟩
  | @standalone source hsource hpaths =>
    have hpath : standalonePath? r source f = some p :=
      rel_getElem? (fun f p => standalonePath? r source f = some p) hpaths hf hp
    obtain ⟨j, hj, hrest⟩ := Option.bind_eq_some_iff.1 hpath
    obtain ⟨q, hq, hlast⟩ := Option.bind_eq_some_iff.1 hrest
    exact Or.inl ⟨q.offset, q.item.type, .standalone hsource hj hq, (Option.some.inj hlast).symm⟩

def rootStorage (r : Registry) (m : Memory) (u : Addr) : Addr :=
  match r.kindAt m u with
  | some .dynobj => OpenObject.storage m u
  | some .virtual => View.storage m u
  | _ => u

theorem StoredIn.holds {hash : NameHash} {offset : Nat} (hstored : StoredIn r h.memory u hash offset t)
    (hs : Arranged r stale h values) (hu : u ∈ values) (hroot : IsRoot r h.memory u) :
    ∃ b o, Holds r values h.memory b o t ∧ offset ≤ o ∧
      b.toNat + o = (rootStorage r h.memory u).toNat + offset := by
  unfold rootStorage
  cases hstored with
  | «instance» hc hfound =>
    have hobject : r.kindAt h.memory u = some .object := Registry.kind?_of_classLayout hc
    obtain ⟨q, hq, rfl, rfl⟩ := ClassLayout.mem_of_resolve? hfound
    rw [hobject]
    exact ⟨u, q.offset, .instance hu hc hq, le_rfl, rfl⟩
  | openField hk hfound =>
    rw [hk]
    exact ⟨_, _, .openField hu hk (OpenObject.mem_of_find? hfound).1, le_rfl, rfl⟩
  | @standalone l i q hl hi hq =>
    have hview : r.kindAt h.memory u = some .virtual := Registry.kind?_of_viewLayout hl
    have hzero := hroot.wrapped hview
    obtain ⟨l', hl', hat⟩ := hs.views u hu hview
    obtain rfl : l = l' := Except.ok.inj (hl.symm.trans hl')
    obtain ⟨hplace, -⟩ := hat.standalone hzero
    rw [hview]
    refine ⟨u, _, .standalone hu hl hzero (List.mem_of_getElem? hq), Nat.le_add_left _ _, ?_⟩
    change _ = (View.storage h.memory u).toNat + q.offset
    omega

theorem Reach.fits {fs : List Field} {paths : List Path} (hreach : Reach r h.memory fs u paths)
    (hs : Arranged r stale h values) (hu : u ∈ values) (hroot : IsRoot r h.memory u)
    {p : Path} (hp : p ∈ paths) : p.Fits := by
  have hmax : Heap.maxBlockSize = 0x7FFFFFFFFFFFFFF0 := rfl
  obtain ⟨i, hi⟩ := List.mem_iff_getElem?.1 hp
  have hlt : i < fs.length := hreach.length_eq ▸ (List.getElem?_eq_some_iff.1 hi).1
  rcases hreach.cases_at (List.getElem?_eq_getElem hlt) hi with
    ⟨offset, t, hstored, rfl⟩ | ⟨c, slot, function, t, -, -, rfl | ⟨rfl, hslot⟩⟩
  · obtain ⟨b, o, hb, hle, -⟩ := hstored.holds hs hu hroot
    obtain ⟨k, -, howns, -⟩ := hs.holds_range hb
    have := howns.le_max hs.blocks
    exact storedPath_fits (by omega)
  · trivial
  · exact hslot

/-- The path of a view to a field goes by the place where the value that is shown stores the field, or by
the method slot of its name. -/
theorem path_cases {x : Addr} {l : ViewLayout} {i : Nat} {f : Field} (hs : Arranged r ∅ h values)
    (hx : x ∈ values) (hl : r.viewLayout (h.memory.typeOf x) = .ok l) (hshown : wrapped h.memory x ≠ 0)
    (hf : l.fields.values[i]? = some f) :
    (∃ offset t, StoredIn r h.memory (wrapped h.memory x) f.hash offset t ∧
        path h.memory x i = storedPath r f.type offset t) ∨
      ∃ c slot function t, r.classLayout (h.memory.typeOf (wrapped h.memory x)) = .ok c ∧
        c.resolve? f.hash = some (.method slot function t) ∧
          (path h.memory x i = .indirect ∨ (path h.memory x i = .method slot ∧ slot < Path.slotBound)) := by
  have hpaths := hs.exact x hx (Set.notMem_empty x) l hl hshown
  have hi : i < l.fieldCount := by
    have hlt := (List.getElem?_eq_some_iff.1 hf).1
    rwa [Region.values, List.length_map] at hlt
  have hpath : ((List.range l.fieldCount).map (path h.memory x))[i]? = some (path h.memory x i) := by
    rw [List.getElem?_map, List.getElem?_range hi]
    rfl
  exact (paths_ok hpaths).cases_at hf hpath

end View

end ObjectModel
