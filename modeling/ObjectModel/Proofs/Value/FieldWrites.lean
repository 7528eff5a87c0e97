import ObjectModel.Proofs.Value.Conversions
import ObjectModel.Proofs.Value.Transparency

/-!
Writes to the fields of instances and of virtual values that stand alone. A write puts there what a cast to
the type of the field gives, and it fails exactly if the cast does. What is read from the field afterwards is
cast from what was put there, and nothing else has changed than the cast itself changes.
-/

set_option autoImplicit false
set_option relaxedAutoImplicit false

namespace ObjectModel

variable {r : Registry} {held : Addr → TypeId → Prop} {stale values : Set Addr} {h h' : Heap} {m n : Memory}
  {w : World} {u v : Addr} {hash : NameHash} {a offset : Nat} {s s' : Slot} {t type target : TypeId} {k : Kind}

namespace Arranged

theorem same_of_chainWord (hs : Arranged r stale h values) (hu : u ∈ values)
    (hn : ∀ x < h.next, x ∉ chainWord r h.memory u → n.byte x = h.memory.byte x) (hv : v ∈ values) :
    SameValue r h.memory n v ∧ SamePaths r h.memory n v := by
  by_cases hchained : IsChained r h.memory u
  · -- First this word changes, and then what lies behind all values.
    set c := chainHead r h.memory u with hc
    set m := h.memory.setBytes c (n.bytes c 8) with hm
    have hchange : Memory.ChangesOnly h.memory m c 8 := by
      have hbytes := Memory.changesOnly_setBytes h.memory c (n.bytes c 8)
      rwa [Memory.length_bytes] at hbytes
    have hword := fun x (hx : x ∈ values) => same_of_chainHead hs hu hchained hchange hx
    have hs' : Arranged r stale { h with memory := m } values :=
      hs.frame hs.blocks.withMemory (.refl h) le_rfl hword
    have hrest : Memory.SameOn m n 0 h.next := by
      intro x _ hx
      by_cases hin : c ≤ x ∧ x < c + 8
      · rw [hm, Memory.byte_setBytes, if_pos hin.1, Memory.getElem?_bytes, if_pos (by omega),
          Nat.add_sub_cancel' hin.1]
        rfl
      · rw [hn x (by omega) fun hmem => hin hmem.2, hchange x (by omega)]
    obtain ⟨hsame, hpaths, -⟩ := hs'.same_of_below hrest hv
    exact ⟨(hword v hv).1.trans hsame, .trans (hword v hv).1 (hword v hv).2 hpaths⟩
  · have hbelow : Memory.SameOn h.memory n 0 h.next :=
      fun x _ hx => hn x (by omega) fun hmem => hchained hmem.1
    obtain ⟨hsame, hpaths, -⟩ := hs.same_of_below hbelow hv
    exact ⟨hsame, hpaths⟩

theorem same_of_grown (hs : Arranged w.registry stale h values)
    (hg : GrownBut (wrappedWord w values h.memory s target) h h') (hv : v ∈ values) :
    SameValue w.registry h.memory h'.memory v ∧ SamePaths w.registry h.memory h'.memory v := by
  by_cases haddress : ∃ a ∈ values, s = .pointer a
  · obtain ⟨a, ha, rfl⟩ := haddress
    refine hs.same_of_chainWord (hs.unwrapped_mem ha) (fun x hx hout => hg.same x hx ?_) hv
    rintro ⟨b, -, hb, -, hin⟩
    obtain rfl := Slot.pointer.inj hb
    exact hout hin
  · have hbelow : Memory.SameOn h.memory h'.memory 0 h.next := by
      refine fun x _ hx => hg.same x (by omega) ?_
      rintro ⟨b, hb, heq, -⟩
      exact haddress ⟨b, hb, heq⟩
    obtain ⟨hsame, hpaths, -⟩ := hs.same_of_below hbelow hv
    exact ⟨hsame, hpaths⟩

theorem write_field {b : Addr} {o : Nat} (hs : Arranged r stale h values)
    (hb : Holds r values h.memory b o t) (hk : r.kind? t = some k) (hfits : s.fits k = true)
    (hm : m = h.memory.write (b.toNat + o) s) :
    Arranged r stale { h with memory := m } values ∧ ∀ v ∈ values, SameValue r h.memory m v := by
  have hchange : Memory.ChangesOnly h.memory m (b.toNat + o) k.size := by
    rw [hm, ← Slot.width_of_fits hfits]
    exact Memory.changesOnly_write h.memory (b.toNat + o) s
  have hsame := fun v (hv : v ∈ values) => hs.same_of_field hb hk hchange hv
  refine ⟨hs.frame hs.blocks.withMemory (.refl h) le_rfl fun v hv => ?_, fun v hv => (hsame v hv).1⟩
  exact ⟨(hsame v hv).1, (hsame v hv).2.1⟩

end Arranged

/-! What a root stores is found where it was as long as the root reads the same. -/

theorem View.StoredIn.same (hsame : SameValue r m n u) (hstored : StoredIn r m u hash offset t) :
    StoredIn r n u hash offset t := by
  cases hstored with
  | «instance» hc hfound =>
    rw [← hsame.type] at hc
    exact .instance hc hfound
  | openField hk hfound =>
    rw [← hsame.table hk] at hfound
    exact .openField (hsame.kindAt.trans hk) hfound
  | standalone hl hi hp =>
    rw [← hsame.type] at hl
    exact .standalone hl hi hp

theorem View.rootStorage_same (hsame : SameValue r m n u) : rootStorage r n u = rootStorage r m u := by
  unfold rootStorage
  rw [hsame.kindAt]
  cases hk : r.kindAt m u with
  | none => rfl
  | some k =>
    cases k with
    | dynobj => exact hsame.openStorage hk
    | virtual => exact hsame.storage hk
    | _ => rfl

theorem Access.stored_root (hs : Arranged w.registry ∅ h values) (hu : u ∈ values)
    (hroot : IsRoot w.registry h.memory u) (hlocated : locate w h.memory u hash = .ok (.stored a t)) :
    (∃ offset, View.StoredIn w.registry h.memory u hash offset t ∧
        a = (View.rootStorage w.registry h.memory u).toNat + offset) ∧
      ∃ b o, Holds w.registry values h.memory b o t ∧ b.toNat + o = a := by
  rcases locate_root hs hu hroot hlocated with ⟨offset, t', hstored, heq⟩ | ⟨_, _, heq⟩
  · obtain ⟨rfl, rfl⟩ := Target.stored.inj heq
    obtain ⟨b, o, hb, -, hplace⟩ := hstored.holds hs hu hroot
    exact ⟨⟨offset, hstored, rfl⟩, b, o, hb, hplace⟩
  · cases heq

theorem Access.locate_same (hs : Arranged w.registry ∅ h values) (hs' : Arranged w.registry ∅ h' values)
    (hu : u ∈ values) (hroot : IsRoot w.registry h.memory u)
    (hsame : SameValue w.registry h.memory h'.memory u)
    (hlocated : locate w h.memory u hash = .ok (.stored a t)) :
    locate w h'.memory u hash = .ok (.stored a t) := by
  obtain ⟨⟨offset, hstored, rfl⟩, -⟩ := stored_root hs hu hroot hlocated
  rw [locate_of_storedIn hs' hu (hroot.same hsame) (hstored.same hsame), View.rootStorage_same hsame]

namespace Action

theorem cast_of_fits (hk : w.registry.kind? t = some k) (hfits : s.fits k = true) (target : TypeId) :
    cast s t target w h = convert s t target w h := by
  unfold cast
  rw [ask_bind_ok (World.kind_eq_ok.2 hk), if_pos hfits]

/-- Where a name leads to a stored field, what is read is the content of the field, cast from the type of
the field. -/
theorem get_of_stored (hlocated : Access.locate w h.memory v hash = .ok (.stored a type))
    (hk : w.registry.kind? type = some k) (t : TypeId) :
    get v hash t w h = cast (h.memory.read a k) type t w h := by
  have hfits : (h.memory.read a k).fits k = true := Slot.fits_ofWord k _
  rw [cast_of_fits hk hfits]
  unfold get
  change getFrom hash t _ v w h = _
  rw [getFrom.eq_def]
  dsimp only
  rw [ask_bind_ok hlocated]
  dsimp only
  cases ht : w.kind t with
  | error e =>
    unfold convert
    rw [bind_error (ask_error ht), bind_error (ask_error ht)]
  | ok l =>
    rw [ask_bind_ok ht, ask_bind_ok (World.kind_eq_ok.2 hk)]
    rfl

/-- Where a name leads to a stored field, and not in an open object, a slot is cast to the type of the field
and then written there. -/
theorem set_of_stored {l : Kind} (hl : w.registry.kindAt h.memory v = some l) (hopen : l ≠ .dynobj)
    (hlocated : Access.locate w h.memory v hash = .ok (.stored a type))
    (hk : w.registry.kind? t = some k) (hfits : s.fits k = true) :
    set v hash t s w h = (cast s t type >>= fun s' => change (·.write a s')) w h := by
  have hkind : w.kindOf h.memory v = .ok l := World.kind_eq_ok.2 hl
  rw [bind_congr (cast_of_fits hk hfits type)]
  unfold set
  rw [ask_bind_ok (World.kind_eq_ok.2 hk), if_pos hfits]
  change setFrom hash t s _ v w h = _
  rw [setFrom.eq_def]
  dsimp only
  rw [ask_bind_ok hkind, if_neg hopen, ask_bind_ok hlocated]

end Action

/-- The field that a name finds in a value, at `a`, of the given type and kind, has got a slot: its bytes are
those of the slot, and what is read from it is the slot, or what the slot is cast to. In the blocks that
there were no other byte has changed, but for those in `touched`. -/
structure FieldSet (w : World) (touched : Set Nat) (h h' : Heap) (v : Addr) (hash : NameHash) (a : Nat)
    (type : TypeId) (k : Kind) (s : Slot) : Prop where
  fits : s.fits k = true
  bytes : h'.memory.load a k.size = s.word
  get_type : Action.get v hash type w h' = (.ok s, h')
  get_cast : ∀ t, Action.get v hash t w h' = Action.cast s type t w h'
  blocks : h.Extends h'
  frame : ∀ x, h.Contains x → x < a ∨ a + k.size ≤ x → x ∉ touched →
    h'.memory.byte x = h.memory.byte x

theorem Arranged.set_field (hs : Arranged w.registry ∅ h values) (hv : v ∈ values)
    (hroot : IsRoot w.registry h.memory v)
    (hlocated : Access.locate w h.memory v hash = .ok (.stored a type))
    (hk : w.registry.kind? type = some k) (hfits : s'.fits k = true)
    (hg : GrownBut (wrappedWord w values h.memory s target) h h') (hm : m = h'.memory.write a s') :
    Arranged w.registry ∅ { h' with memory := m } values ∧
      ∀ x ∈ values, SameValue w.registry h.memory m x := by
  have hsame := fun x (hx : x ∈ values) => hs.same_of_grown hg hx
  have hs₁ : Arranged w.registry ∅ h' values := hs.frame hg.wellFormed hg.blocks hg.next hsame
  have hlocated₁ := Access.locate_same hs hs₁ hv hroot (hsame v hv).1 hlocated
  obtain ⟨-, b, o, hb, rfl⟩ := Access.stored_root hs₁ hv (hroot.same (hsame v hv).1) hlocated₁
  obtain ⟨hs₂, hsame₂⟩ := hs₁.write_field hb hk hfits hm
  exact ⟨hs₂, fun x hx => (hsame x hx).1.trans (hsame₂ x hx)⟩

theorem fieldSet_of_grown (hs : Arranged w.registry ∅ h values) (hv : v ∈ values)
    (hroot : IsRoot w.registry h.memory v)
    (hlocated : Access.locate w h.memory v hash = .ok (.stored a type))
    (hk : w.registry.kind? type = some k) (hfits : s'.fits k = true)
    (hg : GrownBut (wrappedWord w values h.memory s target) h h') (hm : m = h'.memory.write a s') :
    FieldSet w (wrappedWord w values h.memory s target) h { h' with memory := m } v hash a type k s' := by
  obtain ⟨hs', hsame⟩ := hs.set_field hv hroot hlocated hk hfits hg hm
  have hlocated' := Access.locate_same hs hs' hv hroot (hsame v hv) hlocated
  have hwidth : s'.width = k.size := Slot.width_of_fits hfits
  have hread : m.read a k = s' := by
    rw [hm, Memory.read_write_same _ _ hfits]
  have hget : ∀ t, Action.get v hash t w { h' with memory := m } =
      Action.cast s' type t w { h' with memory := m } := by
    intro t
    have hstored := Action.get_of_stored hlocated' hk t
    rwa [hread] at hstored
  refine ⟨hfits, ?_, ?_, hget, hg.blocks, fun x hx hout htouched => ?_⟩
  · change m.load a k.size = s'.word
    rw [hm, ← hwidth, Memory.write, Memory.load_store_same, Nat.mod_eq_of_lt (Memory.word_lt_width s')]
  · rw [hget type, Action.cast_of_fits hk hfits,
      Action.convert_same hk hfits (Registry.sameType_refl _ _)]
  · change m.byte x = h.memory.byte x
    rw [hm, Memory.changesOnly_write h'.memory a s' x (by omega),
      hg.same x (hx.lt_next hs.blocks) htouched]

/-- In every heap that a program can have, a write to a stored field of an instance or of a virtual value that
stands alone puts there what a cast to the type of the field gives, and it succeeds exactly if the cast does.
If it fails, the heap stays. -/
theorem Reachable.set_stored (hb : r.Built) (hr : Reachable r held h values) (hw : w.registry = r)
    (hv : v ∈ values)
    (hkind : r.kindAt h.memory v = some .object ∨
      (r.kindAt h.memory v = some .virtual ∧ View.wrapped h.memory v = 0))
    (hlocated : Access.locate w h.memory v hash = .ok (.stored a type)) (hslot : Suits r values t s) :
    ∃ k, r.kind? type = some k ∧
      ((∃ h', Action.set v hash t s w h = (.ok (), h')) ↔
        ∃ s' h', Action.cast s t type w h = (.ok s', h')) ∧
      (∀ s' h₁, Action.cast s t type w h = (.ok s', h₁) →
        ∃ h', Action.set v hash t s w h = (.ok (), h') ∧
          FieldSet w (wrappedWord w values h.memory s type) h h' v hash a type k s') ∧
      ∀ e h', Action.set v hash t s w h = (.error (.error e), h') → h' = h := by
  subst hw
  have hs := hr.sound hb
  have hroot : IsRoot w.registry h.memory v := hkind.imp_right Or.inr
  obtain ⟨l, hl, hopen⟩ : ∃ l, w.registry.kindAt h.memory v = some l ∧ l ≠ .dynobj := by
    rcases hkind with hobject | ⟨hview, -⟩
    · exact ⟨_, hobject, by decide⟩
    · exact ⟨_, hview, by decide⟩
  obtain ⟨-, b, o, hholds, -⟩ := Access.stored_root hs.arranged hv hroot hlocated
  obtain ⟨k, hk, -⟩ := hs.arranged.holds_range hholds
  obtain ⟨k', hk', hfits, -⟩ := id hslot
  have hset := Action.set_of_stored hl hopen hlocated hk' hfits
  have hcast : (Action.cast s t type).Ends w h _ (· = h) := Action.cast_grows hs hslot
  refine ⟨k, hk, ⟨?_, ?_⟩, ?_, ?_⟩
  · rintro ⟨h', hrun⟩
    rw [hset] at hrun
    obtain ⟨s', h₁, hrun, -⟩ := Action.bind_eq_ok.1 hrun
    exact ⟨s', h₁, hrun⟩
  · rintro ⟨s', h₁, hrun⟩
    exact ⟨_, hset.trans (Action.bind_ok hrun)⟩
  · intro s' h₁ hrun
    have hconvert := hrun
    rw [Action.cast_of_fits hk' hfits] at hconvert
    refine ⟨_, hset.trans (Action.bind_ok hrun), ?_⟩
    exact fieldSet_of_grown hs.arranged hv hroot hlocated hk ((Action.convert_fits hk).of_ok hconvert)
      (hcast.of_ok hrun) rfl
  · intro e h' hrun
    rw [hset] at hrun
    have hends : (Action.cast s t type >>= fun s' => Action.change (·.write a s')).Ends w h
        (fun _ _ => True) (· = h) :=
      hcast.bind (fun _ => id) fun _ _ _ => Action.Ends.change trivial
    exact hends.of_error hrun

/-! A class with a field of a virtual type. -/

def Registry.holderTypes : Registry :=
  ⟨(Descriptor.builtins ++
    ([.object ⟨"Holder", none, [⟨"low", .i8⟩, ⟨"view", .ofIndex 13⟩], []⟩,
      .virtual [⟨"flag", .bool⟩]] : List Descriptor)).toArray⟩

theorem Registry.holderTypes_built : Registry.holderTypes.Built :=
  .of_adds (Registry.holderTypes.types.toList.drop Descriptor.builtins.length) (by decide +kernel)
    (by decide +kernel)

/-- An open object is written to the field: the view that is made for it becomes the first one in its
chain. -/
theorem view_of_openObject_set : ∃ h values h' s,
    Reachable .holderTypes (fun _ _ => False) h values ∧
    Action.set 0x10010 (Name.hash "view") .dynobj (.pointer 0x10040) (.ofTypes .holderTypes) h = (.ok (), h') ∧
    FieldSet (.ofTypes .holderTypes)
      (wrappedWord (.ofTypes .holderTypes) values h.memory (.pointer 0x10040) (.ofIndex 13)) h h' 0x10010
      (Name.hash "view") 0x10020 (.ofIndex 13) .virtual s ∧
    h'.memory.word 0x10060 ≠ h.memory.word 0x10060 := by
  let w : World := .ofTypes .holderTypes
  let h₀ := (Action.newInstance (.ofIndex 12) w {}).2
  let h₁ := (Action.newOpenObject w h₀).2
  let h₂ := (Action.set 0x10040 (Name.hash "flag") .bool (.bool true) w h₁).2
  have hnew : Action.newInstance (.ofIndex 12) w {} = (.ok 0x10010, h₀) :=
    Action.eq_of_fst (by decide +kernel)
  have hopen : Action.newOpenObject w h₀ = (.ok 0x10040, h₁) := Action.eq_of_fst (by decide +kernel)
  have hflag : Action.set 0x10040 (Name.hash "flag") .bool (.bool true) w h₁ = (.ok (), h₂) :=
    Action.eq_of_fst (by decide +kernel)
  have hb : w.registry.Built := Registry.holderTypes_built
  have hstart : Reachable .holderTypes (fun _ _ => False) {} ∅ := .start none
  obtain ⟨values₀, -, hr₀, hv₀, -⟩ := hstart.after_keeps rfl (.newInstance (.ofIndex 12))
    (Action.newInstance_keeps (hstart.sound hb)) hnew
  obtain ⟨values₁, hsub₁, hr₁, ho₁, -⟩ := hr₀.after_keeps rfl .newOpenObject
    (Action.newOpenObject_keeps hb (hr₀.sound hb)) hopen
  obtain ⟨values, hsub, hr⟩ := hr₁.after rfl
    (.set (t := .bool) (s := .bool true) _ ho₁ (.of_numeric (k := .bool) rfl rfl rfl)) hflag
  have hv : 0x10010 ∈ values := hsub (hsub₁ hv₀)
  have ho : 0x10040 ∈ values := hsub ho₁
  have hkind : Registry.holderTypes.kindAt h₂.memory 0x10010 = some .object := by decide +kernel
  have hlocated : Access.locate w h₂.memory 0x10010 (Name.hash "view") =
      .ok (.stored 0x10020 (.ofIndex 13)) := by
    decide +kernel
  have hslot : Suits .holderTypes values .dynobj (.pointer 0x10040) := by
    refine ⟨.dynobj, by decide +kernel, rfl, ?_⟩
    rintro a heq - -
    obtain rfl := Slot.pointer.inj heq
    exact ho
  obtain ⟨k, hk, -, hdone, -⟩ := hr.set_stored hb rfl hv (Or.inl hkind) hlocated hslot
  obtain rfl : Kind.virtual = k := Option.some.inj hk
  have hcast := Action.eq_of_fst (x := Action.cast (.pointer 0x10040) .dynobj (.ofIndex 13)) (w := w)
    (h := h₂) (a := .pointer 0x100C0) (by decide +kernel)
  obtain ⟨h', hset, hfield⟩ := hdone _ _ hcast
  refine ⟨h₂, values, h', _, hr, hset, hfield, ?_⟩
  obtain rfl : _ = h' := congrArg Prod.snd hset
  decide +kernel

end ObjectModel
