import ObjectModel.Proofs.Value.Termination

/-!
The identity of views. An open object, or a virtual value that stands alone, is seen at a type as one value,
whether it is asked itself or a view of it: as itself if it is of the type, and else as the only view of the
type in its chain. What a view shows never changes, and views of a chained value do not leave the chain, so a
program that asks again gets the same view at any later time. An instance has no chain; of its views each is
only found again when it is asked itself.
-/

set_option autoImplicit false
set_option relaxedAutoImplicit false

namespace ObjectModel

variable {r : Registry} {held : Addr → TypeId → Prop} {values values' : Set Addr} {h h' : Heap}
  {u v x y : Addr} {t t' : TypeId} {m m' : Memory} {w : World}

/-- What a root is seen as at a type: as itself if it is of the type, and else as a view of the type that
shows it. -/
structure SeenAs (r : Registry) (values : Set Addr) (m : Memory) (t : TypeId) (u x : Addr) : Prop where
  mem : x ∈ values
  type : r.sameType (m.typeOf x) t = true
  kind : r.kindAt m x = some .virtual
  self : r.sameType (m.typeOf u) t = true → x = u
  shown : r.sameType (m.typeOf u) t = false → View.wrapped m x = u

namespace SeenAs

theorem of_rootOf (hs : Arranged r ∅ h values) (hx : x ∈ values)
    (htype : r.sameType (h.memory.typeOf x) t = true) (hk : r.kindAt h.memory x = some .virtual)
    (hroot : RootOf r h.memory u x) : SeenAs r values h.memory t u x := by
  refine ⟨hx, htype, hk, fun hself => ?_, fun hother => ?_⟩
  · rcases hroot.reached with heq | ⟨-, hwrapped⟩
    · exact heq
    · obtain ⟨l, -, hat⟩ := hs.views x hx hk
      have hdiffers := hat.differs (hwrapped ▸ hroot.ne_zero)
      rw [hwrapped, Registry.sameType_trans htype (Registry.sameType_symm hself)] at hdiffers
      cases hdiffers
  · rcases hroot.reached with rfl | ⟨-, hwrapped⟩
    · rw [htype] at hother
      cases hother
    · exact hwrapped

theorem of_sameType (hx : SeenAs r values m t u x) (h : r.sameType t t' = true) :
    SeenAs r values m t' u x := by
  refine ⟨hx.mem, Registry.sameType_trans hx.type h, hx.kind, fun hself => ?_, fun hother => ?_⟩
  · exact hx.self (Registry.sameType_trans hself (Registry.sameType_symm h))
  · refine hx.shown (Bool.eq_false_iff.2 fun hself => ?_)
    rw [Registry.sameType_trans hself h] at hother
    cases hother

theorem goesOn (hx : SeenAs r values m t u x) (hg : GoesOn r values m values' m') (hu : u ∈ values) :
    SeenAs r values' m' t u x := by
  refine ⟨hg.subset hx.mem, ?_, (hg.kindAt hx.mem).trans hx.kind, ?_, ?_⟩
  · rw [hg.type x hx.mem]
    exact hx.type
  · rw [hg.type u hu]
    exact hx.self
  · rw [hg.type u hu, hg.wrapped x hx.mem hx.kind]
    exact hx.shown

/-- The types in a chain differ, so that a chained value is seen at a type as one value only. -/
theorem unique (hs : Ordered r ∅ h values) (hu : u ∈ values) (hchained : IsChained r h.memory u)
    (hx : SeenAs r values h.memory t u x) (hy : SeenAs r values h.memory t u y) : x = y := by
  cases hself : r.sameType (h.memory.typeOf u) t with
  | true => rw [hx.self hself, hy.self hself]
  | false =>
    obtain ⟨chain, hchain⟩ := hs.chains u hu hchained
    have hxc : x ∈ chain := (hchain.mem x).2 ⟨hx.mem, hx.kind, hx.shown hself⟩
    have hyc : y ∈ chain := (hchain.mem y).2 ⟨hy.mem, hy.kind, hy.shown hself⟩
    by_contra hne
    have hsymm : Std.Symm fun a b => r.sameType (h.memory.typeOf a) (h.memory.typeOf b) = false :=
      ⟨fun a b hab => (r.sameType_comm _ _).trans hab⟩
    have hdiffer := hchain.differ.forall hxc hyc hne
    rw [Registry.sameType_trans hx.type (Registry.sameType_symm hy.type)] at hdiffer
    cases hdiffer

end SeenAs

/-- The search finds the only view of a type that there is in a chain. -/
theorem View.findInChain_of_mem {bound : Nat} {head : Addr} {chain : List Addr} (hl : Linked m head chain)
    (hbound : chain.length ≤ bound)
    (hdiffer : chain.Pairwise fun a b => r.sameType (m.typeOf a) (m.typeOf b) = false) (hx : x ∈ chain)
    (hsame : r.sameType (m.typeOf x) t = true) : findInChain r m t bound head = .ok (some x) := by
  induction chain generalizing head bound with
  | nil => cases hx
  | cons a rest ih =>
    obtain ⟨rfl, hne, hrest⟩ := hl
    obtain ⟨hhead, hdiffer⟩ := List.pairwise_cons.1 hdiffer
    rw [findInChain.eq_def]
    dsimp only
    rw [if_neg hne]
    rcases List.mem_cons.1 hx with rfl | hx
    · rw [if_pos hsame]
    · have hother : ¬r.sameType (m.typeOf head) t = true := by
        intro hhere
        have hfalse := hhead x hx
        rw [Registry.sameType_trans hhere (Registry.sameType_symm hsame)] at hfalse
        cases hfalse
      rw [if_neg hother]
      cases bound with
      | zero => simp at hbound
      | succ bound => exact ih hrest (by simpa using hbound) hdiffer hx

namespace Action

theorem chainedView_found (hs : Ordered w.registry ∅ h values) (hu : u ∈ values)
    (hchained : IsChained w.registry h.memory u) (hx : x ∈ values)
    (hk : w.registry.kindAt h.memory x = some .virtual) (hwrapped : View.wrapped h.memory x = u)
    (hsame : w.registry.sameType (h.memory.typeOf x) t = true) :
    chainedView t u (chainHead w.registry h.memory u) w h = (.ok x, h) := by
  obtain ⟨chain, hchain⟩ := hs.chains u hu hchained
  have hlength := length_le_blocks hs.arranged hchain.nodup fun x hx => ((hchain.mem x).1 hx).1
  have hfound : View.findInChain w.registry h.memory t (h.blocks.size + 1)
      (h.memory.word (chainHead w.registry h.memory u)) = .ok (some x) :=
    View.findInChain_of_mem hchain.linked (hlength.trans (Nat.le_succ _)) hchain.differ
      ((hchain.mem x).2 ⟨hx, hk, hwrapped⟩) hsame
  have hask : ask (fun w' m => View.findInChain w'.registry m t (h.blocks.size + 1)
      (h.memory.word (chainHead w.registry h.memory u))) w h = (.ok (some x), h) :=
    ask_ok hfound
  unfold chainedView
  rw [chainBound_bind, look_bind, bind_ok hask]
  rfl

theorem toViewFrom_self (hk : w.registry.kindAt h.memory v = some .virtual)
    (hsame : w.registry.sameType (h.memory.typeOf v) t = true) (bound : Nat) :
    toViewFrom t bound v w h = (.ok v, h) := by
  rw [toViewFrom.eq_def]
  dsimp only
  rw [look_bind, ask_bind_ok (World.kind_eq_ok.2 hk)]
  dsimp only
  rw [world_bind, if_pos hsame]
  rfl

theorem toViewFrom_chained (hchained : IsChained w.registry h.memory u)
    (hother : w.registry.sameType (h.memory.typeOf u) t = false) (bound : Nat) :
    toViewFrom t bound u w h = chainedView t u (chainHead w.registry h.memory u) w h := by
  have hother' : ¬w.registry.sameType (h.memory.typeOf u) t = true := by simp [hother]
  rw [toViewFrom.eq_def, chainHead]
  dsimp only
  rcases hchained with hk | ⟨hk, hzero⟩
  · rw [look_bind, ask_bind_ok (World.kind_eq_ok.2 hk), if_pos hk]
  · rw [look_bind, ask_bind_ok (World.kind_eq_ok.2 hk), if_neg (kindAt_ne hk (by decide))]
    dsimp only
    rw [world_bind, if_neg hother', look_bind, if_pos hzero]

theorem toViewFrom_shown (hk : w.registry.kindAt h.memory v = some .virtual)
    (hother : w.registry.sameType (h.memory.typeOf v) t = false) (hshown : View.wrapped h.memory v ≠ 0)
    (bound : Nat) : toViewFrom t (bound + 1) v w h = toViewFrom t bound (View.wrapped h.memory v) w h := by
  have hother' : ¬w.registry.sameType (h.memory.typeOf v) t = true := by simp [hother]
  rw [toViewFrom.eq_def]
  dsimp only
  rw [look_bind, ask_bind_ok (World.kind_eq_ok.2 hk)]
  dsimp only
  rw [world_bind, if_neg hother', look_bind, if_neg hshown]

private theorem toViewFrom_again (hs : Ordered w.registry ∅ h values) (hu : u ∈ values)
    (hchained : IsChained w.registry h.memory u) (hx : SeenAs w.registry values h.memory t u x)
    (bound : Nat) : toViewFrom t bound u w h = (.ok x, h) := by
  cases hself : w.registry.sameType (h.memory.typeOf u) t with
  | true =>
    obtain rfl := hx.self hself
    exact toViewFrom_self hx.kind hself bound
  | false =>
    rw [toViewFrom_chained hchained hself]
    exact chainedView_found hs hu hchained hx.mem hx.kind (hx.shown hself) hx.type

/-- As what a chained value is seen, it is seen again, from itself and from all of its views, and for this
nothing changes. -/
theorem toView_again (hs : Ordered w.registry ∅ h values) (hu : u ∈ values)
    (hchained : IsChained w.registry h.memory u) (hx : SeenAs w.registry values h.memory t u x)
    (hv : v ∈ values) (hroot : RootOf w.registry h.memory u v) : toView t v w h = (.ok x, h) := by
  change toViewFrom t (h.blocks.size + 1) v w h = (.ok x, h)
  rcases hroot.reached with rfl | ⟨hk, hwrapped⟩
  · exact toViewFrom_again hs hu hchained hx _
  · cases hself : w.registry.sameType (h.memory.typeOf v) t with
    | true =>
      have hvx : SeenAs w.registry values h.memory t u v := .of_rootOf hs.arranged hv hself hk hroot
      rw [toViewFrom_self hk hself, hvx.unique hs hu hchained hx]
    | false =>
      rw [toViewFrom_shown hk hself (hwrapped ▸ hroot.ne_zero), hwrapped]
      exact toViewFrom_again hs hu hchained hx _

end Action

private theorem toView_seenAs (hb : w.registry.Built) (hr : Reachable w.registry held h values) (hv : v ∈ values)
    (hroot : RootOf w.registry h.memory u v) (hrun : Action.toView t v w h = (.ok x, h')) :
    ∃ values', values ∪ h.newValues w.registry values h' = values' ∧ Reachable w.registry held h' values' ∧
      GoesOn w.registry values h.memory values' h'.memory ∧ SeenAs w.registry values' h'.memory t u x := by
  obtain ⟨values', hkept, hview⟩ := (Action.toView_keeps (hr.sound hb) hv).of_ok hrun
  refine ⟨values', hkept.values_eq.symm, ?_, hkept.goesOn, ?_⟩
  · rw [hkept.values_eq]
    exact hr.step rfl (.toView t hv) hrun fun _ hfatal => nomatch hfatal
  · exact .of_rootOf hkept.sound.arranged hview.mem hview.type hview.kind (hview.root u hroot)

/-- Views are the same again. An open object, or a virtual value that stands alone, gives at types that are
the same one value whenever it is asked, itself or through its views, and from the second time on the heap
stays as it is; the value is itself if it is of the type, and else a view of the type that shows it. A view
of an instance gives itself at its own type, and at another type a view of the instance that it is not. -/
theorem Reachable.view_identity (hb : r.Built) (hr : Reachable r held h values) (hw : w.registry = r)
    (hu : u ∈ values) (hv : v ∈ values) (hroot : RootOf r h.memory u v) :
    (IsChained r h.memory u → ∀ t x h', Action.toView t v w h = (.ok x, h') → ∀ h₂ values₂,
      Run r held (h', values ∪ h.newValues r values h') (h₂, values₂) → ∀ w₂ : World, w₂.registry = r →
        ∀ t₂, r.sameType t t₂ = true → ∀ v₂ ∈ values₂, RootOf r h₂.memory u v₂ →
          Action.toView t₂ v₂ w₂ h₂ = (.ok x, h₂) ∧ SeenAs r values₂ h₂.memory t₂ u x) ∧
    (r.kindAt h.memory u = some .object → v ≠ u → ∀ t,
      (r.sameType (h.memory.typeOf v) t = true → Action.toView t v w h = (.ok v, h)) ∧
      (r.sameType (h.memory.typeOf v) t = false → ∀ x h', Action.toView t v w h = (.ok x, h') →
        View.value w h'.memory x = .ok u ∧ r.sameType (h'.memory.typeOf x) t = true ∧ x ≠ v)) := by
  subst hw
  constructor
  · intro hchained t x h' hrun h₂ values₂ hlater w₂ hw₂ t₂ hsame v₂ hv₂ hroot₂
    obtain ⟨values', heq, hr', hgoes, hx⟩ := toView_seenAs hb hr hv hroot hrun
    rw [heq] at hlater
    obtain ⟨hr₂, hgoes₂⟩ := hlater.goesOn hb hr'
    have hgone := hgoes.trans hgoes₂
    have hx₂ := (hx.goesOn hgoes₂ (hgoes.subset hu)).of_sameType hsame
    have hchained₂ := hchained.goesOn hgone hu
    have hordered := (hr₂.sound hb).toOrdered
    rw [← hw₂] at hordered hchained₂ hx₂ hroot₂ ⊢
    exact ⟨Action.toView_again hordered (hgone.subset hu) hchained₂ hx₂ hv₂ hroot₂, hx₂⟩
  · intro hobject hne t
    obtain ⟨hk, -⟩ := hroot.reached.resolve_left hne
    refine ⟨fun hself => Action.toViewFrom_self hk hself _, fun hother x h' hrun => ?_⟩
    obtain ⟨values', -, -, hgoes, hx⟩ := toView_seenAs hb hr hv hroot hrun
    have hview : w.registry.kind? t = some .virtual :=
      (Registry.kind?_eq_of_sameType hx.type).symm.trans hx.kind
    have hshown := hx.shown
      (Registry.sameType_eq_false_of_kind ((hgoes.kindAt hu).trans hobject) hview (by decide))
    refine ⟨View.value_eq_ok.2 ⟨hx.kind, hshown⟩, hx.type, ?_⟩
    rintro rfl
    have htype := hx.type
    rw [hgoes.type x hv, hother] at htype
    cases htype

/-! A heap with two views of an open object, of which the second was made of the first, and a view of an
instance. -/

/-- Two virtual types that are the same, one that is not, and a class with the fields of all of them. -/
def Registry.facingTypes : Registry :=
  ⟨(Descriptor.builtins ++
    ([.virtual [⟨"flag", .bool⟩], .virtual [⟨"flag", .bool⟩], .virtual [⟨"any", .i32⟩],
      .object ⟨"Both", none, [⟨"flag", .bool⟩, ⟨"any", .i32⟩], []⟩] : List Descriptor)).toArray⟩

theorem Registry.facingTypes_built : Registry.facingTypes.Built :=
  .of_adds (Registry.facingTypes.types.toList.drop Descriptor.builtins.length) (by decide +kernel)
    (by decide +kernel)

def flaggedObject : Action Addr := do
  let v ← Action.newOpenObject
  Action.set v (Name.hash "flag") .bool (.bool true)
  return v

/-- The open object gets a field after the first view is made. -/
def facingViews : Action Addr := do
  let v ← flaggedObject
  let x ← Action.toView (.ofIndex 12) v
  Action.set v (Name.hash "any") .i32 (.i32 5)
  let _ ← Action.toView (.ofIndex 14) x
  let c ← Action.newInstance (.ofIndex 15)
  Action.toView (.ofIndex 12) c

def flaggedHeap : Heap := (flaggedObject (.ofTypes .facingTypes) {}).2

def facingHeap : Heap := (facingViews (.ofTypes .facingTypes) {}).2

private theorem flaggedHeap_reachable :
    flaggedObject (.ofTypes .facingTypes) {} = (.ok 0x10010, flaggedHeap) ∧
    ∃ values, Reachable .facingTypes (fun _ _ => False) flaggedHeap values ∧ 0x10010 ∈ values := by
  let w : World := .ofTypes .facingTypes
  let h₀ := (Action.newOpenObject w {}).2
  let h₁ := (Action.set 0x10010 (Name.hash "flag") .bool (.bool true) w h₀).2
  have hnew : Action.newOpenObject w {} = (.ok 0x10010, h₀) := Action.eq_of_fst (by decide +kernel)
  have hfirst : Action.set 0x10010 (Name.hash "flag") .bool (.bool true) w h₀ = (.ok (), h₁) :=
    Action.eq_of_fst (by decide +kernel)
  have hrun : flaggedHeap = h₁ := by
    unfold flaggedHeap flaggedObject
    rw [Action.bind_ok hnew, Action.bind_ok hfirst]
    rfl
  have hb : w.registry.Built := Registry.facingTypes_built
  have hstart : Reachable .facingTypes (fun _ _ => False) {} ∅ := .start none
  obtain ⟨values₀, -, hr₀, hv, -⟩ := hstart.after_keeps rfl .newOpenObject
    (Action.newOpenObject_keeps hb (hstart.sound hb)) hnew
  obtain ⟨values₁, hsub, hr₁⟩ := hr₀.after rfl
    (.set (t := .bool) (s := .bool true) _ hv (.of_numeric (k := .bool) rfl rfl rfl)) hfirst
  exact ⟨Action.eq_of_fst (by decide +kernel), values₁, hrun ▸ hr₁, hsub hv⟩

private theorem facingHeap_run {values : Set Addr} {h : Heap}
    (hr : Reachable .facingTypes (fun _ _ => False) flaggedHeap values) (hv : 0x10010 ∈ values)
    (hview : Action.toView (.ofIndex 12) 0x10010 (.ofTypes .facingTypes) flaggedHeap = (.ok 0x10090, h)) :
    ∃ values', Run .facingTypes (fun _ _ => False)
        (h, values ∪ flaggedHeap.newValues .facingTypes values h) (facingHeap, values') ∧
      0x10120 ∈ values' ∧ 0x10160 ∈ values' ∧ 0x10180 ∈ values' := by
  let w : World := .ofTypes .facingTypes
  let h₂ := (Action.set 0x10010 (Name.hash "any") .i32 (.i32 5) w h).2
  let h₃ := (Action.toView (.ofIndex 14) 0x10090 w h₂).2
  let h₄ := (Action.newInstance (.ofIndex 15) w h₃).2
  let h₅ := (Action.toView (.ofIndex 12) 0x10160 w h₄).2
  obtain rfl : h = (Action.toView (.ofIndex 12) 0x10010 w flaggedHeap).2 := (congrArg Prod.snd hview).symm
  have hset : Action.set 0x10010 (Name.hash "any") .i32 (.i32 5) w _ = (.ok (), h₂) :=
    Action.eq_of_fst (by decide +kernel)
  have hother : Action.toView (.ofIndex 14) 0x10090 w h₂ = (.ok 0x10120, h₃) :=
    Action.eq_of_fst (by decide +kernel)
  have hnew : Action.newInstance (.ofIndex 15) w h₃ = (.ok 0x10160, h₄) :=
    Action.eq_of_fst (by decide +kernel)
  have hlast : Action.toView (.ofIndex 12) 0x10160 w h₄ = (.ok 0x10180, h₅) :=
    Action.eq_of_fst (by decide +kernel)
  have hend : facingHeap = h₅ := by
    unfold facingHeap facingViews
    rw [Action.bind_ok flaggedHeap_reachable.1, Action.bind_ok hview, Action.bind_ok hset,
      Action.bind_ok hother, Action.bind_ok hnew]
  have hb : w.registry.Built := Registry.facingTypes_built
  obtain ⟨values₁, hkept, hx⟩ := (Action.toView_keeps (hr.sound hb) hv).of_ok hview
  have hvalues : values₁ = values ∪ flaggedHeap.newValues .facingTypes values
      (Action.toView (.ofIndex 12) 0x10010 w flaggedHeap).2 := hkept.values_eq
  have hr₁ : Reachable .facingTypes (fun _ _ => False)
      (Action.toView (.ofIndex 12) 0x10010 w flaggedHeap).2 values₁ := by
    rw [hvalues]
    exact hr.step rfl (.toView (.ofIndex 12) hv) hview fun _ hfatal => nomatch hfatal
  have hwrite : (Action.set 0x10010 (Name.hash "any") .i32 (.i32 5)).Permitted .facingTypes (fun _ _ => False)
      values₁ (Action.toView (.ofIndex 12) 0x10010 w flaggedHeap).2.memory :=
    .set _ (hkept.goesOn.subset hv) (.of_numeric (k := .i32) rfl rfl rfl)
  obtain ⟨values₂, hsub₂, hstep₂⟩ := Step.after rfl hwrite hset
  have hr₂ := hr₁.next hstep₂
  obtain ⟨values₃, hsub₃, hstep₃, hy⟩ := Step.after_keeps rfl (.toView (.ofIndex 14) (hsub₂ hx.mem))
    (Action.toView_keeps (hr₂.sound hb) (hsub₂ hx.mem)) hother
  have hr₃ := hr₂.next hstep₃
  obtain ⟨values₄, hsub₄, hstep₄, hc, -⟩ := Step.after_keeps rfl (.newInstance (.ofIndex 15))
    (Action.newInstance_keeps (hr₃.sound hb)) hnew
  have hr₄ := hr₃.next hstep₄
  obtain ⟨values₅, hsub₅, hstep₅, hp⟩ := Step.after_keeps rfl (.toView (.ofIndex 12) hc)
    (Action.toView_keeps (hr₄.sound hb) hc) hlast
  rw [hend, ← hvalues]
  exact ⟨values₅, (((Relation.ReflTransGen.single hstep₂).tail hstep₃).tail hstep₄).tail hstep₅,
    hsub₅ (hsub₄ hy.mem), hsub₅ hc, hp.mem⟩

/-- The first view is found again at the twin of its type, from the second view. The view of the instance is
found again only from itself. -/
theorem facingHeap_identity : ∃ values,
    SeenAs .facingTypes values facingHeap.memory (.ofIndex 13) 0x10010 0x10090 ∧
    Action.toView (.ofIndex 13) 0x10120 (.ofTypes .facingTypes) facingHeap = (.ok 0x10090, facingHeap) ∧
    Action.toView (.ofIndex 13) 0x10180 (.ofTypes .facingTypes) facingHeap = (.ok 0x10180, facingHeap) ∧
    ∃ x h', Action.toView (.ofIndex 14) 0x10180 (.ofTypes .facingTypes) facingHeap = (.ok x, h') ∧
      View.value (.ofTypes .facingTypes) h'.memory x = .ok 0x10160 ∧ x ≠ 0x10180 := by
  let w : World := .ofTypes .facingTypes
  let m := facingHeap.memory
  have hb : Registry.facingTypes.Built := Registry.facingTypes_built
  obtain ⟨-, values, hr, hv⟩ := flaggedHeap_reachable
  let h := (Action.toView (.ofIndex 12) 0x10010 w flaggedHeap).2
  have hview : Action.toView (.ofIndex 12) 0x10010 w flaggedHeap = (.ok 0x10090, h) :=
    Action.eq_of_fst (by decide +kernel)
  obtain ⟨values', hrun, hy, hc, hp⟩ := facingHeap_run hr hv hview
  have hkinds : w.registry.kindAt flaggedHeap.memory 0x10010 = some .dynobj ∧
      w.registry.kindAt m 0x10010 = some .dynobj ∧ w.registry.kindAt m 0x10120 = some .virtual ∧
      w.registry.kindAt m 0x10160 = some .object ∧ w.registry.kindAt m 0x10180 = some .virtual := by
    decide +kernel
  obtain ⟨hfirst, hopen, hsecond, hobject, hthird⟩ := hkinds
  have hshown : View.wrapped m 0x10120 = 0x10010 ∧ View.wrapped m 0x10180 = 0x10160 ∧
      w.registry.sameType (m.typeOf 0x10180) (.ofIndex 13) = true ∧
      w.registry.sameType (m.typeOf 0x10180) (.ofIndex 14) = false ∧
      (Action.toView (.ofIndex 14) 0x10180 w facingHeap).1 = .ok 0x101C0 := by
    decide +kernel
  obtain ⟨hwrapped, hwrapped', htype, hdiffers, hother⟩ := hshown
  have hself : RootOf .facingTypes flaggedHeap.memory 0x10010 0x10010 :=
    .self (by decide) (Or.inr (Or.inl hfirst))
  have hroot : RootOf .facingTypes m 0x10010 0x10120 :=
    ⟨by decide, Or.inr (Or.inl hopen), Or.inr ⟨hsecond, hwrapped⟩⟩
  obtain ⟨hagain, hseen⟩ := (hr.view_identity (w := w) hb rfl hv hv hself).1 (Or.inl hfirst) _ _ _ hview _ _
    hrun w rfl (.ofIndex 13) (by decide +kernel) _ hy hroot
  have hroot' : RootOf .facingTypes m 0x10160 0x10180 :=
    ⟨by decide, Or.inl hobject, Or.inr ⟨hthird, hwrapped'⟩⟩
  have hr' : Reachable .facingTypes (fun _ _ => False) facingHeap values' :=
    (hrun.goesOn hb (hr.step rfl (.toView _ hv) hview fun _ hfatal => nomatch hfatal)).1
  have hlast := (hr'.view_identity (w := w) hb rfl hc hp hroot').2 hobject (by decide)
  obtain ⟨hvalue, -, hne⟩ := (hlast (.ofIndex 14)).2 hdiffers _ _ (Action.eq_of_fst hother)
  exact ⟨values', hseen, hagain, (hlast (.ofIndex 13)).1 htype, _, _, Action.eq_of_fst hother, hvalue, hne⟩

end ObjectModel
