import Mathlib.Algebra.Group.Nat.Defs
import Mathlib.Data.List.Infix
import Mathlib.Data.Set.Insert
import ObjectModel.Proofs.Memory.Frame

/-!
The blocks of a heap do not overlap, and a new one lies behind all others and is zero. A block of a
size so great that its own size wraps around has no room; such blocks are of no use and are left out.
-/

set_option autoImplicit false
set_option relaxedAutoImplicit false

namespace ObjectModel

/-! The size of a block, as a number and in 64-bit arithmetic. They are the same up to the greatest request
whose block still has a 64-bit size. The few requests above it wrap around, and the sizes computed for
their blocks leave no room behind the header. -/

namespace Heap

/-- The bytes of a block for `n` bytes: at least one, rounded up to a multiple of sixteen, behind a header
of sixteen. -/
def footprint (n : Nat) : Nat := 16 + (max n 1 + 15) / 16 * 16

/-- The greatest request whose block has a 64-bit size. -/
def maxRequest : Nat := UInt64.size - 32

theorem maxRequest_eq : maxRequest = 0xFFFFFFFFFFFFFFE0 := rfl

theorem le_footprint (n : Nat) : n + 16 ≤ footprint n ∧ 32 ≤ footprint n := by
  unfold footprint
  omega

variable {n : UInt64}

theorem toNat_units (n : UInt64) : (units n).toNat = (max n.toNat 1 + 15) / 16 := by
  have hlt := n.toNat_lt
  have hcontent : (if n = 0 then 1 else n).toNat = max n.toNat 1 := by
    by_cases hzero : n = 0
    · rw [if_pos hzero, hzero]
      rfl
    · have hne : n.toNat ≠ 0 := fun h => hzero (UInt64.toNat_inj.1 h)
      rw [if_neg hzero]
      omega
  unfold units
  generalize (if n = 0 then 1 else n) = content at hcontent
  have hdiv : (content / headerSize).toNat = content.toNat / 16 := UInt64.toNat_div _ _
  have hrest : content % headerSize = 0 ↔ content.toNat % 16 = 0 := by
    rw [← UInt64.toNat_inj, UInt64.toNat_mod]
    rfl
  rw [UInt64.toNat_add, hdiv]
  by_cases hzero : content % headerSize = 0
  · have hexact := hrest.1 hzero
    rw [if_pos hzero]
    change (content.toNat / 16 + 0) % 2 ^ 64 = _
    omega
  · have hmore := mt hrest.2 hzero
    rw [if_neg hzero]
    change (content.toNat / 16 + 1) % 2 ^ 64 = _
    omega

theorem toNat_payloadSize (hn : n.toNat ≤ maxRequest) : (payloadSize n).toNat = (units n).toNat * 16 := by
  rw [maxRequest_eq] at hn
  have hunits := toNat_units n
  rw [payloadSize, UInt64.toNat_mul]
  change (units n).toNat * 16 % 2 ^ 64 = _
  omega

theorem toNat_blockSize_add (hn : n.toNat ≤ maxRequest) :
    (blockSize n).toNat = 16 + (payloadSize n).toNat := by
  rw [maxRequest_eq] at hn
  have hunits := toNat_units n
  have hpayload := toNat_payloadSize hn
  rw [blockSize, UInt64.toNat_add]
  change (16 + (payloadSize n).toNat) % 2 ^ 64 = _
  omega

theorem toNat_blockSize (hn : n.toNat ≤ maxRequest) : (blockSize n).toNat = footprint n.toNat := by
  rw [toNat_blockSize_add hn, toNat_payloadSize hn, toNat_units]
  rfl

/-- A request above the greatest one wraps around: its block seems to end with its header, or before it. -/
theorem toNat_blockSize_of_vast (hn : maxRequest < n.toNat) :
    (blockSize n).toNat = if n.toNat ≤ UInt64.size - 16 then 0 else 16 := by
  rw [maxRequest_eq] at hn
  have hsize : UInt64.size = 0x10000000000000000 := rfl
  have hlt := n.toNat_lt
  have hunits := toNat_units n
  rw [blockSize, payloadSize, UInt64.toNat_add, UInt64.toNat_mul]
  change (16 + (units n).toNat * 16 % 2 ^ 64) % 2 ^ 64 = _
  by_cases hedge : n.toNat ≤ UInt64.size - 16
  · rw [if_pos hedge]
    omega
  · rw [if_neg hedge]
    omega

theorem dvd_blockSize (n : UInt64) : 16 ∣ (blockSize n).toNat := by
  rw [blockSize, payloadSize, UInt64.toNat_add, UInt64.toNat_mul]
  change 16 ∣ (16 + (units n).toNat * 16 % 2 ^ 64) % 2 ^ 64
  omega

theorem le_room {n : Nat} (hn : n ≤ maxBlockSize) :
    n + 16 ≤ (blockSize (.ofNat n)).toNat ∧ 32 ≤ (blockSize (.ofNat n)).toNat := by
  have hmax : maxBlockSize < maxRequest := by decide
  have hnat : (UInt64.ofNat n).toNat = n := UInt64.toNat_ofNat_of_lt' (Nat.lt_of_le_of_lt hn (by decide))
  rw [toNat_blockSize (by omega), hnat]
  exact le_footprint n

end Heap

/-! Blocks. -/

/-- The bytes that a block has for its content. -/
def Block.room (b : Block) : Nat := (Heap.blockSize b.size).toNat - Heap.headerSize.toNat

namespace Heap

variable {h h' h'' : Heap} {a b : Addr} {m n : Nat}

/-- A block with room for `n` bytes starts at an address. -/
def Owns (h : Heap) (a : Addr) (n : Nat) : Prop :=
  ∃ b ∈ h.blocks.toList, b.address = a ∧ 0 < b.room ∧ n ≤ b.room

/-- Blocks lie below the place of the next one, and no two of them overlap. -/
structure WellFormed (h : Heap) : Prop where
  next_pos : 0 < h.next
  next_lt : h.next < UInt64.size
  below : ∀ b ∈ h.blocks.toList, 0 < b.room →
    0 < b.address.toNat ∧ b.address.toNat + b.room ≤ h.next ∧ b.room ≤ maxBlockSize
  apart : ∀ b ∈ h.blocks.toList, ∀ c ∈ h.blocks.toList, 0 < b.room → 0 < c.room →
    b.address ≠ c.address →
      b.address.toNat + b.room ≤ c.address.toNat ∨ c.address.toNat + c.room ≤ b.address.toNat
  unique : ∀ b ∈ h.blocks.toList, ∀ c ∈ h.blocks.toList, 0 < b.room → 0 < c.room →
    b.address = c.address → b = c

theorem WellFormed.withMemory (hwf : h.WellFormed) {m : Memory} :
    ({ h with memory := m } : Heap).WellFormed :=
  ⟨hwf.next_pos, hwf.next_lt, hwf.below, hwf.apart, hwf.unique⟩

/-- A block with room at an address, which may hold addresses. -/
def PointersAt (h : Heap) (a : Addr) : Prop :=
  ∃ b ∈ h.blocks.toList, b.address = a ∧ 0 < b.room ∧ b.kind = .pointers

theorem PointersAt.withMemory (ha : h.PointersAt a) {m : Memory} :
    ({ h with memory := m } : Heap).PointersAt a := ha

/-- A byte of the content of a block. -/
def Contains (h : Heap) (x : Nat) : Prop :=
  ∃ b ∈ h.blocks.toList, b.address.toNat ≤ x ∧ x < b.address.toNat + b.room

theorem Contains.lt_next {x : Nat} (hx : h.Contains x) (hwf : h.WellFormed) : x < h.next := by
  obtain ⟨b, hb, hlow, hhigh⟩ := hx
  have := (hwf.below b hb (by omega)).2.1
  omega

def fresh (h h' : Heap) : Set Addr := {a | ∃ b ∈ h'.blocks.toList.drop h.blocks.size, b.address = a}

def Extends (h h' : Heap) : Prop := h.blocks.toList <+: h'.blocks.toList

theorem Extends.refl (h : Heap) : h.Extends h := List.prefix_rfl

theorem Extends.trans (hh : h.Extends h') (hh' : h'.Extends h'') : h.Extends h'' :=
  List.IsPrefix.trans hh hh'

theorem fresh_self (h : Heap) : h.fresh h = ∅ := by
  have hnone : h.blocks.toList.drop h.blocks.size = [] := List.drop_eq_nil_of_le (by simp)
  ext a
  simp [fresh, hnone]

theorem notMem_fresh_self (h : Heap) (a : Addr) : a ∉ h.fresh h := by
  rw [fresh_self]
  exact Set.notMem_empty a

theorem fresh_trans (hh : h.Extends h') (hh' : h'.Extends h'') :
    h.fresh h'' = h.fresh h' ∪ h'.fresh h'' := by
  obtain ⟨new, hnew⟩ := hh
  obtain ⟨new', hnew'⟩ := hh'
  ext a
  have hsize : h.blocks.size = h.blocks.toList.length := by simp
  have hsize' : h'.blocks.size = h'.blocks.toList.length := by simp
  simp only [fresh, Set.mem_ofPred_eq, Set.mem_union, hsize, hsize', ← hnew', ← hnew]
  rw [List.drop_left, List.drop_left, List.append_assoc, List.drop_left]
  constructor
  · rintro ⟨b, hb, rfl⟩
    rcases List.mem_append.1 hb with hb | hb
    · exact Or.inl ⟨b, hb, rfl⟩
    · exact Or.inr ⟨b, hb, rfl⟩
  · rintro (⟨b, hb, rfl⟩ | ⟨b, hb, rfl⟩)
    · exact ⟨b, List.mem_append_left _ hb, rfl⟩
    · exact ⟨b, List.mem_append_right _ hb, rfl⟩

namespace Owns

theorem mono (hm : h.Owns a m) (hn : n ≤ m) : h.Owns a n := by
  obtain ⟨b, hb, haddress, hpos, hroom⟩ := hm
  exact ⟨b, hb, haddress, hpos, hn.trans hroom⟩

theorem withMemory (hn : h.Owns a n) {m : Memory} : ({ h with memory := m } : Heap).Owns a n := hn

theorem extend (hn : h.Owns a n) (hh : h.Extends h') : h'.Owns a n := by
  obtain ⟨b, hb, hrest⟩ := hn
  exact ⟨b, hh.subset hb, hrest⟩

theorem le_next (hn : h.Owns a n) (hwf : h.WellFormed) : a.toNat + n ≤ h.next := by
  obtain ⟨b, hb, rfl, hpos, hroom⟩ := hn
  have := (hwf.below b hb hpos).2.1
  omega

theorem lt_size (hn : h.Owns a n) (hwf : h.WellFormed) : a.toNat + n < UInt64.size :=
  (hn.le_next hwf).trans_lt hwf.next_lt

theorem le_max (hn : h.Owns a n) (hwf : h.WellFormed) : n ≤ maxBlockSize := by
  obtain ⟨b, hb, rfl, hpos, hroom⟩ := hn
  exact hroom.trans (hwf.below b hb hpos).2.2

theorem pos (hn : h.Owns a n) (hwf : h.WellFormed) : 0 < a.toNat := by
  obtain ⟨b, hb, rfl, hpos, -⟩ := hn
  exact (hwf.below b hb hpos).1

theorem lt_next (hn : h.Owns a n) (hwf : h.WellFormed) : a.toNat < h.next := by
  obtain ⟨b, hb, rfl, hpos, -⟩ := hn
  have := (hwf.below b hb hpos).2.1
  omega

theorem ne_zero (hn : h.Owns a n) (hwf : h.WellFormed) : a ≠ 0 := by
  rintro rfl
  exact absurd (hn.pos hwf) (by simp)

theorem apart (hm : h.Owns a m) (hn : h.Owns b n) (hwf : h.WellFormed) (hne : a ≠ b) :
    a.toNat + m ≤ b.toNat ∨ b.toNat + n ≤ a.toNat := by
  obtain ⟨c, hc, rfl, hcpos, hcroom⟩ := hm
  obtain ⟨d, hd, rfl, hdpos, hdroom⟩ := hn
  have := hwf.apart c hc d hd hcpos hdpos hne
  omega

end Owns

theorem PointersAt.extend (ha : h.PointersAt a) (hh : h.Extends h') : h'.PointersAt a := by
  obtain ⟨b, hb, hrest⟩ := ha
  exact ⟨b, hh.subset hb, hrest⟩

/-- The blocks at the quiet addresses hold in the second heap what they hold in the first. -/
def Spares (quiet : Set Addr) (h h' : Heap) : Prop :=
  ∀ b ∈ quiet, ∀ n, h.Owns b n → Memory.SameOn h.memory h'.memory b.toNat n

namespace Spares

variable {quiet quiet' : Set Addr}

theorem refl (quiet : Set Addr) (h : Heap) : Spares quiet h h := fun b _ n _ => .refl h.memory b.toNat n

theorem mono (hq : Spares quiet' h h') (hsub : quiet ⊆ quiet') : Spares quiet h h' :=
  fun b hb => hq b (hsub hb)

theorem trans (hq : Spares quiet h h') (hh : h.Extends h') (hq' : Spares quiet h' h'') :
    Spares quiet h h'' :=
  fun b hb n hn => (hq b hb n hn).trans (hq' b hb n (hn.extend hh))

theorem of_below (hwf : h.WellFormed) (hsame : Memory.SameOn h.memory h'.memory 0 h.next) :
    Spares quiet h h' := by
  intro b _ n hn
  have := hn.le_next hwf
  exact hsame.mono (Nat.zero_le _) (by omega)

theorem of_changes {m : Memory} {start len : Nat} (hwf : h.WellFormed) (hn : h.Owns a n) (ha : a ∉ quiet)
    (hm : Memory.ChangesOnly h.memory m start len) (hlow : a.toNat ≤ start)
    (hhigh : start + len ≤ a.toNat + n) : Spares quiet h { h with memory := m } := by
  intro b hb width hwidth
  have hne : b ≠ a := fun heq => ha (heq ▸ hb)
  have := hwidth.apart hn hwf hne
  exact hm.sameOn (by omega)

end Spares

/-- A request is granted: its block lies behind all others and below the end of the addresses, it is
counted, and all that lies behind the others becomes zero. -/
structure Grants (h : Heap) (size : UInt64) (kind : BlockKind) (a : Addr) (h' : Heap) : Prop where
  admitted : (blockSize size).toNat ≤ maxBlockSize
  within : ∀ m, h.limit = some m → h.allocated + blockSize size ≤ m
  fits : h.next + 16 + (blockSize size).toNat < UInt64.size
  address : a = .ofNat (h.next + 16)
  limit : h'.limit = h.limit
  memory : h'.memory = h.memory.clearFrom h.next
  blocks : h'.blocks = h.blocks.push ⟨a, size, kind, false⟩
  next : h'.next = h.next + (blockSize size).toNat
  allocated : h'.allocated = h.allocated + blockSize size
  pointerBlocks : h'.pointerBlocks = h.pointerBlocks + if kind = .pointers then 1 else 0

theorem Grants.toNat_address {size : UInt64} {kind : BlockKind} (hg : h.Grants size kind a h') :
    a.toNat = h.next + 16 := by
  have hfits := hg.fits
  rw [hg.address]
  exact UInt64.toNat_ofNat_of_lt' (by omega)

/-- Why a request is fatal. -/
inductive Refuses (h : Heap) (size : UInt64) : HeapError → Prop
  | tooLarge : maxBlockSize < (blockSize size).toNat → Refuses h size (.invalidSize size.toNat)
  | overLimit {m : UInt64} : (blockSize size).toNat ≤ maxBlockSize → h.limit = some m →
    m < h.allocated + blockSize size → Refuses h size .limitExceeded
  | full : (blockSize size).toNat ≤ maxBlockSize →
    UInt64.size ≤ h.next + 16 + (blockSize size).toNat → Refuses h size .outOfMemory

/-- A request is granted, or it is fatal for one of three reasons. -/
theorem allocate_outcome (h : Heap) (size : UInt64) (kind : BlockKind) :
    (∃ e, h.allocate size kind = .error e ∧ h.Refuses size e) ∨
      ∃ a h', h.allocate size kind = .ok (a, h') ∧ h.Grants size kind a h' := by
  unfold allocate
  by_cases hbig : maxBlockSize < (blockSize size).toNat
  · exact .inl ⟨_, if_pos hbig, .tooLarge hbig⟩
  have hadmitted := Nat.le_of_not_lt hbig
  rw [if_neg hbig]
  by_cases hlimit : h.limit.any (· < h.allocated + blockSize size) = true
  · obtain ⟨m, hm, hover⟩ := (Option.any_eq_true _ _).1 hlimit
    exact .inl ⟨_, if_pos hlimit, .overLimit hadmitted hm (of_decide_eq_true hover)⟩
  have hwithin : ∀ m, h.limit = some m → h.allocated + blockSize size ≤ m := by
    intro m hm
    rw [hm, Option.any_some, decide_eq_true_eq] at hlimit
    exact UInt64.not_lt.1 hlimit
  rw [if_neg hlimit]
  by_cases hfull : UInt64.size ≤ h.next + headerSize.toNat + (blockSize size).toNat
  · exact .inl ⟨_, if_pos hfull, .full hadmitted hfull⟩
  · rw [if_neg hfull]
    refine .inr ⟨_, _, rfl, hadmitted, hwithin, Nat.lt_of_not_le hfull, rfl, rfl, rfl, rfl, rfl, rfl, rfl⟩

theorem allocate_eq_ok {size : UInt64} {kind : BlockKind} (hok : h.allocate size kind = .ok (a, h')) :
    h.Grants size kind a h' := by
  obtain ⟨e, herror, -⟩ | ⟨a', h'', hgranted, hgrants⟩ := allocate_outcome h size kind
  · cases herror.symm.trans hok
  · cases hgranted.symm.trans hok
    exact hgrants

/-- A heap that has handed out one more block: the block lies at `a`, behind all others, and all that
lies behind the others is zero. -/
structure Handed (h h' : Heap) (a : Addr) : Prop where
  wellFormed : h'.WellFormed
  blocks : h.Extends h'
  fresh : h.fresh h' = {a}
  address : h.next ≤ a.toNat
  next : h.next ≤ h'.next
  same : Memory.SameOn h.memory h'.memory 0 h.next
  zero : ∀ n, Memory.ZeroOn h'.memory a.toNat n

private theorem wellFormed_push {new : Block} (hwf : h.WellFormed)
    (hblocks : h'.blocks = h.blocks.push new) (hnext : h.next ≤ h'.next)
    (hlt : h'.next < UInt64.size)
    (hnew : 0 < new.room → h.next ≤ new.address.toNat ∧ new.address.toNat + new.room ≤ h'.next ∧
      new.room ≤ maxBlockSize) : h'.WellFormed := by
  have hpos := hwf.next_pos
  have hmem : ∀ b, b ∈ h'.blocks.toList ↔ b ∈ h.blocks.toList ∨ b = new := by
    intro b
    rw [hblocks, Array.toList_push, List.mem_append, List.mem_singleton]
  refine ⟨by omega, hlt, ?_, ?_, ?_⟩
  · intro b hb hroom
    rcases (hmem b).1 hb with hb | rfl
    · obtain ⟨h1, h2, h3⟩ := hwf.below b hb hroom
      exact ⟨h1, h2.trans hnext, h3⟩
    · obtain ⟨h1, h2, h3⟩ := hnew hroom
      exact ⟨by omega, h2, h3⟩
  · intro b hb c hc hbroom hcroom hne
    rcases (hmem b).1 hb with hb | rfl <;> rcases (hmem c).1 hc with hc | rfl
    · exact hwf.apart b hb c hc hbroom hcroom hne
    · have := (hwf.below b hb hbroom).2.1
      have := (hnew hcroom).1
      omega
    · have := (hwf.below c hc hcroom).2.1
      have := (hnew hbroom).1
      omega
    · exact absurd rfl hne
  · intro b hb c hc hbroom hcroom heq
    rcases (hmem b).1 hb with hb | rfl <;> rcases (hmem c).1 hc with hc | rfl
    · exact hwf.unique b hb c hc hbroom hcroom heq
    · have := (hwf.below b hb hbroom).2.1
      have := (hnew hcroom).1
      have := congrArg UInt64.toNat heq
      omega
    · have := (hwf.below c hc hcroom).2.1
      have := (hnew hbroom).1
      have := congrArg UInt64.toNat heq
      omega
    · rfl

theorem allocate_ok {size : UInt64} {kind : BlockKind} (hwf : h.WellFormed)
    (hok : h.allocate size kind = .ok (a, h')) :
    Handed h h' a ∧ h'.next = h.next + (blockSize size).toNat ∧
      (32 ≤ (blockSize size).toNat → h'.Owns a ((blockSize size).toNat - 16) ∧
        (kind = .pointers → h'.PointersAt a)) := by
  have hg := allocate_eq_ok hok
  have haddress := hg.toNat_address
  obtain ⟨hbig, -, hfull, -, -, hmemory, hblocks, hnext, -, -⟩ := hg
  have hlist : h'.blocks.toList = h.blocks.toList ++ [⟨a, size, kind, false⟩] := by
    rw [hblocks, Array.toList_push]
  refine ⟨⟨?_, ?_, ?_, ?_, ?_, ?_, ?_⟩, hnext, ?_⟩
  · refine wellFormed_push hwf hblocks (by omega) (by omega) fun hroom => ?_
    change 0 < (blockSize size).toNat - 16 at hroom
    change h.next ≤ a.toNat ∧ a.toNat + ((blockSize size).toNat - 16) ≤ h'.next ∧
      (blockSize size).toNat - 16 ≤ maxBlockSize
    omega
  · exact ⟨_, hlist.symm⟩
  · ext x
    have hsize : h.blocks.size = h.blocks.toList.length := by simp
    simp only [Heap.fresh, hlist, hsize, List.drop_left, List.mem_singleton, Set.mem_ofPred_eq,
      Set.mem_singleton_iff, exists_eq_left]
    exact eq_comm
  · omega
  · omega
  · intro x _ hx
    rw [hmemory, Memory.byte_clearFrom, if_pos (by omega)]
  · intro n x hx _
    rw [hmemory, Memory.byte_clearFrom, if_neg (by omega)]
  · intro hlarge
    have hmem : (⟨a, size, kind, false⟩ : Block) ∈ h'.blocks.toList := by
      rw [hlist]
      exact List.mem_append_right _ (List.mem_singleton.2 rfl)
    have hroom : 0 < (blockSize size).toNat - 16 := by omega
    exact ⟨⟨_, hmem, rfl, hroom, le_rfl⟩, fun hkind => ⟨_, hmem, rfl, hroom, hkind⟩⟩

end Heap

end ObjectModel
