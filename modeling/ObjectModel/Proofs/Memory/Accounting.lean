import Mathlib.Algebra.Order.BigOperators.Group.List
import Mathlib.Algebra.Order.Ring.Nat
import ObjectModel.Proofs.Memory.Blocks
import ObjectModel.Value.Fixed

/-!
How a heap accounts for the blocks that it hands out. Over any run of requests its counts are those of
the blocks, exactly and within its limit, and a request is fatal for no other reason than its own size or
the limit. Both depend on the computed size of a block, which is too small for the few requests that are
so great that it wraps around.
-/

set_option autoImplicit false
set_option relaxedAutoImplicit false

namespace ObjectModel

/-- What is asked of a heap: a number of bytes, for addresses or not. -/
structure Request where
  size : UInt64
  kind : BlockKind
  deriving DecidableEq, Repr, Inhabited

def Block.request (b : Block) : Request := ⟨b.size, b.kind⟩

def Block.footprint (b : Block) : Nat := Heap.footprint b.size.toNat

namespace Heap

variable {h h' : Heap} {limit : Option UInt64} {n : UInt64} {kind : BlockKind} {a : Addr}
  {requests : List Request}

/-- Meets requests one after the other, up to the first one that is fatal. -/
def serve (h : Heap) : List Request → Except HeapError Heap
  | [] => .ok h
  | q :: rest =>
    match h.allocate q.size q.kind with
    | .ok (_, h) => h.serve rest
    | .error e => .error e

/-- The counts of a heap are those of its blocks, which lie one behind the other and within its limit. -/
structure Balanced (h : Heap) : Prop where
  allocated : h.allocatedBytes = (h.blocks.toList.map Block.footprint).sum
  pointers : h.pointerBlocks = h.blocks.toList.countP (·.kind = .pointers)
  within : ∀ m, h.limit = some m → h.allocated ≤ m
  next : h.next = 0x10000 + h.allocatedBytes
  next_lt : h.next < UInt64.size

theorem balanced_start (limit : Option UInt64) : ({ limit } : Heap).Balanced := by
  have hstart : 0x10000 < UInt64.size := by decide
  exact ⟨rfl, rfl, fun m _ => UInt64.zero_le, rfl, hstart⟩

theorem Balanced.toNat_add (hb : h.Balanced) (hfits : h.next + 16 + (blockSize n).toNat < UInt64.size) :
    (h.allocated + blockSize n).toNat = h.allocatedBytes + (blockSize n).toNat := by
  have hnext := hb.next
  rw [UInt64.toNat_add]
  exact Nat.mod_eq_of_lt (by change h.allocatedBytes + _ < UInt64.size; omega)

theorem Balanced.grant (hb : h.Balanced) (hn : n.toNat ≤ maxRequest) (hg : h.Grants n kind a h') :
    h'.Balanced := by
  have hsize := toNat_blockSize hn
  have hadd := hb.toNat_add hg.fits
  have hallocated : h'.allocatedBytes = h.allocatedBytes + footprint n.toNat := by
    rw [allocatedBytes, hg.allocated, hadd, hsize]
  refine ⟨?_, ?_, fun m hm => ?_, ?_, ?_⟩
  · rw [hallocated, hb.allocated, hg.blocks, Array.toList_push, List.map_append, List.sum_append]
    rfl
  · rw [hg.pointerBlocks, hb.pointers, hg.blocks, Array.toList_push, List.countP_append]
    cases kind <;> rfl
  · rw [hg.allocated]
    exact hg.within m (hg.limit ▸ hm)
  · rw [hg.next, hallocated, hb.next, hsize, Nat.add_assoc]
  · have := hg.next
    have := hg.fits
    omega

theorem serve_blocks (hrun : h.serve requests = .ok h') :
    h'.limit = h.limit ∧
      h'.blocks.toList.map Block.request = h.blocks.toList.map Block.request ++ requests := by
  induction requests generalizing h with
  | nil =>
    obtain rfl := Except.ok.inj hrun
    exact ⟨rfl, (List.append_nil _).symm⟩
  | cons q rest ih =>
    rw [serve] at hrun
    split at hrun
    case h_1 a h₁ hok =>
      have hg := allocate_eq_ok hok
      obtain ⟨hlimit, hblocks⟩ := ih hrun
      refine ⟨hlimit.trans hg.limit, ?_⟩
      rw [hblocks, hg.blocks, Array.toList_push, List.map_append, List.append_assoc]
      rfl
    case h_2 => cases hrun

theorem Balanced.serve (hb : h.Balanced) (hsizes : ∀ q ∈ requests, q.size.toNat ≤ maxRequest)
    (hrun : h.serve requests = .ok h') : h'.Balanced := by
  induction requests generalizing h with
  | nil =>
    obtain rfl := Except.ok.inj hrun
    exact hb
  | cons q rest ih =>
    obtain ⟨hq, hrest⟩ := List.forall_mem_cons.1 hsizes
    rw [Heap.serve] at hrun
    split at hrun
    case h_1 a h₁ hok => exact ih (hb.grant hq (allocate_eq_ok hok)) hrest hrun
    case h_2 => cases hrun

/-- As long as there are addresses, a request is fatal exactly if no block may be so large or the limit
would be passed. -/
theorem Balanced.fatal_iff (hb : h.Balanced) (hn : n.toNat ≤ maxRequest)
    (hspace : h.allocate n kind ≠ .error .outOfMemory) :
    (∃ e, h.allocate n kind = .error e) ↔ maxBlockSize < footprint n.toNat ∨
      ∃ m, h.limit = some m ∧ m.toNat < h.allocatedBytes + footprint n.toNat := by
  have hsize := toNat_blockSize hn
  obtain ⟨e, herror, hrefuses⟩ | ⟨a, h', hok, hg⟩ := allocate_outcome h n kind
  · refine iff_of_true ⟨e, herror⟩ ?_
    cases hrefuses with
    | tooLarge hbig => exact .inl (hsize ▸ hbig)
    | @overLimit m _ hm hover =>
      refine .inr ⟨m, hm, Nat.lt_of_lt_of_le (UInt64.lt_iff_toNat_lt.1 hover) ?_⟩
      rw [UInt64.toNat_add, hsize]
      exact Nat.mod_le _ _
    | full => exact absurd herror hspace
  · refine iff_of_false (fun ⟨e, herror⟩ => by cases herror.symm.trans hok) ?_
    rintro (hbig | ⟨m, hm, hover⟩)
    · have := hg.admitted
      omega
    · have := UInt64.le_iff_toNat_le.1 (hg.within m hm)
      have := hb.toNat_add hg.fits
      omega

/-- There is room for one more block: neither the limit nor the end of the addresses is passed. -/
structure HasRoom (h : Heap) (size : Nat) : Prop where
  within : ∀ m, h.limit = some m → h.allocated + blockSize (.ofNat size) ≤ m
  fits : h.next + 16 + footprint size < UInt64.size

theorem allocate_by_room {size : Nat} (hsize : footprint size ≤ maxBlockSize) (h : Heap) (kind : BlockKind) :
    (h.HasRoom size ∧ ∃ a h', h.allocate (.ofNat size) kind = .ok (a, h')) ∨
      ¬h.HasRoom size ∧ ∃ e, h.allocate (.ofNat size) kind = .error e ∧
        (e = .limitExceeded ∨ e = .outOfMemory) := by
  have hle := (le_footprint size).1
  have hmax : maxBlockSize < maxRequest := by decide
  have hlast : maxRequest < 2 ^ 64 := by decide
  have hnat : (UInt64.ofNat size).toNat = size := UInt64.toNat_ofNat_of_lt' (by change size < 2 ^ 64; omega)
  have hblock : (blockSize (.ofNat size)).toNat = footprint size := by
    rw [toNat_blockSize (by omega), hnat]
  obtain ⟨e, herror, hrefuses⟩ | ⟨a, h', hok, hg⟩ := allocate_outcome h (.ofNat size) kind
  · refine .inr ⟨fun hroom => ?_, e, herror, ?_⟩
    · cases hrefuses with
      | tooLarge hbig => omega
      | overLimit _ hm hover => exact absurd (hroom.within _ hm) (UInt64.not_le.2 hover)
      | full _ hfull =>
        have := hroom.fits
        omega
    · cases hrefuses with
      | tooLarge hbig => omega
      | overLimit => exact .inl rfl
      | full => exact .inr rfl
  · exact .inl ⟨⟨hg.within, hblock ▸ hg.fits⟩, a, h', hok⟩

theorem Balanced.size_le (hb : h.Balanced) : 32 * h.blocks.size ≤ h.allocatedBytes := by
  have hlength : h.blocks.size = (h.blocks.toList.map Block.footprint).length := by simp
  rw [hb.allocated, hlength, Nat.mul_comm, ← Nat.nsmul_eq_mul]
  refine List.card_nsmul_le_sum _ 32 fun x hx => ?_
  obtain ⟨b, -, rfl⟩ := List.mem_map.1 hx
  exact (le_footprint _).2

/-- What is to be known of a heap that has met requests within a limit, and of one more request. -/
structure Accounted (limit : Option UInt64) (requests : List Request) (h : Heap) : Prop where
  blocks : h.blocks.toList.map Block.request = requests
  allocated : h.allocatedBytes = (requests.map fun q => footprint q.size.toNat).sum
  count : h.blocks.size = requests.length
  pointers : h.pointerBlocks = requests.countP (·.kind = .pointers)
  within : ∀ m, limit = some m → h.allocated ≤ m
  fatal : ∀ (n : UInt64) (kind : BlockKind), n.toNat ≤ maxRequest →
    h.allocate n kind ≠ .error .outOfMemory → ((∃ e, h.allocate n kind = .error e) ↔
      maxBlockSize < footprint n.toNat ∨
        ∃ m, limit = some m ∧ m.toNat < h.allocatedBytes + footprint n.toNat)
  size_exact : ∀ n : UInt64, n.toNat ≤ maxRequest → (units n).toNat = (max n.toNat 1 + 15) / 16 ∧
    (payloadSize n).toNat = (units n).toNat * 16 ∧ (blockSize n).toNat = 16 + (payloadSize n).toNat
  sum_exact : ∀ n : UInt64, h.allocatedBytes ≤ 0x8000000000000000 → (blockSize n).toNat ≤ maxBlockSize →
    (h.allocated + blockSize n).toNat = h.allocatedBytes + (blockSize n).toNat
  count_exact : h.pointerBlocks ≤ h.blocks.size ∧ 32 * h.blocks.size ≤ h.allocatedBytes

/-- A heap accounts for what it hands out: over any run of requests, whatever its limit, the bytes are
those of the blocks with their headers, both counts are right, the limit is kept, and the next request is
fatal exactly if its block is larger than any may be or the limit would be passed. No step of the
arithmetic wraps around while the bytes do not exceed half of the addresses. -/
theorem serve_accounted (hsizes : ∀ q ∈ requests, q.size.toNat ≤ maxRequest)
    (hrun : ({ limit } : Heap).serve requests = .ok h) : Accounted limit requests h := by
  have hb := (balanced_start limit).serve hsizes hrun
  obtain ⟨hlimit, hblocks⟩ := serve_blocks hrun
  replace hblocks : h.blocks.toList.map Block.request = requests := hblocks
  refine
    { blocks := hblocks, allocated := ?_, count := ?_, pointers := ?_,
      within := fun m hm => hb.within m (hlimit.trans hm), fatal := fun n kind hn hspace => ?_,
      size_exact := fun n hn => ⟨toNat_units n, toNat_payloadSize hn, toNat_blockSize_add hn⟩,
      sum_exact := fun n hhalf hsize => ?_, count_exact := ⟨?_, hb.size_le⟩ }
  · rw [hb.allocated, ← hblocks, List.map_map]
    rfl
  · rw [← hblocks, List.length_map, Array.length_toList]
  · rw [hb.pointers, ← hblocks, List.countP_map]
    rfl
  · rw [hb.fatal_iff hn hspace, hlimit]
  · rw [UInt64.toNat_add]
    have hmax : maxBlockSize = 0x7FFFFFFFFFFFFFF0 := rfl
    exact Nat.mod_eq_of_lt (by change h.allocatedBytes + _ < 2 ^ 64; omega)
  · rw [hb.pointers, ← Array.length_toList]
    exact List.countP_le_length

/-- A heap of 256 bytes that has handed out two blocks has room for 64 bytes more, but not for 100. -/
theorem small_heap_accounted : ∃ h, ({ limit := some 256 } : Heap).serve [⟨8, .pointers⟩, ⟨100, .noPointers⟩] =
    .ok h ∧ Accounted (some 256) [⟨8, .pointers⟩, ⟨100, .noPointers⟩] h ∧ h.allocatedBytes = 160 ∧
    (∃ a h', h.allocate 64 .pointers = .ok (a, h')) ∧
    h.allocate 100 .noPointers = .error .limitExceeded := by
  refine ⟨_, rfl, serve_accounted (by decide) rfl, rfl, ⟨_, _, rfl⟩, rfl⟩

theorem newBytes_eq_ok {w : World} :
    Action.newBytes n w h = (.ok a, h') ↔ h.allocate n .noPointers = .ok (a, h') := by
  unfold Action.newBytes Action.allocateRaw
  cases h.allocate n .noPointers with
  | error e => simp
  | ok result => simp [Prod.ext_iff]

/-- A request is fatal, or it gets a block behind all others. The block has room for all the bytes and is
counted with them and its header exactly up to the greatest request of a 64-bit block size; a greater one
wraps around, and its block ends with its header or, as computed, has no bytes at all. -/
theorem allocate_room (h : Heap) (n : UInt64) (kind : BlockKind) :
    ((∃ e, h.allocate n kind = .error e) ∨
      ∃ (b : Block) (h' : Heap), h.allocate n kind = .ok (b.address, h') ∧ h'.blocks = h.blocks.push b ∧
        b.address.toNat = h.next + 16 ∧ h'.next = h.next + (blockSize n).toNat ∧
        h'.allocated = h.allocated + blockSize n ∧
        (n.toNat ≤ b.room ∧ n.toNat + 16 ≤ (blockSize n).toNat ↔ n.toNat ≤ maxRequest) ∧
        (maxRequest < n.toNat →
          b.room = 0 ∧ (blockSize n).toNat = if n.toNat ≤ UInt64.size - 16 then 0 else 16)) ∧
    ∀ w a h', Action.newBytes n w h = (.ok a, h') ↔ h.allocate n .noPointers = .ok (a, h') := by
  refine ⟨?_, fun w a h' => newBytes_eq_ok⟩
  obtain ⟨e, herror, -⟩ | ⟨a, h', hok, hg⟩ := allocate_outcome h n kind
  · exact .inl ⟨e, herror⟩
  have haddress : a.toNat = h.next + 16 := by
    have hfits := hg.fits
    rw [hg.address]
    exact UInt64.toNat_ofNat_of_lt' (by omega)
  have hroom : (⟨a, n, kind, false⟩ : Block).room = (blockSize n).toNat - 16 := rfl
  refine .inr ⟨⟨a, n, kind, false⟩, h', hok, hg.blocks, haddress, hg.next, hg.allocated, ?_, fun hvast => ?_⟩
  · constructor
    · rintro ⟨-, hcounted⟩
      by_contra hvast
      have hsmall := toNat_blockSize_of_vast (Nat.lt_of_not_le hvast)
      rw [maxRequest_eq] at hvast
      split at hsmall <;> omega
    · intro hn
      have hsize := toNat_blockSize hn
      have hleast := le_footprint n.toNat
      omega
  · have hsmall := toNat_blockSize_of_vast hvast
    refine ⟨?_, hsmall⟩
    split at hsmall <;> omega

/-- A request for all addresses but one gets a block of sixteen bytes, none of them behind the header. -/
theorem vast_bytes_granted : ∃ h', Action.newBytes 0xFFFFFFFFFFFFFFFF { registry := ⟨#[]⟩ } {} =
    (.ok 0x10010, h') ∧ h'.blocks = #[⟨0x10010, 0xFFFFFFFFFFFFFFFF, .noPointers, false⟩] ∧
    h'.next = 0x10010 ∧ h'.allocatedBytes = 16 ∧ ∀ b ∈ h'.blocks.toList, b.room = 0 := by
  refine ⟨_, rfl, rfl, rfl, rfl, ?_⟩
  decide +kernel

end Heap

end ObjectModel
