import WasmCxxShim.DlmallocResize

/-!
# The contents of chunks

The bytes of a chunk in use, from its block up to the head of the next chunk, belong to the program.
Writing them leaves the tiling as it is, and what the allocator leaves alone can be read back.
-/
namespace WasmCxxShim.Dlmalloc
open MachineWords WordBytes AddressTilings

variable {c c' c'' : ChunkStore} {m m' : MallocState} {T : Set Tile} {t u : Tile} {a x v : Word}
  {b : Byte}

/-- The address lies in the block of the chunk. -/
def Tile.Holds (t : Tile) (a : ℕ) : Prop := t.addr.toNat + 8 ≤ a ∧ a < t.next.toNat + 4

theorem Tile.Holds.word (h : t.Holds a.toNat) (ht : t.Shaped) :
    t.addr.toNat + 8 ≤ (wordAddr a).toNat ∧ (wordAddr a).toNat ≤ t.next.toNat := by
  obtain ⟨hlow, hhigh⟩ := h
  have haddr := ht.addr
  have hsize := ht.size
  have hnext := ht.toNat_next
  rw [toNat_wordAddr]
  omega

theorem loadByte_congr (h : c'.word (wordAddr a) = c.word (wordAddr a)) :
    c'.loadByte a = c.loadByte a := by
  rw [ChunkStore.loadByte, ChunkStore.loadByte, h]

theorem Untouched.loadByte (h : Untouched c c' t) (ht : t.Shaped) (hin : t.Holds a.toNat) :
    c'.loadByte a = c.loadByte a := by
  obtain ⟨hlow, hhigh⟩ := hin.word ht
  exact loadByte_congr (h _ hlow hhigh)

theorem Kept.loadByte (h : Kept c c' t u) (ht : t.Shaped) (hu : u.Shaped)
    (hin : t.Holds a.toNat) (hin' : u.Holds a.toNat) : c'.loadByte a = c.loadByte a := by
  obtain ⟨hlow, hhigh⟩ := hin.word ht
  exact loadByte_congr (h _ hlow hhigh (hin'.word hu).2)

theorem loadByte_storeByte (a : Word) (b : Byte) (c : ChunkStore) :
    (c.storeByte a b).loadByte a = b := by
  simp [ChunkStore.loadByte, ChunkStore.storeByte, byteOf_withByte _ (lane_lt a)]

theorem loadByte_storeByte_ne {a a' : Word} (hne : a' ≠ a) (b : Byte) (c : ChunkStore) :
    (c.storeByte a b).loadByte a' = c.loadByte a' := by
  by_cases hword : wordAddr a' = wordAddr a
  · have hlane : lane a' ≠ lane a := fun hlane => hne (addr_ext hword hlane)
    simp [ChunkStore.loadByte, ChunkStore.storeByte, hword, byteOf_withByte_ne (lane_lt a') hlane]
  · simp [ChunkStore.loadByte, ChunkStore.storeByte, hword]

theorem toNat_add_one {n : ℕ} (h : a.toNat + n < 4294967296) (hn : 0 < n) :
    (a + 1).toNat = a.toNat + 1 := by
  rw [BitVec.toNat_add_of_lt (show a.toNat + 1 < 2 ^ 32 by omega)]
  rfl

/-- `memset` writes every byte of its range and no other. -/
theorem loadByte_fillBytes (b : Byte) (n : ℕ) (a : Word) (c : ChunkStore)
    (h : a.toNat + n < 4294967296) (a' : Word) :
    (c.fillBytes b n a).loadByte a' =
      if a.toNat ≤ a'.toNat ∧ a'.toNat < a.toNat + n then b else c.loadByte a' := by
  induction n generalizing a c with
  | zero => rw [ChunkStore.fillBytes, if_neg (by omega)]
  | succ n ih =>
    have hnext := toNat_add_one h (by omega)
    rw [ChunkStore.fillBytes, ih _ _ (by omega), hnext]
    by_cases heq : a' = a
    · subst heq
      rw [if_neg (by omega), if_pos (by omega), loadByte_storeByte]
    · have hne : a'.toNat ≠ a.toNat := fun hno => heq (BitVec.eq_of_toNat_eq hno)
      rw [loadByte_storeByte_ne heq]
      exact if_congr (by omega) rfl rfl

/-- `memcpy` between ranges that do not overlap. -/
theorem loadByte_copyBytes (n : ℕ) (dest src : Word) (c : ChunkStore)
    (hdest : dest.toNat + n < 4294967296) (hsrc : src.toNat + n < 4294967296)
    (hapart : src.toNat + n ≤ dest.toNat ∨ dest.toNat + n ≤ src.toNat) (a' : Word) :
    (c.copyBytes n dest src).loadByte a' =
      if dest.toNat ≤ a'.toNat ∧ a'.toNat < dest.toNat + n then c.loadByte (a' - dest + src)
      else c.loadByte a' := by
  induction n generalizing dest src c with
  | zero => rw [ChunkStore.copyBytes, if_neg (by omega)]
  | succ n ih =>
    have hnext := toNat_add_one hdest (by omega)
    have hnext' := toNat_add_one hsrc (by omega)
    rw [ChunkStore.copyBytes, ih _ _ _ (by omega) (by omega) (by omega), hnext]
    by_cases heq : a' = dest
    · subst heq
      rw [if_neg (by omega), if_pos (by omega), loadByte_storeByte, BitVec.sub_self, BitVec.zero_add]
    · have hne : a'.toNat ≠ dest.toNat := fun hno => heq (BitVec.eq_of_toNat_eq hno)
      rw [loadByte_storeByte_ne heq]
      by_cases hin : dest.toNat ≤ a'.toNat ∧ a'.toNat < dest.toNat + (n + 1)
      · rw [if_pos (by omega), if_pos hin]
        have hshift : a' - (dest + 1) + (src + 1) = a' - dest + src := by
          bv_omega
        have hoff : (a' - dest).toNat = a'.toNat - dest.toNat :=
          BitVec.toNat_sub_of_le (word_le.mpr hin.1)
        have hread : a' - dest + src ≠ dest := by
          intro hbad
          have hnat := congrArg BitVec.toNat hbad
          rw [BitVec.toNat_add_of_lt (by omega), hoff] at hnat
          omega
        rw [hshift, loadByte_storeByte_ne hread]
      · rw [if_neg (by omega), if_neg hin]

/-- Nothing is written but the contents of the chunk. -/
structure Rewrites (t : Tile) (c c' : ChunkStore) : Prop where
  word : ∀ x : Word, x.toNat < t.addr.toNat + 8 ∨ t.next.toNat < x.toNat → c'.word x = c.word x
  dv : c'.dv = c.dv
  dvsize : c'.dvsize = c.dvsize
  binned : c'.binned = c.binned

namespace Rewrites

theorem refl : Rewrites t c c := ⟨fun _ _ => rfl, rfl, rfl, rfl⟩

theorem trans (h : Rewrites t c c') (h' : Rewrites t c' c'') : Rewrites t c c'' :=
  ⟨fun x hx => (h'.word x hx).trans (h.word x hx), h'.dv.trans h.dv, h'.dvsize.trans h.dvsize,
    h'.binned.trans h.binned⟩

theorem setWord (hlow : t.addr.toNat + 8 ≤ x.toNat) (hhigh : x.toNat ≤ t.next.toNat) :
    Rewrites t c (c.setWord x v) := by
  refine ⟨fun y hy => Function.update_of_ne ?_ _ _, rfl, rfl, rfl⟩
  rintro rfl
  omega

theorem storeByte (ht : t.Shaped) (hin : t.Holds a.toNat) : Rewrites t c (c.storeByte a b) := by
  obtain ⟨hlow, hhigh⟩ := hin.word ht
  exact setWord hlow hhigh

theorem fillBytes (ht : t.Shaped) (b : Byte) (n : ℕ) (hlow : t.addr.toNat + 8 ≤ a.toNat)
    (hhigh : a.toNat + n ≤ t.next.toNat + 4) (hroom : a.toNat + n < 4294967296) :
    Rewrites t c (c.fillBytes b n a) := by
  induction n generalizing a c with
  | zero => exact refl
  | succ n ih =>
    have hnext := toNat_add_one hroom (by omega)
    exact (storeByte ht ⟨hlow, by omega⟩).trans (ih (by omega) (by omega) (by omega))

theorem copyBytes (ht : t.Shaped) (n : ℕ) (src : Word) (hlow : t.addr.toNat + 8 ≤ a.toNat)
    (hhigh : a.toNat + n ≤ t.next.toNat + 4) (hroom : a.toNat + n < 4294967296) :
    Rewrites t c (c.copyBytes n a src) := by
  induction n generalizing a src c with
  | zero => exact refl
  | succ n ih =>
    have hnext := toNat_add_one hroom (by omega)
    exact (storeByte ht ⟨hlow, by omega⟩).trans (ih _ (by omega) (by omega) (by omega))

theorem untouched (h : Rewrites t c c')
    (hout : u.next.toNat ≤ t.addr.toNat ∨ t.next.toNat ≤ u.addr.toNat) : Untouched c c' u := by
  intro y hlow hhigh
  exact h.word y (by omega)

end Rewrites

/-- The tags are not among the contents of a chunk in use. -/
theorem Tags.rewrite (hT : Tags c T) (ht : t ∈ T) (hkind : t.kind = .inuse)
    (h : Rewrites t c c') : Tags c' T := by
  have hout : ∀ u ∈ T, u ≠ t → u.next.toNat ≤ t.addr.toNat ∨ t.next.toNat ≤ u.addr.toNat := by
    intro u hu hne
    have hbeside := hT.separate u hu t ht hne
    rw [Beside, (hT.shaped u hu).finish_eq, (hT.shaped t ht).finish_eq] at hbeside
    exact hbeside
  have haddr : ∀ u ∈ T, c'.head u.addr = c.head u.addr := by
    intro u hu
    have hhead := toNat_head (hT.shaped u hu).room.1
    by_cases heq : u = t
    · subst heq
      exact h.word _ (Or.inl (by omega))
    · have := (hT.shaped u hu).toNat_next
      have := hout u hu heq
      exact h.word _ (by omega)
  have hnext : ∀ u ∈ T, c'.head u.next = c.head u.next := by
    intro u hu
    have hhead := toNat_head (hT.shaped u hu).room.2
    by_cases heq : u = t
    · subst heq
      exact h.word _ (Or.inr (by omega))
    · have := (hT.shaped u hu).toNat_next
      have := hout u hu heq
      exact h.word _ (by omega)
  refine ⟨hT.shaped, hT.separate, fun u hu => ?_, fun u hu => ?_, fun u hu hne => ?_, hT.coalesced⟩
  · obtain ⟨hsize, hcinuse, hborder, hfoot⟩ := hT.tagged u hu
    refine ⟨?_, ?_, ?_, fun hfree => ?_⟩
    · rw [ChunkStore.chunksize, haddr u hu]
      exact hsize
    · rw [ChunkStore.cinuse, haddr u hu]
      exact hcinuse
    · rw [ChunkStore.pinuse, hnext u hu]
      exact hborder
    · have hne : u ≠ t := by
        rintro rfl
        rw [hkind] at hfree
        cases hfree
      have := (hT.shaped u hu).toNat_next
      have := (hT.shaped u hu).large
      have := hout u hu hne
      exact (h.word _ (by omega)).trans (hfoot hfree)
  · rw [ChunkStore.pinuse, haddr u hu]
    exact hT.preceded u hu
  · rw [ChunkStore.cinuse, hnext u hu]
    exact hT.followed u hu hne

/-- The program may write into its chunks. -/
theorem Tiled.rewrite (hT : Tiled m T) (ht : t ∈ used T) (h : Rewrites t m.chunks c') :
    Changes m (withChunks c' m) T T {t} {t} := by
  refine ⟨⟨⟨hT.toTags.rewrite ht.1 ht.2 h, hT.links.congr h.dv h.dvsize h.binned, hT.top_mem,
    hT.top_only, hT.inside, hT.filled, hT.unique, hT.least, hT.beyond⟩,
    (Changes.same hT ht).used, fun u hu hne => ?_⟩, rfl, rfl, rfl, rfl⟩
  have hbeside := hT.separate u hu.1 t ht.1 hne
  rw [Beside, (hT.shaped u hu.1).finish_eq, (hT.shaped t ht.1).finish_eq] at hbeside
  exact h.untouched hbeside

end WasmCxxShim.Dlmalloc
