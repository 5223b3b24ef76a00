import WasmCxxShim.AddressTilings
import WasmCxxShim.DlmallocHeapInvariant
import WasmCxxShim.DlmallocTags

/-!
# The tiling of the heap by chunks

The chunks of the heap, top among them, are tiles. `Tags` says that the heads and feet describe a
tiling: every tile has the head it should have, the chunk after it knows whether it is in use, and
no free tile borders another. `Tags.replace` is the one rule for changes: the tiles of an interval
are replaced by others when the new ones are tagged and nothing is written elsewhere. `Tiled` adds
that the free tiles are the linked chunks and that the tiles fill the segments.
-/
namespace WasmCxxShim.Dlmalloc
open MachineWords AddressRegions AddressTilings LinearMemory

inductive TileKind
  | inuse
  | free
  | top
  deriving DecidableEq, Repr

@[ext]
structure Tile where
  addr : Word
  size : Word
  kind : TileKind
  deriving DecidableEq, Repr

namespace Tile

def next (t : Tile) : Word := t.addr + t.size

def region (t : Tile) : Region := ⟨t.addr.toNat, t.size.toNat⟩

structure Shaped (t : Tile) : Prop where
  addr : t.addr.toNat % 16 = 8
  size : t.size.toNat % 16 = 0
  large : 16 ≤ t.size.toNat
  below : t.addr.toNat + t.size.toNat < 4294967296

theorem Shaped.toNat_next {t : Tile} (h : t.Shaped) :
    t.next.toNat = t.addr.toNat + t.size.toNat := BitVec.toNat_add_of_lt h.below

theorem Shaped.toNat_mem {t : Tile} (h : t.Shaped) :
    (chunk2mem t.addr).toNat = t.addr.toNat + 8 := by
  have hlarge := h.large
  have hbelow := h.below
  rw [chunk2mem, twoSizeTSizes_eq]
  exact BitVec.toNat_add_of_lt (show t.addr.toNat + 8 < 2 ^ 32 by omega)

theorem Shaped.next_mod {t : Tile} (h : t.Shaped) : t.next.toNat % 16 = 8 := by
  have haddr := h.addr
  have hsize := h.size
  rw [h.toNat_next]
  omega

/-- The heads of a tile and of the chunk after it are words of the address space. -/
theorem Shaped.room {t : Tile} (h : t.Shaped) :
    t.addr.toNat + 4 < 4294967296 ∧ t.next.toNat + 4 < 4294967296 := by
  have haddr := h.addr
  have hnext := h.next_mod
  have hbound := t.addr.isLt
  have hbound' := t.next.isLt
  omega

theorem Shaped.finish_eq {t : Tile} (h : t.Shaped) : t.region.finish = t.next.toNat :=
  h.toNat_next.symm

theorem Shaped.addr_mem {t : Tile} (h : t.Shaped) : t.addr.toNat ∈ t.region.bytes := by
  have := h.large
  rw [Region.mem_bytes]
  simp only [region, Region.finish]
  omega

end Tile

/-- The head of a tile, and what the chunk after it records of it. -/
structure Tagged (c : ChunkStore) (t : Tile) : Prop where
  size : c.chunksize t.addr = t.size
  cinuse : c.cinuse t.addr = decide (t.kind = .inuse)
  border : c.pinuse t.next = decide (t.kind = .inuse)
  foot : t.kind = .free → c.prevFoot t.next = t.size

/-- The heads and feet describe the tiling. What follows the last tile of a segment is a fencepost,
which is in use, or the foot of top. -/
structure Tags (c : ChunkStore) (T : Set Tile) : Prop where
  shaped : ∀ t ∈ T, t.Shaped
  separate : Separate Tile.region T
  tagged : ∀ t ∈ T, Tagged c t
  preceded : ∀ t ∈ T, c.pinuse t.addr = true ∨ ∃ u ∈ T, u.next = t.addr
  followed : ∀ t ∈ T, t.kind ≠ .top → (∃ u ∈ T, u.addr = t.next) ∨ c.cinuse t.next = true
  coalesced : ∀ t ∈ T, ∀ u ∈ T, u.addr = t.next →
    t.kind = .inuse ∨ t.kind = .free ∧ u.kind = .inuse

namespace Tags

variable {c c' : ChunkStore} {T N : Set Tile} {t u : Tile}

theorem eq_of_addr (h : Tags c T) (ht : t ∈ T) (hu : u ∈ T) (heq : t.addr = u.addr) : t = u :=
  h.separate.eq ht hu (h.shaped t ht).addr_mem (heq ▸ (h.shaped u hu).addr_mem)

/-- The tile before a chunk whose `pinuse` bit is clear is free. -/
theorem free_before (h : Tags c T) (ht : t ∈ T) (hpin : c.pinuse t.addr = false) :
    ∃ u ∈ T, u.kind = .free ∧ u.next = t.addr := by
  rcases h.preceded t ht with hyes | ⟨u, hu, hnext⟩
  · rw [hpin] at hyes
    cases hyes
  · refine ⟨u, hu, ?_, hnext⟩
    have hborder := (h.tagged u hu).border
    rw [hnext, hpin] at hborder
    rcases h.coalesced u hu t ht hnext.symm with hkind | ⟨hkind, -⟩
    · simp [hkind] at hborder
    · exact hkind

/-- The tile before a chunk whose `pinuse` bit is set is in use. -/
theorem inuse_before (h : Tags c T) (hu : u ∈ T) (hpin : c.pinuse u.next = true) :
    u.kind = .inuse := by
  have hborder := (h.tagged u hu).border
  rw [hpin] at hborder
  simpa using hborder.symm

/-- A chunk in use comes before a tile that is not in use, if anything does. -/
theorem pinuse_of_unused (h : Tags c T) (hu : u ∈ T) (hkind : u.kind ≠ .inuse) :
    c.pinuse u.addr = true := by
  by_contra hno
  obtain ⟨w, hw, hfree, hnext⟩ := h.free_before hu (Bool.not_eq_true _ ▸ hno)
  rcases h.coalesced w hw u hu hnext.symm with hbad | ⟨-, hbad⟩
  · rw [hfree] at hbad
    cases hbad
  · exact hkind hbad

/-- A tile outside an interval lies before or after it. -/
theorem outside (h : Tags c T) (ht : t ∈ T) {a b : ℕ} (hout : Outside a b t.region) :
    t.addr.toNat < t.next.toNat ∧ (t.next.toNat ≤ a ∨ b ≤ t.addr.toNat) := by
  have hlarge := (h.shaped t ht).large
  have hnext := (h.shaped t ht).toNat_next
  rw [Outside, (h.shaped t ht).finish_eq] at hout
  exact ⟨by omega, hout⟩

/-- Links lie in free tiles, between the head and the end. -/
theorem tile_of_loose (h : Tags c T) (hfree : ∀ q, IsFree c q → (⟨q.1, q.2, .free⟩ : Tile) ∈ T)
    {x : Word} (hx : c.Loose x) :
    ∃ u ∈ T, u.kind = .free ∧ u.addr.toNat + 8 ≤ x.toNat ∧ x.toNat < u.next.toNat := by
  obtain ⟨q, hq, hafter, hbefore⟩ := hx
  have hshaped := h.shaped _ (hfree q hq)
  have hnext : (q.1 + q.2).toNat = q.1.toNat + q.2.toNat := hshaped.toNat_next
  have hlarge : 16 ≤ q.2.toNat := hshaped.large
  have hin := links_within hlarge (by omega) hafter hbefore
  exact ⟨_, hfree q hq, rfl, hin⟩

section Firm

variable (h : Tags c T) (hfree : ∀ q, IsFree c q → (⟨q.1, q.2, .free⟩ : Tile) ∈ T) (ht : t ∈ T)

include h hfree ht

theorem firm {x : Word} (hlow : t.addr.toNat ≤ x.toNat) (hhigh : x.toNat ≤ t.next.toNat + 4)
    (hkind : t.kind = .free → x.toNat ≤ t.addr.toNat + 4 ∨ t.next.toNat ≤ x.toNat) :
    ¬ c.Loose x := by
  intro hx
  obtain ⟨u, hu, hukind, hafter, hbefore⟩ := h.tile_of_loose hfree hx
  by_cases heq : t = u
  · subst heq
    have := hkind hukind
    omega
  · have hbeside := h.separate t ht u hu heq
    rw [Beside, (h.shaped t ht).finish_eq, (h.shaped u hu).finish_eq] at hbeside
    change t.next.toNat ≤ u.addr.toNat ∨ u.next.toNat ≤ t.addr.toNat at hbeside
    omega

theorem firm_head : ¬ c.Loose (t.addr + sizeTSize) := by
  have hroom := (h.shaped t ht).room
  have hnext := (h.shaped t ht).toNat_next
  have hhead := toNat_head hroom.1
  exact h.firm hfree ht (by omega) (by omega) fun _ => Or.inl (by omega)

theorem firm_next : ¬ c.Loose t.next := by
  have hnext := (h.shaped t ht).toNat_next
  exact h.firm hfree ht (by omega) (by omega) fun _ => Or.inr (le_refl _)

theorem firm_border : ¬ c.Loose (t.next + sizeTSize) := by
  have hroom := (h.shaped t ht).room
  have hnext := (h.shaped t ht).toNat_next
  have hhead := toNat_head hroom.2
  exact h.firm hfree ht (by omega) (by omega) fun _ => Or.inr (by omega)

end Firm

end Tags

/-- The tiles from `a` to `b`, the first of which is `r`, give way to the tiles `N`. Nothing is
written outside, the chunk at `a` keeps its `pinuse` bit and the tile at `b` its size and `cinuse`
bit. -/
structure Replaces (c c' : ChunkStore) (T : Set Tile) (r : Tile) (b : ℕ) (N : Set Tile) : Prop where
  frame : Frame r.addr.toNat b c c'
  free : ∀ q, IsFree c q → (⟨q.1, q.2, .free⟩ : Tile) ∈ T
  clean : Clean Tile.region T r.addr.toNat b
  first : r ∈ T
  pinuse : c'.pinuse r.addr = c.pinuse r.addr
  border : ∀ u ∈ T, u.addr.toNat = b →
    c'.chunksize u.addr = c.chunksize u.addr ∧ c'.cinuse u.addr = c.cinuse u.addr
  shaped : ∀ n ∈ N, n.Shaped
  separate : Separate Tile.region N
  within : ∀ n ∈ N, r.addr.toNat ≤ n.addr.toNat ∧ n.next.toNat ≤ b
  tagged : ∀ n ∈ N, Tagged c' n
  begins : ∃ n ∈ N, n.addr = r.addr
  ends : ∀ u ∈ T, u.addr.toNat = b → ∃ n ∈ N, n.next = u.addr
  preceded : ∀ n ∈ N, n.addr = r.addr ∨ ∃ u ∈ N, u.next = n.addr
  followed : ∀ n ∈ N, n.kind ≠ .top → (∃ u ∈ N, u.addr = n.next) ∨
    (∃ u ∈ T, u.addr = n.next ∧ u.addr.toNat = b) ∨ c'.cinuse n.next = true
  left : ∀ n ∈ N, n.addr = r.addr → n.kind = .inuse ∨ c.pinuse r.addr = true
  middle : ∀ n ∈ N, ∀ u ∈ N, u.addr = n.next → n.kind = .inuse ∨ n.kind = .free ∧ u.kind = .inuse
  right : ∀ n ∈ N, ∀ u ∈ T, u.addr = n.next → u.addr.toNat = b →
    n.kind = .inuse ∨ n.kind = .free ∧ u.kind = .inuse

namespace Replaces

variable {c c' : ChunkStore} {T N : Set Tile} {r t u : Tile} {b : ℕ}

theorem room (h : Replaces c c' T r b N) : r.addr.toNat < b := by
  obtain ⟨n, hn, heq⟩ := h.begins
  have hwithin := h.within n hn
  have hnext := (h.shaped n hn).toNat_next
  have hlarge := (h.shaped n hn).large
  omega

theorem head_kept (h : Replaces c c' T r b N) (hT : Tags c T) (ht : t ∈ T)
    (hout : Outside r.addr.toNat b t.region) :
    c'.chunksize t.addr = c.chunksize t.addr ∧ c'.cinuse t.addr = c.cinuse t.addr := by
  obtain ⟨hlt, hkept⟩ := hT.outside ht hout
  by_cases hb : t.addr.toNat = b
  · exact h.border t ht hb
  · have hlarge := (hT.shaped t ht).large
    have hnext := (hT.shaped t ht).toNat_next
    have heq := h.frame.head (hT.firm_head h.free ht) (by omega) (hT.shaped t ht).room.1
    rw [ChunkStore.chunksize, ChunkStore.chunksize, ChunkStore.cinuse, ChunkStore.cinuse, heq]
    exact ⟨rfl, rfl⟩

theorem pinuse_kept (h : Replaces c c' T r b N) (hT : Tags c T) {q : Word}
    (hfirm : ¬ c.Loose (q + sizeTSize)) (hmod : q.toNat % 16 = 8)
    (hq : q.toNat ≤ r.addr.toNat ∨ b < q.toNat) : c'.pinuse q = c.pinuse q := by
  by_cases heq : q.toNat = r.addr.toNat
  · rw [BitVec.eq_of_toNat_eq heq, h.pinuse]
  · have haddr := (hT.shaped r h.first).addr
    rw [ChunkStore.pinuse, ChunkStore.pinuse, h.frame.head hfirm (by omega) (by omega)]

theorem tagged_kept (h : Replaces c c' T r b N) (hT : Tags c T) (ht : t ∈ T)
    (hout : Outside r.addr.toNat b t.region) : Tagged c' t := by
  obtain ⟨hlt, hkept⟩ := hT.outside ht hout
  obtain ⟨hsize, hcinuse, hborder, hfoot⟩ := hT.tagged t ht
  have hhead := h.head_kept hT ht hout
  have hmod := (hT.shaped t ht).next_mod
  have hroom := h.room
  refine ⟨hhead.1.trans hsize, hhead.2.trans hcinuse,
    (h.pinuse_kept hT (hT.firm_border h.free ht) hmod (by omega)).trans hborder, fun hfree => ?_⟩
  rw [h.frame.foot (hT.firm_next h.free ht)]
  · exact hfoot hfree
  · rcases hkept with hkept | hkept
    · exact Or.inl hkept
    · have hsize' := (hT.shaped t ht).toNat_next
      have hlarge := (hT.shaped t ht).large
      exact Or.inr (by omega)

theorem preceded_kept (h : Replaces c c' T r b N) (hT : Tags c T) (ht : t ∈ T)
    (hout : Outside r.addr.toNat b t.region) :
    c'.pinuse t.addr = true ∨ ∃ u ∈ replace Tile.region T r.addr.toNat b N, u.next = t.addr := by
  obtain ⟨hlt, hkept⟩ := hT.outside ht hout
  have hroom := h.room
  by_cases hb : t.addr.toNat = b
  · obtain ⟨n, hn, hnext⟩ := h.ends t ht hb
    exact Or.inr ⟨n, Or.inr hn, hnext⟩
  rcases hT.preceded t ht with hyes | ⟨u, hu, hnext⟩
  · exact Or.inl ((h.pinuse_kept hT (hT.firm_head h.free ht) (hT.shaped t ht).addr
      (by omega)).trans hyes)
  · refine Or.inr ⟨u, Or.inl ⟨hu, ?_⟩, hnext⟩
    rcases h.clean u hu with hout' | hin
    · exact hout'
    · rw [Inside, (hT.shaped u hu).finish_eq, hnext] at hin
      rcases hkept with hkept | hkept
      · left
        rw [(hT.shaped u hu).finish_eq, hnext]
        omega
      · omega

theorem followed_kept (h : Replaces c c' T r b N) (hT : Tags c T) (ht : t ∈ T)
    (hout : Outside r.addr.toNat b t.region) (hkind : t.kind ≠ .top) :
    (∃ u ∈ replace Tile.region T r.addr.toNat b N, u.addr = t.next) ∨ c'.cinuse t.next = true := by
  obtain ⟨hlt, hkept⟩ := hT.outside ht hout
  by_cases hstart : t.next.toNat = r.addr.toNat
  · obtain ⟨n, hn, heq⟩ := h.begins
    exact Or.inl ⟨n, Or.inr hn, heq.trans (BitVec.eq_of_toNat_eq hstart.symm)⟩
  rcases hT.followed t ht hkind with ⟨u, hu, haddr⟩ | hfence
  · refine Or.inl ⟨u, Or.inl ⟨hu, ?_⟩, haddr⟩
    rcases h.clean u hu with hout' | hin
    · exact hout'
    · obtain ⟨hlow, hhigh⟩ := hin
      have hlow' : r.addr.toNat ≤ u.addr.toNat := hlow
      have hsize := (hT.shaped u hu).toNat_next
      have hlarge := (hT.shaped u hu).large
      rw [(hT.shaped u hu).finish_eq] at hhigh
      rw [haddr] at hsize hlow'
      omega
  · right
    have hmod := (hT.shaped t ht).next_mod
    have haddr := (hT.shaped r h.first).addr
    rw [ChunkStore.cinuse, h.frame.head (hT.firm_border h.free ht) (by omega)
      (hT.shaped t ht).room.2]
    exact hfence

theorem coalesced_kept (h : Replaces c c' T r b N) (hT : Tags c T) (ht : t ∈ T)
    (hout : Outside r.addr.toNat b t.region) (hu : u ∈ N) (haddr : u.addr = t.next) :
    t.kind = .inuse ∨ t.kind = .free ∧ u.kind = .inuse := by
  obtain ⟨hlt, hkept⟩ := hT.outside ht hout
  have hroom := h.room
  have hwithin := h.within u hu
  have hnext := (h.shaped u hu).toNat_next
  have hlarge := (h.shaped u hu).large
  rw [haddr] at hwithin hnext
  have heq : t.next = r.addr := BitVec.eq_of_toNat_eq (by omega)
  rcases h.left u hu (haddr.trans heq) with hkind | hpin
  · rcases hT.coalesced t ht r h.first heq.symm with htk | ⟨htk, -⟩
    · exact Or.inl htk
    · exact Or.inr ⟨htk, hkind⟩
  · left
    exact hT.inuse_before ht (heq ▸ hpin)

theorem tags (h : Replaces c c' T r b N) (hT : Tags c T) :
    Tags c' (replace Tile.region T r.addr.toNat b N) where
  shaped := by
    rintro t (⟨ht, -⟩ | ht)
    · exact hT.shaped t ht
    · exact h.shaped t ht
  separate := hT.separate.replace h.separate fun n hn => by
    rw [Inside, (h.shaped n hn).finish_eq]
    exact h.within n hn
  tagged := by
    rintro t (⟨ht, hout⟩ | ht)
    · exact h.tagged_kept hT ht hout
    · exact h.tagged t ht
  preceded := by
    rintro t (⟨ht, hout⟩ | ht)
    · exact h.preceded_kept hT ht hout
    rcases h.preceded t ht with heq | ⟨u, hu, hnext⟩
    · rw [heq]
      rcases hT.preceded r h.first with hyes | ⟨u, hu, hnext⟩
      · exact Or.inl (h.pinuse.trans hyes)
      · refine Or.inr ⟨u, Or.inl ⟨hu, Or.inl ?_⟩, hnext⟩
        rw [(hT.shaped u hu).finish_eq, hnext]
    · exact Or.inr ⟨u, Or.inr hu, hnext⟩
  followed := by
    rintro t (⟨ht, hout⟩ | ht) hkind
    · exact h.followed_kept hT ht hout hkind
    rcases h.followed t ht hkind with ⟨u, hu, haddr⟩ | ⟨u, hu, haddr, hb⟩ | hfence
    · exact Or.inl ⟨u, Or.inr hu, haddr⟩
    · exact Or.inl ⟨u, Or.inl ⟨hu, Or.inr hb.ge⟩, haddr⟩
    · exact Or.inr hfence
  coalesced := by
    rintro t (⟨ht, hout⟩ | ht) u (⟨hu, hout'⟩ | hu) haddr
    · exact hT.coalesced t ht u hu haddr
    · exact h.coalesced_kept hT ht hout hu haddr
    · refine h.right t ht u hu haddr ?_
      have hkept := hT.outside hu hout'
      have hwithin := h.within t ht
      have hnext := (h.shaped t ht).toNat_next
      have hlarge := (h.shaped t ht).large
      rw [haddr] at hkept ⊢
      omega
    · exact h.middle t ht u hu haddr

section Runs

variable {n n' l : Tile} (hT : Tags c T) (hr : r ∈ T) (hl : l ∈ T)
  (hpin : c'.pinuse r.addr = c.pinuse r.addr)
  (hend : c'.chunksize l.next = c.chunksize l.next ∧ c'.cinuse l.next = c.cinuse l.next)
  (hclean : Clean Tile.region T r.addr.toNat l.next.toNat)
  (hframe : Frame r.addr.toNat l.next.toNat c c')
  (hfree : ∀ q, IsFree c q → (⟨q.1, q.2, .free⟩ : Tile) ∈ T)

include hT hr hl hpin hend hclean hframe hfree

/-- The tiles from `r` to `l` become the tile `n`. -/
theorem one (hn : n.Shaped) (htagged : Tagged c' n) (haddr : n.addr = r.addr)
    (hnext : n.next = l.next) (htop : n.kind = .top ↔ l.kind = .top)
    (hleft : n.kind = .inuse ∨ c.pinuse r.addr = true)
    (hright : n.kind = .free → ∀ u ∈ T, u.addr = l.next → u.kind = .inuse) :
    Replaces c c' T r l.next.toNat {n} where
  frame := hframe
  free := hfree
  clean := hclean
  first := hr
  pinuse := hpin
  border u _ hu := BitVec.eq_of_toNat_eq hu ▸ hend
  shaped m hm := hm ▸ hn
  separate m hm m' hm' hne := absurd (hm.trans hm'.symm) hne
  within m hm := by
    subst hm
    exact ⟨haddr ▸ le_refl _, hnext ▸ le_refl _⟩
  tagged m hm := hm ▸ htagged
  begins := ⟨n, rfl, haddr⟩
  ends u _ hu := ⟨n, rfl, hnext.trans (BitVec.eq_of_toNat_eq hu).symm⟩
  preceded m hm := by
    subst hm
    exact Or.inl haddr
  followed m hm hkind := by
    subst hm
    rw [hnext, hend.2]
    rcases hT.followed l hl (fun h => hkind (htop.mpr h)) with ⟨u, hu, heq⟩ | hfence
    · exact Or.inr (Or.inl ⟨u, hu, heq, congrArg BitVec.toNat heq⟩)
    · exact Or.inr (Or.inr hfence)
  left m hm _ := by
    subst hm
    exact hleft
  middle m hm m' hm' heq := by
    subst hm hm'
    have hroom := hn.toNat_next
    have hlarge := hn.large
    rw [← heq] at hroom
    omega
  right m hm u hu heq _ := by
    subst hm
    rw [hnext] at heq
    cases hkind : m.kind with
    | inuse => exact Or.inl rfl
    | free => exact Or.inr ⟨rfl, hright hkind u hu heq⟩
    | top =>
      rcases hT.coalesced l hl u hu heq with h | ⟨h, -⟩
      · rw [htop.mp hkind] at h
        cases h
      · rw [htop.mp hkind] at h
        cases h

/-- The tiles from `r` to `l` become the tiles `n` and `n'`. -/
theorem two (hn : n.Shaped) (hn' : n'.Shaped) (htagged : Tagged c' n) (htagged' : Tagged c' n')
    (haddr : n.addr = r.addr) (hmid : n'.addr = n.next) (hnext : n'.next = l.next)
    (htop : n'.kind = .top ↔ l.kind = .top) (hleft : n.kind = .inuse ∨ c.pinuse r.addr = true)
    (hkinds : n.kind = .inuse ∨ n.kind = .free ∧ n'.kind = .inuse)
    (hright : n'.kind = .free → ∀ u ∈ T, u.addr = l.next → u.kind = .inuse) :
    Replaces c c' T r l.next.toNat {n, n'} := by
  have hroom := hn.toNat_next
  have hlarge := hn.large
  have hroom' := hn'.toNat_next
  have hlarge' := hn'.large
  have hlow : n.next.toNat = n'.addr.toNat := congrArg BitVec.toNat hmid.symm
  have hhigh : n'.next.toNat = l.next.toNat := congrArg BitVec.toNat hnext
  have hbase : n.addr.toNat = r.addr.toNat := congrArg BitVec.toNat haddr
  have hne : ∀ m ∈ ({n, n'} : Set Tile), m.next.toNat = l.next.toNat → m = n' := by
    rintro m (rfl | rfl) heq
    · omega
    · rfl
  refine ⟨hframe, hfree, hclean, hr, hpin, fun u _ hu => BitVec.eq_of_toNat_eq hu ▸ hend, ?_, ?_,
    ?_, ?_, ⟨n, Or.inl rfl, haddr⟩, fun u _ hu => ⟨n', Or.inr rfl, hnext.trans
      (BitVec.eq_of_toNat_eq hu).symm⟩, ?_, ?_, ?_, ?_, ?_⟩
  · rintro m (rfl | rfl)
    · exact hn
    · exact hn'
  · rintro m (rfl | rfl) m' (rfl | rfl) hdiff
    · exact absurd rfl hdiff
    · left
      rw [hn.finish_eq, hlow]
      exact le_refl _
    · right
      rw [hn.finish_eq, hlow]
      exact le_refl _
    · exact absurd rfl hdiff
  · rintro m (rfl | rfl)
    · exact ⟨hbase.ge, by omega⟩
    · exact ⟨by omega, hhigh.le⟩
  · rintro m (rfl | rfl)
    · exact htagged
    · exact htagged'
  · rintro m (rfl | rfl)
    · exact Or.inl haddr
    · exact Or.inr ⟨n, Or.inl rfl, hmid.symm⟩
  · rintro m (rfl | rfl) hkind
    · exact Or.inl ⟨n', Or.inr rfl, hmid⟩
    · rw [hnext, hend.2]
      rcases hT.followed l hl (fun h => hkind (htop.mpr h)) with ⟨u, hu, heq⟩ | hfence
      · exact Or.inr (Or.inl ⟨u, hu, heq, congrArg BitVec.toNat heq⟩)
      · exact Or.inr (Or.inr hfence)
  · rintro m (rfl | rfl) heq
    · exact hleft
    · have := congrArg BitVec.toNat heq
      omega
  · rintro m (rfl | rfl) m' (rfl | rfl) heq
    · have := congrArg BitVec.toNat heq
      omega
    · exact hkinds
    · have := congrArg BitVec.toNat heq
      omega
    · have := congrArg BitVec.toNat heq
      omega
  · intro m hm u hu heq hb
    obtain rfl := hne m hm (heq ▸ hb)
    rw [hnext] at heq
    cases hkind : m.kind with
    | inuse => exact Or.inl rfl
    | free => exact Or.inr ⟨rfl, hright hkind u hu heq⟩
    | top =>
      rcases hT.coalesced l hl u hu heq with h | ⟨h, -⟩
      · rw [htop.mp hkind] at h
        cases h
      · rw [htop.mp hkind] at h
        cases h

end Runs

end Replaces

/-- The chunks of `F` are those that the bins link and dv. -/
structure Links (c : ChunkStore) (F : Set (Word × Word)) : Prop where
  nodup : c.binned.Nodup
  free_iff : ∀ x, x ∈ F ↔ x ∈ c.binned ∨ x = (c.dv, c.dvsize) ∧ c.dvsize ≠ 0
  dv_unlinked : c.dvsize ≠ 0 → (c.dv, c.dvsize) ∉ c.binned
  dv_null : c.dvsize = 0 → c.dv = 0

namespace Links

variable {c c' : ChunkStore} {F : Set (Word × Word)} {p s : Word}

theorem congr (h : Links c F) (hdv : c'.dv = c.dv) (hsize : c'.dvsize = c.dvsize)
    (hbinned : c'.binned = c.binned) : Links c' F := by
  constructor
  · rw [hbinned]
    exact h.nodup
  · rw [hbinned, hdv, hsize]
    exact h.free_iff
  · rw [hbinned, hdv, hsize]
    exact h.dv_unlinked
  · rw [hdv, hsize]
    exact h.dv_null

theorem dv_mem (h : Links c F) (hdv : c.dvsize ≠ 0) : (c.dv, c.dvsize) ∈ F :=
  (h.free_iff _).mpr (Or.inr ⟨rfl, hdv⟩)

theorem mem_of_binned (h : Links c F) {x : Word × Word} (hx : x ∈ c.binned) : x ∈ F :=
  (h.free_iff x).mpr (Or.inl hx)

/-- A free chunk other than dv is in a bin. -/
theorem binned_of_ne (h : Links c F) (hmem : (p, s) ∈ F) (hne : p ≠ c.dv) : (p, s) ∈ c.binned := by
  rcases (h.free_iff _).mp hmem with hbinned | ⟨heq, -⟩
  · exact hbinned
  · exact absurd (congrArg Prod.fst heq) hne

theorem unlink (h : Links c F) (hmem : (p, s) ∈ c.binned) :
    Links (c.unlinkChunk p s) (F \ {(p, s)}) where
  nodup := h.nodup.erase _
  free_iff x := by
    change _ ↔ x ∈ c.binned.erase (p, s) ∨ x = (c.dv, c.dvsize) ∧ c.dvsize ≠ 0
    rw [h.nodup.mem_erase_iff, Set.mem_sdiff, h.free_iff, Set.mem_singleton_iff]
    constructor
    · rintro ⟨hx | hx, hne⟩
      · exact Or.inl ⟨hne, hx⟩
      · exact Or.inr hx
    · rintro (⟨hne, hx⟩ | hx)
      · exact ⟨Or.inl hx, hne⟩
      · refine ⟨Or.inr hx, ?_⟩
        rintro rfl
        exact h.dv_unlinked hx.2 (hx.1 ▸ hmem)
  dv_unlinked hdv hx := h.dv_unlinked hdv (List.mem_of_mem_erase hx)
  dv_null := h.dv_null

theorem insert (h : Links c F) (hmem : (p, s) ∉ F) :
    Links (c.insertChunk p s) (Insert.insert (p, s) F) where
  nodup := List.nodup_cons.mpr ⟨fun hx => hmem (h.mem_of_binned hx), h.nodup⟩
  free_iff x := by
    change _ ↔ x ∈ (p, s) :: c.binned ∨ x = (c.dv, c.dvsize) ∧ c.dvsize ≠ 0
    rw [Set.mem_insert_iff, h.free_iff, List.mem_cons, or_assoc]
  dv_unlinked hdv hx := by
    rcases List.mem_cons.mp hx with heq | hx
    · exact hmem (heq ▸ h.dv_mem hdv)
    · exact h.dv_unlinked hdv hx
  dv_null := h.dv_null

/-- dv becomes another chunk, and the chunk that was dv is no longer free. -/
theorem moveDv (h : Links c F) (hdv : c.dvsize ≠ 0) (hs : s ≠ 0) (hmem : (p, s) ∉ c.binned) :
    Links (c.setDv p s) (Insert.insert (p, s) (F \ {(c.dv, c.dvsize)})) where
  nodup := h.nodup
  free_iff x := by
    change _ ↔ x ∈ c.binned ∨ x = (p, s) ∧ s ≠ 0
    rw [Set.mem_insert_iff, Set.mem_sdiff, h.free_iff, Set.mem_singleton_iff]
    constructor
    · rintro (rfl | ⟨hx | ⟨hx, -⟩, hne⟩)
      · exact Or.inr ⟨rfl, hs⟩
      · exact Or.inl hx
      · exact absurd hx hne
    · rintro (hx | ⟨rfl, -⟩)
      · exact Or.inr ⟨Or.inl hx, fun heq => h.dv_unlinked hdv (heq ▸ hx)⟩
      · exact Or.inl rfl
  dv_unlinked _ := hmem
  dv_null hzero := absurd hzero hs

/-- There was no dv. -/
theorem newDv (h : Links c F) (hdv : c.dvsize = 0) (hs : s ≠ 0) (hmem : (p, s) ∉ c.binned) :
    Links (c.setDv p s) (Insert.insert (p, s) F) where
  nodup := h.nodup
  free_iff x := by
    change _ ↔ x ∈ c.binned ∨ x = (p, s) ∧ s ≠ 0
    rw [Set.mem_insert_iff, h.free_iff]
    simp only [hdv, ne_eq, not_true_eq_false, and_false, or_false, hs, not_false_eq_true, and_true]
    exact or_comm
  dv_unlinked _ := hmem
  dv_null hzero := absurd hzero hs

theorem clearDv (h : Links c F) (hdv : c.dvsize ≠ 0) :
    Links (c.setDv 0 0) (F \ {(c.dv, c.dvsize)}) where
  nodup := h.nodup
  free_iff x := by
    change _ ↔ x ∈ c.binned ∨ x = (0, 0) ∧ (0 : Word) ≠ 0
    rw [Set.mem_sdiff, h.free_iff, Set.mem_singleton_iff]
    constructor
    · rintro ⟨hx | ⟨hx, -⟩, hne⟩
      · exact Or.inl hx
      · exact absurd hx hne
    · rintro (hx | ⟨-, hx⟩)
      · exact ⟨Or.inl hx, fun heq => h.dv_unlinked hdv (heq ▸ hx)⟩
      · exact absurd rfl hx
  dv_unlinked hzero := absurd rfl hzero
  dv_null _ := rfl

theorem replaceDv (h : Links c F) (hs : s ≠ 0) (hmem : (p, s) ∉ F) :
    Links (c.replaceDv p s) (Insert.insert (p, s) F) := by
  unfold ChunkStore.replaceDv
  split_ifs with hdv
  · -- The old dv goes to a bin, so nothing is lost.
    refine ⟨List.nodup_cons.mpr ⟨h.dv_unlinked hdv, h.nodup⟩, fun x => ?_, fun _ hx => ?_,
      fun hzero => absurd hzero hs⟩
    · change _ ↔ x ∈ (c.dv, c.dvsize) :: c.binned ∨ x = (p, s) ∧ s ≠ 0
      rw [Set.mem_insert_iff, h.free_iff, List.mem_cons]
      simp only [hdv, ne_eq, not_false_eq_true, and_true, hs]
      tauto
    · rcases List.mem_cons.mp hx with heq | hx
      · exact hmem (heq ▸ h.dv_mem hdv)
      · exact hmem (h.mem_of_binned hx)
  · exact h.newDv (not_not.mp hdv) hs fun hx => hmem (h.mem_of_binned hx)

end Links

/-- The tiles `R` follow one another from `r` to `l`. -/
inductive Run (T : Set Tile) : Tile → Tile → List Tile → Prop
  | one {t : Tile} (mem : t ∈ T) : Run T t t [t]
  | cons {t u l : Tile} {R : List Tile} (mem : t ∈ T) (next : u.addr = t.next)
      (rest : Run T u l R) : Run T t l (t :: R)

namespace Run

variable {c c' : ChunkStore} {T N : Set Tile} {r l t u : Tile} {R : List Tile}

theorem two (ht : t ∈ T) (hu : u ∈ T) (hnext : u.addr = t.next) : Run T t u [t, u] :=
  .cons ht hnext (.one hu)

theorem first_mem (h : Run T r l R) : r ∈ T := by
  cases h with
  | one mem => exact mem
  | cons mem _ _ => exact mem

theorem last_mem (h : Run T r l R) : l ∈ T := by
  induction h with
  | one mem => exact mem
  | cons _ _ _ ih => exact ih

/-- A run may be continued. -/
theorem snoc (h : Run T r l R) (ht : t ∈ T) (hnext : t.addr = l.next) : Run T r t (R ++ [t]) := by
  induction h with
  | one mem => exact two mem ht hnext
  | cons mem next _ ih => exact .cons mem next (ih hnext)

theorem lt (h : Run T r l R) (hT : Tags c T) : r.addr.toNat < l.next.toNat := by
  induction h with
  | one mem =>
    have := (hT.shaped _ mem).toNat_next
    have := (hT.shaped _ mem).large
    omega
  | cons mem next _ ih =>
    have := (hT.shaped _ mem).toNat_next
    rw [next] at ih
    omega

/-- The tiles of a run lie in its interval. -/
theorem inside (h : Run T r l R) (hT : Tags c T) (ht : t ∈ R) :
    r.addr.toNat ≤ t.addr.toNat ∧ t.next.toNat ≤ l.next.toNat := by
  induction h with
  | one mem => exact List.mem_singleton.mp ht ▸ ⟨le_refl _, le_refl _⟩
  | cons mem next rest ih =>
    have hlt := rest.lt hT
    have hroom := (hT.shaped _ mem).toNat_next
    rw [next] at ih hlt
    rcases List.mem_cons.mp ht with rfl | ht
    · exact ⟨le_refl _, hlt.le⟩
    · have := ih ht
      omega

theorem clean (h : Run T r l R) (hT : Tags c T) :
    Clean Tile.region T r.addr.toNat l.next.toNat := by
  induction h with
  | @one t mem =>
    have hclean := hT.separate.clean mem
    rwa [(hT.shaped _ mem).finish_eq] at hclean
  | @cons t u l R mem next rest ih =>
    have hclean := hT.separate.clean mem
    rw [(hT.shaped _ mem).finish_eq, ← next] at hclean
    have hroom := (hT.shaped _ mem).toNat_next
    rw [← next] at hroom
    exact hclean.append ih (by change t.addr.toNat ≤ _; omega) (rest.lt hT).le

/-- There are no other tiles in the interval of a run. -/
theorem outside_iff (h : Run T r l R) (hT : Tags c T) (ht : t ∈ T) :
    Outside r.addr.toNat l.next.toNat t.region ↔ t ∉ R := by
  constructor
  · intro hout hmem
    have hin := h.inside hT hmem
    have hlarge := (hT.outside ht hout)
    omega
  · intro hmem
    induction h with
    | @one r mem =>
      have hbeside := hT.separate t ht r mem (fun heq => hmem (List.mem_singleton.mpr heq))
      rwa [Beside, (hT.shaped r mem).finish_eq] at hbeside
    | @cons r u l R mem next rest ih =>
      rw [List.mem_cons, not_or] at hmem
      have hbeside := hT.separate t ht r mem hmem.1
      have hrest := hT.outside ht (ih hmem.2)
      have hlt := rest.lt hT
      rw [Beside, (hT.shaped t ht).finish_eq, (hT.shaped r mem).finish_eq] at hbeside
      rw [Outside, (hT.shaped t ht).finish_eq]
      change t.next.toNat ≤ r.addr.toNat ∨ r.next.toNat ≤ t.addr.toNat at hbeside
      change t.next.toNat ≤ r.addr.toNat ∨ l.next.toNat ≤ t.addr.toNat
      rw [next] at hrest hlt
      omega

theorem mem_replace (h : Run T r l R) (hT : Tags c T) :
    t ∈ replace Tile.region T r.addr.toNat l.next.toNat N ↔ t ∈ T ∧ t ∉ R ∨ t ∈ N := by
  rw [AddressTilings.mem_replace]
  constructor
  · rintro (⟨ht, hout⟩ | ht)
    · exact Or.inl ⟨ht, (h.outside_iff hT ht).mp hout⟩
    · exact Or.inr ht
  · rintro (⟨ht, hout⟩ | ht)
    · exact Or.inl ⟨ht, (h.outside_iff hT ht).mpr hout⟩
    · exact Or.inr ht

end Run

def freeChunks (T : Set Tile) : Set (Word × Word) := {x | (⟨x.1, x.2, .free⟩ : Tile) ∈ T}

/-- The free chunks outside a run. -/
def others (T : Set Tile) (R : List Tile) : Set (Word × Word) :=
  {x | x ∈ freeChunks T ∧ (⟨x.1, x.2, .free⟩ : Tile) ∉ R}

theorem mem_others {T : Set Tile} {R : List Tile} {x : Word × Word} :
    x ∈ others T R ↔ x ∈ freeChunks T ∧ (⟨x.1, x.2, .free⟩ : Tile) ∉ R := Iff.rfl

/-- The chunks in use. -/
def used (T : Set Tile) : Set Tile := {t | t ∈ T ∧ t.kind = .inuse}

/-- The address of the first chunk of a segment. -/
def firstChunk (s : Segment) : ℕ := s.base.toNat + (alignOffset (chunk2mem s.base)).toNat

/-- The tile is a chunk of the segment, with room for fenceposts after it. -/
def Tile.In (t : Tile) (s : Segment) : Prop :=
  firstChunk s ≤ t.addr.toNat ∧ t.next.toNat + 24 ≤ s.base.toNat + s.size.toNat

/-- The tiles are the chunks of the heap: the free ones are linked, top is one of them, nothing
comes after it in its segment, and they fill the segments up to the foot of each. -/
structure Tiled (m : MallocState) (T : Set Tile) : Prop extends Tags m.chunks T where
  links : Links m.chunks (freeChunks T)
  top_mem : isInitialized m = true → (⟨m.top, m.topsize, .top⟩ : Tile) ∈ T
  top_only : ∀ t ∈ T, t.kind = .top → t = ⟨m.top, m.topsize, .top⟩
  inside : ∀ t ∈ T, ∃ s ∈ segments m, t.In s
  filled : ∀ s ∈ segments m, ∀ x, firstChunk s ≤ x → x + 56 < s.base.toNat + s.size.toNat →
    x ∈ covered Tile.region T
  unique : ∀ s ∈ segments m, ∀ s' ∈ segments m, ∀ x, x ∈ s.region.bytes → x ∈ s'.region.bytes →
    s = s'
  least : ∀ s ∈ segments m, m.leastAddr.toNat ≤ s.base.toNat
  beyond : ∀ t ∈ T, t.addr.toNat ≤ m.top.toNat ∨
    (m.top + m.topsize).toNat + 56 ≤ t.addr.toNat

namespace Tiled

variable {m m' : MallocState} {T N : Set Tile} {r l t u : Tile} {R : List Tile}

/-- The free chunks are tiles. -/
theorem free (h : Tiled m T) {q : Word × Word} (hq : IsFree m.chunks q) :
    (⟨q.1, q.2, .free⟩ : Tile) ∈ T := (h.links.free_iff q).mpr hq

/-- Segments that hold the same address are the same. -/
theorem segment_eq (h : Tiled m T) {s s' : Segment} (hs : s ∈ segments m) (hs' : s' ∈ segments m)
    (x : ℕ) (hx : s.base.toNat ≤ x ∧ x < s.base.toNat + s.size.toNat)
    (hx' : s'.base.toNat ≤ x ∧ x < s'.base.toNat + s'.size.toNat) : s = s' :=
  h.unique s hs s' hs' x (Region.mem_bytes.mpr hx) (Region.mem_bytes.mpr hx')

theorem addr_in (h : Tiled m T) (ht : t ∈ T) {s : Segment} (hin : t.In s) :
    s.base.toNat ≤ t.addr.toNat ∧ t.addr.toNat + 40 ≤ s.base.toNat + s.size.toNat := by
  have hroom := (h.shaped t ht).toNat_next
  have hlarge := (h.shaped t ht).large
  obtain ⟨hlow, hhigh⟩ := hin
  unfold firstChunk at hlow
  omega

theorem least_le (h : Tiled m T) (ht : t ∈ T) : m.leastAddr.toNat ≤ t.addr.toNat := by
  obtain ⟨s, hs, hin⟩ := h.inside t ht
  have haddr := h.addr_in ht hin
  have hleast := h.least s hs
  omega

theorem nodup_binned (h : Tiled m T) : (m.chunks.binned.map Prod.fst).Nodup := by
  refine h.links.nodup.map_on fun x hx y hy heq => ?_
  have htile := h.eq_of_addr (h.links.mem_of_binned hx) (h.links.mem_of_binned hy) heq
  rw [Tile.mk.injEq] at htile
  exact Prod.ext htile.1 htile.2.1

/-- Free tiles pass the checks of the bins. -/
theorem okBins (h : Tiled m T) {c : ChunkStore} (hfree : ∀ x ∈ c.binned, x ∈ freeChunks T) :
    Dlmalloc.okBins m c = true := by
  rw [Dlmalloc.okBins, List.all_eq_true]
  intro x hx
  exact decide_eq_true (word_le.mpr (h.least_le (hfree x hx)))

theorem okBinned (h : Tiled m T) : Dlmalloc.okBins m m.chunks = true :=
  h.okBins fun _ => h.links.mem_of_binned

/-- A tile lies in the segment that holds its address. -/
theorem in_of_addr (h : Tiled m T) (ht : t ∈ T) {s : Segment} (hs : s ∈ segments m)
    (haddr : s.base.toNat ≤ t.addr.toNat ∧ t.addr.toNat < s.base.toNat + s.size.toNat) : t.In s := by
  obtain ⟨s', hs', hin⟩ := h.inside t ht
  have haddr' := h.addr_in ht hin
  rw [h.segment_eq hs hs' t.addr.toNat haddr (by omega)]
  exact hin

/-- Tiles that border each other lie in the same segment. -/
theorem in_next (h : Tiled m T) {s : Segment} (hs : s ∈ segments m) (ht : t ∈ T) (hu : u ∈ T)
    (hin : t.In s) (hnext : u.addr = t.next) : u.In s := by
  have hroom := (h.shaped t ht).toNat_next
  have haddr := h.addr_in ht hin
  have hhigh : t.next.toNat + 24 ≤ s.base.toNat + s.size.toNat := hin.2
  refine h.in_of_addr hu hs ?_
  rw [hnext]
  omega

theorem run_in (h : Tiled m T) (hrun : Run T r l R) {s : Segment} (hs : s ∈ segments m)
    (hin : r.In s) : l.In s := by
  induction hrun with
  | one mem => exact hin
  | cons mem next rest ih => exact ih (h.in_next hs mem rest.first_mem hin next)

theorem top_mem_iff (h : Tiled m T) (ht : t ∈ T) : t.kind = .top ↔ t.addr = m.top := by
  constructor
  · intro hkind
    rw [h.top_only t ht hkind]
  · intro haddr
    have hinit : isInitialized m = true := by
      have := (h.shaped t ht).addr
      rw [isInitialized_iff, word_ne_zero, ← haddr]
      omega
    rw [h.eq_of_addr ht (h.top_mem hinit) haddr]

theorem initialized (h : Tiled m T) (ht : t ∈ T) : isInitialized m = true := by
  obtain ⟨s, hs, -⟩ := h.inside t ht
  by_contra hno
  rw [segments, if_neg hno] at hs
  cases hs

/-- The tiles before top and those beyond its segment do not follow one another. -/
theorem run_beyond (h : Tiled m T) (hrun : Run T r l R) (hr : r.addr.toNat ≤ m.top.toNat) :
    l.addr.toNat ≤ m.top.toNat := by
  induction hrun with
  | one mem => exact hr
  | @cons t u l R mem next rest ih =>
    have htop := h.top_mem (h.initialized mem)
    have hnext := (h.shaped t mem).toNat_next
    have htnext : (m.top + m.topsize).toNat = m.top.toNat + m.topsize.toNat :=
      (h.shaped _ htop).toNat_next
    have htoplarge : 16 ≤ m.topsize.toNat := (h.shaped _ htop).large
    refine ih ((h.beyond u rest.first_mem).resolve_right fun hfar => ?_)
    rw [next] at hfar
    by_cases heq : t = ⟨m.top, m.topsize, .top⟩
    · rw [heq] at hnext hfar
      dsimp only at hnext
      omega
    · have hbeside := h.separate t mem _ htop heq
      have hlarge := (h.shaped t mem).large
      rw [Beside, (h.shaped t mem).finish_eq, (h.shaped _ htop).finish_eq] at hbeside
      change t.next.toNat ≤ m.top.toNat ∨ (m.top + m.topsize).toNat ≤ t.addr.toNat at hbeside
      omega

end Tiled

/-- The words a chunk gives to its user, which include the foot of the next chunk, keep their
contents: no head, foot, link or segment record is written there. -/
def Untouched (c c' : ChunkStore) (t : Tile) : Prop :=
  ∀ x : Word, t.addr.toNat + 8 ≤ x.toNat → x.toNat ≤ t.next.toNat → c'.word x = c.word x

theorem Untouched.trans {c c' c'' : ChunkStore} {t : Tile} (h : Untouched c c' t)
    (h' : Untouched c' c'' t) : Untouched c c'' t := fun x hlow hhigh =>
  (h' x hlow hhigh).trans (h x hlow hhigh)

theorem Frame.untouched {c c' : ChunkStore} {a b : ℕ} {T : Set Tile} {t : Tile}
    (h : Frame a b c c') (hT : Tags c T)
    (hfree : ∀ q, IsFree c q → (⟨q.1, q.2, .free⟩ : Tile) ∈ T) (ht : t ∈ used T)
    (hout : t.next.toNat ≤ a ∨ b ≤ t.addr.toNat) : Untouched c c' t := by
  intro x hlow hhigh
  refine h.word x (hT.firm hfree ht.1 (by omega) (by omega) fun hkind => ?_) (by omega)
  rw [ht.2] at hkind
  cases hkind

/-- What an operation of the allocator does: the chunks `gone` are no longer in use, the chunks
`fresh` are new, and the others are neither moved nor written to. -/
structure Evolves (m m' : MallocState) (T T' gone fresh : Set Tile) : Prop where
  tiled : Tiled m' T'
  used : used T' = (used T \ gone) ∪ fresh
  untouched : ∀ t ∈ Dlmalloc.used T, t ∉ gone → Untouched m.chunks m'.chunks t

/-- Two operations in a row, the second of which takes nothing that the first leaves alone. -/
theorem Evolves.trans {m m' m'' : MallocState} {T T' T'' gone gone' fresh fresh' : Set Tile}
    (h : Evolves m m' T T' gone fresh) (h' : Evolves m' m'' T' T'' gone' fresh')
    (hgone : ∀ t ∈ Dlmalloc.used T, t ∉ gone → t ∉ gone') :
    Evolves m m'' T T'' gone ((fresh \ gone') ∪ fresh') := by
  refine ⟨h'.tiled, ?_, fun t ht hnot => ?_⟩
  · rw [h'.used, h.used, Set.union_sdiff_distrib, Set.union_assoc]
    congr 1
    ext t
    exact ⟨fun ht => ht.1, fun ht => ⟨ht, hgone t ht.1 ht.2⟩⟩
  · have hkept : t ∈ Dlmalloc.used T' := by
      rw [h.used]
      exact Or.inl ⟨ht, hnot⟩
    exact (h.untouched t ht hnot).trans (h'.untouched t hkept (hgone t ht hnot))

/-- An operation that leaves the segments as they are. -/
structure Changes (m m' : MallocState) (T T' gone fresh : Set Tile) : Prop
    extends Evolves m m' T T' gone fresh where
  segs : m'.segs = m.segs
  initialized : isInitialized m' = isInitialized m
  least : m'.leastAddr = m.leastAddr
  finish : m'.top + m'.topsize = m.top + m.topsize

namespace Changes

variable {m m' m'' : MallocState} {T T' T'' gone gone' fresh fresh' : Set Tile}

theorem segments_eq (h : Changes m m' T T' gone fresh) : segments m' = segments m := by
  rw [segments, segments, h.initialized, h.segs]

/-- A tiling changes when a run of its tiles is replaced by tiles that fill the same interval. -/
theorem of_replaces {r l : Tile} {R : List Tile} {N : Set Tile} (hT : Tiled m T)
    (hrun : Run T r l R) (hrep : Replaces m.chunks m'.chunks T r l.next.toNat N)
    (hsegs : m'.segs = m.segs) (hleast : m'.leastAddr = m.leastAddr)
    (hcover : ∀ x, r.addr.toNat ≤ x → x < l.next.toNat → x ∈ covered Tile.region N)
    (hlinks : Links m'.chunks (others T R ∪ freeChunks N))
    (hinit : isInitialized m' = isInitialized m)
    (htop : isInitialized m = true → (⟨m'.top, m'.topsize, .top⟩ : Tile) ∈ T ∧
      (⟨m'.top, m'.topsize, .top⟩ : Tile) ∉ R ∨ (⟨m'.top, m'.topsize, .top⟩ : Tile) ∈ N)
    (honly : ∀ t, t ∈ T ∧ t ∉ R ∨ t ∈ N → t.kind = .top → t = ⟨m'.top, m'.topsize, .top⟩)
    (hfinish : m'.top + m'.topsize = m.top + m.topsize)
    (hgone : gone = {t | t ∈ R ∧ t.kind = .inuse}) (hfresh : fresh = Dlmalloc.used N) :
    Changes m m' T (replace Tile.region T r.addr.toNat l.next.toNat N) gone fresh := by
  have hmem : ∀ t, t ∈ replace Tile.region T r.addr.toNat l.next.toNat N ↔
      t ∈ T ∧ t ∉ R ∨ t ∈ N := fun t => hrun.mem_replace hT.toTags
  have hseg : segments m' = segments m := by rw [segments, segments, hinit, hsegs]
  have htags := hrep.tags hT.toTags
  refine ⟨⟨⟨htags, ?_, ?_, ?_, ?_, ?_, ?_, ?_, ?_⟩, ?_, ?_⟩, hsegs, hinit, hleast, hfinish⟩
  · convert hlinks using 1
    ext x
    exact hmem _
  · rw [hinit]
    exact fun h => (hmem _).mpr (htop h)
  · exact fun t ht => honly t ((hmem t).mp ht)
  · rw [hseg]
    intro t ht
    rcases (hmem t).mp ht with ⟨ht, -⟩ | ht
    · exact hT.inside t ht
    · obtain ⟨s, hs, hin⟩ := hT.inside r hrun.first_mem
      have hlast := hT.run_in hrun hs hin
      have hwithin := hrep.within t ht
      exact ⟨s, hs, hin.1.trans hwithin.1, (Nat.add_le_add_right hwithin.2 24).trans hlast.2⟩
  · rw [hseg]
    intro s hs x hlow hhigh
    exact covered_replace (hrun.clean hT.toTags) hcover (hT.filled s hs x hlow hhigh)
  · rw [hseg]
    exact hT.unique
  · rw [hseg, hleast]
    exact hT.least
  · have hold := hT.initialized hrun.first_mem
    have htop' := (hmem _).mpr (htop hold)
    have hnew : (m'.top + m'.topsize).toNat = m'.top.toNat + m'.topsize.toNat :=
      (htags.shaped _ htop').toNat_next
    have hlarge' : 16 ≤ m'.topsize.toNat := (htags.shaped _ htop').large
    have hprev : (m.top + m.topsize).toNat = m.top.toNat + m.topsize.toNat :=
      (hT.shaped _ (hT.top_mem hold)).toNat_next
    have hprevlarge : 16 ≤ m.topsize.toNat := (hT.shaped _ (hT.top_mem hold)).large
    intro t ht
    have htlarge := (htags.shaped t ht).large
    have htnext := (htags.shaped t ht).toNat_next
    by_cases heq : t = ⟨m'.top, m'.topsize, .top⟩
    · exact Or.inl (by rw [heq])
    have hbeside := htags.separate t ht _ htop' heq
    rw [Beside, (htags.shaped t ht).finish_eq, (htags.shaped _ htop').finish_eq] at hbeside
    change t.next.toNat ≤ m'.top.toNat ∨ (m'.top + m'.topsize).toNat ≤ t.addr.toNat at hbeside
    rcases hbeside with hbefore | hafter
    · exact Or.inl (by omega)
    refine Or.inr ?_
    rw [hfinish] at hafter ⊢
    rcases (hmem t).mp ht with ⟨ht, -⟩ | ht
    · have := hT.beyond t ht
      omega
    · -- A new tile after top comes from a run that lies beyond the segment of top.
      have hwithin := hrep.within t ht
      have hlnext := (hT.shaped l hrun.last_mem).toNat_next
      have htopl := hT.shaped _ (hT.top_mem hold)
      rcases hT.beyond r hrun.first_mem with hr | hr
      · have hl := hT.run_beyond hrun hr
        by_cases hltop : l = ⟨m.top, m.topsize, .top⟩
        · rw [hltop] at hwithin
          change _ ∧ t.next.toNat ≤ (m.top + m.topsize).toNat at hwithin
          omega
        · have hlbeside := hT.separate l hrun.last_mem _ (hT.top_mem hold) hltop
          have hllarge := (hT.shaped l hrun.last_mem).large
          rw [Beside, (hT.shaped l hrun.last_mem).finish_eq, htopl.finish_eq] at hlbeside
          change l.next.toNat ≤ m.top.toNat ∨ (m.top + m.topsize).toNat ≤ l.addr.toNat at hlbeside
          omega
      · omega
  · subst hgone hfresh
    ext t
    simp only [Dlmalloc.used, hmem, Set.mem_ofPred_eq, Set.mem_union, Set.mem_sdiff]
    tauto
  · intro t ht hgone'
    have hnotR : t ∉ R := fun hR => hgone' (hgone ▸ ⟨hR, ht.2⟩)
    have hout := hT.outside ht.1 ((hrun.outside_iff hT.toTags ht.1).mpr hnotR)
    exact hrep.frame.untouched hT.toTags (fun _ => hT.free) ht hout.2

/-- A run below top is replaced, and top stays where it is. -/
theorem below {r l : Tile} {R : List Tile} {N : Set Tile} {c' : ChunkStore} (hT : Tiled m T)
    (hrun : Run T r l R) (hrep : Replaces m.chunks c' T r l.next.toNat N)
    (hR : ∀ x ∈ R, x.kind ≠ .top) (hN : ∀ n ∈ N, n.kind ≠ .top)
    (hcover : ∀ x, r.addr.toNat ≤ x → x < l.next.toNat → x ∈ covered Tile.region N)
    (hlinks : Links c' (others T R ∪ freeChunks N)) :
    ∃ T', Changes m (withChunks c' m) T T' {t | t ∈ R ∧ t.kind = .inuse} (Dlmalloc.used N) := by
  refine ⟨_, of_replaces hT hrun hrep rfl rfl hcover hlinks rfl ?_ ?_ rfl rfl rfl⟩
  · exact fun hinit => Or.inl ⟨hT.top_mem hinit, fun hmem => hR _ hmem rfl⟩
  · rintro x (⟨hx, -⟩ | hx) hkind
    · exact hT.top_only x hx hkind
    · exact absurd hkind (hN x hx)

theorem trans (h : Changes m m' T T' gone fresh) (h' : Changes m' m'' T' T'' gone' fresh')
    (hgone : ∀ t ∈ Dlmalloc.used T, t ∉ gone → t ∉ gone') :
    Changes m m'' T T'' gone ((fresh \ gone') ∪ fresh') :=
  ⟨h.toEvolves.trans h'.toEvolves hgone, h'.segs.trans h.segs, h'.initialized.trans h.initialized,
    h'.least.trans h.least, h'.finish.trans h.finish⟩

/-- An operation that leaves a chunk in use as it is. -/
theorem same {t : Tile} (hT : Tiled m T) (ht : t ∈ Dlmalloc.used T) :
    Changes m m T T {t} {t} := by
  refine ⟨⟨hT, ?_, fun _ _ _ _ _ _ => rfl⟩, rfl, rfl, rfl, rfl⟩
  rw [Set.sdiff_union_self, Set.union_eq_self_of_subset_right (Set.singleton_subset_iff.mpr ht)]

end Changes

end WasmCxxShim.Dlmalloc
