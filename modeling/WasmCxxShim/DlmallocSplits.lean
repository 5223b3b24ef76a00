import WasmCxxShim.DlmallocConsolidate

/-!
# Taking and splitting chunks

A run of tiles becomes a chunk in use, alone or followed by what is left of the run. Requests take
free chunks and top in this way, and a chunk that is resized takes the free space after it.
-/
namespace WasmCxxShim.Dlmalloc
open MachineWords AddressRegions AddressTilings LinearMemory

/-- `nb` is the size of a chunk. -/
structure Sized (nb : Word) : Prop where
  mod : nb.toNat % 16 = 0
  large : 16 ≤ nb.toNat

variable {m m' : MallocState} {T : Set Tile} {r l t u v : Tile} {R : List Tile} {s nb rest : Word}

/-- A run is cut into a front of `nb` bytes and the rest. -/
structure Parts (r l : Tile) (nb rest : Word) : Prop where
  front : Sized nb
  back : Sized rest
  start : (r.addr + nb).toNat = r.addr.toNat + nb.toNat
  finish : r.addr + nb + rest = l.next
  total : l.next.toNat = r.addr.toNat + nb.toNat + rest.toNat

theorem Run.parts (hrun : Run T r l R) (hT : Tags m.chunks T) (hs : r.addr + s = l.next)
    (hnb : Sized nb) (hroom : nb.toNat + 16 ≤ s.toNat) : Parts r l nb (s - nb) := by
  obtain ⟨hsize, hmod, -⟩ := hrun.size hT hs
  have hlt := hrun.lt hT
  have hbound := l.next.isLt
  have hnbmod := hnb.mod
  have hstart : (r.addr + nb).toNat = r.addr.toNat + nb.toNat := BitVec.toNat_add_of_lt (by omega)
  have hrest : (s - nb).toNat = s.toNat - nb.toNat :=
    BitVec.toNat_sub_of_le (word_le.mpr (by omega))
  refine ⟨hnb, ⟨by omega, by omega⟩, hstart, ?_, by omega⟩
  rw [← hs, BitVec.add_assoc, BitVec.add_comm nb, BitVec.sub_add_cancel]

namespace Parts

theorem first_ne (h : Parts r l nb rest) : r.addr + nb ≠ r.addr := by
  intro heq
  have hstart := h.start
  have hlarge := h.front.large
  rw [heq] at hstart
  omega

theorem last_ne (h : Parts r l nb rest) : l.next ≠ r.addr := by
  intro heq
  have htotal := h.total
  have hlarge := h.front.large
  rw [heq] at htotal
  omega

theorem last_ne_rest (h : Parts r l nb rest) : l.next ≠ r.addr + nb := by
  intro heq
  have htotal := h.total
  have hlarge := h.back.large
  rw [heq, h.start] at htotal
  omega

theorem rest_ne_zero (h : Parts r l nb rest) : rest ≠ 0 := by
  have hlarge := h.back.large
  rw [word_ne_zero]
  omega

theorem covers (h : Parts r l nb rest) (kind kind' : TileKind) (x : ℕ)
    (hlow : r.addr.toNat ≤ x) (hhigh : x < l.next.toNat) :
    x ∈ covered Tile.region {(⟨r.addr, nb, kind⟩ : Tile), ⟨r.addr + nb, rest, kind'⟩} := by
  have hstart := h.start
  have htotal := h.total
  by_cases hx : x < r.addr.toNat + nb.toNat
  · exact ⟨_, Or.inl rfl, Region.mem_bytes.mpr ⟨hlow, hx⟩⟩
  · refine ⟨_, Or.inr rfl, ?_⟩
    rw [Region.mem_bytes]
    simp only [Tile.region, Region.finish]
    omega

/-- No tile outside the run begins where the rest begins. -/
theorem mem_run (h : Parts r l nb rest) (hrun : Run T r l R) (hT : Tags m.chunks T) (hx : t ∈ T)
    (haddr : t.addr = r.addr + nb) : t ∈ R := by
  by_contra hout
  have houtside := hT.outside hx ((hrun.outside_iff hT hx).mpr hout)
  have hstart := h.start
  have htotal := h.total
  have hfront := h.front.large
  have hback := h.back.large
  rw [haddr] at houtside
  omega

theorem rest_unlinked (h : Parts r l nb rest) (hrun : Run T r l R) (hT : Tags m.chunks T)
    (q : Word) : (r.addr + nb, q) ∉ others T R :=
  fun hx => hx.2 (h.mem_run hrun hT hx.1 rfl)

/-- The two parts replace the run. -/
theorem replaces (h : Parts r l nb rest) {c' : ChunkStore} {k : TileKind} (hT : Tags m.chunks T)
    (hlinked : ∀ q, IsFree m.chunks q → (⟨q.1, q.2, .free⟩ : Tile) ∈ T) (hrun : Run T r l R)
    (hframe : Frame r.addr.toNat l.next.toNat m.chunks c')
    (hpin : c'.pinuse r.addr = m.chunks.pinuse r.addr)
    (hend : c'.chunksize l.next = m.chunks.chunksize l.next ∧
      c'.cinuse l.next = m.chunks.cinuse l.next)
    (htagged : Tagged c' ⟨r.addr, nb, .inuse⟩) (htagged' : Tagged c' ⟨r.addr + nb, rest, k⟩)
    (htop : k = .top ↔ l.kind = .top) (hfree : k = .free → l.kind = .free) :
    Replaces m.chunks c' T r l.next.toNat {⟨r.addr, nb, .inuse⟩, ⟨r.addr + nb, rest, k⟩} := by
  have haddr := (hT.shaped r hrun.first_mem).addr
  have hfront := h.front
  have hback := h.back
  have hstart := h.start
  have htotal := h.total
  have hbound := l.next.isLt
  have hmod := hfront.mod
  refine Replaces.two hT hrun.first_mem hrun.last_mem hpin hend (hrun.clean hT) hframe hlinked
    ⟨haddr, hfront.mod, hfront.large, by dsimp only; omega⟩
    ⟨by dsimp only; omega, hback.mod, hback.large, by dsimp only; omega⟩ htagged htagged' rfl rfl
    h.finish htop (Or.inl rfl) (Or.inl rfl) ?_
  intro hkind u hu haddr
  rcases hT.coalesced l hrun.last_mem u hu haddr with hbad | ⟨-, hinuse⟩
  · rw [hfree hkind] at hbad
    cases hbad
  · exact hinuse

end Parts

theorem Tagged.inuse {c : ChunkStore} {p s : Word} (hsize : c.chunksize p = s)
    (hcinuse : c.cinuse p = true) (hborder : c.pinuse (p + s) = true) :
    Tagged c ⟨p, s, .inuse⟩ :=
  ⟨hsize, hcinuse, hborder, fun hkind => nomatch hkind⟩

theorem Tagged.free {c : ChunkStore} {p s : Word} (hmod : s.toNat % 16 = 0)
    (hhead : c.head p = s ||| pinuseBit) (hborder : c.pinuse (p + s) = false)
    (hfoot : c.prevFoot (p + s) = s) : Tagged c ⟨p, s, .free⟩ :=
  ⟨by rw [ChunkStore.chunksize_eq, hhead, headSize_free hmod],
    by rw [ChunkStore.cinuse_eq, hhead, headCinuse_free hmod]; rfl, hborder, fun _ => hfoot⟩

theorem Tagged.top {c : ChunkStore} {p s : Word} (hmod : s.toNat % 16 = 0)
    (hhead : c.head p = s ||| pinuseBit) (hborder : c.pinuse (p + s) = false) :
    Tagged c ⟨p, s, .top⟩ :=
  ⟨by rw [ChunkStore.chunksize_eq, hhead, headSize_free hmod],
    by rw [ChunkStore.cinuse_eq, hhead, headCinuse_free hmod]; rfl, hborder,
    fun hkind => nomatch hkind⟩

theorem used_pair {k : TileKind} {p s : Word} (hk : k ≠ .inuse) :
    Dlmalloc.used {⟨p, nb, .inuse⟩, ⟨p + nb, s, k⟩} = ({⟨p, nb, .inuse⟩} : Set Tile) := by
  ext x
  constructor
  · rintro ⟨rfl | rfl, hkind⟩
    · rfl
    · exact absurd hkind hk
  · rintro rfl
    exact ⟨Or.inl rfl, rfl⟩

namespace Changes

variable {c' : ChunkStore} (hT : Tiled m T) (hrun : Run T r l R)
  (hframe : Frame r.addr.toNat l.next.toNat m.chunks c')
  (hpin : c'.pinuse r.addr = m.chunks.pinuse r.addr)
  (hend : c'.chunksize l.next = m.chunks.chunksize l.next ∧
    c'.cinuse l.next = m.chunks.cinuse l.next)

include hT hrun hframe hpin hend

/-- The run becomes one chunk in use. -/
theorem taken (hR : ∀ x ∈ R, x.kind ≠ .top) (hs : r.addr + s = l.next)
    (hsize : c'.chunksize r.addr = s) (hcinuse : c'.cinuse r.addr = true)
    (hborder : c'.pinuse l.next = true) (hlinks : Links c' (others T R)) :
    ∃ T', Changes m (withChunks c' m) T T' {t | t ∈ R ∧ t.kind = .inuse}
      {⟨r.addr, s, .inuse⟩} := by
  have hlast : l.kind ≠ .top := hR l hrun.last_mem_run
  have hrep : Replaces m.chunks c' T r l.next.toNat {⟨r.addr, s, .inuse⟩} :=
    Replaces.one hT.toTags hrun.first_mem hrun.last_mem hpin hend (hrun.clean hT.toTags) hframe
      (fun _ => hT.free) (hrun.shaped hT.toTags hs .inuse) (Tagged.inuse hsize hcinuse (hs ▸ hborder)) rfl hs
      (by simp [hlast]) (Or.inl rfl) (fun hkind => nomatch hkind)
  have hused : Dlmalloc.used {(⟨r.addr, s, .inuse⟩ : Tile)} = {⟨r.addr, s, .inuse⟩} := by
    ext x
    exact ⟨fun hx => hx.1, fun hx => ⟨hx, by rw [Set.mem_singleton_iff.mp hx]⟩⟩
  rw [← hused]
  refine Changes.below hT hrun hrep hR ?_ (hrun.covers hT.toTags hs .inuse) ?_
  · rintro n rfl hkind
    cases hkind
  · convert hlinks using 1
    ext x
    simp [freeChunks]

variable (hparts : Parts r l nb rest)

include hparts

/-- The front of the run becomes a chunk in use, and the rest a free one. -/
theorem split (hR : ∀ x ∈ R, x.kind ≠ .top) (hl : l.kind = .free)
    (hsize : c'.chunksize r.addr = nb) (hcinuse : c'.cinuse r.addr = true)
    (hhead : c'.head (r.addr + nb) = rest ||| pinuseBit) (hborder : c'.pinuse l.next = false)
    (hfoot : c'.prevFoot l.next = rest)
    (hlinks : Links c' (insert (r.addr + nb, rest) (others T R))) :
    ∃ T', Changes m (withChunks c' m) T T' {t | t ∈ R ∧ t.kind = .inuse}
      {⟨r.addr, nb, .inuse⟩} := by
  have htagged : Tagged c' ⟨r.addr, nb, .inuse⟩ :=
    Tagged.inuse hsize hcinuse (by rw [ChunkStore.pinuse_eq, hhead, headPinuse_free])
  have htagged' : Tagged c' ⟨r.addr + nb, rest, .free⟩ :=
    Tagged.free hparts.back.mod hhead (hparts.finish ▸ hborder) (hparts.finish ▸ hfoot)
  have hrep := hparts.replaces hT.toTags (fun _ => hT.free) hrun hframe hpin hend htagged htagged' (by simp [hl])
    (fun _ => hl)
  rw [← used_pair (s := rest) (show TileKind.free ≠ .inuse by decide)]
  refine Changes.below hT hrun hrep hR ?_ (hparts.covers .inuse .free) ?_
  · rintro n (rfl | rfl) hkind
    · cases hkind
    · cases hkind
  · convert hlinks using 1
    ext x
    simp [freeChunks, Prod.ext_iff, or_comm]

/-- Both parts of the run are chunks in use. -/
theorem cut (hR : ∀ x ∈ R, x.kind ≠ .top) (hsize : c'.chunksize r.addr = nb)
    (hcinuse : c'.cinuse r.addr = true) (hsize' : c'.chunksize (r.addr + nb) = rest)
    (hcinuse' : c'.cinuse (r.addr + nb) = true) (hmid : c'.pinuse (r.addr + nb) = true)
    (hborder : c'.pinuse l.next = true) (hlinks : Links c' (others T R)) :
    ∃ T', Changes m (withChunks c' m) T T' {t | t ∈ R ∧ t.kind = .inuse}
      {⟨r.addr, nb, .inuse⟩, ⟨r.addr + nb, rest, .inuse⟩} := by
  have hrep := hparts.replaces hT.toTags (fun _ => hT.free) hrun hframe hpin hend (Tagged.inuse hsize hcinuse hmid)
    (Tagged.inuse hsize' hcinuse' (hparts.finish ▸ hborder)) (by simp [hR l hrun.last_mem_run])
    (fun hkind => nomatch hkind)
  have hused : Dlmalloc.used {⟨r.addr, nb, .inuse⟩, ⟨r.addr + nb, rest, .inuse⟩} =
      ({⟨r.addr, nb, .inuse⟩, ⟨r.addr + nb, rest, .inuse⟩} : Set Tile) := by
    ext x
    refine ⟨fun hx => hx.1, fun hx => ⟨hx, ?_⟩⟩
    rcases hx with rfl | rfl
    · rfl
    · rfl
  rw [← hused]
  refine Changes.below hT hrun hrep hR ?_ (hparts.covers .inuse .inuse) ?_
  · rintro n (rfl | rfl) hkind
    · cases hkind
    · cases hkind
  · convert hlinks using 1
    ext x
    simp [freeChunks]

/-- The front of a run that ends with top becomes a chunk in use, and the rest is top. -/
theorem cutTop (hl : l.kind = .top) (hsize : c'.chunksize r.addr = nb)
    (hcinuse : c'.cinuse r.addr = true) (hhead : c'.head (r.addr + nb) = rest ||| pinuseBit)
    (hborder : c'.pinuse l.next = false) (hlinks : Links c' (others T R)) :
    ∃ T', Changes m { m with top := r.addr + nb, topsize := rest, chunks := c' } T T'
      {t | t ∈ R ∧ t.kind = .inuse} {⟨r.addr, nb, .inuse⟩} := by
  have htagged : Tagged c' ⟨r.addr, nb, .inuse⟩ :=
    Tagged.inuse hsize hcinuse (by rw [ChunkStore.pinuse_eq, hhead, headPinuse_free])
  have hrep := hparts.replaces hT.toTags (fun _ => hT.free) hrun hframe hpin hend htagged
    (Tagged.top hparts.back.mod hhead (hparts.finish ▸ hborder)) (by simp [hl])
    (fun hkind => nomatch hkind)
  refine ⟨_, Changes.of_replaces hT hrun hrep rfl rfl (hparts.covers .inuse .top) ?_ ?_ ?_ ?_ ?_ rfl
    (used_pair (by decide)).symm⟩
  · convert hlinks using 1
    ext x
    simp [freeChunks]
  · have hold : isInitialized m = true := by
      have haddr := (hT.shaped l hrun.last_mem).addr
      rw [isInitialized_iff, word_ne_zero, ← (hT.top_mem_iff hrun.last_mem).mp hl]
      omega
    have hstart := hparts.start
    have hlarge := hparts.front.large
    rw [hold, isInitialized_iff, word_ne_zero]
    dsimp only
    omega
  · exact fun _ => Or.inr (Or.inr rfl)
  · rintro x (⟨hx, hout⟩ | rfl | rfl) hkind
    · rw [hT.top_only l hrun.last_mem hl] at hrun
      exact absurd (hT.top_only x hx hkind ▸ hrun.last_mem_run) hout
    · cases hkind
    · rfl
  · rw [hT.top_only l hrun.last_mem hl] at hparts
    exact hparts.finish

end Changes

end WasmCxxShim.Dlmalloc
