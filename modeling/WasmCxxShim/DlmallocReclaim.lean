import WasmCxxShim.DlmallocTiledHeap

/-!
# Memory that is given back becomes whole

Free chunks never border one another or top, so a segment in which the program has no chunk is one
chunk from its first address to its foot, however it was split before.
-/
namespace WasmCxxShim.Dlmalloc
open MachineWords HaltingPrograms AddressRegions AddressTilings LinearMemory

variable {layout : HeapLayout} {w : World} {T R : Set Tile} {t r : Tile} {s : Segment}

namespace TiledHeap

/-- There is room for a chunk in every segment. -/
theorem room (h : TiledHeap layout w T R) (hs : s ∈ segments w.gm) :
    firstChunk s + 56 < s.base.toNat + s.size.toNat := by
  rcases h.recorded.complete s hs with ⟨r, -, hend, hfirst⟩ | hend
  · omega
  · have hlow := (h.inv.top_in_segment h.tiled hs hend).1
    have hlarge := (h.tiled.shaped _ (h.tiled.top_mem (initialized_of_segment hs))).large
    dsimp only at hlow hlarge
    omega

/-- The record in a segment lies at its end. -/
theorem record_ends (h : TiledHeap layout w T R) (hr : r ∈ R) (hs : s ∈ segments w.gm)
    (hin : r.In s) : r.addr.toNat + 56 = s.base.toNat + s.size.toNat := by
  obtain ⟨s', hs', hend⟩ := h.recorded.ends r hr
  have hroom := h.room hs'
  have haddr := h.tiled.addr_in (h.records hr).1 hin
  unfold firstChunk at hroom
  rw [h.tiled.segment_eq hs hs' r.addr.toNat (by omega) (by omega)]
  exact hend

theorem first_mem (h : TiledHeap layout w T R) (hs : s ∈ segments w.gm) :
    ∃ t ∈ T, t.addr.toNat = firstChunk s ∧ t.In s := by
  have hroom := h.room hs
  obtain ⟨t, ht, hx⟩ := h.tiled.filled s hs _ (le_refl _) hroom
  rw [Region.mem_bytes, (h.tiled.shaped t ht).finish_eq] at hx
  change t.addr.toNat ≤ firstChunk s ∧ firstChunk s < t.next.toNat at hx
  obtain ⟨s', hs', hin⟩ := h.tiled.inside t ht
  obtain ⟨hlow, hhigh⟩ := hin
  have hlow' := h.tiled.addr_in ht ⟨hlow, hhigh⟩
  have hsame : s = s' := by
    unfold firstChunk at hx hroom
    exact h.tiled.segment_eq hs hs' (firstChunk s) (by unfold firstChunk; omega)
      (by unfold firstChunk; omega)
  subst hsame
  exact ⟨t, ht, by omega, hlow, hhigh⟩

/-- A tile follows where there is room for one. -/
theorem next_mem (h : TiledHeap layout w T R) (hs : s ∈ segments w.gm) (ht : t ∈ T) (hin : t.In s)
    (hroom : t.next.toNat + 56 < s.base.toNat + s.size.toNat) : ∃ u ∈ T, u.addr = t.next := by
  have hnext := (h.tiled.shaped t ht).toNat_next
  have hlow := hin.1
  obtain ⟨u, hu, hx⟩ := h.tiled.filled s hs t.next.toNat (by omega) hroom
  rw [Region.mem_bytes, (h.tiled.shaped u hu).finish_eq] at hx
  change u.addr.toNat ≤ t.next.toNat ∧ t.next.toNat < u.next.toNat at hx
  have hne : t ≠ u := by
    rintro rfl
    omega
  have hbeside := h.tiled.separate t ht u hu hne
  rw [Beside, (h.tiled.shaped t ht).finish_eq, (h.tiled.shaped u hu).finish_eq] at hbeside
  change t.next.toNat ≤ u.addr.toNat ∨ u.next.toNat ≤ t.addr.toNat at hbeside
  exact ⟨u, hu, BitVec.eq_of_toNat_eq (by omega)⟩

/-- A tile that is not in use ends before the foot of its segment. -/
theorem next_le (h : TiledHeap layout w T R) (hs : s ∈ segments w.gm) (ht : t ∈ T) (hin : t.In s)
    (hkind : t.kind ≠ .inuse) : t.next.toNat + 56 ≤ s.base.toNat + s.size.toNat := by
  have hnext := (h.tiled.shaped t ht).toNat_next
  have hlarge := (h.tiled.shaped t ht).large
  have hhigh := hin.2
  have hbeside : ∀ u ∈ T, t ≠ u → t.next.toNat ≤ u.addr.toNat ∨ u.next.toNat ≤ t.addr.toNat := by
    intro u hu hne
    have hbeside := h.tiled.separate t ht u hu hne
    rwa [Beside, (h.tiled.shaped t ht).finish_eq, (h.tiled.shaped u hu).finish_eq] at hbeside
  rcases h.recorded.complete s hs with ⟨r, hr, hend, -⟩ | hend
  · have hused := h.records hr
    have hrecord := hbeside r hused.1 fun heq => hkind (heq ▸ hused.2)
    have hrnext := (h.tiled.shaped r hused.1).toNat_next
    rw [h.recorded.size r hr] at hrnext
    change _ = r.addr.toNat + 32 at hrnext
    omega
  · have hmem := h.tiled.top_mem (initialized_of_segment hs)
    have htopnext : (w.gm.top + w.gm.topsize).toNat = w.gm.top.toNat + w.gm.topsize.toNat :=
      (h.tiled.shaped _ hmem).toNat_next
    by_cases htop : t = ⟨w.gm.top, w.gm.topsize, .top⟩
    · subst htop
      change (w.gm.top + w.gm.topsize).toNat + 56 ≤ _
      omega
    · have hbefore : t.next.toNat ≤ w.gm.top.toNat ∨
          (w.gm.top + w.gm.topsize).toNat ≤ t.addr.toNat := hbeside _ hmem htop
      have hbeyond := h.tiled.beyond t ht
      have htoplarge : 16 ≤ w.gm.topsize.toNat := (h.tiled.shaped _ hmem).large
      omega

/-- A segment in which the program has no chunk is one chunk. -/
theorem whole (h : TiledHeap layout w T R) (hs : s ∈ segments w.gm)
    (hnone : ∀ t ∈ given T R, ¬ t.In s) : ∃ t ∈ T, t.kind ≠ .inuse ∧ t.addr.toNat = firstChunk s ∧
      t.next.toNat + 56 = s.base.toNat + s.size.toNat := by
  have hrecord : ∀ t ∈ T, t.In s → t.kind = .inuse →
      t.addr.toNat + 56 = s.base.toNat + s.size.toNat := by
    intro t ht hin hkind
    by_cases hR : t ∈ R
    · exact h.record_ends hR hs hin
    · exact absurd hin (hnone t ⟨⟨ht, hkind⟩, hR⟩)
  have hroom := h.room hs
  obtain ⟨t, ht, hfirst, hin⟩ := h.first_mem hs
  have hkind : t.kind ≠ .inuse := fun hkind => by
    have := hrecord t ht hin hkind
    omega
  refine ⟨t, ht, hkind, hfirst, le_antisymm (h.next_le hs ht hin hkind) ?_⟩
  by_contra hmore
  obtain ⟨u, hu, hnext⟩ := h.next_mem hs ht hin (Nat.lt_of_not_le hmore)
  have huin := h.tiled.in_next hs ht hu hin hnext
  have hinuse : u.kind = .inuse := by
    rcases h.tiled.coalesced t ht u hu hnext with hbad | ⟨-, hinuse⟩
    · exact absurd hbad hkind
    · exact hinuse
  have := hrecord u hu huin hinuse
  rw [hnext] at this
  omega

end TiledHeap

/-- The segment is one chunk, which is not in use. -/
def OneChunk (m : MallocState) (s : Segment) : Prop :=
  ∃ p size : Word, p.toNat = firstChunk s ∧
    p.toNat + size.toNat + 56 = s.base.toNat + s.size.toNat ∧
      ((p, size) = (m.top, m.topsize) ∨ (p, size) = (m.chunks.dv, m.chunks.dvsize) ∨
        (p, size) ∈ m.chunks.binned)

theorem TiledHeap.oneChunk (h : TiledHeap layout w T R) (hs : s ∈ segments w.gm)
    (hnone : ∀ t ∈ given T R, ¬ t.In s) : OneChunk w.gm s := by
  obtain ⟨t, ht, hkind, hfirst, hend⟩ := h.whole hs hnone
  rw [(h.tiled.shaped t ht).toNat_next] at hend
  refine ⟨t.addr, t.size, hfirst, hend, ?_⟩
  cases hk : t.kind with
  | inuse => exact absurd hk hkind
  | free =>
    have hfree : (t.addr, t.size) ∈ freeChunks T := by
      change (⟨t.addr, t.size, .free⟩ : Tile) ∈ T
      rw [← hk]
      exact ht
    rcases (h.tiled.links.free_iff _).mp hfree with hbin | ⟨hdv, -⟩
    · exact Or.inr (Or.inr hbin)
    · exact Or.inr (Or.inl hdv)
  | top =>
    rw [h.tiled.top_only t ht hk]
    exact Or.inl rfl

end WasmCxxShim.Dlmalloc
