import WasmCxxShim.DlmallocMemalign

/-!
# `aligned_alloc` for every alignment and size

Alignments up to 2^31 are rounded to a power of two, and the aligned chunk is cut out of the
chunk that `dlmalloc` returns with room to spare. Above 2^31 no power of two is representable,
and the doubling loop does not end.
-/
namespace WasmCxxShim.Dlmalloc
open MachineWords LoopRules LinearMemory

theorem and_sub_one_eq_zero_iff {a : Word} (ha : a ≠ 0) :
    a &&& (a - 1) = 0 ↔ a.toNat.isPowerOfTwo := by
  have hpos := word_ne_zero.mp ha
  have hsub : (a - 1).toNat = a.toNat - 1 := by bv_omega
  rw [← Nat.and_sub_one_eq_zero_iff_isPowerOfTwo (by omega), ← hsub, ← BitVec.toNat_and]
  exact ⟨fun h => by rw [h]; rfl, fun h => BitVec.eq_of_toNat_eq h⟩

/-- No word above 2^31 is a power of two. -/
theorem not_isPowerOfTwo_of_gt {a : Word} (h : 2147483648 < a.toNat) :
    ¬ a.toNat.isPowerOfTwo := by
  rintro ⟨k, hk⟩
  have hlt := a.isLt
  rw [hk] at h hlt
  have hlow : 31 < k := (Nat.pow_lt_pow_iff_right (by omega : 1 < 2)).mp h
  have hhigh : k < 32 := (Nat.pow_lt_pow_iff_right (by omega : 1 < 2)).mp hlt
  omega

theorem toNat_pow {k : ℕ} (hk : k < 32) : (BitVec.ofNat 32 (2 ^ k)).toNat = 2 ^ k :=
  toNat_ofNat_of_lt (Nat.pow_lt_pow_right (by omega) hk)

theorem pow_shiftLeft (k : ℕ) : BitVec.ofNat 32 (2 ^ k) <<< 1 = BitVec.ofNat 32 (2 ^ (k + 1)) := by
  apply BitVec.eq_of_toNat_eq
  rw [BitVec.toNat_shiftLeft, BitVec.toNat_ofNat, BitVec.toNat_ofNat, Nat.shiftLeft_eq, pow_one,
    Nat.mod_mul_mod, ← pow_succ]

theorem eq_pow_clog {n : ℕ} (h : n.isPowerOfTwo) : n = 2 ^ Nat.clog 2 n := by
  obtain ⟨k, rfl⟩ := h
  rw [Nat.clog_pow 2 k (by omega)]

/-- The doubling loop stops at the first power of two that reaches the alignment. -/
theorem doubling_returns {alignment : Word} (hlow : 16 < alignment.toNat)
    (h : alignment.toNat ≤ 2147483648) :
    ∃ k, 5 ≤ k ∧ k ≤ 31 ∧ k = Nat.clog 2 alignment.toNat ∧ ∀ fuel, 32 ≤ fuel →
      iterate (doublePass alignment) fuel (mallocAlignment <<< 1) =
        some (BitVec.ofNat 32 (2 ^ k)) := by
  obtain ⟨a, ⟨k, hk5, hk31, hleast, rfl⟩, hrun⟩ := iterate_variant (doublePass alignment)
    (fun a => ∃ k, 5 ≤ k ∧ k ≤ 31 ∧ k ≤ Nat.clog 2 alignment.toNat ∧ a = BitVec.ofNat 32 (2 ^ k))
    (fun a => 36 - Nat.log2 a.toNat)
    (fun a => ∃ k, 5 ≤ k ∧ k ≤ 31 ∧ k = Nat.clog 2 alignment.toNat ∧ a = BitVec.ofNat 32 (2 ^ k))
    (fun a ⟨k, hk5, hk31, hleast, ha⟩ => by
      subst ha
      have hvalue := toNat_pow (k := k) (by omega)
      unfold doublePass
      split_ifs with hless
      · rw [word_lt, hvalue] at hless
        have hk : k < 31 := by
          by_contra hge
          obtain rfl : k = 31 := by omega
          omega
        have hnext : k < Nat.clog 2 alignment.toNat := (Nat.lt_clog_iff_pow_lt (by omega)).mpr hless
        refine Or.inr ⟨_, rfl, ⟨k + 1, by omega, by omega, hnext, pow_shiftLeft k⟩, ?_⟩
        rw [pow_shiftLeft, toNat_pow (by omega), hvalue, Nat.log2_two_pow, Nat.log2_two_pow]
        omega
      · rw [word_lt, hvalue, not_lt] at hless
        exact Or.inl ⟨_, rfl, k, hk5, hk31, hleast.antisymm (Nat.clog_le_of_le_pow hless), rfl⟩)
    (s := mallocAlignment <<< 1) ⟨5, by omega, by omega,
      (Nat.lt_clog_iff_pow_lt (by omega)).mpr hlow, by decide⟩
  refine ⟨k, hk5, hk31, hleast, fun fuel hfuel => hrun fuel ?_⟩
  have : Nat.log2 (mallocAlignment <<< 1).toNat = 5 := by decide
  omega

/-- Above 2^31 the doubled value wraps to zero and stays there. -/
theorem doubling_hangs {alignment : Word} (h : 2147483648 < alignment.toNat) :
    Hangs fun fuel => iterate (doublePass alignment) fuel (mallocAlignment <<< 1) := by
  refine iterate_hangs (fun a => ∃ k, a = BitVec.ofNat 32 (2 ^ k)) (fun a ⟨k, ha⟩ => ?_)
    ⟨5, by decide⟩
  subst ha
  have hless : BitVec.ofNat 32 (2 ^ k) < alignment := by
    rw [word_lt]
    rcases Nat.lt_or_ge k 32 with hk | hk
    · rw [toNat_pow hk]
      have := Nat.pow_le_pow_right (n := 2) (by omega) (show k ≤ 31 by omega)
      omega
    · rw [BitVec.toNat_ofNat, Nat.mod_eq_zero_of_dvd (pow_dvd_pow 2 hk)]
      omega
  exact ⟨_, by rw [doublePass, if_pos hless], k + 1, pow_shiftLeft k⟩

theorem roundAlignment_returns {alignment : Word} (h : alignment.toNat ≤ 2147483648) :
    ∃ k, 4 ≤ k ∧ k ≤ 31 ∧ (16 ≤ alignment.toNat → k = Nat.clog 2 alignment.toNat) ∧
      ∀ fuel, 32 ≤ fuel → roundAlignment alignment fuel = some (BitVec.ofNat 32 (2 ^ k)) := by
  by_cases hsmall : alignment < minChunkSize
  · have hlt : alignment.toNat < 16 := by simpa [word_lt] using hsmall
    refine ⟨4, le_refl 4, by omega, by omega, fun fuel _ => ?_⟩
    rw [roundAlignment, if_pos hsmall]
    rfl
  · have hge : 16 ≤ alignment.toNat := by simpa [word_lt] using hsmall
    have hne : alignment ≠ 0 := word_ne_zero.mpr (by omega)
    by_cases hpow : alignment &&& (alignment - 1) = 0
    · obtain ⟨k, hk⟩ := (and_sub_one_eq_zero_iff hne).mp hpow
      have hk4 : 4 ≤ k := by
        by_contra hlt
        have := Nat.pow_le_pow_right (n := 2) (by omega) (show k ≤ 3 by omega)
        omega
      have hk31 : k ≤ 31 := by
        by_contra hlt
        have := Nat.pow_le_pow_right (n := 2) (by omega) (show 32 ≤ k by omega)
        omega
      refine ⟨k, hk4, hk31, fun _ => ?_, fun fuel _ => ?_⟩
      · rw [hk, Nat.clog_pow 2 k (by omega)]
      · rw [roundAlignment, if_neg hsmall, powerOf2, if_neg (by simpa using hpow), ← hk,
          BitVec.ofNat_toNat, BitVec.setWidth_eq]
    · have hmore : alignment.toNat ≠ 16 := fun heq =>
        hpow ((and_sub_one_eq_zero_iff hne).mpr ⟨4, heq⟩)
      obtain ⟨k, hk5, hk31, hleast, hrun⟩ := doubling_returns (by omega) h
      refine ⟨k, by omega, hk31, fun _ => hleast, fun fuel hfuel => ?_⟩
      rw [roundAlignment, if_neg hsmall, powerOf2, if_pos hpow]
      exact hrun fuel hfuel

theorem roundAlignment_hangs {alignment : Word} (h : 2147483648 < alignment.toNat) :
    Hangs (roundAlignment alignment) := by
  have hsmall : ¬ alignment < minChunkSize := by
    rw [minChunkSize_eq]
    bv_omega
  have hpow : alignment &&& (alignment - 1) ≠ 0 := fun hzero =>
    not_isPowerOfTwo_of_gt h
      ((and_sub_one_eq_zero_iff (word_ne_zero.mpr (by omega))).mp hzero)
  intro fuel
  rw [roundAlignment, if_neg hsmall, powerOf2, if_pos hpow]
  exact doubling_hangs h fuel

theorem toNat_chunk2mem {p : Chunk} : (chunk2mem p.addr).toNat = (p.addr.toNat + 8) % 4294967296 := by
  rw [chunk2mem, twoSizeTSizes_eq, BitVec.toNat_add]
  rfl

/-- The chunk moves up to the next multiple of the alignment and keeps its end. -/
theorem alignChunk_spec {k : ℕ} (hk4 : 4 ≤ k) (hk31 : k ≤ 31) (nb : Word) {p : Chunk}
    (hmem : chunk2mem p.addr ≠ 0) (haligned : 16 ∣ (chunk2mem p.addr).toNat)
    (hinside : (chunk2mem p.addr).toNat + usableSize p ≤ 4294967296)
    (henough : nb.toNat + 2 ^ k + 16 ≤ p.size.toNat) :
    ∃ lead, lead < 2 ^ k ∧
      (chunk2mem (alignChunk (BitVec.ofNat 32 (2 ^ k)) p).1.addr).toNat =
        (chunk2mem p.addr).toNat + lead ∧
      (alignChunk (BitVec.ofNat 32 (2 ^ k)) p).1.size.toNat = p.size.toNat - lead ∧
      2 ^ k ∣ (chunk2mem p.addr).toNat + lead := by
  have hpow := toNat_pow (k := k) (by omega)
  have hpos := word_ne_zero.mp hmem
  have hmask := toNat_and_mask (k := k) (by omega) (chunk2mem p.addr)
  have hbefore : (p.addr).toNat + 8 = (chunk2mem p.addr).toNat := by
    have hmem := toNat_chunk2mem (p := p)
    have hlt := p.addr.isLt
    omega
  unfold usableSize at hinside
  have hround := roundUp_spec (k := k) (by omega) (x := chunk2mem p.addr) (by omega)
  unfold alignChunk
  dsimp only at hround ⊢
  generalize BitVec.ofNat 32 (2 ^ k) = A at hpow hmask hround ⊢
  by_cases hmis : chunk2mem p.addr &&& (A - 1) = 0
  · rw [if_neg (by simpa using hmis)]
    rw [hmis] at hmask
    exact ⟨0, by omega, rfl, (Nat.sub_zero _).symm, Nat.dvd_of_mod_eq_zero hmask.symm⟩
  · rw [if_pos hmis]
    generalize (chunk2mem p.addr + A - 1) &&& -A = spot at hround ⊢
    obtain ⟨hle, hhigh, hdvd⟩ := hround
    -- The leader is a chunk of its own, since both addresses are multiples of 16.
    have hgap : (chunk2mem p.addr).toNat + 16 ≤ spot.toNat := by
      have hne : (chunk2mem p.addr).toNat ≠ spot.toNat := by
        intro heq
        rw [← heq] at hdvd
        have := word_ne_zero.mp hmis
        rw [hmask, Nat.mod_eq_zero_of_dvd hdvd] at this
        exact lt_irrefl 0 this
      have h16 : 16 ∣ spot.toNat := (pow_dvd_pow 2 hk4).trans hdvd
      omega
    have hlead : (mem2chunk spot - p.addr).toNat = spot.toNat - (chunk2mem p.addr).toNat := by
      unfold mem2chunk
      rw [twoSizeTSizes_eq]
      bv_omega
    have hroom : minChunkSize ≤ mem2chunk spot - p.addr := by
      rw [minChunkSize_eq, word_le, hlead]
      exact (by omega : 16 ≤ spot.toNat - (chunk2mem p.addr).toNat)
    have hspot : chunk2mem (mem2chunk spot) = spot := by
      rw [chunk2mem, mem2chunk, BitVec.sub_add_cancel]
    rw [if_pos hroom]
    refine ⟨spot.toNat - (chunk2mem p.addr).toNat, by omega, ?_, ?_, ?_⟩
    · rw [hspot, Nat.add_sub_cancel' hle]
    · rw [BitVec.toNat_sub_of_le, hlead]
      rw [word_le, hlead]
      omega
    · rw [Nat.add_sub_cancel' hle]
      exact hdvd

theorem trimChunk_spec (nb : Word) (p : Chunk) (h : nb.toNat ≤ p.size.toNat) :
    (trimChunk nb p).1.addr = p.addr ∧ nb.toNat ≤ (trimChunk nb p).1.size.toNat ∧
      (trimChunk nb p).1.size.toNat ≤ p.size.toNat := by
  unfold trimChunk
  split_ifs
  · exact ⟨rfl, le_refl _, h⟩
  · exact ⟨rfl, h, le_refl _⟩

theorem request2size_bounds (bytes : Word) (h : bytes.toNat + 19 < 4294967296) :
    bytes.toNat + 4 ≤ (request2size bytes).toNat ∧ (request2size bytes).toNat ≤ bytes.toNat + 19 := by
  unfold request2size
  split_ifs with hsmall
  · rw [minRequest_eq, word_lt] at hsmall
    rw [minChunkSize_eq]
    have : (16 : Word).toNat = 16 := rfl
    have : (11 : Word).toNat = 11 := rfl
    exact ⟨by omega, by omega⟩
  · have := toNat_padRequest bytes
    omega

theorem memalignRequest_eq {k : ℕ} (hk31 : k ≤ 31) {bytes req : Word}
    (h : memalignRequest (BitVec.ofNat 32 (2 ^ k)) bytes = some req) :
    bytes.toNat + 4 ≤ (request2size bytes).toNat ∧
      req.toNat = (request2size bytes).toNat + 2 ^ k + 12 := by
  have hpow := toNat_pow (k := k) (by omega)
  have hle : 2 ^ k ≤ 2147483648 := Nat.pow_le_pow_right (n := 2) (by omega) hk31
  unfold memalignRequest at h
  split_ifs at h with hbig
  rw [maxRequest_eq, BitVec.not_le, word_lt] at hbig
  have hroom : (4294967232 - BitVec.ofNat 32 (2 ^ k) : Word).toNat = 4294967232 - 2 ^ k := by
    rw [BitVec.toNat_sub_of_le (by rw [word_le, hpow]; exact hle.trans (by decide)), hpow]
    rfl
  have hbounds := request2size_bounds bytes (by omega)
  refine ⟨hbounds.1, ?_⟩
  cases h
  have hoverhead : chunkOverhead = (4 : Word) := by decide
  rw [minChunkSize_eq, hoverhead]
  bv_omega

theorem memalignChunk_eq_some {malloc : Word → Option Chunk} {alignment bytes : Word}
    {a : Allocation} (h : memalignChunk malloc alignment bytes = some a) :
    ∃ req p, memalignRequest alignment bytes = some req ∧ malloc req = some p ∧
      a = ⟨carveChunk alignment (request2size bytes) p, p⟩ := by
  rw [memalignChunk, Option.bind_eq_bind, Option.bind_eq_some_iff] at h
  obtain ⟨req, hreq, h⟩ := h
  rw [Option.bind_eq_bind, Option.bind_eq_some_iff] at h
  obtain ⟨p, hp, h⟩ := h
  exact ⟨req, p, hreq, hp, (Option.some.inj h).symm⟩

/-- The chunk cut out of a large enough one is aligned, large enough and inside it. -/
theorem carveChunk_spec {k : ℕ} (hk4 : 4 ≤ k) (hk31 : k ≤ 31) (nb : Word) {p : Chunk}
    (hmem : chunk2mem p.addr ≠ 0) (haligned : 16 ∣ (chunk2mem p.addr).toNat)
    (hinside : (chunk2mem p.addr).toNat + usableSize p ≤ 4294967296)
    (henough : nb.toNat + 2 ^ k + 16 ≤ p.size.toNat) :
    nb.toNat ≤ (carveChunk (BitVec.ofNat 32 (2 ^ k)) nb p).size.toNat ∧
      Within (carveChunk (BitVec.ofNat 32 (2 ^ k)) nb p) p ∧
      2 ^ k ∣ (chunk2mem (carveChunk (BitVec.ofNat 32 (2 ^ k)) nb p).addr).toNat := by
  obtain ⟨lead, hlead, hmem, haligned, hdvd⟩ :=
    alignChunk_spec hk4 hk31 nb hmem haligned hinside henough
  unfold carveChunk
  generalize alignChunk (BitVec.ofNat 32 (2 ^ k)) p = q at hmem haligned ⊢
  obtain ⟨haddr, hlow, hhigh⟩ := trimChunk_spec nb q.1 (by omega)
  generalize trimChunk nb q.1 = r at haddr hlow hhigh ⊢
  refine ⟨hlow, ?_, ?_⟩
  · unfold Within usableSize
    rw [haddr]
    omega
  · rw [haddr, hmem]
    exact hdvd

theorem memalignChunk_good {malloc : Word → Option Chunk} (hmalloc : ServesRequests malloc) {k : ℕ}
    (hk4 : 4 ≤ k) (hk31 : k ≤ 31) {alignment bytes : Word} {a : Allocation}
    (hpow : alignment.toNat.isPowerOfTwo → alignment.toNat = 2 ^ k)
    (h : memalignChunk malloc (BitVec.ofNat 32 (2 ^ k)) bytes = some a) :
    GoodBlock malloc alignment bytes a := by
  obtain ⟨req, p, hreq, hp, rfl⟩ := memalignChunk_eq_some h
  obtain ⟨hnb, hreqsize⟩ := memalignRequest_eq hk31 hreq
  obtain ⟨hnonnull, haligned, hinside, henough⟩ := hmalloc req p hp
  have hpos := Nat.two_pow_pos k
  have hsize : p.size.toNat - 4 = usableSize p := rfl
  obtain ⟨hlow, hwithin, hdvd⟩ := carveChunk_spec hk4 hk31 (request2size bytes) hnonnull
    haligned hinside (by omega)
  generalize carveChunk (BitVec.ofNat 32 (2 ^ k)) (request2size bytes) p = c at hlow hwithin hdvd ⊢
  have husable : usableSize c = c.size.toNat - 4 := rfl
  exact ⟨⟨req, hp⟩, by dsimp only; omega, hwithin, fun hpower => by rw [hpow hpower]; exact hdvd⟩

theorem toNat_mallocAlignment : mallocAlignment.toNat = 16 := by decide

/-- Small alignments are those that every chunk of `dlmalloc` has. -/
theorem goodBlock_of_small {malloc : Word → Option Chunk} (hmalloc : ServesRequests malloc)
    {alignment size : Word} (hsmall : alignment ≤ mallocAlignment) {p : Chunk}
    (hp : malloc size = some p) : GoodBlock malloc alignment size ⟨p, p⟩ := by
  have hserves := hmalloc size p hp
  refine ⟨⟨size, hp⟩, hserves.enough, ⟨le_refl _, le_refl _⟩, ?_⟩
  rintro ⟨k, hk⟩
  rw [word_le, toNat_mallocAlignment, hk] at hsmall
  have hle : 2 ^ k ≤ 2 ^ 4 := hsmall
  dsimp only
  rw [hk]
  exact (pow_dvd_pow 2 ((Nat.pow_le_pow_iff_right (by omega)).mp hle)).trans hserves.aligned

theorem alignedAlloc_good {malloc : Word → Option Chunk} (hmalloc : ServesRequests malloc)
    {alignment : Word} (h : alignment.toNat ≤ 2147483648) (size : Word) :
    ∃ result, (∀ fuel, 32 ≤ fuel → alignedAlloc malloc alignment size fuel = some result) ∧
      ∀ a, result = some a → GoodBlock malloc alignment size a := by
  by_cases hsmall : alignment ≤ mallocAlignment
  · refine ⟨(malloc size).map fun p => ⟨p, p⟩, fun fuel _ => ?_, fun a ha => ?_⟩
    · rw [alignedAlloc, if_pos hsmall]
    · obtain ⟨p, hp, rfl⟩ := Option.map_eq_some_iff.mp ha
      exact goodBlock_of_small hmalloc hsmall hp
  · have hlarge : 16 ≤ alignment.toNat := by
      rw [word_le, toNat_mallocAlignment] at hsmall
      omega
    obtain ⟨k, hk4, hk31, hpow, hrun⟩ := roundAlignment_returns h
    refine ⟨memalignChunk malloc (BitVec.ofNat 32 (2 ^ k)) size, fun fuel hfuel => ?_,
      fun a ha => memalignChunk_good hmalloc hk4 hk31
        (fun hp => (eq_pow_clog hp).trans (by rw [hpow hlarge])) ha⟩
    rw [alignedAlloc, if_neg hsmall, internalMemalign, hrun fuel hfuel]

theorem alignedAlloc_hangs (malloc : Word → Option Chunk) {alignment : Word}
    (h : 2147483648 < alignment.toNat) (size : Word) : Hangs (alignedAlloc malloc alignment size) := by
  intro fuel
  have hlarge : ¬ alignment ≤ mallocAlignment := by
    rw [word_le, toNat_mallocAlignment]
    omega
  rw [alignedAlloc, if_neg hlarge, internalMemalign, roundAlignment_hangs h fuel]

/-- `aligned_alloc` meets its contract exactly for the alignments up to 2^31. -/
theorem alignedAlloc_sound_iff (alignment size : Word) :
    AlignedAllocSound alignment size ↔ alignment.toNat ≤ 2147483648 := by
  constructor
  · intro hsound
    by_contra hgt
    obtain ⟨⟨result, hreturns, -⟩, -⟩ := hsound (fun _ => none) fun _ _ h => nomatch h
    exact hreturns.not_hangs (alignedAlloc_hangs _ (by omega) size)
  · intro h malloc hmalloc
    obtain ⟨result, hrun, hgood⟩ := alignedAlloc_good hmalloc h size
    refine ⟨⟨result, returns_of_forall_ge 32 hrun, hgood⟩, ?_⟩
    cases result with
    | none =>
      refine ⟨.trap, returns_of_forall_ge 32 fun fuel hfuel => ?_, fun a ha => nomatch ha⟩
      rw [operatorNewAligned, hrun fuel hfuel]
    | some a =>
      refine ⟨.block a, returns_of_forall_ge 32 fun fuel hfuel => ?_, fun a' ha => ?_⟩
      · rw [operatorNewAligned, hrun fuel hfuel]
      · cases ha
        exact hgood a rfl

/-- An alignment just above 2^31: the loop never ends, whatever `dlmalloc` returns. -/
theorem alignedAlloc_hangs_above :
    (∀ malloc, Hangs (alignedAlloc malloc 2147483649#32 1#32)) ∧
      ¬ AlignedAllocSound 2147483649#32 1#32 := by
  have h : 2147483648 < (2147483649#32 : Word).toNat := by decide
  refine ⟨fun malloc => alignedAlloc_hangs malloc h _, fun hsound => ?_⟩
  obtain ⟨⟨result, hreturns, -⟩, -⟩ := hsound (fun _ => none) fun _ _ h => nomatch h
  exact hreturns.not_hangs (alignedAlloc_hangs _ h _)

end WasmCxxShim.Dlmalloc
