import WasmCxxShim.DlmallocEngine

/-!
# Heads of chunks

A head is the size of its chunk with three flags in its low bits. The macros write heads of a few
shapes; each shape is read back here, so that what follows speaks of sizes and flags only. `Frame`
bounds where a macro writes: the bins may change links wherever chunks are free, and everything
else stays in an interval.
-/
namespace WasmCxxShim.Dlmalloc
open MachineWords LinearMemory

@[simp] theorem getElem_pinuseBit (i : ℕ) (hi : i < 32) : pinuseBit[i] = decide (i = 0) := by
  have h : pinuseBit = BitVec.twoPow 32 0 := by decide
  simp [h, BitVec.getElem_twoPow]

@[simp] theorem getElem_cinuseBit (i : ℕ) (hi : i < 32) : cinuseBit[i] = decide (i = 1) := by
  have h : cinuseBit = BitVec.twoPow 32 1 := by decide
  simp [h, BitVec.getElem_twoPow]

@[simp] theorem getElem_flagBits (i : ℕ) (hi : i < 32) : flagBits[i] = decide (i < 3) := by
  have h : flagBits = BitVec.ofNat 32 (2 ^ 3 - 1) := by decide
  rw [← BitVec.getLsbD_eq_getElem, h, BitVec.getLsbD_ofNat, Nat.testBit_two_pow_sub_one]
  simp
  omega

theorem getElem_of_aligned {s : Word} (hs : s.toNat % 16 = 0) {i : ℕ} (hi : i < 4) :
    s[i] = false := by
  have hdvd : 2 ^ (i + 1) ∣ s.toNat :=
    (Nat.pow_dvd_pow 2 (show i + 1 ≤ 4 by omega)).trans (Nat.dvd_of_mod_eq_zero hs)
  obtain ⟨k, hk⟩ := hdvd
  rw [← BitVec.getLsbD_eq_getElem, BitVec.getLsbD, Nat.testBit_eq_decide_div_mod_eq, hk, pow_succ,
    mul_assoc, Nat.mul_div_cancel_left _ (Nat.two_pow_pos i)]
  simp

/-- The size part of a head. -/
def headSize (h : Word) : Word := h &&& ~~~flagBits

def headPinuse (h : Word) : Bool := h &&& pinuseBit != 0

def headCinuse (h : Word) : Bool := h &&& cinuseBit != 0

theorem and_pinuseBit (h : Word) : h &&& pinuseBit = if h[0] then pinuseBit else 0 := by
  apply BitVec.eq_of_getElem_eq
  intro i hi
  by_cases hzero : i = 0
  · cases hbit : h[0] <;> simp [hzero, hbit]
  · cases hbit : h[0] <;> simp [hzero]

theorem and_cinuseBit (h : Word) : h &&& cinuseBit = if h[1] then cinuseBit else 0 := by
  apply BitVec.eq_of_getElem_eq
  intro i hi
  by_cases hone : i = 1
  · cases hbit : h[1] <;> simp [hone, hbit]
  · cases hbit : h[1] <;> simp [hone]

theorem headPinuse_eq (h : Word) : headPinuse h = h[0] := by
  rw [headPinuse, and_pinuseBit]
  cases h[0] <;> rfl

theorem headCinuse_eq (h : Word) : headCinuse h = h[1] := by
  rw [headCinuse, and_cinuseBit]
  cases h[1] <;> rfl

theorem and_inuseBits (h : Word) : h &&& inuseBits =
    (if headPinuse h then pinuseBit else 0) ||| (if headCinuse h then cinuseBit else 0) := by
  rw [inuseBits, BitVec.and_or_distrib_left, and_pinuseBit, and_cinuseBit, headPinuse_eq,
    headCinuse_eq]

/-- A head has size `s` when it differs from `s` in the flags only. -/
theorem headSize_eq {s h : Word} (hs : s.toNat % 16 = 0)
    (hbits : ∀ i (hi : i < 32), 3 ≤ i → h[i] = s[i]) : headSize h = s := by
  apply BitVec.eq_of_getElem_eq
  intro i hi
  by_cases hlow : i < 3
  · simp [headSize, hlow, getElem_of_aligned hs (show i < 4 by omega)]
  · simp [headSize, hlow, hbits i hi (by omega)]

section Shapes

variable {s : Word} (hs : s.toNat % 16 = 0) (h : Word)

include hs

theorem headSize_free : headSize (s ||| pinuseBit) = s :=
  headSize_eq hs fun i hi hle => by simp [show i ≠ 0 by omega]

theorem headCinuse_free : headCinuse (s ||| pinuseBit) = false := by
  simp [headCinuse_eq, getElem_of_aligned hs]

theorem headSize_inuse : headSize (s ||| pinuseBit ||| cinuseBit) = s :=
  headSize_eq hs fun i hi hle => by simp [show i ≠ 0 by omega, show i ≠ 1 by omega]

theorem headSize_setInuse : headSize ((h &&& pinuseBit) ||| s ||| cinuseBit) = s :=
  headSize_eq hs fun i hi hle => by simp [show i ≠ 0 by omega, show i ≠ 1 by omega]

theorem headPinuse_setInuse :
    headPinuse ((h &&& pinuseBit) ||| s ||| cinuseBit) = headPinuse h := by
  simp [headPinuse_eq, getElem_of_aligned hs]

end Shapes

theorem headPinuse_free (s : Word) : headPinuse (s ||| pinuseBit) = true := by
  simp [headPinuse_eq]

theorem headPinuse_inuse (s : Word) : headPinuse (s ||| pinuseBit ||| cinuseBit) = true := by
  simp [headPinuse_eq]

theorem headCinuse_inuse (s : Word) : headCinuse (s ||| pinuseBit ||| cinuseBit) = true := by
  simp [headCinuse_eq]

theorem headCinuse_setInuse (h s : Word) :
    headCinuse ((h &&& pinuseBit) ||| s ||| cinuseBit) = true := by
  simp [headCinuse_eq]

@[simp] theorem headSize_setPinuse (h : Word) : headSize (h ||| pinuseBit) = headSize h := by
  apply BitVec.eq_of_getElem_eq
  intro i hi
  by_cases hzero : i = 0 <;> simp [headSize, hzero]

@[simp] theorem headPinuse_setPinuse (h : Word) : headPinuse (h ||| pinuseBit) = true := by
  simp [headPinuse_eq]

@[simp] theorem headCinuse_setPinuse (h : Word) : headCinuse (h ||| pinuseBit) = headCinuse h := by
  simp [headCinuse_eq]

@[simp] theorem headSize_clearPinuse (h : Word) : headSize (h &&& ~~~pinuseBit) = headSize h := by
  apply BitVec.eq_of_getElem_eq
  intro i hi
  by_cases hzero : i = 0 <;> simp [headSize, hzero]

@[simp] theorem headPinuse_clearPinuse (h : Word) : headPinuse (h &&& ~~~pinuseBit) = false := by
  simp [headPinuse_eq]

@[simp] theorem headCinuse_clearPinuse (h : Word) :
    headCinuse (h &&& ~~~pinuseBit) = headCinuse h := by
  simp [headCinuse_eq]

theorem isSmall_iff (s : Word) : isSmall s = true ↔ s.toNat < 256 := by
  have h : (s >>> smallbinShift).toNat = s.toNat / 8 := by
    rw [BitVec.ushiftRight_eq', BitVec.toNat_ushiftRight, Nat.shiftRight_eq_div_pow]
    rfl
  have hbound : nsmallbins.toNat = 32 := rfl
  rw [isSmall, decide_eq_true_eq, word_lt, h, hbound]
  omega

/-- A chunk in a bin, or dv. -/
def IsFree (c : ChunkStore) (x : Word × Word) : Prop :=
  x ∈ c.binned ∨ x = (c.dv, c.dvsize) ∧ c.dvsize ≠ 0

namespace ChunkStore

theorem chunksize_eq (c : ChunkStore) (p : Word) : c.chunksize p = headSize (c.head p) := rfl

theorem pinuse_eq (c : ChunkStore) (p : Word) : c.pinuse p = headPinuse (c.head p) := rfl

theorem cinuse_eq (c : ChunkStore) (p : Word) : c.cinuse p = headCinuse (c.head p) := rfl

theorem isInuse_eq (c : ChunkStore) (p : Word) : c.isInuse p = (c.cinuse p || !c.pinuse p) := by
  rw [isInuse, and_inuseBits, cinuse_eq, pinuse_eq]
  cases headPinuse (c.head p) <;> cases headCinuse (c.head p) <;> rfl

theorem isMmapped_eq (c : ChunkStore) (p : Word) : c.isMmapped p = (!c.cinuse p && !c.pinuse p) := by
  rw [isMmapped, and_inuseBits, cinuse_eq, pinuse_eq]
  cases headPinuse (c.head p) <;> cases headCinuse (c.head p) <;> rfl

theorem inuseBits_iff (c : ChunkStore) (p : Word) :
    c.head p &&& inuseBits = inuseBits ↔ c.cinuse p = true ∧ c.pinuse p = true := by
  rw [and_inuseBits, cinuse_eq, pinuse_eq]
  cases headPinuse (c.head p) <;> cases headCinuse (c.head p) <;> decide

@[simp] theorem setWord_word (x v y : Word) (c : ChunkStore) :
    (c.setWord x v).word y = if y = x then v else c.word y := Function.update_apply ..

@[simp] theorem setHead_head (p v q : Word) (c : ChunkStore) :
    (c.setHead p v).head q = if q = p then v else c.head q := by
  simp [setHead, head]

@[simp] theorem setFoot_prevFoot (p s q : Word) (c : ChunkStore) :
    (c.setFoot p s).prevFoot q = if q = p + s then s else c.prevFoot q := setWord_word ..

theorem head_congr {c c' : ChunkStore} {p : Word}
    (h : c'.word (p + sizeTSize) = c.word (p + sizeTSize)) : c'.head p = c.head p := h

@[simp] theorem setDv_head (p s : Word) (c : ChunkStore) : (c.setDv p s).head = c.head := rfl

section Values

variable {p s : Word} (c : ChunkStore) (hne : p ≠ p + s)

include hne

theorem setInuseAndPinuse_self :
    (c.setInuseAndPinuse p s).head p = s ||| pinuseBit ||| cinuseBit := by
  simp only [setInuseAndPinuse, setPinuse, setHead_head, if_neg hne, ↓reduceIte]

theorem setInuseAndPinuse_next :
    (c.setInuseAndPinuse p s).head (p + s) = c.head (p + s) ||| pinuseBit := by
  simp only [setInuseAndPinuse, setPinuse, setHead_head, if_neg hne.symm, ↓reduceIte]

theorem setInuse_self :
    (c.setInuse p s).head p = (c.head p &&& pinuseBit) ||| s ||| cinuseBit := by
  simp only [setInuse, setPinuse, setHead_head, if_neg hne, ↓reduceIte]

theorem setInuse_next : (c.setInuse p s).head (p + s) = c.head (p + s) ||| pinuseBit := by
  simp only [setInuse, setPinuse, setHead_head, if_neg hne.symm, ↓reduceIte]

end Values

theorem setInuse_other {p s q : Word} (c : ChunkStore) (hq : q ≠ p) (hq' : q ≠ p + s) :
    (c.setInuse p s).head q = c.head q := by
  simp only [setInuse, setPinuse, setHead_head, if_neg hq, if_neg hq']

end ChunkStore

@[simp] theorem toNat_sizeTSize : sizeTSize.toNat = 4 := by decide

theorem toNat_head {p : Word} (h : p.toNat + 4 < 4294967296) :
    (p + sizeTSize).toNat = p.toNat + 4 := BitVec.toNat_add_of_lt (by rw [toNat_sizeTSize]; omega)

/-- No head lies where a foot lies. -/
theorem head_ne_foot {p q : Word} (hp : p.toNat % 16 = 8) (hq : q.toNat % 16 = 8) :
    p + sizeTSize ≠ q := by
  intro heq
  have hnat := congrArg BitVec.toNat heq
  rw [BitVec.toNat_add, toNat_sizeTSize] at hnat
  omega

theorem setInuse_word {p s x : Word} (c : ChunkStore) (hp : p.toNat + 4 < 4294967296)
    (hs : (p + s).toNat + 4 < 4294967296) (hx : x.toNat ≠ p.toNat + 4)
    (hx' : x.toNat ≠ (p + s).toNat + 4) : (c.setInuse p s).word x = c.word x := by
  have hself := toNat_head hp
  have hnext := toNat_head hs
  have hne : x ≠ p + sizeTSize := by
    rintro rfl
    exact hx hself
  have hne' : x ≠ p + s + sizeTSize := by
    rintro rfl
    exact hx' hnext
  exact ((ChunkStore.setWord_word ..).trans (if_neg hne')).trans
    ((ChunkStore.setWord_word ..).trans (if_neg hne))

theorem aligned_add {p s : Word} (hp : p.toNat % 16 = 8) (hs : s.toNat % 16 = 0) :
    (p + s).toNat % 16 = 8 := by
  rw [BitVec.toNat_add]
  omega

namespace ChunkStore

section Aligned

variable {p s q n : Word} (c : ChunkStore) (hp : p.toNat % 16 = 8) (hs : s.toNat % 16 = 0)
  (hq : q.toNat % 16 = 8)

include hp hs hq

theorem setFree_head : (c.setSizeAndPinuseOfFreeChunk p s).head q =
    if q = p then s ||| pinuseBit else c.head q := by
  rw [← setHead_head]
  exact head_congr ((setWord_word ..).trans (if_neg (head_ne_foot hq (aligned_add hp hs))))

theorem setFreeWithPinuse_head : (c.setFreeWithPinuse p s n).head q =
    if q = p then s ||| pinuseBit else if q = n then c.head n &&& ~~~pinuseBit else c.head q := by
  rw [setFreeWithPinuse, setFree_head _ hp hs hq, clearPinuse, setHead_head]

end Aligned

theorem clearPinuse_head (p q : Word) (c : ChunkStore) : (c.clearPinuse p).head q =
    if q = p then c.head p &&& ~~~pinuseBit else c.head q := setHead_head ..

theorem setFree_foot (p s : Word) (c : ChunkStore) :
    (c.setSizeAndPinuseOfFreeChunk p s).prevFoot (p + s) = s := by
  simp [setSizeAndPinuseOfFreeChunk]

/-- The word at `x` may be a link: it lies where a free chunk has its links. -/
def Loose (c : ChunkStore) (x : Word) : Prop :=
  ∃ q, IsFree c q ∧ chunk2mem q.1 ≤ x ∧ x < q.1 + linksSize q.2

end ChunkStore

theorem loose_of_isLink {c : ChunkStore} {x : Word} (h : c.isLink x = true) : c.Loose x := by
  obtain ⟨q, hq, hrange⟩ := List.any_eq_true.mp h
  simp only [Bool.and_eq_true, decide_eq_true_eq] at hrange
  exact ⟨q, Or.inl hq, hrange⟩

theorem insertChunk_word {c : ChunkStore} {p s x : Word} (hx : ¬ (c.insertChunk p s).Loose x) :
    (c.insertChunk p s).word x = c.word x := by
  change (if (c.insertChunk p s).isLink x then 0 else c.word x) = _
  exact if_neg fun hlink => hx (loose_of_isLink hlink)

theorem replaceDv_word {c : ChunkStore} {p s x : Word} (hx : ¬ (c.replaceDv p s).Loose x) :
    (c.replaceDv p s).word x = c.word x := by
  unfold ChunkStore.replaceDv at hx ⊢
  split_ifs at hx ⊢ with hdv
  · exact if_neg fun hlink => hx (loose_of_isLink hlink)
  · rfl

/-- Nothing is written but links of free chunks, heads from `a` to `b` and feet beyond `a` up to
`b`, and a chunk that is newly free lies between the two. -/
structure Frame (a b : ℕ) (c c' : ChunkStore) : Prop where
  word : ∀ x : Word, ¬ c.Loose x → x.toNat ≤ a ∨ b + 4 < x.toNat → c'.word x = c.word x
  firm : ∀ x : Word, ¬ c.Loose x → x.toNat ≤ a ∨ b + 4 < x.toNat → ¬ c'.Loose x

/-- Nothing is written but links of free chunks, and no chunk is newly free. -/
def Relinks (c c' : ChunkStore) : Prop := ∀ a b, Frame a b c c'

theorem linksSize_le {s : Word} (hs : 16 ≤ s.toNat) :
    (ChunkStore.linksSize s).toNat ≤ s.toNat := by
  unfold ChunkStore.linksSize
  split_ifs with hsmall
  · exact hs
  · have hlarge := mt (isSmall_iff s).mpr hsmall
    change 32 ≤ s.toNat
    omega

/-- The links of a chunk lie between its head and the next chunk. -/
theorem links_within {p s x : Word} (hs : 16 ≤ s.toNat) (hnext : p.toNat < (p + s).toNat)
    (hlow : chunk2mem p ≤ x) (hhigh : x < p + ChunkStore.linksSize s) :
    p.toNat + 8 ≤ x.toNat ∧ x.toNat < (p + s).toNat := by
  have hle := linksSize_le hs
  have hbound := s.isLt
  rw [BitVec.toNat_add] at hnext ⊢
  rw [chunk2mem, twoSizeTSizes_eq, word_le, BitVec.toNat_add] at hlow
  rw [word_lt, BitVec.toNat_add] at hhigh
  change (p.toNat + 8) % 2 ^ 32 ≤ x.toNat at hlow
  omega

namespace Frame

variable {a b : ℕ} {c c' : ChunkStore} {p s x v : Word}

theorem refl : Frame a b c c := ⟨fun _ _ _ => rfl, fun _ hfirm _ => hfirm⟩

theorem head {q : Word} (h : Frame a b c c') (hq : ¬ c.Loose (q + sizeTSize))
    (hout : q.toNat + 4 ≤ a ∨ b < q.toNat) (hroom : q.toNat + 4 < 4294967296) :
    c'.head q = c.head q :=
  h.word _ hq (by rw [toNat_head hroom]; omega)

theorem foot {q : Word} (h : Frame a b c c') (hq : ¬ c.Loose q)
    (hout : q.toNat ≤ a ∨ b + 4 < q.toNat) : c'.prevFoot q = c.prevFoot q := h.word q hq hout

theorem setWord (h : Frame a b c c') (v : Word) (ha : a < x.toNat) (hb : x.toNat ≤ b + 4) :
    Frame a b c (c'.setWord x v) := by
  refine ⟨fun y hy hout => ?_, h.firm⟩
  have hne : y ≠ x := by
    rintro rfl
    omega
  rw [ChunkStore.setWord_word, if_neg hne, h.word y hy hout]

theorem setHead (h : Frame a b c c') (v : Word) (ha : a ≤ p.toNat) (hb : p.toNat ≤ b)
    (hroom : p.toNat + 4 < 4294967296) : Frame a b c (c'.setHead p v) := by
  have hhead := toNat_head hroom
  exact h.setWord v (by omega) (by omega)

theorem setFoot (h : Frame a b c c') (ha : a < (p + s).toNat) (hb : (p + s).toNat ≤ b) :
    Frame a b c (c'.setFoot p s) := h.setWord s ha (by omega)

theorem setPinuse (h : Frame a b c c') (ha : a ≤ p.toNat) (hb : p.toNat ≤ b)
    (hroom : p.toNat + 4 < 4294967296) : Frame a b c (c'.setPinuse p) := h.setHead _ ha hb hroom

theorem clearPinuse (h : Frame a b c c') (ha : a ≤ p.toNat) (hb : p.toNat ≤ b)
    (hroom : p.toNat + 4 < 4294967296) : Frame a b c (c'.clearPinuse p) := h.setHead _ ha hb hroom

section Chunk

variable (h : Frame a b c c') (ha : a ≤ p.toNat) (hnext : p.toNat < (p + s).toNat)
  (hb : (p + s).toNat ≤ b)

include h ha hnext hb

theorem setFree (hroom : p.toNat + 4 < 4294967296) :
    Frame a b c (c'.setSizeAndPinuseOfFreeChunk p s) :=
  (h.setHead _ ha (by omega) hroom).setFoot (by omega) hb

theorem setInuse (hroom : (p + s).toNat + 4 < 4294967296) : Frame a b c (c'.setInuse p s) :=
  (h.setHead _ ha (by omega) (by omega)).setPinuse (by omega) hb hroom

theorem setInuseAndPinuse (hroom : (p + s).toNat + 4 < 4294967296) :
    Frame a b c (c'.setInuseAndPinuse p s) :=
  (h.setHead _ ha (by omega) (by omega)).setPinuse (by omega) hb hroom

theorem setDv (hs : 16 ≤ s.toNat) : Frame a b c (c'.setDv p s) := by
  refine ⟨h.word, ?_⟩
  rintro x hx hout ⟨q, hq | ⟨rfl, -⟩, hlow, hhigh⟩
  · exact h.firm x hx hout ⟨q, Or.inl hq, hlow, hhigh⟩
  · have hin := links_within hs hnext hlow hhigh
    omega

end Chunk

theorem clearDv (h : Frame a b c c') : Frame a b c (c'.setDv 0 0) := by
  refine ⟨h.word, ?_⟩
  rintro x hx hout ⟨q, hq | ⟨-, hzero⟩, hlow, hhigh⟩
  · exact h.firm x hx hout ⟨q, Or.inl hq, hlow, hhigh⟩
  · exact absurd rfl hzero

theorem unlinkChunk (h : Frame a b c c') (p s : Word) : Frame a b c (c'.unlinkChunk p s) := by
  refine ⟨fun x hx hout => ?_, ?_⟩
  · change (if c'.isLink x then 0 else c'.word x) = _
    rw [if_neg fun hlink => h.firm x hx hout (loose_of_isLink hlink), h.word x hx hout]
  · rintro x hx hout ⟨q, hq | hq, hrange⟩
    · exact h.firm x hx hout ⟨q, Or.inl (List.mem_of_mem_erase hq), hrange⟩
    · exact h.firm x hx hout ⟨q, Or.inr hq, hrange⟩

/-- The links of the chunk lie between `a` and `b`, or the chunk is free already. -/
theorem link (h : Frame a b c c') (hin : ∀ x : Word, chunk2mem p ≤ x →
    x < p + ChunkStore.linksSize s → c'.Loose x ∨ a < x.toNat ∧ x.toNat ≤ b) :
    Frame a b c (c'.insertChunk p s) := by
  have hfirm : ∀ x : Word, ¬ c.Loose x → x.toNat ≤ a ∨ b + 4 < x.toNat →
      ¬ (c'.insertChunk p s).Loose x := by
    rintro x hx hout ⟨q, hq | hq, hlow, hhigh⟩
    · rcases List.mem_cons.mp hq with rfl | hq
      · rcases hin x hlow hhigh with hloose | hbetween
        · exact h.firm x hx hout hloose
        · omega
      · exact h.firm x hx hout ⟨q, Or.inl hq, hlow, hhigh⟩
    · exact h.firm x hx hout ⟨q, Or.inr hq, hlow, hhigh⟩
  exact ⟨fun x hx hout => (insertChunk_word (hfirm x hx hout)).trans (h.word x hx hout), hfirm⟩

theorem insertChunk (h : Frame a b c c') (ha : a ≤ p.toNat) (hnext : p.toNat < (p + s).toNat)
    (hb : (p + s).toNat ≤ b) (hs : 16 ≤ s.toNat) : Frame a b c (c'.insertChunk p s) := by
  refine h.link fun x hlow hhigh => Or.inr ?_
  have hin := links_within hs hnext hlow hhigh
  omega

end Frame

namespace Relinks

variable {a b : ℕ} {c c' : ChunkStore} {q x : Word}

theorem refl : Relinks c c := fun _ _ => Frame.refl

theorem word (h : Relinks c c') (hx : ¬ c.Loose x) : c'.word x = c.word x :=
  (h x.toNat x.toNat).word x hx (Or.inl (le_refl _))

theorem head (h : Relinks c c') (hq : ¬ c.Loose (q + sizeTSize)) : c'.head q = c.head q :=
  h.word hq

theorem clearDv (h : Relinks c c') : Relinks c (c'.setDv 0 0) := fun a b => (h a b).clearDv

theorem unlinkChunk (h : Relinks c c') (p s : Word) : Relinks c (c'.unlinkChunk p s) :=
  fun a b => (h a b).unlinkChunk p s

end Relinks

section Checked

variable {m : MallocState} {c : ChunkStore} {p s : Word}

theorem insertChunk_ok (h : okBins m c = true) : insertChunk m p s c = .ok (c.insertChunk p s) :=
  if_pos h

theorem unlinkChunk_ok (h : okBins m c = true) (hmem : (p, s) ∈ c.binned) :
    unlinkChunk m p s c = .ok (c.unlinkChunk p s) := if_pos ⟨h, hmem⟩

theorem replaceDv_ok (h : okBins m c = true) : replaceDv m p s c = .ok (c.replaceDv p s) :=
  if_pos (Or.inr h)

/-- Unlinking a chunk leaves no more to check. -/
theorem okBins_unlink (h : okBins m c = true) : okBins m (c.unlinkChunk p s) = true := by
  rw [okBins, List.all_eq_true] at h ⊢
  exact fun x hx => h x (List.mem_of_mem_erase hx)

end Checked

end WasmCxxShim.Dlmalloc
