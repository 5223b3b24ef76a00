import Mathlib

/-!
# Regions of a growing address space

A region is an interval of natural number addresses. `Placed lo brk held lent` says that one
party holds the regions `held` and others hold `lent`: nothing reaches past the break `brk`,
what is held lies at or above `lo`, and no two regions overlap, whoever holds them. The break
only moves up, so whatever is handed out at the break is new.
-/
namespace WasmCxxShim.AddressRegions

structure Region where
  base : ℕ
  size : ℕ
  deriving DecidableEq, Repr

namespace Region

def finish (r : Region) : ℕ := r.base + r.size

def bytes (r : Region) : Set ℕ := Set.Ico r.base r.finish

/-- One region ends before the other begins, or one of them is empty. -/
def Apart (r s : Region) : Prop :=
  r.finish ≤ s.base ∨ s.finish ≤ r.base ∨ r.size = 0 ∨ s.size = 0

theorem mem_bytes {r : Region} {a : ℕ} : a ∈ r.bytes ↔ r.base ≤ a ∧ a < r.finish := Iff.rfl

theorem Apart.symm {r s : Region} (h : r.Apart s) : s.Apart r := by
  rcases h with h | h | h | h
  · exact Or.inr (Or.inl h)
  · exact Or.inl h
  · exact Or.inr (Or.inr (Or.inr h))
  · exact Or.inr (Or.inr (Or.inl h))

theorem Apart.disjoint {r s : Region} (h : r.Apart s) : Disjoint r.bytes s.bytes := by
  rw [Set.disjoint_left]
  intro a hr hs
  rw [mem_bytes] at hr hs
  unfold Apart at h
  unfold finish at h hr hs
  omega

end Region

/-- The first region that satisfies `p` is replaced by its image. -/
def updateFirst {α : Type*} (p : α → Bool) (f : α → α) : List α → List α
  | [] => []
  | x :: xs => if p x then f x :: xs else x :: updateFirst p f xs

structure Placed (lo brk : ℕ) (held lent : List Region) : Prop where
  above : ∀ r ∈ held, lo ≤ r.base
  below : ∀ r ∈ held, r.finish ≤ brk
  lent_below : ∀ r ∈ lent, r.finish ≤ brk
  held_apart : held.Pairwise Region.Apart
  lent_apart : ∀ r ∈ held, ∀ s ∈ lent, r.Apart s

namespace Placed

variable {lo brk : ℕ} {held lent : List Region}

theorem empty (lo brk : ℕ) : Placed lo brk [] [] where
  above := by simp
  below := by simp
  lent_below := by simp
  held_apart := List.Pairwise.nil
  lent_apart := by simp

/-- Addresses may be added to the space without being handed to anyone. -/
theorem grow (h : Placed lo brk held lent) {brk' : ℕ} (hle : brk ≤ brk') :
    Placed lo brk' held lent where
  above := h.above
  below r hr := (h.below r hr).trans hle
  lent_below r hr := (h.lent_below r hr).trans hle
  held_apart := h.held_apart
  lent_apart := h.lent_apart

/-- A region at or above the break is apart from everything handed out before. -/
theorem hold (h : Placed lo brk held lent) {r : Region} {brk' : ℕ} (hlo : lo ≤ r.base)
    (hbase : brk ≤ r.base) (hfin : r.finish ≤ brk') : Placed lo brk' (r :: held) lent where
  above := by
    intro s hs
    rcases List.mem_cons.mp hs with rfl | hs
    · exact hlo
    · exact h.above s hs
  below := by
    intro s hs
    rcases List.mem_cons.mp hs with rfl | hs
    · exact hfin
    · have := h.below s hs
      simp only [Region.finish] at *
      omega
  lent_below s hs := by
    have := h.lent_below s hs
    simp only [Region.finish] at *
    omega
  held_apart := List.pairwise_cons.mpr
    ⟨fun s hs => Or.inr (Or.inl ((h.below s hs).trans hbase)), h.held_apart⟩
  lent_apart := by
    intro s hs t ht
    rcases List.mem_cons.mp hs with rfl | hs
    · exact Or.inr (Or.inl ((h.lent_below t ht).trans hbase))
    · exact h.lent_apart s hs t ht

/-- Other parties get their regions at the break as well. -/
theorem lend (h : Placed lo brk held lent) {r : Region} {brk' : ℕ} (hbase : brk ≤ r.base)
    (hfin : r.finish ≤ brk') : Placed lo brk' held (r :: lent) where
  above := h.above
  below s hs := by
    have := h.below s hs
    simp only [Region.finish] at *
    omega
  lent_below := by
    intro s hs
    rcases List.mem_cons.mp hs with rfl | hs
    · exact hfin
    · have := h.lent_below s hs
      simp only [Region.finish] at *
      omega
  held_apart := h.held_apart
  lent_apart := by
    intro s hs t ht
    rcases List.mem_cons.mp ht with rfl | ht
    · exact Or.inl ((h.below s hs).trans hbase)
    · exact h.lent_apart s hs t ht

/-- A held region that ends at the break may be extended to the new break. -/
theorem extend {before after : List Region} {r : Region} {size brk' : ℕ}
    (h : Placed lo brk (before ++ r :: after) lent) (hend : r.finish = brk)
    (hbrk : r.finish + size ≤ brk') :
    Placed lo brk' (before ++ ⟨r.base, r.size + size⟩ :: after) lent := by
  have hfin : (⟨r.base, r.size + size⟩ : Region).finish = r.finish + size := by
    simp only [Region.finish]
    omega
  have hr : r ∈ before ++ r :: after := by simp
  have hold : ∀ s, s ∈ before ∨ s ∈ after → s ∈ before ++ r :: after := by
    intro s hs
    rcases hs with hs | hs <;> simp [hs]
  have hbelow : ∀ s, s ∈ before ∨ s ∈ after → s.finish ≤ brk := fun s hs => h.below s (hold s hs)
  have hpair := h.held_apart
  rw [List.pairwise_append, List.pairwise_cons] at hpair
  obtain ⟨hbefore, ⟨hrafter, hafter⟩, hcross⟩ := hpair
  -- Whatever is apart from `r` lies below it, since nothing fits between `r` and the break.
  have hapart : ∀ s : Region, s.finish ≤ brk → r.Apart s →
      (⟨r.base, r.size + size⟩ : Region).Apart s := by
    intro s hs hrs
    simp only [Region.Apart, Region.finish] at *
    omega
  have hkept : ∀ s, s ∈ before ++ ⟨r.base, r.size + size⟩ :: after →
      s = ⟨r.base, r.size + size⟩ ∨ s ∈ before ∨ s ∈ after := by
    intro s hs
    simp only [List.mem_append, List.mem_cons] at hs
    tauto
  refine ⟨?_, ?_, ?_, ?_, ?_⟩
  · intro s hs
    rcases hkept s hs with rfl | hs
    · exact h.above r hr
    · exact h.above s (hold s hs)
  · intro s hs
    rcases hkept s hs with rfl | hs
    · omega
    · have := hbelow s hs
      omega
  · intro s hs
    have := h.lent_below s hs
    omega
  · rw [List.pairwise_append, List.pairwise_cons]
    refine ⟨hbefore, ⟨fun s hs => hapart s (hbelow s (Or.inr hs)) (hrafter s hs), hafter⟩, ?_⟩
    intro s hs t ht
    rcases List.mem_cons.mp ht with rfl | ht
    · exact (hapart s (hbelow s (Or.inl hs)) (hcross s hs r (by simp)).symm).symm
    · exact hcross s hs t (List.mem_cons_of_mem _ ht)
  · intro s hs t ht
    rcases hkept s hs with rfl | hs
    · exact hapart t (h.lent_below t ht) (h.lent_apart r hr t ht)
    · exact h.lent_apart s (hold s hs) t ht

end Placed

/-- The bytes held altogether. -/
def total (held : List Region) : ℕ := (held.map Region.size).sum

@[simp] theorem total_cons (r : Region) (held : List Region) :
    total (r :: held) = r.size + total held := by
  simp [total]

/-- The addresses that some region holds. -/
def covered : List Region → Finset ℕ
  | [] => ∅
  | r :: held => Finset.Ico r.base r.finish ∪ covered held

theorem mem_covered {held : List Region} {a : ℕ} : a ∈ covered held ↔ ∃ r ∈ held, a ∈ r.bytes := by
  induction held with
  | nil => simp [covered]
  | cons r held ih => simp [covered, ih, Region.mem_bytes]

theorem card_covered {held : List Region} (h : held.Pairwise Region.Apart) :
    (covered held).card = total held := by
  induction held with
  | nil => rfl
  | cons r held ih =>
    obtain ⟨hr, hheld⟩ := List.pairwise_cons.mp h
    have hdisjoint : Disjoint (Finset.Ico r.base r.finish) (covered held) := by
      rw [Finset.disjoint_left]
      intro a ha hcov
      obtain ⟨s, hs, has⟩ := mem_covered.mp hcov
      exact Set.disjoint_left.mp (hr s hs).disjoint (Finset.mem_Ico.mp ha) has
    rw [covered, Finset.card_union_of_disjoint hdisjoint, ih hheld, Nat.card_Ico, total_cons,
      Region.finish, Nat.add_sub_cancel_left]

/-- Regions that do not overlap hold at most the bytes between `lo` and the break. -/
theorem Placed.total_le {lo brk : ℕ} {held lent : List Region} (h : Placed lo brk held lent)
    (hlo : lo ≤ brk) : lo + total held ≤ brk := by
  have hsubset : covered held ⊆ Finset.Ico lo brk := by
    intro a ha
    obtain ⟨r, hr, har⟩ := mem_covered.mp ha
    rw [Region.mem_bytes] at har
    exact Finset.mem_Ico.mpr ⟨(h.above r hr).trans har.1, har.2.trans_le (h.below r hr)⟩
  have hcard := Finset.card_le_card hsubset
  rw [card_covered h.held_apart, Nat.card_Ico] at hcard
  omega

end WasmCxxShim.AddressRegions
