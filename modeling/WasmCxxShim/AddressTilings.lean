import WasmCxxShim.AddressRegions

/-!
# Tilings of an address space

A tiling is a set of labelled regions no two of which overlap. `replace T a b N` takes the tiles
between `a` and `b` out and puts `N` there: merging and splitting tiles, and changing the label of
one, are all of this form. `Clean T a b` says that no tile sticks out of the interval.
-/
namespace WasmCxxShim.AddressTilings
open AddressRegions

variable {τ : Type*} (region : τ → Region)

/-- One region ends before the other begins. -/
def Beside (r s : Region) : Prop := r.finish ≤ s.base ∨ s.finish ≤ r.base

def Separate (T : Set τ) : Prop := ∀ t ∈ T, ∀ u ∈ T, t ≠ u → Beside (region t) (region u)

def Outside (a b : ℕ) (r : Region) : Prop := r.finish ≤ a ∨ b ≤ r.base

def Inside (a b : ℕ) (r : Region) : Prop := a ≤ r.base ∧ r.finish ≤ b

def Clean (T : Set τ) (a b : ℕ) : Prop :=
  ∀ t ∈ T, Outside a b (region t) ∨ Inside a b (region t)

def replace (T : Set τ) (a b : ℕ) (N : Set τ) : Set τ :=
  {t | t ∈ T ∧ Outside a b (region t)} ∪ N

def covered (T : Set τ) : Set ℕ := {x | ∃ t ∈ T, x ∈ (region t).bytes}

variable {region} {T N : Set τ} {a b c : ℕ} {t u : τ}

theorem mem_replace : t ∈ replace region T a b N ↔ t ∈ T ∧ Outside a b (region t) ∨ t ∈ N := Iff.rfl

theorem Beside.symm {r s : Region} (h : Beside r s) : Beside s r := Or.symm h

/-- Two tiles that hold the same address are the same. -/
theorem Separate.eq (h : Separate region T) (ht : t ∈ T) (hu : u ∈ T) {x : ℕ}
    (hxt : x ∈ (region t).bytes) (hxu : x ∈ (region u).bytes) : t = u := by
  by_contra hne
  have hbeside := h t ht u hu hne
  rw [Region.mem_bytes] at hxt hxu
  unfold Beside at hbeside
  omega

theorem Separate.replace (h : Separate region T) (hN : Separate region N)
    (hin : ∀ n ∈ N, Inside a b (region n)) : Separate region (replace region T a b N) := by
  have hcross : ∀ t ∈ T, Outside a b (region t) → ∀ n ∈ N, Beside (region t) (region n) := by
    intro t _ hout n hn
    obtain ⟨hlow, hhigh⟩ := hin n hn
    rcases hout with hout | hout
    · exact Or.inl (hout.trans hlow)
    · exact Or.inr (hhigh.trans hout)
  intro t ht u hu hne
  rcases ht with ⟨ht, htout⟩ | ht <;> rcases hu with ⟨hu, huout⟩ | hu
  · exact h t ht u hu hne
  · exact hcross t ht htout u hu
  · exact (hcross u hu huout t ht).symm
  · exact hN t ht u hu hne

theorem Separate.clean (h : Separate region T) (ht : t ∈ T) :
    Clean region T (region t).base (region t).finish := by
  intro u hu
  by_cases hne : u = t
  · exact Or.inr (hne ▸ ⟨le_refl _, le_refl _⟩)
  · exact Or.inl (h u hu t ht hne)

/-- Intervals that meet may be joined. -/
theorem Clean.append (h : Clean region T a b) (h' : Clean region T b c) (hab : a ≤ b)
    (hbc : b ≤ c) : Clean region T a c := by
  intro t ht
  have hle : (region t).base ≤ (region t).finish := Nat.le_add_right _ _
  rcases h t ht with (hout | hout) | hin
  · exact Or.inl (Or.inl hout)
  · rcases h' t ht with (hout' | hout') | hin'
    · exact Or.inr ⟨hab.trans hout, hout'.trans hbc⟩
    · exact Or.inl (Or.inr hout')
    · exact Or.inr ⟨hab.trans hin'.1, hin'.2⟩
  · exact Or.inr ⟨hin.1, hin.2.trans hbc⟩

/-- What was covered still is when the new tiles cover their interval. -/
theorem covered_replace (hclean : Clean region T a b)
    (hN : ∀ x, a ≤ x → x < b → x ∈ covered region N) :
    covered region T ⊆ covered region (replace region T a b N) := by
  rintro x ⟨t, ht, hx⟩
  rcases hclean t ht with hout | ⟨hlow, hhigh⟩
  · exact ⟨t, Or.inl ⟨ht, hout⟩, hx⟩
  · rw [Region.mem_bytes] at hx
    obtain ⟨n, hn, hxn⟩ := hN x (hlow.trans hx.1) (hx.2.trans_le hhigh)
    exact ⟨n, Or.inr hn, hxn⟩

end WasmCxxShim.AddressTilings
