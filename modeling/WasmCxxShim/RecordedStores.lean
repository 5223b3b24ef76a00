import Mathlib

/-!
# Memory cells with a record of stores

A block of memory is seen through one pointer: its contents by offset, together with the list
of the offsets that were stored to. The contents answer what a block holds, the record answers
where a program wrote. `copy` is a run of stores to consecutive offsets and `window` reads such
a run back.
-/
namespace WasmCxxShim.RecordedStores

structure Cells (ι α : Type*) where
  bytes : ι → α
  stored : List ι

namespace Cells

variable {ι α : Type*}

section Store

variable [DecidableEq ι]

def store (m : Cells ι α) (i : ι) (b : α) : Cells ι α :=
  ⟨Function.update m.bytes i b, i :: m.stored⟩

@[simp] theorem store_bytes_self (m : Cells ι α) (i : ι) (b : α) :
    (m.store i b).bytes i = b := by
  simp [store]

@[simp] theorem store_bytes_of_ne (m : Cells ι α) {i j : ι} (b : α) (h : j ≠ i) :
    (m.store i b).bytes j = m.bytes j := by
  simp [store, h]

@[simp] theorem store_stored (m : Cells ι α) (i : ι) (b : α) :
    (m.store i b).stored = i :: m.stored := rfl

end Store

/-- Store the values `xs` to consecutive offsets from `d` on, the lowest first. -/
def copy (m : Cells ℕ α) (d : ℕ) : List α → Cells ℕ α
  | [] => m
  | x :: xs => (m.store d x).copy (d + 1) xs

@[simp] theorem copy_nil (m : Cells ℕ α) (d : ℕ) : m.copy d [] = m := rfl

@[simp] theorem copy_cons (m : Cells ℕ α) (d : ℕ) (x : α) (xs : List α) :
    m.copy d (x :: xs) = (m.store d x).copy (d + 1) xs := rfl

theorem copy_bytes_outside (m : Cells ℕ α) (d : ℕ) (xs : List α) {i : ℕ}
    (h : i < d ∨ d + xs.length ≤ i) : (m.copy d xs).bytes i = m.bytes i := by
  induction xs generalizing m d with
  | nil => rfl
  | cons x xs ih =>
    rw [List.length_cons] at h
    rw [copy_cons, ih _ _ (by omega), store_bytes_of_ne _ _ (by omega)]

theorem copy_bytes (m : Cells ℕ α) (d : ℕ) (xs : List α) (k : ℕ) (h : k < xs.length) :
    (m.copy d xs).bytes (d + k) = xs[k] := by
  induction xs generalizing m d k with
  | nil => simp at h
  | cons x xs ih =>
    rw [copy_cons]
    cases k with
    | zero => simp [copy_bytes_outside]
    | succ k =>
      have := ih (m.store d x) (d + 1) k (by simpa using h)
      rw [show d + (k + 1) = d + 1 + k by omega, this, List.getElem_cons_succ]

@[simp] theorem mem_stored_copy (m : Cells ℕ α) (d : ℕ) (xs : List α) (i : ℕ) :
    i ∈ (m.copy d xs).stored ↔ i ∈ m.stored ∨ d ≤ i ∧ i < d + xs.length := by
  induction xs generalizing m d with
  | nil => simp
  | cons x xs ih =>
    rw [copy_cons, ih, store_stored, List.mem_cons, List.length_cons]
    constructor <;> intro h
    · rcases h with (h | h) | h
      · exact Or.inr (by omega)
      · exact Or.inl h
      · exact Or.inr (by omega)
    · rcases h with h | h
      · exact Or.inl (Or.inr h)
      · rcases Nat.eq_or_lt_of_le h.1 with heq | hlt
        · exact Or.inl (Or.inl heq.symm)
        · exact Or.inr (by omega)

/-- The contents of the offsets below `k`. -/
def window (m : Cells ℕ α) (k : ℕ) : List α := (List.range k).map m.bytes

@[simp] theorem window_length (m : Cells ℕ α) (k : ℕ) : (m.window k).length = k := by
  simp [window]

theorem window_congr {m m' : Cells ℕ α} {k : ℕ} (h : ∀ i < k, m.bytes i = m'.bytes i) :
    m.window k = m'.window k := by
  simpa [window] using h

@[simp] theorem window_store (m : Cells ℕ α) {i k : ℕ} (b : α) (h : k ≤ i) :
    (m.store i b).window k = m.window k :=
  window_congr fun j hj => store_bytes_of_ne m b (by omega)

theorem window_copy (m : Cells ℕ α) (d : ℕ) (xs : List α) :
    (m.copy d xs).window (d + xs.length) = m.window d ++ xs := by
  apply List.ext_getElem
  · simp
  · intro i hi hi'
    rw [window_length] at hi
    rw [List.getElem_append]
    split_ifs with hd
    · rw [window_length] at hd
      simp [window, copy_bytes_outside, hd]
    · rw [window_length] at hd
      have := copy_bytes m d xs (i - d) (by omega)
      rw [show d + (i - d) = i by omega] at this
      simp [window, this]

end Cells

end WasmCxxShim.RecordedStores
