import Mathlib

/-!
# Stores of blocks

What a memory allocator is for: it hands out blocks of an address space that do not overlap, and
keeps what is written into them. `Allowed` says which answers to an operation are right, and `next`
what the blocks are after it; where a block is placed and whether a request is refused is open.
-/
namespace WasmCxxShim.BlockStores

variable {β : Type}

/-- A block and what is known of its contents. -/
structure Block (β : Type) where
  size : ℕ
  contents : ℕ → Option β

namespace Block

def blank (n : ℕ) : Block β := ⟨n, fun _ => none⟩

def filled (n : ℕ) (v : β) : Block β := ⟨n, fun _ => some v⟩

/-- The common prefix of the old and the new block is kept. -/
def resized (n : ℕ) (b : Block β) : Block β :=
  ⟨n, fun i => if i < b.size then b.contents i else none⟩

def written (i : ℕ) (v : β) (b : Block β) : Block β :=
  ⟨b.size, Function.update b.contents i (some v)⟩

end Block

/-- The blocks by their addresses. -/
def Store (β : Type) := ℕ → Option (Block β)

namespace Store

def empty : Store β := fun _ => none

def put (a : ℕ) (b : Option (Block β)) (s : Store β) : Store β := Function.update s a b

@[simp] theorem put_self (a : ℕ) (b : Option (Block β)) (s : Store β) : s.put a b a = b :=
  Function.update_self ..

theorem put_of_ne {a a' : ℕ} (h : a' ≠ a) (b : Option (Block β)) (s : Store β) :
    s.put a b a' = s a' := Function.update_of_ne h ..

end Store

/-- The operations of a program; `d` is an alignment. -/
inductive Op (β : Type)
  | alloc (d n : ℕ)
  | allocFilled (d n : ℕ) (v : β)
  | resize (d a n : ℕ)
  | release (a : ℕ)
  | write (a i : ℕ) (v : β)
  | load (a i : ℕ)

inductive Answer (β : Type)
  | block (a : Option ℕ)
  | value (v : β)
  | done
  deriving DecidableEq

/-- The program uses only blocks that it has, and only inside them. -/
def Legal (s : Store β) : Op β → Prop
  | .alloc _ _ => True
  | .allocFilled _ _ _ => True
  | .resize _ a _ => (s a).isSome
  | .release a => (s a).isSome
  | .write a i _ => ∃ b, s a = some b ∧ i < b.size
  | .load a i => ∃ b, s a = some b ∧ i < b.size

instance (s : Store β) (a i : ℕ) : Decidable (∃ b, s a = some b ∧ i < b.size) :=
  match h : s a with
  | none => .isFalse (by simp)
  | some b => decidable_of_iff (i < b.size) (by simp)

instance Legal.decidable (s : Store β) : (op : Op β) → Decidable (Legal s op)
  | .alloc _ _ => .isTrue trivial
  | .allocFilled _ _ _ => .isTrue trivial
  | .resize _ a _ => inferInstanceAs (Decidable ((s a).isSome = true))
  | .release a => inferInstanceAs (Decidable ((s a).isSome = true))
  | .write a i _ => inferInstanceAs (Decidable (∃ b, s a = some b ∧ i < b.size))
  | .load a i => inferInstanceAs (Decidable (∃ b, s a = some b ∧ i < b.size))

/-- There is room for `n` bytes at `a`. -/
structure Free (s : Store β) (a n : ℕ) : Prop where
  unused : s a = none
  apart : ∀ a' b, s a' = some b → a + n ≤ a' ∨ a' + b.size ≤ a

def Allowed (s : Store β) : Op β → Answer β → Prop
  | .alloc d n, .block p => ∀ a ∈ p, d ∣ a ∧ Free s a n
  | .allocFilled d n _, .block p => ∀ a ∈ p, d ∣ a ∧ Free s a n
  | .resize d a n, .block p => ∀ a' ∈ p, d ∣ a' ∧ Free (s.put a none) a' n
  | .release _, .done => True
  | .write _ _ _, .done => True
  | .load a i, .value v => ∀ b ∈ s a, ∀ u ∈ b.contents i, v = u
  | _, _ => False

def next (s : Store β) : Op β → Answer β → Store β
  | .alloc _ n, .block (some a) => s.put a (some (.blank n))
  | .allocFilled _ n v, .block (some a) => s.put a (some (.filled n v))
  | .resize _ a n, .block (some a') => (s.put a none).put a' ((s a).map (Block.resized n))
  | .release a, .done => s.put a none
  | .write a i v, .done => s.put a ((s a).map (Block.written i v))
  | _, _ => s

def Separated (s : Store β) : Prop :=
  ∀ a b a' b', s a = some b → s a' = some b' → a ≠ a' → a + b.size ≤ a' ∨ a' + b'.size ≤ a

namespace Separated

variable {s : Store β} {a n : ℕ} {b : Block β}

theorem empty : Separated (Store.empty : Store β) := fun _ _ _ _ h => nomatch h

theorem erase (h : Separated s) (a : ℕ) : Separated (s.put a none) := by
  intro a₁ b₁ a₂ b₂ h₁ h₂ hne
  have hkept : ∀ x y, s.put a none x = some y → s x = some y := by
    intro x y hx
    by_cases heq : x = a
    · subst heq
      rw [Store.put_self] at hx
      cases hx
    · rwa [Store.put_of_ne heq] at hx
  exact h a₁ b₁ a₂ b₂ (hkept a₁ b₁ h₁) (hkept a₂ b₂ h₂) hne

theorem insert (h : Separated s) (hfree : Free s a b.size) : Separated (s.put a (some b)) := by
  intro a₁ b₁ a₂ b₂ h₁ h₂ hne
  by_cases h₁a : a₁ = a
  · subst h₁a
    rw [Store.put_self] at h₁
    cases h₁
    rw [Store.put_of_ne hne.symm] at h₂
    exact hfree.apart a₂ b₂ h₂
  rw [Store.put_of_ne h₁a] at h₁
  by_cases h₂a : a₂ = a
  · subst h₂a
    rw [Store.put_self] at h₂
    cases h₂
    exact (hfree.apart a₁ b₁ h₁).symm
  · rw [Store.put_of_ne h₂a] at h₂
    exact h a₁ b₁ a₂ b₂ h₁ h₂ hne

/-- A block that keeps its place and size. -/
theorem modify (h : Separated s) {b' : Block β} (hb : s a = some b) (hsize : b'.size = b.size) :
    Separated (s.put a (some b')) := by
  intro a₁ b₁ a₂ b₂ h₁ h₂ hne
  have hkept : ∀ x y, s.put a (some b') x = some y → ∃ z, s x = some z ∧ z.size = y.size := by
    intro x y hx
    by_cases heq : x = a
    · subst heq
      rw [Store.put_self] at hx
      cases hx
      exact ⟨b, hb, hsize.symm⟩
    · rw [Store.put_of_ne heq] at hx
      exact ⟨y, hx, rfl⟩
  obtain ⟨c₁, hc₁, hs₁⟩ := hkept a₁ b₁ h₁
  obtain ⟨c₂, hc₂, hs₂⟩ := hkept a₂ b₂ h₂
  rw [← hs₁, ← hs₂]
  exact h a₁ c₁ a₂ c₂ hc₁ hc₂ hne

/-- Right answers keep the blocks apart. -/
theorem next (h : Separated s) {op : Op β} {answer : Answer β} (hallowed : Allowed s op answer) :
    Separated (BlockStores.next s op answer) := by
  cases op with
  | alloc d n =>
    rcases answer with (_ | a) | v | _
    · exact h
    · exact h.insert (b := .blank n) (hallowed a rfl).2
    · exact h
    · exact h
  | allocFilled d n v =>
    rcases answer with (_ | a) | u | _
    · exact h
    · exact h.insert (b := .filled n v) (hallowed a rfl).2
    · exact h
    · exact h
  | resize d a n =>
    rcases answer with (_ | a') | v | _
    · exact h
    · rw [BlockStores.next]
      cases hb : s a with
      | none => exact (h.erase a).erase a'
      | some b => exact (h.erase a).insert (b := b.resized n) (hallowed a' rfl).2
    · exact h
    · exact h
  | release a =>
    rcases answer with p | v | _
    · exact h
    · exact h
    · exact h.erase a
  | write a i v =>
    rcases answer with p | u | _
    · exact h
    · exact h
    · rw [BlockStores.next]
      cases hb : s a with
      | none => exact h.erase a
      | some b => exact h.modify hb (show (b.written i v).size = b.size from rfl)
  | load a i => rcases answer with p | v | _ <;> exact h

end Separated

end WasmCxxShim.BlockStores
