import WasmCxxShim.AddressRegions
import WasmCxxShim.HaltingPrograms
import WasmCxxShim.MachineWords

/-!
# Linear memory and `sbrk`

Linear memory is counted in pages of 65536 bytes and only grows. `Env` adds two ghost fields:
the increments `sbrk` has been called with and the page ranges that `memory.grow` has returned
to other parties in the module.
-/
namespace WasmCxxShim.LinearMemory
open MachineWords HaltingPrograms AddressRegions

def pageSize : Word := 65536

/-- Linear memory: at most 65536 pages are addressable by a 32-bit pointer. `maxPages` is the number
of pages up to which the host grows the memory; it may be less than the declared maximum. -/
structure Memory where
  pages : ℕ
  maxPages : ℕ
  pages_le : pages ≤ maxPages
  maxPages_le : maxPages ≤ 65536

/-- The bytes of linear memory, as a natural number. -/
def Memory.bytes (m : Memory) : ℕ := m.pages * 65536

/-- `memory.size`, in pages. -/
def memorySize (m : Memory) : Word := BitVec.ofNat 32 m.pages

/-- `memory.grow`: the old size in pages, or -1 when the maximum would be exceeded. -/
def memoryGrow (delta : Word) (m : Memory) : Word × Memory :=
  if h : m.pages + delta.toNat ≤ m.maxPages then
    (BitVec.ofNat 32 m.pages,
      { m with pages := m.pages + delta.toNat, pages_le := h })
  else (-1, m)

structure Env where
  memory : Memory
  sbrkCalls : List ℤ
  lent : List Region

/-- Why a program stops without returning. -/
inductive Halt
  /-- The `__builtin_trap` of `sbrk`. -/
  | sbrkTrap
  /-- The `__builtin_trap` of `try_init_allocator`. -/
  | initTrap
  /-- A loop that never ends. -/
  | hang
  /-- Undefined behaviour, such as freeing what is not a chunk. -/
  | undefined
  deriving DecidableEq, Repr

def sbrk (increment : Word) : Program Halt Env Word := do
  modify fun e => { e with sbrkCalls := e.sbrkCalls ++ [increment.toInt] }
  if increment = 0 then
    let e ← read
    return memorySize e.memory * pageSize
  if increment.slt 0 || increment.srem pageSize != 0 then
    halt .sbrkTrap
  let e ← read
  let (old, memory) := memoryGrow (increment / pageSize) e.memory
  modify fun e => { e with memory := memory }
  if old = -1 then
    return -1
  return old * pageSize

/-- Another party in the module calls `memory.grow`; a success is its page range. -/
def foreignGrow (delta : Word) (e : Env) : Env :=
  let (old, memory) := memoryGrow delta e.memory
  if old = -1 then { e with memory := memory }
  else { e with memory := memory, lent := ⟨old.toNat * 65536, delta.toNat * 65536⟩ :: e.lent }

/-- The increments `sbrk` does not trap on. -/
def GoodIncrement (i : ℤ) : Prop := 0 ≤ i ∧ 65536 ∣ i

/-- A positive multiple of the page size that is not negative as an `intptr_t`. -/
def PageIncrement (n : Word) : Prop := 0 < n.toNat ∧ n.toNat < 2147483648 ∧ 65536 ∣ n.toNat

/-- The break: the address of the end of memory, as a word. -/
def breakAddr (e : Env) : Word := BitVec.ofNat 32 e.memory.bytes

/-- `sbrk` was called with `n`. -/
def called (n : Word) (e : Env) : Env := { e with sbrkCalls := e.sbrkCalls ++ [n.toInt] }

def Fits (n : Word) (e : Env) : Prop := e.memory.pages + n.toNat / 65536 ≤ e.memory.maxPages

instance (n : Word) (e : Env) : Decidable (Fits n e) :=
  inferInstanceAs (Decidable (_ ≤ _))

/-- Memory after a successful growth by `n` bytes. -/
def grown (n : Word) (e : Env) (h : Fits n e) : Env :=
  { e with memory := { e.memory with pages := e.memory.pages + n.toNat / 65536, pages_le := h } }

@[simp] theorem called_memory (n : Word) (e : Env) : (called n e).memory = e.memory := rfl

@[simp] theorem breakAddr_called (n : Word) (e : Env) : breakAddr (called n e) = breakAddr e := rfl

theorem fits_called_grown {k n : Word} {e : Env} {h : Fits k e} :
    Fits n (called k (grown k e h)) ↔
      e.memory.pages + k.toNat / 65536 + n.toNat / 65536 ≤ e.memory.maxPages := Iff.rfl

theorem bytes_le (m : Memory) : m.bytes ≤ 4294967296 := by
  have h1 := m.pages_le
  have h2 := m.maxPages_le
  unfold Memory.bytes
  omega

theorem grown_bytes {n : Word} {e : Env} (hn : 65536 ∣ n.toNat) (h : Fits n e) :
    (grown n e h).memory.bytes = e.memory.bytes + n.toNat := by
  simp only [Memory.bytes, grown]
  omega

theorem toNat_breakAddr (e : Env) : (breakAddr e).toNat = e.memory.bytes % 4294967296 := by
  rw [breakAddr, BitVec.toNat_ofNat]

/-- Below the last page the break is the end of memory. -/
theorem toNat_breakAddr_of_lt {e : Env} (h : e.memory.bytes < 4294967296) :
    (breakAddr e).toNat = e.memory.bytes := by
  rw [toNat_breakAddr, Nat.mod_eq_of_lt h]

theorem memorySize_mul_pageSize (e : Env) : memorySize e.memory * pageSize = breakAddr e := by
  apply BitVec.eq_of_toNat_eq
  rw [toNat_breakAddr, BitVec.toNat_mul, memorySize, BitVec.toNat_ofNat, Memory.bytes,
    Nat.mod_mul_mod]
  rfl

theorem fits_lt {n : Word} {e : Env} (hn : PageIncrement n) (h : Fits n e) :
    e.memory.bytes < 4294967296 := by
  obtain ⟨hpos, -, hdvd⟩ := hn
  have hmax := e.memory.maxPages_le
  unfold Fits at h
  unfold Memory.bytes
  omega

@[simp] theorem sbrk_zero (e : Env) : sbrk 0 e = .ok (breakAddr e) (called 0 e) := by
  rw [← memorySize_mul_pageSize]
  rfl

theorem goodIncrement_of_page {n : Word} (hn : PageIncrement n) : GoodIncrement n.toInt := by
  obtain ⟨hpos, hlt, hdvd⟩ := hn
  have hint : n.toInt = n.toNat := toInt_of_lt hlt
  rw [hint]
  exact ⟨by omega, by exact_mod_cast hdvd⟩

theorem not_trapping {n : Word} (hn : PageIncrement n) :
    (n.slt 0 || n.srem pageSize != 0) = false := by
  obtain ⟨hpos, hlt, hdvd⟩ := hn
  have hint : n.toInt = n.toNat := toInt_of_lt hlt
  have hslt : n.slt 0 = false := by
    rw [BitVec.slt, hint]
    simp
  have hrem : n.srem pageSize = 0 := by
    apply BitVec.eq_of_toInt_eq
    rw [BitVec.toInt_srem, hint]
    obtain ⟨k, hk⟩ := hdvd
    rw [hk]
    simp [pageSize]
  rw [hslt, hrem]
  rfl

theorem sbrk_ok {n : Word} {e : Env} (hn : PageIncrement n) (h : Fits n e) :
    sbrk n e = .ok (breakAddr e) (called n (grown n e h)) := by
  have hne : n ≠ 0 := word_ne_zero.mpr hn.1
  have hdiv : (n / pageSize).toNat = n.toNat / 65536 := by
    rw [BitVec.toNat_udiv]
    rfl
  have hfits : e.memory.pages + (n / pageSize).toNat ≤ e.memory.maxPages := by
    rw [hdiv]
    exact h
  have hold : BitVec.ofNat 32 e.memory.pages ≠ (-1 : Word) := by
    have := e.memory.pages_le
    have := e.memory.maxPages_le
    bv_omega
  have hgrow : memoryGrow (n / pageSize) e.memory =
      (BitVec.ofNat 32 e.memory.pages, (grown n e h).memory) := by
    rw [memoryGrow, dif_pos hfits]
    simp only [grown, hdiv]
  simp only [sbrk, modify_bind_apply, hne, ↓reduceIte, not_trapping hn, Bool.false_eq_true,
    read_bind_apply, hgrow, hold, pure_apply]
  rw [← memorySize_mul_pageSize]
  rfl

theorem sbrk_fail {n : Word} {e : Env} (hn : PageIncrement n) (h : ¬ Fits n e) :
    sbrk n e = .ok (-1) (called n e) := by
  have hne : n ≠ 0 := word_ne_zero.mpr hn.1
  have hdiv : (n / pageSize).toNat = n.toNat / 65536 := by
    rw [BitVec.toNat_udiv]
    rfl
  have hgrow : memoryGrow (n / pageSize) e.memory = (-1, e.memory) := by
    rw [memoryGrow, dif_neg (by rw [hdiv]; exact h)]
  simp only [sbrk, modify_bind_apply, hne, ↓reduceIte, not_trapping hn, Bool.false_eq_true,
    read_bind_apply, hgrow, pure_apply]
  rfl

/-- A negative increment traps. -/
theorem sbrk_negative {n : Word} {e : Env} (hn : n.toInt < 0) :
    sbrk n e = .halt .sbrkTrap (called n e) := by
  have hne : n ≠ 0 := by
    rintro rfl
    simp at hn
  have hslt : n.slt 0 = true := by
    rw [BitVec.slt]
    simpa using hn
  simp only [sbrk, modify_bind_apply, hne, ↓reduceIte, hslt, Bool.true_or, halt_bind_apply]
  rfl

/-- Memory after another party has grown it by `delta` pages. -/
def lentTo (delta : Word) (e : Env) (h : e.memory.pages + delta.toNat ≤ e.memory.maxPages) : Env :=
  { e with
    memory := { e.memory with pages := e.memory.pages + delta.toNat, pages_le := h }
    lent := ⟨e.memory.bytes, delta.toNat * 65536⟩ :: e.lent }

theorem foreignGrow_ok {delta : Word} {e : Env}
    (h : e.memory.pages + delta.toNat ≤ e.memory.maxPages) :
    foreignGrow delta e = lentTo delta e h := by
  have hle := e.memory.pages_le
  have hmax := e.memory.maxPages_le
  have hold : BitVec.ofNat 32 e.memory.pages ≠ (-1 : Word) := by
    bv_omega
  have hpages : (BitVec.ofNat 32 e.memory.pages).toNat = e.memory.pages :=
    toNat_ofNat_of_lt (by omega)
  have hgrow : memoryGrow delta e.memory = (BitVec.ofNat 32 e.memory.pages,
      { e.memory with pages := e.memory.pages + delta.toNat, pages_le := h }) := by
    rw [memoryGrow, dif_pos h]
  simp only [foreignGrow, hgrow, if_neg hold, hpages]
  rfl

theorem foreignGrow_fail {delta : Word} {e : Env}
    (h : ¬ e.memory.pages + delta.toNat ≤ e.memory.maxPages) : foreignGrow delta e = e := by
  have hgrow : memoryGrow delta e.memory = (-1, e.memory) := by
    rw [memoryGrow, dif_neg h]
  simp only [foreignGrow, hgrow, ↓reduceIte]

theorem foreignGrow_sbrkCalls (delta : Word) (e : Env) :
    (foreignGrow delta e).sbrkCalls = e.sbrkCalls := by
  by_cases h : e.memory.pages + delta.toNat ≤ e.memory.maxPages
  · rw [foreignGrow_ok h]
    rfl
  · rw [foreignGrow_fail h]

end WasmCxxShim.LinearMemory
