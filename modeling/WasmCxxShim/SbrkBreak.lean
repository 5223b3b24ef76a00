import WasmCxxShim.CallHistories
import WasmCxxShim.LinearMemory

/-!
# The break that `sbrk` presents

Calls of `sbrk` and calls of `memory.grow` by others, in any order. The answers follow the end of
linear memory, taken as a word: exact below 65536 pages, 0 at 65536. That zero is the one way in
which successive breaks can go down.
-/
namespace WasmCxxShim.LinearMemory
open MachineWords HaltingPrograms CallHistories

inductive Request
  | sbrk (increment : Word)
  | memoryGrow (delta : Word)
  deriving DecidableEq

/-- Increments are 0 or positive multiples of the page size. -/
def Request.Admissible : Request → Prop
  | .sbrk n => n = 0 ∨ PageIncrement n
  | .memoryGrow _ => True

def perform : Request → Env → Option Word × Env
  | .sbrk n, e => ((sbrk n e).result, (sbrk n e).state)
  | .memoryGrow delta, e => (none, foreignGrow delta e)

abbrev History := List (Call Env Request (Option Word))

/-- `sbrk` presents a monotone break. `Fits` says that a call succeeds: the maximum allows the
pages asked for. -/
structure PresentsBreak (calls : History) : Prop where
  /-- `sbrk(0)` is the address of the end of memory. -/
  current : ∀ c ∈ calls, c.request = .sbrk 0 →
    ∃ p, c.answer = some p ∧ p.toNat = c.before.memory.bytes % 2 ^ 32
  /-- A successful call returns the previous end, -/
  success : ∀ c ∈ calls, ∀ n, c.request = .sbrk n → Fits n c.before →
    ∃ p, c.answer = some p ∧ p.toNat = c.before.memory.bytes % 2 ^ 32
  /-- and `sbrk(0)` moves by the increment if nobody grows memory in between. -/
  following : ∀ xs c ys d zs n, calls = xs ++ c :: (ys ++ d :: zs) → c.request = .sbrk n →
    Fits n c.before → (∀ y ∈ ys, y.after.memory.pages = y.before.memory.pages) →
    d.request = .sbrk 0 → d.answer = c.answer.map (· + n)
  /-- Successive values of `sbrk(0)` never decrease. -/
  monotone : calls.Pairwise fun c d => c.request = .sbrk 0 → d.request = .sbrk 0 →
    ∀ p q, c.answer = some p → d.answer = some q → p ≤ q
  /-- A failing call returns -1 and leaves memory unchanged, -/
  failure : ∀ c ∈ calls, ∀ n, c.request = .sbrk n → ¬ Fits n c.before →
    c.answer = some (-1) ∧ c.after.memory = c.before.memory
  /-- and no successful call returns -1. -/
  reserved : ∀ c ∈ calls, ∀ n, c.request = .sbrk n → Fits n c.before → c.answer ≠ some (-1)

/-- No `sbrk(0)` at 65536 pages comes after one at 1 to 65535 pages. -/
def StaysBelowTop (calls : History) : Prop :=
  calls.Pairwise fun c d => c.request = .sbrk 0 → d.request = .sbrk 0 →
    d.before.memory.pages = 65536 → c.before.memory.pages = 0 ∨ c.before.memory.pages = 65536

instance (calls : History) : Decidable (StaysBelowTop calls) :=
  inferInstanceAs (Decidable (List.Pairwise _ _))

theorem breakAddr_ne_neg_one (e : Env) : breakAddr e ≠ -1 := by
  intro h
  have := congrArg BitVec.toNat h
  rw [toNat_breakAddr, Memory.bytes] at this
  have hminus : (-1 : Word).toNat = 4294967295 := by decide
  omega

theorem sbrk_success {n : Word} {e : Env} (hn : n = 0 ∨ PageIncrement n) (h : Fits n e) :
    (perform (.sbrk n) e).1 = some (breakAddr e) ∧
      (perform (.sbrk n) e).2.memory.bytes = e.memory.bytes + n.toNat := by
  rcases hn with rfl | hn
  · have hzero : perform (.sbrk 0) e = (some (breakAddr e), called 0 e) := by
      rw [perform, sbrk_zero]
      rfl
    rw [hzero]
    exact ⟨rfl, by simp⟩
  · rw [perform, sbrk_ok hn h]
    exact ⟨rfl, grown_bytes hn.2.2 h⟩

theorem sbrk_failure {n : Word} {e : Env} (hn : n = 0 ∨ PageIncrement n) (h : ¬ Fits n e) :
    (perform (.sbrk n) e).1 = some (-1) ∧ (perform (.sbrk n) e).2.memory = e.memory := by
  rcases hn with rfl | hn
  · exact absurd e.memory.pages_le h
  · rw [perform, sbrk_fail hn h]
    exact ⟨rfl, rfl⟩

/-- No request shrinks memory. -/
theorem pages_le_perform {r : Request} (hr : r.Admissible) (e : Env) :
    e.memory.pages ≤ (perform r e).2.memory.pages := by
  cases r with
  | sbrk n =>
    by_cases h : Fits n e
    · have := (sbrk_success hr h).2
      unfold Memory.bytes at this
      omega
    · rw [(sbrk_failure hr h).2]
  | memoryGrow delta =>
    by_cases h : e.memory.pages + delta.toNat ≤ e.memory.maxPages
    · rw [perform, foreignGrow_ok h]
      exact Nat.le_add_right _ _
    · rw [perform, foreignGrow_fail h]

theorem breakAddr_le_iff {e f : Env} (h : e.memory.pages ≤ f.memory.pages) :
    breakAddr e ≤ breakAddr f ↔
      (f.memory.pages = 65536 → e.memory.pages = 0 ∨ e.memory.pages = 65536) := by
  have hmax := f.memory.pages_le.trans f.memory.maxPages_le
  rw [word_le, toNat_breakAddr, toNat_breakAddr, Memory.bytes, Memory.bytes]
  omega

section Histories

variable {e : Env} {requests : List Request} (hr : ∀ r ∈ requests, r.Admissible)
include hr

theorem answer_of_success {c : Call Env Request (Option Word)} {n : Word}
    (hc : c ∈ history perform e requests) (hn : c.request = .sbrk n) (hfits : Fits n c.before) :
    c.answer = some (breakAddr c.before) ∧
      c.after.memory.bytes = c.before.memory.bytes + n.toNat := by
  obtain ⟨hmem, hans, hafter⟩ := of_mem_history hc
  have hadm := hr _ hmem
  rw [hn] at hans hafter hadm
  rw [hans, hafter]
  exact sbrk_success hadm hfits

theorem answer_of_zero {c : Call Env Request (Option Word)}
    (hc : c ∈ history perform e requests) (h : c.request = .sbrk 0) :
    c.answer = some (breakAddr c.before) :=
  (answer_of_success hr hc h c.before.memory.pages_le).1

theorem pages_climb : (history perform e requests).Pairwise fun c d =>
    c.before.memory.pages ≤ d.before.memory.pages :=
  (history_climbs (fun e => e.memory.pages) (fun r h e => pages_le_perform (hr r h) e) e).2

/-- Two breaks are in order exactly when the later one is not the zero at the top. -/
theorem monotone_iff_staysBelowTop :
    ((history perform e requests).Pairwise fun c d => c.request = .sbrk 0 → d.request = .sbrk 0 →
      ∀ p q, c.answer = some p → d.answer = some q → p ≤ q) ↔
    StaysBelowTop (history perform e requests) := by
  have hclimb := pages_climb hr (e := e)
  constructor
  · intro h
    refine (hclimb.and h).imp_of_mem ?_
    rintro c d hc hd ⟨hle, hmono⟩ h1 h2
    rw [← breakAddr_le_iff hle]
    exact hmono h1 h2 _ _ (answer_of_zero hr hc h1) (answer_of_zero hr hd h2)
  · intro h
    refine (hclimb.and h).imp_of_mem ?_
    rintro c d hc hd ⟨hle, hbelow⟩ h1 h2 p q hp hq
    rw [answer_of_zero hr hc h1, Option.some.injEq] at hp
    rw [answer_of_zero hr hd h2, Option.some.injEq] at hq
    rw [← hp, ← hq, breakAddr_le_iff hle]
    exact hbelow h1 h2

theorem presentsBreak_of_staysBelowTop (h : StaysBelowTop (history perform e requests)) :
    PresentsBreak (history perform e requests) where
  current c hc h0 := ⟨_, answer_of_zero hr hc h0, toNat_breakAddr c.before⟩
  success c hc n hn hfits :=
    ⟨_, (answer_of_success hr hc hn hfits).1, toNat_breakAddr c.before⟩
  following xs c ys d zs n hcalls hn hfits hstill h0 := by
    have hcmem : c ∈ history perform e requests := by simp [hcalls]
    have hdmem : d ∈ history perform e requests := by simp [hcalls]
    obtain ⟨hans, hafter⟩ := answer_of_success hr hcmem hn hfits
    have hd := answer_of_zero hr hdmem h0
    obtain ⟨bs, hbs⟩ := history_after_call hcalls
    have hpages := view_before_call (fun e => e.memory.pages) hbs.symm hstill
    rw [hd, hans, Option.map_some, Option.some.injEq]
    apply BitVec.eq_of_toNat_eq
    rw [toNat_breakAddr, BitVec.toNat_add, toNat_breakAddr, Memory.bytes, hpages]
    change c.after.memory.bytes % _ = _
    omega
  monotone := (monotone_iff_staysBelowTop hr).mpr h
  failure c hc n hn hfits := by
    obtain ⟨hmem, hans, hafter⟩ := of_mem_history hc
    have hadm := hr _ hmem
    rw [hn] at hans hafter hadm
    rw [hans, hafter]
    exact sbrk_failure hadm hfits
  reserved c hc n hn hfits := by
    rw [(answer_of_success hr hc hn hfits).1, ne_eq, Option.some.injEq]
    exact breakAddr_ne_neg_one c.before

end Histories

/-- The break is monotone exactly in the runs that do not ask for it at the top of the address
space after having asked for it below. -/
theorem sbrk_presentsBreak_iff (e : Env) (requests : List Request)
    (hr : ∀ r ∈ requests, r.Admissible) :
    PresentsBreak (history perform e requests) ↔ StaysBelowTop (history perform e requests) :=
  ⟨fun h => (monotone_iff_staysBelowTop hr).mp h.monotone, presentsBreak_of_staysBelowTop hr⟩

/-- Two pages of at most four. -/
def twoPages : Env :=
  { memory := ⟨2, 4, by norm_num, by norm_num⟩, sbrkCalls := [], lent := [] }

theorem sbrk_presentsBreak_iff_twoPages :
    PresentsBreak (history perform twoPages
      [.sbrk 0, .sbrk 65536#32, .memoryGrow 1#32, .sbrk 131072#32, .sbrk 0]) :=
  (sbrk_presentsBreak_iff twoPages _ (by simp [Request.Admissible, PageIncrement])).mpr
    (by decide +kernel)

/-- One page below the top of the address space. -/
def lastPage : Env :=
  { memory := ⟨65535, 65536, by norm_num, le_rfl⟩, sbrkCalls := [], lent := [] }

/-- The break falls from 4294901760 to 0 when the last page is taken. -/
theorem sbrk_break_decreases :
    (history perform lastPage [.sbrk 0, .sbrk 65536#32, .sbrk 0]).map (·.answer) =
        [some 4294901760#32, some 4294901760#32, some 0#32] ∧
      ¬ PresentsBreak (history perform lastPage [.sbrk 0, .sbrk 65536#32, .sbrk 0]) := by
  refine ⟨by decide +kernel, fun h => ?_⟩
  have hbelow := (monotone_iff_staysBelowTop (by simp [Request.Admissible, PageIncrement])).mp
    h.monotone
  revert hbelow
  decide +kernel

end WasmCxxShim.LinearMemory
