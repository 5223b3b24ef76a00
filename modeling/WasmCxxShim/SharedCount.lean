import WasmCxxShim.GuardedRuns
import WasmCxxShim.MachineWords

/-!
# The control block of `shared_ptr`

The block counts owners biased by one: 0 is one owner and -1 is none. All strong owners together
hold one weak owner, which is released after the object is destroyed. `lock` and
`__release_weak` are the repository's; the other members are those of the library headers. A
world is the block with the handles that the program holds and a record of the calls made on
the object and the block. Between a call of `__on_zero_shared` and its return the program may
make any further calls.
-/
namespace WasmCxxShim.SharedCount
open MachineWords GuardedRuns

/-- `__shared_owners_` and `__shared_weak_owners_` -/
@[ext] structure Block where
  sharedOwners : Word
  weakOwners : Word
  deriving DecidableEq

namespace Block

def fresh : Block := ⟨0, 0⟩

/-- `__add_shared` -/
def addShared (b : Block) : Block := { b with sharedOwners := b.sharedOwners + 1 }

/-- `__add_weak` -/
def addWeak (b : Block) : Block := { b with weakOwners := b.weakOwners + 1 }

/-- `__release_shared` up to the call of `__on_zero_shared`, and whether it makes that call. -/
def releaseShared (b : Block) : Block × Bool :=
  let b := { b with sharedOwners := b.sharedOwners - 1 }
  (b, b.sharedOwners = -1)

/-- `__release_weak`, and whether it calls `__on_zero_shared_weak`. -/
def releaseWeak (b : Block) : Block × Bool :=
  let b := { b with weakOwners := b.weakOwners - 1 }
  (b, b.weakOwners = -1)

/-- `lock`, and whether it returns `this`. The loop returns in its first pass. -/
def lock (b : Block) : Block × Bool :=
  if b.sharedOwners ≠ -1 then ({ b with sharedOwners := b.sharedOwners + 1 }, true)
  else (b, false)

end Block

/-- The calls a program can make; `callbackReturns` is the return of `__on_zero_shared`, after
which `__release_shared` goes on to `__release_weak`. -/
inductive Action
  | copyStrong
  | releaseStrong
  | copyWeak
  | releaseWeak
  | lock
  | callbackReturns
  deriving DecidableEq, Repr

/-- `strong` and `weak` are the handles held, `destroying` the calls of `__on_zero_shared` that
have not returned, `destroyed` and `freed` the calls of `__on_zero_shared` and of
`__on_zero_shared_weak` so far. -/
structure World where
  block : Block
  strong : ℕ
  weak : ℕ
  destroying : ℕ
  destroyed : ℕ
  freed : ℕ
  usedAfterFree : Bool
  deriving DecidableEq

namespace World

def fresh : World := ⟨Block.fresh, 1, 0, 0, 0, 0, false⟩

/-- A call gives up or copies a handle that is held, and needs some handle, or the object under
destruction, to reach the block; the counts stay below 2^31. -/
def Enabled (w : World) : Action → Prop
  | .copyStrong => 0 < w.strong ∧ w.strong + 1 < 2 ^ 31
  | .releaseStrong => 0 < w.strong
  | .copyWeak => (0 < w.strong ∨ 0 < w.weak ∨ 0 < w.destroying) ∧ w.weak + 1 < 2 ^ 31
  | .releaseWeak => 0 < w.weak
  | .lock => (0 < w.strong ∨ 0 < w.weak ∨ 0 < w.destroying) ∧ w.strong + 1 < 2 ^ 31
  | .callbackReturns => 0 < w.destroying

instance (w : World) (a : Action) : Decidable (w.Enabled a) := by
  cases a <;> unfold Enabled <;> infer_instance

/-- Every call on the block reads or writes it. -/
def touch (w : World) : World := { w with usedAfterFree := w.usedAfterFree || 0 < w.freed }

def releaseWeakOwner (w : World) : World :=
  { w with
    block := w.block.releaseWeak.1
    freed := w.freed + w.block.releaseWeak.2.toNat }

def next (w : World) (a : Action) : World :=
  let w := w.touch
  match a with
  | .copyStrong => { w with block := w.block.addShared, strong := w.strong + 1 }
  | .releaseStrong =>
    { w with
      block := w.block.releaseShared.1
      strong := w.strong - 1
      destroying := w.destroying + w.block.releaseShared.2.toNat
      destroyed := w.destroyed + w.block.releaseShared.2.toNat }
  | .copyWeak => { w with block := w.block.addWeak, weak := w.weak + 1 }
  | .releaseWeak => { w.releaseWeakOwner with weak := w.weak - 1 }
  | .lock => { w with block := w.block.lock.1, strong := w.strong + w.block.lock.2.toNat }
  | .callbackReturns => { w.releaseWeakOwner with destroying := w.destroying - 1 }

end World

/-- The biased counter of `n` owners. -/
def biased (n : ℕ) : Word := BitVec.ofNat 32 n - 1

theorem biased_add_one (n : ℕ) : biased n + 1 = biased (n + 1) := by
  simp [biased, BitVec.ofNat_add]

theorem biased_sub_one {n : ℕ} (h : 0 < n) : biased n - 1 = biased (n - 1) := by
  obtain ⟨m, rfl⟩ := Nat.exists_eq_succ_of_ne_zero h.ne'
  simp [← biased_add_one]

theorem biased_eq_neg_one {n : ℕ} (h : n < 2 ^ 32) : biased n = -1 ↔ n = 0 := by
  constructor
  · intro heq
    have hzero : BitVec.ofNat 32 n = 0 := by
      have := congrArg (· + 1) heq
      simpa [biased] using this
    have := congrArg BitVec.toNat hzero
    rwa [toNat_ofNat_of_lt h] at this
  · rintro rfl
    rfl

theorem biased_succ (n : ℕ) : biased (n + 1) = BitVec.ofNat 32 n := by
  rw [← biased_add_one, biased, BitVec.sub_add_cancel]

theorem biased_toInt {n : ℕ} (h : n < 2 ^ 31) : (biased n).toInt = n - 1 := by
  cases n with
  | zero => rfl
  | succ n =>
    rw [biased_succ, toInt_ofNat_of_lt (by omega)]
    push_cast
    ring

namespace Block

theorem releaseShared_eq {b : Block} {n : ℕ} (hb : b.sharedOwners = biased n) (hn : 0 < n)
    (hlt : n < 2 ^ 32) :
    b.releaseShared = (⟨biased (n - 1), b.weakOwners⟩, decide (n = 1)) := by
  have hzero : n - 1 = 0 ↔ n = 1 := by omega
  simp only [releaseShared, hb, biased_sub_one hn]
  rw [decide_eq_decide.mpr ((biased_eq_neg_one (by omega)).trans hzero)]

theorem releaseWeak_eq {b : Block} {n : ℕ} (hb : b.weakOwners = biased n) (hn : 0 < n)
    (hlt : n < 2 ^ 32) :
    b.releaseWeak = (⟨b.sharedOwners, biased (n - 1)⟩, decide (n = 1)) := by
  have hzero : n - 1 = 0 ↔ n = 1 := by omega
  simp only [releaseWeak, hb, biased_sub_one hn]
  rw [decide_eq_decide.mpr ((biased_eq_neg_one (by omega)).trans hzero)]

theorem lock_eq {b : Block} {n : ℕ} (hb : b.sharedOwners = biased n) (hlt : n < 2 ^ 32) :
    b.lock = (⟨biased (if 0 < n then n + 1 else 0), b.weakOwners⟩, decide (0 < n)) := by
  have hzero := biased_eq_neg_one hlt
  unfold lock
  rw [hb]
  by_cases hn : n = 0
  · rw [if_neg (not_not.mpr (hzero.mpr hn)), if_neg (by omega), decide_eq_false (by omega), ← hn,
      ← hb]
  · rw [if_pos (mt hzero.mp hn), if_pos (by omega), decide_eq_true (by omega), biased_add_one]

end Block

end WasmCxxShim.SharedCount
