import WasmCxxShim.SharedCount

/-!
# Lifetime correctness of the control block

The invariant ties both biased counters to the handles that are held and to the weak owner that
the strong owners hold together, which outlives the last of them until `__on_zero_shared` has
returned. It is kept by every call, also by those made from inside that callback.
-/
namespace WasmCxxShim.SharedCount
open MachineWords GuardedRuns World

/-- The weak owner of all strong owners, kept while the object is under destruction. -/
def implicitWeak (strong destroying : ℕ) : ℕ := if 0 < strong ∨ 0 < destroying then 1 else 0

structure Inv (w : World) : Prop where
  sharedOwners : w.block.sharedOwners = biased w.strong
  weakOwners : w.block.weakOwners = biased (w.weak + implicitWeak w.strong w.destroying)
  strong_lt : w.strong < 2 ^ 31
  weak_lt : w.weak < 2 ^ 31
  destroying : w.destroying = 0 ∨ w.destroying = 1 ∧ w.strong = 0
  destroyed : w.destroyed = if w.strong = 0 then 1 else 0
  freed : w.freed = if w.strong = 0 ∧ w.weak = 0 ∧ w.destroying = 0 then 1 else 0
  alive : w.usedAfterFree = false

theorem Inv.fresh : Inv World.fresh :=
  ⟨rfl, rfl, by decide, by decide, Or.inl rfl, rfl, rfl, rfl⟩

/-- A call that reaches the block through a handle or the object finds it alive. -/
theorem Inv.touch {w : World} (h : Inv w)
    (hreach : 0 < w.strong ∨ 0 < w.weak ∨ 0 < w.destroying) : w.touch = w := by
  have hfreed : w.freed = 0 := by
    rw [h.freed, if_neg (by omega)]
  have halive : (w.usedAfterFree || decide (0 < w.freed)) = w.usedAfterFree := by simp [hfreed]
  rw [World.touch, halive]

theorem Enabled.reach {w : World} {a : Action} (he : w.Enabled a) :
    0 < w.strong ∨ 0 < w.weak ∨ 0 < w.destroying := by
  cases a <;> simp only [World.Enabled] at he <;> omega

theorem implicitWeak_eq_one {strong destroying : ℕ} (h : 0 < strong ∨ 0 < destroying) :
    implicitWeak strong destroying = 1 := if_pos h

namespace Inv

variable {w : World}

theorem copyStrong (h : Inv w) (he : w.Enabled .copyStrong) : Inv (w.next .copyStrong) := by
  obtain ⟨hpos, hlt⟩ := he
  have hweak := h.weakOwners
  rw [implicitWeak_eq_one (Or.inl hpos)] at hweak
  simp only [World.next, h.touch (Or.inl hpos), Block.addShared, h.sharedOwners, biased_add_one]
  refine ⟨rfl, ?_, hlt, h.weak_lt, ?_, ?_, ?_, h.alive⟩
  · rw [implicitWeak_eq_one (Or.inl (Nat.succ_pos _))]
    exact hweak
  · exact h.destroying.imp_right fun hd => absurd hd.2 hpos.ne'
  · rw [h.destroyed, if_neg hpos.ne', if_neg (Nat.succ_ne_zero _)]
  · rw [h.freed, if_neg fun hz => hpos.ne' hz.1, if_neg fun hz => Nat.succ_ne_zero _ hz.1]

theorem copyWeak (h : Inv w) (he : w.Enabled .copyWeak) : Inv (w.next .copyWeak) := by
  obtain ⟨hreach, hlt⟩ := he
  simp only [World.next, h.touch hreach, Block.addWeak, h.weakOwners, biased_add_one]
  refine ⟨h.sharedOwners, ?_, h.strong_lt, hlt, h.destroying, h.destroyed, ?_, h.alive⟩
  · dsimp only
    rw [Nat.add_right_comm]
  · dsimp only
    rw [h.freed, if_neg (by omega), if_neg (by omega)]

theorem lock (h : Inv w) (he : w.Enabled .lock) : Inv (w.next .lock) := by
  obtain ⟨hreach, hlt⟩ := he
  have hlock := Block.lock_eq h.sharedOwners (by have := h.strong_lt; omega)
  by_cases hpos : 0 < w.strong
  · -- a strong owner exists: the block changes as in a copy
    have hsame : w.next .lock = w.next .copyStrong := by
      simp [World.next, h.touch hreach, hlock, hpos, Block.addShared, h.sharedOwners,
        ← biased_add_one]
    rw [hsame]
    exact h.copyStrong ⟨hpos, hlt⟩
  · -- no strong owner is left: the block is returned as it was
    have hzero : w.strong = 0 := by omega
    have hblock : (⟨biased 0, w.block.weakOwners⟩ : Block) = w.block :=
      Block.ext (by rw [h.sharedOwners, hzero]) rfl
    have hsame : w.next .lock = w := by
      simp [World.next, h.touch hreach, hlock, hpos, hblock]
    rwa [hsame]

theorem releaseStrong (h : Inv w) (he : w.Enabled .releaseStrong) :
    Inv (w.next .releaseStrong) := by
  have hpos : 0 < w.strong := he
  have hlt := h.strong_lt
  have hrelease := Block.releaseShared_eq h.sharedOwners hpos (by omega)
  have hweak := h.weakOwners
  have hdestroying : w.destroying = 0 := by have := h.destroying; omega
  have hdestroyed : w.destroyed = 0 := by rw [h.destroyed, if_neg hpos.ne']
  have hfreed : w.freed = 0 := by rw [h.freed, if_neg fun hz => hpos.ne' hz.1]
  rw [implicitWeak_eq_one (Or.inl hpos)] at hweak
  simp only [World.next, h.touch (Or.inl hpos), hrelease, hdestroying, hdestroyed, hfreed]
  by_cases hlast : w.strong = 1
  · -- the last strong owner: `__on_zero_shared` is called and keeps the common weak owner
    simp only [hlast, decide_true, Bool.toNat_true]
    exact ⟨rfl, hweak, by norm_num, h.weak_lt, Or.inr ⟨rfl, rfl⟩, rfl, by simp, h.alive⟩
  · have hrest : 0 < w.strong - 1 := by omega
    simp only [hlast, decide_false, Bool.toNat_false]
    refine ⟨rfl, ?_, ?_, h.weak_lt, Or.inl rfl, ?_, ?_, h.alive⟩
    · rw [implicitWeak_eq_one (Or.inl hrest)]
      exact hweak
    · dsimp only
      omega
    · rw [if_neg hrest.ne']
    · rw [if_neg fun hz => hrest.ne' hz.1]

theorem releaseWeak (h : Inv w) (he : w.Enabled .releaseWeak) : Inv (w.next .releaseWeak) := by
  have hpos : 0 < w.weak := he
  have hlt := h.weak_lt
  have hreach : 0 < w.strong ∨ 0 < w.weak ∨ 0 < w.destroying := Or.inr (Or.inl hpos)
  have himplicit : implicitWeak w.strong w.destroying ≤ 1 := by
    unfold implicitWeak
    split_ifs <;> omega
  have hlast : w.weak + implicitWeak w.strong w.destroying = 1 ↔
      w.strong = 0 ∧ w.weak - 1 = 0 ∧ w.destroying = 0 := by
    unfold implicitWeak
    split_ifs <;> omega
  have hrelease := Block.releaseWeak_eq h.weakOwners (by omega) (by omega)
  have hfreed : w.freed = 0 := by rw [h.freed, if_neg fun hz => hpos.ne' hz.2.1]
  simp only [World.next, World.releaseWeakOwner, h.touch hreach, hrelease, hfreed, hlast]
  refine ⟨h.sharedOwners, ?_, h.strong_lt, ?_, h.destroying, h.destroyed, ?_, h.alive⟩
  · dsimp only
    congr 1
    omega
  · dsimp only
    omega
  · dsimp only
    split_ifs with hzero <;> simp [hzero]

theorem callbackReturns (h : Inv w) (he : w.Enabled .callbackReturns) :
    Inv (w.next .callbackReturns) := by
  have hpos : 0 < w.destroying := he
  obtain ⟨hone, hzero⟩ : w.destroying = 1 ∧ w.strong = 0 := by have := h.destroying; omega
  have hlt := h.weak_lt
  have hweak := h.weakOwners
  have hfreed : w.freed = 0 := by rw [h.freed, if_neg fun hz => hpos.ne' hz.2.2]
  rw [implicitWeak_eq_one (Or.inr hpos)] at hweak
  have hrelease := Block.releaseWeak_eq hweak (Nat.succ_pos _) (by omega)
  simp only [World.next, World.releaseWeakOwner, h.touch (Or.inr (Or.inr hpos)), hrelease, hfreed,
    hone]
  refine ⟨h.sharedOwners, ?_, h.strong_lt, h.weak_lt, Or.inl rfl, h.destroyed, ?_, h.alive⟩
  · simp [hzero, implicitWeak]
  · by_cases hw : w.weak = 0 <;> simp [hw, hzero]

/-- Every enabled call keeps the invariant. -/
theorem next (h : Inv w) {a : Action} (he : w.Enabled a) : Inv (w.next a) := by
  cases a with
  | copyStrong => exact h.copyStrong he
  | releaseStrong => exact h.releaseStrong he
  | copyWeak => exact h.copyWeak he
  | releaseWeak => exact h.releaseWeak he
  | lock => exact h.lock he
  | callbackReturns => exact h.callbackReturns he

end Inv

/-- What holds after the calls made so far: the object is destroyed once the last strong handle
is gone, the block is freed once no handle is left and the destruction is over, nothing touched
it after that, and the use count is the number of strong handles. -/
structure Lifetime (w : World) : Prop where
  onZeroShared : w.destroyed = if w.strong = 0 then 1 else 0
  onZeroSharedWeak : w.freed = if w.strong = 0 ∧ w.weak = 0 ∧ w.destroying = 0 then 1 else 0
  untouched : w.usedAfterFree = false
  useCount : w.block.sharedOwners.toInt + 1 = w.strong

/-- What one call does: the release of the last strong handle, and no other call, destroys the
object; the call that leaves no handle and no destruction frees the block; `lock` succeeds
exactly while a strong handle exists and then adds one strong owner. -/
structure CallCorrect (w : World) (a : Action) : Prop where
  onZeroShared : (w.next a).destroyed =
    w.destroyed + if a = .releaseStrong ∧ w.strong = 1 then 1 else 0
  onZeroSharedWeak : (w.next a).freed = w.freed +
    if (w.next a).strong = 0 ∧ (w.next a).weak = 0 ∧ (w.next a).destroying = 0 then 1 else 0
  lock : a = .lock → (w.block.lock.2 = true ↔ 0 < w.strong) ∧
    (w.next a).strong = w.strong + (if 0 < w.strong then 1 else 0) ∧
    (w.next a).block.sharedOwners.toInt =
      w.block.sharedOwners.toInt + (if 0 < w.strong then 1 else 0) ∧
    (w.next a).block.weakOwners = w.block.weakOwners

theorem Inv.lifetime {w : World} (h : Inv w) : Lifetime w where
  onZeroShared := h.destroyed
  onZeroSharedWeak := h.freed
  untouched := h.alive
  useCount := by
    rw [h.sharedOwners, biased_toInt h.strong_lt]
    ring

theorem Inv.lock_result {w : World} (h : Inv w) : w.block.lock.2 = decide (0 < w.strong) := by
  rw [Block.lock_eq h.sharedOwners (by have := h.strong_lt; omega)]

/-- The strong handles after a call. -/
theorem Inv.next_strong {w : World} (h : Inv w) (a : Action) :
    (w.next a).strong = match a with
      | .copyStrong => w.strong + 1
      | .releaseStrong => w.strong - 1
      | .lock => if 0 < w.strong then w.strong + 1 else w.strong
      | _ => w.strong := by
  cases a with
  | lock =>
    have hlock : (w.next .lock).strong = w.strong + w.block.lock.2.toNat := rfl
    rw [hlock, h.lock_result]
    by_cases hpos : 0 < w.strong <;> simp [hpos]
  | _ => rfl

theorem Inv.callCorrect {w : World} (h : Inv w) {a : Action} (he : w.Enabled a) :
    CallCorrect w a := by
  have hnext := h.next he
  have hstrong := h.next_strong a
  refine ⟨?_, ?_, ?_⟩
  · rw [hnext.destroyed, h.destroyed, hstrong]
    cases a with
    | releaseStrong =>
      have hpos : 0 < w.strong := he
      by_cases hone : w.strong = 1
      · simp [hone]
      · simp only [hone, and_false, ↓reduceIte]
        rw [if_neg (by omega), if_neg (by omega)]
    | copyStrong =>
      have hpos : 0 < w.strong := he.1
      simp [hpos.ne']
    | lock => cases hs : w.strong <;> simp
    | copyWeak => simp
    | releaseWeak => simp
    | callbackReturns => simp
  · have hreach := Enabled.reach he
    rw [hnext.freed, h.freed, if_neg (c := w.strong = 0 ∧ _) (by omega), Nat.zero_add]
  · rintro rfl
    have hweak : (w.next .lock).block.weakOwners = w.block.lock.1.weakOwners := by
      simp [World.next, World.touch]
    refine ⟨by rw [h.lock_result, decide_eq_true_iff], ?_, ?_, ?_⟩
    · rw [hstrong]
      split_ifs <;> rfl
    · have hbefore := h.lifetime.useCount
      have hafter := hnext.lifetime.useCount
      rw [hstrong] at hafter
      split_ifs at hafter ⊢ <;> push_cast at hafter <;> omega
    · rw [hweak, Block.lock_eq h.sharedOwners (by have := h.strong_lt; omega)]

/-- Every legal run of calls keeps the lifetime contract: it holds after the run, and of every
call that can be made next. -/
theorem lifetime_correct (as : List Action) (hlegal : Legal World.Enabled World.next World.fresh as) :
    Lifetime (as.foldl World.next World.fresh) ∧
      ∀ a, (as.foldl World.next World.fresh).Enabled a →
        CallCorrect (as.foldl World.next World.fresh) a := by
  have hinv : Inv (as.foldl World.next World.fresh) :=
    hlegal.invariant Inv (fun _ _ h he => Inv.next h he) Inv.fresh
  exact ⟨hinv.lifetime, fun a => hinv.callCorrect⟩

/-- A weak and a second strong handle are taken; when both strong handles are gone the destructor
tries `lock` and releases the weak handle. -/
def selfReferencing : List Action :=
  [.copyWeak, .copyStrong, .releaseStrong, .releaseStrong, .lock, .releaseWeak, .callbackReturns]

theorem lifetime_correct_selfReferencing :
    (selfReferencing.foldl World.next World.fresh).freed = 1 ∧
      Lifetime (selfReferencing.foldl World.next World.fresh) ∧
      ∀ a, (selfReferencing.foldl World.next World.fresh).Enabled a →
        CallCorrect (selfReferencing.foldl World.next World.fresh) a :=
  ⟨by decide, lifetime_correct selfReferencing (by decide)⟩

end WasmCxxShim.SharedCount
