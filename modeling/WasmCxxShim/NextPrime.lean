import WasmCxxShim.LoopRules
import WasmCxxShim.MachineWords

/-!
# `std::__1::__next_prime`

The two loops are kept as they stand in the source, over words: the divisor loop squares `i` in
wrapping arithmetic, and the candidate loop traps only when the candidate wraps to exactly 0.
The divisor loop still decides primality of every odd candidate but one, the largest prime
below 2^32, and that one exception decides where the function meets its contract.
-/
namespace WasmCxxShim.NextPrime
open LoopRules MachineWords

/-- How a call ends. -/
inductive Answer
  | value (p : Word)
  | trap
  deriving DecidableEq, Repr

/-- One pass of `for (size_t i = 3; i * i <= n; i += 2)`; the result is the flag `prime`. -/
def divisorPass (n i : Word) : Option (Pass Word Bool) :=
  if i * i ≤ n then
    if n % i = 0 then some (.leave false) else some (.again (i + 2))
  else some (.leave true)

def divisorLoop (fuel : ℕ) (n : Word) : Option Bool := iterate (divisorPass n) fuel 3

/-- One pass of `while (true)` over the candidate `n`. -/
def candidatePass (fuel : ℕ) (n : Word) : Option (Pass Word Answer) :=
  match divisorLoop fuel n with
  | none => none
  | some true => some (.leave (.value n))
  | some false => if n + 2 = 0 then some (.leave .trap) else some (.again (n + 2))

/-- `__next_prime(n)`, running each loop for at most `fuel` passes. -/
def nextPrime (n : Word) (fuel : ℕ) : Option Answer :=
  if n ≤ 2 then some (.value 2)
  else iterate (candidatePass fuel) fuel (if n % 2 = 0 then n + 1 else n)

/-- The representable primes a call may return. -/
def primesFrom (n : Word) : Set ℕ := {p | p.Prime ∧ n.toNat ≤ p ∧ p < 2 ^ 32}

/-- The contract: return the least representable prime that is not below the argument, and trap
when there is none. -/
def Contract (n : Word) : Prop :=
  (∀ p, IsLeast (primesFrom n) p → Returns (nextPrime n) (.value (BitVec.ofNat 32 p))) ∧
    (primesFrom n = ∅ → Returns (nextPrime n) .trap)

theorem toNat_square_of_small {i : Word} (hi : i.toNat ≤ 65535) :
    (i * i).toNat = i.toNat * i.toNat := by
  rw [BitVec.toNat_mul]
  apply Nat.mod_eq_of_lt
  have := Nat.mul_le_mul hi hi
  omega

theorem rem_eq_zero_iff {n i : Word} : n % i = 0 ↔ i.toNat ∣ n.toNat := by
  rw [Nat.dvd_iff_mod_eq_zero, ← BitVec.toNat_umod]
  exact ⟨fun h => by rw [h]; rfl, fun h => BitVec.eq_of_toNat_eq h⟩

theorem divisorPass_of_dvd {n i : Word} (hcond : i * i ≤ n) (hdiv : i.toNat ∣ n.toNat) :
    divisorPass n i = some (.leave false) := by
  simp only [divisorPass, hcond, rem_eq_zero_iff.mpr hdiv, ↓reduceIte]

theorem divisorPass_of_not_dvd {n i : Word} (hcond : i * i ≤ n) (hdiv : ¬ i.toNat ∣ n.toNat) :
    divisorPass n i = some (.again (i + 2)) := by
  simp only [divisorPass, hcond, mt rem_eq_zero_iff.mp hdiv, ↓reduceIte]

/-- An odd square is 1 modulo 8, also after wrapping, so it never exceeds 2^32 - 7. -/
theorem toNat_odd_square_le {i : Word} (hi : i.toNat % 2 = 1) :
    (i * i).toNat ≤ 4294967289 := by
  have hmod : i.toNat * i.toNat % 8 = 1 := by
    rw [Nat.mul_mod]
    have h8 : i.toNat % 8 = 1 ∨ i.toNat % 8 = 3 ∨ i.toNat % 8 = 5 ∨ i.toNat % 8 = 7 := by omega
    rcases h8 with h | h | h | h <;> rw [h]
  rw [BitVec.toNat_mul]
  omega

/-- The divisor `i` is still to be tried and none of the odd numbers before it stopped the loop. -/
def Trying (stop : ℕ) (i : Word) : Prop := i.toNat % 2 = 1 ∧ 3 ≤ i.toNat ∧ i.toNat ≤ stop

theorem trying_next {stop : ℕ} {i : Word} (hstop : stop < 2 ^ 32) (hodd : stop % 2 = 1)
    (h : Trying stop i) (hne : i.toNat ≠ stop) :
    Trying stop (i + 2) ∧ stop - (i + 2).toNat < stop - i.toNat := by
  obtain ⟨h2, h3, hle⟩ := h
  have hadd : (i + 2).toNat = i.toNat + 2 := by bv_omega
  refine ⟨⟨?_, ?_, ?_⟩, ?_⟩ <;> omega

/-- If every pass before `stop` goes on and the pass at `stop` ends with `flag`, so does the
loop. -/
theorem divisorLoop_stop {n : Word} (stop : ℕ) {flag : Bool} (hstop : stop < 2 ^ 32)
    (hodd : stop % 2 = 1) (h3 : 3 ≤ stop)
    (pass : ∀ i, Trying stop i → divisorPass n i = some (.leave flag) ∨
      i.toNat ≠ stop ∧ divisorPass n i = some (.again (i + 2)))
    {fuel : ℕ} (hfuel : 2 ^ 32 ≤ fuel) : divisorLoop fuel n = some flag := by
  obtain ⟨r, hr, hrun⟩ := iterate_variant (divisorPass n) (Trying stop)
    (fun i => stop - i.toNat) (· = flag)
    (fun i hi => by
      rcases pass i hi with h | ⟨hne, h⟩
      · exact Or.inl ⟨flag, h, rfl⟩
      · obtain ⟨hnext, hlt⟩ := trying_next hstop hodd hi hne
        exact Or.inr ⟨i + 2, h, hnext, hlt⟩)
    (s := 3) ⟨by decide, by decide, h3⟩
  subst hr
  exact hrun fuel (by omega)

/-- A composite candidate is stopped by its least prime factor, whose square does not wrap. -/
theorem divisorLoop_composite {n : Word} (hodd : n.toNat % 2 = 1) (h3 : 3 ≤ n.toNat)
    (hn : ¬ n.toNat.Prime) {fuel : ℕ} (hfuel : 2 ^ 32 ≤ fuel) :
    divisorLoop fuel n = some false := by
  have hlt := n.isLt
  have hq : n.toNat.minFac.Prime := Nat.minFac_prime (by omega)
  have hdvd := Nat.minFac_dvd n.toNat
  have hsq := Nat.minFac_sq_le_self (by omega) hn
  have hq2 := hq.two_le
  have hqodd : n.toNat.minFac % 2 = 1 := by
    rcases hq.eq_two_or_odd with h | h
    · rw [h] at hdvd
      omega
    · exact h
  have hsmall : n.toNat.minFac ≤ 65535 := by
    by_contra hbig
    have : 65536 * 65536 ≤ n.toNat.minFac ^ 2 := by
      rw [pow_two]
      exact Nat.mul_le_mul (by omega) (by omega)
    omega
  apply divisorLoop_stop n.toNat.minFac (by omega) hqodd (by omega) _ hfuel
  rintro i ⟨hiodd, hi3, hiq⟩
  have hcond : i * i ≤ n := by
    rw [word_le, toNat_square_of_small (by omega)]
    have := Nat.mul_le_mul hiq hiq
    rw [← pow_two n.toNat.minFac] at this
    omega
  by_cases hdiv : i.toNat ∣ n.toNat
  · exact Or.inl (divisorPass_of_dvd hcond hdiv)
  · exact Or.inr ⟨fun heq => hdiv (heq ▸ hdvd), divisorPass_of_not_dvd hcond hdiv⟩

/-- A prime candidate is accepted as soon as some odd `stop ≤ n` has a wrapped square above it. -/
theorem divisorLoop_prime {n stop : Word} (hn : n.toNat.Prime) (hodd : stop.toNat % 2 = 1)
    (h3 : 3 ≤ stop.toNat) (hle : stop.toNat ≤ n.toNat) (hsquare : n < stop * stop)
    {fuel : ℕ} (hfuel : 2 ^ 32 ≤ fuel) : divisorLoop fuel n = some true := by
  apply divisorLoop_stop stop.toNat stop.isLt hodd h3 _ hfuel
  rintro i ⟨hiodd, hi3, histop⟩
  by_cases hcond : i * i ≤ n
  · have hne : i.toNat ≠ stop.toNat := by
      intro heq
      rw [BitVec.eq_of_toNat_eq heq] at hcond
      rw [word_le] at hcond
      rw [word_lt] at hsquare
      omega
    have hdiv : ¬ i.toNat ∣ n.toNat := by
      intro hdvd
      rcases (Nat.dvd_prime hn).mp hdvd with h | h <;> omega
    exact Or.inr ⟨hne, divisorPass_of_not_dvd hcond hdiv⟩
  · left
    simp only [divisorPass, hcond, ↓reduceIte]

/-- Such a `stop` exists for every odd prime below 2^32 - 7: the candidate itself while its
square does not wrap, then 65535, then a square root of -7 modulo 2^32. -/
theorem exists_stop {n : Word} (hodd : n.toNat % 2 = 1) (h3 : 3 ≤ n.toNat)
    (hn : n.toNat < 4294967289) :
    ∃ stop : Word, stop.toNat % 2 = 1 ∧ 3 ≤ stop.toNat ∧ stop.toNat ≤ n.toNat ∧
      n < stop * stop := by
  rcases Nat.lt_or_ge n.toNat 65535 with hsmall | hbig
  · refine ⟨n, hodd, h3, le_rfl, ?_⟩
    rw [word_lt, toNat_square_of_small (by omega)]
    nlinarith
  · rcases Nat.lt_or_ge n.toNat 4294836225 with hmid | hhigh
    · refine ⟨65535#32, by decide, by decide, hbig, ?_⟩
      rw [word_lt]
      exact hmid
    · refine ⟨479772853#32, by decide, by decide, by simp only [BitVec.toNat_ofNat]; omega, ?_⟩
      rw [word_lt]
      exact hn

/-- The verdict of the divisor loop on odd candidates. -/
theorem divisorLoop_verdict {n : Word} (hodd : n.toNat % 2 = 1) (h3 : 3 ≤ n.toNat)
    (hn : n.toNat ≠ 4294967291) {fuel : ℕ} (hfuel : 2 ^ 32 ≤ fuel) :
    divisorLoop fuel n = some (decide n.toNat.Prime) := by
  by_cases hp : n.toNat.Prime
  · have hlow : n.toNat < 4294967289 := by
      by_contra hge
      have hlt := n.isLt
      have hcases : n.toNat = 4294967289 ∨ n.toNat = 4294967293 ∨ n.toNat = 4294967295 := by
        omega
      rcases hcases with h | h | h <;> rw [h] at hp <;> norm_num at hp
    obtain ⟨stop, h1, h2, h3, h4⟩ := exists_stop hodd h3 hlow
    rw [divisorLoop_prime hp h1 h2 h3 h4 hfuel, decide_eq_true hp]
  · rw [divisorLoop_composite hodd h3 hp hfuel, decide_eq_false hp]

/-- The exception: every wrapped odd square stays below 4294967291, so the loop goes on until
`i` reaches the candidate itself, which it then reports as a divisor. -/
theorem divisorLoop_exception {fuel : ℕ} (hfuel : 2 ^ 32 ≤ fuel) :
    divisorLoop fuel 4294967291#32 = some false := by
  apply divisorLoop_stop 4294967291 (by norm_num) (by norm_num) (by norm_num) _ hfuel
  rintro i ⟨hiodd, hi3, hile⟩
  have hcond : i * i ≤ 4294967291#32 := by
    have := toNat_odd_square_le hiodd
    rw [word_le, BitVec.toNat_ofNat]
    omega
  by_cases hdiv : i.toNat ∣ (4294967291#32 : Word).toNat
  · exact Or.inl (divisorPass_of_dvd hcond hdiv)
  · exact Or.inr ⟨fun heq => hdiv ⟨1, by rw [heq]; rfl⟩, divisorPass_of_not_dvd hcond hdiv⟩

end WasmCxxShim.NextPrime
