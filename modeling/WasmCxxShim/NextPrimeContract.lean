import WasmCxxShim.NextPrime

/-!
# Where `__next_prime` meets its contract

Up to 4294967279, the second largest prime below 2^32, the search ends at the least prime that
is not below the argument. Past it the search steps over the largest prime 4294967291, and an
odd candidate wraps to 1, never to the 0 that the overflow test looks for.
-/
namespace WasmCxxShim.NextPrime
open LoopRules MachineWords

set_option maxRecDepth 100000 in
theorem prime_4294967279 : Nat.Prime 4294967279 := by norm_num

/-- The first candidate is the argument made odd. -/
theorem toNat_firstCandidate {n : Word} (h : n.toNat < 4294967295) :
    (if n % 2 = 0 then n + 1 else n).toNat = n.toNat + (1 - n.toNat % 2) := by
  have hparity : n % 2 = 0 ↔ n.toNat % 2 = 0 := by
    rw [rem_eq_zero_iff, Nat.dvd_iff_mod_eq_zero]
    rfl
  split_ifs with heven
  · have := hparity.mp heven
    bv_omega
  · have := mt hparity.mpr heven
    omega

theorem nextPrime_of_le_two {n : Word} (h : n ≤ 2) (fuel : ℕ) :
    nextPrime n fuel = some (.value 2) := by
  simp only [nextPrime, h, ↓reduceIte]

/-- A search that leaves with the same answer for every large enough fuel returns it. -/
theorem returns_search {n : Word} {answer : Answer} (h : ¬ n ≤ 2)
    (search : ∀ fuel, 2 ^ 32 < fuel →
      iterate (candidatePass fuel) fuel (if n % 2 = 0 then n + 1 else n) = some answer) :
    Returns (nextPrime n) answer := by
  refine returns_of_forall_ge (2 ^ 32 + 1) fun fuel hfuel => ?_
  rw [nextPrime, if_neg h]
  exact search fuel hfuel

theorem candidatePass_prime {n : Word} {fuel : ℕ} (h : divisorLoop fuel n = some true) :
    candidatePass fuel n = some (.leave (.value n)) := by
  simp only [candidatePass, h]

theorem candidatePass_composite {n : Word} {fuel : ℕ} (h : divisorLoop fuel n = some false)
    (hn : n + 2 ≠ 0) : candidatePass fuel n = some (.again (n + 2)) := by
  simp only [candidatePass, h, hn, ↓reduceIte]

/-- Below 4294967279 the candidates climb to the least prime and stop there. -/
theorem search_returns_least {n : Word} {p : ℕ} (h3 : 3 ≤ n.toNat)
    (hle : n.toNat ≤ 4294967279) (hp : IsLeast (primesFrom n) p) {fuel : ℕ}
    (hfuel : 2 ^ 32 < fuel) :
    iterate (candidatePass fuel) fuel (if n % 2 = 0 then n + 1 else n) =
      some (.value (BitVec.ofNat 32 p)) := by
  obtain ⟨⟨hprime, hnp, hp32⟩, hleast⟩ := hp
  have hpmax : p ≤ 4294967279 := hleast ⟨prime_4294967279, hle, by norm_num⟩
  have hpodd : p % 2 = 1 := by
    rcases hprime.eq_two_or_odd with h | h
    · omega
    · exact h
  have hfirst := toNat_firstCandidate (n := n) (by omega)
  obtain ⟨r, hr, hrun⟩ := iterate_variant (candidatePass fuel)
    (fun c => c.toNat % 2 = 1 ∧ n.toNat ≤ c.toNat ∧ c.toNat ≤ p) (fun c => p - c.toNat)
    (· = Answer.value (BitVec.ofNat 32 p))
    (fun c ⟨hodd, hnc, hcp⟩ => by
      have hverdict := divisorLoop_verdict hodd (by omega) (by omega) (Nat.le_of_lt hfuel)
      by_cases hc : c.toNat.Prime
      · have hpc : p ≤ c.toNat := hleast ⟨hc, hnc, c.isLt⟩
        rw [decide_eq_true hc] at hverdict
        refine Or.inl ⟨_, candidatePass_prime hverdict, ?_⟩
        rw [le_antisymm hpc hcp, BitVec.ofNat_toNat, BitVec.setWidth_eq]
      · have hne : c.toNat ≠ p := fun h => hc (h ▸ hprime)
        have hadd : (c + 2).toNat = c.toNat + 2 := by bv_omega
        rw [decide_eq_false hc] at hverdict
        refine Or.inr ⟨c + 2, candidatePass_composite hverdict ?_, ?_, ?_⟩
        · rw [word_ne_zero]
          omega
        · omega
        · omega)
    (s := if n % 2 = 0 then n + 1 else n) (by omega)
  subst hr
  exact hrun fuel (by omega)

theorem contract_of_le {n : Word} (hle : n.toNat ≤ 4294967279) : Contract n := by
  have hnonempty : primesFrom n ≠ ∅ :=
    Set.Nonempty.ne_empty ⟨4294967279, prime_4294967279, hle, by norm_num⟩
  refine ⟨fun p hp => ?_, fun hempty => absurd hempty hnonempty⟩
  by_cases h2 : n ≤ 2
  · have hp2 : p = 2 := by
      have hle2 : p ≤ 2 := hp.2 ⟨Nat.prime_two, h2, by norm_num⟩
      have := hp.1.1.two_le
      omega
    subst hp2
    exact returns_of_forall_ge 0 fun fuel _ => nextPrime_of_le_two h2 fuel
  · have h3 : 3 ≤ n.toNat := by bv_omega
    exact returns_search h2 fun fuel hfuel => search_returns_least h3 hle hp hfuel

/-- No odd candidate from 4294967281 on is accepted. -/
theorem divisorLoop_high {c : Word} (hodd : c.toNat % 2 = 1) (hc : 4294967281 ≤ c.toNat)
    {fuel : ℕ} (hfuel : 2 ^ 32 ≤ fuel) : divisorLoop fuel c = some false := by
  by_cases hexc : c.toNat = 4294967291
  · have : c = 4294967291#32 := BitVec.eq_of_toNat_eq hexc
    rw [this]
    exact divisorLoop_exception hfuel
  · apply divisorLoop_composite hodd (by omega) _ hfuel
    have hlt := c.isLt
    have hcases : c.toNat = 4294967281 ∨ c.toNat = 4294967283 ∨ c.toNat = 4294967285 ∨
        c.toNat = 4294967287 ∨ c.toNat = 4294967289 ∨ c.toNat = 4294967293 ∨
        c.toNat = 4294967295 := by omega
    rcases hcases with h | h | h | h | h | h | h <;> rw [h] <;> norm_num

theorem divisorLoop_one {fuel : ℕ} (hfuel : 0 < fuel) : divisorLoop fuel 1 = some true := by
  obtain ⟨k, rfl⟩ : ∃ k, fuel = k + 1 := ⟨fuel - 1, by omega⟩
  exact iterate_leave (by decide) k

/-- A high candidate is left for the next odd word, which is 1 after the last one. -/
theorem candidatePass_high {c : Word} (hodd : c.toNat % 2 = 1) (hc : 4294967281 ≤ c.toNat)
    {fuel : ℕ} (hfuel : 2 ^ 32 ≤ fuel) :
    candidatePass fuel c = some (.again (c + 2)) ∧
      (c + 2 = 1 ∨ (c + 2).toNat = c.toNat + 2) := by
  have hlt := c.isLt
  constructor
  · apply candidatePass_composite (divisorLoop_high hodd hc hfuel)
    rw [word_ne_zero]
    bv_omega
  · by_cases hlast : c.toNat = 4294967295
    · exact Or.inl (by bv_omega)
    · exact Or.inr (by bv_omega)

/-- The candidates run through the last odd words, wrap to 1, and 1 is accepted. -/
theorem returns_one_of_gt {n : Word} (hgt : 4294967279 < n.toNat) :
    Returns (nextPrime n) (.value 1) := by
  have hbound := n.isLt
  have h2 : ¬ n ≤ 2 := by bv_omega
  have hstart : (if n % 2 = 0 then n + 1 else n).toNat % 2 = 1 ∧
      4294967281 ≤ (if n % 2 = 0 then n + 1 else n).toNat := by
    rcases Nat.lt_or_ge n.toNat 4294967295 with h | h
    · have := toNat_firstCandidate h
      omega
    · have : n = 4294967295#32 := BitVec.eq_of_toNat_eq (by simp only [BitVec.toNat_ofNat]; omega)
      rw [this]
      decide
  apply returns_search h2
  intro fuel hfuel
  generalize (if n % 2 = 0 then n + 1 else n) = first at hstart ⊢
  obtain ⟨r, hr, hrun⟩ := iterate_variant (candidatePass fuel)
    (fun c => c = 1 ∨ c.toNat % 2 = 1 ∧ 4294967281 ≤ c.toNat)
    (fun c => if c = 1 then 0 else 4294967297 - c.toNat)
    (· = Answer.value 1)
    (fun c hc => by
      rcases hc with rfl | ⟨hodd, hc⟩
      · exact Or.inl ⟨_, candidatePass_prime (divisorLoop_one (by omega)), rfl⟩
      · have hne : c ≠ 1 := by
          rintro rfl
          simp at hc
        have hlt := c.isLt
        obtain ⟨hpass, hnext⟩ := candidatePass_high hodd hc hfuel.le
        refine Or.inr ⟨c + 2, hpass, ?_, ?_⟩
        · rcases hnext with hone | hadd
          · exact Or.inl hone
          · exact Or.inr (by omega)
        · rw [if_neg hne]
          rcases hnext with hone | hadd
          · rw [if_pos hone]
            omega
          · split_ifs <;> omega)
    (s := first) (Or.inr hstart)
  subst hr
  exact hrun fuel (by split_ifs <;> omega)

/-- The contract fails wherever the search returns 1: 1 is not prime, and it is not a trap. -/
theorem not_contract_of_returns_one {n : Word} (h : Returns (nextPrime n) (.value 1)) :
    ¬ Contract n := by
  rintro ⟨hleast, htrap⟩
  rcases (primesFrom n).eq_empty_or_nonempty with hempty | hnonempty
  · have := (htrap hempty).unique h
    simp at this
  · obtain ⟨p, hp⟩ : ∃ p, IsLeast (primesFrom n) p := ⟨_, isLeast_csInf hnonempty⟩
    have heq := (hleast p hp).unique h
    simp only [Answer.value.injEq] at heq
    have hp1 : p = 1 := by
      have := congrArg BitVec.toNat heq
      rw [toNat_ofNat_of_lt hp.1.2.2] at this
      exact this
    exact Nat.not_prime_one (hp1 ▸ hp.1.1)

/-- The contract holds exactly up to the second largest prime below 2^32. -/
theorem nextPrime_contract_iff (n : Word) : Contract n ↔ n.toNat ≤ 4294967279 := by
  refine ⟨fun h => ?_, contract_of_le⟩
  by_contra hgt
  exact not_contract_of_returns_one (returns_one_of_gt (by omega)) h

/-- Asked for a prime from 4294967291 on, which is prime, the function returns 1. -/
theorem nextPrime_returns_one :
    Returns (nextPrime 4294967291#32) (.value 1) ∧ ¬ Contract 4294967291#32 :=
  have h := returns_one_of_gt (n := 4294967291#32) (by decide)
  ⟨h, not_contract_of_returns_one h⟩

end WasmCxxShim.NextPrime
