import WasmCxxShim.NextPrime

/-!
# The squares of the divisor loop

The divisors at which the loop evaluates `i * i <= n` climb in steps of two from 3. They stay
below 65537, the first whose square does not fit a word, exactly when the candidate is below
65535^2 or one of them divides it. On the other candidates, the primes from 65535^2 on, the
loop goes past it.
-/
namespace WasmCxxShim.NextPrime
open LoopRules MachineWords

/-- The divisors at which the condition `i * i <= n` is evaluated. -/
def tested (n : Word) (fuel : ℕ) : List Word := visits (divisorPass n) fuel 3

/-- The divisors for which the body of the loop runs. -/
def tried (n : Word) (fuel : ℕ) : List Word := (tested n fuel).filter fun i => i * i ≤ n

/-- The divisor loop as documented: no square overflows, each odd number up to the root is tried
at most once, and the flag says whether the candidate is prime. -/
structure Decides (n : Word) : Prop where
  square_fits : ∀ fuel, ∀ i ∈ tested n fuel, i.toNat * i.toNat ≤ 2 ^ 32 - 1
  tried_once : ∀ fuel, (tried n fuel).Nodup ∧
    ∀ i ∈ tried n fuel, i.toNat % 2 = 1 ∧ 3 ≤ i.toNat ∧ i.toNat ^ 2 ≤ n.toNat
  flag : Returns (fun fuel => divisorLoop fuel n) (decide n.toNat.Prime)

/-- The candidate is below 65535^2, or an odd number up to 65535 divides it. -/
def StopsEarly (n : Word) : Prop :=
  n.toNat < 65535 ^ 2 ∨ ∃ i, i % 2 = 1 ∧ 3 ≤ i ∧ i ≤ 65535 ∧ i ∣ n.toNat

set_option maxRecDepth 100000 in
theorem prime_4294967291 : Nat.Prime 4294967291 := by norm_num

theorem divisorPass_again {n i j : Word} (h : divisorPass n i = some (.again j)) :
    i * i ≤ n ∧ ¬ i.toNat ∣ n.toNat ∧ j = i + 2 := by
  simp only [divisorPass] at h
  split_ifs at h with hcond hrem
  · simp at h
  · simp only [Option.some.injEq, Pass.again.injEq] at h
    exact ⟨hcond, mt rem_eq_zero_iff.mpr hrem, h.symm⟩
  · simp at h

/-- No pass goes round again at `stop`. -/
def Stops (n : Word) (stop : ℕ) : Prop :=
  ∀ i : Word, i.toNat = stop → ¬ i * i ≤ n ∨ i.toNat ∣ n.toNat

theorem exists_stops {n : Word} (h : StopsEarly n) :
    ∃ stop, stop % 2 = 1 ∧ 3 ≤ stop ∧ stop ≤ 65535 ∧ Stops n stop := by
  rcases h with hsmall | ⟨i, hodd, h3, hle, hdvd⟩
  · refine ⟨65535, by norm_num, by norm_num, le_rfl, fun i hi => Or.inl ?_⟩
    rw [word_le, toNat_square_of_small (by omega), hi]
    omega
  · exact ⟨i, hodd, h3, hle, fun j hj => Or.inr (by rwa [hj])⟩

theorem trying_again {n i j : Word} {stop : ℕ} (hodd : stop % 2 = 1) (hle : stop ≤ 65535)
    (hstops : Stops n stop) (hi : Trying stop i) (h : divisorPass n i = some (.again j)) :
    Trying stop j ∧ i < j := by
  obtain ⟨hcond, hdiv, rfl⟩ := divisorPass_again h
  have hne : i.toNat ≠ stop := by
    intro heq
    rcases hstops i heq with hfail | hdvd
    · exact hfail hcond
    · exact hdiv hdvd
  obtain ⟨hnext, hlt⟩ := trying_next (by omega) hodd hi hne
  refine ⟨hnext, ?_⟩
  rw [word_lt]
  omega

theorem decides_of_stopsEarly {n : Word} (hodd : n.toNat % 2 = 1) (h3 : 3 ≤ n.toNat)
    (h : StopsEarly n) : Decides n := by
  obtain ⟨stop, hsodd, hs3, hsle, hstops⟩ := exists_stops h
  have hstart : Trying stop 3 := ⟨by decide, by decide, hs3⟩
  have hpass := fun i j (hi : Trying stop i) => trying_again (j := j) hsodd hsle hstops hi
  have htested : ∀ fuel, ∀ i ∈ tested n fuel, Trying stop i := fun fuel =>
    visits_invariant (Trying stop) (fun i j hi hij => (hpass i j hi hij).1) fuel hstart
  refine ⟨fun fuel i hi => ?_, fun fuel => ⟨?_, fun i hi => ?_⟩, ?_⟩
  · have := (htested fuel i hi).2.2
    have := Nat.mul_le_mul (this.trans hsle) (this.trans hsle)
    omega
  · have hclimb : (tested n fuel).Pairwise (· < ·) :=
      visits_pairwise (· < ·) (Trying stop) hpass fuel hstart
    refine (hclimb.imp fun hlt heq => ?_).filter _
    rw [heq, word_lt] at hlt
    exact lt_irrefl _ hlt
  · obtain ⟨hmem, hcond⟩ := List.mem_filter.mp hi
    obtain ⟨h1, h2, hle⟩ := htested fuel i hmem
    refine ⟨h1, h2, ?_⟩
    rwa [decide_eq_true_eq, word_le, toNat_square_of_small (hle.trans hsle), ← pow_two] at hcond
  · refine returns_of_forall_ge (2 ^ 32) fun fuel hfuel => ?_
    apply divisorLoop_verdict hodd h3 _ hfuel
    rintro heq
    rcases h with hsmall | ⟨i, -, hi3, hile, hdvd⟩
    · omega
    · rcases (Nat.dvd_prime prime_4294967291).mp (heq ▸ hdvd) with h1 | h1 <;> omega

/-- Without an early stop every odd number up to 65537 is tested. -/
theorem mem_tested {n : Word} (h : ¬ StopsEarly n) (k : ℕ) (hk : 2 * k + 3 ≤ 65537) :
    BitVec.ofNat 32 (2 * k + 3) ∈ tested n (k + 1) := by
  simp only [StopsEarly, not_or, not_lt, not_exists, not_and] at h
  obtain ⟨hbig, hnone⟩ := h
  induction k with
  | zero => simp [tested, visits]
  | succ k ih =>
    have hi : (BitVec.ofNat 32 (2 * k + 3)).toNat = 2 * k + 3 := toNat_ofNat_of_lt (by omega)
    have hcond : BitVec.ofNat 32 (2 * k + 3) * BitVec.ofNat 32 (2 * k + 3) ≤ n := by
      have := Nat.mul_le_mul (show 2 * k + 3 ≤ 65535 by omega) (show 2 * k + 3 ≤ 65535 by omega)
      rw [word_le, toNat_square_of_small (by omega), hi]
      omega
    have hdiv : ¬ (BitVec.ofNat 32 (2 * k + 3)).toNat ∣ n.toNat := by
      rw [hi]
      exact hnone _ (by omega) (by omega) (by omega)
    have hnext := mem_visits_again (ih (by omega)) (divisorPass_of_not_dvd hcond hdiv)
    have hadd : BitVec.ofNat 32 (2 * k + 3) + 2 = BitVec.ofNat 32 (2 * (k + 1) + 3) := by
      bv_omega
    rwa [hadd] at hnext

theorem not_decides_of_not_stopsEarly {n : Word} (h : ¬ StopsEarly n) : ¬ Decides n := by
  intro hdecides
  have hfits := hdecides.square_fits _ _ (mem_tested h 32767 (by norm_num))
  norm_num at hfits

/-- The divisor loop keeps its squares within a word, tries each odd divisor at most once and
decides primality on exactly the odd candidates that stop early. -/
theorem divisorLoop_decides_iff (n : Word) (hodd : n.toNat % 2 = 1) (h3 : 3 ≤ n.toNat) :
    Decides n ↔ StopsEarly n :=
  ⟨fun h => by
    by_contra hlate
    exact not_decides_of_not_stopsEarly hlate h,
  decides_of_stopsEarly hodd h3⟩

theorem divisorLoop_decides_iff_nine : Decides 9#32 ↔ StopsEarly 9#32 :=
  divisorLoop_decides_iff 9#32 (by decide) (by decide)

/-- On the largest prime below 2^32 the condition squares 65537, and the flag ends up wrong. -/
theorem divisorLoop_overflows :
    (∃ fuel, 65537#32 ∈ tested 4294967291#32 fuel) ∧
      Returns (fun fuel => divisorLoop fuel 4294967291#32) false ∧ ¬ Decides 4294967291#32 := by
  have hlate : ¬ StopsEarly 4294967291#32 := by
    rintro (hsmall | ⟨i, -, h3, hle, hdvd⟩)
    · simp at hsmall
    · rcases (Nat.dvd_prime prime_4294967291).mp hdvd with h | h <;> omega
  exact ⟨⟨32768, mem_tested hlate 32767 (by norm_num)⟩,
    returns_of_forall_ge (2 ^ 32) fun fuel hfuel => divisorLoop_exception hfuel,
    not_decides_of_not_stopsEarly hlate⟩

end WasmCxxShim.NextPrime
