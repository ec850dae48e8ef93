import Mathlib.NumberTheory.LucasPrimality
import Mathlib.Tactic.NormNum.Prime

/-! The prime factors of `2 ^ 256 - 1`, the large ones by certificates. -/

namespace PrimeFactors

variable {a b e k m n p q : Nat} {factors : List Nat}

/-- The power `e`, of at most `k` bits, modulo `m`. -/
def powMod (m a : Nat) : Nat → Nat → Nat
  | 0, _ => 1 % m
  | k + 1, e =>
    let r := powMod m a k (e / 2)
    if e % 2 = 1 then r * r * a % m else r * r % m

theorem powMod_eq (h : e < 2 ^ k) : powMod m a k e = a ^ e % m := by
  induction k generalizing e with
  | zero =>
    have he : e = 0 := by simpa using h
    rw [he, pow_zero, powMod]
  | succ k ih =>
    have hhalf : e / 2 < 2 ^ k := by
      rw [Nat.pow_succ] at h
      omega
    have hsquare : a ^ (e / 2) * a ^ (e / 2) = a ^ (e / 2 + e / 2) := (pow_add ..).symm
    simp only [powMod, ih hhalf]
    by_cases hodd : e % 2 = 1
    · have hexp : e / 2 + e / 2 + 1 = e := by omega
      rw [if_pos hodd, ← Nat.mod_mul_mod, ← Nat.mul_mod, Nat.mod_mul_mod, hsquare, ← pow_succ, hexp]
    · have hexp : e / 2 + e / 2 = e := by omega
      rw [if_neg hodd, ← Nat.mul_mod, hsquare, hexp]

theorem mem_of_dvd (hprimes : ∀ f ∈ factors, Nat.Prime f) (hn : n ∣ factors.prod ^ k) (hq : Nat.Prime q)
    (hdvd : q ∣ n) : q ∈ factors := by
  have hprod : q ∣ factors.prod := hq.dvd_of_dvd_pow (hdvd.trans hn)
  obtain ⟨f, hf, hqf⟩ := (Prime.dvd_prod_iff hq.prime).mp hprod
  rw [(Nat.prime_dvd_prime_iff_eq hq (hprimes f hf)).mp hqf]
  exact hf

theorem pow_eq_one_iff (hp : 1 < p) : (a : ZMod p) ^ n = 1 ↔ a ^ n % p = 1 := by
  rw [← Nat.cast_pow, ← Nat.cast_one, ZMod.natCast_eq_natCast_iff',
    Nat.one_mod_eq_one.mpr (by omega)]

/-- An element of order `p - 1`, given the primes of `p - 1`, each of them at most `k` times, and a
bound of `b` bits on the exponents. -/
def Certified (p a b k : Nat) (factors : List Nat) : Prop :=
  (1 < p ∧ p < 2 ^ b ∧ factors.foldr (· * ·) 1 ^ k % (p - 1) = 0) ∧
    powMod p a b (p - 1) = 1 ∧ ∀ f ∈ factors, powMod p a b ((p - 1) / f) ≠ 1

instance : Decidable (Certified p a b k factors) := inferInstanceAs (Decidable (_ ∧ _ ∧ _))

theorem prime_of_certified (hprimes : ∀ f ∈ factors, Nat.Prime f) (h : Certified p a b k factors) :
    p.Prime := by
  obtain ⟨⟨hp, hb, hfactors⟩, hone, hne⟩ := h
  rw [powMod_eq (by omega)] at hone
  refine lucas_primality p a ((pow_eq_one_iff hp).mpr hone) fun q hq hdvd => ?_
  have hmem := mem_of_dvd hprimes (Nat.dvd_of_mod_eq_zero hfactors) hq hdvd
  have hlt : (p - 1) / q < 2 ^ b := Nat.lt_of_le_of_lt (Nat.div_le_self ..) (by omega)
  rw [ne_eq, pow_eq_one_iff hp, ← powMod_eq hlt]
  exact hne q hmem

/-- Certificates in order: the primes of each `p - 1` are known, or certified before it. -/
def AllCertified (known : List Nat) : List (Nat × Nat × Nat × Nat × List Nat) → Prop
  | [] => True
  | (p, a, b, k, factors) :: rest =>
    (∀ f ∈ factors, f ∈ known) ∧ Certified p a b k factors ∧ AllCertified (p :: known) rest

instance decideAllCertified (known : List Nat) :
    (l : List (Nat × Nat × Nat × Nat × List Nat)) → Decidable (AllCertified known l)
  | [] => inferInstanceAs (Decidable True)
  | (p, _, _, _, _) :: rest =>
    have := decideAllCertified (p :: known) rest
    inferInstanceAs (Decidable (_ ∧ _ ∧ _))

theorem prime_of_allCertified {known : List Nat} {l : List (Nat × Nat × Nat × Nat × List Nat)}
    (hknown : ∀ f ∈ known, Nat.Prime f) (h : AllCertified known l) : ∀ c ∈ l, Nat.Prime c.1 := by
  induction l generalizing known with
  | nil => simp
  | cons c rest ih =>
    obtain ⟨hfactors, hcert, hrest⟩ := h
    have hp : Nat.Prime c.1 := prime_of_certified (fun f hf => hknown f (hfactors f hf)) hcert
    have hmore : ∀ f ∈ c.1 :: known, Nat.Prime f := by
      simp only [List.forall_mem_cons, hp, true_and]
      exact hknown
    simp only [List.forall_mem_cons, hp, true_and]
    exact ih hmore hrest

/-- The small primes of the certificates. -/
def smallPrimes : List Nat :=
  [2, 3, 5, 7, 47, 181, 373, 449, 2203, 12497, 1896229, 2998279, 6939437]

theorem prime_of_mem_smallPrimes : ∀ f ∈ smallPrimes, Nat.Prime f := by
  simp only [smallPrimes, List.forall_mem_cons]
  norm_num

/-- The certificates of the large primes of `2 ^ 256 - 1`. -/
def certificates : List (Nat × Nat × Nat × Nat × List Nat) :=
  [(67280421310721, 3, 46, 8, [2, 5, 47, 373, 2998279]),
    (18533742247, 6, 35, 3, [2, 3, 181, 1896229]),
    (116503103764643, 2, 47, 1, [2, 7, 449, 18533742247]),
    (59649589127497217, 3, 56, 9, [2, 116503103764643]),
    (55515497, 3, 26, 3, [2, 6939437]),
    (733803839347, 2, 40, 1, [2, 3, 2203, 55515497]),
    (5704689200685129054721, 21, 73, 9, [2, 3, 5, 12497, 733803839347])]

theorem prime_of_certificates : ∀ c ∈ certificates, Nat.Prime c.1 := by
  have hcert : AllCertified smallPrimes certificates := by decide +kernel
  exact prime_of_allCertified prime_of_mem_smallPrimes hcert

/-- The primes of `2 ^ 256 - 1`: those of the numbers `2 ^ 2 ^ i + 1` for `i < 8`. -/
def primes : List Nat :=
  [3, 5, 17, 257, 641, 65537, 274177, 6700417, 67280421310721, 59649589127497217,
    5704689200685129054721]

theorem prime_of_mem_primes : ∀ f ∈ primes, Nat.Prime f := by
  have hlarge := prime_of_certificates
  simp only [certificates, List.forall_mem_cons] at hlarge
  obtain ⟨h1, -, -, h2, -, -, h3, -⟩ := hlarge
  simp only [primes, List.forall_mem_cons, h1, h2, h3, true_and]
  norm_num

theorem mem_primes (hq : Nat.Prime q) (hdvd : q ∣ 2 ^ 256 - 1) : q ∈ primes := by
  have hprod : 2 ^ 256 - 1 ∣ primes.prod ^ 1 := by
    rw [pow_one]
    exact dvd_of_eq (by norm_num [primes])
  exact mem_of_dvd prime_of_mem_primes hprod hq hdvd

end PrimeFactors
