import Mathlib.Algebra.Group.Nat.Even
import Mathlib.Algebra.Ring.Basic
import Mathlib.Algebra.Module.End
import Mathlib.Tactic.Abel
import Mathlib.Tactic.NoncommRing

/-! Polynomials over the field of two elements as numbers, a coefficient to each digit of a large
base, so that the product of two of them is one product of numbers; and powers of an additive map
at a vector by square and multiply, modulo a polynomial that takes the vector to zero. -/

namespace PackedPoly

def base : Nat := 2 ^ 16

/-- The digit one at `n` places. -/
def ones : Nat → Nat
  | 0 => 0
  | n + 1 => 1 + base * ones n

/-- The low `n` bits, each as a digit. -/
def spread : Nat → Nat → Nat
  | 0, _ => 0
  | n + 1, a => a % 2 + base * spread n (a / 2)

section Packs

variable {R : Type*} [Ring R] {w r s : R} {a b d k l m n : Nat}

/-- The `n` digits of `a` are at most `k`; as coefficients of a polynomial they give `r` at `w`. -/
inductive Packs (w : R) (k : Nat) : Nat → Nat → R → Prop where
  | zero : Packs w k 0 0 0
  | digit {n a : Nat} {r : R} (d : Nat) : Packs w k n a r → d ≤ k →
      Packs w k (n + 1) (d + base * a) (d + w * r)

theorem Packs.pad_one (h : Packs w k n a r) : Packs w k (n + 1) a r := by
  induction h with
  | zero => simpa using Packs.zero.digit 0 (Nat.zero_le k)
  | digit d _ hd ih => exact ih.digit d hd

theorem Packs.pad (h : Packs w k n a r) (hnm : n ≤ m) : Packs w k m a r := by
  induction hnm with
  | refl => exact h
  | step _ ih => exact ih.pad_one

theorem Packs.shift (h : Packs w k n a r) : Packs w k (n + 1) (base * a) (w * r) := by
  simpa using h.digit 0 (Nat.zero_le k)

theorem Packs.add (ha : Packs w k n a r) (hb : Packs w l n b s) :
    Packs w (k + l) n (a + b) (r + s) := by
  induction ha generalizing b s with
  | zero =>
    cases hb with
    | zero => simpa using Packs.zero
  | @digit n a r d _ hd ih =>
    cases hb with
    | @digit _ b s e hb he =>
      have hnum : d + base * a + (e + base * b) = d + e + base * (a + b) := by
        rw [Nat.mul_add]
        omega
      have hval : (d + w * r : R) + (e + w * s) = (d + e : Nat) + w * (r + s) := by
        rw [Nat.cast_add, mul_add]
        abel
      rw [hnum, hval]
      exact (ih hb).digit (d + e) (Nat.add_le_add hd he)

theorem Packs.smul (h : Packs w l n b s) (hd : d ≤ k) : Packs w (k * l) n (d * b) (d * s) := by
  induction h with
  | zero => simpa using Packs.zero
  | @digit n b s e _ he ih =>
    have hnum : d * (e + base * b) = d * e + base * (d * b) := by
      rw [Nat.mul_add, Nat.mul_left_comm]
    have hval : (d : R) * (e + w * s) = (d * e : Nat) + w * (d * s) := by
      rw [Nat.cast_mul, mul_add, ← mul_assoc, ← mul_assoc, (Nat.cast_commute d w).eq]
    rw [hnum, hval]
    exact ih.digit (d * e) (Nat.mul_le_mul hd he)

/-- The product of the numbers packs the product of the polynomials. -/
theorem Packs.mul (ha : Packs w k m a r) (hb : Packs w l n b s) :
    Packs w (m * (k * l)) (m + n) (a * b) (r * s) := by
  induction ha with
  | zero =>
    have hzero : Packs w (0 * (k * l)) 0 0 0 := .zero
    simpa using hzero.pad (Nat.zero_le (0 + n))
  | @digit m a r d _ hd ih =>
    have hlen : m + 1 + n = m + n + 1 := by omega
    have hnum : (d + base * a) * b = d * b + base * (a * b) := by
      rw [Nat.add_mul, Nat.mul_assoc]
    have hval : (d + w * r) * s = d * s + w * (r * s) := by rw [add_mul, mul_assoc]
    have hcoeff : (m + 1) * (k * l) = k * l + m * (k * l) := by
      rw [Nat.add_mul, Nat.one_mul, Nat.add_comm]
    rw [hlen, hnum, hval, hcoeff]
    exact ((hb.smul hd).pad (by omega)).add ih.shift

theorem and_ones (hd : d < base) :
    (d + base * a) &&& (1 + base * b) = d % 2 + base * (a &&& b) := by
  have hmod : d % 2 ^ 16 = d := Nat.mod_eq_of_lt hd
  have hdiv : d / 2 ^ 16 = 0 := Nat.div_eq_of_lt hd
  have hone : 1 / 2 ^ 16 = 0 := Nat.div_eq_of_lt (by omega)
  have hlow : ((d + base * a) &&& (1 + base * b)) % 2 ^ 16 = d % 2 := by
    rw [Nat.and_mod_two_pow, base, Nat.add_mul_mod_self_left, Nat.add_mul_mod_self_left, hmod,
      Nat.mod_eq_of_lt (by omega), Nat.and_one_is_mod]
  have hhigh : ((d + base * a) &&& (1 + base * b)) / 2 ^ 16 = a &&& b := by
    rw [Nat.and_div_two_pow, base, Nat.add_mul_div_left _ _ (by omega),
      Nat.add_mul_div_left _ _ (by omega), hdiv, hone, Nat.zero_add, Nat.zero_add]
  rw [← Nat.mod_add_div (_ &&& _) (2 ^ 16), hlow, hhigh, base]

/-- In characteristic two the parities of the coefficients suffice. -/
theorem Packs.mask (htwo : (2 : R) = 0) (hk : k < base) (h : Packs w k n a r) :
    Packs w 1 n (a &&& ones n) r := by
  induction h with
  | zero => exact .zero
  | @digit n a r d _ hd ih =>
    have hparity : (d : R) = (d % 2 : Nat) := by
      conv_lhs => rw [← Nat.div_add_mod d 2]
      rw [Nat.cast_add, Nat.cast_mul, Nat.cast_ofNat, htwo, zero_mul, zero_add]
    rw [ones, and_ones (Nat.lt_of_le_of_lt hd hk), hparity]
    exact ih.digit (d % 2) (by omega)

theorem Packs.of_zero (h : Packs w k n 0 r) : r = 0 := by
  generalize ha : 0 = a at h
  induction h with
  | zero => rfl
  | @digit n a r d _ _ ih =>
    have hd : d = 0 := by omega
    have ha : 0 = a := by
      have hmul : base * a = 0 := by omega
      simpa [base, eq_comm] using hmul
    rw [hd, ih ha, Nat.cast_zero, mul_zero, add_zero]

/-- A number with few digits has no coefficients beyond them. -/
theorem Packs.truncate (h : Packs w k n a r) (ha : a < base ^ m) : Packs w k m a r := by
  induction h generalizing m with
  | zero => exact Packs.zero.pad (Nat.zero_le m)
  | @digit n a r d h hd ih =>
    cases m with
    | zero =>
      have hzero : d + base * a = 0 := by simpa using ha
      have hall := h.digit d hd
      rw [hzero] at hall ⊢
      rw [hall.of_zero]
      exact .zero
    | succ m =>
      have hlow : a < base ^ m := by
        refine Nat.lt_of_mul_lt_mul_left (a := base) ?_
        have hpow : base ^ (m + 1) = base * base ^ m := Nat.pow_succ'
        omega
      exact (ih hlow).digit d hd

theorem exists_packs_and_ones (n a : Nat) : ∃ r, Packs w 1 n (a &&& ones n) r := by
  induction n generalizing a with
  | zero => exact ⟨0, by simpa [ones] using Packs.zero⟩
  | succ n ih =>
    obtain ⟨r, h⟩ := ih (a / base)
    have hlow : a % base < base := Nat.mod_lt a (by decide)
    have hand : a &&& ones (n + 1) = a % base % 2 + base * (a / base &&& ones n) := by
      conv_lhs => rw [← Nat.mod_add_div a base]
      exact and_ones hlow
    rw [hand]
    exact ⟨_, h.digit (a % base % 2) (by omega)⟩

theorem exists_packs_spread (n a : Nat) : ∃ r, Packs w 1 n (spread n a) r := by
  induction n generalizing a with
  | zero => exact ⟨0, .zero⟩
  | succ n ih =>
    obtain ⟨r, h⟩ := ih (a / 2)
    exact ⟨_, h.digit (a % 2) (by omega)⟩

theorem packs_one (hn : 1 ≤ n) : Packs w 1 n 1 1 := by
  have h : Packs w 1 1 (1 + base * 0) ((1 : Nat) + w * 0) := Packs.zero.digit 1 le_rfl
  rw [Nat.mul_zero, mul_zero, Nat.cast_one, Nat.add_zero, add_zero] at h
  exact h.pad hn

/-- The base itself is the variable. -/
theorem packs_base (hn : 2 ≤ n) : Packs w 1 n base w := by
  have h : Packs w 1 2 (base * 1) (w * 1) := (packs_one le_rfl).shift
  rw [Nat.mul_one, mul_one] at h
  exact h.pad hn

theorem Packs.commute (h : Packs w k n a r) : Commute w r := by
  induction h with
  | zero => exact Commute.zero_right w
  | digit d _ _ ih => exact (Nat.commute_cast w d).add_right ((Commute.refl w).mul_right ih)

end Packs

section Powers

/-- Product modulo `p`, if the quotient that `mu` suggests is the right one. -/
def mulMod (n p mu a b : Nat) : Option Nat :=
  let z := (a * b) &&& ones (n + n)
  let q := (z / base ^ n * mu / base ^ n) &&& ones n
  let r := (z + q * p) &&& ones (n + (n + 1))
  if r < base ^ n then some r else none

/-- The power `e` of the variable modulo `p`. -/
def powMod (n p mu : Nat) : Nat → Nat → Option Nat
  | 0, _ => none
  | k + 1, e =>
    if e = 0 then some 1
    else (powMod n p mu k (e / 2)).bind fun r =>
      (mulMod n p mu r r).bind fun s => if e % 2 = 1 then mulMod n p mu s base else some s

variable {M : Type*} [AddCommGroup M] {w : AddMonoid.End M} {v : M} {n p mu a b c e k : Nat}

/-- The polynomial packed in a number, at `w`, applied to `v`. -/
def apply (w : AddMonoid.End M) (v : M) : Nat → Nat → M
  | 0, _ => 0
  | n + 1, a => (if a % base = 1 then v else 0) + w (apply w v n (a / base))

theorem Packs.apply_eq {r : AddMonoid.End M} (h : Packs w 1 n a r) : apply w v n a = r v := by
  induction h with
  | zero => rfl
  | @digit n a r d _ hd ih =>
    have hbase : d < base := Nat.lt_of_le_of_lt hd (by decide)
    have hmod : (d + base * a) % base = d := by
      rw [Nat.add_mul_mod_self_left, Nat.mod_eq_of_lt hbase]
    have hdiv : (d + base * a) / base = a := by
      rw [Nat.add_mul_div_left _ _ (by decide), Nat.div_eq_of_lt hbase, Nat.zero_add]
    have hdigit : (if d = 1 then v else 0) = (d : AddMonoid.End M) v := by
      obtain rfl | rfl : d = 0 ∨ d = 1 := by omega
      · simp
      · simp
    rw [apply, hmod, hdiv, ih, hdigit]
    rfl

/-- The quotient need not be the right one: any multiple of `p` takes `v` to zero. -/
theorem mulMod_apply {r s t : AddMonoid.End M} (htwo : (2 : AddMonoid.End M) = 0)
    (hn : n + 1 < base) (hp : Packs w 1 (n + 1) p t) (ht : t v = 0)
    (ha : Packs w 1 n a r) (hb : Packs w 1 n b s) (h : mulMod n p mu a b = some c) :
    ∃ u, Packs w 1 n c u ∧ u v = r (s v) := by
  simp only [mulMod, Option.ite_none_right_eq_some, Option.some.injEq] at h
  obtain ⟨hlt, rfl⟩ := h
  have hz := (ha.mul hb).mask htwo (by omega)
  obtain ⟨g, hq⟩ := exists_packs_and_ones (w := w) n
    (((a * b) &&& ones (n + n)) / base ^ n * mu / base ^ n)
  have hsum := ((hz.pad (by omega)).add (hq.mul hp)).mask htwo (by omega)
  refine ⟨_, hsum.truncate hlt, ?_⟩
  have hvalue : (r * s + g * t) v = r (s v) + g (t v) := rfl
  rw [hvalue, ht, map_zero, add_zero]

theorem powMod_apply {t : AddMonoid.End M} (htwo : (2 : AddMonoid.End M) = 0)
    (hn : n + 1 < base) (hn2 : 2 ≤ n) (hp : Packs w 1 (n + 1) p t)
    (ht : t v = 0) (h : powMod n p mu k e = some c) :
    ∃ u, Packs w 1 n c u ∧ u v = (w ^ e) v := by
  induction k generalizing e c with
  | zero => simp [powMod] at h
  | succ k ih =>
    by_cases he : e = 0
    · simp only [powMod, he, if_true, Option.some.injEq] at h
      subst h he
      exact ⟨1, packs_one (by omega), by rw [pow_zero]⟩
    · simp only [powMod, he, if_false, Option.bind_eq_some_iff] at h
      obtain ⟨a, hhalf, b, hsquare, hlast⟩ := h
      obtain ⟨r, ha, hr⟩ := ih hhalf
      obtain ⟨s, hb, hs⟩ := mulMod_apply htwo hn hp ht ha ha hsquare
      have hcomm : ∀ j, r ((w ^ j) v) = (w ^ j) (r v) := fun j =>
        DFunLike.congr_fun (ha.commute.symm.pow_right j).eq v
      have hdouble : s v = (w ^ (e / 2 + e / 2)) v := by
        rw [hs, hr, hcomm, hr, pow_add]
        rfl
      by_cases hodd : e % 2 = 1
      · rw [if_pos hodd] at hlast
        obtain ⟨u, hc, hu⟩ := mulMod_apply htwo hn hp ht hb (packs_base hn2) hlast
        have hexp : e / 2 + e / 2 + 1 = e := by omega
        have hswap : s (w v) = w (s v) := DFunLike.congr_fun hb.commute.eq.symm v
        refine ⟨u, hc, ?_⟩
        calc u v = w (s v) := by rw [hu, hswap]
          _ = w ((w ^ (e / 2 + e / 2)) v) := by rw [hdouble]
          _ = (w * w ^ (e / 2 + e / 2)) v := rfl
          _ = (w ^ e) v := by rw [← pow_succ', hexp]
      · rw [if_neg hodd, Option.some.injEq] at hlast
        subst hlast
        have hexp : e / 2 + e / 2 = e := by omega
        exact ⟨s, hb, by rw [hdouble, hexp]⟩

end Powers

end PackedPoly
