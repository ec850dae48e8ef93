import BetLang.XoshiroPeriod
import BetLang.MultiplyHigh

/-! Bounded random numbers: the high half of a product, with redraws. -/

namespace BetLang.Random

def product (x n : BitVec 64) : BitVec 128 := x.setWidth 128 * n.setWidth 128

def low (m : BitVec 128) : BitVec 64 := m.setWidth 64

def high (m : BitVec 128) : BitVec 64 := (m >>> 64).setWidth 64

/-- The inner loop of `up_to`, with at most `fuel` redraws. -/
def redraw (n threshold : BitVec 64) : Nat → RngState → BitVec 128 → Option (BitVec 128 × RngState)
  | 0, s, m => if low m < threshold then none else some (m, s)
  | fuel + 1, s, m =>
    if low m < threshold then redraw n threshold fuel s.nextU64.2 (product s.nextU64.1 n)
    else some (m, s)

def RngState.upTo (fuel : Nat) (s : RngState) (n : BitVec 64) : Option (BitVec 64 × RngState) :=
  if n = 0 then some (0, s)
  else
    let m := product s.nextU64.1 n
    let s := s.nextU64.2
    if low m < n then
      let threshold := -n % n
      (redraw n threshold fuel s m).map fun result => (high result.1, result.2)
    else some (high m, s)

/-- The raw draw number `i`. -/
def RngState.draw (s : RngState) (i : Nat) : BitVec 64 := (RngState.step^[i] s).nextU64.1

/-- What the draw `x` stands for below `n`. -/
def mapped (n x : BitVec 64) : BitVec 64 := high (product x n)

def Rejected (n x : BitVec 64) : Prop := low (product x n) < -n % n

section Words

variable (n x : BitVec 64)

theorem product_toNat : (product x n).toNat = x.toNat * n.toNat := by
  have hmul : x.toNat * n.toNat < 2 ^ 64 * 2 ^ 64 := Nat.mul_lt_mul'' x.isLt n.isLt
  have hlt : x.toNat * n.toNat < 2 ^ 128 := by omega
  have hx : x.toNat < 2 ^ 128 := by have := x.isLt; omega
  have hn : n.toNat < 2 ^ 128 := by have := n.isLt; omega
  rw [product, BitVec.toNat_mul, BitVec.toNat_setWidth, BitVec.toNat_setWidth, Nat.mod_eq_of_lt hx,
    Nat.mod_eq_of_lt hn, Nat.mod_eq_of_lt hlt]

theorem low_toNat : (low (product x n)).toNat = x.toNat * n.toNat % 2 ^ 64 := by
  rw [low, BitVec.toNat_setWidth, product_toNat]

theorem mapped_toNat : (mapped n x).toNat = MultiplyHigh.high (2 ^ 64) n.toNat x.toNat := by
  have hlt : x.toNat * n.toNat < 2 ^ 64 * 2 ^ 64 := Nat.mul_lt_mul'' x.isLt n.isLt
  have hquot : x.toNat * n.toNat / 2 ^ 64 < 2 ^ 64 := Nat.div_lt_of_lt_mul hlt
  rw [mapped, high, BitVec.toNat_setWidth, BitVec.toNat_ushiftRight, product_toNat,
    Nat.shiftRight_eq_div_pow, Nat.mod_eq_of_lt hquot, MultiplyHigh.high]

theorem toNat_pos (hn : n ≠ 0) : 0 < n.toNat := by
  refine Nat.pos_of_ne_zero fun h => hn ?_
  exact BitVec.eq_of_toNat_eq h

theorem threshold_toNat (hn : n ≠ 0) : (-n % n).toNat = 2 ^ 64 % n.toNat := by
  have hlt := n.isLt
  have hpos := toNat_pos n hn
  have hneg : (2 ^ 64 - n.toNat) % 2 ^ 64 = 2 ^ 64 - n.toNat := Nat.mod_eq_of_lt (by omega)
  rw [BitVec.toNat_umod, BitVec.toNat_neg, hneg, Nat.mod_eq_sub_mod hlt.le]

theorem rejected_iff (hn : n ≠ 0) :
    Rejected n x ↔ MultiplyHigh.Rejected (2 ^ 64) n.toNat x.toNat := by
  rw [Rejected, BitVec.lt_def, low_toNat, threshold_toNat n hn, MultiplyHigh.Rejected]

theorem mapped_lt (hn : n ≠ 0) : mapped n x < n := by
  rw [BitVec.lt_def, mapped_toNat]
  exact MultiplyHigh.high_lt x.isLt (toNat_pos n hn)

end Words

section Counting

variable {n r : BitVec 64}

theorem card_words (p : Nat → Prop) [DecidablePred p] :
    Nat.card {x : BitVec 64 // p x.toNat} = ((Finset.range (2 ^ 64)).filter p).card := by
  let numbers : {x : BitVec 64 // p x.toNat} ≃ {k // k < 2 ^ 64 ∧ p k} :=
    { toFun := fun x => ⟨x.1.toNat, x.1.isLt, x.2⟩
      invFun := fun k => ⟨BitVec.ofNatLT k.1 k.2.1, k.2.2⟩ }
  rw [Nat.card_congr numbers]
  refine Nat.subtype_card _ fun k => ?_
  rw [Finset.mem_filter, Finset.mem_range]

theorem card_accepted (hn : n ≠ 0) (hr : r < n) :
    Nat.card {x // ¬Rejected n x ∧ mapped n x = r} = 2 ^ 64 / n.toNat := by
  have hiff (x : BitVec 64) : ¬Rejected n x ∧ mapped n x = r ↔
      ¬MultiplyHigh.Rejected (2 ^ 64) n.toNat x.toNat ∧
        MultiplyHigh.high (2 ^ 64) n.toNat x.toNat = r.toNat := by
    rw [rejected_iff n x hn, ← BitVec.toNat_inj, mapped_toNat]
  rw [Nat.card_congr (Equiv.subtypeEquivRight hiff)]
  exact (card_words _).trans (MultiplyHigh.card_accepted (toNat_pos n hn) hr)

theorem card_rejected (hn : n ≠ 0) : Nat.card {x // Rejected n x} = 2 ^ 64 % n.toNat := by
  rw [Nat.card_congr (Equiv.subtypeEquivRight fun x => rejected_iff n x hn)]
  exact (card_words _).trans (MultiplyHigh.card_rejected (toNat_pos n hn))

end Counting

section Runs

variable {n : BitVec 64} {s : RngState} {j : Nat}

theorem redraw_of_not_lt {threshold : BitVec 64} {m : BitVec 128} (fuel : Nat)
    (h : ¬low m < threshold) : redraw n threshold fuel s m = some (m, s) := by
  cases fuel with
  | zero => simp [redraw, h]
  | succ fuel => simp [redraw, h]

/-- The loop keeps the first draw that is not rejected. -/
theorem redraw_eq {m : BitVec 128} (extra : Nat) (hm : low m < -n % n)
    (hrejected : ∀ i < j, Rejected n (s.draw i)) (haccepted : ¬Rejected n (s.draw j)) :
    redraw n (-n % n) (j + extra + 1) s m =
      some (product (s.draw j) n, RngState.step^[j + 1] s) := by
  induction j generalizing s m with
  | zero =>
    rw [redraw, if_pos hm]
    exact redraw_of_not_lt (0 + extra) haccepted
  | succ j ih =>
    have hfirst : Rejected n (s.draw 0) := hrejected 0 (by omega)
    have hlater : ∀ i < j, Rejected n (s.step.draw i) := fun i hi => hrejected (i + 1) (by omega)
    have hfuel : j + 1 + extra = j + extra + 1 := by omega
    rw [redraw, if_pos hm, hfuel]
    exact ih hfirst hlater haccepted

theorem upTo_eq (hn : n ≠ 0) (extra : Nat) (hrejected : ∀ i < j, Rejected n (s.draw i))
    (haccepted : ¬Rejected n (s.draw j)) :
    s.upTo (j + extra) n = some (mapped n (s.draw j), RngState.step^[j + 1] s) := by
  rw [RngState.upTo, if_neg hn]
  cases j with
  | zero =>
    have hloop : redraw n (-n % n) (0 + extra) s.nextU64.2 (product s.nextU64.1 n) =
        some (product s.nextU64.1 n, s.nextU64.2) := redraw_of_not_lt (0 + extra) haccepted
    simp only [hloop, Option.map_some, ite_self]
    rfl
  | succ j =>
    have hfirst : low (product s.nextU64.1 n) < -n % n := hrejected 0 (by omega)
    have hbelow : low (product s.nextU64.1 n) < n := by
      have hmod : -n % n < n := BitVec.umod_lt _ ((BitVec.pos_iff_ne_zero n).mpr hn)
      exact BitVec.lt_trans hfirst hmod
    have hlater : ∀ i < j, Rejected n (s.step.draw i) := fun i hi => hrejected (i + 1) (by omega)
    have hfuel : j + 1 + extra = j + extra + 1 := by omega
    have hloop := redraw_eq extra hfirst hlater haccepted
    simp only [hbelow, if_true, hfuel]
    exact congrArg (Option.map _) hloop

end Runs

/-- All bits of the draw from this state are set. -/
def last : RngState := ⟨0, 0x4FC71C71C71C71C7, 0, 0⟩

theorem nextU64_last : last.nextU64.1 = BitVec.allOnes 64 := by decide

theorem last_accepted {n : BitVec 64} (hn : n ≠ 0) : ¬Rejected n (BitVec.allOnes 64) := by
  rw [rejected_iff _ _ hn, BitVec.toNat_allOnes]
  exact MultiplyHigh.last_accepted (toNat_pos n hn) n.isLt.le

/-- From every state of a run some draw is accepted, since the run comes to `last`. -/
theorem exists_accepted {n : BitVec 64} (hn : n ≠ 0) {s : RngState} (hs : s ≠ allZero) :
    ∃ j, (∀ i < j, Rejected n (s.draw i)) ∧ ¬Rejected n (s.draw j) := by
  classical
  obtain ⟨k, hk⟩ := reaches hs (t := last) (by decide)
  have hsome : ∃ j, ¬Rejected n (s.draw j) := by
    refine ⟨k, ?_⟩
    rw [RngState.draw, hk, nextU64_last]
    exact last_accepted hn
  exact ⟨Nat.find hsome, fun i hi => not_not.mp (Nat.find_min hsome hi), Nat.find_spec hsome⟩

/-- From every state a seed leads to, `upTo` returns what the first accepted draw stands for; each
value below the bound has `2 ^ 64 / n` accepted draws, and fewer than half of all are rejected. -/
theorem up_to_unbiased (n : BitVec 64) (hn : n ≠ 0) :
    (∀ seed k, ∃ j,
      (∀ i < j, Rejected n ((RngState.step^[k] (RngState.new seed)).draw i)) ∧
      ¬Rejected n ((RngState.step^[k] (RngState.new seed)).draw j) ∧
      ∀ extra, (RngState.step^[k] (RngState.new seed)).upTo (j + extra) n =
        some (mapped n ((RngState.step^[k] (RngState.new seed)).draw j),
          RngState.step^[j + 1] (RngState.step^[k] (RngState.new seed)))) ∧
    (∀ x, mapped n x < n) ∧
    (∀ r < n, Nat.card {x // ¬Rejected n x ∧ mapped n x = r} = 2 ^ 64 / n.toNat) ∧
    2 * Nat.card {x // Rejected n x} < 2 ^ 64 := by
  refine ⟨fun seed k => ?_, fun x => mapped_lt n x hn, fun r hr => card_accepted hn hr, ?_⟩
  · have hstate := iterate_ne_allZero (new_ne_allZero seed) k
    obtain ⟨j, hrejected, haccepted⟩ := exists_accepted hn hstate
    exact ⟨j, hrejected, haccepted, fun extra => upTo_eq hn extra hrejected haccepted⟩
  · rw [card_rejected hn]
    exact MultiplyHigh.two_mul_mod_lt (toNat_pos n hn) n.isLt.le

/-- A die has `2 ^ 64 / 6` draws for each face. -/
theorem up_to_unbiased_six : (∀ x, mapped 6 x < 6) ∧
    Nat.card {x // ¬Rejected 6 x ∧ mapped 6 x = 2} = 3074457345618258602 := by
  obtain ⟨_, hlt, hcard, _⟩ := up_to_unbiased 6 (by decide)
  exact ⟨hlt, hcard 2 (by decide)⟩

end BetLang.Random
