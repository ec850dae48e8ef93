import BetLang.SimdLanes
import BetLang.Sequencing

/-! Vectors of integers: the interpreter and the emitted instructions give the lanes of the scalar
operation, as long as a lane fits in an `i64` and the instruction is defined there. -/

namespace BetLang.Simd

open Ir Llvm Interp Codegen

section Folds

variable {α : Type} {n : Nat}

/-- Wrapping while adding is wrapping the sum. -/
theorem foldl_ofInt {h : α → BitVec n} {g : α → Int} (hg : ∀ p, h p = BitVec.ofInt n (g p))
    (ps : List α) (a : Int) :
    ps.foldl (fun s p => s + h p) (BitVec.ofInt n a) =
      BitVec.ofInt n (a + ps.foldr (fun p s => g p + s) 0) := by
  induction ps generalizing a with
  | nil => rw [List.foldl_nil, List.foldr_nil, Int.add_zero]
  | cons p ps ih =>
    rw [List.foldl_cons, List.foldr_cons, hg p, ← BitVec.ofInt_add, ih, Int.add_assoc]

end Folds

variable {t : SimdTy}

section Interpreter

/-- The total is the number of a lane and of an `int`; the `int` itself wraps as it should. -/
def Reads (t : SimdTy) (v : Int) : Prop :=
  t.width = .w64 ∧ t.signed = true ∨ InRange t.width t.signed v ∧ v < 2 ^ 63

def Fits : Call t → Prop
  | .build .. | .splat .. => True
  | .binary op _ a b => ∀ p ∈ a.lanes.zip b.lanes, LaneFits t.width t.signed op p.1 p.2
  | .minmax _ a b => ∀ p ∈ a.lanes.zip b.lanes, Small t.signed p.1 ∧ Small t.signed p.2
  | .abs v => ∀ x ∈ v.lanes,
      Small t.signed x ∧ Keeps t.width t.signed (magnitude (number t.signed x))
  | .sum v => Reads t (total v)
  | .dot a b => Reads t (dotTotal a b)
  | .lane v i h => Small t.signed (v.lanes.get ⟨i, v.lane_lt h⟩)

def InterpMeets (c : Call t) : Prop :=
  match spec c with
  | .ok r => ∃ out, interp c = some (.ok out) ∧ Shows t r out
  | .error e => interp c = some (.error e)

theorem valueToI64_holds {x : Lane t} {v : Value} (h : Holds t x v) :
    valueToI64 v = .ok (stored t.width t.signed x) := by
  cases h with
  | int ty => rfl
  | byte b hb => rw [hb, valueToI64]

theorem mapM_holds {xs : List (Lane t)} {vals : List Value} (h : List.Forall₂ (Holds t) xs vals) :
    vals.mapM valueToI64 = .ok (xs.map (stored t.width t.signed)) := by
  induction h with
  | nil => rfl
  | cons hx _ ih =>
    rw [List.mapM_cons, valueToI64_holds hx, ih]
    rfl

theorem buildSimd_each {vals : List Value} {n : Nat} (h : vals.length = n) :
    buildSimd n vals = vals.mapM valueToI64 := if_pos h

theorem buildSimd_one {n : Nat} (h : 2 ≤ n) (v : Value) :
    buildSimd n [v] = (List.replicate n v).mapM valueToI64 := by
  refine if_neg ?_
  rw [List.length_singleton]
  omega

theorem build_meets (vals : List Value) (v : Vec t)
    (holds : List.Forall₂ (Holds t) v.lanes vals) : InterpMeets (.build vals v holds) := by
  have hlen : vals.length = t.lanes := by rw [← holds.length_eq, v.size]
  refine ⟨.vec (v.lanes.map (stored t.width t.signed)), ?_, .vec _⟩
  rw [interp, buildSimd_each hlen, mapM_holds holds]
  rfl

theorem splat_meets (val : Value) (x : Lane t) (holds : Holds t x val) :
    InterpMeets (.splat val x holds) := by
  have hall : List.Forall₂ (Holds t) (List.replicate t.lanes x) (List.replicate t.lanes val) := by
    rw [List.forall₂_iff_get]
    simp [holds]
  refine ⟨.vec ((List.replicate t.lanes x).map (stored t.width t.signed)), ?_, .vec _⟩
  rw [interp, buildSimd_one t.bounds.1, mapM_holds hall]
  rfl

/-- A scalar operand of an operator is put in every lane as by the constructor. -/
theorem splatLike_eq {target : SimdVal} (h : 2 ≤ target.length) (s : Value) :
    splatLike target s = buildSimd target.length [s] := by
  rw [buildSimd_one h, splatLike]
  obtain ⟨n, hn⟩ : ∃ n, target.length = n + 1 := ⟨target.length - 1, by omega⟩
  rw [hn]
  cases hs : valueToI64 s with
  | error e =>
    rw [List.replicate_succ, List.mapM_cons, hs]
    rfl
  | ok x =>
    have hall : ∀ k, (List.replicate k s).mapM valueToI64 = .ok (List.replicate k x) := by
      intro k
      induction k with
      | zero => rfl
      | succ k ih =>
        rw [List.replicate_succ, List.mapM_cons, hs, ih]
        rfl
    exact (hall (n + 1)).symm

theorem simdBinary_eq {w : IntWidth} {signed : Bool} {op : Ast.BinOp} (as bs : List (BitVec w.bits))
    (h : ∀ p ∈ as.zip bs, LaneFits w signed op p.1 p.2) :
    simdBinary op (as.map (stored w signed)) (bs.map (stored w signed)) =
      ((as.zip bs).mapM fun p => exact signed op p.1 p.2).map fun vs =>
        (vs.map (BitVec.ofInt w.bits)).map (stored w signed) := by
  induction as generalizing bs with
  | nil => rfl
  | cons x as ih =>
    cases bs with
    | nil => rfl
    | cons y bs =>
      have hlane := intLane_eq (h (x, y) (List.mem_cons_self ..))
      have hrest := ih bs fun p hp => h p (List.mem_cons_of_mem _ hp)
      rw [simdBinary] at hrest ⊢
      rw [List.map_cons, List.map_cons, List.zip_cons_cons, List.zip_cons_cons, List.mapM_cons,
        List.mapM_cons, hlane, hrest, heldExact]
      cases exact signed op x y with
      | error e => rfl
      | ok v =>
        cases (as.zip bs).mapM fun p => exact signed op p.1 p.2 with
        | error e => rfl
        | ok vs => rfl

theorem binary_meets (op : Ast.BinOp) (hop : elementwise op = true) (a b : Vec t)
    (h : Fits (.binary op hop a b)) : InterpMeets (.binary op hop a b) := by
  have heq := simdBinary_eq a.lanes b.lanes h
  rw [InterpMeets, spec, interp, Vec.held, Vec.held, heq]
  cases (a.lanes.zip b.lanes).mapM fun p => exact t.signed op p.1 p.2 with
  | error e => rfl
  | ok vs => exact ⟨_, rfl, .vec _⟩

/-- The choice of `min` and `max` by the numbers of the lanes. -/
def choose {w : Nat} (signed isMin : Bool) (x y : BitVec w) : BitVec w :=
  if isMin then if number signed x < number signed y then x else y
  else if number signed x > number signed y then x else y

theorem pick_stored {w : IntWidth} {signed : Bool} (isMin : Bool) {x y : BitVec w.bits}
    (hx : Small signed x) (hy : Small signed y) :
    pick isMin (stored w signed x) (stored w signed y) =
      stored w signed (choose signed isMin x y) := by
  rw [pick, choose, BitVec.slt_eq_decide, BitVec.slt_eq_decide, toInt_stored hx, toInt_stored hy]
  cases isMin with
  | true =>
    by_cases hlt : number signed x < number signed y
    · simp [hlt]
    · simp [hlt]
  | false =>
    by_cases hlt : number signed y < number signed x
    · simp [hlt]
    · simp [hlt]

theorem simdMinmax_eq {w : IntWidth} {signed : Bool} (isMin : Bool) (as bs : List (BitVec w.bits))
    (h : ∀ p ∈ as.zip bs, Small signed p.1 ∧ Small signed p.2) :
    simdMinmax isMin (as.map (stored w signed)) (bs.map (stored w signed)) =
      (as.zipWith (choose signed isMin) bs).map (stored w signed) := by
  induction as generalizing bs with
  | nil => rfl
  | cons x as ih =>
    cases bs with
    | nil => rfl
    | cons y bs =>
      obtain ⟨hx, hy⟩ := h (x, y) (List.mem_cons_self ..)
      have hrest := ih bs fun p hp => h p (List.mem_cons_of_mem _ hp)
      rw [simdMinmax] at hrest ⊢
      rw [List.map_cons, List.map_cons, List.zipWith_cons_cons, List.zipWith_cons_cons,
        List.map_cons, pick_stored isMin hx hy, hrest]

theorem minmax_meets (isMin : Bool) (a b : Vec t) (h : Fits (.minmax isMin a b)) :
    InterpMeets (.minmax isMin a b) := by
  refine ⟨_, rfl, ?_⟩
  rw [Vec.held, Vec.held, simdMinmax_eq isMin a.lanes b.lanes h]
  exact .vec _

theorem abs_stored {w : IntWidth} {signed : Bool} {x : BitVec w.bits} (hx : Small signed x)
    (hk : Keeps w signed (magnitude (number signed x))) :
    (if (stored w signed x).slt 0 then -stored w signed x else stored w signed x) =
      stored w signed (BitVec.ofInt w.bits (magnitude (number signed x))) := by
  have hzero : (0 : BitVec 64).toInt = 0 := rfl
  rw [stored_ofInt hk, BitVec.slt_eq_decide, toInt_stored hx, hzero, magnitude]
  by_cases hneg : number signed x < 0
  · rw [if_pos hneg, if_pos (decide_eq_true hneg), stored_eq, BitVec.ofInt_neg]
  · rw [if_neg hneg, if_neg (by simpa using hneg), stored_eq]

theorem abs_meets (v : Vec t) (h : Fits (.abs v)) : InterpMeets (.abs v) := by
  have heq : simdAbs v.held = (v.lanes.map fun x => BitVec.ofInt t.width.bits
      (magnitude (number t.signed x))).map (stored t.width t.signed) := by
    rw [simdAbs, Vec.held, List.map_map, List.map_map]
    refine List.map_congr_left fun x hx => ?_
    exact abs_stored (h x hx).1 (h x hx).2
  refine ⟨_, rfl, ?_⟩
  rw [heq]
  exact .vec _

theorem reads_shows {v : Int} (h : Reads t v) :
    Shows t (.scalar (BitVec.ofInt t.width.bits v)) (.scalar (.word (BitVec.ofInt 64 v))) := by
  refine .scalar _ _ ?_
  rcases h with ⟨hw, hsigned⟩ | ⟨hrange, hlt⟩
  · rw [hw, hsigned]
    rfl
  · rw [number_ofInt hrange, toInt_inRange hrange hlt]

theorem Vec.cons_of (v : Vec t) : ∃ x xs, v.lanes = x :: xs ∧ xs.length + 1 = t.lanes := by
  have hsize := v.size
  have hbounds := t.bounds
  cases hv : v.lanes with
  | nil =>
    rw [hv, List.length_nil] at hsize
    omega
  | cons x xs =>
    rw [hv, List.length_cons] at hsize
    exact ⟨x, xs, rfl, hsize⟩

theorem sum_meets (v : Vec t) (h : Fits (.sum v)) : InterpMeets (.sum v) := by
  obtain ⟨x, xs, hv, _⟩ := v.cons_of
  have hfold : simdReduceAdd v.held = some (.word (BitVec.ofInt 64 (total v))) := by
    have hlane : ∀ y : Lane t, stored t.width t.signed y = BitVec.ofInt 64 (number t.signed y) :=
      stored_eq
    have hsum := foldl_ofInt hlane xs (number t.signed x)
    rw [Vec.held, hv, List.map_cons, simdReduceAdd, List.foldl_map, stored_eq x, hsum, total, hv,
      List.foldr_cons]
  refine ⟨.scalar (.word (BitVec.ofInt 64 (total v))), ?_, reads_shows h⟩
  rw [interp, hfold]
  rfl

theorem dot_meets (a b : Vec t) (h : Fits (.dot a b)) : InterpMeets (.dot a b) := by
  obtain ⟨x, xs, ha, hxs⟩ := a.cons_of
  obtain ⟨y, ys, hb, hys⟩ := b.cons_of
  have hprod : ∀ p : Lane t × Lane t,
      stored t.width t.signed p.1 * stored t.width t.signed p.2 =
        BitVec.ofInt 64 (number t.signed p.1 * number t.signed p.2) := by
    intro p
    rw [stored_eq, stored_eq, BitVec.ofInt_mul]
  have hfold : simdDot a.held b.held = some (.word (BitVec.ofInt 64 (dotTotal a b))) := by
    have hsum := foldl_ofInt hprod (xs.zip ys) (number t.signed x * number t.signed y)
    have hlen : (xs.map (stored t.width t.signed)).length ≤
        (ys.map (stored t.width t.signed)).length := by
      rw [List.length_map, List.length_map]
      omega
    rw [Vec.held, Vec.held, ha, hb, List.map_cons, List.map_cons, simdDot, if_pos hlen,
      List.zip_map, List.foldl_map]
    simp only [Prod.map_fst, Prod.map_snd]
    rw [hprod (x, y), hsum, dotTotal, ha, hb, List.zip_cons_cons, List.foldr_cons]
  refine ⟨.scalar (.word (BitVec.ofInt 64 (dotTotal a b))), ?_, reads_shows h⟩
  rw [interp, hfold]
  rfl

theorem lane_meets (v : Vec t) (i : Nat) (hi : i < t.lanes) (h : Fits (.lane v i hi)) :
    InterpMeets (.lane v i hi) := by
  have hlt : i < v.lanes.length := v.lane_lt hi
  have hget : v.held[i]? = some (stored t.width t.signed (v.lanes.get ⟨i, hlt⟩)) := by
    rw [Vec.held, List.getElem?_map, List.getElem?_eq_getElem hlt]
    rfl
  refine ⟨.scalar (.word (stored t.width t.signed (v.lanes.get ⟨i, hlt⟩))), ?_,
    .scalar _ _ (toInt_stored h)⟩
  rw [interp, simdLane, hget]
  rfl

theorem interp_meets (c : Call t) (h : Fits c) : InterpMeets c := by
  cases c with
  | build vals v holds => exact build_meets vals v holds
  | splat val x holds => exact splat_meets val x holds
  | binary op hop a b => exact binary_meets op hop a b h
  | minmax isMin a b => exact minmax_meets isMin a b h
  | abs v => exact abs_meets v h
  | sum v => exact sum_meets v h
  | dot a b => exact dot_meets a b h
  | lane v i hi => exact lane_meets v i hi h

end Interpreter

section Codegen

/-- The instructions are defined: no division of theirs fails, no shift count reaches the width, and
the comparison of `abs` with 0 sees no upper half of an unsigned type. -/
def Defined : Call t → Prop
  | .binary op _ a b => ∀ p ∈ a.lanes.zip b.lanes, LaneDefined t.signed op p.1 p.2
  | .abs v => t.signed = true ∨ ∀ x ∈ v.lanes, x.toNat ≤ 2 ^ (t.width.bits - 1)
  | .build .. | .splat .. | .minmax .. | .sum .. | .dot .. | .lane .. => True

def CodegenMeets (c : Call t) : Prop := ∃ r, spec c = .ok r ∧ codegen c = some (.ok r)

theorem vecInstr_lanes {n : Nat} {signed : Bool} {op : Ast.BinOp}
    {instr : BitVec n → BitVec n → Outcome (BitVec n)} (ps : List (BitVec n × BitVec n))
    (h : ∀ p ∈ ps, Wraps signed op p.1 p.2 instr) :
    ∃ vs, (ps.mapM fun p => exact signed op p.1 p.2) = .ok vs ∧
      (ps.mapM fun p => instr p.1 p.2) = .ok (vs.map (BitVec.ofInt n)) := by
  induction ps with
  | nil => exact ⟨[], rfl, rfl⟩
  | cons p ps ih =>
    obtain ⟨v, hv, hinstr⟩ := h p (List.mem_cons_self ..)
    obtain ⟨vs, hvs, hinstrs⟩ := ih fun q hq => h q (List.mem_cons_of_mem _ hq)
    refine ⟨v :: vs, ?_, ?_⟩
    · rw [List.mapM_cons, hv, hvs]
      rfl
    · rw [List.mapM_cons, hinstr, hinstrs]
      rfl

theorem binary_emitted (op : Ast.BinOp) (hop : elementwise op = true) (a b : Vec t)
    (h : Defined (.binary op hop a b)) : CodegenMeets (.binary op hop a b) := by
  obtain ⟨irop, instr, hirop, hinstr, hwraps⟩ := vecInstr_wraps hop
  obtain ⟨vs, hvs, hlanes⟩ := vecInstr_lanes (a.lanes.zip b.lanes) fun p hp => hwraps p.1 p.2 (h p hp)
  have hlower : lowerVecBinop irop a.lanes b.lanes t.signed =
      some (.ok (vs.map (BitVec.ofInt t.width.bits))) := by
    rw [lowerVecBinop, hinstr]
    exact congrArg some hlanes
  refine ⟨.vec (vs.map (BitVec.ofInt t.width.bits)), ?_, ?_⟩
  · rw [spec, hvs]
    rfl
  · rw [codegen, hirop, Option.bind_eq_bind, Option.bind_some, hlower]
    rfl

theorem minmax_emitted (isMin : Bool) (a b : Vec t) : CodegenMeets (.minmax isMin a b) := by
  have hpick : ∀ x y : Lane t, (if icmp (minmaxPredicate isMin t.signed) x y then x else y) =
      choose t.signed isMin x y := by
    intro x y
    cases isMin <;> cases t.signed <;> simp [minmaxPredicate, icmp, choose, number,
      BitVec.slt_eq_decide, BitVec.ult_eq_decide]
  refine ⟨_, rfl, ?_⟩
  rw [codegen, lowerMinmax]
  simp only [hpick]
  rfl

theorem abs_lane {n : Nat} {signed : Bool} {x : BitVec n} (hn : 0 < n)
    (h : signed = true ∨ x.toNat ≤ 2 ^ (n - 1)) :
    (if icmp .slt x 0 then 0 - x else x) = BitVec.ofInt n (magnitude (number signed x)) := by
  have hslt : icmp .slt x 0 = decide (x.toInt < 0) := by
    rw [icmp, BitVec.slt_eq_decide]
    simp
  rw [hslt, magnitude]
  cases signed with
  | true =>
    by_cases hneg : x.toInt < 0
    · rw [if_pos (decide_eq_true hneg), number, if_pos rfl, if_pos hneg, BitVec.ofInt_neg,
        BitVec.ofInt_toInt]
      exact BitVec.zero_sub x
    · rw [if_neg (by simpa using hneg), number, if_pos rfl, if_neg hneg, BitVec.ofInt_toInt]
  | false =>
    have hle : x.toNat ≤ 2 ^ (n - 1) := h.resolve_left (by decide)
    have hnn : ¬number false x < 0 := Int.not_lt.mpr (Int.natCast_nonneg _)
    rw [if_neg hnn, ofInt_number]
    by_cases hneg : x.toInt < 0
    · -- Only the smallest negative number is left, which is its own negation.
      have htop : 2 ^ n ≤ 2 * x.toNat := BitVec.toInt_neg_iff.mp hneg
      have hpow : 2 ^ n = 2 * 2 ^ (n - 1) := by
        rw [← Nat.pow_succ', Nat.succ_eq_add_one, Nat.sub_add_cancel hn]
      have hlt := x.isLt
      rw [if_pos (decide_eq_true hneg)]
      apply BitVec.eq_of_toNat_eq
      refine (congrArg BitVec.toNat (BitVec.zero_sub x)).trans ?_
      rw [BitVec.toNat_neg, Nat.mod_eq_of_lt (by omega)]
      omega
    · exact if_neg (by simpa using hneg)

theorem abs_emitted (v : Vec t) (h : Defined (.abs v)) : CodegenMeets (.abs v) := by
  refine ⟨_, rfl, ?_⟩
  rw [codegen, lowerAbs]
  have hlanes : (v.lanes.map fun x => if icmp .slt x 0 then 0 - x else x) =
      v.lanes.map fun x => BitVec.ofInt t.width.bits (magnitude (number t.signed x)) :=
    List.map_congr_left fun x hx => abs_lane (bits_pos t.width) (h.imp_right fun h => h x hx)
  rw [hlanes]

theorem sum_emitted (v : Vec t) : CodegenMeets (.sum v) := by
  obtain ⟨x, xs, hv, _⟩ := v.cons_of
  have hlane : ∀ y : Lane t, y = BitVec.ofInt _ (number t.signed y) := fun y => (ofInt_number y).symm
  have hsum := foldl_ofInt hlane xs (number t.signed x)
  have hreduce : reduceAdd v.lanes = .ok (BitVec.ofInt _ (total v)) := by
    rw [ofInt_number] at hsum
    rw [hv, reduceAdd, hsum, total, hv, List.foldr_cons]
  refine ⟨_, rfl, ?_⟩
  rw [codegen, hreduce]
  rfl

theorem dot_emitted (a b : Vec t) : CodegenMeets (.dot a b) := by
  obtain ⟨x, xs, ha, _⟩ := a.cons_of
  obtain ⟨y, ys, hb, _⟩ := b.cons_of
  have hprod : ∀ p : Lane t × Lane t,
      p.1 * p.2 = BitVec.ofInt _ (number t.signed p.1 * number t.signed p.2) := by
    intro p
    rw [BitVec.ofInt_mul, ofInt_number, ofInt_number]
  have hsum := foldl_ofInt hprod (xs.zip ys) (number t.signed x * number t.signed y)
  have hreduce : lowerDot a.lanes b.lanes = .ok (BitVec.ofInt _ (dotTotal a b)) := by
    rw [lowerDot, ha, hb, List.zipWith_cons_cons, reduceAdd, ← List.map_uncurry_zip_eq_zipWith,
      List.foldl_map]
    simp only [Function.uncurry]
    rw [hprod (x, y), hsum, dotTotal, ha, hb, List.zip_cons_cons, List.foldr_cons]
  refine ⟨_, rfl, ?_⟩
  rw [codegen, hreduce]
  rfl

theorem lane_emitted (v : Vec t) (i : Nat) (hi : i < t.lanes) : CodegenMeets (.lane v i hi) := by
  have hlt : i < v.lanes.length := v.lane_lt hi
  have hget : lowerLane v.lanes i = .ok (v.lanes.get ⟨i, hlt⟩) := by
    rw [lowerLane, List.getElem?_eq_getElem hlt]
    rfl
  refine ⟨_, rfl, ?_⟩
  rw [codegen, hget]
  rfl

theorem codegen_meets (c : Call t) (h : Defined c) : CodegenMeets c := by
  cases c with
  | build vals v holds => exact ⟨_, rfl, rfl⟩
  | splat val x holds => exact ⟨_, rfl, rfl⟩
  | binary op hop a b => exact binary_emitted op hop a b h
  | minmax isMin a b => exact minmax_emitted isMin a b
  | abs v => exact abs_emitted v h
  | sum v => exact sum_emitted v
  | dot a b => exact dot_emitted a b
  | lane v i hi => exact lane_emitted v i hi

end Codegen

/-- The interpreter gives the scalar operation of each lane where the lanes fit in an `i64`, the
emitted instructions give it where they are defined. -/
theorem simd_lanes (t : SimdTy) (c : Call t) :
    (Fits c → InterpMeets c) ∧ (Defined c → CodegenMeets c) :=
  ⟨interp_meets c, codegen_meets c⟩

def i32x2 : SimdTy := ⟨.w32, true, 2, by decide⟩

/-- `i32x2(1, 2) + i32x2(3, 0 - 4)` -/
def smallSum : Call i32x2 := .binary .add rfl ⟨[1#32, 2#32], rfl⟩ ⟨[3#32, -4#32], rfl⟩

theorem simd_lanes_smallSum : InterpMeets smallSum ∧ CodegenMeets smallSum := by
  have hfits : Fits smallSum := by
    intro p hp
    have hmem : p ∈ [(1#32, 3#32), (2#32, -4#32)] := hp
    rcases List.mem_pair.mp hmem with rfl | rfl
    · exact .inr (show -(2 ^ 31 : Int) ≤ 1 + 3 ∧ (1 + 3 : Int) < 2 ^ 31 from by decide)
    · exact .inr (show -(2 ^ 31 : Int) ≤ 2 + -4 ∧ (2 + -4 : Int) < 2 ^ 31 from by decide)
  have hdefined : Defined smallSum := fun _ _ => trivial
  exact ⟨(simd_lanes i32x2 smallSum).1 hfits, (simd_lanes i32x2 smallSum).2 hdefined⟩

/-- `i32x2(2147483647, 0) + i32x2(1, 0)` -/
def wideSum : Call i32x2 := .binary .add rfl ⟨[2147483647#32, 0#32], rfl⟩ ⟨[1#32, 0#32], rfl⟩

/-- The width of a lane is not kept: the interpreter goes on with 2147483648. -/
theorem wideSum_unwrapped : ¬InterpMeets wideSum := by
  have hspec : spec wideSum = .ok (.vec [2147483648#32, 0#32]) := rfl
  have hinterp : interp wideSum = some (.ok (.vec [2147483648#64, 0#64])) := rfl
  rw [InterpMeets, hspec, hinterp]
  rintro ⟨out, hout, hshows⟩
  cases hout
  cases hshows

end BetLang.Simd
