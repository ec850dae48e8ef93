import BetLang.Equality

/-! What the emitted comparisons compute, on any two operands of one type. -/

namespace BetLang

open Ir Llvm Codegen

namespace Comparing

def isScalarTy : Llvm.Ty → Bool
  | .int _ | .float | .double => true
  | _ => false

/-- The types with an emitted comparison. -/
def comparable : Llvm.Ty → Bool
  | .struct fields => fields.all isScalarTy
  | ty => isScalarTy ty

def isNaN : Val → Bool
  | .float x => Ieee754.isNaN 23 x
  | .double x => Ieee754.isNaN 52 x
  | _ => false

/-- Two scalars of one type that hold the same number. -/
def alikePart : Val → Val → Bool
  | .int _ x, .int _ y => x.toNat == y.toNat
  | .float x, .float y => Ieee754.f32Eq x y
  | .double x, .double y => Ieee754.f64Eq x y
  | _, _ => false

def allAlike : List Val → List Val → Bool
  | x :: xs, y :: ys => alikePart x y && allAlike xs ys
  | _, _ => true

def alike : Val → Val → Bool
  | .struct xs, .struct ys => allAlike xs ys
  | x, y => alikePart x y

/-- Both operators compile, and `!=` is the negation of `==`. -/
def Negated (signed : Bool) (l r : Val) : Prop :=
  ∃ e, lowerCompare .eq signed l r = .ok e ∧ lowerCompare .ne signed l r = .ok !e

section

variable {l r : Val}

theorem cast_beq {w w' : Nat} (h : w' = w) (x : BitVec w) (y : BitVec w') :
    (x == y.cast h) = (x.toNat == y.toNat) := by
  subst h
  rw [Bool.eq_iff_iff, beq_iff_eq, beq_iff_eq, BitVec.toNat_inj]
  rfl

theorem lowerFieldEq_eq (h : l.ty = r.ty) :
    lowerFieldEq l r = if isScalarTy l.ty then .ok (alikePart l r)
      else .error "equality on an aggregate with a non-scalar field" := by
  cases l <;> cases r <;> simp only [Val.ty, reduceCtorEq] at h <;> try rfl
  rename_i w x w' y
  have hw : w' = w := (Llvm.Ty.int.inj h).symm
  simp only [lowerFieldEq, dif_pos hw, icmp, cast_beq, alikePart, Val.ty, isScalarTy, if_true]

/-- What the loop over the fields computes: `and` of the results so far and of every field's. -/
theorem lowerFieldsEq_eq : ∀ (acc : Option Bool) {ls rs : List Val}, tys ls = tys rs →
    (·.getD true) <$> lowerFieldsEq acc ls rs =
      if (tys ls).all isScalarTy then .ok (acc.getD true && allAlike ls rs)
      else .error "equality on an aggregate with a non-scalar field"
  | acc, [], [], _ => by
    simp only [lowerFieldsEq, tys, allAlike, List.all_nil, if_true, Bool.and_true]
    rfl
  | acc, l :: ls, r :: rs, h => by
    rw [tys, tys, List.cons.injEq] at h
    rw [lowerFieldsEq, lowerFieldEq_eq h.1, tys, List.all_cons]
    cases hl : isScalarTy l.ty with
    | false => rfl
    | true =>
      have ih := fun acc => lowerFieldsEq_eq acc h.2
      cases acc with
      | none => exact ih (some (alikePart l r))
      | some b =>
        refine (ih (some (b && alikePart l r))).trans ?_
        rw [allAlike, ← Bool.and_assoc]
        rfl

theorem lowerAggEq_eq {ls rs : List Val} (h : tys ls = tys rs) :
    lowerAggEq .eq ls rs = (if (tys ls).all isScalarTy then .ok (allAlike ls rs)
      else .error "equality on an aggregate with a non-scalar field") ∧
    lowerAggEq .ne ls rs = if (tys ls).all isScalarTy then .ok !(allAlike ls rs)
      else .error "equality on an aggregate with a non-scalar field" := by
  have hall := lowerFieldsEq_eq none h
  have hsame : sameTys (tys ls) (tys rs) = true := h ▸ sameTys_self _
  have hadd (op : BinOp) (b : Bool) (hb : (op, b) = (.eq, true) ∨ (op, b) = (.ne, false)) :
      lowerAggEq op ls rs = (fun e => if b then e else !e) <$>
        ((·.getD true) <$> lowerFieldsEq none ls rs) := by
    rcases hb with hb | hb <;> cases hb <;> simp only [lowerAggEq, hsame, if_true] <;>
      cases lowerFieldsEq none ls rs <;> rfl
  rw [hadd .eq true (.inl rfl), hadd .ne false (.inr rfl), hall]
  cases (tys ls).all isScalarTy <;> exact ⟨rfl, rfl⟩

theorem lowerCompare_eq (signed : Bool) (h : l.ty = r.ty) (hc : comparable l.ty = true) :
    lowerCompare .eq signed l r = .ok (alike l r) := by
  cases l <;> cases r <;> simp only [Val.ty, reduceCtorEq] at h <;>
    simp only [Val.ty, comparable, isScalarTy, Bool.false_eq_true] at hc
  case int.int w x w' y =>
    have hw : w' = w := (Llvm.Ty.int.inj h).symm
    simp only [lowerCompare, dif_pos hw, intPredicate, icmp, cast_beq, alike, alikePart]
  case float.float x y => rfl
  case double.double x y => rfl
  case struct.struct ls rs =>
    have hs := (lowerAggEq_eq (Llvm.Ty.struct.inj h)).1
    rw [hc] at hs
    exact hs

theorem negated_of_ok {signed : Bool} {e n : Bool} (he : lowerCompare .eq signed l r = .ok e)
    (hn : lowerCompare .ne signed l r = .ok n) : Negated signed l r ↔ n = !e := by
  constructor
  · rintro ⟨e', he', hn'⟩
    cases he.symm.trans he'
    cases hn.symm.trans hn'
    rfl
  · rintro rfl
    exact ⟨e, he, hn⟩

theorem not_negated_of_error {signed : Bool} {msg : String}
    (he : lowerCompare .eq signed l r = .error msg) : ¬Negated signed l r := by
  rintro ⟨e, he', -⟩
  cases he.symm.trans he'

/-- Whatever the operands are: a comparison compiles for numbers and for flat structs, and only
the ordered `!=` of a NaN is no negation. -/
theorem negated_iff (signed : Bool) (h : l.ty = r.ty) :
    Negated signed l r ↔ comparable l.ty = true ∧ ¬(isNaN l = true ∨ isNaN r = true) := by
  cases l <;> cases r <;> simp only [Val.ty, reduceCtorEq] at h <;>
    simp only [Val.ty, comparable, isScalarTy, isNaN, Bool.false_eq_true, true_and, or_self,
      not_false_eq_true, and_true, iff_false, iff_true, not_or, Bool.not_eq_true]
  case int.int w x w' y =>
    have hw : w' = w := (Llvm.Ty.int.inj h).symm
    refine ⟨x == y.cast hw, ?_, ?_⟩ <;> simp only [lowerCompare, dif_pos hw, intPredicate, icmp, bne]
  case float.float x y =>
    exact (negated_of_ok rfl rfl).trans (fcmp_one_eq_iff 23 x y)
  case double.double x y =>
    exact (negated_of_ok rfl rfl).trans (fcmp_one_eq_iff 52 x y)
  case struct.struct ls rs =>
    obtain ⟨he, hn⟩ := lowerAggEq_eq (Llvm.Ty.struct.inj h)
    cases hs : (tys ls).all isScalarTy with
    | false =>
      rw [hs] at he
      exact iff_of_false (not_negated_of_error he) Bool.false_ne_true
    | true =>
      rw [hs] at he hn
      exact iff_of_true ⟨allAlike ls rs, he, hn⟩ rfl
  case ptr.ptr => exact not_negated_of_error rfl
  case array.array => exact not_negated_of_error rfl
  case vector.vector elem ls elem' rs =>
    cases elem <;> exact not_negated_of_error rfl

end

end Comparing

end BetLang
