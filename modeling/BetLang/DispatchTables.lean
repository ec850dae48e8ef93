import BetLang.DispatchLower
import Mathlib.Data.List.ReduceOption

/-! What `collect` registers, what the monomorphization state keeps, and where each lowered
body lands in the module. -/

namespace BetLang.Dispatch.Lower

open Registry

def concreteNamed (name : String) (f : FnDecl) : Prop := f.concrete = true ∧ f.name = name

def genericNamed (name : String) (f : FnDecl) : Prop := f.concrete = false ∧ f.name = name

/-- The id `collect` hands out to the concrete declaration at position `i`. -/
def fidOf (funcs : List FnDecl) (i : Nat) : Nat := (funcs.take i).countP FnDecl.concrete

structure Tables.Collected (prog : Program) (funcs : List FnDecl) (tb : Tables) : Prop where
  next : tb.nextMonoFid = funcs.countP FnDecl.concrete
  funcs_some : ∀ n s, tb.funcs.lookup n = some s → ∃ i f, IsLast (concreteNamed n) funcs i ∧
    funcs[i]? = some f ∧ s = collectFnSig prog f (fidOf funcs i)
  funcs_none : ∀ n, tb.funcs.lookup n = none → ∀ f ∈ funcs, ¬ concreteNamed n f
  generic_some : ∀ n i f, tb.genericFuncs.lookup n = some (i, f) →
    IsLast (genericNamed n) funcs i ∧ funcs[i]? = some f

theorem fidOf_append {funcs : List FnDecl} {i : Nat} (hi : i ≤ funcs.length) (g : FnDecl) :
    fidOf (funcs ++ [g]) i = fidOf funcs i := by
  rw [fidOf, List.take_append_of_le_length hi, fidOf]

theorem collect_append (prog : Program) (funcs : List FnDecl) (g : FnDecl) :
    collect prog (funcs ++ [g]) = collectFunc prog (collect prog funcs) g funcs.length := by
  simp [collect, List.zipIdx_append]

theorem collect_collected (prog : Program) (funcs : List FnDecl) :
    (collect prog funcs).Collected prog funcs := by
  induction funcs using List.reverseRecOn with
  | nil =>
    refine ⟨rfl, ?_, ?_, ?_⟩
    · rintro n s ⟨⟩
    · rintro n - f ⟨⟩
    · rintro n i f ⟨⟩
  | append_singleton funcs g ih =>
    rw [collect_append]
    cases hg : g.concrete with
    | true =>
      have hneg : ∀ n, ¬ genericNamed n g := fun n h => by
        rw [h.1] at hg
        cases hg
      simp only [collectFunc, hg, if_true]
      refine ⟨by simp [ih.next, hg], fun n s hs => ?_, fun n hn f hf => ?_, fun n i f hi => ?_⟩
      · rw [List.lookup_cons] at hs
        cases hn : n == g.name with
        | true =>
          rw [hn] at hs
          cases hs
          refine ⟨funcs.length, g, (isLast_append_of_pos ⟨hg, (beq_iff_eq.mp hn).symm⟩ _ _).mpr rfl,
            by simp, ?_⟩
          rw [ih.next, fidOf_append (Nat.le_refl _), fidOf, List.take_length]
        | false =>
          rw [hn] at hs
          obtain ⟨i, f, hl, hf, rfl⟩ := ih.funcs_some n s hs
          have hlt := hl.lt_length
          refine ⟨i, f, (isLast_append_of_neg ?_ _ _).mpr hl, ?_, ?_⟩
          · rintro ⟨-, rfl⟩
            simp at hn
          · rw [List.getElem?_append_left hlt, hf]
          · rw [fidOf_append (Nat.le_of_lt hlt)]
      · rw [List.lookup_cons] at hn
        cases hne : n == g.name with
        | true =>
          rw [hne] at hn
          cases hn
        | false =>
          rw [hne] at hn
          rcases List.mem_append.mp hf with hf | hf
          · exact ih.funcs_none n hn f hf
          · rw [List.mem_singleton.mp hf]
            rintro ⟨-, rfl⟩
            simp at hne
      · obtain ⟨hl, hf⟩ := ih.generic_some n i f hi
        refine ⟨(isLast_append_of_neg (hneg n) _ _).mpr hl, ?_⟩
        rw [List.getElem?_append_left (hl.lt_length), hf]
    | false =>
      have hneg : ∀ n, ¬ concreteNamed n g := fun n h => by
        rw [h.1] at hg
        cases hg
      simp only [collectFunc, hg, Bool.false_eq_true, if_false]
      refine ⟨by simp [ih.next, hg], fun n s hs => ?_, fun n hn f hf => ?_, fun n i f hi => ?_⟩
      · obtain ⟨i, f, hl, hf, rfl⟩ := ih.funcs_some n s hs
        have hlt := hl.lt_length
        refine ⟨i, f, (isLast_append_of_neg (hneg n) _ _).mpr hl, ?_, ?_⟩
        · rw [List.getElem?_append_left hlt, hf]
        · rw [fidOf_append (Nat.le_of_lt hlt)]
      · rcases List.mem_append.mp hf with hf | hf
        · exact ih.funcs_none n hn f hf
        · rw [List.mem_singleton.mp hf]
          exact hneg n
      · rw [List.lookup_cons] at hi
        cases hn : n == g.name with
        | true =>
          rw [hn] at hi
          cases hi
          exact ⟨(isLast_append_of_pos ⟨hg, (beq_iff_eq.mp hn).symm⟩ _ _).mpr rfl, by simp⟩
        | false =>
          rw [hn] at hi
          obtain ⟨hl, hf⟩ := ih.generic_some n i f hi
          refine ⟨(isLast_append_of_neg ?_ _ _).mpr hl, ?_⟩
          · rintro ⟨-, rfl⟩
            simp at hn
          · rw [List.getElem?_append_left (hl.lt_length), hf]

theorem mapM_of_all_isSome {types : List Typ} {g : Typ → Option Ty}
    (h : (types.map g).all Option.isSome = true) : types.mapM g = some (types.map g).reduceOption := by
  induction types with
  | nil => rfl
  | cons t ts ih =>
    simp only [List.map_cons, List.all_cons, Bool.and_eq_true] at h
    obtain ⟨a, ha⟩ := Option.isSome_iff_exists.mp h.1
    simp [List.mapM_cons, ha, ih h.2, List.reduceOption_cons_of_some]

theorem collectFnSig_ok {prog : Program} {f : FnDecl} {id : Nat}
    (h : (collectFnSig prog f id).ok = true) :
    declSig prog f [] = some ⟨(collectFnSig prog f id).params, (collectFnSig prog f id).rets⟩ := by
  simp only [collectFnSig, Bool.and_eq_true] at h
  obtain ⟨r, hr⟩ := Option.isSome_iff_exists.mp h.2
  simp [declSig, collectFnSig, mapM_of_all_isSome h.1, hr]

theorem length_filter_concrete (funcs : List FnDecl) :
    (funcs.zipIdx.filter fun p => p.1.concrete).length = funcs.countP FnDecl.concrete := by
  rw [← List.countP_eq_length_filter]
  conv_rhs => rw [← List.zipIdx_map_fst 0 funcs, List.countP_map]
  rfl

theorem filter_concrete_at {funcs : List FnDecl} {i : Nat} {f : FnDecl}
    (hf : funcs[i]? = some f) (hc : f.concrete = true) :
    (funcs.zipIdx.filter fun p => p.1.concrete)[fidOf funcs i]? = some (f, i) := by
  induction funcs using List.reverseRecOn with
  | nil => cases hf
  | append_singleton funcs g ih =>
    rw [List.zipIdx_append, List.filter_append]
    rcases Nat.lt_or_ge i funcs.length with hi | hi
    · rw [List.getElem?_append_left hi] at hf
      rw [fidOf_append (Nat.le_of_lt hi)]
      have hh := ih hf
      rw [List.getElem?_append_left (List.getElem?_eq_some_iff.mp hh).1, hh]
    · have hlt := (List.getElem?_eq_some_iff.mp hf).1
      simp only [List.length_append, List.length_singleton] at hlt
      have he : i = funcs.length := by omega
      subst he
      simp only [List.getElem?_concat_length, Option.some.injEq] at hf
      subst hf
      rw [fidOf_append (Nat.le_refl _), fidOf, List.take_length, ← length_filter_concrete]
      simp [hc]

end BetLang.Dispatch.Lower
