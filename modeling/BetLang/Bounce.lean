import BetLang.CollectTypes
import BetLang.EvalStmt
import BetLang.Sequencing

/-! `bounce` returns early with zeros before the error: those of the interpreter, those of lowering,
and the zero values of the language. -/

namespace BetLang.Bounce

open Collect (Typ RetType Ctx mapType namedType scalarKind plainNamed)
open Eval (Evaluator State Expr Flow execBounce defaultValue)
open Interp (Value)
open Ir (Ty Const Operand Place Proj)

def isYikes (c : Ctx) : Ty → Bool
  | .struct sid => some sid == c.yikesSid
  | _ => false

def operandPlace : Operand → Option Place
  | .copy place | .move place => some place
  | .const _ => none

def extend (place : Place) (p : Proj) : Place := .mk place.root (place.proj ++ [p])

def zeroOperand (ty : Ty) : Except String Operand :=
  match ty with
  | .int _ _ => .ok (.const (.int 0 ty))
  | .f32 | .f64 => .ok (.const (.float 0 ty))
  | .bool => .ok (.const (.bool false))
  | .str => .ok (.const (.str ""))
  | _ => .error "`bounce` cannot synthesize a zero value"

/-- The branch on `present`, and what its first block returns. -/
structure Lowered where
  present : Operand
  rets : List Operand

/-- `rets` are the results of the function around, `op` the operand of the statement. -/
def lowerBounce (c : Ctx) (rets : List Ty) (op : Operand) (ty : Ty) : Except String Lowered :=
  if isYikes c ty then
    if rets.getLast?.map (isYikes c) = some true then
      match operandPlace op with
      | some place => do
        let zeros ← rets.dropLast.mapM zeroOperand
        return ⟨.copy (extend place (.field 0)), zeros ++ [op]⟩
      | none => .error "`bounce` needs an addressable operand"
    else .error "`bounce` requires the enclosing function to return a trailing `yikes`"
  else .error "`bounce` expects a `yikes` value"

/-- The zero value of a type. A drip has the zeros of its fields; a sum has none. -/
inductive IsZero (c : Ctx) : Ty → Value → Prop where
  | int (width : Ir.IntWidth) (signed : Bool) : IsZero c (.int width signed) (.word 0)
  | f32 : IsZero c .f32 (.float 0)
  | f64 : IsZero c .f64 (.float 0)
  | bool : IsZero c .bool (.bool false)
  | str : IsZero c .str (.str "")
  | tag (elem : Ty) : IsZero c (.tag elem) .ghosted
  | ref (elem : Ty) : IsZero c (.ref elem) .ghosted
  | yikes (sid : Nat) : c.yikesSid = some sid → IsZero c (.struct sid) .ghosted
  | drip (sid : Nat) (d : Ir.StructDef) (name : String) (value : String → Value) :
    c.structDefs[sid]? = some d → c.yikesSid ≠ some sid →
      (∀ f ∈ d.fields, IsZero c f.ty (value f.name)) →
      IsZero c (.struct sid) (.struct name (d.fields.map fun f => (f.name, value f.name)))
  | array (elem : Ty) (n : Nat) (v : Value) :
    IsZero c elem v → IsZero c (.array elem n) (.array (List.replicate n v))
  | slice (elem : Ty) : IsZero c (.slice elem) (.array [])
  | fn (params rets : List Ty) : IsZero c (.fnPtr params rets) .ghosted
  | map (k v : Ty) : IsZero c (.map k v) .ghosted
  | vec (elem : Ty) : IsZero c (.vec elem) .ghosted
  | rng : IsZero c .rng .ghosted
  | rawPtr : IsZero c .rawPtr (.word 0)
  | crib (elem : Ty) : IsZero c (.crib elem) .ghosted

/-- A constant of a type is a value of the interpreter. -/
inductive Stands : Const → Ty → Value → Prop where
  | int (n : Int) (width : Ir.IntWidth) (signed : Bool) :
    Stands (.int n (.int width signed)) (.int width signed) (.word (BitVec.ofInt 64 n))
  | f32 (bits : BitVec 64) : Stands (.float bits .f32) .f32 (.float bits)
  | f64 (bits : BitVec 64) : Stands (.float bits .f64) .f64 (.float bits)
  | bool (b : Bool) : Stands (.bool b) .bool (.bool b)
  | str (s : String) : Stands (.str s) .str (.str s)

/-- Both ways to return from a `bounce` give the same zeros of the results `tys`, and behind them
the error. -/
def ReturnsZeros {W : Type} (c : Ctx) (tys : List Ty) (op : Operand) (ty : Ty)
    (run : Traced.Result (State W) Eval.Write Eval.Halt Flow) (v : Value) : Prop :=
  ∃ zeros : List (Const × Value), ∃ present,
    lowerBounce c tys op ty = .ok ⟨present, (zeros.map fun z => .const z.1) ++ [op]⟩ ∧
      run.outcome = .ok (.return_ (zeros.map (·.2) ++ [v])) ∧
      List.Forall₂ (fun t z => IsZero c t z.2 ∧ Stands z.1 t z.2) tys.dropLast zeros

/-- The scalars that both sides make zeros of. -/
inductive Scalar where
  | int | float | bool | str

def Scalar.value : Scalar → Value
  | .int => .word 0
  | .float => .float 0
  | .bool => .bool false
  | .str => .str ""

def Scalar.const (ty : Ty) : Scalar → Const
  | .int => .int 0 ty
  | .float => .float 0 ty
  | .bool => .bool false
  | .str => .str ""

/-- Every name of a scalar but `uint`. -/
def named (name : String) : Option Scalar :=
  if name ∈ ["i8", "i16", "i32", "i64", "int", "u8", "u16", "u32", "u64"] then some .int
  else if name ∈ ["f32", "f64", "float"] then some .float
  else if name = "bool" then some .bool
  else if name = "str" then some .str
  else none

def kind : Ty → Option Scalar
  | .int _ _ => some .int
  | .f32 | .f64 => some .float
  | .bool => some .bool
  | .str => some .str
  | _ => none

/-- The name of a scalar, and where that is the name of a type parameter, one that stands for such
a scalar. -/
def Written (subst : List (String × Ty)) (t : Typ) : Prop :=
  ∃ name s, t = .named name [] ∧ named name = some s ∧
    ∀ ty, subst.lookup name = some ty → kind ty = some s

theorem named_lit {name : String} {s : Scalar} (h : named name = some s) :
    (∃ ty, scalarKind name = some ty ∧ kind ty = some s) ∧ name ≠ "yikes" ∧
      ∀ generics, defaultValue (.named name generics) = s.value := by
  by_cases hi : name ∈ ["i8", "i16", "i32", "i64", "int", "u8", "u16", "u32", "u64"]
  · rw [named, if_pos hi] at h
    cases h
    simp only [List.mem_cons, List.not_mem_nil, or_false] at hi
    rcases hi with rfl | rfl | rfl | rfl | rfl | rfl | rfl | rfl | rfl <;>
      exact ⟨⟨_, rfl, rfl⟩, by decide, fun _ => rfl⟩
  by_cases hf : name ∈ ["f32", "f64", "float"]
  · rw [named, if_neg hi, if_pos hf] at h
    cases h
    simp only [List.mem_cons, List.not_mem_nil, or_false] at hf
    rcases hf with rfl | rfl | rfl <;> exact ⟨⟨_, rfl, rfl⟩, by decide, fun _ => rfl⟩
  rw [named, if_neg hi, if_neg hf] at h
  by_cases hb : name = "bool"
  · subst hb
    cases h
    exact ⟨⟨_, rfl, rfl⟩, by decide, fun _ => rfl⟩
  by_cases hs : name = "str"
  · subst hs
    cases h
    exact ⟨⟨_, rfl, rfl⟩, by decide, fun _ => rfl⟩
  rw [if_neg hb, if_neg hs] at h
  cases h

theorem intTy_none {name : String}
    (h : name ∉ ["i8", "i16", "i32", "i64", "int", "u8", "u16", "u32", "u64"]) :
    Interp.intTy name = none := by
  simp only [List.mem_cons, List.not_mem_nil, or_false, not_or] at h
  simp [Interp.intTy, h]

theorem defaultValue_unnamed {name : String} (generics : List Typ) (h : named name = none) :
    defaultValue (.named name generics) = .ghosted := by
  by_cases hi : name ∈ ["i8", "i16", "i32", "i64", "int", "u8", "u16", "u32", "u64"]
  · rw [named, if_pos hi] at h
    cases h
  by_cases hf : name ∈ ["f32", "f64", "float"]
  · rw [named, if_neg hi, if_pos hf] at h
    cases h
  by_cases hb : name = "bool"
  · rw [named, if_neg hi, if_neg hf, if_pos hb] at h
    cases h
  by_cases hs : name = "str"
  · rw [named, if_neg hi, if_neg hf, if_neg hb, if_pos hs] at h
    cases h
  simp only [List.mem_cons, List.not_mem_nil, or_false] at hf
  simp [defaultValue, intTy_none hi, hf, hb, hs]

theorem Scalar.value_inj {s s' : Scalar} (h : s.value = s'.value) : s = s' := by
  cases s <;> cases s' <;> first | rfl | cases h

theorem zeroOperand_ok {ty : Ty} {op : Operand} :
    zeroOperand ty = .ok op ↔ ∃ s, kind ty = some s ∧ op = .const (s.const ty) := by
  constructor
  · intro h
    cases ty <;> cases h <;> exact ⟨_, rfl, rfl⟩
  · rintro ⟨s, hs, rfl⟩
    cases ty <;> cases hs <;> rfl

theorem isZero_kind {c : Ctx} {ty : Ty} {s : Scalar} (hs : kind ty = some s) {v : Value} :
    IsZero c ty v ↔ v = s.value := by
  constructor
  · intro h
    cases h <;> cases hs <;> rfl
  · rintro rfl
    cases ty <;> cases hs <;> constructor

theorem stands_kind {ty : Ty} {s : Scalar} (hs : kind ty = some s) :
    Stands (s.const ty) ty s.value := by
  cases ty <;> cases hs <;> constructor

section Mapped

variable {fuel : Nat} {c c' : Ctx} {t : Typ} {ty : Ty}

theorem namedType_of_subst {name : String} (hl : c.subst.lookup name = some ty) :
    (namedType name).run c = (.ok ty, c) := by
  rw [namedType]
  refine Stateful.bind_ok.mpr ⟨c, c, rfl, ?_⟩
  rw [hl]
  rfl

theorem namedType_of_scalar {name : String} (hl : c.subst.lookup name = none)
    (hy : name ≠ "yikes") (hk : scalarKind name = some ty) :
    (namedType name).run c = (.ok ty, c) := by
  have hp : plainNamed c name = some ty := by
    rw [plainNamed, hk]
  rw [namedType]
  refine Stateful.bind_ok.mpr ⟨c, c, rfl, ?_⟩
  rw [hl]
  dsimp only
  rw [if_neg hy, hp]
  rfl

theorem mapType_plain (fuel : Nat) (name : String) :
    mapType (fuel + 1) (.named name []) = namedType name := rfl

/-- A type with arguments is never mapped to a scalar. -/
theorem kind_generic {name : String} {generics : List Typ} (hg : generics ≠ [])
    (h : (mapType fuel (.named name generics)).run c = (.ok ty, c')) : kind ty = none := by
  cases fuel with
  | zero => cases h
  | succ fuel =>
    rw [mapType, if_neg (by simpa using hg)] at h
    by_cases hs : name = "stash"
    · rw [if_pos hs] at h
      cases generics with
      | nil => exact absurd rfl hg
      | cons k rest =>
        cases rest with
        | nil => cases h
        | cons v rest =>
          cases rest with
          | cons => cases h
          | nil =>
            obtain ⟨_, _, _, h⟩ := Stateful.bind_ok.mp h
            obtain ⟨_, _, _, h⟩ := Stateful.bind_ok.mp h
            cases h
            rfl
    rw [if_neg hs] at h
    by_cases hv : name = "vec"
    · rw [if_pos hv] at h
      cases generics with
      | nil => exact absurd rfl hg
      | cons e rest =>
        cases rest with
        | cons => cases h
        | nil =>
          obtain ⟨_, _, _, h⟩ := Stateful.bind_ok.mp h
          cases h
          rfl
    rw [if_neg hv] at h
    obtain ⟨_, _, _, h⟩ := Stateful.bind_ok.mp h
    cases h
    rfl

/-- What the two sides make of one result type. -/
theorem written_iff (h : (mapType fuel t).run c = (.ok ty, c')) :
    (∃ s, kind ty = some s ∧ defaultValue t = s.value) ↔ Written c.subst t := by
  constructor
  · rintro ⟨s, hs, hv⟩
    have hne : s.value ≠ .ghosted := by cases s <;> simp [Scalar.value, Value.word]
    cases t with
    | named name generics =>
      by_cases hg : generics = []
      · subst hg
        cases hn : named name with
        | none => exact absurd (hv.symm.trans (defaultValue_unnamed [] hn)) hne
        | some s' =>
          have hs' : s' = s :=
            Scalar.value_inj (((named_lit hn).2.2 []).symm.trans hv)
          subst hs'
          refine ⟨name, s', rfl, hn, fun ty' hl => ?_⟩
          cases fuel with
          | zero => cases h
          | succ fuel =>
            rw [mapType_plain, namedType_of_subst hl] at h
            cases h
            exact hs
      · rw [kind_generic hg h] at hs
        cases hs
    | _ => exact absurd hv.symm hne
  · rintro ⟨name, s, rfl, hn, hsub⟩
    obtain ⟨⟨lit, hlit, hkind⟩, hy, hv⟩ := named_lit hn
    cases fuel with
    | zero => cases h
    | succ fuel =>
      rw [mapType_plain] at h
      cases hl : c.subst.lookup name with
      | none =>
        rw [namedType_of_scalar hl hy hlit] at h
        cases h
        exact ⟨s, hkind, hv []⟩
      | some ty' =>
        rw [namedType_of_subst hl] at h
        cases h
        exact ⟨s, hsub _ hl, hv []⟩

end Mapped

section Signature

variable {fuel : Nat}

/-- A result type is mapped under the substitution of the function around. -/
def Mapped (fuel : Nat) (subst : List (String × Ty)) (t : Typ) (ty : Ty) : Prop :=
  ∃ c c', c.subst = subst ∧ (mapType fuel t).run c = (.ok ty, c')

theorem mapM_mapped {ts : List Typ} {tys : List Ty} {c c' : Ctx}
    (h : (ts.mapM (mapType fuel)).run c = (.ok tys, c')) :
    List.Forall₂ (Mapped fuel c.subst) ts tys := by
  induction ts generalizing tys c with
  | nil =>
    cases h
    exact .nil
  | cons t ts ih =>
    rw [List.mapM_cons] at h
    obtain ⟨ty, c₁, ht, h⟩ := Stateful.bind_ok.mp h
    obtain ⟨rest, c₂, hrest, h⟩ := Stateful.bind_ok.mp h
    cases h
    have hsub : c₁.subst = c.subst := by
      have := (Collect.invariant_subst c.subst).keeps_mapType fuel t c rfl
      rwa [ht] at this
    have hih := ih hrest
    rw [hsub] at hih
    exact .cons ⟨c, c₁, rfl, ht⟩ hih

theorem retTypes_mapped {ret : RetType} {tys : List Ty} {c c' : Ctx}
    (h : (Collect.retTypes fuel ret).run c = (.ok tys, c')) :
    List.Forall₂ (Mapped fuel c.subst) (Eval.retTypes ret) tys := by
  cases ret with
  | none =>
    cases h
    exact .nil
  | single t =>
    obtain ⟨ty, c₁, ht, h⟩ := Stateful.bind_ok.mp h
    cases h
    exact .cons ⟨_, _, rfl, ht⟩ .nil
  | multi ts => exact mapM_mapped h

theorem forall₂_dropLast {α β : Type} {r : α → β → Prop} {as : List α} {bs : List β}
    (h : List.Forall₂ r as bs) : List.Forall₂ r as.dropLast bs.dropLast := by
  have hlen := h.length_eq
  simpa only [List.dropLast_eq_take, hlen] using List.forall₂_take (bs.length - 1) h

/-- The zeros before the error, on both sides. -/
theorem zeros_iff {subst : List (String × Ty)} {c : Ctx} {ts : List Typ} {tys : List Ty}
    (h : List.Forall₂ (Mapped fuel subst) ts tys) :
    (∃ zeros : List (Const × Value),
      tys.mapM zeroOperand = .ok (zeros.map fun z => .const z.1) ∧
        ts.map defaultValue = zeros.map (·.2) ∧
        List.Forall₂ (fun t z => IsZero c t z.2 ∧ Stands z.1 t z.2) tys zeros) ↔
      ∀ t ∈ ts, Written subst t := by
  induction h with
  | nil =>
    constructor
    · intro _ t ht
      cases ht
    · intro _
      exact ⟨[], rfl, rfl, .nil⟩
  | @cons t ty ts tys hm hrest ih =>
    obtain ⟨c₁, c₂, hsub, hrun⟩ := hm
    have hw := written_iff hrun
    rw [hsub] at hw
    rw [List.forall_mem_cons, ← hw, ← ih]
    constructor
    · rintro ⟨zeros, hops, hvals, hzero⟩
      cases hzero with
      | @cons _ z _ zs hz hzs =>
        cases mapM_ok_iff.mp hops with
        | cons hop hops =>
          obtain ⟨s, hs, -⟩ := zeroOperand_ok.mp hop
          obtain ⟨hv, hvs⟩ := List.cons.inj hvals
          exact ⟨⟨s, hs, hv.trans ((isZero_kind hs).mp hz.1)⟩, zs, mapM_ok_iff.mpr hops, hvs, hzs⟩
    · rintro ⟨⟨s, hs, hv⟩, zs, hops, hvals, hzs⟩
      refine ⟨(s.const ty, s.value) :: zs, ?_, ?_, .cons ⟨(isZero_kind hs).mpr rfl, stands_kind hs⟩ hzs⟩
      · exact mapM_ok_iff.mpr (.cons (zeroOperand_ok.mpr ⟨s, hs, rfl⟩) (mapM_ok_iff.mp hops))
      · rw [List.map_cons, hv, hvals, List.map_cons]

end Signature

section Statement

variable {W : Type} (ev : Evaluator W) (e : Expr)

theorem execBounce_error {s s' : State W} {ws : List Eval.Write} {v : Value} (hv : v ≠ .ghosted)
    (he : (ev.expr e).run s = ⟨.ok v, s', ws⟩) :
    ((execBounce ev e).run s).outcome = .ok (.return_
      ((Eval.retTypes (s'.retStack.headD .none)).dropLast.map defaultValue ++ [v])) := by
  rw [execBounce, Traced.run_bind_ok he]
  cases v <;> first | rfl | exact absurd rfl hv

end Statement

/-- In a function with these results, the next expression has failed. -/
def failed (ret : RetType) : State Unit where
  store :=
    { env := [[]], callers := [], globals := [], arenas := [], heap := [], returned := [] }
  retStack := [ret]
  depth := 1
  out := ""
  world := ()
  budget := 0

def failing : Evaluator Unit where
  expr _ := pure (.yikes "no")
  block _ := pure .normal
  vibin _ _ := pure .normal
  zeroDefault _ _ := pure .ghosted

/-- Lowering once the error type has been used. -/
def started : Ctx := (Ctx.new fun _ => 0).internYikes

def results (name : String) : RetType := .multi [.named name [], .named "yikes" []]

def errorOperand : Operand := .copy (.local 0)

theorem results_mapped (name : String) {ty : Ty} (hk : scalarKind name = some ty)
    (hy : name ≠ "yikes") :
    (Collect.retTypes 1 (results name)).run started = (.ok [ty, .struct 0], started) := by
  have hn : (mapType 1 (.named name [])).run started = (.ok ty, started) :=
    namedType_of_scalar rfl hy hk
  refine Stateful.bind_ok.mpr ⟨ty, started, hn, ?_⟩
  rfl

end BetLang.Bounce
