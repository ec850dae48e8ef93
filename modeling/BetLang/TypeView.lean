import BetLang.CodegenPlace
import BetLang.IndexSoundness

/-! The two walks over a projection chain agree on its type exactly when no projection is
applied to a `soa` container, and signedness follows the type the second walk resolves. -/

namespace BetLang.Codegen

open Ir
open Llvm (Outcome)

def isSoa : Ty → Bool
  | .soa _ => true
  | _ => false

/-- The variant payload or field one `Field` projection reaches outside `soa` containers. -/
def fieldStep (m : Module) (pending : Option (Nat × Nat)) (ty : Ty) (i : Nat) : Option Ty :=
  match pending with
  | some (sid, v) => do
    let d ← m.sums[sid]?
    let variant ← d.variants[v]?
    variant.payload[i]?
  | none =>
    match ty with
    | .struct sid => do
      let d ← m.structs[sid]?
      let f ← d.fields[i]?
      return f.ty
    | .tuple elems => elems[i]?
    | _ => none

/-- One projection outside `soa` containers: the pending variant and type after it. -/
def projStep (m : Module) (pending : Option (Nat × Nat)) (ty : Ty) :
    Proj → Option (Option (Nat × Nat) × Ty)
  | .field i => (fieldStep m pending ty i).map fun t => (none, t)
  | .deref =>
    match ty with
    | .ref e => some (pending, e)
    | _ => none
  | .index _ =>
    match ty with
    | .array e _ => some (pending, e)
    | .slice e => some (pending, e)
    | _ => none
  | .downcast v =>
    match ty with
    | .sum sid => some (some (sid, v), ty)
    | _ => none

/-- No projection of the chain is applied to a `soa` container. -/
def soaFree (m : Module) (pending : Option (Nat × Nat)) (ty : Ty) : List Proj → Bool
  | [] => true
  | p :: rest =>
    !isSoa ty &&
      match projStep m pending ty p with
      | some (pending', ty') => soaFree m pending' ty' rest
      | none => false

def placeSoaFree (m : Module) (func : Func) (place : Place) : Bool :=
  match func.locals[place.root]? with
  | some d => soaFree m none d.ty place.proj
  | none => false

/-- A downcast is pending only at the sum it was applied to. -/
def PendingAt (pending : Option (Nat × Nat)) (ty : Ty) : Prop :=
  pending = none ∨ ∃ sid, ty = .sum sid

theorem walkTy_cons (m : Module) (pending : Option (Nat × Nat)) (ty : Ty) (p : Proj)
    (rest : List Proj) {t : Ty} :
    walkTy m pending ty (p :: rest) = .ok t ↔
      ∃ pending' ty', projStep m pending ty p = some (pending', ty') ∧
        walkTy m pending' ty' rest = .ok t := by
  cases p with
  | field i =>
    simp only [walkTy, projStep, fieldStep]
    cases pending with
    | some sv =>
      obtain ⟨sid, v⟩ := sv
      cases hd : m.sums[sid]? with
      | none => simp [hd]
      | some d =>
        cases hv : d.variants[v]? with
        | none => simp [hd, hv]
        | some variant => cases hp : variant.payload[i]? <;> simp [hd, hv, hp]
    | none =>
      cases ty with
      | struct sid =>
        cases hd : m.structs[sid]? with
        | none => simp [hd]
        | some d => cases hf : d.fields[i]? <;> simp [hd, hf]
      | tuple elems => cases he : elems[i]? <;> simp [he]
      | _ => simp
  | deref => cases ty <;> simp [walkTy, projStep]
  | index op => cases ty <;> simp [walkTy, projStep]
  | downcast v => cases ty <;> simp [walkTy, projStep]

theorem pendingAt_step {m : Module} {pending pending' : Option (Nat × Nat)} {ty ty' : Ty} {p : Proj}
    (hp : PendingAt pending ty) (h : projStep m pending ty p = some (pending', ty')) :
    PendingAt pending' ty' := by
  cases p with
  | field i =>
    simp only [projStep, Option.map_eq_some_iff, Prod.mk.injEq] at h
    obtain ⟨_, _, rfl, _⟩ := h
    exact Or.inl rfl
  | deref =>
    rcases hp with rfl | ⟨sid, rfl⟩
    · cases ty <;> simp [projStep] at h
      exact Or.inl h.1.symm
    · simp [projStep] at h
  | index op =>
    rcases hp with rfl | ⟨sid, rfl⟩
    · cases ty <;> simp [projStep] at h <;> exact Or.inl h.1.symm
    · simp [projStep] at h
  | downcast v =>
    cases ty <;> simp [projStep] at h
    exact Or.inr ⟨_, h.2.symm⟩

theorem payloadField_ty {cx : Cx} {sid v i : Nat} {ptr r : Run (BitVec 64)} {t : Ty}
    (h : payloadField cx sid v i ptr = .ok (r, t)) {ty : Ty} :
    fieldStep cx.m (some (sid, v)) ty i = some t := by
  obtain ⟨payload, hpay, h⟩ := except_bind_ok h
  obtain ⟨vps, _, h⟩ := except_bind_ok h
  obtain ⟨q, _, h⟩ := except_bind_ok h
  unfold variantPayload at hpay
  cases hd : cx.m.sums[sid]? with
  | none => simp [hd] at hpay
  | some d =>
    cases hv : d.variants[v]? with
    | none => simp [hd, hv] at hpay
    | some variant =>
      simp only [hd, hv, Except.ok.injEq] at hpay
      subst hpay
      split at h
      · rename_i t' ht
        cases h
        simp [fieldStep, hd, hv, ht]
      · cases h

theorem aggregateField_ty {cx : Cx} {ty t : Ty} {i : Nat} {fields : List Llvm.Ty}
    (hs : isSoa ty = false) (h : aggregateField cx ty i = .ok (fields, t)) :
    fieldStep cx.m none ty i = some t := by
  unfold aggregateField at h
  split at h
  · split at h
    · cases h
    · rename_i d hd
      split at h
      · cases h
      · rename_i f hf
        obtain ⟨_, _, h⟩ := except_bind_ok h
        cases h
        simp [fieldStep, hd, hf]
  · split at h
    · cases h
    · rename_i t' ht
      obtain ⟨_, _, h⟩ := except_bind_ok h
      cases h
      simp [fieldStep, ht]
  · simp [isSoa] at hs
  · cases h

/-- Outside `soa` containers one step of the address walk is one step of the type walk. -/
theorem walkPtr_cons {cx : Cx} {mode : IndexMode} {pending : Option (Nat × Nat)}
    {ptr r : Run (BitVec 64)} {ty t : Ty} {p : Proj} {rest : List Proj} (hs : isSoa ty = false)
    (h : walkPtr cx mode pending ptr ty (p :: rest) = .ok (r, t)) :
    ∃ pending' ty' ptr', projStep cx.m pending ty p = some (pending', ty') ∧
      walkPtr cx mode pending' ptr' ty' rest = .ok (r, t) := by
  cases p with
  | deref =>
    unfold walkPtr at h
    split at h
    · exact ⟨_, _, _, rfl, h⟩
    · cases h
  | field i =>
    unfold walkPtr at h
    split at h
    · obtain ⟨⟨q, t'⟩, hq, h⟩ := except_bind_ok h
      exact ⟨none, t', q, by simp [projStep, payloadField_ty hq], h⟩
    · obtain ⟨⟨fields, t'⟩, hf, h⟩ := except_bind_ok h
      obtain ⟨q, _, h⟩ := except_bind_ok h
      exact ⟨none, t', q, by simp [projStep, aggregateField_ty hs hf], h⟩
  | downcast v =>
    unfold walkPtr at h
    split at h
    · split at h
      · obtain ⟨fields, _, h⟩ := except_bind_ok h
        obtain ⟨q, _, h⟩ := except_bind_ok h
        exact ⟨_, _, _, rfl, h⟩
      · cases h
    · cases h
  | index op =>
    unfold walkPtr at h
    obtain ⟨idx, _, h⟩ := except_bind_ok h
    split at h
    · obtain ⟨q, _, h⟩ := except_bind_ok h
      exact ⟨_, _, _, rfl, h⟩
    · obtain ⟨q, _, h⟩ := except_bind_ok h
      exact ⟨_, _, _, rfl, h⟩
    · simp [isSoa] at hs
    · cases h

theorem walkTy_eq_iff_soaFree {cx : Cx} {mode : IndexMode} {proj : List Proj}
    {pending : Option (Nat × Nat)} {ptr r : Run (BitVec 64)} {ty t : Ty}
    (hp : PendingAt pending ty) (h : walkPtr cx mode pending ptr ty proj = .ok (r, t)) :
    walkTy cx.m pending ty proj = .ok t ↔ soaFree cx.m pending ty proj = true := by
  induction proj generalizing pending ptr ty with
  | nil =>
    cases h
    simp [walkTy, soaFree]
  | cons p rest ih =>
    rw [walkTy_cons]
    cases hs : isSoa ty with
    | true =>
      have hnone : projStep cx.m pending ty p = none := by
        rcases hp with rfl | ⟨sid, rfl⟩
        · cases ty <;> simp [isSoa] at hs
          cases p <;> simp [projStep, fieldStep]
        · simp [isSoa] at hs
      simp [soaFree, hs, hnone]
    | false =>
      obtain ⟨pending', ty', ptr', hstep, hrest⟩ := walkPtr_cons hs h
      have hh := ih (pendingAt_step hp hstep) hrest
      simp [soaFree, hs, hstep, hh]

/-- Where the type walk succeeds it finds the type the address walk returns. -/
theorem walkTy_unique {cx : Cx} {mode : IndexMode} {proj : List Proj}
    {pending : Option (Nat × Nat)} {ptr r : Run (BitVec 64)} {ty t t' : Ty}
    (hp : PendingAt pending ty) (h : walkPtr cx mode pending ptr ty proj = .ok (r, t))
    (ht : walkTy cx.m pending ty proj = .ok t') : t' = t := by
  induction proj generalizing pending ptr ty with
  | nil =>
    cases h
    cases ht
    rfl
  | cons p rest ih =>
    obtain ⟨pending', ty', hstep, hrest⟩ := (walkTy_cons _ _ _ _ _).mp ht
    cases hs : isSoa ty with
    | true =>
      rcases hp with rfl | ⟨sid, rfl⟩
      · cases ty <;> simp [isSoa] at hs
        cases p <;> simp [projStep, fieldStep] at hstep
      · simp [isSoa] at hs
    | false =>
      obtain ⟨pending₁, ty₁, ptr₁, hstep₁, hrest₁⟩ := walkPtr_cons hs h
      rw [hstep] at hstep₁
      cases hstep₁
      exact ih (pendingAt_step hp hstep) hrest₁ hrest

/-- An accepted place has one type in both views, or none in the second. -/
theorem placeTy_cases {cx : Cx} {place : Place} {mode : IndexMode} {r : Run (BitVec 64)} {t : Ty}
    (h : placePtr cx place mode = .ok (r, t)) :
    (placeSoaFree cx.m cx.func place = true ∧ placeTy cx.m cx.func place = .ok t) ∨
      (placeSoaFree cx.m cx.func place = false ∧ ∃ msg, placeTy cx.m cx.func place = .error msg) := by
  unfold placePtr at h
  split at h
  · obtain ⟨ty, hty, h⟩ := except_bind_ok h
    unfold Cx.localTy at hty
    unfold placeTy placeSoaFree
    cases hd : cx.func.locals[place.root]? with
    | none =>
      rw [hd] at hty
      cases hty
    | some d =>
      rw [hd] at hty
      cases hty
      have hiff := walkTy_eq_iff_soaFree (Or.inl rfl) h
      cases hs : soaFree cx.m none d.ty place.proj with
      | true => exact Or.inl ⟨hs, hiff.mpr hs⟩
      | false =>
        refine Or.inr ⟨hs, ?_⟩
        cases hw : walkTy cx.m none d.ty place.proj with
        | error msg => exact ⟨msg, hw⟩
        | ok t' =>
          rw [walkTy_unique (Or.inl rfl) h hw] at hw
          rw [hiff.mp hw] at hs
          cases hs
  · cases h

/-- The type at which codegen loads an operand, where the IR declares one. -/
def DeclaredTy (cx : Cx) : Operand → Ty → Prop
  | .const (.int _ ty), t => t = ty
  | .const (.float _ ty), t => t = ty
  | .const _, _ => False
  | .copy place, t => ∃ r, placePtr cx place .access = .ok (r, t)
  | .move place, t => ∃ r, placePtr cx place .access = .ok (r, t)

def operandSoaFree (m : Module) (func : Func) : Operand → Bool
  | .const _ => true
  | .copy place => placeSoaFree m func place
  | .move place => placeSoaFree m func place

theorem operandTy_cases {cx : Cx} {op : Operand} {t : Ty} (h : DeclaredTy cx op t) :
    (operandSoaFree cx.m cx.func op = true ∧ operandTy cx.m cx.func op = .ok (some t)) ∨
      (operandSoaFree cx.m cx.func op = false ∧
        ∃ msg, operandTy cx.m cx.func op = .error msg) := by
  have hplace : ∀ place, (∃ r, placePtr cx place .access = .ok (r, t)) →
      (placeSoaFree cx.m cx.func place = true ∧
        (placeTy cx.m cx.func place).map some = .ok (some t)) ∨
      (placeSoaFree cx.m cx.func place = false ∧
        ∃ msg, (placeTy cx.m cx.func place).map some = .error msg) := by
    rintro place ⟨r, hr⟩
    rcases placeTy_cases hr with ⟨hs, ht⟩ | ⟨hs, msg, ht⟩
    · exact Or.inl ⟨hs, by rw [ht]; rfl⟩
    · exact Or.inr ⟨hs, msg, by rw [ht]; rfl⟩
  cases op with
  | const c =>
    cases c with
    | int v ty => cases h; exact Or.inl ⟨rfl, rfl⟩
    | float v ty => cases h; exact Or.inl ⟨rfl, rfl⟩
    | _ => cases h
  | copy place => exact hplace place h
  | move place => exact hplace place h

/-- Operands of one declared signedness are seen with it once one of them is resolved. -/
theorem firstSigned_eq {cx : Cx} {sign? : Ty → Option Bool} {signed : Bool} {ops : List Operand}
    (h : ∀ op ∈ ops, ∃ t, DeclaredTy cx op t ∧ sign? t = some signed) :
    firstSigned cx.m cx.func sign? ops =
      (signed && ops.any fun op => operandSoaFree cx.m cx.func op) := by
  induction ops with
  | nil => simp [firstSigned]
  | cons op ops ih =>
    obtain ⟨t, ht, hsign⟩ := h op (by simp)
    have hh := ih fun o ho => h o (by simp [ho])
    rcases operandTy_cases ht with ⟨hs, hty⟩ | ⟨hs, msg, hty⟩
    · simp [firstSigned, hty, hsign, hs]
    · simp [firstSigned, hty, hh, hs]

theorem pairSigned_iff {cx : Cx} {sign? : Ty → Option Bool} {signed : Bool} {a b : Operand} {t : Ty}
    (ht : sign? t = some signed) (ha : DeclaredTy cx a t) (hb : DeclaredTy cx b t) :
    firstSigned cx.m cx.func sign? [a, b] = signed ↔
      signed = false ∨ operandSoaFree cx.m cx.func a = true ∨
        operandSoaFree cx.m cx.func b = true := by
  have hops : ∀ op ∈ [a, b], ∃ t, DeclaredTy cx op t ∧ sign? t = some signed := by
    intro op hop
    simp only [List.mem_cons, List.not_mem_nil, or_false] at hop
    rcases hop with rfl | rfl
    · exact ⟨t, ha, ht⟩
    · exact ⟨t, hb, ht⟩
  rw [firstSigned_eq hops]
  cases signed <;> simp

theorem castSigned_eq_iff {cx : Cx} {op : Operand} {w : IntWidth} {signed : Bool}
    (h : DeclaredTy cx op (.int w signed)) :
    castSigned cx.m cx.func op = .ok signed ↔ operandSoaFree cx.m cx.func op = true := by
  rcases operandTy_cases h with ⟨hs, hty⟩ | ⟨hs, msg, hty⟩
  · rw [hs]
    unfold castSigned
    rw [hty]
    cases signed <;> simp [intSign?] <;> rfl
  · rw [hs]
    unfold castSigned
    rw [hty]
    simp
    rintro ⟨⟩

/-- The two type views of an accepted place agree exactly when none of its projections is
applied to a `soa` container; an integer operation, a vector operation and a conversion then
see the declared signedness of their operands exactly when it is unsigned or an operand is
resolved that way. -/
theorem type_views_agree_iff (cx : Cx) :
    (∀ place mode r t, placePtr cx place mode = .ok (r, t) →
      (placeTy cx.m cx.func place = .ok t ↔ placeSoaFree cx.m cx.func place = true)) ∧
    (∀ a b w signed, DeclaredTy cx a (.int w signed) → DeclaredTy cx b (.int w signed) →
      (intSigned cx.m cx.func a b = signed ↔
        signed = false ∨ operandSoaFree cx.m cx.func a = true ∨
          operandSoaFree cx.m cx.func b = true)) ∧
    (∀ a b w signed lanes, DeclaredTy cx a (.simd (.int w signed) lanes) →
      DeclaredTy cx b (.simd (.int w signed) lanes) →
      (simdSigned cx.m cx.func a b = signed ↔
        signed = false ∨ operandSoaFree cx.m cx.func a = true ∨
          operandSoaFree cx.m cx.func b = true)) ∧
    (∀ op w signed, DeclaredTy cx op (.int w signed) →
      (castSigned cx.m cx.func op = .ok signed ↔ operandSoaFree cx.m cx.func op = true)) := by
  refine ⟨?_, fun a b w signed ha hb => pairSigned_iff rfl ha hb,
    fun a b w signed lanes ha hb => pairSigned_iff rfl ha hb,
    fun op w signed h => castSigned_eq_iff h⟩
  intro place mode r t h
  rcases placeTy_cases h with ⟨hs, ht⟩ | ⟨hs, msg, ht⟩
  · simp [hs, ht]
  · simp [hs, ht]

/-- A frame with `ps: soa P[4]` for `drip P { v: i64 }`. -/
def soaCx : Cx where
  m := { structs := [{ name := "P", fields := [{ name := "v", ty := .int .w64 true, vis := .hush }] }]
         sums := [], externs := [], globals := [], cribGlobals := [], funcs := [] }
  fuel := 3
  layout := { allocSize := fun _ => 8, fieldOffset := fun _ _ => 0 }
  mem := { loadInt := fun bits _ => BitVec.allOnes bits, loadPtr := fun _ => 0 }
  func :=
    { name := "main", params := [], rets := [], blocks := [], entry := 0
      locals := [{ ty := .soa (.array (.struct 0) 4), name := some "ps", kind := .temp }] }
  allocas := fun _ => some 4096

/-- `ps[i].v`. -/
def soaFieldPlace (i : Int) : Place := .mk 0 [.index (.const (.int i (.int .w64 true))), .field 0]

/-- `ps[0].v < ps[1].v` is an `i64` comparison that codegen emits as unsigned. -/
theorem soa_compare_unsigned :
    (placePtr soaCx (soaFieldPlace 0) .access).map Prod.snd = .ok (.int .w64 true) ∧
      placeTy soaCx.m soaCx.func (soaFieldPlace 0) = .error "cannot resolve projection" ∧
      DeclaredTy soaCx (.copy (soaFieldPlace 0)) (.int .w64 true) ∧
      DeclaredTy soaCx (.copy (soaFieldPlace 1)) (.int .w64 true) ∧
      intSigned soaCx.m soaCx.func (.copy (soaFieldPlace 0)) (.copy (soaFieldPlace 1)) = false :=
  ⟨rfl, rfl, ⟨_, rfl⟩, ⟨_, rfl⟩, rfl⟩

end BetLang.Codegen
