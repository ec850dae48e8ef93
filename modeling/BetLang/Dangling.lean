import BetLang.Diagnostics
import BetLang.Occurrences
import Mathlib.Data.List.Nodup
import Mathlib.Data.List.Perm.Subperm

/-! What a validated module still has to bring along for none of its ids to dangle. -/

namespace BetLang.Checker

open Ir
open Validate (constKind)
open Diagnostics

variable {types : List Ty} {m : Module} {func : Func}

section Rules

theorem not_clean_report {e : ValidationError} {u : Unit} : ¬Clean (report e) u := not_clean_tell

theorem clean_require {p : Prop} [Decidable p] {e : ValidationError} {u : Unit} :
    Clean (require p e) u ↔ p := by
  unfold require
  by_cases hp : p
  · rw [if_pos hp]
    exact ⟨fun _ => hp, fun _ => clean_pure.mpr rfl⟩
  · rw [if_neg hp]
    exact ⟨fun h => absurd h not_clean_report, fun h => absurd h hp⟩

theorem not_clean_reject {e : ValidationError} {k : Option Ty} : ¬Clean (reject e) k := by
  intro h
  obtain ⟨_, hr, _⟩ := clean_bind.mp h
  exact not_clean_report hr

theorem not_clean_panic {α : Type} {a : α} : ¬Clean (indexPanic : Check α) a := fun h => nomatch h

/-- An id that was looked up is in its table. -/
def Checked (os : List Occ) : Prop := ∀ o ∈ os, o.kind.lookedUp = true → o.InRange

theorem checked_nil : Checked [] := fun _ ho => absurd ho List.not_mem_nil

theorem Checked.cons {o : Occ} {os : List Occ} (ho : o.kind.lookedUp = true → o.InRange)
    (hos : Checked os) : Checked (o :: os) := List.forall_mem_cons.mpr ⟨ho, hos⟩

theorem Checked.append {os os' : List Occ} (h : Checked os) (h' : Checked os') :
    Checked (os ++ os') := List.forall_mem_append.mpr ⟨h, h'⟩

theorem Checked.one {o : Occ} (ho : o.InRange) : Checked [o] := checked_nil.cons fun _ => ho

theorem checked_flatMap {α : Type} {xs : List α} {f : α → List Occ} (h : ∀ x ∈ xs, Checked (f x)) :
    Checked (xs.flatMap f) := by
  intro o ho
  obtain ⟨x, hx, ho⟩ := List.mem_flatMap.mp ho
  exact h x hx o ho

theorem inRange_of_getElem? {α : Type} {kind : IdKind} {xs : List α} {i : Nat} {a : α}
    (h : xs[i]? = some a) : (⟨kind, i, some xs.length⟩ : Occ).InRange :=
  ⟨xs.length, rfl, (List.getElem?_eq_some_iff.mp h).1⟩

theorem checked_of_kind (kind : IdKind) (hkind : kind.lookedUp = false) (os : List Occ) 
    (h : ∀ o ∈ os, o.kind = kind) : Checked os := by
  intro o ho hk
  rw [h o ho, hkind] at hk
  cases hk

end Rules

section Places

theorem clean_structDef {sid : Nat} {d : Option StructDef} (h : Clean (structDef m func sid) d) :
    ∃ s, m.structs[sid]? = some s ∧ d = some s := by
  unfold structDef at h
  cases hs : m.structs[sid]? with
  | some s =>
    rw [hs] at h
    exact ⟨s, rfl, (clean_pure.mp h).symm⟩
  | none =>
    rw [hs] at h
    obtain ⟨_, hr, _⟩ := clean_bind.mp h
    exact absurd hr not_clean_report

theorem clean_sumDef {sid : Nat} {d : Option SumDef} (h : Clean (sumDef m func sid) d) :
    ∃ s, m.sums[sid]? = some s ∧ d = some s := by
  unfold sumDef at h
  cases hs : m.sums[sid]? with
  | some s =>
    rw [hs] at h
    exact ⟨s, rfl, (clean_pure.mp h).symm⟩
  | none =>
    rw [hs] at h
    obtain ⟨_, hr, _⟩ := clean_bind.mp h
    exact absurd hr not_clean_report

theorem clean_ifStruct {β : Type} {sid : Nat} {f : StructDef → Check (Option β)} {k : Option β}
    (h : Clean (do ifKnown (← structDef m func sid) f) k) :
    ∃ s, m.structs[sid]? = some s ∧ Clean (f s) k := by
  obtain ⟨d, hd, hf⟩ := clean_bind.mp h
  obtain ⟨s, hs, rfl⟩ := clean_structDef hd
  exact ⟨s, hs, hf⟩

theorem clean_ifSum {β : Type} {sid : Nat} {f : SumDef → Check (Option β)} {k : Option β}
    (h : Clean (do ifKnown (← sumDef m func sid) f) k) :
    ∃ s, m.sums[sid]? = some s ∧ Clean (f s) k := by
  obtain ⟨d, hd, hf⟩ := clean_bind.mp h
  obtain ⟨s, hs, rfl⟩ := clean_sumDef hd
  exact ⟨s, hs, hf⟩

/-- The field that a projection selects exists, and its type is the one that the walk goes on with. -/
structure Selects (m : Module) (c : Cursor) (i : Nat) (k : Option Ty) : Prop where
  slot : ∃ slots t, c.slots m = some slots ∧ slots[i]? = some t ∧ k = some t

theorem fieldsOf_eq {sid : Nat} {s : StructDef} (h : m.structs[sid]? = some s) :
    fieldsOf m sid = some (s.fields.map (·.ty)) := by
  rw [fieldsOf, h]
  rfl

theorem selects_payload {sid v i : Nat} {ty : Option Ty} {d : SumDef} {k : Option Ty}
    (hd : m.sums[sid]? = some d) (h : Clean (payloadKind func d v i) k) :
    Selects m ⟨some (sid, v), ty⟩ i k := by
  unfold payloadKind at h
  cases hv : d.variants[v]? with
  | none =>
    rw [hv] at h
    exact absurd h not_clean_reject
  | some variant =>
    rw [hv] at h
    cases hp : variant.payload[i]? with
    | none =>
      dsimp only at h
      rw [hp] at h
      exact absurd h not_clean_reject
    | some t =>
      dsimp only at h
      rw [hp] at h
      refine ⟨variant.payload, t, ?_, hp, (clean_pure.mp h).symm⟩
      show payloadOf m sid v = _
      rw [payloadOf, hd, Option.bind_some, hv]
      rfl

theorem selects_struct {sid i : Nat} {d : StructDef} {k : Option Ty}
    (hd : m.structs[sid]? = some d) (h : Clean (structField func d i) k) :
    Selects m ⟨none, some (.struct sid)⟩ i k := by
  unfold structField at h
  cases hf : d.fields[i]? with
  | none =>
    rw [hf] at h
    exact absurd h not_clean_reject
  | some f =>
    rw [hf] at h
    have hslots : Cursor.slots m ⟨none, some (.struct sid)⟩ = some (d.fields.map (·.ty)) :=
      fieldsOf_eq hd
    refine ⟨d.fields.map (·.ty), f.ty, hslots, ?_, (clean_pure.mp h).symm⟩
    rw [List.getElem?_map, hf]
    rfl

theorem selects_soa {sid i : Nat} {c : Cursor} {wrap : Ty → Ty} {d : StructDef} {k : Option Ty}
    (hc : c.slots m = (fieldsOf m sid).map (·.map wrap)) (hd : m.structs[sid]? = some d)
    (h : Clean (soaField func wrap d i) k) : Selects m c i k := by
  unfold soaField at h
  cases hf : d.fields[i]? with
  | none =>
    rw [hf] at h
    exact absurd h not_clean_reject
  | some f =>
    rw [hf] at h
    refine ⟨(d.fields.map (·.ty)).map wrap, wrap f.ty, ?_, ?_, (clean_pure.mp h).symm⟩
    · rw [hc, fieldsOf_eq hd]
      rfl
    · rw [List.getElem?_map, List.getElem?_map, hf]
      rfl

theorem fieldKind_selects {ty : Ty} {pending : Option (Nat × Nat)} {i : Nat} {k : Option Ty}
    (h : Clean (fieldKind m func ty pending i) k) : Selects m ⟨pending, some ty⟩ i k := by
  unfold fieldKind at h
  split at h
  · obtain ⟨d, hd, hk⟩ := clean_ifSum h
    exact selects_payload hd hk
  · split at h
    · obtain ⟨d, hd, hk⟩ := clean_ifStruct h
      exact selects_struct hd hk
    · split at h
      · exact absurd h not_clean_reject
      · rename_i t ht
        exact ⟨_, t, rfl, ht, (clean_pure.mp h).symm⟩
    · unfold soaFieldKind at h
      split at h
      · obtain ⟨d, hd, hk⟩ := clean_ifStruct h
        exact selects_soa rfl hd hk
      · obtain ⟨d, hd, hk⟩ := clean_ifStruct h
        exact selects_soa rfl hd hk
      · exact absurd h not_clean_reject
      · exact absurd h not_clean_reject
      · exact absurd h not_clean_reject
    · exact absurd h not_clean_reject

theorem indexKind_elem {ty : Ty} {k : Option Ty} (h : Clean (indexKind func ty) k) :
    ∃ t, elemTy ty = some t ∧ k = some t := by
  unfold indexKind at h
  split at h
  · exact ⟨_, rfl, (clean_pure.mp h).symm⟩
  · exact ⟨_, rfl, (clean_pure.mp h).symm⟩
  · exact ⟨_, rfl, (clean_pure.mp h).symm⟩
  · exact ⟨_, rfl, (clean_pure.mp h).symm⟩
  · exact ⟨_, rfl, (clean_pure.mp h).symm⟩
  · exact absurd h not_clean_reject
  · exact absurd h not_clean_reject

mutual

theorem typeIds (m : Module) : (t : Ty) → ∀ o ∈ idsInTy m t, o.kind = .typeId
  | .bool | .int _ _ | .f32 | .f64 | .str | .void | .rawPtr | .rng =>
    fun _ ho => absurd ho List.not_mem_nil
  | .struct _ | .sum _ => fun _ ho => by rw [List.mem_singleton.mp ho]
  | .slice e | .array e _ | .soa e | .tag e | .crib e | .ref e | .vec e | .simd e _ => typeIds m e
  | .map k v => List.forall_mem_append.mpr ⟨typeIds m k, typeIds m v⟩
  | .fnPtr params rets => List.forall_mem_append.mpr ⟨typeIdsAll m params, typeIdsAll m rets⟩
  | .tuple elems => typeIdsAll m elems

theorem typeIdsAll (m : Module) : (ts : List Ty) → ∀ o ∈ idsInTys m ts, o.kind = .typeId
  | [] => fun _ ho => absurd ho List.not_mem_nil
  | t :: ts => List.forall_mem_append.mpr ⟨typeIds m t, typeIdsAll m ts⟩

end

theorem Checked.ty (m : Module) (t : Ty) : Checked (idsInTy m t) :=
  checked_of_kind .typeId rfl _ (typeIds m t)

theorem checked_const (m : Module) (c : Const) : Checked (idsInConst m c) := by
  cases c with
  | int v ty => exact Checked.ty m ty
  | float bits ty => exact Checked.ty m ty
  | fnRef fid => exact checked_nil.cons fun h => nomatch h
  | bool b => exact checked_nil
  | str s => exact checked_nil
  | ghosted => exact checked_nil
  | nullPtr => exact checked_nil

theorem Selects.step {c : Cursor} {i : Nat} {t : Ty} (h : Selects m c i (some t)) :
    c.step m (.field i) = ⟨none, some t⟩ := by
  obtain ⟨slots, t', hslots, ht, hk⟩ := h.slot
  cases hk
  rw [Cursor.step, hslots, Option.bind_some, ht]

theorem Selects.inRange {c : Cursor} {i : Nat} {k : Option Ty} (h : Selects m c i k) :
    (⟨.field, i, (c.slots m).map List.length⟩ : Occ).InRange := by
  obtain ⟨slots, t, hslots, ht, _⟩ := h.slot
  rw [hslots]
  exact inRange_of_getElem? ht

mutual

theorem operand_checked {k : Option Ty} : (op : Operand) → Clean (operandKind m func op) k →
    k = operandTy m func op ∧ Checked (idsInOperand m func op)
  | .const c, h => ⟨(clean_pure.mp h).symm, checked_const m c⟩
  | .copy p, h => place_checked p h
  | .move p, h => place_checked p h

theorem place_checked {k : Option Ty} : (p : Place) → Clean (placeKind m func p) k →
    k = placeTy m func p ∧ Checked (idsInPlace m func p)
  | .mk root proj, h => by
    rw [placeKind] at h
    cases hd : func.locals[root]? with
    | none =>
      rw [hd] at h
      exact absurd h not_clean_reject
    | some d =>
      rw [hd] at h
      have hstart : start func root = ⟨none, some d.ty⟩ := by
        rw [start, hd]
        rfl
      obtain ⟨hk, hids⟩ := walk_checked proj h
      rw [placeTy, idsInPlace, hstart]
      exact ⟨hk, hids.cons fun _ => inRange_of_getElem? hd⟩

/-- The walk of the validator is at the cursor's type, and each id that it passes is in range. -/
theorem walk_checked {pending : Option (Nat × Nat)} {ty : Ty} {k : Option Ty} :
    (proj : List Proj) → Clean (walkKind m func pending ty proj) k →
    k = (proj.foldl (Cursor.step m) ⟨pending, some ty⟩).ty ∧
      Checked (idsInProjs m func ⟨pending, some ty⟩ proj)
  | [], h => ⟨(clean_pure.mp h).symm, checked_nil⟩
  | .field i :: rest, h => by
    rw [walkKind] at h
    obtain ⟨k', hfield, hrest⟩ := clean_bind.mp h
    have hsel := fieldKind_selects hfield
    obtain ⟨slots, t, hslots, ht, rfl⟩ := hsel.slot
    obtain ⟨hk, hids⟩ := walk_checked rest hrest
    rw [List.foldl_cons, idsInProjs, hsel.step]
    exact ⟨hk, hids.cons fun _ => hsel.inRange⟩
  | .index idx :: rest, h => by
    rw [walkKind] at h
    obtain ⟨k₁, hidx, h⟩ := clean_bind.mp h
    obtain ⟨k₂, helem, hrest⟩ := clean_bind.mp h
    obtain ⟨t, ht, rfl⟩ := indexKind_elem helem
    obtain ⟨hk, hids⟩ := walk_checked rest hrest
    have hstep : Cursor.step m ⟨pending, some ty⟩ (.index idx) = ⟨pending, some t⟩ := by
      rw [Cursor.step, Option.bind_some, ht]
    rw [List.foldl_cons, idsInProjs, hstep]
    exact ⟨hk, (operand_checked idx hidx).2.append hids⟩
  | .deref :: rest, h => by
    unfold walkKind at h
    split at h
    · obtain ⟨hk, hids⟩ := walk_checked rest h
      exact ⟨hk, hids⟩
    · exact absurd h not_clean_reject
  | .downcast v :: rest, h => by
    unfold walkKind at h
    split at h
    · obtain ⟨hk, hids⟩ := walk_checked rest h
      rw [List.foldl_cons, idsInProjs]
      exact ⟨hk, hids.cons fun hv => nomatch hv⟩
    · exact absurd h not_clean_reject

end

end Places

section Rvalues

theorem clean_bind_unit {α : Type} {x : Check Unit} {f : Unit → Check α} {a : α} :
    Clean (x >>= f) a ↔ Clean x () ∧ Clean (f ()) a := by
  constructor
  · intro h
    obtain ⟨_, hx, hf⟩ := clean_bind.mp h
    exact ⟨hx, hf⟩
  · rintro ⟨hx, hf⟩
    exact clean_bind.mpr ⟨(), hx, hf⟩

theorem visit_checked {op : Operand} (h : Clean (visit m func op) ()) :
    Checked (idsInOperand m func op) := by
  obtain ⟨k, hk, _⟩ := clean_bind.mp h
  exact (operand_checked op hk).2

theorem visitArgs_checked {ops : List Operand} (h : Clean (visitArgs m func ops) ()) :
    Checked (idsInOperands m func ops) :=
  checked_flatMap fun op hop => visit_checked (clean_forM.mp h op hop)

theorem visit_pair_checked {a b : Operand} (ha : Checked (idsInOperand m func a))
    (hb : Checked (idsInOperand m func b)) : Checked (idsInOperands m func [a, b]) :=
  ha.append (hb.append checked_nil)

theorem callTarget_checked {name : String} {params rets : List Ty} {args : List Operand}
    {k : Option Ty} (h : Clean (callTarget m func name params rets args) k) :
    params.length = args.length ∧ Checked (idsInOperands m func args) := by
  obtain ⟨hargs, _⟩ := clean_bind_unit.mp h
  obtain ⟨hlength, hall⟩ := clean_bind_unit.mp hargs
  refine ⟨clean_require.mp hlength, checked_flatMap ?_⟩
  have hfst : args.zipIdx.map Prod.fst = args := List.zipIdx_map_fst 0 args
  rw [← hfst]
  refine List.forall_mem_map.mpr fun p hp => ?_
  obtain ⟨k, hk, _⟩ := clean_bind.mp (clean_forM.mp hall p hp)
  exact (operand_checked p.1 hk).2

theorem expectStr_checked {op : Operand} (h : Clean (expectStr m func op) ()) :
    Checked (idsInOperand m func op) := by
  obtain ⟨k, hk, _⟩ := clean_bind.mp h
  exact (operand_checked op hk).2

theorem expectSlice_checked {op : Operand} (h : Clean (expectSlice m func op) ()) :
    Checked (idsInOperand m func op) := by
  obtain ⟨k, hk, _⟩ := clean_bind.mp h
  exact (operand_checked op hk).2

/-- What the validator has made sure of about an operation. -/
structure Passed (m : Module) (func : Func) (rv : Rvalue) : Prop where
  ids : Checked (idsInRvalue m func rv)
  counts : ∀ c ∈ countsInRvalue m func rv,
    (c.indirect = true → c.want.isSome = true) → c.want = some c.got
  literals : ∀ l ∈ literalsInRvalue rv, fieldCount m l.1 = some l.2.length

/-- An operation without counted operands. -/
theorem Passed.uncounted {rv : Rvalue} (hids : Checked (idsInRvalue m func rv))
    (hcounts : countsInRvalue m func rv = []) (hliterals : literalsInRvalue rv = []) :
    Passed m func rv where
  ids := hids
  counts := by
    rw [hcounts]
    exact List.forall_mem_nil _
  literals := by
    rw [hliterals]
    exact List.forall_mem_nil _

theorem call_passed {callee : Callee} {args : List Operand} {k : Option Ty}
    (h : Clean (callKind m func callee args) k) : Passed m func (.call callee args) := by
  cases callee with
  | direct fid =>
    cases hf : m.funcs[fid]? with
    | none =>
      simp only [callKind, hf] at h
      exact absurd (clean_bind_unit.mp h).2 not_clean_reject
    | some target =>
      simp only [callKind, hf] at h
      obtain ⟨hlength, hargs⟩ := callTarget_checked h
      refine ⟨(Checked.one (inRange_of_getElem? hf)).append hargs, ?_, List.forall_mem_nil _⟩
      refine List.forall_mem_singleton.mpr fun _ => ?_
      show (m.funcs[fid]?).map (·.params.length) = _
      rw [hf, Option.map_some, hlength]
  | external eid =>
    cases he : m.externs[eid]? with
    | none =>
      simp only [callKind, he] at h
      exact absurd (clean_bind_unit.mp h).2 not_clean_reject
    | some target =>
      simp only [callKind, he] at h
      obtain ⟨hlength, hargs⟩ := callTarget_checked h
      refine ⟨(Checked.one (inRange_of_getElem? he)).append hargs, ?_, List.forall_mem_nil _⟩
      refine List.forall_mem_singleton.mpr fun _ => ?_
      show (m.externs[eid]?).map (·.sig.params.length) = _
      rw [he, Option.map_some, hlength]
  | indirect op =>
    simp only [callKind] at h
    obtain ⟨kop, hop, h⟩ := clean_bind.mp h
    obtain ⟨hty, hids⟩ := operand_checked op hop
    split at h
    · obtain ⟨hlength, hargs⟩ := callTarget_checked h
      refine ⟨hids.append hargs, ?_, List.forall_mem_nil _⟩
      refine List.forall_mem_singleton.mpr fun _ => ?_
      show (operandTy m func op).bind arityOf = _
      rw [← hty, ← hlength]
      rfl
    · rename_i hopen
      refine ⟨hids.append (visitArgs_checked (clean_bind_unit.mp h).1), ?_, List.forall_mem_nil _⟩
      refine List.forall_mem_singleton.mpr fun hsome => ?_
      -- a callee of no function type has no arity to compare with
      have harity : (operandTy m func op).bind arityOf = none := by
        rw [← hty]
        cases kop with
        | none => rfl
        | some t =>
          cases t
          case fnPtr params rets => exact absurd rfl (hopen params rets)
          all_goals rfl
      have hwant := hsome rfl
      rw [show calleeArity m func (.indirect op) = none from harity] at hwant
      cases hwant

theorem checkFieldCount_checked {sid n : Nat} (h : Clean (checkFieldCount m func sid n) ()) :
    (⟨.struct, sid, some m.structs.length⟩ : Occ).InRange ∧ fieldCount m sid = some n := by
  obtain ⟨d, hd, h⟩ := clean_bind.mp h
  obtain ⟨s, hs, rfl⟩ := clean_structDef hd
  refine ⟨inRange_of_getElem? hs, ?_⟩
  rw [fieldCount, fieldsOf_eq hs, Option.map_some, List.length_map, clean_require.mp h]

theorem checkVariant_checked {sid v n : Nat} (h : Clean (checkVariant m func sid v n) ()) :
    Checked (idsInVariant m sid v) ∧ payloadCount m sid v = some n := by
  obtain ⟨d, hd, h⟩ := clean_bind.mp h
  obtain ⟨s, hs, rfl⟩ := clean_sumDef hd
  cases hv : s.variants[v]? with
  | none =>
    simp only [ifDefined, hv] at h
    exact absurd h not_clean_report
  | some w =>
    simp only [ifDefined, hv] at h
    have hcount : variantCount m sid = some s.variants.length := by
      rw [variantCount, hs]
      rfl
    refine ⟨?_, ?_⟩
    · rw [idsInVariant, hcount]
      exact (Checked.one (inRange_of_getElem? hv)).cons fun _ => inRange_of_getElem? hs
    · rw [payloadCount, payloadOf, hs, Option.bind_some, hv, Option.map_some, Option.map_some,
        clean_require.mp h]

theorem aggregate_passed {kind : AggKind} {ops : List Operand} {k : Option Ty}
    (hops : Checked (idsInOperands m func ops))
    (h : Clean (aggregateKind m func kind ops.length) k) : Passed m func (.aggregate kind ops) := by
  cases kind with
  | struct sid =>
    obtain ⟨hsid, hcount⟩ := checkFieldCount_checked (clean_bind_unit.mp h).1
    refine ⟨(Checked.one hsid).append hops, ?_, List.forall_mem_nil _⟩
    exact List.forall_mem_singleton.mpr fun _ => hcount
  | tuple => exact .uncounted hops rfl rfl
  | array elem => exact .uncounted ((Checked.ty m elem).append hops) rfl rfl
  | simd elem => exact .uncounted ((Checked.ty m elem).append hops) rfl rfl
  | sum sid v =>
    obtain ⟨hids, hcount⟩ := checkVariant_checked (clean_bind_unit.mp h).1
    refine ⟨hids.append hops, ?_, List.forall_mem_nil _⟩
    exact List.forall_mem_singleton.mpr fun _ => hcount

theorem cop_passed {crib : Operand} {init : CopInit} (hcrib : Checked (idsInOperand m func crib))
    (h : Clean (checkCopInit m func init) ()) : Passed m func (.cop crib init) := by
  cases init with
  | structLit sid fields =>
    obtain ⟨hargs, hcount⟩ := clean_bind_unit.mp h
    obtain ⟨hsid, hcount⟩ := checkFieldCount_checked hcount
    have hnames : Checked (fields.map fun p =>
        (⟨.initField, p.1, (fieldsOf m sid).map List.length⟩ : Occ)) := by
      refine checked_of_kind .initField rfl _ (List.forall_mem_map.mpr fun p _ => ?_)
      rfl
    refine ⟨?_, ?_, ?_⟩
    · exact hcrib.append (((Checked.one hsid).append hnames).append (visitArgs_checked hargs))
    · exact List.forall_mem_singleton.mpr fun _ => hcount
    · refine List.forall_mem_singleton.mpr ?_
      rw [List.length_map]
      exact hcount
  | sumVariant sid v payload =>
    obtain ⟨hargs, hvariant⟩ := clean_bind_unit.mp h
    obtain ⟨hids, hcount⟩ := checkVariant_checked hvariant
    refine ⟨hcrib.append (hids.append (visitArgs_checked hargs)), ?_, List.forall_mem_nil _⟩
    exact List.forall_mem_singleton.mpr fun _ => hcount

theorem simd_passed {op : SimdOp} {args : List Operand} {ty : Ty}
    (hargs : Checked (idsInOperands m func args)) (hlength : args.length = simdArgs op) :
    Passed m func (.simd op args ty) := by
  have hlane : Checked (idsInSimd m func op args) := by
    refine checked_of_kind .lane rfl _ fun o ho => ?_
    cases op with
    | lane i => rw [List.mem_singleton.mp ho]
    | splat | min | max | abs | dot | sum | length | norm => exact absurd ho List.not_mem_nil
  refine ⟨(hlane.append hargs).append (Checked.ty m ty), ?_, List.forall_mem_nil _⟩
  exact List.forall_mem_singleton.mpr fun _ => by rw [hlength]

theorem rvalue_passed {rv : Rvalue} {k : Option Ty} (h : Clean (rvalueKind types m func rv) k) :
    Passed m func rv := by
  cases rv with
  | use op => exact .uncounted (operand_checked op h).2 rfl rfl
  | binOp op a b mode =>
    obtain ⟨ka, ha, h⟩ := clean_bind.mp h
    obtain ⟨kb, hb, _⟩ := clean_bind.mp h
    exact .uncounted (visit_pair_checked (operand_checked a ha).2 (operand_checked b hb).2) rfl rfl
  | unOp op a =>
    obtain ⟨ka, ha, _⟩ := clean_bind.mp h
    exact .uncounted (operand_checked a ha).2 rfl rfl
  | cast op ty kind =>
    obtain ⟨src, hop, _⟩ := clean_bind.mp h
    exact .uncounted ((operand_checked op hop).2.append (Checked.ty m ty)) rfl rfl
  | call callee args => exact call_passed h
  | aggregate kind ops =>
    obtain ⟨hops, hkind⟩ := clean_bind_unit.mp h
    exact aggregate_passed (visitArgs_checked hops) hkind
  | simd op args ty =>
    obtain ⟨hargs, h⟩ := clean_bind_unit.mp h
    obtain ⟨hlength, _⟩ := clean_bind_unit.mp h
    exact simd_passed (visitArgs_checked hargs) (clean_require.mp hlength)
  | discriminant op => exact .uncounted (visit_checked (clean_bind_unit.mp h).1) rfl rfl
  | cop crib init =>
    obtain ⟨kc, hcrib, h⟩ := clean_bind.mp h
    exact cop_passed (operand_checked crib hcrib).2 (clean_bind_unit.mp h).1
  | trust crib tag =>
    obtain ⟨kc, hcrib, h⟩ := clean_bind.mp h
    have htag := visit_checked (clean_bind_unit.mp h).1
    exact .uncounted (visit_pair_checked (operand_checked crib hcrib).2 htag) rfl rfl
  | strPtr op => exact .uncounted (expectStr_checked (clean_bind_unit.mp h).1) rfl rfl
  | strLen op => exact .uncounted (expectStr_checked (clean_bind_unit.mp h).1) rfl rfl
  | slicePtr op => exact .uncounted (expectSlice_checked (clean_bind_unit.mp h).1) rfl rfl
  | sliceLen op => exact .uncounted (expectSlice_checked (clean_bind_unit.mp h).1) rfl rfl
  | addrOf place =>
    obtain ⟨kp, hp, _⟩ := clean_bind.mp h
    exact .uncounted (place_checked place hp).2 rfl rfl
  | makeSlice data len elem =>
    obtain ⟨hdata, h⟩ := clean_bind_unit.mp h
    have hlen := visit_checked (clean_bind_unit.mp h).1
    exact .uncounted ((visit_pair_checked (visit_checked hdata) hlen).append (Checked.ty m elem))
      rfl rfl
  | cribNew elem capacity => exact .uncounted (Checked.ty m elem) rfl rfl
  | cribGlobal id =>
    cases hg : m.cribGlobals[id]? with
    | none =>
      simp only [rvalueKind, hg] at h
      exact absurd h not_clean_panic
    | some g => exact .uncounted (Checked.one (inRange_of_getElem? hg)) rfl rfl
  | sizeOf ty => exact .uncounted (Checked.ty m ty) rfl rfl
  | makeStr data len =>
    obtain ⟨hdata, h⟩ := clean_bind_unit.mp h
    have hlen := visit_checked (clean_bind_unit.mp h).1
    exact .uncounted (visit_pair_checked (visit_checked hdata) hlen) rfl rfl

end Rvalues

section Modules

theorem target_checked {nblocks block bb : Nat} (hn : nblocks ≤ func.blocks.length)
    (h : Clean (target func block nblocks bb) ()) : (blockId func bb).InRange :=
  ⟨func.blocks.length, rfl, Nat.lt_of_lt_of_le (clean_require.mp h) hn⟩

theorem stmt_checked {stmt : Stmt} (h : Clean (checkStmt types m func stmt) ()) :
    Checked (idsInStmt m func stmt) := by
  cases stmt with
  | nop => exact checked_nil
  | evict op => exact visit_checked h
  | evictSlot crib tag =>
    obtain ⟨hcrib, htag⟩ := clean_bind_unit.mp h
    exact visit_pair_checked (visit_checked hcrib) (visit_checked htag)
  | assign place rv =>
    obtain ⟨pk, hplace, h⟩ := clean_bind.mp h
    obtain ⟨rk, hrv, _⟩ := clean_bind.mp h
    exact (place_checked place hplace).2.append (rvalue_passed hrv).ids

theorem term_checked {block nblocks : Nat} {term : Terminator} (hn : nblocks ≤ func.blocks.length)
    (h : Clean (checkTerm m func block nblocks term) ()) : Checked (idsInTerm m func term) := by
  cases term with
  | goto bb => exact Checked.one (target_checked hn h)
  | branch cond thenBb elseBb =>
    obtain ⟨hcond, h⟩ := clean_bind_unit.mp h
    obtain ⟨hthen, helse⟩ := clean_bind_unit.mp h
    refine (visit_checked hcond).append ?_
    exact (Checked.one (target_checked hn helse)).cons fun _ => target_checked hn hthen
  | switch scrutinee cases default =>
    obtain ⟨hscrutinee, h⟩ := clean_bind_unit.mp h
    obtain ⟨hcases, hdefault⟩ := clean_bind_unit.mp h
    refine ((visit_checked hscrutinee).append ?_).append (Checked.one (target_checked hn hdefault))
    exact List.forall_mem_map.mpr fun c hc _ => target_checked hn (clean_forM.mp hcases c hc)
  | hollaCheck tag crib resolved live ghosted =>
    obtain ⟨kt, htag, h⟩ := clean_bind.mp h
    obtain ⟨kc, hcrib, h⟩ := clean_bind.mp h
    obtain ⟨kr, hresolved, h⟩ := clean_bind.mp h
    obtain ⟨hlive, h⟩ := clean_bind_unit.mp h
    have hghosted := (clean_bind_unit.mp h).1
    have hops := visit_pair_checked (operand_checked tag htag).2 (operand_checked crib hcrib).2
    refine (hops.append (place_checked resolved hresolved).2).append ?_
    exact (Checked.one (target_checked hn hghosted)).cons fun _ => target_checked hn hlive
  | ret vals =>
    obtain ⟨hlength, h⟩ := clean_bind_unit.mp h
    have hle : vals.length ≤ func.rets.length := Nat.le_of_eq (clean_require.mp hlength)
    refine checked_flatMap ?_
    rw [← List.map_fst_zip hle]
    refine List.forall_mem_map.mpr fun p hp => ?_
    obtain ⟨k, hk, _⟩ := clean_bind.mp (clean_forM.mp h p hp)
    exact (operand_checked p.1 hk).2
  | panic msg => exact visit_checked h
  | unreachable => exact checked_nil

theorem mem_rvalues {rv : Rvalue} (h : rv ∈ rvalues func) :
    ∃ block ∈ func.blocks, ∃ place, .assign place rv ∈ block.stmts := by
  obtain ⟨block, hblock, h⟩ := List.mem_flatMap.mp h
  obtain ⟨stmt, hstmt, h⟩ := List.mem_filterMap.mp h
  cases stmt with
  | assign place rv' =>
    cases h
    exact ⟨block, hblock, place, hstmt⟩
  | evict _ | evictSlot _ _ | nop => cases h

/-- A function that was checked without a problem. -/
theorem func_checked {fuel : Nat} (h : Clean (checkFunc types m func fuel) ()) :
    Checked (idsInFunc m func) ∧ ∀ rv ∈ rvalues func, Passed m func rv := by
  unfold checkFunc at h
  by_cases hempty : func.blocks.isEmpty = true
  · rw [if_pos hempty] at h
    exact absurd h not_clean_report
  · rw [if_neg hempty] at h
    obtain ⟨hentry, h⟩ := clean_bind_unit.mp h
    have hblocks := (clean_bind_unit.mp h).1
    have hn : func.blocks.length % 2 ^ 32 ≤ func.blocks.length := Nat.mod_le _ _
    have hblock : ∀ block ∈ func.blocks, (∀ stmt ∈ block.stmts,
        Clean (checkStmt types m func stmt) ()) ∧ Checked (idsInBlock m func block) := by
      intro block hb
      obtain ⟨hstmts, hterm⟩ := clean_bind_unit.mp (clean_forM.mp hblocks block hb)
      have hall := clean_forM.mp hstmts
      exact ⟨hall, (checked_flatMap fun stmt hs => stmt_checked (hall stmt hs)).append
        (term_checked hn hterm)⟩
    refine ⟨(checked_flatMap fun block hb => (hblock block hb).2).cons fun _ => ?_, ?_⟩
    · exact ⟨func.blocks.length, rfl, Nat.lt_of_lt_of_le (clean_require.mp hentry) hn⟩
    · intro rv hrv
      obtain ⟨block, hb, place, hstmt⟩ := mem_rvalues hrv
      obtain ⟨_, _, h⟩ := clean_bind.mp ((hblock block hb).1 _ hstmt)
      obtain ⟨_, hrv, _⟩ := clean_bind.mp h
      exact rvalue_passed hrv

theorem validate_clean {fuel : Nat} (h : validate fuel types m = some (.ok ())) :
    ∀ func ∈ m.funcs, Clean (checkFunc types m func fuel) () := by
  obtain ⟨⟨u, errors⟩, hrun, h⟩ := Option.map_eq_some_iff.mp h
  dsimp only at h
  by_cases hempty : errors.isEmpty = true
  · obtain rfl := List.isEmpty_iff.mp hempty
    exact clean_forM.mp (clean_bind_unit.mp hrun).1
  · rw [if_neg hempty] at h
    cases h

/-- Names in range without repetition, as many as there are fields, name each field once. -/
theorem count_eq_one {names : List Nat} (hnodup : names.Nodup)
    (hrange : ∀ i ∈ names, i < names.length) : ∀ i < names.length, names.count i = 1 := by
  have hsub : names.Subperm (List.range names.length) :=
    List.subperm_of_subset hnodup fun i hi => List.mem_range.mpr (hrange i hi)
  have hperm : names.Perm (List.range names.length) :=
    hsub.perm_of_length_le (Nat.le_of_eq List.length_range)
  intro i hi
  rw [hperm.count_eq]
  exact List.count_eq_one_of_mem List.nodup_range (List.mem_range.mpr hi)

theorem initField_mem {sid : Nat} {names : List Nat} (h : (sid, names) ∈ literals m) :
    ∀ i ∈ names, (⟨.initField, i, fieldCount m sid⟩ : Occ) ∈ occurrences m := by
  intro i hi
  obtain ⟨f, hf, h⟩ := List.mem_flatMap.mp h
  obtain ⟨rv, hrv, h⟩ := List.mem_flatMap.mp h
  obtain ⟨block, hblock, place, hstmt⟩ := mem_rvalues hrv
  have hrvalue : (⟨.initField, i, fieldCount m sid⟩ : Occ) ∈ idsInRvalue m f rv := by
    unfold literalsInRvalue at h
    split at h
    · rename_i crib sid' fields
      cases List.mem_singleton.mp h
      obtain ⟨p, hp, rfl⟩ := List.mem_map.mp hi
      have hfield : (⟨.initField, p.1, fieldCount m sid⟩ : Occ) ∈ fields.map fun p =>
          (⟨.initField, p.1, (fieldsOf m sid).map List.length⟩ : Occ) := List.mem_map.mpr ⟨p, hp, rfl⟩
      refine List.mem_append_right _ (List.mem_append_left _ ?_)
      exact List.mem_cons_of_mem _ hfield
    · cases h
  refine List.mem_append_left _ (List.mem_flatMap.mpr ⟨f, hf, ?_⟩)
  refine List.mem_cons_of_mem _ (List.mem_flatMap.mpr ⟨block, hblock, ?_⟩)
  refine List.mem_append_left _ (List.mem_flatMap.mpr ⟨_, hstmt, ?_⟩)
  exact List.mem_append_right _ hrvalue

theorem literal_eachField {sid : Nat} {names : List Nat} (h : (sid, names) ∈ literals m)
    (hlength : fieldCount m sid = some names.length)
    (hids : ∀ o ∈ occurrences m, o.kind = .initField → o.InRange) (hnodup : names.Nodup) :
    NamesEach m sid names := by
  refine ⟨names.length, hlength, count_eq_one hnodup fun i hi => ?_⟩
  obtain ⟨n, hn, hlt⟩ := hids _ (initField_mem h i hi) rfl
  rw [hlength] at hn
  cases hn
  exact hlt

theorem literal_nodup {sid : Nat} {names : List Nat} (h : (sid, names) ∈ literals m)
    (hids : ∀ o ∈ occurrences m, o.InRange) (heach : NamesEach m sid names) : names.Nodup := by
  obtain ⟨n, hn, hcount⟩ := heach
  refine List.nodup_iff_count_le_one.mpr fun i => ?_
  by_cases hi : i ∈ names
  · obtain ⟨n', hn', hlt⟩ := hids _ (initField_mem h i hi)
    have heq : n' = n := Option.some.inj (hn'.symm.trans hn)
    rw [heq] at hlt
    exact Nat.le_of_eq (hcount i hlt)
  · rw [List.count_eq_zero_of_not_mem hi]
    exact Nat.zero_le 1

/-- A validated module has no dangling id, and no operand too many or too few, exactly when its
function references, lanes, downcasts, literal fields and named types are in range, no literal names
a field twice, and every call through a value goes through one of function type. -/
theorem validated_intact_iff (fuel : Nat) (types : List Ty) (m : Module)
    (h : validate fuel types m = some (.ok ())) : Intact m ↔ LeftOut m := by
  have hfuncs := fun f hf => func_checked (validate_clean h f hf)
  constructor
  · intro hintact
    refine ⟨fun o ho _ => hintact.ids o ho, fun l hl => ?_, fun c hc _ => ?_⟩
    · exact literal_nodup hl hintact.ids (hintact.literals l hl)
    · rw [hintact.counts c hc]
      rfl
  · intro hleft
    have hids : ∀ o ∈ occurrences m, o.InRange := by
      intro o ho
      by_cases hk : o.kind.lookedUp = true
      · rcases List.mem_append.mp ho with ho | ho
        · obtain ⟨f, hf, ho⟩ := List.mem_flatMap.mp ho
          exact (hfuncs f hf).1 o ho hk
        · obtain ⟨g, hg, ho⟩ := List.mem_flatMap.mp ho
          exact checked_const m g.value o ho hk
      · exact hleft.ids o ho (Bool.eq_false_iff.mpr hk)
    refine ⟨hids, fun l hl => ?_, fun c hc => ?_⟩
    · obtain ⟨f, hf, hlf⟩ := List.mem_flatMap.mp hl
      obtain ⟨rv, hrv, hlrv⟩ := List.mem_flatMap.mp hlf
      have hlength := ((hfuncs f hf).2 rv hrv).literals l hlrv
      exact literal_eachField hl hlength (fun o ho _ => hids o ho) (hleft.literals l hl)
    · obtain ⟨f, hf, hcf⟩ := List.mem_flatMap.mp hc
      obtain ⟨rv, hrv, hcrv⟩ := List.mem_flatMap.mp hcf
      exact ((hfuncs f hf).2 rv hrv).counts c hcrv fun hi => hleft.counts c hc hi

/-- `r = simd lane.i (copy v) : f32`, of a vector with four lanes. -/
def laneFunc (i : Nat) : Func where
  name := "pick"
  params := [.simd .f32 4]
  rets := [.f32]
  locals := [⟨.simd .f32 4, none, .param⟩, ⟨.f32, none, .temp⟩]
  blocks := [⟨0, [.assign (.local 1) (.simd (.lane i) [.copy (.local 0)] .f32)],
    .ret [.copy (.local 1)]⟩]
  entry := 0

def laneModule (i : Nat) : Module where
  structs := []
  sums := []
  externs := []
  globals := []
  cribGlobals := []
  funcs := [laneFunc i]

theorem laneModule_intact_iff : Intact (laneModule 3) ↔ LeftOut (laneModule 3) :=
  validated_intact_iff 1 [] (laneModule 3) rfl

theorem ninth_lane_dangles : ¬∀ (fuel : Nat) (types : List Ty) (m : Module),
    validate fuel types m = some (.ok ()) → Intact m := by
  intro h
  have hintact := h 1 [] (laneModule 9) rfl
  have hlane : (⟨.lane, 9, some 4⟩ : Occ) ∈ occurrences (laneModule 9) := by
    simp [occurrences, laneModule, laneFunc, idsInFunc, idsInBlock, idsInStmt, idsInRvalue,
      idsInSimd, operandTy, placeTy, start, Place.local, lanesOf]
  obtain ⟨n, hn, hlt⟩ := hintact.ids _ hlane
  cases hn
  exact absurd hlt (by decide)

end Modules

end BetLang.Checker
