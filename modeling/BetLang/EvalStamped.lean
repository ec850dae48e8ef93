import BetLang.EvalStmt
import Mathlib.Tactic.Linarith

/-! Values that carry their declared integer types, and what the changes of the store keep of
them. -/

namespace BetLang.Eval

open Collect (Typ RetType)
open Interp (Value RunError IntTy intTy wrapTo)

/-- The range of an integer type, in the `i64` that holds its values. -/
def InWidth (ty : IntTy) (v : BitVec 64) : Prop :=
  if ty.signed then -2 ^ (ty.bits - 1) ≤ v.toInt ∧ v.toInt < 2 ^ (ty.bits - 1)
  else v.toNat < 2 ^ ty.bits

/-- The value holds integers as its type says: one of a sized type has exactly that tag. -/
def Carries : Typ → Value → Prop
  | .named name _, v => ∀ ity, intTy name = some ity → ∃ b, v = .int b ity ∧ InWidth ity b
  | .array elem _, v => ∀ xs, v = .array xs → ∀ x ∈ xs, Carries elem x
  | .slice elem, v => ∀ xs, v = .array xs → ∀ x ∈ xs, Carries elem x
  | .soa inner, v => Carries inner v
  | _, _ => True

def CarriesOpt (ty : Option Typ) (v : Value) : Prop := ∀ t, ty = some t → Carries t v

/-- Every integer inside is in the range of its tag, and every field of a struct inside carries its
declared type. -/
inductive Good (tb : Tables) : Value → Prop
  | int {b : BitVec 64} {ty : IntTy} (hpos : 0 < ty.bits) (h : InWidth ty b) : Good tb (.int b ty)
  | float {bits : BitVec 64} : Good tb (.float bits)
  | byte {b : BitVec 8} : Good tb (.byte b)
  | bool {b : Bool} : Good tb (.bool b)
  | str {s : String} : Good tb (.str s)
  | ghosted : Good tb .ghosted
  | array {xs : List Value} (h : ∀ x ∈ xs, Good tb x) : Good tb (.array xs)
  | struct {sty : String} {fields : List (String × Value)} (h : ∀ p ∈ fields, Good tb p.2)
      (hc : ∀ p ∈ fields, CarriesOpt (tb.fieldTy sty p.1) p.2) : Good tb (.struct sty fields)
  | variant {moods name : String} {payload : List Value} (h : ∀ x ∈ payload, Good tb x) :
      Good tb (.variant moods name payload)
  | fn {name : String} : Good tb (.fn name)
  | yikes {msg : String} : Good tb (.yikes msg)
  | tag {arena slot : Nat} {generation : BitVec 64} : Good tb (.tag arena slot generation)
  | crib {id : Nat} : Good tb (.crib id)
  | stash {addr : Nat} : Good tb (.stash addr)
  | vec {addr : Nat} : Good tb (.vec addr)
  | rng {addr : Nat} : Good tb (.rng addr)

section Integers

theorem two_pow_mono {n m : Nat} (h : n ≤ m) : (2 : Int) ^ n ≤ 2 ^ m := by
  exact_mod_cast Nat.pow_le_pow_right (by decide) h

theorem inWidth_wide {ty : IntTy} (h : 64 ≤ ty.bits) (v : BitVec 64) : InWidth ty v := by
  unfold InWidth
  split
  · have hlo : -(2 : Int) ^ 63 ≤ v.toInt := v.le_toInt
    have hhi : v.toInt < (2 : Int) ^ 63 := v.toInt_lt
    have hpow : (2 : Int) ^ 63 ≤ 2 ^ (ty.bits - 1) := two_pow_mono (by omega)
    constructor
    · linarith
    · linarith
  · exact lt_of_lt_of_le v.isLt (Nat.pow_le_pow_right (by decide) h)

/-- Below 64 bits the wrapped number is in the `i64` as it is. -/
theorem inWidth_ofInt {ty : IntTy} (h : ty.bits < 64) {m : Int}
    (hm : if ty.signed then -2 ^ (ty.bits - 1) ≤ m ∧ m < 2 ^ (ty.bits - 1)
      else 0 ≤ m ∧ m < 2 ^ ty.bits) : InWidth ty (BitVec.ofInt 64 m) := by
  unfold InWidth
  split at hm
  · rename_i hs
    rw [if_pos hs]
    have hpow : (2 : Int) ^ (ty.bits - 1) ≤ 2 ^ 63 := two_pow_mono (by omega)
    rw [BitVec.toInt_ofInt, Int.bmod_eq_of_le (by norm_num; linarith) (by norm_num; linarith)]
    exact hm
  · rename_i hs
    rw [if_neg hs]
    have hpow : (2 : Int) ^ ty.bits ≤ 2 ^ 64 := two_pow_mono (by omega)
    rw [BitVec.toNat_ofInt]
    have hmod : m % ((2 ^ 64 : Nat) : Int) = m := by
      push_cast
      exact Int.emod_eq_of_lt hm.1 (by linarith)
    rw [hmod]
    zify
    rw [Int.toNat_of_nonneg hm.1]
    exact hm.2

theorem inWidth_wrapTo {ty : IntTy} (hpos : 0 < ty.bits) (v : Int) : InWidth ty (wrapTo v ty) := by
  by_cases h64 : 64 ≤ ty.bits
  · exact inWidth_wide h64 _
  · have hlt : ty.bits < 64 := by omega
    unfold wrapTo
    rw [if_neg h64]
    apply inWidth_ofInt hlt
    have hnn := Int.emod_nonneg v (show (2 : Int) ^ ty.bits ≠ 0 by positivity)
    have hub := Int.emod_lt_of_pos v (show (0 : Int) < 2 ^ ty.bits by positivity)
    have hdouble : (2 : Int) ^ ty.bits = 2 * 2 ^ (ty.bits - 1) := by
      rw [← pow_succ', Nat.sub_add_cancel hpos]
    cases hs : ty.signed with
    | true =>
      simp only [if_true, true_and]
      split
      · constructor <;> linarith
      · constructor <;> linarith
    | false =>
      simp only [Bool.false_eq_true, if_false, false_and]
      exact ⟨hnn, hub⟩

theorem good_sized (tb : Tables) {ty : IntTy} (hpos : 0 < ty.bits) (v : Int) :
    Good tb (Value.sized v ty) := .int hpos (inWidth_wrapTo hpos v)

theorem good_word (tb : Tables) (v : BitVec 64) : Good tb (Value.word v) :=
  .int (by decide) (inWidth_wide (by decide) v)

theorem intTy_pos {name : String} {ty : IntTy} (h : intTy name = some ty) : 0 < ty.bits := by
  unfold intTy at h
  split at h <;> cases h <;> decide

end Integers

section Operators

variable {W : Type} {pr : Prims W} {tb : Tables}

theorem good_storeUnsigned (res : Nat) {ty : IntTy} (hpos : 0 < ty.bits) (hs : ty.signed = false) :
    Good tb (Interp.storeUnsigned res ty) := by
  refine .int hpos ?_
  split
  · rename_i h64
    exact inWidth_wide h64 _
  · rename_i h64
    rw [InWidth, if_neg (by simp [hs]), BitVec.toNat_ofNat]
    have hlt : res % 2 ^ ty.bits < 2 ^ ty.bits := Nat.mod_lt _ (by positivity)
    exact lt_of_le_of_lt (Nat.mod_le _ _) hlt

theorem good_trapping {res : Int} {what : String} {ty : IntTy} {v : Value} (hpos : 0 < ty.bits)
    (h : Interp.trapping res what ty = .ok v) : Good tb v := by
  unfold Interp.trapping at h
  split at h
  · cases h
  · cases h
    exact .int hpos (inWidth_wrapTo hpos res)

theorem combineIntTy_pos {a b : IntTy} (ha : 0 < a.bits) (hb : 0 < b.bits) :
    0 < (Interp.combineIntTy a b).bits := by
  unfold Interp.combineIntTy
  split
  · exact ha
  split
  · exact ha
  split
  · exact hb
  unfold IntTy.wider
  split
  · exact ha
  · exact hb

/-- A signed accumulator that traps, or an unsigned one that wraps. -/
theorem good_signed_or_unsigned {ty : IntTy} {v : Value} {s u : Except RunError Value}
    (hs : s = .ok v → Good tb v) (hu : ty.signed = false → u = .ok v → Good tb v)
    (h : (if ty.signed then s else u) = .ok v) : Good tb v := by
  split at h
  · exact hs h
  · rename_i hns
    exact hu (by simpa using hns) h

theorem good_intBinary {op : Ast.BinOp} {a b : BitVec 64} {ta tb' : IntTy} {v : Value}
    (ha : 0 < ta.bits) (hb : 0 < tb'.bits) (h : Interp.intBinary op a ta b tb' = .ok v) :
    Good tb v := by
  have hpos := combineIntTy_pos ha hb
  have hwrap : ∀ x, Good tb (.int (wrapTo x (Interp.combineIntTy ta tb'))
      (Interp.combineIntTy ta tb')) := fun x => .int hpos (inWidth_wrapTo hpos x)
  have hdiv : ∀ {q r what}, (if a.toInt = -(2 ^ ((Interp.combineIntTy ta tb').bits - 1)) ∧
      b.toInt = -1 then .error (.overflow what) else .ok (.int (wrapTo q
        (Interp.combineIntTy ta tb')) (Interp.combineIntTy ta tb')) : Except RunError Value) = .ok r →
      Good tb r := by
    intro q r what hr
    split at hr
    · cases hr
    · cases hr
      exact hwrap q
  have hstore : ∀ {n r}, (Interp.combineIntTy ta tb').signed = false →
      (.ok (Interp.storeUnsigned n (Interp.combineIntTy ta tb')) : Except RunError Value) = .ok r →
      Good tb r := by
    intro n r hs hr
    cases hr
    exact good_storeUnsigned n hpos hs
  unfold Interp.intBinary at h
  cases op with
  | add | sub | mul => exact good_signed_or_unsigned (good_trapping hpos) hstore h
  | div | rem =>
    dsimp only at h
    split at h
    · cases h
    · exact good_signed_or_unsigned hdiv hstore h
  | bitAnd | bitOr | bitXor | shl | shr =>
    cases h
    exact hwrap _
  | lt | le | gt | ge =>
    cases h
    exact .bool
  | eq | ne | and | or => cases h

theorem good_binaryOpInt {op : Ast.BinOp} {a b : BitVec 64} {ta tb' : IntTy} {v : Value}
    (ha : 0 < ta.bits) (hb : 0 < tb'.bits) (h : Interp.binaryOpInt op a ta b tb' = .ok v) :
    Good tb v := by
  unfold Interp.binaryOpInt at h
  split at h
  · cases h
    exact .bool
  · cases h
    exact .bool
  · exact good_intBinary ha hb h

theorem good_plain (p : Plain) : Good tb p.value := by
  cases p with
  | word v => exact good_word tb v
  | float | bool | str | rng => constructor
  | bytes bs =>
    refine .array fun x hx => ?_
    obtain ⟨b, _, rfl⟩ := List.mem_map.mp hx
    exact .byte
  | words vs =>
    refine .array fun x hx => ?_
    obtain ⟨v, _, rfl⟩ := List.mem_map.mp hx
    exact good_word tb v

theorem Good.int_pos {b : BitVec 64} {ty : IntTy} (h : Good tb (.int b ty)) : 0 < ty.bits := by
  cases h with
  | int hpos _ => exact hpos

theorem good_unaryOp {op : Ast.UnOp} {v r : Value} (hv : Good tb v) (h : unaryOp pr op v = .ok r) :
    Good tb r := by
  unfold unaryOp at h
  split at h
  · cases h
    exact .bool
  · have hpos := hv.int_pos
    rw [Interp.unaryOpInt, Interp.negInt] at h
    exact good_signed_or_unsigned (good_trapping hpos)
      (fun hs hu => by cases hu; exact good_storeUnsigned _ hpos hs) h
  · cases h
    exact .float
  · cases h
    exact .int hv.int_pos (inWidth_wrapTo hv.int_pos _)
  · cases h

theorem good_castInt {trunc : BitVec 64 → Int} {v r : Value} {name : String}
    (h : Interp.castInt trunc v name = .ok r) : Good tb r := by
  unfold Interp.castInt at h
  cases hty : intTy name with
  | none =>
    rw [hty] at h
    cases h
  | some ty =>
    rw [hty] at h
    have hpos := intTy_pos hty
    cases v <;> cases h <;> exact good_sized tb hpos _

theorem good_cast {v r : Value} {ty : Typ} (h : cast pr v ty = .ok r) : Good tb r := by
  unfold cast at h
  split at h
  · split at h
    · exact good_castInt h
    · split at h
      · split at h <;> cases h <;> exact .float
      · cases h
  · cases h

end Operators

section Places

variable {tb : Tables}

/-- A value in a place whose declared type is `ty`. -/
structure Fits (tb : Tables) (ty : Option Typ) (v : Value) : Prop where
  good : Good tb v
  carries : CarriesOpt ty v

theorem carriesOpt_none (v : Value) : CarriesOpt none v := by
  intro t ht
  cases ht

theorem Carries.opt {t : Typ} {v : Value} (h : Carries t v) : CarriesOpt (some t) v := by
  intro t' ht
  cases ht
  exact h

/-- What is asked of a value that goes through the coercion. -/
def Coercible : Typ → Value → Prop
  | .named name _, v => (intTy name).isSome → ∃ b ity, v = .int b ity
  | ty, v => Carries ty v

theorem coerce_fits {ty : Option Typ} {v : Value} (hv : Good tb v)
    (hc : ∀ t, ty = some t → Coercible t v) : Fits tb ty (coerce v ty) := by
  cases ty with
  | none => exact ⟨hv, carriesOpt_none v⟩
  | some t =>
    have hct := hc t rfl
    cases t with
    | named name args =>
      cases hty : intTy name with
      | none =>
        have hsame : coerce v (some (.named name args)) = v := by
          cases v <;> simp [coerce, hty]
        rw [hsame]
        refine ⟨hv, Carries.opt fun ity hi => ?_⟩
        rw [hty] at hi
        cases hi
      | some ity =>
        obtain ⟨b, ity', rfl⟩ := hct (by simp [hty])
        have hstamp : coerce (.int b ity') (some (.named name args)) = Value.sized b.toInt ity := by
          simp [coerce, hty]
        rw [hstamp]
        refine ⟨good_sized tb (intTy_pos hty) _, Carries.opt fun ity' hi => ?_⟩
        rw [hty] at hi
        cases hi
        exact ⟨_, rfl, inWidth_wrapTo (intTy_pos hty) _⟩
    | _ => exact ⟨hv, Carries.opt hct⟩

theorem Carries.elem {ty : Typ} {xs : List Value} (h : Carries ty (.array xs)) {e : Typ}
    (he : elemOf ty = some e) : ∀ x ∈ xs, Carries e x := by
  induction ty using elemOf.induct with
  | case1 elem n | case2 elem =>
    cases he
    exact h xs rfl
  | case3 inner ih => exact ih h he
  | case4 ty h1 h2 h3 =>
    rw [elemOf] at he
    · cases he
    · exact h1
    · exact h2
    · exact h3

theorem CarriesOpt.elem {ty : Option Typ} {xs : List Value} (h : CarriesOpt ty (.array xs)) :
    ∀ x ∈ xs, CarriesOpt (elemTy ty) x := by
  intro x hx e he
  obtain ⟨t, ht, he⟩ := Option.bind_eq_some_iff.mp he
  exact (h t ht).elem he x hx

/-- Other elements in an array of the same type. -/
theorem Carries.withElems {ty : Typ} {xs ys : List Value} (h : Carries ty (.array xs))
    (hys : ∀ e, elemOf ty = some e → ∀ y ∈ ys, Carries e y) : Carries ty (.array ys) := by
  induction ty using elemOf.induct with
  | case1 elem n | case2 elem =>
    intro zs hzs
    cases hzs
    exact hys elem rfl
  | case3 inner ih => exact ih h hys
  | case4 ty h1 h2 h3 =>
    cases ty with
    | named name args =>
      intro ity hi
      obtain ⟨b, hb, _⟩ := h ity hi
      cases hb
    | array elem n => exact (h1 elem n rfl).elim
    | slice elem => exact (h2 elem rfl).elim
    | soa inner => exact (h3 inner rfl).elim
    | tag | crib | fn | rawPtr => trivial

theorem CarriesOpt.withElems {ty : Option Typ} {xs ys : List Value}
    (h : CarriesOpt ty (.array xs)) (hys : ∀ y ∈ ys, CarriesOpt (elemTy ty) y) :
    CarriesOpt ty (.array ys) := by
  rintro t rfl
  exact (h t rfl).withElems fun e he y hy => hys y hy e he

/-- Other fields in a struct. -/
theorem Carries.withFields {ty : Typ} {sty : String} {fields fields' : List (String × Value)}
    (h : Carries ty (.struct sty fields)) : Carries ty (.struct sty fields') := by
  induction ty using elemOf.induct with
  | case1 elem n | case2 elem =>
    intro zs hzs
    cases hzs
  | case3 inner ih => exact ih h
  | case4 ty h1 h2 h3 =>
    cases ty with
    | named name args =>
      intro ity hi
      obtain ⟨b, hb, _⟩ := h ity hi
      cases hb
    | array elem n => exact (h1 elem n rfl).elim
    | slice elem => exact (h2 elem rfl).elim
    | soa inner => exact (h3 inner rfl).elim
    | tag | crib | fn | rawPtr => trivial

theorem Good.elem {xs : List Value} (h : Good tb (.array xs)) : ∀ x ∈ xs, Good tb x := by
  cases h with
  | array h => exact h

theorem Fits.elem {ty : Option Typ} {xs : List Value} (h : Fits tb ty (.array xs)) :
    ∀ x ∈ xs, Fits tb (elemTy ty) x :=
  fun x hx => ⟨h.good.elem x hx, h.carries.elem x hx⟩

theorem Fits.withElems {ty : Option Typ} {xs ys : List Value} (h : Fits tb ty (.array xs))
    (hys : ∀ y ∈ ys, Fits tb (elemTy ty) y) : Fits tb ty (.array ys) :=
  ⟨.array fun y hy => (hys y hy).good, h.carries.withElems fun y hy => (hys y hy).carries⟩

theorem mem_of_lookup {α : Type} {l : List (String × α)} {k : String} {v : α}
    (h : l.lookup k = some v) : (k, v) ∈ l := by
  induction l with
  | nil => cases h
  | cons p rest ih =>
    rw [List.lookup_cons] at h
    split at h
    · rename_i hk
      cases h
      rw [eq_of_beq hk]
      exact List.mem_cons_self
    · exact List.mem_cons_of_mem _ (ih h)

theorem mem_insertField {fields : List (String × Value)} {name : String} {val : Value}
    {p : String × Value} (h : p ∈ insertField fields name val) : p = (name, val) ∨ p ∈ fields := by
  induction fields with
  | nil => exact .inl (List.mem_singleton.mp h)
  | cons q rest ih =>
    rw [insertField] at h
    split at h
    · rename_i hk
      rcases List.mem_cons.mp h with rfl | h
      · exact .inl (by rw [eq_of_beq hk])
      · exact .inr (List.mem_cons_of_mem _ h)
    · rcases List.mem_cons.mp h with rfl | h
      · exact .inr List.mem_cons_self
      · exact (ih h).imp_right (List.mem_cons_of_mem _)

/-- The fields of a good struct of type `sty`. -/
def FieldsFit (tb : Tables) (sty : String) (fields : List (String × Value)) : Prop :=
  ∀ p ∈ fields, Fits tb (tb.fieldTy sty p.1) p.2

theorem FieldsFit.good {sty : String} {fields : List (String × Value)}
    (h : FieldsFit tb sty fields) : Good tb (.struct sty fields) :=
  .struct (fun p hp => (h p hp).good) fun p hp => (h p hp).carries

theorem Good.fields {sty : String} {fields : List (String × Value)}
    (h : Good tb (.struct sty fields)) : FieldsFit tb sty fields := by
  cases h with
  | struct h hc => exact fun p hp => ⟨h p hp, hc p hp⟩

theorem FieldsFit.insert {sty : String} {fields : List (String × Value)}
    (h : FieldsFit tb sty fields) {name : String} {val : Value}
    (hv : Fits tb (tb.fieldTy sty name) val) : FieldsFit tb sty (insertField fields name val) := by
  intro p hp
  rcases mem_insertField hp with rfl | hp
  · exact hv
  · exact h p hp

theorem Fits.withField {ty : Option Typ} {sty : String} {fields : List (String × Value)}
    (h : Fits tb ty (.struct sty fields)) {name : String} {val : Value}
    (hv : Fits tb (tb.fieldTy sty name) val) :
    Fits tb ty (.struct sty (insertField fields name val)) :=
  ⟨(h.good.fields.insert hv).good, fun t ht => (h.carries t ht).withFields⟩

/-- A place inside a value that fits has a type that its value fits. -/
theorem walk_fits {ty ty' : Option Typ} {v v' : Value} {steps : List PathStep} (h : Fits tb ty v)
    (hw : walk tb ty v steps = .ok (ty', v')) : Fits tb ty' v' := by
  induction ty, v, steps using walk.induct tb with
  | case1 ty v =>
    cases hw
    exact h
  | case2 ty sty fields name rest v hl ih =>
    rw [walk, hl] at hw
    exact ih (h.good.fields _ (mem_of_lookup hl)) hw
  | case3 ty sty fields name rest hl =>
    rw [walk, hl] at hw
    cases hw
  | case4 ty xs i rest v hx ih =>
    rw [walk, hx] at hw
    exact ih (h.elem v (List.mem_of_getElem? hx)) hw
  | case5 ty xs i rest hx =>
    rw [walk, hx] at hw
    cases hw
  | case6 ty other name rest hne =>
    rw [walk] at hw
    · cases hw
    · exact hne
  | case7 ty other i rest hne =>
    rw [walk] at hw
    · cases hw
    · exact hne

/-- A value that fits the place, put there, leaves the whole one fitting. -/
theorem replace_fits {ty ty' : Option Typ} {v v' new : Value} {steps : List PathStep}
    (h : Fits tb ty v) (hw : walk tb ty v steps = .ok (ty', v')) (hnew : Fits tb ty' new) :
    Fits tb ty (replace v steps new) := by
  induction ty, v, steps using walk.induct tb with
  | case1 ty v =>
    cases hw
    rw [replace]
    exact hnew
  | case2 ty sty fields name rest v hl ih =>
    rw [walk, hl] at hw
    rw [replace, hl]
    exact h.withField (ih (h.good.fields _ (mem_of_lookup hl)) hw)
  | case3 ty sty fields name rest hl =>
    rw [walk, hl] at hw
    cases hw
  | case4 ty xs i rest v hx ih =>
    rw [walk, hx] at hw
    rw [replace, hx]
    refine h.withElems fun y hy => ?_
    rcases List.mem_or_eq_of_mem_set hy with hy | rfl
    · exact h.elem y hy
    · exact ih (h.elem v (List.mem_of_getElem? hx)) hw
  | case5 ty xs i rest hx =>
    rw [walk, hx] at hw
    cases hw
  | case6 ty other name rest hne =>
    rw [walk] at hw
    · cases hw
    · exact hne
  | case7 ty other i rest hne =>
    rw [walk] at hw
    · cases hw
    · exact hne

end Places

section Errors

variable {W : Type} {pr : Prims W}

/-- An error of the interpreter, no panic of the program. -/
def Quiet : RunError → Prop
  | .yeet _ => False
  | _ => True

theorem quiet_trapping {res : Int} {what : String} {ty : IntTy} {e : RunError}
    (h : Interp.trapping res what ty = .error e) : Quiet e := by
  unfold Interp.trapping at h
  split at h <;> cases h
  trivial

theorem quiet_ite {c : Prop} [Decidable c] {s u : Except RunError Value} {e : RunError}
    (hs : s = .error e → Quiet e) (hu : u = .error e → Quiet e)
    (h : (if c then s else u) = .error e) : Quiet e := by
  split at h
  · exact hs h
  · exact hu h

theorem quiet_ok {v : Value} {e : RunError} (h : (.ok v : Except RunError Value) = .error e) :
    Quiet e := by cases h

theorem quiet_divByZero {e : RunError} (h : (.error .divByZero : Except RunError Value) = .error e) :
    Quiet e := by
  cases h
  trivial

theorem quiet_overflow {msg : String} {e : RunError}
    (h : (.error (.overflow msg) : Except RunError Value) = .error e) : Quiet e := by
  cases h
  trivial

theorem quiet_binaryOpInt {op : Ast.BinOp} {a b : BitVec 64} {ta tb : IntTy} {e : RunError}
    (h : Interp.binaryOpInt op a ta b tb = .error e) : Quiet e := by
  cases op with
  | add | sub | mul => exact quiet_ite quiet_trapping quiet_ok h
  | div | rem =>
    exact quiet_ite quiet_divByZero (quiet_ite (quiet_ite quiet_overflow quiet_ok) quiet_ok) h
  | bitAnd | bitOr | bitXor | shl | shr | lt | le | gt | ge | eq | ne => cases h
  | and | or =>
    cases h
    trivial

theorem quiet_unaryOp {op : Ast.UnOp} {v : Value} {e : RunError}
    (h : unaryOp pr op v = .error e) : Quiet e := by
  unfold unaryOp at h
  split at h
  · cases h
  · exact quiet_ite quiet_trapping quiet_ok h
  · cases h
  · cases h
  · cases h
    trivial

theorem quiet_cast {v : Value} {ty : Typ} {e : RunError} (h : cast pr v ty = .error e) :
    Quiet e := by
  unfold cast at h
  split at h
  · split at h
    · unfold Interp.castInt at h
      split at h
      · cases h
        trivial
      · split at h <;> cases h
        trivial
    · split at h
      · split at h <;> cases h
        trivial
      · cases h
        trivial
  · cases h
    trivial

theorem quiet_walk {tb : Tables} {ty : Option Typ} {v : Value} {steps : List PathStep}
    {e : RunError} (h : walk tb ty v steps = .error e) : Quiet e := by
  induction ty, v, steps using walk.induct tb with
  | case1 ty v =>
    rw [walk] at h
    cases h
  | case2 ty sty fields name rest v hl ih =>
    rw [walk, hl] at h
    exact ih h
  | case3 ty sty fields name rest hl =>
    rw [walk, hl] at h
    cases h
    trivial
  | case4 ty xs i rest v hx ih =>
    rw [walk, hx] at h
    exact ih h
  | case5 ty xs i rest hx =>
    rw [walk, hx] at h
    cases h
    trivial
  | case6 ty other name rest hne =>
    rw [walk] at h
    · cases h
      trivial
    · exact hne
  | case7 ty other i rest hne =>
    rw [walk] at h
    · cases h
      trivial
    · exact hne

theorem quiet_bytesOf {vs : List Value} {e : RunError} (h : bytesOf vs = .error e) : Quiet e := by
  induction vs using bytesOf.induct with
  | case1 => cases h
  | case2 b vs ih | case3 i ty vs ih =>
    rw [bytesOf] at h
    cases hvs : bytesOf vs with
    | ok bs =>
      rw [hvs] at h
      cases h
    | error e' =>
      rw [hvs] at h
      cases h
      exact ih hvs
  | case4 v vs h1 h2 =>
    rw [bytesOf] at h
    · cases h
      trivial
    · exact h1
    · exact h2

end Errors

section Stores

variable {tb : Tables}

def ScopeFits (tb : Tables) (sc : Scope) : Prop := ∀ b ∈ sc, Fits tb b.2.declared b.2.value

def EnvFits (tb : Tables) (env : Env) : Prop := ∀ sc ∈ env, ScopeFits tb sc

def ArenaFits (tb : Tables) (a : Arena) : Prop := ∀ s ∈ a.slots, Good tb s.value

def CellFits (tb : Tables) : Cell → Prop
  | .stash entries => ∀ e ∈ entries, Good tb e.1 ∧ Good tb e.2
  | .vec declared elems => ∀ x ∈ elems, Fits tb declared x

/-- Every place of the store holds what is declared for it. -/
structure Stamped (tb : Tables) (st : Store) : Prop where
  env : EnvFits tb st.env
  callers : ∀ env ∈ st.callers, EnvFits tb env
  globals : ScopeFits tb st.globals
  arenas : ∀ a ∈ st.arenas, ArenaFits tb a
  heap : ∀ c ∈ st.heap, CellFits tb c
  returned : ∀ sl ∈ st.returned, Fits tb sl.declared sl.value

theorem EnvFits.push {env : Env} (h : EnvFits tb env) : EnvFits tb env.push := by
  intro sc hsc
  rcases List.mem_cons.mp hsc with rfl | hsc
  · exact List.forall_mem_nil _
  · exact h sc hsc

theorem EnvFits.pop {env : Env} (h : EnvFits tb env) : EnvFits tb env.pop :=
  fun sc hsc => h sc (List.mem_of_mem_tail hsc)

theorem EnvFits.declare {env : Env} (h : EnvFits tb env) {name : String} {slot : Slot}
    (hs : Fits tb slot.declared slot.value) : EnvFits tb (env.declare name slot) := by
  cases env with
  | nil => exact h
  | cons sc rest =>
    intro sc' hsc'
    rcases List.mem_cons.mp hsc' with rfl | hsc'
    · intro b hb
      rcases List.mem_cons.mp hb with rfl | hb
      · exact hs
      · exact h sc List.mem_cons_self b hb
    · exact h sc' (List.mem_cons_of_mem _ hsc')

theorem ScopeFits.lookup {sc : Scope} (h : ScopeFits tb sc) {name : String} {slot : Slot}
    (hl : sc.lookup name = some slot) : Fits tb slot.declared slot.value :=
  h _ (mem_of_lookup hl)

theorem EnvFits.get {env : Env} (h : EnvFits tb env) {name : String} {slot : Slot}
    (hg : env.get name = some slot) : Fits tb slot.declared slot.value := by
  obtain ⟨sc, hsc, hl⟩ := List.exists_of_findSome?_eq_some hg
  exact (h sc hsc).lookup hl

theorem ScopeFits.set {sc : Scope} (h : ScopeFits tb sc) {name : String} {slot : Slot}
    (hs : Fits tb slot.declared slot.value) : ScopeFits tb (Scope.set name slot sc) := by
  induction sc with
  | nil => exact h
  | cons b rest ih =>
    have hrest : ScopeFits tb rest := fun b hb => h b (List.mem_cons_of_mem _ hb)
    intro b' hb'
    rw [Scope.set] at hb'
    split at hb'
    · rcases List.mem_cons.mp hb' with rfl | hb'
      · exact hs
      · exact hrest b' hb'
    · rcases List.mem_cons.mp hb' with rfl | hb'
      · exact h _ List.mem_cons_self
      · exact ih hrest b' hb'

theorem EnvFits.set {env : Env} (h : EnvFits tb env) {name : String} {slot : Slot}
    (hs : Fits tb slot.declared slot.value) : EnvFits tb (env.set name slot) := by
  induction env with
  | nil => exact h
  | cons sc rest ih =>
    have hrest : EnvFits tb rest := fun sc hsc => h sc (List.mem_cons_of_mem _ hsc)
    have hsc := h sc List.mem_cons_self
    intro sc' hsc'
    rw [Env.set] at hsc'
    split at hsc'
    · rcases List.mem_cons.mp hsc' with rfl | hsc'
      · exact hsc.set hs
      · exact hrest sc' hsc'
    · rcases List.mem_cons.mp hsc' with rfl | hsc'
      · exact hsc
      · exact ih hrest sc' hsc'

/-- An update of one element of a list keeps what holds of all of them. -/
theorem forall_modify {α : Type} {P : α → Prop} {xs : List α} (h : ∀ x ∈ xs, P x) (i : Nat)
    {f : α → α} (hf : ∀ x, P x → P (f x)) : ∀ x ∈ xs.modify i f, P x := by
  intro x hx
  obtain ⟨k, hk⟩ := List.mem_iff_getElem?.mp hx
  rw [List.getElem?_modify] at hk
  obtain ⟨y, hy, rfl⟩ := Option.map_eq_some_iff.mp hk
  have hPy := h y (List.mem_of_getElem? hy)
  split
  · exact hf y hPy
  · exact hPy

theorem forall_set {α : Type} {P : α → Prop} {xs : List α} (h : ∀ x ∈ xs, P x) (i : Nat) {a : α}
    (ha : P a) : ∀ x ∈ xs.set i a, P x := by
  intro x hx
  rcases List.mem_or_eq_of_mem_set hx with hx | rfl
  · exact h x hx
  · exact ha

theorem forall_concat {α : Type} {P : α → Prop} {xs : List α} (h : ∀ x ∈ xs, P x) {a : α}
    (ha : P a) : ∀ x ∈ xs ++ [a], P x := by
  intro x hx
  rcases List.mem_append.mp hx with hx | hx
  · exact h x hx
  · cases List.mem_singleton.mp hx
    exact ha

theorem ArenaFits.alloc {a : Arena} (h : ArenaFits tb a) {v : Value} (hv : Good tb v) :
    ArenaFits tb (a.alloc v).1 := by
  unfold Arena.alloc
  split
  · exact forall_modify h _ fun _ _ => hv
  · exact forall_concat h hv

theorem ArenaFits.evict {a : Arena} (h : ArenaFits tb a) : ArenaFits tb a.evict := by
  intro s hs
  obtain ⟨s', hs', rfl⟩ := List.mem_map.mp hs
  exact h s' hs'

theorem ArenaFits.evictSlot {a : Arena} (h : ArenaFits tb a) (slot : Nat)
    (generation : BitVec 64) : ArenaFits tb (a.evictSlot slot generation) := by
  refine forall_modify h slot fun s hs => ?_
  split
  · exact hs
  · exact hs

theorem ArenaFits.writeSlot {a : Arena} (h : ArenaFits tb a) (slot : Nat)
    (generation : BitVec 64) {v : Value} (hv : Good tb v) :
    ArenaFits tb (a.writeSlot slot generation v) := by
  refine forall_modify h slot fun s hs => ?_
  split
  · exact hv
  · exact hs

theorem ArenaFits.resolveUnchecked {a : Arena} (h : ArenaFits tb a) {slot : Nat} {v : Value}
    (hr : a.resolveUnchecked slot = some v) : Good tb v := by
  obtain ⟨s, hs, rfl⟩ := Option.map_eq_some_iff.mp hr
  exact h s (List.mem_of_getElem? hs)

theorem ArenaFits.resolve {a : Arena} (h : ArenaFits tb a) {slot : Nat} {generation : BitVec 64}
    {v : Value} (hr : a.resolve slot generation = some v) : Good tb v := by
  obtain ⟨s, hs, rfl⟩ := Option.map_eq_some_iff.mp hr
  obtain ⟨hs, _⟩ := Option.filter_eq_some_iff.mp hs
  exact h s (List.mem_of_getElem? hs)

end Stores

end BetLang.Eval
