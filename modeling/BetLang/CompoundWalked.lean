import BetLang.CompoundAssign
import BetLang.Sequencing

/-! When the interpreter's compound assignment is the intended one: a target with an index is
evaluated twice, and a field of a module variable is no place. -/

namespace BetLang.Compound

open Traced
open Interp (Value RunError)
open Eval (PathStep insertField replace)

namespace Target

variable {E : Type}

/-- The fields from the root outwards. -/
def fields : Target E → List PathStep
  | name _ => []
  | field b f => b.fields ++ [.field f]
  | index b _ => b.fields

def isName : Target E → Bool
  | name _ => true
  | _ => false

end Target

theorem walk_append (v : Value) (ps qs : List PathStep) {x : Value} :
    walk v (ps ++ qs) = .ok x ↔ ∃ y, walk v ps = .ok y ∧ walk y qs = .ok x := by
  fun_induction walk v ps with
  | case1 v => simp
  | case2 rest ty fields name y hy ih =>
    rw [List.cons_append, walk, hy]
    exact ih
  | case3 rest ty fields name hy =>
    rw [List.cons_append, walk, hy]
    simp
  | case4 name rest v h =>
    rw [List.cons_append, walk]
    · simp
    · exact h
  | case5 rest xs i y hy ih =>
    rw [List.cons_append, walk, hy]
    exact ih
  | case6 rest xs i hy =>
    rw [List.cons_append, walk, hy]
    simp
  | case7 i rest v h =>
    rw [List.cons_append, walk]
    · simp
    · exact h

theorem walk_field {v x : Value} {f : String} :
    walk v [.field f] = .ok x ↔ readField v f = .ok x := by
  cases v with
  | struct ty fields => simp only [walk, readField]
  | _ => simp [walk, readField]

theorem walk_snoc_field {v x : Value} {ps : List PathStep} {f : String} :
    walk v (ps ++ [.field f]) = .ok x ↔ ∃ y, walk v ps = .ok y ∧ readField y f = .ok x := by
  simp only [walk_append, walk_field]

theorem readField_ok {v x : Value} {f : String} (h : readField v f = .ok x) :
    ∃ ty fields, v = .struct ty fields ∧ fields.lookup f = some x := by
  cases v with
  | struct ty fields =>
    simp only [readField] at h
    cases hl : fields.lookup f with
    | none =>
      rw [hl] at h
      cases h
    | some y =>
      rw [hl] at h
      cases h
      exact ⟨ty, fields, rfl, hl⟩
  | _ => simp [readField] at h

/-- A write of a field is a write of the struct around it. -/
theorem replace_append (v new : Value) (ps qs : List PathStep) {y : Value}
    (h : walk v ps = .ok y) : replace v (ps ++ qs) new = replace v ps (replace y qs new) := by
  fun_induction walk v ps with
  | case1 v =>
    cases h
    rw [List.nil_append, replace]
  | case2 rest ty fields name z hz ih =>
    rw [List.cons_append, replace, replace, hz]
    dsimp only
    rw [ih h]
  | case5 rest xs i z hz ih =>
    rw [List.cons_append, replace, replace, hz]
    dsimp only
    rw [ih h]
  | case3 => cases h
  | case4 => cases h
  | case6 => cases h
  | case7 => cases h

theorem replace_field {ty f : String} {fields : List (String × Value)} {new x : Value}
    (h : fields.lookup f = some x) :
    replace (.struct ty fields) [.field f] new = .struct ty (insertField fields f new) := by
  rw [replace, h]
  dsimp only
  rw [replace]

section

variable {R E : Type}

/-- The name that a target without an index starts from, and its value. -/
inductive Rooted (s : Frame R) (x : String) : Base → Value → Prop where
  | «local» {v : Value} (h : s.locals.lookup x = some v) : Rooted s x (.local x) v
  | global {v : Value} (hl : s.locals.lookup x = none) (hg : s.globals.lookup x = some v) :
    Rooted s x (.global x) v

theorem Rooted.load {s : Frame R} {x : String} {b : Base} {v : Value} (h : Rooted s x b v)
    (path : List PathStep) : s.load ⟨b, path⟩ = walk v path := by
  cases h with
  | «local» h => simp only [Frame.load, h]
  | global _ hg => simp only [Frame.load, hg]

theorem locate_plain {q : Target Value} {s : Frame R} {a : Addr} (hq : q.indexes = [])
    (h : locate q s = .ok a) : ∃ b v, Rooted s q.root b v ∧ a = ⟨b, q.fields⟩ := by
  induction q generalizing a with
  | name x =>
    simp only [locate] at h
    cases hl : s.locals.lookup x with
    | some v =>
      rw [hl] at h
      cases h
      exact ⟨_, v, .local hl, rfl⟩
    | none =>
      cases hg : s.globals.lookup x with
      | some v =>
        rw [hl, hg] at h
        cases h
        exact ⟨_, v, .global hl hg, rfl⟩
      | none =>
        rw [hl, hg] at h
        cases h
  | field b f ih =>
    rw [locate] at h
    obtain ⟨a', hb, h⟩ := except_bind_ok h
    obtain ⟨base, v, hr, rfl⟩ := ih hq hb
    obtain ⟨y, hy, h⟩ := except_bind_ok h
    obtain ⟨z, hz, h⟩ := except_bind_ok h
    cases h
    exact ⟨base, v, hr, rfl⟩
  | index b w ih => simp [Target.indexes] at hq

theorem evalIndexes_plain {σ ε V A : Type} {side : Side σ ε E V A} {p : Target E} {q : Target V}
    {s s' : σ} {ws : List (Event E V A)} (hp : p.indexes = [])
    (h : Yields (evalIndexes side p) s q s' ws) :
    s' = s ∧ ws = [] ∧ q.root = p.root ∧ q.indexes = [] ∧ q.fields = p.fields := by
  induction p generalizing q s' ws with
  | name x =>
    obtain ⟨rfl, rfl, rfl⟩ := Yields.pure_iff.mp h
    exact ⟨rfl, rfl, rfl, rfl, rfl⟩
  | field b f ih =>
    obtain ⟨q', s₁, ws₁, ws₂, hq, hf, rfl⟩ := Yields.bind_iff.mp h
    obtain ⟨rfl, rfl, hr, hi, hpath⟩ := ih hp hq
    obtain ⟨rfl, rfl, rfl⟩ := Yields.pure_iff.mp hf
    exact ⟨rfl, rfl, hr, hi, by rw [Target.fields, hpath, Target.fields]⟩
  | index b i ih => simp [Target.indexes] at hp

variable {ev : Evaluation R E} {names : String → Except RunError Value}
  {apply : Value → Value → Except RunError Value} {s s' : Frame R}

theorem evalTarget_rooted {p : Target E} {base : Base} {v x : Value} (hp : p.indexes = [])
    (hr : Rooted s p.root base v) (hx : walk v p.fields = .ok x) :
    Yields (evalTarget ev names p) s x s [] := by
  induction p generalizing x with
  | name y =>
    cases hx
    refine Yields.get_bind.mpr ?_
    cases hr with
    | «local» h =>
      rw [Target.root] at h
      simp only [h]
      exact Yields.pure_iff.mpr ⟨rfl, rfl, rfl⟩
    | global hl hg =>
      rw [Target.root] at hl hg
      simp only [hl, hg]
      exact Yields.pure_iff.mpr ⟨rfl, rfl, rfl⟩
  | field b f ih =>
    obtain ⟨y, hy, hf⟩ := walk_snoc_field.mp hx
    exact (ih hp hr hy).bind (Yields.ofExcept_iff.mpr ⟨hf, rfl, rfl⟩)
  | index b i ih => simp [Target.indexes] at hp

theorem evalTarget_keeps {p : Target E} {x : Value} {ws : List (Event E Value Addr)}
    (hp : p.indexes = []) (h : Yields (evalTarget ev names p) s x s' ws) : s' = s := by
  induction p generalizing x s' ws with
  | name y =>
    have hn := Yields.get_bind.mp h
    split at hn
    · exact (Yields.pure_iff.mp hn).2.1.symm
    · split at hn
      · exact (Yields.pure_iff.mp hn).2.1.symm
      · exact (Yields.ofExcept_iff.mp hn).2.1.symm
  | field b f ih =>
    obtain ⟨y, s₁, _, _, hb, hf, rfl⟩ := Yields.bind_iff.mp h
    rw [← (Yields.ofExcept_iff.mp hf).2.1]
    exact ih hp hb
  | index b i ih => simp [Target.indexes] at hp

theorem placeSteps_plain {p : Target E} (hp : p.indexes = []) :
    Yields (placeSteps ev p) s p.fields s [] := by
  induction p with
  | name x => exact Yields.pure_iff.mpr ⟨rfl, rfl, rfl⟩
  | field b f ih => exact (ih hp).bind (Yields.pure_iff.mpr ⟨rfl, rfl, rfl⟩)
  | index b i ih => simp [Target.indexes] at hp

theorem placeMut_plain {p : Target E} {v x : Value} (hp : p.indexes = [])
    (hv : s.locals.lookup p.root = some v) (hx : walk v p.fields = .ok x) :
    Yields (placeMut ev p) s (p.fields, x) s [] := by
  refine (placeSteps_plain hp).bind (Yields.get_bind.mpr ?_)
  simp only [hv]
  exact Yields.ofExcept_bind.mpr ⟨x, hx, Yields.pure_iff.mpr ⟨rfl, rfl, rfl⟩⟩

theorem placeMut_root {p : Target E} {r : List PathStep × Value}
    {ws : List (Event E Value Addr)} (hp : p.indexes = [])
    (h : Yields (placeMut ev p) s r s' ws) : (s.locals.lookup p.root).isSome := by
  obtain ⟨steps, s₁, _, _, hsteps, hrest, rfl⟩ := Yields.bind_iff.mp h
  obtain ⟨-, rfl, -⟩ := (placeSteps_plain hp).unique hsteps
  have hget := Yields.get_bind.mp hrest
  split at hget
  · rename_i v hv
    rw [hv]
    rfl
  · exact absurd hget Yields.not_fail

/-- A write to a place under a name rewrites the value of the name. -/
theorem store_local {x : String} {path : List PathStep} {v val : Value}
    (hv : s.locals.lookup x = some v) (h : Frame.store ⟨.local x, path⟩ val s = .ok s') :
    (∃ y, walk v path = .ok y) ∧ s' = s.setLocal x (replace v path val) := by
  obtain ⟨y, hy, h⟩ := except_bind_ok h
  rw [(Rooted.local hv).load] at hy
  dsimp only at h
  rw [hv] at h
  cases h
  exact ⟨⟨y, hy⟩, rfl⟩

theorem store_global {x : String} {path : List PathStep} {val : Value}
    (h : Frame.store ⟨.global x, path⟩ val s = .ok s') :
    ∃ v, s.globals.lookup x = some v ∧ s' = s.setGlobal x (replace v path val) := by
  obtain ⟨y, hy, h⟩ := except_bind_ok h
  rw [Frame.load] at hy
  cases hv : s.globals.lookup x with
  | none =>
    simp only [hv] at hy
    cases hy
  | some v =>
    dsimp only at h
    rw [hv] at h
    cases h
    exact ⟨v, rfl, rfl⟩

theorem assignName_local {x : String} {v val : Value} (hv : s.locals.lookup x = some v) :
    Yields (assignName x val : Run R E Unit) s () (s.setLocal x val) [.store ⟨.local x, []⟩ val] := by
  refine Yields.get_bind.mpr ?_
  rw [hv]
  exact Yields.modify_bind.mpr (Yields.report_iff.mpr ⟨rfl, rfl⟩)

theorem assignName_global {x : String} {v val : Value} (hl : s.locals.lookup x = none)
    (hg : s.globals.lookup x = some v) :
    Yields (assignName x val : Run R E Unit) s () (s.setGlobal x val)
      [.store ⟨.global x, []⟩ val] := by
  refine Yields.get_bind.mpr ?_
  rw [hl, hg]
  exact Yields.modify_bind.mpr (Yields.report_iff.mpr ⟨rfl, rfl⟩)

theorem assignField_local {b : Target E} {f : String} {v y val : Value} (hb : b.indexes = [])
    (hv : s.locals.lookup b.root = some v) (hy : walk v (b.fields ++ [.field f]) = .ok y) :
    Yields (assignField ev b f val) s ()
      (s.setLocal b.root (replace v (b.fields ++ [.field f]) val))
      [.store ⟨.local b.root, b.fields ++ [.field f]⟩ val] := by
  obtain ⟨z, hz, hf⟩ := walk_snoc_field.mp hy
  obtain ⟨ty, fields, rfl, hl⟩ := readField_ok hf
  refine (placeMut_plain hb hv hz).bind ?_
  dsimp only
  rw [hl]
  refine Yields.modify_bind.mpr (Yields.report_iff.mpr ⟨?_, rfl⟩)
  rw [hv, replace_append v val _ _ hz, replace_field hl]
  rfl

theorem assignPlace_field {b : Target E} {f : String} {val : Value} (hb : b.indexes = []) :
    assignPlace ev names (.field b f) val = assignField ev b f val := by
  cases b with
  | name x => rfl
  | field b g => rfl
  | index b i => simp [Target.indexes] at hb

/-- The values of the target's operands do not matter to a target without an index: the write walks
the same fields again. -/
theorem assignPlace_stores {p : Target E} {base : Base} {t t' : Frame R} {v val : Value}
    (hp : p.indexes = []) (hr : Rooted s p.root base v)
    (hroot : p.isName = true ∨ (s.locals.lookup p.root).isSome)
    (hkeep : ∀ x, (t.locals.lookup x).isSome = (s.locals.lookup x).isSome)
    (h : Frame.store ⟨base, p.fields⟩ val t = .ok t') :
    Yields (assignPlace ev names p val) t () t' [.store ⟨base, p.fields⟩ val] := by
  cases hr with
  | «local» hv =>
    have ht := hkeep p.root
    rw [hv] at ht
    obtain ⟨w, hw⟩ := Option.isSome_iff_exists.mp ht
    obtain ⟨⟨y, hy⟩, rfl⟩ := store_local hw h
    cases p with
    | name x => exact assignName_local hw
    | field b f =>
      rw [assignPlace_field (b := b) hp]
      exact assignField_local hp hw hy
    | index b i => simp [Target.indexes] at hp
  | global hl hg =>
    cases p with
    | name x =>
      have ht := hkeep x
      rw [show s.locals.lookup x = none from hl] at ht
      obtain ⟨w, hw, rfl⟩ := store_global h
      exact assignName_global (Option.not_isSome_iff_eq_none.mp (by simp [ht])) hw
    | field b f =>
      rw [hl] at hroot
      simp [Target.isName] at hroot
    | index b i => simp [Target.indexes] at hp

theorem execCompound_of_once {p : Target E} {e : E} {tr : List (Event E Value Addr)}
    (hp : p.indexes = []) (hroot : p.isName = true ∨ (s.locals.lookup p.root).isSome)
    (h : Yields (once (interpSide ev apply) p e) s () s' tr) :
    Yields (execCompound ev names apply p e) s () s' tr := by
  obtain ⟨q, s₁, ws, a, old, rhs, s₂, new, hq, ha, hold, he, hnew, hst, rfl⟩ := once_iff.mp h
  obtain ⟨rfl, rfl, hqr, hqi, hqf⟩ := evalIndexes_plain hp hq
  obtain ⟨base, v, hr, rfl⟩ := locate_plain hqi ha
  have hold' : walk v q.fields = .ok old := (hr.load _).symm.trans hold
  rw [hqr] at hr
  rw [hqf] at hold' hst
  rw [hqf]
  refine (evalTarget_rooted hp hr hold').bind (observe_bind.mpr ⟨rhs, s₂, _, he, ?_, rfl⟩)
  refine Yields.ofExcept_bind.mpr ⟨new, hnew, Yields.report_bind.mpr ⟨_, ?_, rfl⟩⟩
  exact assignPlace_stores hp hr hroot (ev.keeps he) hst

theorem execCompound_root {p : Target E} {e : E} {tr : List (Event E Value Addr)}
    (hp : p.indexes = []) (h : Yields (execCompound ev names apply p e) s () s' tr) :
    p.isName = true ∨ (s.locals.lookup p.root).isSome := by
  obtain ⟨old, s₁, _, _, hold, hrest, rfl⟩ := Yields.bind_iff.mp h
  obtain rfl := evalTarget_keeps hp hold
  obtain ⟨rhs, s₂, _, he, hop, rfl⟩ := observe_bind.mp hrest
  obtain ⟨new, hnew, hreport⟩ := Yields.ofExcept_bind.mp hop
  obtain ⟨_, hassign, rfl⟩ := Yields.report_bind.mp hreport
  cases p with
  | name x => exact .inl rfl
  | field b f =>
    rw [assignPlace_field (b := b) hp] at hassign
    obtain ⟨_, _, _, _, hm, _, rfl⟩ := Yields.bind_iff.mp hassign
    rw [← ev.keeps he]
    exact .inr (placeMut_root (p := b) hp hm)
  | index b i => simp [Target.indexes] at hp

variable (ev names)

theorem counts_evalTarget (p : Target E) :
    Counts Event.isIndex p.indexes.length p.indexes.length (evalTarget ev names p) := by
  induction p with
  | name x =>
    refine .bind_free .get fun s => ?_
    split
    · exact .pure
    · split
      · exact .pure
      · exact .ofExcept
  | field b f ih => exact ih.bind_free fun _ => .ofExcept
  | index b i ih =>
    rw [Target.indexes, List.length_append]
    refine ih.bind fun _ => .bind_free (counts_observe fun _ => rfl) fun _ => ?_
    exact .bind_free .ofExcept fun _ => .bind_free .get fun _ => .ofExcept

theorem counts_evalIndex (e : E) : Counts Event.isIndex 1 1 (evalIndex ev e) :=
  .bind_free (counts_observe fun _ => rfl) fun _ => .ofExcept

theorem counts_placeSteps (p : Target E) :
    Counts Event.isIndex p.indexes.length p.indexes.length (placeSteps ev p) := by
  induction p with
  | name x => exact .pure
  | field b f ih => exact ih.bind_free fun _ => .pure
  | index b i ih =>
    rw [Target.indexes, List.length_append, Nat.add_comm]
    exact (counts_evalIndex ev i).bind fun _ => ih.bind_free fun _ => .pure

theorem counts_placeMut (p : Target E) :
    Counts Event.isIndex p.indexes.length p.indexes.length (placeMut ev p) := by
  refine (counts_placeSteps ev p).bind_free fun steps => .bind_free .get fun s => ?_
  split
  · exact .bind_free .ofExcept fun _ => .pure
  · exact .fail

theorem counts_writePlace (root : String) (steps : List PathStep) (leaf : PathStep)
    (container val : Value) :
    Counts Event.isIndex 0 0 (writePlace root steps leaf container val : Run R E Unit) :=
  .bind_free .modify fun _ => .report rfl

theorem counts_setVec (addr : Nat) (xs : List Value) (path : List PathStep) (val : Value) :
    Counts Event.isIndex 0 0 (setVec addr xs path val : Run R E Unit) :=
  .bind_free .modify fun _ => .report rfl

theorem counts_assignName (x : String) (val : Value) :
    Counts Event.isIndex 0 0 (assignName x val : Run R E Unit) := by
  refine .bind_free .get fun s => ?_
  split
  · exact .bind_free .modify fun _ => .report rfl
  · split
    · exact .bind_free .modify fun _ => .report rfl
    · exact .fail

theorem counts_assignField (b : Target E) (f : String) (val : Value) :
    Counts Event.isIndex b.indexes.length b.indexes.length (assignField ev b f val) := by
  refine (counts_placeMut ev b).bind_free fun ⟨steps, found⟩ => ?_
  cases found with
  | struct ty fields =>
    dsimp only
    split
    · exact counts_writePlace _ _ _ _ _
    · exact .fail
  | _ => exact .fail

theorem counts_assignVecField (addr : Nat) (i : E) (f : String) (val : Value) :
    Counts Event.isIndex 1 1 (assignVecField ev addr i f val) := by
  refine (counts_evalIndex ev i).bind_free fun n => .bind_free .get fun s =>
    .bind_free .ofExcept fun xs => ?_
  split
  · exact .fail
  · split
    · exact counts_setVec _ _ _ _
    · exact .fail
  · exact .fail

theorem counts_assignIndex (b : Target E) (i : E) (val : Value) :
    Counts Event.isIndex (b.indexes.length + 1) (b.indexes.length + 1)
      (assignIndex ev b i val) := by
  rw [Nat.add_comm]
  refine (counts_evalIndex ev i).bind fun n => (counts_placeMut ev b).bind_free
    fun ⟨steps, found⟩ => ?_
  cases found with
  | array xs =>
    dsimp only
    split
    · exact counts_writePlace _ _ _ _ _
    · exact .fail
  | vec addr =>
    refine .bind_free .get fun s => .bind_free .ofExcept fun xs => ?_
    split
    · exact counts_setVec _ _ _ _
    · exact .fail
  | _ => exact .fail

/-- The write evaluates every index again, and the `vec` that a field's element may be in once
more. -/
theorem counts_assignPlace (p : Target E) (val : Value) :
    Counts Event.isIndex p.indexes.length (2 * p.indexes.length)
      (assignPlace ev names p val) := by
  fun_cases assignPlace ev names p val with
  | case1 x => exact counts_assignName x val
  | case2 vbase i f =>
    rw [Target.indexes, Target.indexes, List.length_append, List.length_singleton]
    have hfield := counts_assignField ev (.index vbase i) f val
    rw [Target.indexes, List.length_append, List.length_singleton] at hfield
    refine ((counts_evalTarget ev names vbase).bind fun v =>
      (?_ : Counts Event.isIndex 1 (vbase.indexes.length + 1) _)).mono (Nat.le_refl _) (by omega)
    cases v with
    | vec addr =>
      exact (counts_assignVecField ev addr i f val).mono (Nat.le_refl _) (Nat.le_add_left _ _)
    | _ => exact hfield.mono (Nat.le_add_left _ _) (Nat.le_refl _)
  | case3 b f h =>
    rw [Target.indexes]
    exact (counts_assignField ev b f val).mono (Nat.le_refl _) (by omega)
  | case4 b i =>
    rw [Target.indexes, List.length_append, List.length_singleton]
    exact (counts_assignIndex ev b i val).mono (Nat.le_refl _) (by omega)

theorem counts_execCompound (apply : Value → Value → Except RunError Value) (p : Target E) (e : E) :
    Counts Event.isIndex (2 * p.indexes.length) (3 * p.indexes.length)
      (execCompound ev names apply p e) := by
  refine ((counts_evalTarget ev names p).bind fun old => .free_bind (counts_observe fun _ => rfl)
    fun rhs => .free_bind .ofExcept fun new => .free_bind (.report rfl) fun _ =>
    counts_assignPlace ev names p new).mono (by omega) (by omega)

/-- The interpreter runs a compound assignment as intended exactly where the target has no index
and is a name or starts from a local. -/
theorem execCompound_eq_once_iff (apply : Value → Value → Except RunError Value) {p : Target E}
    {e : E} {s : Frame R} (hok : ((once (interpSide ev apply) p e).run s).outcome = .ok ()) :
    (execCompound ev names apply p e).run s = (once (interpSide ev apply) p e).run s ↔
      p.indexes = [] ∧ (p.isName = true ∨ (s.locals.lookup p.root).isSome) := by
  cases hr : (once (interpSide ev apply) p e).run s with
  | mk r s' tr =>
    rw [hr] at hok
    cases hok
    constructor
    · intro h
      have honce := counts_once (interpSide ev apply) p e s () (by rw [hr])
      have hexec := counts_execCompound ev names apply p e s () (by rw [h])
      rw [hr] at honce
      rw [h] at hexec
      have hp : p.indexes = [] := List.length_eq_zero_iff.mp (by omega)
      exact ⟨hp, execCompound_root hp h⟩
    · rintro ⟨hp, hroot⟩
      exact execCompound_of_once hp hroot hr

end

end BetLang.Compound
