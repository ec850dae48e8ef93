import BetLang.EvalCall
import BetLang.Sequencing
import BetLang.TracedRuns
import BetLang.VibeLower

/-! When the interpreter and the lowered code agree on constructors and on `vibe`: the interpreter
knows a variant by its bare name, and keeps the last declaration of it. -/

namespace BetLang.Vibe

open Registry Traced
open Ir (Ty SumDef Variant Proj)
open Collect (Typ MoodsDecl)
open Eval (Arg Block MatchArm Run Flow Evaluator Prims Tables VariantInfo State)
open Interp (Value RunError)

section Arms

variable {W : Type} {ev : Evaluator W} {V : Type}

/-- The interpreter in a block of a `vibe`. -/
def enter (ev : Evaluator W) (arms : List MatchArm) (default : Option Block) (name : String) :
    Taken Value → Run W Flow
  | .arm k bound =>
    match arms[k]? with
    | some (.mk _ _ body) => Eval.inScope do
      Eval.declareAll (bound.map Prod.fst) (bound.map Prod.snd)
      ev.block body
    | none => Eval.raise (.nonExhaustive s!"variant `{name}`")
  | .naw =>
    match default with
    | some body => ev.block body
    | none => Eval.raise (.nonExhaustive s!"variant `{name}`")
  | .stuck => Eval.raise (.nonExhaustive s!"variant `{name}`")

theorem enter_later {a : MatchArm} {arms : List MatchArm} {default : Option Block} {name : String}
    {t : Taken Value} : enter ev (a :: arms) default name t.later = enter ev arms default name t := by
  cases t with
  | arm k bound => simp only [enter, Taken.later, List.getElem?_cons_succ]
  | naw => rfl
  | stuck => rfl

/-- The arms for the variant bind what it holds. -/
def Binds (arms : List MatchArm) (name : String) (n : Nat) : Prop :=
  ∀ variant bindings body, MatchArm.mk variant bindings body ∈ arms → variant = name →
    bindings.length = n

theorem execVibe_eq {arms : List MatchArm} {default : Option Block} {name : String}
    {payload : List Value} (h : Binds arms name payload.length) :
    Eval.execVibe ev name payload default arms =
      enter ev arms default name (firstArm arms default name payload) := by
  induction arms with
  | nil => cases default <;> rfl
  | cons a rest ih =>
    obtain ⟨variant, bindings, body⟩ := a
    by_cases hv : variant = name
    · have hlen := h variant bindings body (List.mem_cons_self ..) hv
      simp only [Eval.execVibe, firstArm, hv, if_true, hlen, ne_eq, not_true_eq_false, if_false,
        enter, List.getElem?_cons_zero]
      rw [List.map_fst_zip (Nat.le_of_eq hlen), List.map_snd_zip (Nat.le_of_eq hlen.symm)]
    · have hrest := ih fun v bs b hm => h v bs b (List.mem_cons_of_mem _ hm)
      simp only [Eval.execVibe, firstArm, hv, if_false, hrest, enter_later]

theorem variantIndex_inj {d : SumDef} {a b : String} {i : Nat} (ha : variantIndex d a = some i)
    (hb : variantIndex d b = some i) : a = b := by
  obtain ⟨_, ha, _⟩ := List.findIdx?_eq_some_iff_getElem.mp ha
  obtain ⟨_, hb, _⟩ := List.findIdx?_eq_some_iff_getElem.mp hb
  exact (beq_iff_eq.mp ha).symm.trans (beq_iff_eq.mp hb)

/-- How many fields a variant has. -/
def fieldsOf (d : SumDef) (i : Nat) : Nat := ((d.variants[i]?).map fun v => v.payload.length).getD 0

theorem lowerArm_ok {d : SumDef} {variant : String} {bindings : List String} {body : Block}
    {i : Nat} {b : ArmBlock} (h : lowerArm d (.mk variant bindings body) = .ok (i, b)) :
    variantIndex d variant = some i ∧ bindings.length = fieldsOf d i ∧
      b = ⟨bindingPlaces i bindings, body⟩ := by
  simp only [lowerArm] at h
  split at h
  · cases h
  · rename_i j hj
    split at h
    · rename_i hlen
      cases h
      exact ⟨hj, hlen, rfl⟩
    · cases h

theorem reads_eq {i : Nat} {bindings : List String} (pre : List V) {rest : List V}
    (h : bindings.length = rest.length) :
    ((bindings.zipIdx pre.length).map fun (x, j) => (x, [Proj.downcast i, .field j])).mapM
        (fun (x, proj) => (x, ·) <$> readProj i (pre ++ rest) proj) =
      some (bindings.zip rest) := by
  induction bindings generalizing pre rest with
  | nil => simp
  | cons x xs ih =>
    cases rest with
    | nil => simp at h
    | cons v vs =>
      have hvs := ih (pre ++ [v]) (Nat.succ.inj h)
      rw [List.length_append, List.length_singleton, List.append_assoc, List.singleton_append] at hvs
      rw [List.zipIdx_cons, List.map_cons, List.mapM_cons, hvs]
      simp [readProj]

/-- An arm's places read the fields of a value of its variant. -/
theorem bound_eq {i : Nat} {bindings : List String} {body : Block} {payload : List V}
    (h : bindings.length = payload.length) :
    ArmBlock.bound i payload ⟨bindingPlaces i bindings, body⟩ = some (bindings.zip payload) :=
  reads_eq [] h

theorem lookup_zipIdx (vs : List Nat) (i n : Nat) :
    (vs.zipIdx n).lookup i = (vs.findIdx? (· == i)).map (· + n) := by
  induction vs generalizing n with
  | nil => rfl
  | cons v vs ih =>
    rw [List.zipIdx_cons, List.findIdx?_cons, List.lookup_cons]
    by_cases hv : v = i
    · simp [hv]
    · have hne : (i == v) = false := by simp [Ne.symm hv]
      rw [hne, ih]
      simp [hv, Nat.add_assoc, Nat.add_comm 1 n, Function.comp_def]

theorem takeBlock_cons {b : ArmBlock} {blocks : List ArmBlock} {default : Option Block} {i : Nat}
    {payload : List V} {r : Option Nat} :
    takeBlock (b :: blocks) default i payload (r.map (· + 1)) =
      (takeBlock blocks default i payload r).map Taken.later := by
  cases r with
  | none =>
    simp only [takeBlock, Option.map_none]
    cases default <;> rfl
  | some k =>
    simp only [takeBlock, Option.map_some, List.getElem?_cons_succ]
    cases blocks[k]? with
    | none => rfl
    | some c => cases hc : c.bound i payload <;> simp [hc, Taken.later]

theorem takeBlock_lowered {d : SumDef} {arms : List MatchArm} {lowered : List (Nat × ArmBlock)}
    {default : Option Block} {name : String} {i : Nat} {payload : List V}
    (h : List.Forall₂ (fun a r => lowerArm d a = .ok r) arms lowered)
    (hi : variantIndex d name = some i) (hlen : payload.length = fieldsOf d i) :
    takeBlock (lowered.map Prod.snd) default i payload
        ((lowered.map Prod.fst).findIdx? (· == i)) =
      some (firstArm arms default name payload) := by
  induction h with
  | nil =>
    simp only [takeBlock, firstArm, List.map_nil, List.findIdx?_nil]
    cases default <;> rfl
  | @cons a r arms lowered ha _ ih =>
    obtain ⟨variant, bindings, body⟩ := a
    obtain ⟨v, b⟩ := r
    obtain ⟨hv, hb, rfl⟩ := lowerArm_ok ha
    rw [List.map_cons, List.map_cons, List.findIdx?_cons]
    by_cases hn : variant = name
    · subst hn
      obtain rfl := Option.some.inj (hv.symm.trans hi)
      simp only [beq_self_eq_true, if_true, takeBlock, List.getElem?_cons_zero, firstArm]
      simp [bound_eq (hb.trans hlen.symm)]
    · have hne : ¬(v == i) = true := by
        intro hvi
        rw [beq_iff_eq.mp hvi] at hv
        exact hn (variantIndex_inj hv hi)
      rw [if_neg hne, takeBlock_cons, ih]
      simp only [firstArm, if_neg hn, Option.map_some]

theorem take_eq {d : SumDef} {arms : List MatchArm} {default : Option Block} {em : Emitted}
    {name : String} {i : Nat} {payload : List V} (h : lowerVibe d arms default = .ok em)
    (hi : variantIndex d name = some i) (hlen : payload.length = fieldsOf d i) :
    em.take i payload = some (firstArm arms default name payload) := by
  obtain ⟨lowered, hl, h⟩ := except_bind_ok h
  cases h
  rw [Emitted.take, lookup_zipIdx]
  simp only [Nat.add_zero, Option.map_id']
  exact takeBlock_lowered (mapM_ok_iff.mp hl) hi hlen

theorem binds_of_lowerVibe {d : SumDef} {arms : List MatchArm} {default : Option Block}
    {em : Emitted} {name : String} {i : Nat} (h : lowerVibe d arms default = .ok em)
    (hi : variantIndex d name = some i) : Binds arms name (fieldsOf d i) := by
  obtain ⟨lowered, hl, _⟩ := except_bind_ok h
  intro variant bindings body hm hv
  obtain ⟨⟨v, b⟩, -, hlow⟩ := exists_of_forall₂ (mapM_ok_iff.mp hl) hm
  obtain ⟨hidx, hlen, -⟩ := lowerArm_ok hlow
  rw [hv, hi] at hidx
  cases hidx
  exact hlen

def armName : MatchArm → String
  | .mk variant _ _ => variant

theorem nodup_iff_of_lowered {d : SumDef} {arms : List MatchArm} {lowered : List (Nat × ArmBlock)}
    (h : List.Forall₂ (fun a r => lowerArm d a = .ok r) arms lowered) :
    (lowered.map Prod.fst).Nodup ↔ (arms.map armName).Nodup := by
  have hidx (a : MatchArm) (r : Nat × ArmBlock) (hr : lowerArm d a = .ok r) :
      variantIndex d (armName a) = some r.1 := by
    obtain ⟨variant, bindings, body⟩ := a
    exact (lowerArm_ok hr).1
  induction h with
  | nil => simp
  | @cons a r arms lowered ha hrest ih =>
    rw [List.map_cons, List.map_cons, List.nodup_cons, List.nodup_cons]
    refine and_congr (not_congr ?_) ih
    constructor
    · intro hm
      obtain ⟨r', hr', heq⟩ := List.mem_map.mp hm
      obtain ⟨a', ha', hlow⟩ := exists_of_forall₂ hrest.flip hr'
      have hname := hidx a' r' hlow
      rw [heq] at hname
      exact List.mem_map.mpr ⟨a', ha', variantIndex_inj hname (hidx a r ha)⟩
    · intro hm
      obtain ⟨a', ha', heq⟩ := List.mem_map.mp hm
      obtain ⟨r', hr', hlow⟩ := exists_of_forall₂ hrest ha'
      have hname := hidx a' r' hlow
      rw [heq, hidx a r ha] at hname
      exact List.mem_map.mpr ⟨r', hr', (Option.some.inj hname).symm⟩

theorem cases_nodup_iff {d : SumDef} {arms : List MatchArm} {default : Option Block} {em : Emitted}
    (h : lowerVibe d arms default = .ok em) :
    (em.cases.map Prod.fst).Nodup ↔ (arms.map armName).Nodup := by
  obtain ⟨lowered, hl, h⟩ := except_bind_ok h
  cases h
  rw [← nodup_iff_of_lowered (mapM_ok_iff.mp hl)]
  simp only [List.zipIdx_map_fst]

end Arms

section Constructors

def asMoods : Eval.Item → Option MoodsDecl
  | .moods m => some m
  | _ => none

def moodsOf (p : Eval.Program) : List MoodsDecl := p.filterMap asMoods

def declaredBy (m : MoodsDecl) : List (String × VariantInfo) :=
  m.variants.map fun v => (v.name, ⟨m.name, v.payload.length⟩)

/-- Every variant of the program, as it comes. -/
def declared (p : Eval.Program) : List (String × VariantInfo) := (moodsOf p).flatMap declaredBy

theorem register_variants (tb : Tables) (item : Eval.Item) :
    (tb.register item).variants = (declared [item]).reverse ++ tb.variants := by
  cases item with
  | func f =>
    cases hr : f.receiver <;> simp [Tables.register, hr, declared, moodsOf, asMoods]
  | moods m => simp [Tables.register, declared, moodsOf, asMoods, declaredBy]
  | _ => simp [Tables.register, declared, moodsOf, asMoods]

theorem declared_cons (item : Eval.Item) (p : Eval.Program) :
    declared (item :: p) = declared [item] ++ declared p := by
  simp only [declared, moodsOf, List.filterMap_cons, List.filterMap_nil]
  cases asMoods item <;> simp

/-- The interpreter's map keeps the last declaration of a variant name. -/
theorem tables_variants (p : Eval.Program) : p.tables.variants = (declared p).reverse := by
  have hfold (tb : Tables) :
      (p.foldl Tables.register tb).variants = (declared p).reverse ++ tb.variants := by
    induction p generalizing tb with
    | nil => rfl
    | cons item p ih =>
      rw [List.foldl_cons, ih, register_variants, declared_cons item p, List.reverse_append,
        List.append_assoc]
  have h := hfold { funcs := [], methods := [], drips := [], variants := [], externs := [] }
  rwa [List.append_nil] at h

/-- Lowering's tables of the program's moods. -/
structure LowersTo (mapType : Typ → Except String Ty) (p : Eval.Program) (l : Decls) : Prop where
  defs : (moodsOf p).mapM (mapMoods mapType) = .ok l.defs
  order : ∀ x, x ∈ l.order ↔ (sumIds (moodsOf p)).lookup x.1 = some x.2

/-- A moods that its name still refers to has a variant of the name; `v` is its first. -/
structure Declares (moods : List MoodsDecl) (name : String) (sid : Nat) (m : MoodsDecl)
    (v : Collect.VariantDecl) : Prop where
  current : (sumIds moods).lookup m.name = some sid
  decl : moods[sid]? = some m
  first : m.variants.find? (·.name == name) = some v

/-- The moods that a use needs: the one of its context, else the only one with such a variant. -/
structure Requires (moods : List MoodsDecl) (name : String) (hint : Option Ty) (sid : Nat)
    (m : MoodsDecl) (v : Collect.VariantDecl) : Prop where
  declares : Declares moods name sid m v
  context : hint = some (.sum sid) ∨
    (∀ t m' v', hint = some (.sum t) → ¬Declares moods name t m' v') ∧
      ∀ t m' v', Declares moods name t m' v' → t = sid

theorem Requires.unique {moods : List MoodsDecl} {name : String} {hint : Option Ty}
    {sid sid' : Nat} {m m' : MoodsDecl} {v v' : Collect.VariantDecl}
    (h : Requires moods name hint sid m v) (h' : Requires moods name hint sid' m' v') :
    sid = sid' ∧ m = m' ∧ v = v' := by
  have hsid : sid = sid' := by
    rcases h.context with hh | ⟨hnot, honly⟩
    · rcases h'.context with hh' | ⟨hnot', _⟩
      · cases hh.symm.trans hh'
        rfl
      · exact absurd h.declares (hnot' sid m v hh)
    · exact (honly sid' m' v' h'.declares).symm
  subst hsid
  obtain rfl := Option.some.inj (h.declares.decl.symm.trans h'.declares.decl)
  exact ⟨rfl, rfl, Option.some.inj (h.declares.first.symm.trans h'.declares.first)⟩

section Resolve

variable {mapType : Typ → Except String Ty} {p : Eval.Program} {l : Decls} {name : String}

/-- A variant of the moods and of its definition: the same name, as many fields. -/
def SameVariant (v : Collect.VariantDecl) (w : Variant) : Prop :=
  w.name = v.name ∧ w.payload.length = v.payload.length

theorem mapMoods_ok {m : MoodsDecl} {d : SumDef} (h : mapMoods mapType m = .ok d) :
    d.name = m.name ∧ List.Forall₂ SameVariant m.variants d.variants := by
  obtain ⟨ws, hws, h⟩ := except_bind_ok h
  cases h
  refine ⟨rfl, (mapM_ok_iff.mp hws).imp fun v w hw => ?_⟩
  obtain ⟨tys, htys, hw⟩ := except_bind_ok hw
  cases hw
  exact ⟨rfl, (mapM_ok_iff.mp htys).length_eq.symm⟩

theorem first_same {vs : List Collect.VariantDecl} {ws : List Variant} {i : Nat}
    (h : List.Forall₂ SameVariant vs ws) (hi : ws.findIdx? (·.name == name) = some i) :
    ∃ v w, vs.find? (·.name == name) = some v ∧ ws[i]? = some w ∧
      w.payload.length = v.payload.length := by
  induction h generalizing i with
  | nil => simp at hi
  | @cons v w vs ws hvw _ ih =>
    rw [List.findIdx?_cons] at hi
    rw [List.find?_cons]
    by_cases hw : (w.name == name) = true
    · rw [if_pos hw] at hi
      cases hi
      rw [hvw.1] at hw
      exact ⟨v, w, by rw [hw], rfl, hvw.2⟩
    · rw [if_neg hw] at hi
      obtain ⟨j, hj, rfl⟩ := Option.map_eq_some_iff.mp hi
      obtain ⟨v', w', hv', hw', hlen⟩ := ih hj
      rw [hvw.1] at hw
      exact ⟨v', w', by rw [Bool.not_eq_true] at hw; rw [hw]; exact hv', hw', hlen⟩

theorem first_exists {vs : List Collect.VariantDecl} {ws : List Variant} {v : Collect.VariantDecl}
    (h : List.Forall₂ SameVariant vs ws) (hv : vs.find? (·.name == name) = some v) :
    ∃ i, ws.findIdx? (·.name == name) = some i := by
  obtain ⟨w, hw, hvw⟩ := exists_of_forall₂ h (List.mem_of_find?_eq_some hv)
  have hname : (w.name == name) = true := by
    rw [hvw.1]
    exact List.find?_some (p := fun v : Collect.VariantDecl => v.name == name) hv
  cases hi : ws.findIdx? (·.name == name) with
  | some i => exact ⟨i, rfl⟩
  | none => exact absurd hname (by simpa using List.findIdx?_eq_none_iff.mp hi w hw)

theorem find?_candidatesIn (l : Decls) (name : String) (sid sid' : Nat) :
    (l.candidatesIn name sid').find? (·.1 == sid) =
      if sid' = sid then
        ((l.variantsOf sid).findIdx? (·.name == name)).map fun i => (sid, i)
      else none := by
  rw [Decls.candidatesIn, List.find?_map, List.find?_filter]
  by_cases h : sid' = sid
  · subst h
    rw [if_pos rfl, List.findIdx?_eq_fst_find?_zipIdx, Option.map_map]
    simp only [Function.comp_def, beq_self_eq_true, and_true, Bool.decide_eq_true]
  · rw [if_neg h]
    simp [h]

theorem find?_candidates {sid : Nat} {c : Nat × Nat}
    (h : (l.candidates name).find? (·.1 == sid) = some c) :
    ∃ key i, (key, sid) ∈ l.order ∧ (l.variantsOf sid).findIdx? (·.name == name) = some i ∧
      c = (sid, i) := by
  rw [Decls.candidates, List.find?_flatMap] at h
  obtain ⟨⟨key, sid'⟩, hmem, h⟩ := List.exists_of_findSome?_eq_some h
  dsimp only at h
  rw [find?_candidatesIn] at h
  split at h
  · rename_i hsid
    subst hsid
    obtain ⟨i, hi, rfl⟩ := Option.map_eq_some_iff.mp h
    exact ⟨key, i, hmem, hi, rfl⟩
  · cases h

theorem mem_candidates {key : String} {sid i : Nat} (hmem : (key, sid) ∈ l.order)
    (hi : (l.variantsOf sid).findIdx? (·.name == name) = some i) :
    (sid, i) ∈ l.candidates name := by
  refine List.mem_flatMap.mpr ⟨(key, sid), hmem, ?_⟩
  have hfind := find?_candidatesIn l name sid sid
  rw [if_pos rfl, hi] at hfind
  exact List.mem_of_find?_eq_some hfind

theorem exists_of_mem_candidates {c : Nat × Nat} (h : c ∈ l.candidates name) :
    ∃ key i, (key, c.1) ∈ l.order ∧ (l.variantsOf c.1).findIdx? (·.name == name) = some i := by
  cases hf : (l.candidates name).find? (·.1 == c.1) with
  | none => exact absurd (List.find?_eq_none.mp hf c h) (by simp)
  | some c' =>
    obtain ⟨key, i, hmem, hi, -⟩ := find?_candidates hf
    exact ⟨key, i, hmem, hi⟩

/-- A moods under its id has the variants of its definition. -/
theorem LowersTo.sum (hl : LowersTo mapType p l) {sid : Nat} {m : MoodsDecl}
    (hm : (moodsOf p)[sid]? = some m) :
    ∃ d, l.defs[sid]? = some d ∧ d.name = m.name ∧
      List.Forall₂ SameVariant m.variants d.variants := by
  obtain ⟨d, hd, hmap⟩ := forall₂_getElem? (mapM_ok_iff.mp hl.defs) hm
  exact ⟨d, hd, mapMoods_ok hmap⟩

theorem LowersTo.moods (hl : LowersTo mapType p l) {key : String} {sid : Nat}
    (hmem : (key, sid) ∈ l.order) :
    ∃ m, (moodsOf p)[sid]? = some m ∧ m.name = key ∧
      (sumIds (moodsOf p)).lookup m.name = some sid := by
  have hlook := (hl.order (key, sid)).mp hmem
  obtain ⟨⟨m, hm, hname⟩, _⟩ := (lookup_insertAll _ _ _ _).mp hlook
  obtain rfl := Option.some.inj hname
  exact ⟨m, hm, rfl, hlook⟩

/-- A candidate is a moods that declares the name, with the index of the first such variant. -/
theorem LowersTo.declares (hl : LowersTo mapType p l) {key : String} {sid i : Nat}
    (hmem : (key, sid) ∈ l.order)
    (hi : (l.variantsOf sid).findIdx? (·.name == name) = some i) :
    ∃ m v, Declares (moodsOf p) name sid m v ∧ l.fields sid i = v.payload.length := by
  obtain ⟨m, hm, -, hcur⟩ := hl.moods hmem
  obtain ⟨d, hd, -, hvs⟩ := hl.sum hm
  have hvars : l.variantsOf sid = d.variants := by rw [Decls.variantsOf, hd]; rfl
  rw [hvars] at hi
  obtain ⟨v, w, hv, hw, hlen⟩ := first_same hvs hi
  refine ⟨m, v, ⟨hcur, hm, hv⟩, ?_⟩
  rw [Decls.fields, hvars, hw]
  exact hlen

theorem LowersTo.index (hl : LowersTo mapType p l) {sid : Nat} {m : MoodsDecl}
    {v : Collect.VariantDecl} (h : Declares (moodsOf p) name sid m v) :
    ∃ i, (m.name, sid) ∈ l.order ∧ (l.variantsOf sid).findIdx? (·.name == name) = some i := by
  obtain ⟨d, hd, -, hvs⟩ := hl.sum h.decl
  obtain ⟨i, hi⟩ := first_exists hvs h.first
  refine ⟨i, (hl.order _).mpr h.current, ?_⟩
  rw [Decls.variantsOf, hd]
  exact hi

/-- What lowering resolves a use to: the moods that it requires, and in it the first variant of the
name. -/
structure Resolves (p : Eval.Program) (l : Decls) (name : String) (hint : Option Ty)
    (sid i : Nat) (m : MoodsDecl) (v : Collect.VariantDecl) : Prop where
  requires : Requires (moodsOf p) name hint sid m v
  index : (l.variantsOf sid).findIdx? (·.name == name) = some i
  fields : l.fields sid i = v.payload.length

theorem LowersTo.resolves_hint (hl : LowersTo mapType p l) {sid : Nat} {c : Nat × Nat}
    (h : (l.candidates name).find? (·.1 == sid) = some c) :
    ∃ m v, Resolves p l name (some (.sum sid)) c.1 c.2 m v := by
  obtain ⟨key, i, hmem, hi, rfl⟩ := find?_candidates h
  obtain ⟨m, v, hdecl, hfields⟩ := hl.declares hmem hi
  exact ⟨m, v, ⟨hdecl, .inl rfl⟩, hi, hfields⟩

theorem LowersTo.resolves_only (hl : LowersTo mapType p l) {c : Nat × Nat} {hint : Option Ty}
    (honly : l.candidates name = [c])
    (hnot : ∀ t, hint = some (.sum t) → [c].find? (·.1 == t) = none) :
    ∃ m v, Resolves p l name hint c.1 c.2 m v := by
  have hc : c ∈ l.candidates name := by rw [honly]; exact List.mem_singleton_self c
  obtain ⟨key, i, hmem, hi⟩ := exists_of_mem_candidates hc
  obtain ⟨m, v, hdecl, hfields⟩ := hl.declares hmem hi
  have heq {t : Nat} {m' : MoodsDecl} {v' : Collect.VariantDecl}
      (h' : Declares (moodsOf p) name t m' v') : t = c.1 := by
    obtain ⟨j, hmem', hj⟩ := hl.index h'
    have hin := mem_candidates hmem' hj
    rw [honly, List.mem_singleton] at hin
    rw [← hin]
  have hi' : c = (c.1, i) := by
    have hin := mem_candidates hmem hi
    rw [honly, List.mem_singleton] at hin
    exact hin.symm
  have hci : c.2 = i := congrArg Prod.snd hi'
  refine ⟨m, v, ⟨hdecl, .inr ⟨?_, fun t m' v' h' => heq h'⟩⟩, hci ▸ hi, hci ▸ hfields⟩
  intro t m' v' hh h'
  have hnone := hnot t hh
  rw [heq h'] at hnone
  simp at hnone

theorem LowersTo.resolveVariant (hl : LowersTo mapType p l) {hint : Option Ty} {sid i : Nat}
    (h : l.resolveVariant name hint = .ok (sid, i)) : ∃ m v, Resolves p l name hint sid i m v := by
  unfold Decls.resolveVariant at h
  cases hc : l.candidates name with
  | nil =>
    rw [hc] at h
    cases h
  | cons c cs =>
    rw [hc] at h
    dsimp only at h
    split at h
    · rename_i s v hhint
      cases h
      split at hhint
      · rw [← hc] at hhint
        exact hl.resolves_hint hhint
      · cases hhint
    · rename_i hhint
      cases h
      refine hl.resolves_only hc fun t ht => ?_
      rw [ht] at hhint
      exact hhint
    · cases h

end Resolve

section Uses

variable {mapType : Typ → Except String Ty} {p : Eval.Program} {l : Decls} {hint : Option Ty}

theorem LowersTo.candidates_ne_nil (hl : LowersTo mapType p l) {name : String} {sid : Nat}
    {m : MoodsDecl} {v : Collect.VariantDecl} (h : Declares (moodsOf p) name sid m v) :
    l.candidates name ≠ [] := by
  obtain ⟨i, hmem, hi⟩ := hl.index h
  exact List.ne_nil_of_mem (mem_candidates hmem hi)

/-- The sum types that a context has come from the names of moods. -/
def Named (p : Eval.Program) (hint : Option Ty) : Prop :=
  ∀ t, hint = some (.sum t) → ∃ key, (sumIds (moodsOf p)).lookup key = some t

/-- Lowering resolves a constructor to the moods that it requires, at its arity. -/
theorem LowersTo.lowerUse (hl : LowersTo mapType p l) (hnamed : Named p hint) {use : Use}
    {sid i : Nat} (h : l.lowerUse hint use = .ok (.variant sid i)) :
    (∃ m v, Resolves p l use.name hint sid i m v ∧ use.args.length = v.payload.length) ∧
      (use.isCall = true → l.funcs use.name = false) := by
  cases use with
  | bare name =>
    refine ⟨?_, fun hcall => nomatch hcall⟩
    simp only [Decls.lowerUse, Decls.lowerBare] at h
    split at h
    · obtain ⟨⟨s, v⟩, hres, h⟩ := except_bind_ok h
      dsimp only at h
      split at h
      · rename_i hfields
        cases h
        obtain ⟨m, v, hr⟩ := hl.resolveVariant hres
        exact ⟨m, v, hr, hfields.symm.trans hr.fields⟩
      · cases h
    · split at h <;> cases h
  | call name args =>
    simp only [Decls.lowerUse, Decls.lowerCall] at h
    split at h
    · rename_i hc
      obtain ⟨⟨s, v⟩, hres, h⟩ := except_bind_ok h
      dsimp only at h
      split at h
      · rename_i hfields
        cases h
        obtain ⟨m, v, hr⟩ := hl.resolveVariant hres
        exact ⟨⟨m, v, hr, hfields.trans hr.fields⟩, fun _ => hc.2⟩
      · cases h
    · split at h
      · cases h
      · split at h <;> cases h
  | cop name args =>
    refine ⟨?_, fun hcall => nomatch hcall⟩
    simp only [Decls.lowerUse, Decls.lowerCop] at h
    split at h
    · rename_i t
      split at h
      · cases h
      · rename_i d hd
        split at h
        · cases h
        · rename_i j hj
          split at h
          · rename_i hfields
            cases h
            obtain ⟨key, hkey⟩ := hnamed _ rfl
            have hvars : l.variantsOf sid = d.variants := by rw [Decls.variantsOf, hd]; rfl
            have hidx : (l.variantsOf sid).findIdx? (·.name == name) = some i := by
              rw [hvars]
              exact hj
            obtain ⟨m, v, hdecl, hlen⟩ := hl.declares ((hl.order (key, sid)).mpr hkey) hidx
            exact ⟨m, v, ⟨⟨hdecl, .inl rfl⟩, hidx, hlen⟩, hfields.trans hlen⟩
          · cases h
    · cases h

/-- A use that lowering accepts is a constructor, unless it calls a function. -/
theorem LowersTo.lowerUse_variant (hl : LowersTo mapType p l) {use : Use} {r : Resolved}
    {sid : Nat} {m : MoodsDecl} {v : Collect.VariantDecl}
    (h : l.lowerUse hint use = .ok r) (hdecl : Declares (moodsOf p) use.name sid m v)
    (hcall : use.isCall = true → l.funcs use.name = false) : ∃ s i, r = .variant s i := by
  have hne := hl.candidates_ne_nil hdecl
  cases use with
  | bare name =>
    simp only [Decls.lowerUse, Decls.lowerBare] at h
    rw [if_pos (show l.candidates name ≠ [] from hne)] at h
    obtain ⟨⟨s, v⟩, _, h⟩ := except_bind_ok h
    dsimp only at h
    split at h
    · cases h
      exact ⟨s, v, rfl⟩
    · cases h
  | call name args =>
    simp only [Decls.lowerUse, Decls.lowerCall] at h
    rw [if_pos ⟨hne, hcall rfl⟩] at h
    obtain ⟨⟨s, v⟩, _, h⟩ := except_bind_ok h
    dsimp only at h
    split at h
    · cases h
      exact ⟨s, v, rfl⟩
    · cases h
  | cop name args =>
    simp only [Decls.lowerUse, Decls.lowerCop] at h
    split at h
    · split at h
      · cases h
      · split at h
        · cases h
        · split at h
          · cases h
            exact ⟨_, _, rfl⟩
          · cases h
    · cases h

end Uses

section Interpreter

variable {W : Type} {tb : Tables} {ev : Evaluator W}

/-- A use as the interpreter evaluates it. -/
def interpUse (tb : Tables) (ev : Evaluator W) : Use → Run W (List Value)
  | .bare name => do
    let v ← Eval.evalName tb name
    return [v]
  | .call name args => Eval.evalPlainCall tb ev (.name name) args
  | .cop name args => do
    let v ← Eval.evalCopInit tb ev (.variant name args)
    return [v]

/-- No variable has the name. -/
def Use.free (s : State W) : Use → Prop
  | .bare name => s.store.env.get name = none ∧ s.store.globals.lookup name = none
  | .call name _ => s.store.env.get name = none
  | .cop _ _ => True

theorem yields_constructVariant {name moods : String} {n : Nat} {args : List Arg} {s s' : State W}
    {payload : List Value} {tr : List Eval.Write} {r : Value}
    (hargs : Yields (Eval.evalArgs ev args) s payload s' tr) :
    Yields (Eval.constructVariant ev name moods n args) s r s' tr ↔
      args.length = n ∧ r = .variant moods name payload := by
  rw [Eval.constructVariant]
  by_cases hn : args.length = n
  · rw [if_neg (not_not.mpr hn), Yields.bind_iff]
    constructor
    · rintro ⟨a, s₁, ws, ws', ha, hr, -⟩
      obtain ⟨rfl, -, -⟩ := hargs.unique ha
      exact ⟨hn, (Yields.pure_iff.mp hr).1.symm⟩
    · rintro ⟨_, rfl⟩
      exact ⟨payload, s', tr, [], hargs, Yields.pure_iff.mpr ⟨rfl, rfl, rfl⟩, by simp⟩
  · rw [if_pos hn]
    exact ⟨fun h => absurd h Yields.not_fail, fun h => absurd h.1 hn⟩

theorem yields_return {α β : Type} {x : Run W α} {f : α → β} {s s' : State W} {b : β}
    {tr : List Eval.Write} :
    Yields (x >>= fun a => pure (f a)) s b s' tr ↔ ∃ a, Yields x s a s' tr ∧ b = f a := by
  rw [Yields.bind_iff]
  constructor
  · rintro ⟨a, s₁, ws, ws', ha, hb, rfl⟩
    obtain ⟨rfl, rfl, rfl⟩ := Yields.pure_iff.mp hb
    rw [List.append_nil]
    exact ⟨a, ha, rfl⟩
  · rintro ⟨a, ha, rfl⟩
    exact ⟨a, s', tr, [], ha, Yields.pure_iff.mpr ⟨rfl, rfl, rfl⟩, by simp⟩

/-- The interpreter makes a value of the last declared variant of the name, at its arity. -/
theorem interpUse_iff {use : Use} {s s' : State W} {payload : List Value} {tr : List Eval.Write}
    {info : VariantInfo} {name' : String} (hfree : use.free s)
    (hlook : tb.variants.lookup use.name = some info)
    (hargs : Yields (Eval.evalArgs ev use.args) s payload s' tr) :
    Yields (interpUse tb ev use) s [.variant name' use.name payload] s' tr ↔
      use.args.length = info.arity ∧ name' = info.moods := by
  cases use with
  | bare name =>
    obtain ⟨rfl, rfl, rfl⟩ := Yields.pure_iff.mp hargs
    have hlook : tb.variants.lookup name = some info := hlook
    rw [interpUse, yields_return]
    simp only [Eval.evalName, Yields.get_bind, hfree.1, hfree.2, hlook]
    by_cases h0 : info.arity = 0
    · rw [if_pos h0]
      simp [Yields.pure_iff, Use.args, Use.name, h0, eq_comm]
    · rw [if_neg h0]
      simp [Eval.raise, Yields.not_fail, Use.args, eq_comm, h0]
  | call name args =>
    have hlook : tb.variants.lookup name = some info := hlook
    have hargs : Yields (Eval.evalArgs ev args) s payload s' tr := hargs
    have hfree : s.store.env.get name = none := hfree
    simp only [interpUse, Eval.evalPlainCall, Yields.get_bind, hfree, hlook]
    rw [yields_return]
    simp [yields_constructVariant hargs, Use.args, Use.name]
  | cop name args =>
    have hlook : tb.variants.lookup name = some info := hlook
    have hargs : Yields (Eval.evalArgs ev args) s payload s' tr := hargs
    rw [interpUse, yields_return]
    simp only [Eval.evalCopInit, hlook]
    simp [yields_constructVariant hargs, Use.args, Use.name]

end Interpreter

section Agreement

variable {W : Type} {mapType : Typ → Except String Ty} {p : Eval.Program} {l : Decls}
  {hint : Option Ty} {use : Use} {ev : Evaluator W} {s s' : State W} {payload : List Value}
  {tr : List Eval.Write}

theorem lookup_declared {name : String} {sid : Nat} {m : MoodsDecl} {v : Collect.VariantDecl}
    (h : Declares (moodsOf p) name sid m v) : ((declared p).reverse.lookup name).isSome := by
  refine List.lookup_isSome_iff.mpr ⟨(v.name, ⟨m.name, v.payload.length⟩), ?_, ?_⟩
  · refine List.mem_reverse.mpr (List.mem_flatMap.mpr ⟨m, List.mem_of_getElem? h.decl, ?_⟩)
    exact List.mem_map.mpr ⟨v, List.mem_of_find?_eq_some h.first, rfl⟩
  · have hname := List.find?_some (p := fun v : Collect.VariantDecl => v.name == name) h.first
    rw [← beq_iff_eq.mp hname]
    exact beq_self_eq_true v.name

/-- Lowering makes the variant that the context requires, and the interpreter a value of the same
moods with the same payload. -/
def ConstructsSame (p : Eval.Program) (l : Decls) (ev : Evaluator W) (hint : Option Ty) (use : Use)
    (s s' : State W) (payload : List Value) (tr : List Eval.Write) : Prop :=
  ∃ sid i m v, l.lowerUse hint use = .ok (.variant sid i) ∧
    Resolves p l use.name hint sid i m v ∧
    Yields (interpUse p.tables ev use) s [.variant m.name use.name payload] s' tr

/-- The required moods is the last that declares the name, with as many fields, and no function is
called. -/
def LastDeclared (p : Eval.Program) (l : Decls) (hint : Option Ty) (use : Use) : Prop :=
  ∃ sid m v, Requires (moodsOf p) use.name hint sid m v ∧
    (declared p).reverse.lookup use.name = some ⟨m.name, v.payload.length⟩ ∧
    (use.isCall = true → l.funcs use.name = false)

/-- On every value of the moods both run the first arm for its variant with what it holds, else the
`naw` block. -/
def TakesSame (ev : Evaluator W) (d : SumDef) (arms : List MatchArm) (default : Option Block)
    (em : Emitted) : Prop :=
  ∀ (V : Type) name i (payload : List Value) (words : List V), variantIndex d name = some i →
    payload.length = fieldsOf d i → words.length = fieldsOf d i →
    Eval.execVibe ev name payload default arms =
        enter ev arms default name (firstArm arms default name payload) ∧
      em.take i words = some (firstArm arms default name words)

theorem takesSame {d : SumDef} {arms : List MatchArm} {default : Option Block} {em : Emitted}
    (h : lowerVibe d arms default = .ok em) : TakesSame ev d arms default em := by
  intro V name i payload words hi hpayload hwords
  refine ⟨execVibe_eq ?_, take_eq h hi hwords⟩
  rw [hpayload]
  exact binds_of_lowerVibe h hi

theorem constructsSame_iff (hl : LowersTo mapType p l) (hnamed : Named p hint) {r : Resolved}
    (huse : l.lowerUse hint use = .ok r) (hfree : use.free s)
    (hargs : Yields (Eval.evalArgs ev use.args) s payload s' tr) :
    ConstructsSame p l ev hint use s s' payload tr ↔ LastDeclared p l hint use := by
  constructor
  · rintro ⟨sid, i, m, v, hlow, hres, hy⟩
    obtain ⟨⟨m', v', hres', hlen⟩, hcall⟩ := hl.lowerUse hnamed hlow
    obtain ⟨-, rfl, rfl⟩ := hres.requires.unique hres'.requires
    obtain ⟨info, hinfo⟩ := Option.isSome_iff_exists.mp (lookup_declared hres.requires.declares)
    have hlook : p.tables.variants.lookup use.name = some info := by
      rw [tables_variants]
      exact hinfo
    obtain ⟨harity, hmoods⟩ := (interpUse_iff hfree hlook hargs).mp hy
    refine ⟨sid, m, v, hres.requires, ?_, hcall⟩
    rw [hinfo, ← hlen, harity, hmoods]
  · rintro ⟨sid, m, v, hreq, hinfo, hcall⟩
    obtain ⟨sid', i, rfl⟩ := hl.lowerUse_variant huse hreq.declares hcall
    obtain ⟨⟨m', v', hres, hlen⟩, _⟩ := hl.lowerUse hnamed huse
    obtain ⟨-, rfl, rfl⟩ := hreq.unique hres.requires
    refine ⟨sid', i, m, v, huse, hres, ?_⟩
    rw [← tables_variants] at hinfo
    exact (interpUse_iff hfree hinfo hargs).mpr ⟨hlen, rfl⟩

/-- Constructors agree where the last declaration of the name is the required one, and the switch
has distinct cases where no variant has two arms; the arms always agree. -/
theorem vibe_agrees_iff (hl : LowersTo mapType p l) (hnamed : Named p hint) {r : Resolved}
    (huse : l.lowerUse hint use = .ok r) (hfree : use.free s)
    (hargs : Yields (Eval.evalArgs ev use.args) s payload s' tr) {d : SumDef}
    {arms : List MatchArm} {default : Option Block} {em : Emitted}
    (hvibe : lowerVibe d arms default = .ok em) :
    ConstructsSame p l ev hint use s s' payload tr ∧ TakesSame ev d arms default em ∧
        (em.cases.map Prod.fst).Nodup ↔
      LastDeclared p l hint use ∧ (arms.map armName).Nodup := by
  rw [constructsSame_iff hl hnamed huse hfree hargs, cases_nodup_iff hvibe]
  exact and_congr_right fun _ => ⟨fun h => h.2, fun h => ⟨takesSame hvibe, h⟩⟩

end Agreement

section Samples

/-- An evaluator that knows the number one. -/
def oneEvaluator : Evaluator Unit where
  expr _ := pure (.int 1 .word)
  block _ := pure .normal
  vibin _ _ := pure .normal
  zeroDefault _ _ := pure .ghosted

def emptyState : State Unit where
  store := ⟨[[]], [], [], [], [], []⟩
  retStack := []
  depth := 0
  out := ""
  world := ()
  budget := 0

def intType : Typ → Except String Ty := fun _ => .ok (.int .w64 true)

/-- `moods A { X(int) }`, and `moods B { X }`. -/
def moodsA : MoodsDecl := ⟨"A", [⟨"X", [.named "int" []]⟩]⟩

def moodsB : MoodsDecl := ⟨"B", [⟨"X", []⟩]⟩

def declsA : Decls where
  defs := [⟨"A", [⟨"X", [.int .w64 true]⟩]⟩]
  order := [("A", 0)]
  funcs _ := false
  externs _ := false

def declsAB : Decls where
  defs := [⟨"A", [⟨"X", [.int .w64 true]⟩]⟩, ⟨"B", [⟨"X", []⟩]⟩]
  order := [("A", 0), ("B", 1)]
  funcs _ := false
  externs _ := false

def callX : Use := .call "X" [.mk none (.int 1)]

theorem declsA_lowers : LowersTo intType [.moods moodsA] declsA where
  defs := rfl
  order x := by
    obtain ⟨key, i⟩ := x
    show (key, i) ∈ [("A", 0)] ↔ List.lookup key [("A", 0)] = some i
    rw [List.lookup_cons, List.lookup_nil]
    by_cases hk : key = "A"
    · simp [hk, eq_comm]
    · simp [hk, beq_eq_false_iff_ne.mpr hk]

theorem vibe_agrees_sample :
    ConstructsSame [.moods moodsA] declsA oneEvaluator none callX emptyState emptyState
        [.int 1 .word] [] ∧
      TakesSame oneEvaluator ⟨"A", [⟨"X", [.int .w64 true]⟩]⟩ [.mk "X" ["n"] []] none
        ⟨[(0, 0)], [⟨[("n", [.downcast 0, .field 0])], []⟩], none⟩ ∧ [0].Nodup := by
  have hnamed : Named [.moods moodsA] none := fun t h => nomatch h
  have huse : declsA.lowerUse none callX = .ok (.variant 0 0) := rfl
  have hfree : callX.free emptyState := (rfl : emptyState.store.env.get "X" = none)
  have hargs : Yields (Eval.evalArgs oneEvaluator callX.args) emptyState [.int 1 .word]
      emptyState [] := rfl
  have hvibe : lowerVibe ⟨"A", [⟨"X", [.int .w64 true]⟩]⟩ [.mk "X" ["n"] []] none =
      .ok ⟨[(0, 0)], [⟨[("n", [.downcast 0, .field 0])], []⟩], none⟩ := rfl
  have hreq : Requires (moodsOf [.moods moodsA]) "X" none 0 moodsA ⟨"X", [.named "int" []]⟩ := by
    refine ⟨⟨rfl, rfl, rfl⟩, .inr ⟨?_, ?_⟩⟩
    · intro t m' v' h
      cases h
    · intro t m' v' h
      have hlt := (List.getElem?_eq_some_iff.mp h.decl).1
      exact Nat.lt_one_iff.mp hlt
  exact (vibe_agrees_iff declsA_lowers hnamed huse hfree hargs hvibe).mpr
    ⟨⟨0, moodsA, _, hreq, rfl, fun _ => rfl⟩, by decide⟩

/-- With `moods B { X }` after `moods A { X(int) }`, the interpreter refuses `X(1)` where an `A` is
wanted; and an arm that comes twice is a case that comes twice. -/
theorem last_declaration_taken :
    declsAB.lowerUse (some (.sum 0)) callX = .ok (.variant 0 0) ∧
    (interpUse (Eval.Program.tables [.moods moodsA, .moods moodsB]) oneEvaluator callX).run
        emptyState = ⟨.error (.raise (.arity "variant `X`" 0 1)), emptyState, []⟩ ∧
    lowerVibe ⟨"A", [⟨"X", [.int .w64 true]⟩]⟩ [.mk "X" ["n"] [], .mk "X" ["m"] []] none =
      .ok ⟨[(0, 0), (0, 1)], [⟨[("n", [.downcast 0, .field 0])], []⟩,
        ⟨[("m", [.downcast 0, .field 0])], []⟩], none⟩ :=
  ⟨rfl, rfl, rfl⟩

end Samples

end Constructors

end BetLang.Vibe
