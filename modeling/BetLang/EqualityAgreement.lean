import BetLang.CompiledEquality
import BetLang.Crib
import BetLang.IntStorage
import BetLang.PayloadLayout
import Mathlib.Data.List.Dedup
import Mathlib.Data.List.Sort

/-! `==` and `!=` in compiled code against the interpreter's, on values that correspond. -/

namespace BetLang

open Ir Llvm Codegen

namespace Comparing

open Interp

/-- The interpreter's side of the values of a run. A drip and a variant have a name there; a tag
is numbered per crib, and `tagOf` is the number compiled code issued for the same element. -/
structure Correspondence where
  dripName : Nat → String
  moodsOf : String → String
  issued : Nat → Nat → BitVec 64 → Prop
  tagOf : Nat → Nat → BitVec 64 → Tag
  tagOf_ne_null : ∀ {a s g}, issued a s g → tagOf a s g ≠ Tag.null
  tagOf_inj : ∀ {a s g s' g'}, issued a s g → issued a s' g' → tagOf a s g = tagOf a s' g' →
    s = s' ∧ g = g'
  /-- What the words of a payload have to say about its values. -/
  holds : List (BitVec 64) → List Val → Prop

def tagVal (t : Tag) : Val := .struct [.int 32 t.slot, .int 32 t.pad, .int 64 t.generation]

/-- The keys of a drip's fields, in the order of the interpreter's map. -/
def fieldKeys (d : StructDef) : List String :=
  ((d.fields.map (·.name)).insertionSort (· ≤ ·)).dedup

/-- The words of a payload; a type without any leaves the array out. -/
def payloadArea (words : List (BitVec 64)) : List Val :=
  if words = [] then [] else [.array (.int 64) (words.map (.int 64))]

/-- An integer of the type, or for a byte the value of a byte literal. -/
def HoldsInt (w : IntWidth) (signed : Bool) (x : BitVec w.bits) (v : Value) : Prop :=
  (∃ ty, v = .int (stored w signed x) ty) ∨
    (w = .w8 ∧ signed = false) ∧ ∃ b : BitVec 8, v = .byte b ∧ b.toNat = x.toNat

/-- The variant `i` is the first of its name, the one a constructor stands for, and its payload
fits the words of the type. -/
structure Constructs (m : Module) (fuel : Nat) (d : SumDef) (i : BitVec 32) (var : Variant)
    (words : List (BitVec 64)) : Prop where
  words_eq : sumPayloadWords m fuel d = .ok words.length
  var_eq : d.variants[i.toNat]? = some var
  first : ∀ j < i.toNat, ∀ other, d.variants[j]? = some other → other.name ≠ var.name
  fits : ∃ n ≤ words.length, variantWords .exact (wordsWith .exact m fuel) var = .ok n

/-- The interpreter keeps apart what has one representation in compiled code: a byte literal
and an integer, and the tags of two cribs. -/
def kindsDiffer : Value → Value → Bool
  | .byte _, .int _ _ => true
  | .int _ _, .byte _ => true
  | .tag a _ _, .tag a' _ _ => a != a'
  | _, _ => false

def tellsApart : Value → Value → Bool
  | .struct _ fs, .struct _ gs => (fs.zip gs).any fun p => kindsDiffer p.1.2 p.2.2
  | v, w => kindsDiffer v w

/-- A compiled value of an IR type and the interpreter's value it stands for. The types are
those of the language's comparisons; a tuple is no value of the interpreter's. -/
def Corr (c : Correspondence) (m : Module) : Nat → Ir.Ty → Val → Value → Prop
  | 0, _, _, _ => False
  | fuel + 1, ty, l, v =>
    match ty with
    | .bool => ∃ b : Bool, l = .int 1 (BitVec.ofBool b) ∧ v = .bool b
    | .int w signed => ∃ x : BitVec w.bits, l = .int w.bits x ∧ HoldsInt w signed x v
    | .f32 => ∃ x y, l = .float x ∧ v = .float y ∧ Ieee754.Widens x y
    | .f64 => ∃ x, l = .double x ∧ v = .float x
    | .str => ∃ p s, l = .struct [.ptr p, .int 64 (BitVec.ofNat 64 s.utf8ByteSize)] ∧ v = .str s
    | .tag _ =>
      (l = tagVal Tag.null ∧ v = .ghosted) ∨
        ∃ a s g, c.issued a s g ∧ l = tagVal (c.tagOf a s g) ∧ v = .tag a s g
    | .struct sid => ∃ d ls fs, m.structs[sid]? = some d ∧ l = .struct ls ∧
        v = .struct (c.dripName sid) fs ∧ fs.map Prod.fst = fieldKeys d ∧
        List.Forall₂ (fun f x => ∃ a, fs.lookup f.name = some a ∧ Corr c m fuel f.ty x a)
          d.fields ls
    | .sum sid => ∃ d i var words payload, m.sums[sid]? = some d ∧
        Constructs m fuel d i var words ∧ l = .struct (.int 32 i :: payloadArea words) ∧
        v = .variant (c.moodsOf var.name) var.name (payload.map Prod.snd) ∧ c.holds words (payload.map Prod.fst) ∧
        List.Forall₂ (fun t p => Corr c m fuel t p.1 p.2) var.payload payload
    | _ => False

section

variable {c : Correspondence} {m : Module} {shared : Value → Value → Bool}

/-- A compiled value is of the type codegen gives to its IR type. -/
theorem corr_basicTy {fuel : Nat} {ty : Ir.Ty} {l : Val} {v : Value} (h : Corr c m fuel ty l v) :
    basicTy m fuel ty = .ok l.ty := by
  induction fuel generalizing ty l v with
  | zero => exact h.elim
  | succ fuel ih =>
    cases ty with
    | bool => obtain ⟨b, rfl, -⟩ := h; rfl
    | int w signed => obtain ⟨x, rfl, -⟩ := h; rfl
    | f32 => obtain ⟨x, y, rfl, -⟩ := h; rfl
    | f64 => obtain ⟨x, rfl, -⟩ := h; rfl
    | str => obtain ⟨p, s, rfl, -⟩ := h; rfl
    | tag => obtain ⟨rfl, -⟩ | ⟨a, s, g, -, rfl, -⟩ := h <;> rfl
    | struct sid =>
      obtain ⟨d, ls, fs, hd, rfl, -, -, hls⟩ := h
      have hm : d.fields.mapM (fun f => basicTy m fuel f.ty) = .ok (tys ls) := by
        rw [mapM_ok_iff, tys_eq_map, List.forall₂_map_right_iff]
        exact hls.imp fun f x ⟨a, _, hx⟩ => ih hx
      simp only [basicTy, hd, hm]
      rfl
    | sum sid =>
      obtain ⟨d, i, var, words, payload, hd, hc, rfl, -⟩ := h
      simp only [basicTy, hd, sumLlvmTy, hc.words_eq]
      cases words with
      | nil => rfl
      | cons x xs => simp [payloadArea, Val.ty, tys]
    | _ => exact h.elim

theorem mem_keys_of_lookup {k : String} {a : Value} {fs : List (String × Value)}
    (h : fs.lookup k = some a) : k ∈ fs.map Prod.fst := by
  obtain ⟨pre, post, rfl, -⟩ := List.lookup_eq_some_iff.mp h
  simp

/-- Two maps with the same keys: pairs in their order are pairs under one key. -/
theorem forall_zip_iff {T : Value → Value → Prop} {fs gs : List (String × Value)}
    (hk : fs.map Prod.fst = gs.map Prod.fst) (hn : (fs.map Prod.fst).Nodup) :
    (∀ p ∈ fs.zip gs, T p.1.2 p.2.2) ↔
      ∀ k a b, fs.lookup k = some a → gs.lookup k = some b → T a b := by
  induction fs generalizing gs with
  | nil => simp
  | cons f fs ih =>
    cases gs with
    | nil => simp at hk
    | cons g gs =>
      obtain ⟨k, a⟩ := f
      obtain ⟨k', b⟩ := g
      rw [List.map_cons, List.map_cons] at hk
      obtain ⟨rfl, hk'⟩ := List.cons.inj hk
      obtain ⟨hnot, hn⟩ := List.nodup_cons.mp hn
      rw [List.zip_cons_cons, List.forall_mem_cons, ih hk' hn]
      constructor
      · rintro ⟨hab, hrest⟩ k' a' b' ha hb
        rw [List.lookup_cons] at ha hb
        cases hkk : k' == k with
        | true =>
          rw [hkk] at ha hb
          cases ha
          cases hb
          exact hab
        | false =>
          rw [hkk] at ha hb
          exact hrest k' a' b' ha hb
      · intro hall
        refine ⟨hall k a b (by simp) (by simp), fun k' a' b' ha hb => hall k' a' b' ?_ ?_⟩
        all_goals
          have hne : (k' == k) = false := by
            rw [beq_eq_false_iff_ne]
            rintro rfl
            exact hnot (mem_keys_of_lookup ha)
          rw [List.lookup_cons, hne]
          assumption

theorem sameFields_iff {fs gs : List (String × Value)} (hk : fs.map Prod.fst = gs.map Prod.fst) :
    sameFields shared fs gs = true ↔ ∀ p ∈ fs.zip gs, p.1.2.same shared p.2.2 = true := by
  induction fs generalizing gs with
  | nil =>
    cases gs with
    | nil => simp [sameFields]
    | cons g gs => simp at hk
  | cons f fs ih =>
    cases gs with
    | nil => simp at hk
    | cons g gs =>
      obtain ⟨k, a⟩ := f
      obtain ⟨k', b⟩ := g
      rw [List.map_cons, List.map_cons] at hk
      obtain ⟨rfl, hk'⟩ := List.cons.inj hk
      rw [sameFields, List.zip_cons_cons, List.forall_mem_cons, ← ih hk']
      simp

theorem fieldKeys_nodup (d : StructDef) : (fieldKeys d).Nodup := List.nodup_dedup _

theorem mem_fieldKeys {d : StructDef} {k : String} :
    k ∈ fieldKeys d ↔ ∃ f ∈ d.fields, f.name = k := by
  simp [fieldKeys]

/-- What holds of the values under each key holds of the values of each field. -/
theorem forall_fields_iff {T : Value → Value → Prop} {d : StructDef} {fs gs : List (String × Value)}
    (hf : fs.map Prod.fst = fieldKeys d) (hg : gs.map Prod.fst = fieldKeys d) :
    (∀ p ∈ fs.zip gs, T p.1.2 p.2.2) ↔
      ∀ f ∈ d.fields, ∀ a b, fs.lookup f.name = some a → gs.lookup f.name = some b → T a b := by
  rw [forall_zip_iff (hf.trans hg.symm) (hf ▸ fieldKeys_nodup d)]
  constructor
  · intro h f _ a b
    exact h f.name a b
  · intro h k a b ha hb
    obtain ⟨f, hmem, rfl⟩ := mem_fieldKeys.mp (hf ▸ mem_keys_of_lookup ha)
    exact h f hmem a b ha hb

theorem holdsInt_same {w : IntWidth} {signed : Bool} {x y : BitVec w.bits} {v u : Value}
    (hx : HoldsInt w signed x v) (hy : HoldsInt w signed y u) :
    v.same shared u = true ↔ (x.toNat == y.toNat) = true ∧ kindsDiffer v u = false := by
  rw [beq_iff_eq, BitVec.toNat_inj]
  rcases hx with ⟨ty, rfl⟩ | ⟨hw, b, rfl, hb⟩ <;> rcases hy with ⟨ty', rfl⟩ | ⟨hw', b', rfl, hb'⟩
  · simp [kindsDiffer, stored_inj]
  · simp [kindsDiffer]
  · simp [kindsDiffer]
  · rw [← BitVec.toNat_inj, ← hb, ← hb', BitVec.toNat_inj]
    simp [kindsDiffer]

/-- A number is the same for the interpreter as for compiled code, up to the kind of its value. -/
theorem corr_part {fuel : Nat} {ty : Ir.Ty} {x y : Val} {a b : Value}
    (hx : Corr c m fuel ty x a) (hy : Corr c m fuel ty y b) (hs : isScalarTy x.ty = true) :
    a.same shared b = true ↔ alikePart x y = true ∧ kindsDiffer a b = false := by
  cases fuel with
  | zero => exact hx.elim
  | succ fuel =>
    cases ty with
    | bool =>
      obtain ⟨b, rfl, rfl⟩ := hx
      obtain ⟨b', rfl, rfl⟩ := hy
      cases b <;> cases b' <;> simp [kindsDiffer, alikePart]
    | int w signed =>
      obtain ⟨x, rfl, hx⟩ := hx
      obtain ⟨y, rfl, hy⟩ := hy
      exact holdsInt_same hx hy
    | f32 =>
      obtain ⟨x, x', rfl, rfl, hx⟩ := hx
      obtain ⟨y, y', rfl, rfl, hy⟩ := hy
      simp [kindsDiffer, alikePart, hx.f64Eq_eq hy]
    | f64 =>
      obtain ⟨x, rfl, rfl⟩ := hx
      obtain ⟨y, rfl, rfl⟩ := hy
      simp [kindsDiffer, alikePart]
    | str => obtain ⟨p, s, rfl, -⟩ := hx; cases hs
    | tag => obtain ⟨rfl, -⟩ | ⟨a, s, g, -, rfl, -⟩ := hx <;> cases hs
    | struct sid => obtain ⟨d, ls, fs, hd, rfl, -⟩ := hx; cases hs
    | sum sid => obtain ⟨d, i, var, words, payload, hd, hc, rfl, -⟩ := hx; cases hs
    | _ => exact hx.elim

theorem corr_parts {fuel : Nat} {fields : List Field} {ls rs : List Val}
    {fs gs : List (String × Value)}
    (hl : List.Forall₂ (fun f x => ∃ a, fs.lookup f.name = some a ∧ Corr c m fuel f.ty x a)
      fields ls)
    (hr : List.Forall₂ (fun f x => ∃ a, gs.lookup f.name = some a ∧ Corr c m fuel f.ty x a)
      fields rs)
    (hs : (tys ls).all isScalarTy = true) :
    (∀ f ∈ fields, ∀ a b, fs.lookup f.name = some a → gs.lookup f.name = some b →
      a.same shared b = true) ↔
    allAlike ls rs = true ∧ ∀ f ∈ fields, ∀ a b, fs.lookup f.name = some a →
      gs.lookup f.name = some b → kindsDiffer a b = false := by
  induction hl generalizing rs with
  | nil =>
    cases hr
    simp [allAlike]
  | cons hx _ ih =>
    cases hr with
    | cons hy hr =>
      obtain ⟨a, hfa, hx⟩ := hx
      obtain ⟨b, hgb, hy⟩ := hy
      rw [tys, List.all_cons, Bool.and_eq_true] at hs
      have hpart : a.same shared b = true ↔ _ := corr_part hx hy hs.1
      have hone (T : Value → Value → Prop) :
          (∀ a' b', some a = some a' → some b = some b' → T a' b') ↔ T a b :=
        ⟨fun h => h a b rfl rfl, fun h a' b' ha hb => by cases ha; cases hb; exact h⟩
      simp only [List.forall_mem_cons, hfa, hgb, hone, ih hr hs.2, hpart, allAlike,
        Bool.and_eq_true]
      exact and_and_and_comm

theorem words_zero {words : Ir.Ty → Except String Nat} {tys : List Ir.Ty} {ws : List Nat}
    (h : List.Forall₂ (fun t w => words t = .ok w) tys ws) (hsum : ws.sum = 0) :
    ∀ t ∈ tys, words t = .ok 0 := by
  induction h with
  | nil => simp
  | cons ht _ ih =>
    rw [List.sum_cons, Nat.add_eq_zero_iff] at hsum
    rw [List.forall_mem_cons]
    exact ⟨hsum.1 ▸ ht, ih hsum.2⟩

theorem fields_wordless {fuel sid : Nat} {d : StructDef} (hd : m.structs[sid]? = some d)
    (h : wordsWith .exact m (fuel + 1) (.struct sid) = .ok 0) :
    ∀ f ∈ d.fields, wordsWith .exact m fuel f.ty = .ok 0 := by
  obtain ⟨ws, hsum, hws⟩ := wordsWith_struct h
  rw [fieldTys_of hd] at hws
  intro f hf
  exact words_zero hws hsum.symm f.ty (List.mem_map_of_mem hf)

theorem payload_wordless {fuel : Nat} {var : Variant}
    (h : variantWords .exact (wordsWith .exact m fuel) var = .ok 0) :
    ∀ t ∈ var.payload, wordsWith .exact m fuel t = .ok 0 := by
  obtain ⟨ws, hws, h⟩ := except_bind_ok h
  exact words_zero (mapM_ok_iff.mp hws) (Except.ok.inj h)

theorem sum_has_words {fuel sid : Nat} : wordsWith .exact m (fuel + 1) (.sum sid) ≠ .ok 0 := by
  intro h
  unfold wordsWith at h
  cases hd : m.sums[sid]? with
  | none => simp only [hd, reduceCtorEq] at h
  | some d =>
    simp only [hd] at h
    obtain ⟨ws, -, h⟩ := except_bind_ok h
    have hsum := Except.ok.inj h
    simp only [WordArith.exact, List.sum_cons] at hsum
    omega

theorem field_corr {fuel : Nat} {fields : List Field} {ls : List Val} {fs : List (String × Value)}
    (hl : List.Forall₂ (fun f x => ∃ a, fs.lookup f.name = some a ∧ Corr c m fuel f.ty x a)
      fields ls) {f : Field} (hf : f ∈ fields) {a : Value} (ha : fs.lookup f.name = some a) :
    ∃ x, Corr c m fuel f.ty x a := by
  induction hl with
  | nil => simp at hf
  | cons hx _ ih =>
    rcases List.mem_cons.mp hf with rfl | hf
    · obtain ⟨a', ha', hx⟩ := hx
      cases ha.symm.trans ha'
      exact ⟨_, hx⟩
    · exact ih hf

/-- The values of a type without words are all alike. -/
theorem wordless_same {fuel fuel' : Nat} {ty : Ir.Ty} {x y : Val} {a b : Value}
    (hw : wordsWith .exact m fuel ty = .ok 0) (hx : Corr c m fuel' ty x a)
    (hy : Corr c m fuel' ty y b) : a.same shared b = true := by
  induction fuel' generalizing fuel ty x y a b with
  | zero => exact hx.elim
  | succ fuel' ih =>
    cases fuel with
    | zero => cases hw
    | succ fuel =>
      cases ty with
      | struct sid =>
        obtain ⟨d, ls, fs, hd, -, rfl, hf, hls⟩ := hx
        obtain ⟨d', rs, gs, hd', -, rfl, hg, hrs⟩ := hy
        cases hd.symm.trans hd'
        rw [same_struct, beq_self_eq_true, Bool.true_and, sameFields_iff (hf.trans hg.symm),
          forall_fields_iff (T := fun a b => a.same shared b = true) hf hg]
        intro f hmem a b ha hb
        obtain ⟨x, hx⟩ := field_corr hls hmem ha
        obtain ⟨y, hy⟩ := field_corr hrs hmem hb
        exact ih (fields_wordless hd hw f hmem) hx hy
      | sum sid => exact (sum_has_words hw).elim
      | bool | int | f32 | f64 | str | tag => cases hw
      | _ => exact hx.elim

theorem wordless_payload {fuel : Nat} {types : List Ir.Ty} {ps qs : List (Val × Value)}
    (hw : ∀ t ∈ types, wordsWith .exact m fuel t = .ok 0)
    (hp : List.Forall₂ (fun t p => Corr c m fuel t p.1 p.2) types ps)
    (hq : List.Forall₂ (fun t p => Corr c m fuel t p.1 p.2) types qs) :
    sameValues shared (ps.map Prod.snd) (qs.map Prod.snd) = true := by
  induction hp generalizing qs with
  | nil =>
    cases hq
    rfl
  | cons hx _ ih =>
    cases hq with
    | cons hy hq =>
      rw [List.forall_mem_cons] at hw
      simp only [List.map_cons, sameValues, wordless_same hw.1 hx hy, ih hw.2 hq, Bool.and_self]

theorem tag_alike (t u : Tag) : alike (tagVal t) (tagVal u) = true ↔ t = u := by
  obtain ⟨s, p, g⟩ := t
  obtain ⟨s', p', g'⟩ := u
  simp [tagVal, alike, allAlike, alikePart, BitVec.toNat_inj]

theorem corr_tag {fuel : Nat} {elem : Ir.Ty} {x y : Val} {a b : Value}
    (hx : Corr c m fuel (.tag elem) x a) (hy : Corr c m fuel (.tag elem) y b) :
    a.same shared b = true ↔ alike x y = true ∧ tellsApart a b = false := by
  cases fuel with
  | zero => exact hx.elim
  | succ fuel =>
    rcases hx with ⟨rfl, rfl⟩ | ⟨a, s, g, hi, rfl, rfl⟩ <;>
      rcases hy with ⟨rfl, rfl⟩ | ⟨a', s', g', hi', rfl, rfl⟩ <;> rw [tag_alike]
    · simp [tellsApart, kindsDiffer]
    · simp [tellsApart, kindsDiffer, (c.tagOf_ne_null hi').symm]
    · simp [tellsApart, kindsDiffer, c.tagOf_ne_null hi]
    · simp only [same_tag, tellsApart, kindsDiffer, Bool.and_eq_true, beq_iff_eq, bne_eq_false_iff_eq]
      constructor
      · rintro ⟨⟨rfl, rfl⟩, rfl⟩
        exact ⟨rfl, rfl⟩
      · rintro ⟨ht, rfl⟩
        obtain ⟨rfl, rfl⟩ := c.tagOf_inj hi hi' ht
        exact ⟨⟨rfl, rfl⟩, rfl⟩

theorem constructs_inj {fuel : Nat} {d : SumDef} {i j : BitVec 32} {var var' : Variant}
    {words words' : List (BitVec 64)} (h : Constructs m fuel d i var words)
    (h' : Constructs m fuel d j var' words') : var.name = var'.name ↔ i = j := by
  constructor
  · intro hname
    rcases Nat.lt_trichotomy i.toNat j.toNat with hlt | heq | hlt
    · exact (h'.first _ hlt _ h.var_eq hname).elim
    · exact BitVec.eq_of_toNat_eq heq
    · exact (h.first _ hlt _ h'.var_eq hname.symm).elim
  · rintro rfl
    cases h.var_eq.symm.trans h'.var_eq
    rfl

theorem payloadArea_scalar {words : List (BitVec 64)} :
    (tys (payloadArea words)).all isScalarTy = true ↔ words = [] := by
  cases words <;> simp [payloadArea, tys, Val.ty, isScalarTy]

theorem corr_sum {fuel sid : Nat} {x y : Val} {a b : Value} (hx : Corr c m fuel (.sum sid) x a)
    (hy : Corr c m fuel (.sum sid) y b) (hs : comparable x.ty = true) :
    a.same shared b = true ↔ alike x y = true ∧ tellsApart a b = false := by
  cases fuel with
  | zero => exact hx.elim
  | succ fuel =>
    obtain ⟨d, i, var, words, ps, hd, hi, rfl, rfl, -, hps⟩ := hx
    obtain ⟨d', j, var', words', qs, hd', hj, rfl, rfl, -, hqs⟩ := hy
    cases hd.symm.trans hd'
    have hnil : words = [] := by
      rw [Val.ty, comparable, tys, List.all_cons, Bool.and_eq_true] at hs
      exact payloadArea_scalar.mp hs.2
    have hnil' : words' = [] := by
      have hlen := Except.ok.inj (hi.words_eq.symm.trans hj.words_eq)
      rw [hnil] at hlen
      exact List.eq_nil_of_length_eq_zero hlen.symm
    subst hnil hnil'
    have halike : alike (.struct (.int 32 i :: payloadArea [])) (.struct (.int 32 j :: payloadArea []))
        = true ↔ i = j := by
      simp [alike, allAlike, alikePart, payloadArea, BitVec.toNat_inj]
    rw [halike, ← constructs_inj hi hj]
    constructor
    · intro h
      simp only [same_variant, Bool.and_eq_true, beq_iff_eq] at h
      exact ⟨h.1.2, rfl⟩
    · rintro ⟨hname, -⟩
      cases (constructs_inj hi hj).mp hname
      cases hi.var_eq.symm.trans hj.var_eq
      obtain ⟨n, hn, hw⟩ := hi.fits
      cases Nat.le_zero.mp hn
      simp [same_variant, wordless_payload (payload_wordless hw) hps hqs]

theorem corr_struct {fuel sid : Nat} {x y : Val} {a b : Value}
    (hx : Corr c m fuel (.struct sid) x a) (hy : Corr c m fuel (.struct sid) y b)
    (hs : comparable x.ty = true) :
    a.same shared b = true ↔ alike x y = true ∧ tellsApart a b = false := by
  cases fuel with
  | zero => exact hx.elim
  | succ fuel =>
    obtain ⟨d, ls, fs, hd, rfl, rfl, hf, hls⟩ := hx
    obtain ⟨d', rs, gs, hd', rfl, rfl, hg, hrs⟩ := hy
    cases hd.symm.trans hd'
    have hsame : sameFields shared fs gs = true ↔ _ :=
      (sameFields_iff (hf.trans hg.symm)).trans
        (forall_fields_iff (T := fun a b => a.same shared b = true) hf hg)
    have hkinds := forall_fields_iff (T := fun a b => ¬kindsDiffer a b = true) hf hg
    rw [← List.any_eq_false] at hkinds
    simp only [Bool.not_eq_true] at hkinds
    rw [same_struct, beq_self_eq_true, Bool.true_and, hsame, corr_parts hls hrs hs, alike, tellsApart,
      hkinds]

/-- An integer never meets a float. -/
theorem valuesEqual_same {fuel : Nat} {ty : Ir.Ty} {x y : Val} {a b : Value}
    (ofInt : Int → BitVec 64) (hx : Corr c m fuel ty x a) (hy : Corr c m fuel ty y b) :
    valuesEqual shared ofInt a b = a.same shared b := by
  cases fuel with
  | zero => exact hx.elim
  | succ fuel =>
    cases ty with
    | bool => obtain ⟨b, -, rfl⟩ := hx; rfl
    | int w signed =>
      obtain ⟨x, -, ⟨ty, rfl⟩ | ⟨-, b, rfl, -⟩⟩ := hx
      · obtain ⟨y, -, ⟨ty, rfl⟩ | ⟨-, b, rfl, -⟩⟩ := hy <;> rfl
      · rfl
    | f32 =>
      obtain ⟨x, x', -, rfl, -⟩ := hx
      obtain ⟨y, y', -, rfl, -⟩ := hy
      rfl
    | f64 =>
      obtain ⟨x, -, rfl⟩ := hx
      obtain ⟨y, -, rfl⟩ := hy
      rfl
    | str => obtain ⟨p, s, -, rfl⟩ := hx; rfl
    | tag => obtain ⟨-, rfl⟩ | ⟨a, s, g, -, -, rfl⟩ := hx <;> rfl
    | struct sid => obtain ⟨d, ls, fs, -, -, rfl, -⟩ := hx; rfl
    | sum sid => obtain ⟨d, i, var, words, payload, -, -, -, rfl, -⟩ := hx; rfl
    | _ => exact hx.elim

theorem alike_scalar {x : Val} (hs : isScalarTy x.ty = true) (y : Val) :
    alike x y = alikePart x y := by
  cases x <;> first | rfl | cases hs

theorem tellsApart_scalar {fuel : Nat} {ty : Ir.Ty} {x : Val} {a : Value}
    (hx : Corr c m fuel ty x a) (hs : isScalarTy x.ty = true) (b : Value) :
    tellsApart a b = kindsDiffer a b := by
  cases fuel with
  | zero => exact hx.elim
  | succ fuel =>
    cases ty with
    | struct sid => obtain ⟨d, ls, fs, hd, rfl, -⟩ := hx; cases hs
    | bool => obtain ⟨b, -, rfl⟩ := hx; rfl
    | int w signed => obtain ⟨x, -, ⟨ty, rfl⟩ | ⟨-, b, rfl, -⟩⟩ := hx <;> rfl
    | f32 => obtain ⟨x, x', -, rfl, -⟩ := hx; rfl
    | f64 => obtain ⟨x, -, rfl⟩ := hx; rfl
    | str => obtain ⟨p, s, rfl, -⟩ := hx; cases hs
    | tag => obtain ⟨rfl, -⟩ | ⟨a, s, g, -, rfl, -⟩ := hx <;> cases hs
    | sum sid => obtain ⟨d, i, var, words, payload, -, -, rfl, -⟩ := hx; cases hs
    | _ => exact hx.elim

/-- On a type that compiled code compares, the interpreter's equality is the compiled one but
for what the interpreter alone keeps apart. -/
theorem valuesEqual_iff {fuel : Nat} {ty : Ir.Ty} {x y : Val} {a b : Value}
    (ofInt : Int → BitVec 64) (hx : Corr c m fuel ty x a) (hy : Corr c m fuel ty y b)
    (hs : comparable x.ty = true) :
    valuesEqual shared ofInt a b = true ↔ alike x y = true ∧ tellsApart a b = false := by
  rw [valuesEqual_same ofInt hx hy]
  cases hscalar : isScalarTy x.ty with
  | true =>
    rw [alike_scalar hscalar, tellsApart_scalar hx hscalar]
    exact corr_part hx hy hscalar
  | false =>
    cases fuel with
    | zero => exact hx.elim
    | succ fuel =>
      cases ty with
      | tag elem => exact corr_tag hx hy
      | struct sid => exact corr_struct hx hy hs
      | sum sid => exact corr_sum hx hy hs
      | str => obtain ⟨p, s, rfl, -⟩ := hx; cases hs
      | bool => obtain ⟨b, rfl, -⟩ := hx; cases hscalar
      | int w signed => obtain ⟨x, rfl, -⟩ := hx; cases hscalar
      | f32 => obtain ⟨x, x', rfl, -⟩ := hx; cases hscalar
      | f64 => obtain ⟨x, rfl, -⟩ := hx; cases hscalar
      | _ => exact hx.elim

/-- Both operators compile, `!=` negates `==`, and `==` is the interpreter's equality. -/
def Agrees (shared : Value → Value → Bool) (ofInt : Int → BitVec 64) (signed : Bool) (l r : Val)
    (a b : Value) : Prop :=
  ∃ e, lowerCompare .eq signed l r = .ok e ∧ lowerCompare .ne signed l r = .ok (!e) ∧
    valuesEqual shared ofInt a b = e

theorem agrees_iff {fuel : Nat} {ty : Ir.Ty} {x y : Val} {a b : Value} (ofInt : Int → BitVec 64)
    (signed : Bool) (hx : Corr c m fuel ty x a) (hy : Corr c m fuel ty y b) :
    Agrees shared ofInt signed x y a b ↔
      comparable x.ty = true ∧ ¬(isNaN x = true ∨ isNaN y = true) ∧
        ¬(alike x y = true ∧ tellsApart a b = true) := by
  have hty : x.ty = y.ty := Except.ok.inj ((corr_basicTy hx).symm.trans (corr_basicTy hy))
  have hneg := negated_iff signed hty
  constructor
  · rintro ⟨e, he, hn, hv⟩
    obtain ⟨hs, hnan⟩ := hneg.mp ⟨e, he, hn⟩
    refine ⟨hs, hnan, fun ⟨halike, hapart⟩ => ?_⟩
    rw [lowerCompare_eq signed hty hs, halike] at he
    cases he
    have hsame := (valuesEqual_iff ofInt hx hy hs).mp hv
    exact Bool.noConfusion (hapart.symm.trans hsame.2)
  · rintro ⟨hs, hnan, hkinds⟩
    obtain ⟨e, he, hn⟩ := hneg.mpr ⟨hs, hnan⟩
    refine ⟨e, he, hn, ?_⟩
    have halike : e = alike x y := Except.ok.inj (he.symm.trans (lowerCompare_eq signed hty hs))
    rw [Bool.eq_iff_iff, valuesEqual_iff ofInt hx hy hs, halike]
    refine ⟨And.left, fun h => ⟨h, ?_⟩⟩
    exact Bool.eq_false_iff.mpr fun hapart => hkinds ⟨h, hapart⟩

end

/-- For any operands of one type `!=` negates `==` exactly where both compile and neither operand
is a NaN; on values of the language the two are then the interpreter's equality, unless the
operands are alike and the interpreter tells them apart. -/
theorem equality_agrees_iff (c : Correspondence) (m : Module) (shared : Value → Value → Bool)
    (ofInt : Int → BitVec 64) (signed : Bool) (fuel : Nat) (ty : Ir.Ty) {l r x y : Val} {a b : Value}
    (hty : l.ty = r.ty) (hx : Corr c m fuel ty x a) (hy : Corr c m fuel ty y b) :
    (Negated signed l r ↔ comparable l.ty = true ∧ ¬(isNaN l = true ∨ isNaN r = true)) ∧
    (Agrees shared ofInt signed x y a b ↔
      comparable x.ty = true ∧ ¬(isNaN x = true ∨ isNaN y = true) ∧
        ¬(alike x y = true ∧ tellsApart a b = true)) :=
  ⟨negated_iff signed hty, agrees_iff ofInt signed hx hy⟩

/-- The crib and the interpreter number the slots alike. -/
def Correspondence.sameSlots : Correspondence where
  dripName _ := "Sample"
  moodsOf _ := "Mood"
  issued _ s _ := s < 2 ^ 32 - 1
  tagOf _ s g := Tag.new (BitVec.ofNat 32 s) g
  tagOf_ne_null := by
    intro a s g hs h
    have hslot := congrArg BitVec.toNat (congrArg Tag.slot h)
    simp only [Tag.new, Tag.null, BitVec.toNat_ofNat, BitVec.toNat_allOnes] at hslot
    omega
  tagOf_inj := by
    intro a s g s' g' hs hs' h
    have hslot := congrArg BitVec.toNat (congrArg Tag.slot h)
    have hgen := congrArg Tag.generation h
    simp only [Tag.new, BitVec.toNat_ofNat] at hslot hgen
    exact ⟨by omega, hgen⟩
  holds _ _ := True

def sampleModule : Module :=
  { structs := [{ name := "Sample", fields := [{ name := "x", ty := .f64, vis := .flex },
      { name := "n", ty := .int .w8 false, vis := .flex }] }]
    sums := [], externs := [], globals := [], cribGlobals := [], funcs := [] }

theorem corr_sample (x : BitVec 64) {n : BitVec 8} {v : Value} (hn : HoldsInt .w8 false n v) :
    Corr .sameSlots sampleModule 2 (.struct 0) (.struct [.double x, .int 8 n])
      (.struct "Sample" [("n", v), ("x", .float x)]) :=
  ⟨_, _, _, rfl, rfl, rfl, show ["n", "x"] = fieldKeys _ by decide,
    .cons ⟨_, rfl, x, rfl, rfl⟩ (.cons ⟨v, rfl, n, rfl, hn⟩ .nil)⟩

/-- The two zeros are equal; a byte literal and an integer are not for the interpreter. -/
theorem equality_agrees_iff_sample :
    Agrees (fun _ _ => false) (BitVec.ofInt 64) false
      (.struct [.double (BitVec.intMin 64), .int 8 65]) (.struct [.double 0, .int 8 65])
      (.struct "Sample" [("n", .int 65 IntTy.word), ("x", .float (BitVec.intMin 64))])
      (.struct "Sample" [("n", .int 65 IntTy.word), ("x", .float 0)]) ∧
    ¬Agrees (fun _ _ => false) (BitVec.ofInt 64) false
      (.struct [.double 0, .int 8 65]) (.struct [.double 0, .int 8 65])
      (.struct "Sample" [("n", .byte 65), ("x", .float 0)])
      (.struct "Sample" [("n", .int 65 IntTy.word), ("x", .float 0)]) := by
  have hint : HoldsInt .w8 false (65 : BitVec 8) (.int 65 IntTy.word) := .inl ⟨_, rfl⟩
  have hbyte : HoldsInt .w8 false (65 : BitVec 8) (.byte 65) := .inr ⟨⟨rfl, rfl⟩, _, rfl, rfl⟩
  have hty : (Val.int 1 1).ty = (Val.int 1 0).ty := rfl
  have hzeros := equality_agrees_iff .sameSlots sampleModule (fun _ _ => false) (BitVec.ofInt 64)
    false 2 (.struct 0) hty (corr_sample (BitVec.intMin 64) hint) (corr_sample 0 hint)
  have hkinds := equality_agrees_iff .sameSlots sampleModule (fun _ _ => false) (BitVec.ofInt 64)
    false 2 (.struct 0) hty (corr_sample 0 hbyte) (corr_sample 0 hint)
  exact ⟨hzeros.2.mpr (by decide), fun h => (hkinds.2.mp h).2.2 (by decide)⟩

def quietNaN : BitVec 64 := 0x7ff8000000000000

/-- `nan != nan` is false in compiled code, and so is `nan == nan`. -/
theorem nan_not_unequal :
    Corr .sameSlots sampleModule 1 .f64 (.double quietNaN) (.float quietNaN) ∧
    lowerCompare .eq false (.double quietNaN) (.double quietNaN) = .ok false ∧
    lowerCompare .ne false (.double quietNaN) (.double quietNaN) = .ok false ∧
    valuesEqual (fun _ _ => false) (BitVec.ofInt 64) (.float quietNaN) (.float quietNaN) = false :=
  ⟨⟨quietNaN, rfl, rfl⟩, by decide, by decide, by decide⟩

end Comparing

end BetLang
