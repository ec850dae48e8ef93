import BetLang.FormatStmts

/-! The parser reads the canonical form of a program. -/

namespace BetLang.Fmt

open Filter (atTop)
open Lexer (Token)
open BetLang.Parser
open Surface

variable {d : Nat}

section Shapes

def RetOk (d : Nat) : RetType String → Prop
  | .none => True
  | .single t => TyOk d t
  | .multi ts => ts ≠ [] ∧ TysOk d ts

def ParamsOk (d : Nat) (ps : List (Param String)) : Prop := ∀ p ∈ ps, TyOk d p.ty

def FnOk (d : Nat) (f : FnDecl String String) : Prop :=
  (∀ p, f.receiver = some p → TyOk d p.ty) ∧ ParamsOk d f.params ∧ RetOk d f.ret ∧ BlockOk d f.body

def ExternOk (d : Nat) (e : ExternDecl String) : Prop :=
  ParamsOk d e.params ∧ RetOk d e.ret ∧ ∀ ts, e.ret ≠ .multi ts

/-- The items that their canonical form stands for. -/
def ItemOk (d : Nat) : Item String String → Prop
  | .pull _ => True
  | .func f => FnOk d f
  | .drip decl => ∀ f ∈ decl.fields, TyOk d f.ty
  | .moods m => ∀ v ∈ m.variants, TysOk d v.payload
  | .crib c => OptTyOk d c.ty
  | .const c => ConstOk d c
  | .var v => VarOk d v
  | .externFn e => ExternOk d e

def ProgramOk (d : Nat) (p : Program String String) : Prop := ∀ i ∈ p.items, ItemOk d i

end Shapes

section Signatures

/-- What holds of each member from some fuel on holds of all at once. -/
theorem eventually_members {α : Type} {P : Nat → α → Prop} {as : List α}
    (h : ∀ a ∈ as, ∀ᶠ n in atTop, P n a) : ∀ᶠ n in atTop, ∀ a ∈ as, P n a := by
  induction as with
  | nil => exact Filter.Eventually.of_forall fun _ => by simp
  | cons a as ih =>
    obtain ⟨ha, has⟩ := List.forall_mem_cons.mp h
    filter_upwards [ha, ih has] with n hn hrest
    exact List.forall_mem_cons.mpr ⟨hn, hrest⟩

theorem reads_plain {t : Ty String} (hok : TyOk d t) : ∀ᶠ n in atTop,
    Reads (knot n).parseType false d (tyToks t) TyEnd t := (goodTy t).plain hok

theorem reads_param {p : Param String} (hok : TyOk d p.ty) : ∀ᶠ n in atTop,
    Reads (Parser.param (knot n)) false d (paramToks p) TyEnd p := by
  filter_upwards [reads_plain hok] with n hn
  refine ReadsTo.call _ ?_
  refine (reads_ident (F := fun _ => True) p.name).take ?_ fun _ _ => trivial
  exact (reads_expect (F := fun _ => True) .colon).take hn.last fun _ _ => trivial

theorem reads_paramList {ps : List (Param String)} (hok : ParamsOk d ps) : ∀ᶠ n in atTop,
    Reads (paramList (knot n)) false d (paramsToks ps) (fun _ => True) ps := by
  filter_upwards [eventually_members fun p hp => reads_param (hok p hp),
    Filter.eventually_ge_atTop ps.length] with n hn hlen
  refine ReadsTo.call _ ((reads_expect (F := fun _ => True) .lParen).take ?_ fun _ _ => trivial)
  cases ps with
  | nil =>
    refine (reads_check .rParen (some .rParen)).look ?_ fun _ _ => rfl
    exact (reads_expect .rParen).last
  | cons p ps =>
    have hmembers : List.Forall₂ (fun p toks => Reads (Parser.param (knot n)) false d toks TyEnd p) (p :: ps)
        ((p :: ps).map paramToks) := List.forall₂_map_right_iff.mpr (List.forall₂_same.mpr hn)
    have hlist := ReadsTo.commaList (F := fun rest => rest.head? = some .rParen) hmembers (by simp)
      (show (p :: ps).length ≤ (knot n).fuel by rwa [knot_fuel])
      (fun _ => tyEnd_cons (by simp) (by simp)) fun rest hrest => by simp [TyEnd, hrest]
    refine (reads_check_ne .rParen).look ?_ fun _ _ => by simp [commaToks, paramToks]
    exact hlist.bind (reads_expect .rParen).last fun _ _ => rfl

theorem reads_optReceiver {r : Option (Param String)} (hok : ∀ p, r = some p → TyOk d p.ty) :
    ∀ᶠ n in atTop, Reads (optReceiver (knot n)) false d (receiverToks r)
      (fun rest => rest.head? ≠ some .lParen) r := by
  cases r with
  | none =>
    exact Filter.Eventually.of_forall fun n => (reads_check_ne .lParen).look (.pure _) fun _ hrest => hrest
  | some p =>
    filter_upwards [reads_plain (hok p rfl)] with n hn
    refine (reads_check .lParen (some .lParen)).look ?_ fun _ _ => rfl
    refine ReadsTo.last (ReadsTo.call _ ?_)
    refine (reads_expect (F := fun _ => True) .lParen).take ?_ fun _ _ => trivial
    refine (reads_ident (F := fun _ => True) p.name).take ?_ fun _ _ => trivial
    refine (reads_expect (F := fun _ => True) .colon).take ?_ fun _ _ => trivial
    exact hn.bind (reads_expect .rParen).last fun _ _ => tyEnd_cons (by simp) (by simp)

theorem reads_genericParams {n : Nat} {g : List String} (hn : g.length ≤ n) :
    Reads (Parser.genericParams (knot n)) false d (genericToks g)
      (fun rest => rest.head? ≠ some .lBracket) g := by
  refine ReadsTo.call _ ?_
  cases g with
  | nil => exact (reads_eat_ne .lBracket).look (.pure _) fun _ hrest => hrest
  | cons s ss =>
    refine (reads_eat (F := fun _ => True) .lBracket).take ?_ fun _ _ => trivial
    have hlen : ss.length < (knot n).fuel := by rw [knot_fuel]; simp at hn; omega
    have hnames := reads_nameList (d := d) (s := s) hlen
    exact hnames.bind (reads_expect .rBracket).last fun _ _ => by simp

theorem reads_tyList {c : Token} {ts : List (Ty String)} (hne : ts ≠ [])
    (hclose : c ≠ .dot ∧ c ≠ .lBracket ∧ c ≠ .comma) (hok : TysOk d ts) : ∀ᶠ n in atTop,
    Reads (commaList (knot n).fuel (knot n).parseType) false d (commaToks (tyTokss ts))
      (fun rest => rest.head? = some c) ts := by
  filter_upwards [goodTys ts false d hok, Filter.eventually_ge_atTop ts.length] with n hn hlen
  exact reads_types hne hclose (by rwa [knot_fuel]) hn

theorem reads_optRet {r : RetType String} (hok : RetOk d r) : ∀ᶠ n in atTop,
    Reads (optRet (knot n)) false d (retToks r)
      (fun rest => rest.head? ≠ some .arrow ∧ TyEnd rest) r := by
  cases r with
  | none =>
    exact Filter.Eventually.of_forall fun n =>
      ReadsTo.call _ ((reads_eat_ne .arrow).look (.pure _) fun _ hrest => hrest.1)
  | single t =>
    filter_upwards [reads_plain hok] with n hn
    refine ReadsTo.call _ ((reads_eat (F := fun _ => True) .arrow).take ?_ fun _ _ => trivial)
    obtain ⟨t₀, ts, htoks, -, -, -, hparen⟩ := tyToks_head t
    refine (reads_eat_ne .lParen).look ?_ fun _ _ => by simpa [htoks] using hparen
    exact (ReadsTo.mono hn fun _ hrest => hrest.2).last
  | multi ts =>
    filter_upwards [reads_tyList (c := .rParen) hok.1 (by simp) hok.2] with n hn
    refine ReadsTo.call _ ((reads_eat (F := fun _ => True) .arrow).take ?_ fun _ _ => trivial)
    refine (reads_eat (F := fun _ => True) .lParen).take ?_ fun _ _ => trivial
    exact hn.bind (reads_expect .rParen).last fun _ _ => rfl

theorem reads_optRetSingle {r : RetType String} (hok : RetOk d r) (hone : ∀ ts, r ≠ .multi ts) :
    ∀ᶠ n in atTop, Reads (optRetSingle (knot n)) false d (retToks r) StmtEnd r := by
  cases r with
  | none =>
    exact Filter.Eventually.of_forall fun n =>
      ReadsTo.call _ ((reads_eat_ne .arrow).look (.pure _) fun _ (hrest : StmtEnd _) => by simp [retToks, hrest])
  | single t =>
    filter_upwards [reads_plain hok] with n hn
    refine ReadsTo.call _ ((reads_eat (F := fun _ => True) .arrow).take ?_ fun _ _ => trivial)
    exact (ReadsTo.mono hn fun _ (hrest : StmtEnd _) => by simp [TyEnd, hrest]).last
  | multi ts => exact absurd rfl (hone ts)

end Signatures

section Declarations

theorem reads_fnDecl {f : FnDecl String String} (hok : FnOk d f) : ∀ᶠ n in atTop,
    Reads (Parser.fnDecl (knot n) f.vis) false d (fnDeclToks f) (fun _ => True) f := by
  obtain ⟨hreceiver, hparams, hret, hbody⟩ := hok
  filter_upwards [reads_optReceiver hreceiver, reads_paramList hparams, reads_optRet hret,
    good_block f.body hbody, Filter.eventually_ge_atTop f.generics.length] with n hr hp ho hb hlen
  refine ReadsTo.call _ ((reads_expect (F := fun _ => True) .finna).take ?_ fun _ _ => trivial)
  refine hr.bind ?_ fun _ _ => by simp
  refine (reads_ident (F := fun _ => True) f.name).take ?_ fun _ _ => trivial
  rw [List.append_assoc, List.append_assoc]
  refine (reads_genericParams hlen).bind ?_ fun _ _ => by simp [paramsToks, parens]
  refine hp.bind ?_ fun _ _ => trivial
  exact ho.bind hb.last fun _ _ => ⟨by simp [braces], tyEnd_cons (by simp) (by simp)⟩

/-- What separates the members of a declaration. -/
abbrev Next (rest : List Token) : Prop := rest.head? ≠ some .semi ∧ rest.head? ≠ some .comma

theorem reads_separated_semi {α : Type} {n : Nat} {m : P α} {a : α} {ts : List Token} (hn : 1 < n)
    (h : Reads m false d ts StmtEnd a) :
    Reads (separated (knot n) m) false d (ts ++ [.semi]) Next a := by
  refine ReadsTo.bind h ?_ fun _ _ => rfl
  refine .toks (l := [.semi] ++ []) rfl ((reads_skipSemis (by rwa [knot_fuel])).bind ?_ fun _ hrest => hrest.1)
  exact (reads_eat_ne .comma).look (.pure a) fun _ hrest => hrest.2

theorem reads_separated_comma {α : Type} {n : Nat} {m : P α} {a : α} {ts : List Token} (hn : 0 < n)
    (h : Reads m false d ts (fun rest => rest.head? = some .comma) a) :
    Reads (separated (knot n) m) false d (ts ++ [.comma]) (fun _ => True) a := by
  refine ReadsTo.bind h ?_ fun _ _ => rfl
  refine (reads_skipSemis_ne (by rwa [knot_fuel])).look ?_ fun _ _ => by simp
  exact (reads_eat (F := fun _ => True) .comma).take (.pure a) fun _ _ => trivial

theorem reads_fieldVis {v : Option Vis} :
    Reads Parser.fieldVis false d (fieldVisToks v)
      (fun rest => rest.head? ≠ some .flex ∧ rest.head? ≠ some .hush) v := by
  cases v with
  | none =>
    refine (reads_eat_ne .flex).look ?_ fun _ hrest => hrest.1
    exact (reads_eat_ne .hush).look (.pure _) fun _ hrest => hrest.2
  | some v =>
    cases v with
    | flex => exact (reads_eat (F := fun _ => True) .flex).take (.pure _) fun _ _ => trivial
    | hush =>
      refine (reads_eat_ne .flex).look ?_ fun _ _ => by simp [fieldVisToks]
      exact (reads_eat (F := fun _ => True) .hush).take (.pure _) fun _ _ => trivial

theorem reads_fieldDecl {f : FieldDecl String} (hok : TyOk d f.ty) : ∀ᶠ n in atTop,
    Reads (Parser.fieldDecl (knot n)) false d (fieldDeclToks f) StmtEnd f := by
  filter_upwards [reads_plain hok] with n hn
  refine ReadsTo.call _ (reads_fieldVis.bind ?_ fun _ _ => by simp)
  refine (reads_ident (F := fun _ => True) f.name).take ?_ fun _ _ => trivial
  refine (reads_expect (F := fun _ => True) .colon).take ?_ fun _ _ => trivial
  exact (ReadsTo.mono hn fun _ (hrest : StmtEnd _) => by simp [TyEnd, hrest]).last

theorem fieldDeclToks_head (f : FieldDecl String) :
    ∃ t ts, fieldDeclToks f = t :: ts ∧ t ≠ .rBrace ∧ t ≠ .semi ∧ t ≠ .comma := by
  obtain ⟨v, name, ty⟩ := f
  rcases v with - | - | - <;> exact ⟨_, _, rfl, by simp⟩

theorem reads_dripDecl {decl : DripDecl String} (hok : ∀ f ∈ decl.fields, TyOk d f.ty) : ∀ᶠ n in atTop,
    Reads (Parser.dripDecl (knot n) decl.vis) false d (dripDeclToks decl) (fun _ => True) decl := by
  filter_upwards [eventually_members fun f hf => reads_fieldDecl (hok f hf),
    Filter.eventually_gt_atTop decl.fields.length, Filter.eventually_ge_atTop decl.generics.length,
    Filter.eventually_gt_atTop 1] with n hn hlen hgenerics hone
  have hmembers : List.Forall₂ (fun f toks =>
      Reads (separated (knot n) (Parser.fieldDecl (knot n))) false d toks Next f) decl.fields
        (decl.fields.map fun f => fieldDeclToks f ++ [.semi]) :=
    List.forall₂_map_right_iff.mpr (List.forall₂_same.mpr fun f hf => reads_separated_semi hone (hn f hf))
  have hlist := reads_untilBrace (o := []) (n := (knot n).fuel) (k := (knot n).fuel) hmembers ?_
    (by rwa [knot_fuel]) (by rw [knot_fuel]; omega)
  · refine ReadsTo.call _ ((reads_expect (F := fun _ => True) .drip).take ?_ fun _ _ => trivial)
    refine (reads_ident (F := fun _ => True) decl.name).take ?_ fun _ _ => trivial
    refine (reads_genericParams hgenerics).bind ?_ fun _ _ => by simp [braces]
    refine (reads_expect (F := fun _ => True) .lBrace).take ?_ fun _ _ => trivial
    rw [List.flatMap_def]
    exact hlist.bind (reads_expect .rBrace).last fun _ _ => rfl
  · intro toks htoks
    obtain ⟨f, -, rfl⟩ := List.mem_map.mp htoks
    obtain ⟨t, ts, hf, hne⟩ := fieldDeclToks_head f
    exact ⟨t, ts ++ [.semi], by rw [hf]; rfl, hne⟩

theorem reads_variant {v : Variant String} (hok : TysOk d v.payload) : ∀ᶠ n in atTop,
    Reads (Parser.variant (knot n)) false d (variantToks v) (fun rest => rest.head? ≠ some .lParen) v := by
  obtain ⟨name, tys⟩ := v
  cases tys with
  | nil =>
    refine Filter.Eventually.of_forall fun n => ReadsTo.call _ ?_
    refine (reads_ident (F := fun _ => True) name).take ?_ fun _ _ => trivial
    have hpayload : Reads (payload (knot n)) false d [] (fun rest => rest.head? ≠ some .lParen) [] :=
      (reads_eat_ne .lParen).look (.pure []) fun _ hrest => hrest
    exact hpayload.last
  | cons t ts =>
    filter_upwards [reads_tyList (c := .rParen) (by simp) (by simp) hok] with n hn
    refine ReadsTo.call _ ?_
    refine (reads_ident (F := fun _ => True) name).take ?_ fun _ _ => trivial
    refine ReadsTo.last (m := payload (knot n)) ?_
    refine (reads_eat (F := fun _ => True) .lParen).take ?_ fun _ _ => trivial
    exact hn.bind (reads_expect .rParen).last fun _ _ => rfl

/-- The tokens of each variant, with what separates it from the next. -/
def variantTokss : List (Variant String) → List (List Token)
  | [] => []
  | [v] => [variantToks v ++ [.semi]]
  | v :: vs => (variantToks v ++ [.comma]) :: variantTokss vs

theorem variantsToks_eq (vs : List (Variant String)) : variantsToks vs = (variantTokss vs).flatten := by
  induction vs with
  | nil => rfl
  | cons v vs ih =>
    cases vs with
    | nil => simp [variantsToks, variantTokss]
    | cons w ws =>
      rw [variantsToks, variantTokss, List.flatten_cons, ih]
      · simp
      · simp
      · simp

theorem variantTokss_head (vs : List (Variant String)) : ∀ ts ∈ variantTokss vs,
    ∃ t ts', ts = t :: ts' ∧ t ≠ .rBrace ∧ t ≠ .semi ∧ t ≠ .comma := by
  induction vs with
  | nil => simp [variantTokss]
  | cons v vs ih =>
    cases vs with
    | nil =>
      rintro ts hts
      obtain rfl := List.mem_singleton.mp hts
      exact ⟨_, _, rfl, by simp⟩
    | cons w ws => exact List.forall_mem_cons.mpr ⟨⟨_, _, rfl, by simp⟩, ih⟩

theorem reads_variants {n : Nat} {vs : List (Variant String)} (hone : 1 < n)
    (h : ∀ v ∈ vs, Reads (Parser.variant (knot n)) false d (variantToks v)
      (fun rest => rest.head? ≠ some .lParen) v) :
    List.Forall₂ (fun v toks => Reads (separated (knot n) (Parser.variant (knot n))) false d toks Next v) vs
      (variantTokss vs) := by
  induction vs with
  | nil => exact .nil
  | cons v vs ih =>
    obtain ⟨hv, hvs⟩ := List.forall_mem_cons.mp h
    cases vs with
    | nil =>
      refine .cons (reads_separated_semi hone (hv.mono fun _ (hrest : StmtEnd _) => ?_)) .nil
      simp [hrest]
    | cons w ws =>
      refine .cons ((reads_separated_comma (by omega) (hv.mono fun _ hrest => ?_)).mono fun _ _ => trivial)
        (ih hvs)
      simp [hrest]

theorem reads_moodsDecl {m : MoodsDecl String} (hok : ∀ v ∈ m.variants, TysOk d v.payload) :
    ∀ᶠ n in atTop,
      Reads (Parser.moodsDecl (knot n) m.vis) false d (moodsDeclToks m) (fun _ => True) m := by
  filter_upwards [eventually_members fun v hv => reads_variant (hok v hv),
    Filter.eventually_gt_atTop m.variants.length, Filter.eventually_ge_atTop m.generics.length,
    Filter.eventually_gt_atTop 1] with n hn hlen hgenerics hone
  have hlist := reads_untilBrace (o := []) (n := (knot n).fuel) (k := (knot n).fuel)
    (reads_variants hone hn) (variantTokss_head _) (by rwa [knot_fuel]) (by rw [knot_fuel]; omega)
  refine ReadsTo.call _ ((reads_expect (F := fun _ => True) .moods).take ?_ fun _ _ => trivial)
  refine (reads_ident (F := fun _ => True) m.name).take ?_ fun _ _ => trivial
  refine (reads_genericParams hgenerics).bind ?_ fun _ _ => by simp [braces]
  refine (reads_expect (F := fun _ => True) .lBrace).take ?_ fun _ _ => trivial
  rw [variantsToks_eq]
  exact hlist.bind (reads_expect .rBrace).last fun _ _ => rfl

theorem reads_externDecl {e : ExternDecl String} (hok : ExternOk d e) : ∀ᶠ n in atTop,
    Reads (Parser.externDecl (knot n)) false d (externDeclToks e) StmtEnd e := by
  obtain ⟨hparams, hret, hone⟩ := hok
  filter_upwards [reads_paramList hparams, reads_optRetSingle hret hone] with n hp hr
  refine ReadsTo.call _ ((reads_expect (F := fun _ => True) .externKw).take ?_ fun _ _ => trivial)
  refine (reads_strLit (F := fun _ => True) e.abi).take ?_ fun _ _ => trivial
  refine (reads_expect (F := fun _ => True) .finna).take ?_ fun _ _ => trivial
  refine (reads_ident (F := fun _ => True) e.name).take ?_ fun _ _ => trivial
  exact hp.bind hr.last fun _ _ => trivial

theorem reads_pullItem (p : Pull String) : Reads pullItem false d (pullToks p) StmtEnd p := by
  obtain ⟨module, aliasName⟩ := p
  refine ReadsTo.call _ ((reads_expect (F := fun _ => True) .pull).take ?_ fun _ _ => trivial)
  refine (reads_strLit (F := fun _ => True) module).take ?_ fun _ _ => trivial
  cases aliasName with
  | none => exact ((reads_opt_none .asKw ident).mono fun _ (hrest : StmtEnd _) => by simp [hrest]).last
  | some aliasName => exact ((reads_ident aliasName).opt .asKw).last

end Declarations

section Programs

theorem reads_itemVis {v : Vis} :
    Reads itemVis false d (visToks v) (fun rest => rest.head? ≠ some .flex) v := by
  cases v with
  | flex => exact (reads_eat (F := fun _ => True) .flex).take (.pure _) fun _ _ => trivial
  | hush => exact (reads_eat_ne .flex).look (.pure _) fun _ hrest => hrest

/-- An item that can be exported, from the word it begins with. -/
theorem reads_exported {n : Nat} {v : Vis} {t : Token} {ts : List Token} {i : Item String String}
    (ht : t ≠ .flex ∧ t ≠ .hush ∧ t ≠ .pull ∧ t ≠ .externKw)
    (h : Reads (exported (knot n) v) false d (t :: ts) StmtEnd i) :
    Reads (topItem (knot n)) false d (visToks v ++ t :: ts) StmtEnd i := by
  obtain ⟨hflex, -, hpull, habi⟩ := ht
  have hhead : ∀ rest, (visToks v ++ t :: ts ++ rest).head? ≠ some .pull ∧
      (visToks v ++ t :: ts ++ rest).head? ≠ some .externKw := by
    intro rest
    cases v <;> simp [visToks, hpull, habi]
  refine ReadsTo.call _ ((reads_check_ne .pull).look ?_ fun rest _ => (hhead rest).1)
  refine (reads_check_ne .externKw).look ?_ fun rest _ => (hhead rest).2
  exact reads_itemVis.bind h fun _ _ => by simpa using hflex

theorem good_item {i : Item String String} (hok : ItemOk d i) : ∀ᶠ n in atTop,
    Reads (topItem (knot n)) false d (itemToks i) StmtEnd i := by
  cases i with
  | pull p =>
    refine Filter.Eventually.of_forall fun n => ReadsTo.call _ ?_
    exact (reads_check .pull (some .pull)).look (reads_pullItem p).last fun _ _ => rfl
  | externFn e =>
    filter_upwards [reads_externDecl hok] with n hn
    refine ReadsTo.call _ ((reads_check_ne .pull).look ?_ fun _ _ => by simp [itemToks, externDeclToks])
    exact (reads_check .externKw (some .externKw)).look hn.last fun _ _ => rfl
  | func f =>
    filter_upwards [reads_fnDecl hok] with n hn
    refine reads_exported (by simp) ((reads_peek (some .finna)).look ?_ fun _ _ => rfl)
    exact hn.last.mono fun _ _ => trivial
  | drip decl =>
    filter_upwards [reads_dripDecl hok] with n hn
    refine reads_exported (by simp) ((reads_peek (some .drip)).look ?_ fun _ _ => rfl)
    exact hn.last.mono fun _ _ => trivial
  | moods m =>
    filter_upwards [reads_moodsDecl hok] with n hn
    refine reads_exported (by simp) ((reads_peek (some .moods)).look ?_ fun _ _ => rfl)
    exact hn.last.mono fun _ _ => trivial
  | crib c =>
    filter_upwards [reads_cribDecl hok] with n hn
    exact reads_exported (by simp) ((reads_peek (some .crib)).look hn.last fun _ _ => rfl)
  | const c =>
    filter_upwards [reads_constDecl hok] with n hn
    exact reads_exported (by simp) ((reads_peek (some .facts)).look hn.last fun _ _ => rfl)
  | var v =>
    filter_upwards [reads_varDecl hok] with n hn
    exact reads_exported (by simp) ((reads_peek (some .lowkey)).look hn.last fun _ _ => rfl)

theorem itemToks_head (i : Item String String) : ∃ t ts, itemToks i = t :: ts ∧ t ≠ .semi := by
  cases i with
  | pull p => exact ⟨_, _, rfl, by simp⟩
  | externFn e => exact ⟨_, _, rfl, by simp⟩
  | func f => cases h : f.vis <;> exact ⟨_, _, by rw [itemToks, h]; rfl, by simp⟩
  | drip f => cases h : f.vis <;> exact ⟨_, _, by rw [itemToks, h]; rfl, by simp⟩
  | moods f => cases h : f.vis <;> exact ⟨_, _, by rw [itemToks, h]; rfl, by simp⟩
  | crib f => cases h : f.vis <;> exact ⟨_, _, by rw [itemToks, h]; rfl, by simp⟩
  | const f => cases h : f.vis <;> exact ⟨_, _, by rw [itemToks, h]; rfl, by simp⟩
  | var f => cases h : f.vis <;> exact ⟨_, _, by rw [itemToks, h]; rfl, by simp⟩

theorem good_program {p : Program String String} (hok : ProgramOk d p) : ∀ᶠ n in atTop,
    Reads (Parser.program (knot n)) false d (programToks p) (· = []) p := by
  filter_upwards [eventually_members fun i hi => good_item (hok i hi),
    Filter.eventually_gt_atTop p.items.length, Filter.eventually_gt_atTop 1] with n hn hlen hone
  have hfuel : 1 < (knot n).fuel := by rwa [knot_fuel]
  have hround : List.Forall₂ (fun i toks => ∀ o w, Pending w →
      Reads (do
        skipSemis (knot n).fuel
        if (← peek).isNone then pure (.inr o)
        else do pure (.inl (o ++ [← topItem (knot n)]))) false d (w ++ toks) StmtEnd
          (.inl (o ++ [i]) : List (Item String String) ⊕ List (Item String String)))
            p.items (p.items.map itemToks) := by
    refine List.forall₂_map_right_iff.mpr (List.forall₂_same.mpr fun i hi o w hw => ?_)
    have hread := hn i hi
    obtain ⟨t, ts, htoks, hsemi⟩ := itemToks_head i
    rw [htoks] at hread ⊢
    refine (reads_skipPending hw hfuel).bind ?_ fun _ _ => by simpa using hsemi
    exact (reads_peek (some t)).look hread.last fun _ _ => rfl
  have hlist := reads_members (e := []) (o := []) (w := []) (n := (knot n).fuel)
    (F := (· = [])) (c := p.items) hround (fun w hw => ?_) (by rwa [knot_fuel]) (.inl rfl)
  · refine ReadsTo.call _ ?_
    rw [programToks]
    refine .toks (l := [] ++ ((p.items.map itemToks).flatMap (· ++ [.semi]) ++ [])) ?_ hlist.last
    simp [List.flatMap_map]
  · refine (reads_skipPending hw hfuel).bind ?_ fun rest hrest => by simp [hrest]
    exact (reads_peek none).look (.pure _) fun rest hrest => by simp [hrest]

/-- From some fuel on, the parser gives the program back from its canonical tokens. -/
theorem parse_programToks {p : Program String String} (hok : ProgramOk maxDepth p) :
    ∀ᶠ fuel in atTop, (parse fuel (programToks p)).1 = .ok p := by
  filter_upwards [good_program hok] with fuel hread
  obtain ⟨calls, hrun⟩ := hread (initial (programToks p)) [] (by simp [initial]) rfl rfl (by simp [initial])
  rw [parse, hrun]

end Programs

end BetLang.Fmt
