import BetLang.Formatter
import Mathlib.Order.Filter.AtTopBot.Basic

/-! The parser reads the canonical form of a type. -/

namespace BetLang.Fmt

open Filter (atTop)
open Lexer (Token)
open BetLang.Parser
open Surface

section Knots

variable {α : Type} {b b' : Bool} {d : Nat} {ts : List Token} {F : List Token → Prop} {a : α}

/-- What is read with enough fuel is read in the calls that come back, too. -/
theorem through_knot {P : Nat → Prop} (h : ∀ᶠ n in atTop, P n) : ∀ᶠ n in atTop, P (n - 1) ∧ n ≠ 0 := by
  have hpred : ∀ᶠ n in atTop, P (n - 1) := (Filter.tendsto_sub_atTop_nat 1).eventually h
  filter_upwards [hpred, Filter.eventually_ge_atTop 1] with n hn hpos
  exact ⟨hn, by omega⟩

theorem knot_parseType {t : Ty String}
    (h : ∀ᶠ n in atTop, Reads (parseType (knot n)) b d ts F t) :
    ∀ᶠ n in atTop, Reads (knot n).parseType b d ts F t := by
  filter_upwards [through_knot h] with n hn
  obtain ⟨n, rfl⟩ := Nat.exists_eq_succ_of_ne_zero hn.2
  exact hn.1

theorem knot_fuel (n : Nat) : (knot n).fuel = n := by cases n <;> rfl

end Knots

section Shapes

/-- The types that dimensions can stand behind. -/
def dimensioned : Ty String → Bool
  | .array _ _ | .rawPtr | .named _ _ => true
  | _ => false

def dimToks (n : UInt64) : List Token := [.lBracket, .int n.toNat, .rBracket]

mutual

/-- The types that the parser builds with `d` levels of depth left. -/
def TyOk (d : Nat) : Ty String → Prop
  | .slice inner => 1 ≤ d ∧ TyOk (d - 1) inner
  | .array inner _ => dimensioned inner = true ∧ TyOk d inner
  | .tag inner => 1 ≤ d ∧ TyOk (d - 1) inner
  | .crib inner => 1 ≤ d ∧ TyOk (d - 1) inner
  | .soa inner => 1 ≤ d ∧ TyOk (d - 1) inner
  | .fn params ret => 1 ≤ d ∧ TysOk (d - 1) params ∧ TyOk (d - 1) ret
  | .rawPtr => 1 ≤ d
  | .named name generics => 1 ≤ d ∧ name.head ≠ "rawptr" ∧ TysOk (d - 1) generics

def TysOk (d : Nat) : List (Ty String) → Prop
  | [] => True
  | t :: ts => TyOk d t ∧ TysOk d ts

end

/-- No type starts with a number, with a parenthesis or with what closes a bracket. -/
theorem tyToks_head (t : Ty String) :
    ∃ t₀ ts, tyToks t = t₀ :: ts ∧ (∀ v, t₀ ≠ .int v) ∧ t₀ ≠ .rParen ∧ t₀ ≠ .rBracket ∧
      t₀ ≠ .lParen := by
  induction t using Ty.rec (motive_2 := fun _ => True) with
  | array inner n ih =>
    obtain ⟨t₀, ts, htoks, hhead⟩ := ih
    exact ⟨t₀, ts ++ dimToks n, by simp [tyToks, htoks, dimToks], hhead⟩
  | named name generics =>
    obtain ⟨head, member⟩ := name
    cases member with
    | none => exact ⟨_, _, rfl, by simp⟩
    | some m => exact ⟨_, _, rfl, by simp⟩
  | nil => trivial
  | cons t ts => trivial
  | _ => exact ⟨_, _, rfl, by simp⟩

/-- What may stand behind a type. -/
def TyEnd (rest : List Token) : Prop := rest.head? ≠ some .dot ∧ rest.head? ≠ some .lBracket

theorem tyEnd_cons {t : Token} {rest : List Token} (hdot : t ≠ .dot) (hbracket : t ≠ .lBracket) :
    TyEnd (t :: rest) := by
  simp [TyEnd, hdot, hbracket]

end Shapes

section Dimensions

variable {b : Bool} {d : Nat}

theorem reads_arraySize (n : UInt64) {F : List Token → Prop} :
    Reads arraySize b d [.int n.toNat] F n := by
  have hsize : UInt64.ofNat ((n.toNat : Int) % 2 ^ 64).toNat = n := by
    have hlt : (n.toNat : Int) < 2 ^ 64 := by exact_mod_cast n.toNat_lt
    rw [Int.emod_eq_of_lt (by omega) hlt, Int.toNat_natCast, UInt64.ofNat_toNat]
  have h := (reads_intLit (b := b) (d := d) (F := F) n.toNat).last
    (f := fun v => UInt64.ofNat (v % 2 ^ 64).toNat)
  rw [hsize] at h
  exact h

theorem reads_atBracket (o : Option Token) :
    Reads atBracket b d [] (fun rest => rest.head? = o) (o == some .lBracket) := reads_check .lBracket o

theorem reads_nextIsInt (v : Int) :
    Reads nextIsInt b d [] (fun rest => rest[1]? = some (.int v)) true :=
  (reads_peek2 (some (.int v))).look (ReadsTo.pure true) fun _ hrest => hrest

theorem reads_nextIsInt_ne :
    Reads nextIsInt b d [] (fun rest => ∀ v, rest[1]? ≠ some (.int v)) false := by
  refine .pointwise fun rest hrest => (reads_peek2 rest[1]?).look ?_ (by rintro _ rfl; rfl)
  split
  · rename_i v heq
    exact absurd heq (hrest v)
  · exact .pure false

/-- Either answer is read from nothing. -/
theorem reads_nextIsInt_any (rest : List Token) : ∃ v, Reads nextIsInt b d [] (· = rest) v := by
  by_cases h : ∃ v, rest[1]? = some (.int v)
  · obtain ⟨v, hv⟩ := h
    exact ⟨true, (reads_nextIsInt v).mono (by rintro _ rfl; exact hv)⟩
  · exact ⟨false, reads_nextIsInt_ne.mono (by rintro _ rfl v hv; exact h ⟨v, hv⟩)⟩

theorem reads_dimensions (root : Ty String) (sizes : List UInt64) {n : Nat} (hn : sizes.length < n) :
    Reads (loop n (fun ty => do
      if (← atBracket) && (← nextIsInt) then do
        advance
        let size ← arraySize
        expect .rBracket
        pure (.inl (.array ty size))
      else pure (.inr ty)) root) b d (sizes.flatMap dimToks) TyEnd (sizes.foldl .array root) := by
  induction sizes generalizing root n with
  | nil =>
    obtain ⟨n, rfl⟩ := Nat.exists_eq_succ_of_ne_zero (by omega : n ≠ 0)
    refine .pointwise fun rest hend => .done ?_
    obtain ⟨v, hv⟩ := reads_nextIsInt_any (b := b) (d := d) rest
    have hbracket : (rest.head? == some Token.lBracket) = false := beq_eq_false_iff_ne.mpr hend.2
    refine (reads_atBracket rest.head?).look (hv.look ?_ fun _ h => h) (by rintro _ rfl; rfl)
    rw [hbracket]
    exact .pure _
  | cons size sizes ih =>
    obtain ⟨n, rfl⟩ := Nat.exists_eq_succ_of_ne_zero (by omega : n ≠ 0)
    refine ReadsTo.next (l := dimToks size) (G := fun _ => True) ?_
      (ih (.array root size) (by simp at hn; omega)) fun _ _ => trivial
    refine (reads_atBracket (some .lBracket)).look ((reads_nextIsInt size.toNat).look ?_ fun _ _ => rfl)
      fun _ _ => rfl
    refine (reads_advance .lBracket).take (G := fun _ => True) ?_ fun _ _ => trivial
    refine (reads_arraySize size).take (G := fun _ => True) ?_ fun _ _ => trivial
    exact (reads_expect .rBracket).last

end Dimensions

section Reading

variable {b : Bool} {d : Nat}

theorem reads_parseType {k : Knot} {ts : List Token} {F : List Token → Prop} {t : Ty String} (hd : 1 ≤ d)
    (h : Reads (parseTypeInner k) b (d - 1) ts F t) : Reads (parseType k) b d ts F t := by
  have hguarded := h.guarded.call .parseType
  rwa [Nat.sub_add_cancel hd] at hguarded

/-- The canonical form of a type, with dimensions behind it where these can stand, is read as the
array of the type. -/
def GoodTy (t : Ty String) : Prop :=
  ∀ b d extra, TyOk d t → extra = [] ∨ dimensioned t = true →
    ∀ᶠ n in atTop, Reads (parseType (knot n)) b d (tyToks t ++ extra.flatMap dimToks) TyEnd
      (extra.foldl .array t)

def GoodTys (ts : List (Ty String)) : Prop :=
  ∀ b d, TysOk d ts → ∀ᶠ n in atTop,
    List.Forall₂ (fun t toks => Reads (knot n).parseType b d toks TyEnd t) ts (tyTokss ts)

theorem GoodTy.plain {t : Ty String} (h : GoodTy t) (hok : TyOk d t) :
    ∀ᶠ n in atTop, Reads (knot n).parseType b d (tyToks t) TyEnd t := by
  have hread := h b d [] hok (.inl rfl)
  simp only [List.flatMap_nil, List.append_nil, List.foldl_nil] at hread
  exact knot_parseType hread

theorem goodTys_nil : GoodTys [] := fun _ _ _ => Filter.Eventually.of_forall fun _ => .nil

theorem goodTys_cons {t : Ty String} {ts : List (Ty String)} (ht : GoodTy t) (hts : GoodTys ts) :
    GoodTys (t :: ts) := by
  rintro b d ⟨hok, hoks⟩
  filter_upwards [ht.plain (b := b) hok, hts b d hoks] with n h hs
  exact .cons h hs

/-- A type that no dimensions stand behind. -/
theorem goodTy_undimensioned {t : Ty String} (hflat : dimensioned t = false)
    (h : ∀ b d, TyOk d t → 1 ≤ d ∧
      ∀ᶠ n in atTop, Reads (parseTypeInner (knot n)) b (d - 1) (tyToks t) TyEnd t) : GoodTy t := by
  intro b d extra hok hextra
  obtain rfl : extra = [] := hextra.resolve_right (by simp [hflat])
  obtain ⟨hd, hread⟩ := h b d hok
  filter_upwards [hread] with n hn
  rw [List.flatMap_nil, List.append_nil]
  exact reads_parseType hd hn

theorem goodTy_slice {inner : Ty String} (h : GoodTy inner) : GoodTy (.slice inner) := by
  refine goodTy_undimensioned rfl fun b d hok => ⟨hok.1, ?_⟩
  filter_upwards [h.plain (b := b) hok.2] with n hn
  refine .call _ ?_
  refine (reads_check .lBracket (some .lBracket)).look ?_ fun _ _ => rfl
  refine (reads_advance .lBracket).take (G := fun _ => True) ?_ fun _ _ => trivial
  refine (reads_expect .rBracket).take (G := fun _ => True) ?_ fun _ _ => trivial
  exact hn.last

theorem goodTy_tag {inner : Ty String} (h : GoodTy inner) : GoodTy (.tag inner) := by
  refine goodTy_undimensioned rfl fun b d hok => ⟨hok.1, ?_⟩
  filter_upwards [h.plain (b := b) hok.2] with n hn
  refine .call _ ?_
  refine (reads_check .lBracket (some .tag)).look ?_ fun _ _ => rfl
  refine (reads_eat .tag).take (G := fun _ => True) ?_ fun _ _ => trivial
  exact hn.last

theorem goodTy_crib {inner : Ty String} (h : GoodTy inner) : GoodTy (.crib inner) := by
  refine goodTy_undimensioned rfl fun b d hok => ⟨hok.1, ?_⟩
  filter_upwards [h.plain (b := b) hok.2] with n hn
  refine .call _ ?_
  refine (reads_check .lBracket (some .crib)).look ?_ fun _ _ => rfl
  refine (reads_eat_ne .tag).look ?_ fun _ _ => by simp [tyToks]
  refine (reads_eat .crib).take (G := fun _ => True) ?_ fun _ _ => trivial
  exact hn.last

theorem goodTy_soa {inner : Ty String} (h : GoodTy inner) : GoodTy (.soa inner) := by
  refine goodTy_undimensioned rfl fun b d hok => ⟨hok.1, ?_⟩
  filter_upwards [h.plain (b := b) hok.2] with n hn
  refine .call _ ?_
  refine (reads_check .lBracket (some .soa)).look ?_ fun _ _ => rfl
  refine (reads_eat_ne .tag).look ?_ fun _ _ => by simp [tyToks]
  refine (reads_eat_ne .crib).look ?_ fun _ _ => by simp [tyToks]
  refine (reads_eat .soa).take (G := fun _ => True) ?_ fun _ _ => trivial
  exact hn.last

/-- The types before a closing bracket. -/
theorem reads_types {k : Knot} {c : Token} {ts : List (Ty String)} (hne : ts ≠ [])
    (hclose : c ≠ .dot ∧ c ≠ .lBracket ∧ c ≠ .comma) (hn : ts.length ≤ k.fuel)
    (h : List.Forall₂ (fun t toks => Reads k.parseType b d toks TyEnd t) ts (tyTokss ts)) :
    Reads (commaList k.fuel k.parseType) b d (commaToks (tyTokss ts))
      (fun rest => rest.head? = some c) ts := by
  refine .commaList h hne hn (fun _ => tyEnd_cons (by simp) (by simp)) fun rest hrest => ?_
  cases rest with
  | nil => cases hrest
  | cons t rest =>
    cases Option.some.inj hrest
    exact ⟨tyEnd_cons hclose.1 hclose.2.1, by simp [hclose.2.2]⟩

theorem reads_typeArgs {k : Knot} {ts : List (Ty String)} (hne : ts ≠ []) (hn : ts.length ≤ k.fuel)
    (h : List.Forall₂ (fun t toks => Reads k.parseType b d toks TyEnd t) ts (tyTokss ts)) :
    Reads (do
      advance
      let tys ← commaList k.fuel k.parseType
      expect .rBracket
      pure tys) b d (brackets (commaToks (tyTokss ts))) (fun _ => True) ts := by
  refine (reads_advance .lBracket).take (G := fun _ => True) ?_ fun _ _ => trivial
  refine (reads_types (c := .rBracket) hne (by simp) hn h).bind ?_ fun _ _ => rfl
  exact (reads_expect .rBracket).last

theorem goodTy_fn {params : List (Ty String)} {ret : Ty String} (hps : GoodTys params) (hret : GoodTy ret) :
    GoodTy (.fn params ret) := by
  refine goodTy_undimensioned rfl fun b d hfn => ⟨hfn.1, ?_⟩
  obtain ⟨-, hoks, hok⟩ := hfn
  filter_upwards [hps b _ hoks, hret.plain (b := b) hok, Filter.eventually_ge_atTop params.length]
    with n hparams hn hlen
  refine .call _ ?_
  refine (reads_check .lBracket (some .finna)).look ?_ fun _ _ => rfl
  refine (reads_eat_ne .tag).look ?_ fun _ _ => by simp [tyToks]
  refine (reads_eat_ne .crib).look ?_ fun _ _ => by simp [tyToks]
  refine (reads_eat_ne .soa).look ?_ fun _ _ => by simp [tyToks]
  refine (reads_eat .finna).take (G := fun _ => True) ?_ fun _ _ => trivial
  refine (reads_expect .lParen).take (G := fun _ => True) ?_ fun _ _ => trivial
  have hlist : Reads (typeParams (knot n)) b (d - 1) (commaToks (tyTokss params))
      (fun rest => rest.head? = some .rParen) params := by
    cases params with
    | nil => exact (reads_check .rParen (some .rParen)).look (.pure []) fun _ h => h
    | cons t ts =>
      obtain ⟨t₀, us, hhead, -, hclose, -⟩ := tyToks_head t
      refine (reads_check_ne .rParen).look ?_ fun rest _ => ?_
      · exact reads_types (by simp) (by simp) (by rwa [knot_fuel]) hparams
      · simp [tyTokss, commaToks, hhead, hclose]
  refine .toks (l := commaToks (tyTokss params) ++ .rParen :: .arrow :: tyToks ret) (by simp) ?_
  refine hlist.bind ?_ fun _ _ => rfl
  refine (reads_expect .rParen).take (G := fun _ => True) ?_ fun _ _ => trivial
  refine (reads_expect .arrow).take (G := fun _ => True) ?_ fun _ _ => trivial
  exact hn.last

theorem dims_tyEnd {extra : List UInt64} {rest : List Token} (hend : TyEnd rest) :
    (extra.flatMap dimToks ++ rest).head? ≠ some .dot := by
  cases extra with
  | nil => exact hend.1
  | cons size extra => simp [dimToks]

/-- Dimensions are no type arguments. -/
theorem reads_typeGenerics_nil {k : Knot} {x : List UInt64} :
    Reads (typeGenerics k) b d [] (fun rest => ∃ rest', rest = x.flatMap dimToks ++ rest' ∧ TyEnd rest')
      [] := by
  refine .pointwise fun rest hrest => ?_
  obtain ⟨rest', rfl, hend⟩ := hrest
  cases x with
  | nil =>
    obtain ⟨v, hv⟩ := reads_nextIsInt_any (b := b) (d := d) rest'
    have hbracket : (rest'.head? == some Token.lBracket) = false := beq_eq_false_iff_ne.mpr hend.2
    refine (reads_atBracket rest'.head?).look (hv.look ?_ fun _ h => h) (by rintro _ rfl; rfl)
    rw [hbracket]
    exact .pure []
  | cons size x =>
    refine (reads_atBracket (some .lBracket)).look ((reads_nextIsInt size.toNat).look (.pure []) ?_) ?_
    · rintro _ rfl
      rfl
    · rintro _ rfl
      rfl

theorem reads_typeGenerics {k : Knot} {ts : List (Ty String)} (hne : ts ≠ []) (hn : ts.length ≤ k.fuel)
    (h : List.Forall₂ (fun t toks => Reads k.parseType b d toks TyEnd t) ts (tyTokss ts)) :
    Reads (typeGenerics k) b d (brackets (commaToks (tyTokss ts))) (fun _ => True) ts := by
  refine (reads_atBracket (some .lBracket)).look (reads_nextIsInt_ne.look (reads_typeArgs hne hn h) ?_)
    fun _ _ => rfl
  obtain ⟨t, ts, rfl⟩ := List.exists_cons_of_ne_nil hne
  obtain ⟨t₀, us, hhead, hint, -⟩ := tyToks_head t
  rintro rest - v hv
  simp [brackets, tyTokss, commaToks, hhead] at hv
  exact hint v hv

theorem reads_dotted (p : Path String) :
    Reads (dotted p.head) b d (match p.member with | none => [] | some m => [.dot, .ident m])
      (fun rest => rest.head? ≠ some .dot) p := by
  obtain ⟨head, member⟩ := p
  cases member with
  | none => exact (reads_opt_none .dot ident).last
  | some m => exact ((reads_ident m).opt .dot).last

theorem goodTy_rawPtr : GoodTy .rawPtr := by
  intro b d extra hd hextra
  filter_upwards [Filter.eventually_gt_atTop extra.length] with n hn
  refine reads_parseType hd (.call _ ?_)
  refine (reads_check .lBracket (some (.ident "rawptr"))).look ?_ fun _ _ => rfl
  refine (reads_eat_ne .tag).look ?_ fun _ _ => by simp [tyToks]
  refine (reads_eat_ne .crib).look ?_ fun _ _ => by simp [tyToks]
  refine (reads_eat_ne .soa).look ?_ fun _ _ => by simp [tyToks]
  refine (reads_eat_ne .finna).look ?_ fun _ _ => by simp [tyToks]
  refine (reads_ident "rawptr").take (G := fun _ => True) ?_ fun _ _ => trivial
  exact reads_dimensions .rawPtr extra (by rwa [knot_fuel])

theorem goodTy_named {name : Path String} {generics : List (Ty String)} (hgs : GoodTys generics) :
    GoodTy (.named name generics) := by
  rintro b d extra ⟨hd, hname, hoks⟩ hextra
  filter_upwards [hgs b _ hoks, Filter.eventually_ge_atTop generics.length,
    Filter.eventually_gt_atTop extra.length] with n hgenerics hlen hn
  refine reads_parseType hd (.call _ ?_)
  have hhead : ∃ ts, tyToks (.named name generics) = .ident name.head :: ts := by
    obtain ⟨head, member⟩ := name
    cases member <;> exact ⟨_, rfl⟩
  obtain ⟨ts, hts⟩ := hhead
  refine (reads_check .lBracket (some (.ident name.head))).look ?_ fun _ _ => by simp [hts]
  refine (reads_eat_ne .tag).look ?_ fun _ _ => by simp [hts]
  refine (reads_eat_ne .crib).look ?_ fun _ _ => by simp [hts]
  refine (reads_eat_ne .soa).look ?_ fun _ _ => by simp [hts]
  refine (reads_eat_ne .finna).look ?_ fun _ _ => by simp [hts]
  refine .toks (l := .ident name.head :: ((match name.member with | none => [] | some m => [.dot, .ident m]) ++
    ((if generics.isEmpty then [] else brackets (commaToks (tyTokss generics))) ++
      extra.flatMap dimToks))) ?_ ?_
  · obtain ⟨head, member⟩ := name
    cases member <;> simp [tyToks, pathToks]
  refine (reads_ident name.head).take (G := fun _ => True) ?_ fun _ _ => trivial
  rw [if_neg hname]
  cases generics with
  | nil =>
    refine (reads_dotted name).bind ?_ fun rest hend => dims_tyEnd hend
    refine (reads_typeGenerics_nil (x := extra)).look ?_ fun rest hend => ⟨rest, rfl, hend⟩
    exact reads_dimensions _ extra (by rwa [knot_fuel])
  | cons t ts =>
    refine (reads_dotted name).bind ?_ fun rest hend => by simp [brackets]
    refine (reads_typeGenerics (by simp) (by rwa [knot_fuel]) hgenerics).bind ?_ fun _ _ => trivial
    exact reads_dimensions _ extra (by rwa [knot_fuel])

theorem goodTy_array {inner : Ty String} {size : UInt64} (h : GoodTy inner) :
    GoodTy (.array inner size) := by
  rintro b d extra ⟨hdim, hok⟩ hextra
  filter_upwards [h b d (size :: extra) hok (.inr hdim)] with n hn
  exact .toks (by simp [tyToks, dimToks]) hn

theorem goodTy (t : Ty String) : GoodTy t := by
  induction t using Ty.rec (motive_2 := GoodTys) with
  | slice inner ih => exact goodTy_slice ih
  | array inner size ih => exact goodTy_array ih
  | tag inner ih => exact goodTy_tag ih
  | crib inner ih => exact goodTy_crib ih
  | soa inner ih => exact goodTy_soa ih
  | fn params ret ihs ih => exact goodTy_fn ihs ih
  | rawPtr => exact goodTy_rawPtr
  | named name generics ihs => exact goodTy_named ihs
  | nil => exact goodTys_nil
  | cons t ts ih ihs => exact goodTys_cons ih ihs

theorem goodTys (ts : List (Ty String)) : GoodTys ts := by
  induction ts with
  | nil => exact goodTys_nil
  | cons t ts ih => exact goodTys_cons (goodTy t) ih

end Reading

end BetLang.Fmt
