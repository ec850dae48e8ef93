import Mathlib.Data.List.Nodup
import BetLang.ScopeInterp
import BetLang.ScopeLower

/-! When lowering and the interpreter give a use the same binding. -/

namespace BetLang.Scope

section Newest

/-- The last declaration of a name among those of a kind. -/
def History.newest (h : History) (p : Entry → Bool) (name : String) : Option Entry :=
  h.find? fun e => p e && name == e.decl.name

/-- The innermost declaration of a name whose block goes on. -/
abbrev History.innermost (h : History) (name : String) : Option Entry :=
  h.newest Entry.inScope name

abbrev History.newestLocal (h : History) (name : String) : Option Entry :=
  h.newest Entry.lowered name

abbrev History.newestFacts (h : History) (name : String) : Option Entry :=
  h.newest Entry.isFacts name

theorem lookup_table (h : History) (p : Entry → Bool) (name : String) :
    (h.table p).lookup name = (h.newest p name).map (·.decl.id) := by
  induction h with
  | nil => rfl
  | cons e h ih =>
    rw [History.newest, List.find?_cons, History.table]
    cases hp : p e with
    | false =>
      rw [List.filter_cons_of_neg (by simp [hp])]
      exact ih
    | true =>
      rw [List.filter_cons_of_pos hp, List.map_cons, List.lookup_cons]
      cases hn : name == e.decl.name with
      | false => exact ih
      | true => rfl

theorem get_inScope (h : History) (name : String) :
    Scopes.get [h.table Entry.inScope] name = (h.innermost name).map (·.decl.id) := by
  rw [get_eq_lookup, List.flatten_singleton, lookup_table]

theorem get_lowered (h : History) (name : String) :
    Scopes.get [h.table Entry.lowered] name = (h.newestLocal name).map (·.decl.id) := by
  rw [get_eq_lookup, List.flatten_singleton, lookup_table]

theorem lookup_facts (h : History) (name : String) :
    (h.table Entry.isFacts).lookup name = (h.newestFacts name).map (·.decl.id) :=
  lookup_table h _ name

variable {h : History} {p q : Entry → Bool} {name : String} {e e' : Entry}

theorem newest_mem (he : h.newest p name = some e) : e ∈ h := List.mem_of_find?_eq_some he

theorem newest_spec (he : h.newest p name = some e) : p e = true ∧ e.decl.name = name := by
  have hp := List.find?_some he
  rw [Bool.and_eq_true, beq_iff_eq] at hp
  exact ⟨hp.1, hp.2.symm⟩

theorem newest_none (hn : h.newest p name = none) (he : e ∈ h) (hname : e.decl.name = name) :
    p e = false := by
  have hall := List.find?_eq_none.mp hn e he
  rw [Bool.and_eq_true, beq_iff_eq] at hall
  exact Bool.eq_false_iff.mpr fun hp => hall ⟨hp, hname.symm⟩

/-- The last ones of two kinds are one when each is of both. -/
theorem newest_unique (he : h.newest p name = some e) (he' : h.newest q name = some e')
    (hq : q e = true) (hp : p e' = true) : e = e' := by
  induction h with
  | nil => cases he
  | cons e₀ h ih =>
    rw [History.newest, List.find?_cons] at he he'
    cases hc : p e₀ && name == e₀.decl.name with
    | true =>
      rw [hc] at he
      cases he
      rw [Bool.and_eq_true] at hc
      rw [show (q e && name == e.decl.name) = true by rw [hq, hc.2]; rfl] at he'
      exact Option.some.inj he'
    | false =>
      rw [hc] at he
      cases hc' : q e₀ && name == e₀.decl.name with
      | true =>
        rw [hc'] at he'
        cases he'
        rw [Bool.and_eq_true] at hc'
        rw [hp, hc'.2] at hc
        cases hc
      | false =>
        rw [hc'] at he'
        exact ih he he'

/-- Distinct declarations are told apart by their number. -/
theorem entry_eq_of_id (hn : h.ids.Nodup) (he : e ∈ h) (he' : e' ∈ h)
    (hid : e.decl.id = e'.decl.id) : e = e' :=
  List.inj_on_of_nodup_map hn (List.mem_reverse.mpr he) (List.mem_reverse.mpr he') hid

end Newest

section Condition

/-- No name of a `lowkey` that goes on hides the use. -/
def Settled (h : History) (name : String) : Prop :=
  ∀ e, h.newestLocal name = some e → e.status = .live

/-- A constant is not hidden by a local, nor by a constant of an ended block. -/
def FactsSeen (h : History) (name : String) : Prop :=
  match h.innermost name with
  | none => ∀ e ∈ h, e.decl.name = name → e.isFacts = false
  | some e => e.isFacts = true →
      (∀ e' ∈ h, e'.decl.name = name → e'.status = .live → e'.isFacts = true) ∧
        h.newestFacts name = some e

/-- The innermost declaration is not a constant. -/
def NotFacts (h : History) (name : String) : Prop :=
  ∀ e, h.innermost name = some e → e.isFacts = false

/-- No module-level binding stands in for a local. -/
def NotGlobal (m : Module) (h : History) (name : String) : Prop :=
  h.innermost name = none → Interp.lookupGlobal m name = none

/-- What the text must look like around a use. -/
def Scoped (m : Module) (h : History) (u : Use) : Prop :=
  match u.kind with
  | .slide => h.innermost u.name = none
  | .target | .callee => Settled h u.name ∧ NotFacts h u.name
  | .spill => Settled h u.name ∧ NotFacts h u.name ∧ NotGlobal m h u.name
  | .value => Settled h u.name ∧ FactsSeen h u.name
  | .receiver =>
    if m.isModule u.name && !m.isFunc u.name then
      Settled h u.name ∧ NotFacts h u.name ∧ NotGlobal m h u.name
    else Settled h u.name ∧ FactsSeen h u.name

end Condition

section Cases

variable {m : Module} {h : History} {u : Use} {name : String} {e e' : Entry}

theorem inScope_iff (e : Entry) : e.inScope = true ↔ e.status = .live := decide_eq_true_iff

theorem lowered_of_live (hl : e.status = .live) (hf : e.isFacts = false) : e.lowered = true := by
  simp [Entry.lowered, hl, hf]

theorem facts_of_lowered (hl : e.lowered = true) : e.isFacts = false := by
  rw [Entry.lowered, Bool.and_eq_true] at hl
  simpa using hl.1

/-- A local that is innermost is the one in the tables. -/
theorem newestLocal_eq (hs : Settled h name) (he : h.innermost name = some e)
    (hf : e.isFacts = false) : h.newestLocal name = some e := by
  have hlow := lowered_of_live ((inScope_iff e).mp (newest_spec he).1) hf
  cases hl : h.newestLocal name with
  | none =>
    have := newest_none hl (newest_mem he) (newest_spec he).2
    rw [hlow] at this
    cases this
  | some e' =>
    have heq := newest_unique he hl hlow ((inScope_iff e').mpr (hs e' hl))
    rw [heq]

theorem newestLocal_none (hs : Settled h name) (hn : h.innermost name = none) :
    h.newestLocal name = none := by
  cases hl : h.newestLocal name with
  | none => rfl
  | some e' =>
    have := newest_none hn (newest_mem hl) (newest_spec hl).2
    rw [(inScope_iff e').mpr (hs e' hl)] at this
    cases this

/-- Without a local in the tables only a constant can be innermost. -/
theorem facts_of_newestLocal_none (hl : h.newestLocal name = none)
    (hi : h.innermost name = some e) : e.isFacts = true := by
  have hnot := newest_none hl (newest_mem hi) (newest_spec hi).2
  cases hf : e.isFacts with
  | true => rfl
  | false =>
    rw [lowered_of_live ((inScope_iff e).mp (newest_spec hi).1) hf] at hnot
    cases hnot

theorem settled_of_newestLocal_none (hl : h.newestLocal name = none) : Settled h name := by
  intro e he
  rw [hl] at he
  cases he

/-- The local in the tables is the innermost declaration when nothing hides it. -/
theorem innermost_id_iff (hn : h.ids.Nodup) (hl : h.newestLocal name = some e') :
    (h.innermost name).map (·.decl.id) = some e'.decl.id ↔ Settled h name ∧ NotFacts h name := by
  constructor
  · intro heq
    obtain ⟨e, hi, hid⟩ := Option.map_eq_some_iff.mp heq
    have he := entry_eq_of_id hn (newest_mem hi) (newest_mem hl) hid
    subst he
    refine ⟨fun e₁ he₁ => ?_, fun e₁ he₁ => ?_⟩
    · rw [hl] at he₁
      cases he₁
      exact (inScope_iff e).mp (newest_spec hi).1
    · rw [hi] at he₁
      cases he₁
      exact facts_of_lowered (newest_spec hl).1
  · rintro ⟨hs, hnf⟩
    cases hi : h.innermost name with
    | none =>
      rw [newestLocal_none hs hi] at hl
      cases hl
    | some e =>
      rw [newestLocal_eq hs hi (hnf e hi)] at hl
      cases hl
      rfl

/-- Behind a bound local a constant is seen only when none is innermost. -/
theorem factsSeen_iff (hs : Settled h name) (hl : h.newestLocal name = some e') :
    FactsSeen h name ↔ NotFacts h name := by
  rw [FactsSeen]
  cases hi : h.innermost name with
  | none =>
    rw [newestLocal_none hs hi] at hl
    cases hl
  | some e =>
    constructor
    · intro hseen e₁ he₁
      rw [hi] at he₁
      cases he₁
      by_contra hf
      have hall := (hseen (Bool.not_eq_false _ |>.mp hf)).1
      have hfacts := hall e' (newest_mem hl) (newest_spec hl).2 (hs e' hl)
      rw [facts_of_lowered (newest_spec hl).1] at hfacts
      cases hfacts
    · intro hnf hf
      rw [hnf e hi] at hf
      cases hf

theorem notGlobal_of_local (hs : Settled h name) (hl : h.newestLocal name = some e') :
    NotGlobal m h name := by
  intro hi
  rw [newestLocal_none hs hi] at hl
  cases hl

/-- A use that finds a local in the tables. -/
theorem scoped_iff_of_local (hl : h.newestLocal u.name = some e') (hk : u.kind ≠ .slide) :
    Scoped m h u ↔ Settled h u.name ∧ NotFacts h u.name := by
  have hseen : Settled h u.name ∧ FactsSeen h u.name ↔ Settled h u.name ∧ NotFacts h u.name :=
    and_congr_right fun hs => factsSeen_iff hs hl
  have hglobal : Settled h u.name ∧ NotFacts h u.name ∧ NotGlobal m h u.name ↔
      Settled h u.name ∧ NotFacts h u.name :=
    and_congr_right fun hs => and_iff_left (notGlobal_of_local hs hl)
  rw [Scoped]
  cases hkind : u.kind with
  | slide => exact absurd hkind hk
  | target | callee => exact Iff.rfl
  | spill => exact hglobal
  | value => exact hseen
  | receiver =>
    dsimp only
    by_cases hm : (m.isModule u.name && !m.isFunc u.name) = true
    · rw [if_pos hm]
      exact hglobal
    · rw [if_neg hm]
      exact hseen

end Cases

section Bindings

variable {m : Module} {h : History} {u : Use} {name : String} {e : Entry}

theorem returned_of_some (hi : h.innermost u.name = some e) :
    returned m h u = .decl e.decl.id := by
  rw [returned, Interp.resolve, get_inScope, hi]
  rfl

theorem returned_of_none (hi : h.innermost u.name = none) :
    returned m h u = match u.kind with
      | .callee | .slide => .item
      | _ => Interp.globalOrItem m u.name := by
  rw [returned, Interp.resolve, get_inScope, hi]
  cases u.kind <;> rfl

theorem resolved_of_local (hl : h.newestLocal u.name = some e) (hk : u.kind ≠ .slide) :
    resolved m h u = some (.decl e.decl.id) := by
  rw [resolved, Lower.resolve, get_lowered, hl]
  cases hkind : u.kind with
  | slide => exact absurd hkind hk
  | _ => rfl

/-- The tables that lowering has behind a history. -/
abbrev tablesOf (h : History) : Lower.State :=
  ⟨[h.table Entry.lowered], h.table Entry.isFacts, [], false⟩

theorem resolved_of_none (hl : h.newestLocal u.name = none) :
    resolved m h u = match u.kind with
      | .target => none
      | .value => some (Lower.lowerName m (tablesOf h) u.name)
      | .callee | .spill | .slide => some .item
      | .receiver =>
        if m.isModule u.name && !m.isFunc u.name then some .item
        else some (Lower.lowerName m (tablesOf h) u.name) := by
  rw [resolved, Lower.resolve, get_lowered, hl]
  cases u.kind <;> rfl

theorem lowerName_of_facts (hf : h.newestFacts name = some e) :
    Lower.lowerName m (tablesOf h) name = .decl e.decl.id := by
  rw [Lower.lowerName, Lower.lookupConst, lookup_facts, hf]
  rfl

theorem lowerName_of_none (hf : h.newestFacts name = none) :
    Lower.lowerName m (tablesOf h) name = Interp.globalOrItem m name := by
  rw [Lower.lowerName, Lower.lookupConst, lookup_facts, hf, Interp.globalOrItem,
    Interp.lookupGlobal, List.lookup_append]
  cases m.facts.lookup name with
  | some id => rfl
  | none => rfl

theorem globalOrItem_ne_decl (m : Module) (name : String) (id : Nat) :
    Interp.globalOrItem m name ≠ .decl id := by
  rw [Interp.globalOrItem]
  cases Interp.lookupGlobal m name <;> exact nofun

theorem globalOrItem_eq_item : Interp.globalOrItem m name = .item ↔
    Interp.lookupGlobal m name = none := by
  rw [Interp.globalOrItem]
  cases Interp.lookupGlobal m name with
  | none => exact ⟨fun _ => rfl, fun _ => rfl⟩
  | some id => exact ⟨nofun, nofun⟩

end Bindings

section Agreement

variable {m : Module} {h : History} {u : Use} {b : Binding}

/-- A name that is no local, looked up among the constants. -/
theorem lowerName_agrees_iff (hn : h.ids.Nodup) (hl : h.newestLocal u.name = none)
    (hk : u.kind = .value ∨ u.kind = .receiver) :
    Lower.lowerName m (tablesOf h) u.name = returned m h u ↔ FactsSeen h u.name := by
  rw [FactsSeen]
  cases hi : h.innermost u.name with
  | none =>
    have hret : returned m h u = Interp.globalOrItem m u.name := by
      rw [returned_of_none hi]
      rcases hk with hk | hk <;> rw [hk]
    rw [hret]
    constructor
    · intro heq e he hname
      cases hf : h.newestFacts u.name with
      | none => exact newest_none hf he hname
      | some e' =>
        rw [lowerName_of_facts hf] at heq
        exact absurd heq.symm (globalOrItem_ne_decl m u.name e'.decl.id)
    · intro hall
      cases hf : h.newestFacts u.name with
      | none => exact lowerName_of_none hf
      | some e' =>
        have hfacts := hall e' (newest_mem hf) (newest_spec hf).2
        rw [(newest_spec hf).1] at hfacts
        cases hfacts
  | some e =>
    have hfacts := facts_of_newestLocal_none hl hi
    rw [returned_of_some hi]
    cases hf : h.newestFacts u.name with
    | none =>
      have hnot := newest_none hf (newest_mem hi) (newest_spec hi).2
      rw [hfacts] at hnot
      cases hnot
    | some e' =>
      rw [lowerName_of_facts hf]
      constructor
      · intro heq _
        have hid : e'.decl.id = e.decl.id := by injection heq
        have he := entry_eq_of_id hn (newest_mem hf) (newest_mem hi) hid
        refine ⟨fun e₁ he₁ hname hlive => ?_, congrArg some he⟩
        have hnot := newest_none hl he₁ hname
        cases hf₁ : e₁.isFacts with
        | true => rfl
        | false =>
          rw [lowered_of_live hlive hf₁] at hnot
          cases hnot
      · intro hseen
        rw [Option.some.inj (hseen hfacts).2]

/-- A name that is no local, taken as an item. -/
theorem item_agrees_iff (hl : h.newestLocal u.name = none) :
    .item = returned m h u ↔ NotFacts h u.name ∧
      (u.kind = .callee ∨ u.kind = .slide ∨ NotGlobal m h u.name) := by
  cases hi : h.innermost u.name with
  | some e =>
    rw [returned_of_some hi]
    refine ⟨nofun, fun ⟨hnf, _⟩ => ?_⟩
    have hfacts := facts_of_newestLocal_none hl hi
    rw [hnf e hi] at hfacts
    cases hfacts
  | none =>
    have hnf : NotFacts h u.name := by
      intro e he
      rw [hi] at he
      cases he
    have hng : NotGlobal m h u.name ↔ Interp.globalOrItem m u.name = .item := by
      rw [globalOrItem_eq_item]
      exact ⟨fun hng => hng hi, fun hg _ => hg⟩
    rw [returned_of_none hi, hng]
    cases u.kind <;> simp [hnf, eq_comm]

theorem agrees_iff (hn : h.ids.Nodup) (hr : resolved m h u = some b) :
    b = returned m h u ↔ Scoped m h u := by
  by_cases hslide : u.kind = .slide
  · rw [resolved, Lower.resolve, hslide] at hr
    cases hr
    rw [Scoped, hslide]
    cases hi : h.innermost u.name with
    | some e =>
      rw [returned_of_some hi]
      constructor <;> (intro heq; cases heq)
    | none =>
      rw [returned_of_none hi, hslide]
      exact ⟨fun _ => rfl, fun _ => rfl⟩
  · cases hl : h.newestLocal u.name with
    | some e =>
      rw [resolved_of_local hl hslide] at hr
      cases hr
      rw [scoped_iff_of_local hl hslide, ← innermost_id_iff hn hl]
      cases hi : h.innermost u.name with
      | some e' =>
        rw [returned_of_some hi]
        constructor
        · intro heq
          injection heq with hid
          exact congrArg some hid.symm
        · intro heq
          exact congrArg Binding.decl (Option.some.inj heq).symm
      | none =>
        rw [returned_of_none hi]
        constructor
        · intro heq
          cases hk : u.kind <;> rw [hk] at heq <;>
            first | cases heq | exact absurd heq.symm (globalOrItem_ne_decl m u.name _)
        · intro heq
          cases heq
    | none =>
      have hs := settled_of_newestLocal_none hl
      have hitem := item_agrees_iff (m := m) hl
      have hname := lowerName_agrees_iff (m := m) (u := u) hn hl
      rw [resolved_of_none hl] at hr
      rw [Scoped]
      cases hk : u.kind with
      | slide => exact absurd hk hslide
      | target =>
        rw [hk] at hr
        cases hr
      | value =>
        rw [hk] at hr
        cases hr
        exact (hname (.inl hk)).trans (and_iff_right hs).symm
      | callee =>
        rw [hk] at hr
        cases hr
        exact (hitem.trans (and_iff_left (.inl hk))).trans (and_iff_right hs).symm
      | spill =>
        rw [hk] at hr
        cases hr
        have hother : u.kind = .callee ∨ u.kind = .slide ∨ NotGlobal m h u.name ↔
            NotGlobal m h u.name := by simp [hk]
        rw [hitem, hother]
        exact (and_iff_right hs).symm
      | receiver =>
        rw [hk] at hr
        dsimp only at hr ⊢
        by_cases hm : (m.isModule u.name && !m.isFunc u.name) = true
        · rw [if_pos hm] at hr ⊢
          cases hr
          have hother : u.kind = .callee ∨ u.kind = .slide ∨ NotGlobal m h u.name ↔
              NotGlobal m h u.name := by simp [hk]
          rw [hitem, hother]
          exact (and_iff_right hs).symm
        · rw [if_neg hm] at hr ⊢
          cases hr
          exact (hname (.inr hk)).trans (and_iff_right hs).symm

/-- The table gives each use what was resolved at its point. -/
theorem lookup_of_resolves {ps : List Point} {table : List (Nat × Binding)}
    (hall : List.Forall₂ (Lower.Resolves m) ps table) (hsites : (ps.map (·.1.site)).Nodup)
    (hp : (u, h) ∈ ps) : ∃ b, table.lookup u.site = some b ∧ resolved m h u = some b := by
  induction hall with
  | nil => cases hp
  | @cons p b ps table hpb hrest ih =>
    obtain ⟨hres, hsite⟩ := hpb
    have hnd := List.nodup_cons.mp hsites
    obtain ⟨site, binding⟩ := b
    rw [List.lookup_cons]
    rcases List.mem_cons.mp hp with rfl | hp
    · rw [show (u.site == site) = true from beq_iff_eq.mpr hsite.symm]
      exact ⟨binding, rfl, hres⟩
    · have hne : (u.site == site) = false := by
        rw [beq_eq_false_iff_ne]
        intro heq
        exact hnd.1 (List.mem_map.mpr ⟨(u, h), hp, heq.trans hsite⟩)
      rw [hne]
      exact ih hnd.2 hp

/-- In every run of a function, each lookup finds what lowering resolved its use to if and only if
the text around each of these uses is as `Scoped` says. -/
theorem scoping_agrees_iff {m : Module} {f : Func} {table : List (Nat × Binding)}
    (hf : f.WellFormed) (hl : lowerFunc m f = some table) {env : Scopes}
    {evs : List Interp.Event} {fl : Interp.Flow}
    (hx : Interp.Exec m (Scopes.declareAll [[]] f.params) (.block f.body) evs env fl) :
    (∀ ev ∈ evs, table.lookup ev.1.site = some ev.2) ↔
      ∀ ev ∈ evs, ∀ h, (ev.1, h) ∈ f.points → Scoped m h ev.1 := by
  have hstart : Interp.Holds (Scopes.declareAll [[]] f.params) (openAll [] f.params) :=
    Interp.Holds.declareAll (h := []) ⟨rfl, List.cons_ne_nil _ _⟩ f.params
  have hfaithful := (Interp.exec_sound hx _ hstart).1
  have hall := Lower.lowerFunc_spec hl
  have hone : ∀ ev ∈ evs, ∀ h, (ev.1, h) ∈ f.points →
      (table.lookup ev.1.site = some ev.2 ↔ Scoped m h ev.1) := by
    intro ev hev h hp
    obtain ⟨h', hp', hret⟩ := hfaithful ev hev
    obtain ⟨b, hb, hres⟩ := lookup_of_resolves hall hf.sites hp
    have heq : h' = h :=
      congrArg Prod.snd (List.inj_on_of_nodup_map hf.sites hp' hp rfl)
    rw [hb, Option.some.injEq, hret, heq]
    exact agrees_iff (hf.nodup hp) hres
  constructor
  · intro hagree ev hev h hp
    exact (hone ev hev h hp).mp (hagree ev hev)
  · intro hscoped ev hev
    obtain ⟨h, hp, _⟩ := hfaithful ev hev
    exact (hone ev hev h hp).mpr (hscoped ev hev h hp)

end Agreement

section Examples

def noItems : Module := ⟨[], [], fun _ => false, fun _ => false⟩

/-- `finna f(n) { lowkey x = n  bet x }`. -/
def copyFunc : Func :=
  ⟨[⟨"n", 0⟩], .cons (.lowkey [⟨"x", 1⟩] [[⟨.value, "n", 0⟩]])
    (.cons (.bet [⟨.value, "x", 1⟩]) .nil)⟩

theorem copyFunc_run : Interp.Exec noItems (Scopes.declareAll [[]] copyFunc.params)
    (.block copyFunc.body) [(⟨.value, "n", 0⟩, .decl 0), (⟨.value, "x", 1⟩, .decl 1)]
    [[("n", 0)]] .ret :=
  .block (.stmts (.lowkey (.inl rfl) (.uses (List.Sublist.refl _) (.inl rfl)))
    (.stmtsLeave (.bet (.uses (List.Sublist.refl _) (.inl rfl))) nofun))

theorem copyFunc_agrees :
    (∀ ev ∈ [((⟨.value, "n", 0⟩ : Use), Binding.decl 0), (⟨.value, "x", 1⟩, .decl 1)],
      [(0, Binding.decl 0), (1, .decl 1)].lookup ev.1.site = some ev.2) ↔
    ∀ ev ∈ [((⟨.value, "n", 0⟩ : Use), Binding.decl 0), (⟨.value, "x", 1⟩, .decl 1)],
      ∀ h, (ev.1, h) ∈ copyFunc.points → Scoped noItems h ev.1 :=
  scoping_agrees_iff ⟨by decide, by decide⟩ (by rfl) copyFunc_run

/-- `finna f() { lowkey x = 1  fr ok { facts x = 2  bet x } }`. -/
def shadowFunc : Func :=
  ⟨[], .cons (.lowkey [⟨"x", 0⟩] [[]])
    (.cons (.fr (.fr [] (.cons (.facts ⟨"x", 1⟩) (.cons (.bet [⟨.value, "x", 0⟩]) .nil)) .done))
      .nil)⟩

/-- Inside the block lowering takes the outer variable, the interpreter the constant. -/
theorem shadowFunc_disagrees :
    shadowFunc.WellFormed ∧
    lowerFunc noItems shadowFunc = some [(0, .decl 0)] ∧
    ∃ env, Interp.Exec noItems (Scopes.declareAll [[]] shadowFunc.params)
      (.block shadowFunc.body) [(⟨.value, "x", 0⟩, .decl 1)] env .ret := by
  refine ⟨⟨by decide, by decide⟩, by rfl, [[]], ?_⟩
  have hnone : ∀ env, Interp.Exec noItems env (.uses []) [] env .normal :=
    fun env => .uses (List.nil_sublist []) (.inl rfl)
  have hx : Interp.Exec noItems [[], []] (.stmt (.lowkey [⟨"x", 0⟩] [[]])) []
      [[("x", 0)], []] .normal := .lowkey (.inl rfl) (hnone _)
  have hbody : Interp.Exec noItems [[("x", 0)], []]
      (.block (.cons (.facts ⟨"x", 1⟩) (.cons (.bet [⟨.value, "x", 0⟩]) .nil)))
      [(⟨.value, "x", 0⟩, .decl 1)] [[("x", 0)], []] .ret :=
    .block (.stmts .facts
      (.stmtsLeave (.bet (.uses (List.Sublist.refl _) (.inl rfl))) nofun))
  exact .block (.stmts hx (.stmtsLeave (.fr (.chainTake (hnone _) hbody)) nofun))

end Examples

end BetLang.Scope
