import BetLang.ScopeTables
import BetLang.Sequencing

/-! What lowering records for the uses of a function: at each point the entry that its tables give
behind the declarations of the text before it. -/

namespace BetLang.Scope

/-- What lowering resolves a use to behind a history. -/
def resolved (m : Module) (h : History) (u : Use) : Option Binding :=
  Lower.resolve m ⟨[h.table Entry.lowered], h.table Entry.isFacts, [], false⟩ u

namespace Lower

/-- The tables hold the entries of the history: of the constants also the ended ones. -/
structure Tables (st : State) (h : History) : Prop where
  flatten : st.scopes.flatten = h.table Entry.lowered
  consts : st.localConsts = h.table Entry.isFacts
  ne_nil : st.scopes ≠ []

theorem lowered_ended (e : Entry) (he : e.status = .ended) : e.lowered = false := by
  simp [Entry.lowered, he]

theorem lowerName_congr (m : Module) {s t : State} (h : s.localConsts = t.localConsts)
    (name : String) : lowerName m s name = lowerName m t name := by
  rw [lowerName, lowerName, lookupConst, lookupConst, h]

theorem Tables.resolve {st : State} {h : History} (ht : Tables st h) (m : Module) (u : Use) :
    resolve m st u = resolved m h u := by
  have hname := lowerName_congr m (t := ⟨[h.table Entry.lowered], h.table Entry.isFacts, [], false⟩)
    ht.consts u.name
  rw [resolved, Lower.resolve, Lower.resolve, get_eq_lookup, get_eq_lookup, ht.flatten,
    List.flatten_singleton, hname]

theorem Tables.push {st : State} {h : History} (ht : Tables st h) : Tables st.push h :=
  ⟨ht.flatten, ht.consts, List.cons_ne_nil _ _⟩

theorem Tables.select {st : State} {h : History} (ht : Tables st h) : Tables st.select h :=
  ⟨ht.flatten, ht.consts, ht.ne_nil⟩

theorem Tables.bind {st : State} {h : History} (ht : Tables st h) (status : Status)
    (hs : status ≠ .ended) (d : Decl) : Tables (st.bind d) (localEntry status d :: h) := by
  refine ⟨?_, ?_, declare_ne_nil ht.ne_nil d⟩
  · rw [State.bind, declare_flatten ht.ne_nil, ht.flatten, History.table, History.table,
      List.filter_cons_of_pos (by simp [Entry.lowered, localEntry, hs]), List.map_cons]
    rfl
  · exact ht.consts

theorem table_facts_openAll (h : History) (ds : List Decl) :
    (openAll h ds).table Entry.isFacts = h.table Entry.isFacts := by
  have hnil : ((ds.map (localEntry .live)).reverse).filter Entry.isFacts = [] := by
    rw [List.filter_eq_nil_iff]
    intro e hmem
    obtain ⟨d, _, rfl⟩ := List.mem_map.mp (List.mem_reverse.mp hmem)
    exact Bool.false_ne_true
  rw [History.table, openAll, List.filter_append, hnil, List.nil_append, History.table]

theorem suffix_closeTo {h h₁ : History} (hs : h <:+ h₁) (h₂ : History) : h <:+ closeTo h₁ h₂ :=
  hs.trans (List.suffix_append _ _)

/-- Constants stay in their table when their block ends. -/
theorem table_facts_closeTo {h h' : History} (hs : h <:+ h') :
    (closeTo h h').table Entry.isFacts = h'.table Entry.isFacts := by
  obtain ⟨new, rfl⟩ := hs
  rw [closeTo_append, History.table, History.table, List.filter_append, List.filter_append,
    List.map_append, List.map_append, List.filter_map, List.map_map]
  rfl

theorem Tables.openAll {st : State} {h : History} (ht : Tables st h) (ds : List Decl) :
    Tables { st with scopes := st.scopes.declareAll ds } (openAll h ds) := by
  obtain ⟨hflat, _, hne⟩ := declareAll_spec ht.ne_nil ds
  refine ⟨?_, ?_, hne⟩
  · rw [hflat, ht.flatten, table_openAll (fun _ => rfl)]
  · rw [table_facts_openAll]
    exact ht.consts

def Resolves (m : Module) (p : Point) (b : Nat × Binding) : Prop :=
  resolved m p.2 p.1 = some b.2 ∧ b.1 = p.1.site

/-- What is recorded from one state to a later one. -/
def Records (m : Module) (st st' : State) (ps : List Point) : Prop :=
  ∃ new, st'.resolved = st.resolved ++ new ∧ List.Forall₂ (Resolves m) ps new

theorem Records.refl (m : Module) (st : State) : Records m st st [] :=
  ⟨[], (List.append_nil _).symm, .nil⟩

theorem Records.trans {m : Module} {st st' st'' : State} {ps ps' : List Point}
    (hr : Records m st st' ps) (hr' : Records m st' st'' ps') :
    Records m st st'' (ps ++ ps') := by
  obtain ⟨new, heq, hall⟩ := hr
  obtain ⟨new', heq', hall'⟩ := hr'
  exact ⟨new ++ new', by rw [heq', heq, List.append_assoc], List.rel_append hall hall'⟩

/-- What lowering a piece of text does. -/
structure Lowers (m : Module) (st st' : State) (h' : History) (ps : List Point) : Prop where
  records : Records m st st' ps
  tables : Tables st' h'
  tail : st'.scopes.tail = st.scopes.tail

theorem Lowers.refl {m : Module} {st : State} {h : History} (ht : Tables st h) :
    Lowers m st st h [] :=
  ⟨.refl m st, ht, rfl⟩

theorem Lowers.trans {m : Module} {st st' st'' : State} {h' h'' : History}
    {ps ps' : List Point} (hl : Lowers m st st' h' ps) (hl' : Lowers m st' st'' h'' ps') :
    Lowers m st st'' h'' (ps ++ ps') :=
  ⟨hl.records.trans hl'.records, hl'.tables, hl'.tail.trans hl.tail⟩

theorem Lowers.select {m : Module} {st st' : State} {h' : History} {ps : List Point}
    (hl : Lowers m st st' h' ps) : Lowers m st st'.select h' ps :=
  ⟨hl.records, hl.tables.select, hl.tail⟩

theorem Lowers.terminate {m : Module} {st st' : State} {h' : History} {ps : List Point}
    (hl : Lowers m st st' h' ps) : Lowers m st st'.terminate h' ps :=
  ⟨hl.records, ⟨hl.tables.flatten, hl.tables.consts, hl.tables.ne_nil⟩, hl.tail⟩

/-- The scope that was opened around a piece of text is closed behind it. -/
theorem Lowers.scoped {m : Module} {st inner st' : State} {h h' : History} {ps : List Point}
    (ht : Tables st h) (hl : Lowers m inner st' h' ps) (hres : inner.resolved = st.resolved)
    (hin : inner.scopes.tail = st.scopes) (hs : h <:+ h') :
    Lowers m st st'.pop (closeTo h h') ps := by
  have hpop : st'.pop.scopes = st.scopes := hl.tail.trans hin
  refine ⟨?_, ⟨?_, ?_, ?_⟩, congrArg List.tail hpop⟩
  · obtain ⟨new, heq, hall⟩ := hl.records
    exact ⟨new, heq.trans (congrArg (· ++ new) hres), hall⟩
  · rw [hpop, ht.flatten, table_closeTo lowered_ended]
  · rw [table_facts_closeTo hs]
    exact hl.tables.consts
  · rw [hpop]
    exact ht.ne_nil

theorem lowerUses_spec {m : Module} {st st' : State} {h : History} {us : List Use}
    (ht : Tables st h) (hl : lowerUses m st us = some st') :
    Lowers m st st' h (pointsAt h us) ∧ st'.done = st.done := by
  induction us generalizing st with
  | nil =>
    cases hl
    exact ⟨.refl ht, rfl⟩
  | cons u us ih =>
    obtain ⟨st₁, h₁, hl⟩ := option_bind_some hl
    obtain ⟨b, hb, heq⟩ := option_bind_some h₁
    cases heq
    have ht₁ : Tables { st with resolved := st.resolved ++ [(u.site, b)] } h :=
      ⟨ht.flatten, ht.consts, ht.ne_nil⟩
    have hone : Lowers m st { st with resolved := st.resolved ++ [(u.site, b)] } h [(u, h)] := by
      refine ⟨⟨[(u.site, b)], rfl, .cons ⟨?_, rfl⟩ .nil⟩, ht₁, rfl⟩
      rw [← ht.resolve, hb]
    obtain ⟨hrest, hdone⟩ := ih ht₁ hl
    exact ⟨hone.trans hrest, hdone⟩

/-- The names of a `lowkey` before its later initializers, in the tables. -/
theorem lowerInits_spec {m : Module} {st st' : State} {h : History} {ds : List Decl}
    {uss : List (List Use)} (ht : Tables st h) (hl : lowerInits m st ds uss = some st') :
    Lowers m st st' ((ds.map (localEntry .pending)).reverse ++ h) (initPoints h ds uss) ∧
      st'.done = st.done := by
  induction ds generalizing st h uss with
  | nil =>
    cases uss with
    | nil =>
      cases hl
      exact ⟨.refl ht, rfl⟩
    | cons us uss => cases hl
  | cons d ds ih =>
    cases uss with
    | nil => cases hl
    | cons us uss =>
      obtain ⟨st₁, h₁, hl⟩ := option_bind_some hl
      obtain ⟨huses, hdone₁⟩ := lowerUses_spec ht h₁
      have hbind : Lowers m st (st₁.bind d) (localEntry .pending d :: h) (pointsAt h us) :=
        ⟨huses.records, huses.tables.bind .pending (by decide) d,
          (declare_tail _ d).trans huses.tail⟩
      obtain ⟨hrest, hdone⟩ := ih hbind.tables hl
      rw [List.map_cons, List.reverse_cons, List.append_assoc, List.singleton_append]
      exact ⟨hbind.trans hrest, hdone.trans hdone₁⟩

/-- A pending name is in the tables that a live one is in. -/
theorem Tables.opened {st : State} {h : History} {ds : List Decl}
    (ht : Tables st ((ds.map (localEntry .pending)).reverse ++ h)) : Tables st (Scope.openAll h ds) := by
  have hp : ∀ p : Entry → Bool, (∀ d, p (localEntry .pending d) = p (localEntry .live d)) →
      History.table ((ds.map (localEntry .pending)).reverse ++ h) p =
        (Scope.openAll h ds).table p := by
    intro p hp
    rw [Scope.openAll, History.table, History.table, List.filter_append, List.filter_append,
      List.map_append, List.map_append, List.filter_reverse, List.filter_reverse,
      List.map_reverse, List.map_reverse, List.filter_map, List.filter_map, List.map_map,
      List.map_map]
    have hcomp : p ∘ localEntry .pending = p ∘ localEntry .live := funext hp
    rw [hcomp]
    rfl
  refine ⟨?_, ?_, ht.ne_nil⟩
  · exact ht.flatten.trans (hp _ fun _ => rfl)
  · exact ht.consts.trans (hp _ fun _ => rfl)

theorem lowerVar_of_ne {m : Module} {st : State} {targets : List Decl} {inits : List (List Use)}
    (hone : ∀ us, inits = [us] → False) :
    lowerVar m st targets inits = lowerInits m st targets inits := by
  cases inits with
  | nil => rfl
  | cons us rest =>
    cases rest with
    | nil => exact (hone us rfl).elim
    | cons us' rest => rfl

/-- One initializer is lowered before any of the names is bound. -/
theorem lowerVar_one {m : Module} {st st' : State} {h : History} {targets : List Decl}
    {us : List Use} (ht : Tables st h) (hl : lowerVar m st targets [us] = some st') :
    Lowers m st st' (openAll h targets) (pointsAt h us) ∧ st'.done = st.done := by
  rcases targets with _ | ⟨d, _ | ⟨d', ds⟩⟩
  all_goals
    obtain ⟨st₁, h₁, heq⟩ := option_bind_some hl
    cases heq
    obtain ⟨huses, hdone⟩ := lowerUses_spec ht h₁
  · exact ⟨huses, hdone⟩
  · exact ⟨⟨huses.records, huses.tables.bind .live (by decide) d,
      (declare_tail _ d).trans huses.tail⟩, hdone⟩
  · have htail := (declareAll_spec huses.tables.ne_nil (d :: d' :: ds)).2.1
    exact ⟨⟨huses.records, huses.tables.openAll (d :: d' :: ds), htail.trans huses.tail⟩, hdone⟩

theorem lowerVar_spec {m : Module} {st st' : State} {h : History} {targets : List Decl}
    {inits : List (List Use)} (ht : Tables st h)
    (hl : lowerVar m st targets inits = some st') :
    Lowers m st st' (openAll h targets) (varPoints h targets inits) ∧ st'.done = st.done := by
  by_cases hone : ∃ us, inits = [us]
  · obtain ⟨us, rfl⟩ := hone
    exact lowerVar_one ht hl
  · have hne : ∀ us, inits = [us] → False := fun us heq => hone ⟨us, heq⟩
    rw [lowerVar_of_ne hne] at hl
    obtain ⟨hinits, hdone⟩ := lowerInits_spec ht hl
    rw [varPoints_of_ne hne]
    exact ⟨⟨hinits.records, hinits.tables.opened, hinits.tail⟩, hdone⟩

mutual

theorem lowerStmt_spec {m : Module} {st st' : State} {h : History} (s : Stmt)
    (ht : Tables st h) (hdone : st.done = false) (hl : lowerStmt m st s = some st') :
    Lowers m st st' (s.after h) (s.points h) ∧ st'.done = s.ends := by
  cases s with
  | lowkey targets inits =>
    obtain ⟨hv, hd⟩ := lowerVar_spec ht hl
    exact ⟨hv, hd.trans hdone⟩
  | facts d =>
    cases hl
    refine ⟨⟨.refl m st, ⟨ht.flatten, ?_, ht.ne_nil⟩, rfl⟩, hdone⟩
    exact congrArg ((d.name, d.id) :: ·) ht.consts
  | crib d =>
    cases hl
    exact ⟨⟨.refl m st, ht.bind .live (by decide) d, declare_tail _ d⟩, hdone⟩
  | eval uses =>
    obtain ⟨hu, hd⟩ := lowerUses_spec ht hl
    exact ⟨hu, hd.trans hdone⟩
  | bounce uses =>
    obtain ⟨st₁, h₁, heq⟩ := option_bind_some hl
    cases heq
    exact ⟨(lowerUses_spec ht h₁).1.select, rfl⟩
  | bet uses | yeet uses =>
    obtain ⟨st₁, h₁, heq⟩ := option_bind_some hl
    cases heq
    exact ⟨(lowerUses_spec ht h₁).1.terminate, rfl⟩
  | dip | skip =>
    cases hl
    exact ⟨(Lowers.refl ht).terminate, rfl⟩
  | fr chain =>
    obtain ⟨st₁, h₁, heq⟩ := option_bind_some hl
    cases heq
    exact ⟨(lowerChain_spec chain ht h₁).select, rfl⟩
  | vibin cond body =>
    obtain ⟨st₁, h₁, hl⟩ := option_bind_some hl
    obtain ⟨st₂, h₂, heq⟩ := option_bind_some hl
    cases heq
    have hcond := (lowerUses_spec ht h₁).1
    have hbody := lowerBlock_spec body hcond.select.tables.push rfl h₂
    have hs := (body.after_grows h).suffix
    exact ⟨(hcond.trans (hbody.scoped hcond.tables rfl rfl hs)).select, rfl⟩
  | squad var iter body =>
    obtain ⟨st₁, h₁, hl⟩ := option_bind_some hl
    obtain ⟨st₂, h₂, heq⟩ := option_bind_some hl
    cases heq
    have hiter := (lowerUses_spec ht h₁).1
    have hvar := hiter.select.tables.push.bind .live (by decide) var
    have hbody := lowerBlock_spec body hvar.push rfl h₂
    have hinner := hbody.scoped hvar rfl rfl (body.after_grows _).suffix
    have hs := suffix_closeTo (Grows.cons h (localEntry .live var)).suffix
    exact ⟨(hiter.trans (hinner.scoped hiter.tables rfl rfl (hs _))).select, rfl⟩
  | vibe scrutinee arms =>
    obtain ⟨st₁, h₁, hl⟩ := option_bind_some hl
    obtain ⟨st₂, h₂, heq⟩ := option_bind_some hl
    cases heq
    have hscrut := (lowerUses_spec ht h₁).1
    exact ⟨(hscrut.trans (lowerArms_spec arms hscrut.tables h₂)).select, rfl⟩
  | holla binding operands live ghosted =>
    obtain ⟨st₁, h₁, hl⟩ := option_bind_some hl
    obtain ⟨st₂, h₂, hl⟩ := option_bind_some hl
    obtain ⟨st₃, h₃, heq⟩ := option_bind_some hl
    cases heq
    have hops := (lowerUses_spec ht h₁).1
    have hbind := hops.select.tables.push.bind .live (by decide) binding
    have hlive := lowerBlock_spec live hbind.push rfl h₂
    have hinner := hlive.scoped hbind rfl rfl (live.after_grows _).suffix
    have hs := suffix_closeTo (Grows.cons h (localEntry .live binding)).suffix
    have houter := hops.trans (hinner.scoped hops.tables rfl rfl (hs _))
    have hghost := lowerBlock_spec ghosted houter.select.tables.push rfl h₃
    have hclosed := hghost.scoped houter.tables rfl rfl (ghosted.after_grows _).suffix
    exact ⟨(houter.trans hclosed).select, rfl⟩

theorem lowerChain_spec {m : Module} {st st' : State} {h : History} (c : Chain)
    (ht : Tables st h) (hl : lowerChain m st c = some st') :
    Lowers m st st' (c.after h) (c.points h) := by
  cases c with
  | done =>
    cases hl
    exact .refl ht
  | naw body =>
    obtain ⟨st₁, h₁, heq⟩ := option_bind_some hl
    cases heq
    have hbody := lowerBlock_spec body ht.select.push rfl h₁
    exact hbody.scoped ht rfl rfl (body.after_grows h).suffix
  | fr cond body rest =>
    obtain ⟨st₁, h₁, hl⟩ := option_bind_some hl
    obtain ⟨st₂, h₂, hl⟩ := option_bind_some hl
    have hcond := (lowerUses_spec ht h₁).1
    have hbody := lowerBlock_spec body hcond.select.tables.push rfl h₂
    have htake := hcond.trans (hbody.scoped hcond.tables rfl rfl (body.after_grows h).suffix)
    exact htake.select.trans (lowerChain_spec rest htake.select.tables hl)

theorem lowerArms_spec {m : Module} {st st' : State} {h : History} (a : Arms)
    (ht : Tables st h) (hl : lowerArms m st a = some st') :
    Lowers m st st' (a.after h) (a.points h) := by
  cases a with
  | done =>
    cases hl
    exact .refl ht
  | naw body =>
    obtain ⟨st₁, h₁, heq⟩ := option_bind_some hl
    cases heq
    have hbody := lowerBlock_spec body ht.select.push rfl h₁
    exact hbody.scoped ht rfl rfl (body.after_grows h).suffix
  | arm bindings body rest =>
    obtain ⟨st₁, h₁, hl⟩ := option_bind_some hl
    have hopen := ht.select.push.openAll bindings
    have hbody := lowerBlock_spec body hopen.push rfl h₁
    have hinner := hbody.scoped hopen rfl rfl (body.after_grows _).suffix
    have hs := suffix_closeTo (Grows.openAll h bindings).suffix
    have htail := (declareAll_spec (List.cons_ne_nil [] st.scopes) bindings).2.1
    have htake := hinner.scoped ht rfl htail (hs _)
    exact htake.select.trans (lowerArms_spec rest htake.select.tables hl)

theorem lowerBlock_spec {m : Module} {st st' : State} {h : History} (b : Block)
    (ht : Tables st h) (hdone : st.done = false) (hl : lowerBlock m st b = some st') :
    Lowers m st st' (b.after h) (b.points h) := by
  cases b with
  | nil =>
    cases hl
    exact .refl ht
  | cons s rest =>
    rw [lowerBlock, if_neg (by rw [hdone]; exact Bool.false_ne_true)] at hl
    obtain ⟨st₁, h₁, hl⟩ := option_bind_some hl
    obtain ⟨hs, hd⟩ := lowerStmt_spec s ht hdone h₁
    rw [Block.after, Block.points]
    by_cases he : s.ends = true
    · rw [if_pos he, if_pos he, List.append_nil]
      -- What follows is not lowered.
      have hst : st' = st₁ := by
        cases rest with
        | nil => exact (Option.some.inj hl).symm
        | cons s' rest =>
          rw [lowerBlock, if_pos (hd.trans he)] at hl
          exact (Option.some.inj hl).symm
      rw [hst]
      exact hs
    · rw [if_neg he, if_neg he]
      exact hs.trans (lowerBlock_spec rest hs.tables (hd.trans (Bool.eq_false_iff.mpr he)) hl)

end

/-- Lowering resolves every use at its point, in order. -/
theorem lowerFunc_spec {m : Module} {f : Func} {table : List (Nat × Binding)}
    (hl : lowerFunc m f = some table) : List.Forall₂ (Resolves m) f.points table := by
  obtain ⟨st, hb, heq⟩ := option_bind_some hl
  cases heq
  have hempty : Tables ⟨[[]], [], [], false⟩ [] := ⟨rfl, rfl, List.cons_ne_nil _ _⟩
  have hstart : Tables ⟨f.scopes, [], [], false⟩ (openAll [] f.params) :=
    (hempty.openAll f.params).push
  obtain ⟨new, hres, hall⟩ := (lowerBlock_spec f.body hstart rfl hb).records
  rw [hres]
  exact hall

end Lower

end BetLang.Scope
