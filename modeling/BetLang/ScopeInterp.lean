import BetLang.ScopeTables

/-! Every lookup of an execution is at a point of the text, and returns the last declaration whose
block goes on there. -/

namespace BetLang.Scope

/-- What the interpreter returns behind a history. -/
def returned (m : Module) (h : History) (u : Use) : Binding :=
  Interp.resolve m [h.table Entry.inScope] u

namespace Interp

def Code.points (h : History) : Code → List Point
  | .uses us => pointsAt h us
  | .stmt s => s.points h
  | .rounds var body => body.points (localEntry .live var :: h)
  | .chain c => c.points h
  | .arms a => a.points h
  | .stmts b => b.points h
  | .block b => b.points h

/-- The stack holds the entries in scope. -/
structure Holds (env : Scopes) (h : History) : Prop where
  flatten : env.flatten = h.table Entry.inScope
  ne_nil : env ≠ []

theorem inScope_ended (e : Entry) (he : e.status = .ended) : e.inScope = false := by
  simp [Entry.inScope, he]

theorem Holds.resolve {env : Scopes} {h : History} (he : Holds env h) (m : Module) (u : Use) :
    resolve m env u = returned m h u := by
  rw [returned, Interp.resolve, Interp.resolve, get_eq_lookup, get_eq_lookup, he.flatten,
    List.flatten_singleton]

theorem Holds.push {env : Scopes} {h : History} (he : Holds env h) : Holds ([] :: env) h :=
  ⟨he.flatten, List.cons_ne_nil _ _⟩

theorem Holds.declare {env : Scopes} {h : History} (he : Holds env h) {e : Entry}
    (hs : e.status = .live) : Holds (env.declare e.decl) (e :: h) := by
  refine ⟨?_, declare_ne_nil he.ne_nil _⟩
  rw [declare_flatten he.ne_nil, he.flatten, History.table, History.table,
    List.filter_cons_of_pos (by simp [Entry.inScope, hs]), List.map_cons]

theorem Holds.declareAll {env : Scopes} {h : History} (he : Holds env h) (ds : List Decl) :
    Holds (env.declareAll ds) (openAll h ds) := by
  obtain ⟨hflat, _, hne⟩ := declareAll_spec he.ne_nil ds
  refine ⟨?_, hne⟩
  rw [hflat, he.flatten, table_openAll (fun _ => rfl)]

theorem Holds.same {env : Scopes} {h h' : History} (he : Holds env h)
    (ht : h'.table Entry.inScope = h.table Entry.inScope) : Holds env h' :=
  ⟨he.flatten.trans ht.symm, he.ne_nil⟩

theorem Holds.closeTo {env : Scopes} {h : History} (he : Holds env h) (h' : History) :
    Holds env (closeTo h h') :=
  he.same (table_closeTo inScope_ended h h')

/-- How the stack and the history are left, unless by a failure. -/
def Left (h : History) (env env' : Scopes) (fl : Flow) : Code → Prop
  | .stmt s => env'.tail = env.tail ∧ (fl = .normal → Holds env' (s.after h) ∧ s.ends = false)
  | .stmts _ => env'.tail = env.tail
  | _ => env' = env

/-- The events are lookups at points, and each returns what the history says. -/
def Faithful (m : Module) (ps : List Point) (evs : List Event) : Prop :=
  ∀ ev ∈ evs, ∃ h, (ev.1, h) ∈ ps ∧ ev.2 = returned m h ev.1

theorem Faithful.nil {m : Module} {ps : List Point} : Faithful m ps [] := by
  intro ev hev
  cases hev

theorem Faithful.mono {m : Module} {ps ps' : List Point} {evs : List Event}
    (hf : Faithful m ps evs) (hs : ps ⊆ ps') : Faithful m ps' evs := by
  intro ev hev
  obtain ⟨h, hp, hb⟩ := hf ev hev
  exact ⟨h, hs hp, hb⟩

theorem Faithful.append {m : Module} {ps : List Point} {evs evs' : List Event}
    (hf : Faithful m ps evs) (hf' : Faithful m ps evs') : Faithful m ps (evs ++ evs') := by
  intro ev hev
  rcases List.mem_append.mp hev with hev | hev
  · exact hf ev hev
  · exact hf' ev hev

/-- A statement that leaves the stack as it found it, with nothing new in scope. -/
theorem Left.same {h : History} {env env' : Scopes} {fl : Flow} {s : Stmt} (he : Holds env h)
    (heq : env' = env) (ht : (s.after h).table Entry.inScope = h.table Entry.inScope)
    (hends : s.ends = false) : Left h env env' fl (.stmt s) := by
  subst heq
  exact ⟨rfl, fun _ => ⟨he.same ht, hends⟩⟩

theorem after_normal {leave fl : Flow} (h : leave.after fl = .normal) : leave = .normal := by
  cases fl with
  | normal => exact h
  | _ => cases h

theorem after_error {leave fl : Flow} (h : leave.after fl ≠ .error) : fl ≠ .error := by
  rintro rfl
  exact h rfl

theorem caught_error {fl : Flow} (h : fl.caught ≠ .error) : fl ≠ .error := by
  rintro rfl
  exact h rfl

theorem faithful_uses {m : Module} {env : Scopes} {h : History} (he : Holds env h)
    {vs us : List Use} (hvs : vs.Sublist us) :
    Faithful m (pointsAt h us) (vs.map fun u => (u, resolve m env u)) := by
  intro ev hev
  obtain ⟨u, hu, rfl⟩ := List.mem_map.mp hev
  exact ⟨h, List.mem_map_of_mem (hvs.subset hu), he.resolve m u⟩

theorem pending_table (d : Decl) (h : History) :
    History.table (localEntry .pending d :: h) Entry.inScope = h.table Entry.inScope := rfl

theorem mem_initPoints {ds : List Decl} {uss : List (List Use)} (hlen : ds.length = uss.length)
    (h : History) {u : Use} (hu : u ∈ uss.flatten) :
    ∃ h', (u, h') ∈ initPoints h ds uss ∧ h'.table Entry.inScope = h.table Entry.inScope := by
  induction uss generalizing ds h with
  | nil => cases hu
  | cons us uss ih =>
    cases ds with
    | nil => cases hlen
    | cons d ds =>
      rw [List.flatten_cons] at hu
      rcases List.mem_append.mp hu with hu | hu
      · exact ⟨h, List.mem_append_left _ (List.mem_map_of_mem hu), rfl⟩
      · obtain ⟨h', hmem, ht⟩ := ih (Nat.succ.inj hlen) (localEntry .pending d :: h) hu
        exact ⟨h', List.mem_append_right _ hmem, ht.trans (pending_table d h)⟩

/-- An initializer is looked up before any name of its statement is declared. -/
theorem mem_varPoints {targets : List Decl} {inits : List (List Use)}
    (hlen : targets.length = inits.length ∨ inits.length = 1) (h : History) {u : Use}
    (hu : u ∈ inits.flatten) :
    ∃ h', (u, h') ∈ varPoints h targets inits ∧
      h'.table Entry.inScope = h.table Entry.inScope := by
  unfold varPoints
  split
  · rw [List.flatten_singleton] at hu
    exact ⟨h, List.mem_map_of_mem hu, rfl⟩
  · rename_i hone
    refine mem_initPoints (hlen.resolve_right fun hl => ?_) h hu
    obtain ⟨us, rfl⟩ := List.length_eq_one_iff.mp hl
    exact hone us rfl

/-- What one execution does: its lookups are at points, and the stack is left as the text says. -/
theorem exec_sound {m : Module} {env env' : Scopes} {code : Code} {evs : List Event} {fl : Flow}
    (hx : Exec m env code evs env' fl) (h : History) (he : Holds env h) :
    Faithful m (code.points h) evs ∧ (fl ≠ .error → Left h env env' fl code) := by
  induction hx generalizing h with
  | uses hvs hfl => exact ⟨faithful_uses he hvs, fun _ => rfl⟩
  | @lowkey env evs fl targets inits hlen hi ih =>
    obtain ⟨hf, hl⟩ := ih h he
    refine ⟨fun ev hev => ?_, fun hne => ⟨?_, fun _ => ⟨he.declareAll targets, rfl⟩⟩⟩
    · obtain ⟨h₁, hp, hb⟩ := hf ev hev
      obtain ⟨u, hu, heq⟩ := List.mem_map.mp hp
      cases heq
      obtain ⟨h', hmem, ht⟩ := mem_varPoints hlen h hu
      exact ⟨h', hmem, by rw [hb, returned, returned, ht]⟩
    · exact (declareAll_spec he.ne_nil targets).2.1
  | lowkeyFail => exact ⟨.nil, fun hne => absurd rfl hne⟩
  | facts =>
    refine ⟨.nil, fun _ => ⟨declare_tail _ _, fun _ => ⟨?_, rfl⟩⟩⟩
    exact he.declare (e := factsEntry _) rfl
  | crib =>
    refine ⟨.nil, fun _ => ⟨declare_tail _ _, fun _ => ⟨?_, rfl⟩⟩⟩
    exact he.declare (e := localEntry .live _) rfl
  | eval hu ih =>
    obtain ⟨hf, hl⟩ := ih h he
    exact ⟨hf, fun hne => .same he (hl hne) rfl rfl⟩
  | bounce hu hleave ih =>
    obtain ⟨hf, hl⟩ := ih h he
    exact ⟨hf, fun hne => .same he (hl (after_error hne)) rfl rfl⟩
  | bet hu ih =>
    obtain ⟨hf, hl⟩ := ih h he
    refine ⟨hf, fun hne => ⟨congrArg List.tail (hl (after_error hne)), fun hn => ?_⟩⟩
    cases after_normal hn
  | yeet hu ih =>
    obtain ⟨hf, hl⟩ := ih h he
    refine ⟨hf, fun hne => ⟨congrArg List.tail (hl (after_error hne)), fun hn => ?_⟩⟩
    cases after_normal hn
  | dip => exact ⟨.nil, fun _ => ⟨rfl, fun hn => by cases hn⟩⟩
  | skip => exact ⟨.nil, fun _ => ⟨rfl, fun hn => by cases hn⟩⟩
  | @fr env c evs env' fl hc ih =>
    obtain ⟨hf, hl⟩ := ih h he
    exact ⟨hf, fun hne => .same he (hl hne) (table_chain inScope_ended c h) rfl⟩
  | vibinEnd hc ih =>
    obtain ⟨hf, hl⟩ := ih h he
    refine ⟨hf.mono (List.subset_append_left _ _), fun hne => ?_⟩
    exact .same he (hl hne) (table_closeTo inScope_ended h _) rfl
  | vibinLeave hc hb hfl ihc ihb =>
    obtain ⟨hfc, _⟩ := ihc h he
    obtain ⟨hfb, hlb⟩ := ihb h he
    refine ⟨(hfc.mono (List.subset_append_left _ _)).append
      (hfb.mono (List.subset_append_right _ _)), fun hne => ?_⟩
    exact .same he (hlb (caught_error hne)) (table_closeTo inScope_ended h _) rfl
  | @vibinAgain env cond body evs evs' evs'' env' env'' fl fl' hc hb hfl hr ihc ihb ihr =>
    obtain ⟨hfc, _⟩ := ihc h he
    obtain ⟨hfb, hlb⟩ := ihb h he
    have heq : env' = env := hlb (by rcases hfl with rfl | rfl <;> exact nofun)
    subst heq
    obtain ⟨hfr, hlr⟩ := ihr h he
    exact ⟨((hfc.mono (List.subset_append_left _ _)).append
      (hfb.mono (List.subset_append_right _ _))).append hfr, hlr⟩
  | squadFail hi ih =>
    obtain ⟨hf, _⟩ := ih h he
    exact ⟨hf.mono (List.subset_append_left _ _), fun hne => absurd rfl hne⟩
  | squad hi hr ihi ihr =>
    obtain ⟨hfi, _⟩ := ihi h he
    obtain ⟨hfr, hlr⟩ := ihr h he
    refine ⟨(hfi.mono (List.subset_append_left _ _)).append
      (hfr.mono (List.subset_append_right _ _)), fun hne => ?_⟩
    exact .same he (hlr hne) (table_closeTo inScope_ended h _) rfl
  | roundsEnd => exact ⟨.nil, fun _ => rfl⟩
  | @roundsLeave env var body evs env' fl hb hfl ihb =>
    obtain ⟨hfb, hlb⟩ := ihb _ (he.push.declare (e := localEntry .live var) rfl)
    exact ⟨hfb, fun hne => congrArg List.tail (hlb (caught_error hne))⟩
  | @roundsAgain env var body evs evs' env' env'' fl fl' hb hfl hr ihb ihr =>
    obtain ⟨hfb, hlb⟩ := ihb _ (he.push.declare (e := localEntry .live var) rfl)
    have heq : env'.tail = env :=
      congrArg List.tail (hlb (by rcases hfl with rfl | rfl <;> exact nofun))
    rw [heq] at ihr
    obtain ⟨hfr, hlr⟩ := ihr h he
    exact ⟨hfb.append hfr, hlr⟩
  | vibeFail hs ih =>
    obtain ⟨hf, _⟩ := ih h he
    exact ⟨hf.mono (List.subset_append_left _ _), fun hne => absurd rfl hne⟩
  | @vibe env us arms evs evs' env' fl hs ha ihs iha =>
    obtain ⟨hfs, _⟩ := ihs h he
    obtain ⟨hfa, hla⟩ := iha h he
    refine ⟨(hfs.mono (List.subset_append_left _ _)).append
      (hfa.mono (List.subset_append_right _ _)), fun hne => ?_⟩
    exact .same he (hla hne) (table_arms inScope_ended arms h) rfl
  | hollaFail ho ih =>
    obtain ⟨hf, _⟩ := ih h he
    refine ⟨hf.mono ?_, fun hne => absurd rfl hne⟩
    exact List.Subset.trans (List.subset_append_left _ _) (List.subset_append_left _ _)
  | @hollaLive env binding us live ghosted evs evs' env' fl ho hb iho ihb =>
    obtain ⟨hfo, _⟩ := iho h he
    obtain ⟨hfb, hlb⟩ := ihb _ (he.push.declare (e := localEntry .live binding) rfl)
    refine ⟨Faithful.append (hfo.mono ?_) (hfb.mono ?_), fun hne => ?_⟩
    · exact List.Subset.trans (List.subset_append_left _ _) (List.subset_append_left _ _)
    · exact List.Subset.trans (List.subset_append_right _ _) (List.subset_append_left _ _)
    · refine .same he (congrArg List.tail (hlb hne)) ?_ rfl
      exact (table_closeTo inScope_ended _ _).trans (table_closeTo inScope_ended h _)
  | hollaGhosted ho hb iho ihb =>
    obtain ⟨hfo, _⟩ := iho h he
    obtain ⟨hfb, hlb⟩ := ihb _ (he.closeTo _)
    refine ⟨Faithful.append (hfo.mono ?_) (hfb.mono (List.subset_append_right _ _)), fun hne => ?_⟩
    · exact List.Subset.trans (List.subset_append_left _ _) (List.subset_append_left _ _)
    · refine .same he (hlb hne) ?_ rfl
      exact (table_closeTo inScope_ended _ _).trans (table_closeTo inScope_ended h _)
  | chainEnd => exact ⟨.nil, fun _ => rfl⟩
  | chainNaw hb ihb => exact ihb h he
  | chainFail hc ih =>
    obtain ⟨hf, _⟩ := ih h he
    refine ⟨hf.mono ?_, fun hne => absurd rfl hne⟩
    exact List.Subset.trans (List.subset_append_left _ _) (List.subset_append_left _ _)
  | chainTake hc hb ihc ihb =>
    obtain ⟨hfc, _⟩ := ihc h he
    obtain ⟨hfb, hlb⟩ := ihb h he
    refine ⟨Faithful.append (hfc.mono ?_) (hfb.mono ?_), hlb⟩
    · exact List.Subset.trans (List.subset_append_left _ _) (List.subset_append_left _ _)
    · exact List.Subset.trans (List.subset_append_right _ _) (List.subset_append_left _ _)
  | chainSkip hc hr ihc ihr =>
    obtain ⟨hfc, _⟩ := ihc h he
    obtain ⟨hfr, hlr⟩ := ihr _ (he.closeTo _)
    refine ⟨Faithful.append (hfc.mono ?_) (hfr.mono (List.subset_append_right _ _)), hlr⟩
    exact List.Subset.trans (List.subset_append_left _ _) (List.subset_append_left _ _)
  | armsEnd => exact ⟨.nil, fun hne => absurd rfl hne⟩
  | armsNaw hb ihb => exact ihb h he
  | @armsTake env bindings body rest evs env' fl hb ihb =>
    obtain ⟨hfb, hlb⟩ := ihb _ (he.push.declareAll bindings)
    refine ⟨hfb.mono (List.subset_append_left _ _), fun hne => ?_⟩
    have htail := congrArg List.tail (hlb hne)
    exact htail.trans (declareAll_spec (List.cons_ne_nil _ _) bindings).2.1
  | armsSkip hr ihr =>
    obtain ⟨hfr, hlr⟩ := ihr _ (he.closeTo _)
    exact ⟨hfr.mono (List.subset_append_right _ _), hlr⟩
  | stmtsEnd => exact ⟨.nil, fun _ => rfl⟩
  | stmtsLeave hs hfl ihs =>
    obtain ⟨hfs, hls⟩ := ihs h he
    exact ⟨hfs.mono (List.subset_append_left _ _), fun hne => (hls hne).1⟩
  | @stmts env s rest evs evs' env' env'' fl hs hr ihs ihr =>
    obtain ⟨hfs, hls⟩ := ihs h he
    obtain ⟨htail, hafter⟩ := hls nofun
    obtain ⟨hholds, hends⟩ := hafter rfl
    obtain ⟨hfr, hlr⟩ := ihr _ hholds
    have hpoints : (Code.stmts (.cons s rest)).points h = s.points h ++ rest.points (s.after h) := by
      rw [Code.points, Block.points, if_neg (by simp [hends])]
    rw [hpoints]
    refine ⟨(hfs.mono (List.subset_append_left _ _)).append
      (hfr.mono (List.subset_append_right _ _)), fun hne => ?_⟩
    exact Eq.trans (hlr hne) htail
  | block hb ihb =>
    obtain ⟨hfb, hlb⟩ := ihb h he.push
    exact ⟨hfb, fun hne => hlb hne⟩

end Interp

end BetLang.Scope
