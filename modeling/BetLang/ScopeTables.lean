import BetLang.ScopeHistory

/-! The scope stacks and the tables as the entries of a history that they hold. -/

namespace BetLang.Scope

/-- What the interpreter's stack holds. -/
def Entry.inScope (e : Entry) : Bool := e.status = .live

/-- What lowering's stack of locals holds. -/
def Entry.lowered (e : Entry) : Bool := !e.isFacts && e.status ≠ .ended

/-- The entries that a table holds, by name. -/
def History.table (h : History) (p : Entry → Bool) : List (String × Nat) :=
  (h.filter p).map fun e => (e.decl.name, e.decl.id)

theorem varPoints_of_ne {h : History} {targets : List Decl} {inits : List (List Use)}
    (hone : ∀ us, inits = [us] → False) :
    varPoints h targets inits = initPoints h targets inits := by
  cases inits with
  | nil => rfl
  | cons us rest =>
    cases rest with
    | nil => exact (hone us rfl).elim
    | cons us' rest => rfl

theorem get_eq_lookup (scopes : Scopes) (name : String) :
    scopes.get name = scopes.flatten.lookup name := by
  induction scopes with
  | nil => rfl
  | cons s rest ih =>
    rw [Scopes.get, List.findSome?_cons, List.flatten_cons, List.lookup_append]
    cases s.lookup name with
    | some id => rfl
    | none => exact ih

theorem declare_flatten {scopes : Scopes} (hne : scopes ≠ []) (d : Decl) :
    (scopes.declare d).flatten = (d.name, d.id) :: scopes.flatten := by
  cases scopes with
  | nil => exact absurd rfl hne
  | cons s rest => rfl

theorem declare_tail (scopes : Scopes) (d : Decl) : (scopes.declare d).tail = scopes.tail := by
  cases scopes with
  | nil => rfl
  | cons s rest => rfl

theorem declare_ne_nil {scopes : Scopes} (hne : scopes ≠ []) (d : Decl) :
    scopes.declare d ≠ [] := by
  cases scopes with
  | nil => exact absurd rfl hne
  | cons s rest => exact List.cons_ne_nil _ _

theorem declareAll_spec {scopes : Scopes} (hne : scopes ≠ []) (ds : List Decl) :
    (scopes.declareAll ds).flatten =
        (ds.map fun d => (d.name, d.id)).reverse ++ scopes.flatten ∧
      (scopes.declareAll ds).tail = scopes.tail ∧ scopes.declareAll ds ≠ [] := by
  induction ds generalizing scopes with
  | nil => exact ⟨rfl, rfl, hne⟩
  | cons d ds ih =>
    obtain ⟨hflat, htail, hne'⟩ := ih (declare_ne_nil hne d)
    rw [Scopes.declareAll, List.foldl_cons]
    refine ⟨?_, htail.trans (declare_tail scopes d), hne'⟩
    rw [← Scopes.declareAll, hflat, declare_flatten hne]
    simp

theorem table_openAll {p : Entry → Bool} (hp : ∀ d, p (localEntry .live d) = true) (h : History)
    (ds : List Decl) :
    (openAll h ds).table p = (ds.map fun d => (d.name, d.id)).reverse ++ h.table p := by
  have hall : ((ds.map (localEntry .live)).reverse).filter p =
      (ds.map (localEntry .live)).reverse := by
    rw [List.filter_eq_self]
    intro e hmem
    obtain ⟨d, _, rfl⟩ := List.mem_map.mp (List.mem_reverse.mp hmem)
    exact hp d
  rw [History.table, openAll, List.filter_append, hall, List.map_append, List.map_reverse,
    List.map_map, History.table]
  rfl

section Tables

variable {p : Entry → Bool} (hp : ∀ e : Entry, e.status = .ended → p e = false)

include hp

theorem table_closeTo (h h' : History) : (closeTo h h').table p = h.table p := by
  have hnil : ((h'.take (h'.length - h.length)).map Entry.ends).filter p = [] := by
    rw [List.filter_eq_nil_iff]
    intro e he
    obtain ⟨e', _, rfl⟩ := List.mem_map.mp he
    rw [hp _ rfl]
    exact Bool.false_ne_true
  rw [History.table, closeTo, List.filter_append, hnil, List.nil_append, History.table]

mutual

/-- Only `lowkey`, `facts` and `crib` leave an entry that has not ended. -/
theorem table_chain (c : Chain) (h : History) : (c.after h).table p = h.table p := by
  cases c with
  | done => rfl
  | naw body => exact table_closeTo hp h _
  | fr cond body rest => exact (table_chain rest _).trans (table_closeTo hp h _)

theorem table_arms (a : Arms) (h : History) : (a.after h).table p = h.table p := by
  cases a with
  | done => rfl
  | naw body => exact table_closeTo hp h _
  | arm bindings body rest => exact (table_arms rest _).trans (table_closeTo hp h _)

end

end Tables

end BetLang.Scope
