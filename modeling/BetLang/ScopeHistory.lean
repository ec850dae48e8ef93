import BetLang.Scope

/-! The declarations of a function before each use of a name, in the order of the text. -/

namespace BetLang.Scope

inductive Status where
  /-- Its block goes on at the use. -/
  | live
  /-- Its own statement goes on: an earlier name of the same `lowkey`. -/
  | pending
  /-- Its block has ended. -/
  | ended
  deriving DecidableEq, Repr

structure Entry where
  decl : Decl
  isFacts : Bool
  status : Status
  deriving DecidableEq, Repr

/-- The last declaration first. -/
abbrev History := List Entry

def localEntry (status : Status) (d : Decl) : Entry := ⟨d, false, status⟩

def factsEntry (d : Decl) : Entry := ⟨d, true, .live⟩

def Entry.ends (e : Entry) : Entry := { e with status := .ended }

/-- The declarations since `h` are those of a block that has ended. -/
def closeTo (h h' : History) : History :=
  (h'.take (h'.length - h.length)).map Entry.ends ++ h

def openAll (h : History) (ds : List Decl) : History :=
  (ds.map (localEntry .live)).reverse ++ h

/-- Nothing of the block is executed after the statement. -/
def Stmt.ends : Stmt → Bool
  | .bet _ | .yeet _ | .dip | .skip => true
  | _ => false

abbrev Point := Use × History

def pointsAt (h : History) (us : List Use) : List Point := us.map fun u => (u, h)

/-- The initializers of a `lowkey`, each behind the names before it. -/
def initPoints (h : History) : List Decl → List (List Use) → List Point
  | d :: ds, us :: uss => pointsAt h us ++ initPoints (localEntry .pending d :: h) ds uss
  | _, _ => []

def varPoints (h : History) (targets : List Decl) : List (List Use) → List Point
  | [us] => pointsAt h us
  | inits => initPoints h targets inits

mutual

def Stmt.after (h : History) : Stmt → History
  | .lowkey targets _ => openAll h targets
  | .facts d => factsEntry d :: h
  | .crib d => localEntry .live d :: h
  | .eval _ | .bounce _ | .bet _ | .yeet _ | .dip | .skip => h
  | .fr chain => chain.after h
  | .vibin _ body => closeTo h (body.after h)
  | .squad var _ body =>
    closeTo h (closeTo (localEntry .live var :: h) (body.after (localEntry .live var :: h)))
  | .vibe _ arms => arms.after h
  | .holla binding _ live ghosted =>
    let h' := closeTo h
      (closeTo (localEntry .live binding :: h) (live.after (localEntry .live binding :: h)))
    closeTo h' (ghosted.after h')

def Chain.after (h : History) : Chain → History
  | .done => h
  | .naw body => closeTo h (body.after h)
  | .fr _ body rest => rest.after (closeTo h (body.after h))

def Arms.after (h : History) : Arms → History
  | .done => h
  | .naw body => closeTo h (body.after h)
  | .arm bindings body rest =>
    rest.after (closeTo h (closeTo (openAll h bindings) (body.after (openAll h bindings))))

/-- Before the end of the block. -/
def Block.after (h : History) : Block → History
  | .nil => h
  | .cons s rest => if s.ends then s.after h else rest.after (s.after h)

end

mutual

def Stmt.points (h : History) : Stmt → List Point
  | .lowkey targets inits => varPoints h targets inits
  | .facts _ | .crib _ | .dip | .skip => []
  | .eval us | .bounce us | .bet us | .yeet us => pointsAt h us
  | .fr chain => chain.points h
  | .vibin cond body => pointsAt h cond ++ body.points h
  | .squad var iter body => pointsAt h iter ++ body.points (localEntry .live var :: h)
  | .vibe scrutinee arms => pointsAt h scrutinee ++ arms.points h
  | .holla binding operands live ghosted =>
    let h' := closeTo h
      (closeTo (localEntry .live binding :: h) (live.after (localEntry .live binding :: h)))
    pointsAt h operands ++ live.points (localEntry .live binding :: h) ++ ghosted.points h'

def Chain.points (h : History) : Chain → List Point
  | .done => []
  | .naw body => body.points h
  | .fr cond body rest =>
    pointsAt h cond ++ body.points h ++ rest.points (closeTo h (body.after h))

def Arms.points (h : History) : Arms → List Point
  | .done => []
  | .naw body => body.points h
  | .arm bindings body rest =>
    body.points (openAll h bindings) ++
      rest.points (closeTo h (closeTo (openAll h bindings) (body.after (openAll h bindings))))

def Block.points (h : History) : Block → List Point
  | .nil => []
  | .cons s rest => s.points h ++ if s.ends then [] else rest.points (s.after h)

end

/-- Every use that is not behind the end of its block, with the declarations before it. -/
def Func.points (f : Func) : List Point :=
  f.body.points (openAll [] f.params)

mutual

/-- The declarations of a statement in the order of the text. -/
def Stmt.decls : Stmt → List Nat
  | .lowkey targets _ => targets.map (·.id)
  | .facts d | .crib d => [d.id]
  | .eval _ | .bounce _ | .bet _ | .yeet _ | .dip | .skip => []
  | .fr chain => chain.decls
  | .vibin _ body => body.decls
  | .squad var _ body => var.id :: body.decls
  | .vibe _ arms => arms.decls
  | .holla binding _ live ghosted => binding.id :: live.decls ++ ghosted.decls

def Chain.decls : Chain → List Nat
  | .done => []
  | .naw body => body.decls
  | .fr _ body rest => body.decls ++ rest.decls

def Arms.decls : Arms → List Nat
  | .done => []
  | .naw body => body.decls
  | .arm bindings body rest => bindings.map (·.id) ++ body.decls ++ rest.decls

def Block.decls : Block → List Nat
  | .nil => []
  | .cons s rest => s.decls ++ rest.decls

end

/-- No two declarations are one, and no two uses are at one place. -/
structure Func.WellFormed (f : Func) : Prop where
  decls : (f.params.map (·.id) ++ f.body.decls).Nodup
  sites : (f.points.map (·.1.site)).Nodup

section Ids

def History.ids (h : History) : List Nat := h.reverse.map (·.decl.id)

theorem take_append_sub {α : Type} (new h : List α) :
    (new ++ h).take ((new ++ h).length - h.length) = new := by
  rw [List.length_append, Nat.add_sub_cancel, List.take_left]

theorem closeTo_append (new h : History) : closeTo h (new ++ h) = new.map Entry.ends ++ h := by
  rw [closeTo, take_append_sub]

theorem ids_append (new h : History) : (new ++ h).ids = h.ids ++ new.ids := by
  simp [History.ids]

theorem ids_ends (new : History) : History.ids (new.map Entry.ends) = new.ids := by
  simp [History.ids, Entry.ends]

theorem ids_openAll (h : History) (ds : List Decl) :
    (openAll h ds).ids = h.ids ++ ds.map (·.id) := by
  simp [History.ids, openAll, localEntry]

theorem ids_cons (e : Entry) (h : History) : History.ids (e :: h) = h.ids ++ [e.decl.id] := by
  simp [History.ids]

/-- Later declarations: on top of the earlier ones, out of a list of the text. -/
structure Grows (h : History) (ds : List Nat) (h' : History) : Prop where
  suffix : h <:+ h'
  ids : h'.ids.Sublist (h.ids ++ ds)

theorem Grows.refl (h : History) : Grows h [] h :=
  ⟨List.suffix_refl h, by rw [List.append_nil]⟩

theorem Grows.mono {h h' : History} {ds ds' : List Nat} (hg : Grows h ds h')
    (hs : ds.Sublist ds') : Grows h ds' h' :=
  ⟨hg.suffix, hg.ids.trans ((List.append_sublist_append_left h.ids).mpr hs)⟩

theorem Grows.trans {h h' h'' : History} {ds ds' : List Nat} (hg : Grows h ds h')
    (hg' : Grows h' ds' h'') : Grows h (ds ++ ds') h'' := by
  refine ⟨hg.suffix.trans hg'.suffix, hg'.ids.trans ?_⟩
  rw [← List.append_assoc]
  exact (List.append_sublist_append_right ds').mpr hg.ids

theorem Grows.openAll (h : History) (ds : List Decl) :
    Grows h (ds.map (·.id)) (openAll h ds) :=
  ⟨List.suffix_append _ _, by rw [ids_openAll]⟩

theorem Grows.cons (h : History) (e : Entry) : Grows h [e.decl.id] (e :: h) :=
  ⟨List.suffix_cons _ _, by rw [ids_cons]⟩

theorem ids_closeTo {h h' : History} (hs : h <:+ h') : (closeTo h h').ids = h'.ids := by
  obtain ⟨new, rfl⟩ := hs
  rw [closeTo_append, ids_append, ids_append, ids_ends]

theorem Grows.closeTo {h h' : History} {ds : List Nat} (hg : Grows h ds h') :
    Grows h ds (closeTo h h') :=
  ⟨List.suffix_append _ _, by rw [ids_closeTo hg.suffix]; exact hg.ids⟩

/-- A block behind some declarations of its own. -/
theorem Grows.scoped {h h₁ h₂ : History} {ds ds' : List Nat} (hg : Grows h ds h₁)
    (hg' : Grows h₁ ds' h₂) : Grows h (ds ++ ds') (Scope.closeTo h (Scope.closeTo h₁ h₂)) :=
  (hg.trans hg'.closeTo).closeTo

mutual

theorem Stmt.after_grows (s : Stmt) (h : History) : Grows h s.decls (s.after h) := by
  cases s with
  | lowkey targets inits => exact .openAll h targets
  | facts d => exact .cons h (factsEntry d)
  | crib d => exact .cons h (localEntry .live d)
  | eval us | bounce us | bet us | yeet us => exact .refl h
  | dip | skip => exact .refl h
  | fr chain => exact chain.after_grows h
  | vibin cond body => exact (body.after_grows h).closeTo
  | squad var iter body => exact (Grows.cons h (localEntry .live var)).scoped (body.after_grows _)
  | vibe scrutinee arms => exact arms.after_grows h
  | holla binding operands live ghosted =>
    have hlive := (Grows.cons h (localEntry .live binding)).scoped (live.after_grows _)
    exact hlive.trans (ghosted.after_grows _).closeTo

theorem Chain.after_grows (c : Chain) (h : History) : Grows h c.decls (c.after h) := by
  cases c with
  | done => exact .refl h
  | naw body => exact (body.after_grows h).closeTo
  | fr cond body rest => exact (body.after_grows h).closeTo.trans (rest.after_grows _)

theorem Arms.after_grows (a : Arms) (h : History) : Grows h a.decls (a.after h) := by
  cases a with
  | done => exact .refl h
  | naw body => exact (body.after_grows h).closeTo
  | arm bindings body rest =>
    exact ((Grows.openAll h bindings).scoped (body.after_grows _)).trans (rest.after_grows _)

theorem Block.after_grows (b : Block) (h : History) : Grows h b.decls (b.after h) := by
  cases b with
  | nil => exact .refl h
  | cons s rest =>
    rw [Block.after]
    by_cases he : s.ends = true
    · rw [if_pos he]
      exact (s.after_grows h).mono (List.sublist_append_left _ _)
    · rw [if_neg he]
      exact (s.after_grows h).trans (rest.after_grows _)

end

/-- Every point has only declarations of the text before it. -/
def GrowsTo (h : History) (ds : List Nat) (ps : List Point) : Prop :=
  ∀ p ∈ ps, p.2.ids.Sublist (h.ids ++ ds)

theorem GrowsTo.nil {h : History} {ds : List Nat} : GrowsTo h ds [] := by
  intro p hp
  cases hp

theorem growsTo_at (h : History) (ds : List Nat) (us : List Use) :
    GrowsTo h ds (pointsAt h us) := by
  intro p hp
  obtain ⟨u, _, rfl⟩ := List.mem_map.mp hp
  exact List.sublist_append_left _ _

theorem GrowsTo.append {h : History} {ds : List Nat} {ps ps' : List Point}
    (hp : GrowsTo h ds ps) (hp' : GrowsTo h ds ps') : GrowsTo h ds (ps ++ ps') := by
  intro p hmem
  rcases List.mem_append.mp hmem with hmem | hmem
  · exact hp p hmem
  · exact hp' p hmem

theorem GrowsTo.mono {h : History} {ds ds' : List Nat} {ps : List Point}
    (hp : GrowsTo h ds ps) (hs : ds.Sublist ds') : GrowsTo h ds' ps :=
  fun p hmem => (hp p hmem).trans ((List.append_sublist_append_left h.ids).mpr hs)

/-- Points behind later declarations. -/
theorem GrowsTo.behind {h h' : History} {ds ds' : List Nat} {ps : List Point}
    (hp : GrowsTo h' ds' ps) (hg : Grows h ds h') : GrowsTo h (ds ++ ds') ps := by
  intro p hmem
  refine (hp p hmem).trans ?_
  rw [← List.append_assoc]
  exact (List.append_sublist_append_right ds').mpr hg.ids

theorem growsTo_inits (h : History) (ds : List Decl) (uss : List (List Use)) :
    GrowsTo h (ds.map (·.id)) (initPoints h ds uss) := by
  induction ds generalizing h uss with
  | nil => exact .nil
  | cons d ds ih =>
    cases uss with
    | nil => exact .nil
    | cons us uss =>
      exact (growsTo_at h _ us).append ((ih _ uss).behind (.cons h (localEntry .pending d)))

mutual

theorem Stmt.points_grow (s : Stmt) (h : History) : GrowsTo h s.decls (s.points h) := by
  cases s with
  | lowkey targets inits =>
    rw [Stmt.points]
    unfold varPoints
    split
    · exact growsTo_at h _ _
    · exact growsTo_inits h targets _
  | facts d | crib d => exact .nil
  | dip | skip => exact .nil
  | eval us | bounce us | bet us | yeet us => exact growsTo_at h _ us
  | fr chain => exact chain.points_grow h
  | vibin cond body => exact (growsTo_at h _ cond).append (body.points_grow h)
  | squad var iter body =>
    exact (growsTo_at h _ iter).append
      ((body.points_grow _).behind (.cons h (localEntry .live var)))
  | vibe scrutinee arms => exact (growsTo_at h _ scrutinee).append (arms.points_grow h)
  | holla binding operands live ghosted =>
    have hlive := (Grows.cons h (localEntry .live binding)).scoped (live.after_grows _)
    refine ((growsTo_at h _ operands).append ?_).append ?_
    · exact ((live.points_grow _).behind (.cons h (localEntry .live binding))).mono
        (List.sublist_append_left _ _)
    · exact (ghosted.points_grow _).behind hlive

theorem Chain.points_grow (c : Chain) (h : History) : GrowsTo h c.decls (c.points h) := by
  cases c with
  | done => exact .nil
  | naw body => exact body.points_grow h
  | fr cond body rest =>
    refine ((growsTo_at h _ cond).append ?_).append ?_
    · exact (body.points_grow h).mono (List.sublist_append_left _ _)
    · exact (rest.points_grow _).behind (body.after_grows h).closeTo

theorem Arms.points_grow (a : Arms) (h : History) : GrowsTo h a.decls (a.points h) := by
  cases a with
  | done => exact .nil
  | naw body => exact body.points_grow h
  | arm bindings body rest =>
    have hbody := (Grows.openAll h bindings).scoped (body.after_grows _)
    refine GrowsTo.append ?_ ((rest.points_grow _).behind hbody)
    exact ((body.points_grow _).behind (.openAll h bindings)).mono (List.sublist_append_left _ _)

theorem Block.points_grow (b : Block) (h : History) : GrowsTo h b.decls (b.points h) := by
  cases b with
  | nil => exact .nil
  | cons s rest =>
    rw [Block.points]
    refine ((s.points_grow h).mono (List.sublist_append_left _ _)).append ?_
    by_cases he : s.ends = true
    · rw [if_pos he]
      exact .nil
    · rw [if_neg he]
      exact (rest.points_grow _).behind (s.after_grows h)

end

/-- In a well-formed function the declarations before a use are distinct. -/
theorem Func.WellFormed.nodup {f : Func} (hf : f.WellFormed) {p : Point} (hp : p ∈ f.points) :
    p.2.ids.Nodup := by
  have hsub := f.body.points_grow (Scope.openAll [] f.params) p hp
  rw [ids_openAll] at hsub
  exact hf.decls.sublist hsub

end Ids

end BetLang.Scope
