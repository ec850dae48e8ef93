import BetLang.Loader
import BetLang.Sequencing
import Mathlib.Data.List.Perm.Subperm

/-! What a load of the import graph gives: each reachable file once, after the files that it
imports; and when it fails. -/

namespace BetLang.Loading

open PostOrder

/-- The path that a `pull` names, from the directory of its file. -/
def importPath (dir : Path) (p : Pull) : Path := normalize (join dir (components (p.module_ ++ ".bet")))

def pullName (p : Pull) : String := p.alias_.getD (stemOf (components p.module_))

/-- The pulls of files, in order. -/
def filePulls : List Item → List Pull
  | [] => []
  | .other :: items => filePulls items
  | .pull p :: items => if isBuiltinModule p.module_ then filePulls items else p :: filePulls items

def Host.program (host : Host) (path : Path) : Option Program :=
  match host.read path with
  | .error _ => none
  | .ok source => (host.parse source).toOption

/-- The import graph on normalized paths. -/
def Host.imports (host : Host) (path : Path) : List Path :=
  match host.program path with
  | none => []
  | some program => (filePulls program.items).map (importPath (parent path))

/-- Every import passes the loader's checks. -/
def Host.PullsOk (host : Host) (roots : Roots) (dir : Path) : List String → List Item → Prop
  | _, [] => True
  | names, .other :: items => host.PullsOk roots dir names items
  | names, .pull p :: items =>
    if isBuiltinModule p.module_ then host.PullsOk roots dir names items
    else ∃ target, host.resolvePull roots dir names p = .ok target ∧
      host.PullsOk roots dir (names ++ [target.name]) items

/-- The file exists and parses, and its imports pass the checks. -/
def Host.Admissible (host : Host) (roots : Roots) (path : Path) : Prop :=
  ∃ program, host.program path = some program ∧
    host.PullsOk roots (parent path) [] program.items

section Checks

variable {host : Host} {roots : Roots} {dir : Path} {names : List String} {p : Pull} {target : Target}

theorem resolvePull_ok (h : host.resolvePull roots dir names p = .ok target) :
    target.name = pullName p ∧ target.path = importPath dir p := by
  unfold Host.resolvePull at h
  dsimp only at h
  split at h
  · cases h
  · split at h
    · cases h
    · split at h
      · cases h
      · split at h
        · cases h
          exact ⟨rfl, rfl⟩
        · cases h

theorem bind_error {ε α β : Type} {x : Except ε α} {f : α → Except ε β} {e : ε}
    (h : x.bind f = .error e) : x = .error e ∨ ∃ a, x = .ok a ∧ f a = .error e := by
  cases x with
  | error e' =>
    cases h
    exact .inl rfl
  | ok a => exact .inr ⟨a, rfl, h⟩

end Checks

section Stack

variable {host : Host} {roots : Roots}

/-- A load closes what it opens. -/
def KeepsStack (load : GraphBuilder → Path → String → Except Failure (Nat × GraphBuilder)) : Prop :=
  ∀ b path display index b', load b path display = .ok (index, b') → b'.stack = b.stack

theorem importItems_stack {load : GraphBuilder → Path → String → Except Failure (Nat × GraphBuilder)}
    (hload : KeepsStack load) {dir : Path} {items : List Item} {imports imports' : List Import}
    {b b' : GraphBuilder} (h : host.importItems roots load dir items imports b = .ok (imports', b')) :
    b'.stack = b.stack := by
  induction items generalizing imports b with
  | nil =>
    cases h
    rfl
  | cons item items ih =>
    cases item with
    | other => exact ih h
    | pull p =>
      unfold Host.importItems at h
      split at h
      · exact ih h
      · split at h
        · cases h
        · obtain ⟨⟨index, b₁⟩, hok, hrest⟩ := except_bind_ok h
          rw [ih hrest, hload _ _ _ _ _ hok]

theorem loadFile_stack {fuel : Nat} {isRoot : Bool} :
    KeepsStack fun b path display => host.loadFile roots fuel b path display isRoot := by
  induction fuel generalizing isRoot with
  | zero => exact fun _ _ _ _ _ h => nomatch h
  | succ fuel ih =>
    intro b path display index b' h
    dsimp only at h
    unfold Host.loadFile at h
    split at h
    · cases h
      rfl
    · split at h
      · cases h
      · split at h
        · cases h
        · split at h
          · cases h
          · obtain ⟨⟨imports, b₁⟩, hok, hfinish⟩ := except_bind_ok h
            cases hfinish
            show b₁.stack.dropLast = b.stack
            rw [importItems_stack ih hok]
            exact List.dropLast_concat

end Stack

section Success

variable {host : Host} {roots : Roots} {done : List Path}

/-- The `i`-th path is the file that the import means. -/
def Names (done : List Path) (dir : Path) (imp : Import) (p : Pull) : Prop :=
  imp.name = pullName p ∧ done[imp.target]? = some (importPath dir p)

/-- The module is what the file at `path` says. -/
structure ModuleOf (host : Host) (done : List Path) (m : LoadedModule) (path : Path) : Prop where
  stem : m.stem = stemOf path
  program : host.program path = some m.program
  imports : List.Forall₂ (Names done (parent path)) m.imports (filePulls m.program.items)

/-- The builder has loaded the files of `done`, none of them the root. -/
structure Tracks (host : Host) (b : GraphBuilder) (done : List Path) : Prop where
  length : b.modules.length = done.length
  loaded : ∀ (path : Path) (i : Nat), b.loaded.lookup path = some i → done[i]? = some path
  missing : ∀ path : Path, b.loaded.lookup path = none → path ∉ done
  modules : ∀ (i : Nat) m path, b.modules[i]? = some m → done[i]? = some path →
    ModuleOf host done m path ∧ m.isRoot = false

def GraphBuilder.open_ (b : GraphBuilder) : List Path := (b.stack.map (·.1)).reverse

theorem Names.mono {dir : Path} {imp : Import} {p : Pull} {done' : List Path}
    (h : ∀ (i : Nat) path, done[i]? = some path → done'[i]? = some path) (hn : Names done dir imp p) :
    Names done' dir imp p := ⟨hn.1, h _ _ hn.2⟩

theorem ModuleOf.mono {m : LoadedModule} {path : Path} {done' : List Path}
    (h : ∀ (i : Nat) path, done[i]? = some path → done'[i]? = some path) (hm : ModuleOf host done m path) :
    ModuleOf host done' m path :=
  ⟨hm.stem, hm.program, hm.imports.imp fun _ _ hn => hn.mono h⟩

/-- A load extends the search by its file, and gives the file's index. -/
def Searches (host : Host)
    (load : GraphBuilder → Path → String → Except Failure (Nat × GraphBuilder)) : Prop :=
  ∀ b path display index b' done, Tracks host b done → load b path display = .ok (index, b') →
    ∃ done', Visit host.imports b.open_ [path] done done' ∧ Tracks host b' done' ∧
      done'[index]? = some path

theorem importItems_visit
    {load : GraphBuilder → Path → String → Except Failure (Nat × GraphBuilder)}
    (hstack : KeepsStack load) (hload : Searches host load) {dir : Path} {items : List Item}
    {imports imports' : List Import} {b b' : GraphBuilder} (htracks : Tracks host b done)
    (h : host.importItems roots load dir items imports b = .ok (imports', b')) :
    ∃ done' new, Visit host.imports b.open_ ((filePulls items).map (importPath dir)) done done' ∧
      Tracks host b' done' ∧ imports' = imports ++ new ∧
      List.Forall₂ (Names done' dir) new (filePulls items) := by
  induction items generalizing imports b done with
  | nil =>
    cases h
    exact ⟨done, [], .nil, htracks, (List.append_nil _).symm, .nil⟩
  | cons item items ih =>
    cases item with
    | other => exact ih htracks h
    | pull p =>
      unfold Host.importItems at h
      unfold filePulls
      split at h
      · rename_i hbuiltin
        rw [if_pos hbuiltin]
        exact ih htracks h
      · rename_i hbuiltin
        rw [if_neg hbuiltin]
        split at h
        · cases h
        · rename_i target htarget
          obtain ⟨hname, hpath⟩ := resolvePull_ok htarget
          obtain ⟨⟨index, b₁⟩, hok, hrest⟩ := except_bind_ok h
          obtain ⟨mid, hvisit, htracks₁, hindex⟩ := hload _ _ _ _ _ _ htracks hok
          obtain ⟨done', new, hvisits, htracks', rfl, hnames⟩ := ih htracks₁ hrest
          have hopen : b₁.open_ = b.open_ := by
            unfold GraphBuilder.open_
            rw [hstack _ _ _ _ _ hok]
          rw [hopen] at hvisits
          refine ⟨done', ⟨target.name, index⟩ :: new, ?_, htracks', by rw [List.append_assoc]; rfl,
            .cons ⟨hname, ?_⟩ hnames⟩
          · rw [List.map_cons, ← hpath]
            exact hvisit.andThen hvisits
          · rw [hvisits.getElem? hindex, hpath]

theorem tracks_new (host : Host) (stack : List (Path × String)) : Tracks host ⟨[], [], stack⟩ [] :=
  ⟨rfl, fun _ _ h => (nomatch h), fun _ _ => List.not_mem_nil, fun _ _ _ h => (nomatch h)⟩

theorem Tracks.push {b : GraphBuilder} (h : Tracks host b done) (path : Path) (display : String) :
    Tracks host (b.push path display) done := ⟨h.length, h.loaded, h.missing, h.modules⟩

theorem push_open (b : GraphBuilder) (path : Path) (display : String) :
    (b.push path display).open_ = path :: b.open_ := by
  unfold GraphBuilder.push GraphBuilder.open_
  rw [List.map_append, List.reverse_append]
  rfl

theorem getElem?_snoc {α : Type} {l : List α} {a : α} (i : Nat) (x : α) (h : l[i]? = some x) :
    (l ++ [a])[i]? = some x := by
  rw [List.getElem?_append_left (List.getElem?_eq_some_iff.mp h).1, h]

/-- The modules after a file is finished. -/
theorem finish_module {b : GraphBuilder} {path : Path} {isRoot : Bool} {program : Program}
    {imports : List Import} (h : Tracks host b done) (hprogram : host.program path = some program)
    (hnames : List.Forall₂ (Names done (parent path)) imports (filePulls program.items)) {i : Nat}
    {m : LoadedModule} {p : Path} (hm : (b.finish path isRoot program imports).2.modules[i]? = some m)
    (hp : (done ++ [path])[i]? = some p) :
    ModuleOf host (done ++ [path]) m p ∧ m.isRoot = if i = done.length then isRoot else false := by
  replace hm : (b.modules ++ [⟨stemOf path, isRoot, program, imports⟩])[i]? = some m := hm
  by_cases hi : i < done.length
  · rw [List.getElem?_append_left (by rw [h.length]; exact hi)] at hm
    rw [List.getElem?_append_left hi] at hp
    obtain ⟨hof, hroot⟩ := h.modules i m p hm hp
    rw [if_neg (by omega)]
    exact ⟨hof.mono getElem?_snoc, hroot⟩
  · have hlt := (List.getElem?_eq_some_iff.mp hp).1
    rw [List.length_append, List.length_singleton] at hlt
    have heq : i = done.length := by omega
    rw [heq, List.getElem?_concat_length] at hp
    rw [heq, ← h.length, List.getElem?_concat_length] at hm
    cases hp
    cases hm
    rw [if_pos heq]
    exact ⟨⟨rfl, hprogram, hnames.imp fun _ _ hn => hn.mono getElem?_snoc⟩, rfl⟩

theorem tracks_finish {b : GraphBuilder} {path : Path} {program : Program} {imports : List Import}
    (h : Tracks host b done) (hprogram : host.program path = some program)
    (hnames : List.Forall₂ (Names done (parent path)) imports (filePulls program.items)) :
    Tracks host (b.finish path false program imports).2 (done ++ [path]) := by
  refine ⟨?_, fun p i hp => ?_, fun p hp => ?_, fun i m p hm hp => ?_⟩
  · show (b.modules ++ [_]).length = (done ++ [path]).length
    rw [List.length_append, List.length_append, h.length]
    rfl
  · replace hp : ((path, b.modules.length) :: b.loaded).lookup p = some i := hp
    rw [List.lookup_cons] at hp
    by_cases heq : p = path
    · rw [show (p == path) = true from beq_iff_eq.mpr heq] at hp
      cases hp
      rw [h.length, List.getElem?_concat_length, heq]
    · rw [show (p == path) = false from beq_eq_false_iff_ne.mpr heq] at hp
      exact getElem?_snoc i p (h.loaded p i hp)
  · replace hp : ((path, b.modules.length) :: b.loaded).lookup p = none := hp
    rw [List.lookup_cons] at hp
    by_cases heq : p = path
    · rw [show (p == path) = true from beq_iff_eq.mpr heq] at hp
      cases hp
    · rw [show (p == path) = false from beq_eq_false_iff_ne.mpr heq] at hp
      rw [List.mem_append, List.mem_singleton]
      exact not_or.mpr ⟨h.missing p hp, heq⟩
  · obtain ⟨hof, hroot⟩ := finish_module h hprogram hnames hm hp
    refine ⟨hof, ?_⟩
    rw [hroot, ite_self]

theorem program_of_parse {path : Path} {source : String} {program : Program}
    (hread : host.read path = .ok source) (hparse : host.parse source = .ok program) :
    host.program path = some program := by
  simp only [Host.program, hread, hparse, Except.toOption]

theorem imports_of_program {path : Path} {program : Program}
    (h : host.program path = some program) :
    host.imports path = (filePulls program.items).map (importPath (parent path)) := by
  simp only [Host.imports, h]

theorem mem_open {b : GraphBuilder} {path : Path} :
    path ∈ b.open_ ↔ (b.stack.map (·.1)).contains path = true := by
  unfold GraphBuilder.open_
  rw [List.mem_reverse, List.contains_iff_mem]

/-- What a load of a file that is not loaded yet went through. -/
theorem loadFile_cases {fuel : Nat} {b b' : GraphBuilder} {path : Path} {display : String}
    {isRoot : Bool} {index : Nat} (hmissing : b.loaded.lookup path = none)
    (h : host.loadFile roots (fuel + 1) b path display isRoot = .ok (index, b')) :
    path ∉ b.open_ ∧ ∃ program imports b₁, host.program path = some program ∧
      host.importItems roots (fun b path display => host.loadFile roots fuel b path display false)
        (parent path) program.items [] (b.push path display) = .ok (imports, b₁) ∧
      (index, b') = b₁.finish path isRoot program imports := by
  unfold Host.loadFile at h
  simp only [hmissing] at h
  split at h
  · cases h
  · rename_i hopen
    split at h
    · cases h
    · rename_i source hread
      split at h
      · cases h
      · rename_i program hparse
        obtain ⟨⟨imports, b₁⟩, hok, hfinish⟩ := except_bind_ok h
        exact ⟨fun hmem => hopen (mem_open.mp hmem), program, imports, b₁,
          program_of_parse hread hparse, hok, (Except.ok.inj hfinish).symm⟩

theorem loadFile_searches (fuel : Nat) :
    Searches host fun b path display => host.loadFile roots fuel b path display false := by
  induction fuel with
  | zero => exact fun _ _ _ _ _ _ _ h => nomatch h
  | succ fuel ih =>
    intro b path display index b' done htracks h
    cases hloaded : b.loaded.lookup path with
    | some i =>
      dsimp only at h
      unfold Host.loadFile at h
      simp only [hloaded] at h
      cases h
      have hget := htracks.loaded path index hloaded
      exact ⟨done, .skip (List.mem_of_getElem? hget) .nil, htracks, hget⟩
    | none =>
      obtain ⟨hopen, program, imports, b₁, hprogram, hitems, hfinish⟩ := loadFile_cases hloaded h
      obtain ⟨mid, new, hvisit, htracks₁, rfl, hnames⟩ :=
        importItems_visit loadFile_stack ih (htracks.push path display) hitems
      cases hfinish
      rw [push_open, ← imports_of_program hprogram] at hvisit
      refine ⟨mid ++ [path], .node (htracks.missing path hloaded) hopen hvisit .nil,
        tracks_finish htracks₁ hprogram hnames, ?_⟩
      rw [htracks₁.length, List.getElem?_concat_length]

end Success

section Termination

variable {host : Host} {roots : Roots}

def Host.paths (host : Host) : List Path := host.files.map (·.1)

theorem mem_paths {path : Path} {source : String} (h : host.read path = .ok source) :
    path ∈ host.paths := by
  unfold Host.read at h
  split at h
  · rename_i hlookup
    obtain ⟨before, after, heq, _⟩ := List.lookup_eq_some_iff.mp hlookup
    unfold Host.paths
    rw [heq]
    exact List.mem_map_of_mem (List.mem_append_right _ List.mem_cons_self)
  · cases h

/-- The open files are distinct files of the map, and there is fuel for the rest of the map. -/
structure Fueled (host : Host) (b : GraphBuilder) (fuel : Nat) : Prop where
  nodup : b.open_.Nodup
  known : ∀ path ∈ b.open_, path ∈ host.paths
  fuel : host.paths.length < b.open_.length + fuel

/-- A load never runs out of fuel. -/
def Ends (load : GraphBuilder → Path → String → Except Failure (Nat × GraphBuilder))
    (stack : List (Path × String)) : Prop :=
  ∀ b path display, b.stack = stack → load b path display ≠ .error .fuel

theorem importItems_ends
    {load : GraphBuilder → Path → String → Except Failure (Nat × GraphBuilder)}
    (hstack : KeepsStack load) {dir : Path} {items : List Item} {imports : List Import}
    {b : GraphBuilder} (hends : Ends load b.stack) :
    host.importItems roots load dir items imports b ≠ .error .fuel := by
  induction items generalizing imports b with
  | nil => exact fun h => nomatch h
  | cons item items ih =>
    cases item with
    | other => exact ih hends
    | pull p =>
      unfold Host.importItems
      split
      · exact ih hends
      · split
        · exact fun h => nomatch h
        · intro h
          rcases bind_error h with hload | ⟨⟨index, b₁⟩, hok, hrest⟩
          · exact hends b _ _ rfl hload
          · exact ih (hstack _ _ _ _ _ hok ▸ hends) hrest

theorem loadFile_ends {fuel : Nat} {b : GraphBuilder} (h : Fueled host b fuel) (path : Path)
    (display : String) (isRoot : Bool) :
    host.loadFile roots fuel b path display isRoot ≠ .error .fuel := by
  induction fuel generalizing b path display isRoot with
  | zero =>
    have hle : b.open_.length ≤ host.paths.length := (List.subperm_of_subset h.nodup h.known).length_le
    have hlt := h.fuel
    omega
  | succ fuel ih =>
    unfold Host.loadFile
    split
    · exact fun h => nomatch h
    · split
      · exact fun h => nomatch h
      · rename_i hopen
        split
        · exact fun h => nomatch h
        · rename_i source hread
          split
          · exact fun h => nomatch h
          · intro herror
            rcases bind_error herror with hitems | ⟨_, _, hfinish⟩
            · refine importItems_ends loadFile_stack (fun b₁ path₁ display₁ hb₁ => ih ?_ _ _ _) hitems
              have hopen₁ : b₁.open_ = path :: b.open_ := by
                rw [← push_open b path display]
                unfold GraphBuilder.open_
                rw [hb₁]
              have hfuel := h.fuel
              refine ⟨?_, ?_, ?_⟩
              · rw [hopen₁]
                exact List.nodup_cons.mpr ⟨fun hmem => hopen (mem_open.mp hmem), h.nodup⟩
              · rw [hopen₁]
                exact List.forall_mem_cons.mpr ⟨mem_paths hread, h.known⟩
              · rw [hopen₁, List.length_cons]
                omega
            · cases hfinish

end Termination

section Failure

variable {host : Host} {roots : Roots}

/-- When every import passes its checks, a failing file has a failing import. -/
theorem importItems_error
    {load : GraphBuilder → Path → String → Except Failure (Nat × GraphBuilder)}
    (hstack : KeepsStack load) {dir : Path} {items : List Item} {imports : List Import}
    {b : GraphBuilder} {e : LoadError}
    (hok : host.PullsOk roots dir (imports.map (·.name)) items)
    (h : host.importItems roots load dir items imports b = .error (.load e)) :
    ∃ p ∈ filePulls items, ∃ b₁ display, b₁.stack = b.stack ∧
      load b₁ (importPath dir p) display = .error (.load e) := by
  induction items generalizing imports b with
  | nil => cases h
  | cons item items ih =>
    cases item with
    | other => exact ih hok h
    | pull p =>
      unfold Host.importItems at h
      unfold Host.PullsOk at hok
      unfold filePulls
      split at h
      · rename_i hbuiltin
        rw [if_pos hbuiltin] at hok ⊢
        exact ih hok h
      · rename_i hbuiltin
        rw [if_neg hbuiltin] at hok ⊢
        obtain ⟨target, htarget, hrest⟩ := hok
        simp only [htarget] at h
        rcases bind_error h with hload | ⟨⟨index, b₁⟩, hloaded, herror⟩
        · rw [(resolvePull_ok htarget).2] at hload
          exact ⟨p, List.mem_cons_self, b, target.display, rfl, hload⟩
        · obtain ⟨q, hq, b₂, display, hb₂, hfail⟩ := ih (by rw [List.map_append]; exact hrest) herror
          exact ⟨q, List.mem_cons_of_mem _ hq, b₂, display, hb₂.trans (hstack _ _ _ _ _ hloaded), hfail⟩

/-- A failing load of admissible files meets a file that imports itself through others. -/
theorem loadFile_error {fuel : Nat} {b : GraphBuilder} {path : Path} {display : String}
    {isRoot : Bool} {e : LoadError}
    (hopen : ∀ p ∈ b.open_, Relation.TransGen (Edge host.imports) p path)
    (hadm : ∀ p, Relation.ReflTransGen (Edge host.imports) path p → host.Admissible roots p)
    (h : host.loadFile roots fuel b path display isRoot = .error (.load e)) :
    ∃ p, Relation.ReflTransGen (Edge host.imports) path p ∧
      Relation.TransGen (Edge host.imports) p p := by
  induction fuel generalizing b path display isRoot with
  | zero => cases h
  | succ fuel ih =>
    obtain ⟨program, hprogram, hpulls⟩ := hadm path .refl
    unfold Host.loadFile at h
    split at h
    · cases h
    · split at h
      · rename_i hmem
        exact ⟨path, .refl, hopen path (mem_open.mpr hmem)⟩
      · split at h
        · rename_i herror
          simp only [Host.program, herror] at hprogram
          cases hprogram
        · rename_i source hread
          split at h
          · rename_i herror
            simp only [Host.program, hread, herror, Except.toOption] at hprogram
            cases hprogram
          · rename_i program' hparse
            cases hprogram.symm.trans (program_of_parse hread hparse)
            rcases bind_error h with hitems | ⟨_, _, hfinish⟩
            · obtain ⟨q, hq, b₁, display₁, hb₁, hfail⟩ := importItems_error loadFile_stack hpulls hitems
              have hedge : Edge host.imports path (importPath (parent path) q) := by
                unfold Edge
                rw [imports_of_program hprogram]
                exact List.mem_map_of_mem hq
              have hopen₁ : b₁.open_ = path :: b.open_ := by
                rw [← push_open b path display]
                unfold GraphBuilder.open_
                rw [hb₁]
              obtain ⟨p, hreach, hcycle⟩ := ih (by
                rw [hopen₁]
                exact List.forall_mem_cons.mpr ⟨.single hedge, fun p hp => (hopen p hp).tail hedge⟩)
                (fun p hp => hadm p (hp.head hedge)) hfail
              exact ⟨p, hreach.head hedge, hcycle⟩
            · cases hfinish

end Failure

section Graph

variable {host : Host}

/-- What a successful load of `entry` gives: `paths` are the files of the modules. -/
structure Loaded (host : Host) (entry : Path) (modules : List LoadedModule) (paths : List Path) :
    Prop where
  length : modules.length = paths.length
  nodup : paths.Nodup
  reachable : ∀ path, path ∈ paths ↔ Relation.ReflTransGen (Edge host.imports) entry path
  module : ∀ (i : Nat) m path, modules[i]? = some m → paths[i]? = some path →
    ModuleOf host paths m path
  root : ∀ (i : Nat) m, modules[i]? = some m → (m.isRoot = true ↔ i + 1 = modules.length)
  order : ∀ (i : Nat) m, modules[i]? = some m → ∀ imp ∈ m.imports, imp.target < i
  last : paths.getLast? = some entry

/-- An import comes before its file, because the search lists it first. -/
theorem target_lt {paths : List Path} (hordered : Ordered host.imports paths) (hnodup : paths.Nodup)
    {i : Nat} {m : LoadedModule} {path : Path} (hpath : paths[i]? = some path)
    (hm : ModuleOf host paths m path) {imp : Import} (himp : imp ∈ m.imports) : imp.target < i := by
  obtain ⟨p, hp, _, htarget⟩ := exists_of_forall₂ hm.imports himp
  have hedge : Edge host.imports path (importPath (parent path) p) := by
    unfold Edge
    rw [imports_of_program hm.program]
    exact List.mem_map_of_mem hp
  obtain ⟨j, hj, hget⟩ := hordered.earlier hpath hedge
  have hlt := (List.getElem?_eq_some_iff.mp htarget).1
  have heq := (List.getElem?_inj hlt hnodup).mp (htarget.trans hget.symm)
  omega

/-- The root is finished last. -/
theorem loaded_finish {entry : Path} {mid : List Path} {b : GraphBuilder} {program : Program}
    {imports : List Import} (hsearch : Visit host.imports [] [entry] [] (mid ++ [entry]))
    (htracks : Tracks host b mid) (hprogram : host.program entry = some program)
    (hnames : List.Forall₂ (Names mid (parent entry)) imports (filePulls program.items)) :
    Loaded host entry (b.finish entry true program imports).2.modules (mid ++ [entry]) := by
  have hlength : (b.finish entry true program imports).2.modules.length = mid.length + 1 := by
    show (b.modules ++ [_]).length = mid.length + 1
    rw [List.length_append, htracks.length]
    rfl
  have hpath : ∀ {i : Nat} {m : LoadedModule},
      (b.finish entry true program imports).2.modules[i]? = some m →
        ∃ path, (mid ++ [entry])[i]? = some path := by
    intro i m hm
    have hlt := (List.getElem?_eq_some_iff.mp hm).1
    refine ⟨_, List.getElem?_eq_getElem ?_⟩
    rw [List.length_append, List.length_singleton]
    omega
  have hordered := hsearch.ordered .nil
  have hnodup := hsearch.nodup List.nodup_nil
  refine ⟨by rw [hlength, List.length_append, List.length_singleton], hnodup, fun _ => hsearch.mem_iff,
    fun i m path hm hp => (finish_module htracks hprogram hnames hm hp).1, fun i m hm => ?_,
    fun i m hm imp himp => ?_, List.getLast?_concat⟩
  · obtain ⟨path, hp⟩ := hpath hm
    rw [(finish_module htracks hprogram hnames hm hp).2, hlength]
    by_cases heq : i = mid.length
    · rw [if_pos heq, heq]
      exact ⟨fun _ => rfl, fun _ => rfl⟩
    · rw [if_neg heq]
      exact ⟨fun h => (nomatch h), fun h => absurd (Nat.succ.inj h) heq⟩
  · obtain ⟨path, hp⟩ := hpath hm
    exact target_lt hordered hnodup hp (finish_module htracks hprogram hnames hm hp).1 himp

theorem loadGraph_error {fuel : Nat} {entry : Path} {failure : Failure}
    (h : host.loadGraphWith fuel entry = .error failure) :
    host.loadFile (host.roots (normalize entry)) fuel ⟨[], [], []⟩ (normalize entry)
      ((fileName (normalize entry)).getD (display (normalize entry))) true = .error failure := by
  unfold Host.loadGraphWith at h
  dsimp only at h
  cases hload : host.loadFile (host.roots (normalize entry)) fuel ⟨[], [], []⟩ (normalize entry)
      ((fileName (normalize entry)).getD (display (normalize entry))) true with
  | error e =>
    rw [hload] at h
    cases h
    rfl
  | ok loaded =>
    rw [hload] at h
    cases h

theorem loadGraph_paths {fuel : Nat} {entry : Path} {modules : List LoadedModule}
    (h : host.loadGraphWith fuel entry = .ok modules) :
    ∃ paths, Loaded host (normalize entry) modules paths ∧ Ordered host.imports paths := by
  unfold Host.loadGraphWith at h
  dsimp only at h
  generalize normalize entry = entry at h ⊢
  generalize host.roots entry = roots at h
  cases fuel with
  | zero => cases h
  | succ fuel =>
    cases hload : host.loadFile roots (fuel + 1) ⟨[], [], []⟩ entry
        ((fileName entry).getD (display entry)) true with
    | error e =>
      rw [hload] at h
      cases h
    | ok loaded =>
      obtain ⟨index, b⟩ := loaded
      rw [hload] at h
      cases h
      obtain ⟨hopen, program, imports, b₁, hprogram, hitems, hfinish⟩ := loadFile_cases rfl hload
      obtain ⟨mid, new, hvisit, htracks, rfl, hnames⟩ :=
        importItems_visit loadFile_stack (loadFile_searches fuel) (tracks_new host _) hitems
      cases hfinish
      have hsearch : Visit host.imports [] [entry] [] (mid ++ [entry]) :=
        .node List.not_mem_nil List.not_mem_nil (imports_of_program hprogram ▸ hvisit) .nil
      exact ⟨mid ++ [entry], loaded_finish hsearch htracks hprogram hnames, hsearch.ordered .nil⟩

/-- With fuel for every file of the map, the loader ends. When it succeeds, the modules are the files
that the entry reaches, each once and after its imports, with the entry last. When every reachable
file is admissible, it fails exactly when one of them imports itself through others. -/
theorem loadGraph_ordered (host : Host) (entry : Path) {fuel : Nat}
    (hfuel : host.files.length < fuel) :
    host.loadGraphWith fuel entry ≠ .error .fuel ∧
    (∀ modules, host.loadGraphWith fuel entry = .ok modules →
      ∃ paths, Loaded host (normalize entry) modules paths) ∧
    ((∀ path, Relation.ReflTransGen (Edge host.imports) (normalize entry) path →
        host.Admissible (host.roots (normalize entry)) path) →
      ((∃ e, host.loadGraphWith fuel entry = .error (.load e)) ↔
        ∃ path, Relation.ReflTransGen (Edge host.imports) (normalize entry) path ∧
          Relation.TransGen (Edge host.imports) path path)) := by
  have hends : host.loadGraphWith fuel entry ≠ .error .fuel := by
    intro h
    have hnew : Fueled host ⟨[], [], []⟩ fuel := by
      refine ⟨List.nodup_nil, List.forall_mem_nil _, ?_⟩
      show (host.files.map _).length < 0 + fuel
      rw [List.length_map]
      omega
    exact loadFile_ends hnew _ _ _ (loadGraph_error h)
  refine ⟨hends, fun modules h => ?_, fun hadm => ⟨?_, ?_⟩⟩
  · obtain ⟨paths, hloaded, _⟩ := loadGraph_paths h
    exact ⟨paths, hloaded⟩
  · rintro ⟨e, h⟩
    exact loadFile_error (List.forall_mem_nil _) hadm (loadGraph_error h)
  · rintro ⟨path, hreach, hcycle⟩
    cases hresult : host.loadGraphWith fuel entry with
    | ok modules =>
      obtain ⟨paths, hloaded, hordered⟩ := loadGraph_paths hresult
      exact absurd hcycle (hordered.acyclic hloaded.nodup ((hloaded.reachable path).mpr hreach))
    | error failure =>
      cases failure with
      | load e => exact ⟨e, rfl⟩
      | fuel => exact absurd hresult hends

/-- Two files that import a third one, under different spellings. -/
def diamond : Host where
  files := [([.normal "main.bet"], "main"), ([.normal "a.bet"], "a"), ([.normal "lib", .normal "b.bet"], "b"),
    ([.normal "common.bet"], "")]
  parse source :=
    if source = "main" then .ok ⟨[.pull ⟨"a", none⟩, .pull ⟨"lib/b", none⟩, .other]⟩
    else if source = "a" then .ok ⟨[.pull ⟨"spill", none⟩, .pull ⟨"./common", none⟩]⟩
    else if source = "b" then .ok ⟨[.pull ⟨"../common", some "shared"⟩]⟩
    else .ok ⟨[.other]⟩
  cwd := none
  canonicalize _ := none

theorem loadGraph_ordered_diamond : ∃ paths, Loaded diamond [.normal "main.bet"]
    [⟨"common", false, ⟨[.other]⟩, []⟩,
      ⟨"a", false, ⟨[.pull ⟨"spill", none⟩, .pull ⟨"./common", none⟩]⟩, [⟨"common", 0⟩]⟩,
      ⟨"b", false, ⟨[.pull ⟨"../common", some "shared"⟩]⟩, [⟨"shared", 0⟩]⟩,
      ⟨"main", true, ⟨[.pull ⟨"a", none⟩, .pull ⟨"lib/b", none⟩, .other]⟩, [⟨"a", 1⟩, ⟨"b", 2⟩]⟩]
    paths :=
  (loadGraph_ordered diamond [.normal "main.bet"] (show diamond.files.length < 5 by decide)).2.1 _
    (by decide)

end Graph

end BetLang.Loading
