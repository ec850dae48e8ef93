import BetLang.LoaderOrder

/-! Where the loader reads: the paths it asks its reader for, against the paths that its imports
denote. -/

namespace BetLang.Loading

/-- `.` goes, and `..` takes a segment away; at the start of a relative path it stays, and the root
is its own parent. -/
def lexicalFrom : Path → Path → Path
  | out, [] => out
  | out, .curDir :: rest => lexicalFrom out rest
  | out, .parentDir :: rest =>
    match out.getLast? with
    | some (.normal _) => lexicalFrom out.dropLast rest
    | some .rootDir => lexicalFrom out rest
    | _ => lexicalFrom (out ++ [.parentDir]) rest
  | _, .rootDir :: rest => lexicalFrom [.rootDir] rest
  | out, .normal name :: rest => lexicalFrom (out ++ [.normal name]) rest

def lexical (path : Path) : Path := lexicalFrom [] path

/-- The file that a `pull` denotes, relative to the directory of its own file. -/
def denoted (dir : Path) (p : Pull) : Path := lexical (join dir (components (p.module_ ++ ".bet")))

def Inside (root path : Path) : Prop := root <+: path ∧ .parentDir ∉ path

/-- What the loader does on its way: the checks of a `pull` in a directory, with the namespaces
bound before it, and asking the reader for a file, for the sake of a `pull` or as the entry. -/
inductive Event where
  | checked (dir : Path) (names : List String) (p : Pull) (result : Except LoadError Target)
  | asked (importer : Option (Path × Pull)) (path : Path)

section Log

/-- `importItems`, with what it does. -/
def Host.importItemsLog (host : Host) (roots : Roots)
    (load : Path × Pull → GraphBuilder → Path → String →
      List Event × Except Failure (Nat × GraphBuilder)) (dir : Path) :
    List Item → List Import → GraphBuilder →
      List Event × Except Failure (List Import × GraphBuilder)
  | [], imports, b => ([], .ok (imports, b))
  | .other :: items, imports, b => host.importItemsLog roots load dir items imports b
  | .pull p :: items, imports, b =>
    if isBuiltinModule p.module_ then host.importItemsLog roots load dir items imports b
    else
      let names := imports.map (·.name)
      match host.resolvePull roots dir names p with
      | .error e => ([.checked dir names p (.error e)], .error (.load e))
      | .ok target =>
        let loaded := load (dir, p) b target.path target.display
        match loaded.2 with
        | .error e => (.checked dir names p (.ok target) :: loaded.1, .error e)
        | .ok (index, b) =>
          let rest := host.importItemsLog roots load dir items (imports ++ [⟨target.name, index⟩]) b
          (.checked dir names p (.ok target) :: loaded.1 ++ rest.1, rest.2)

/-- `loadFile`, with what it does. -/
def Host.loadFileLog (host : Host) (roots : Roots) :
    Nat → Option (Path × Pull) → GraphBuilder → Path → String → Bool →
      List Event × Except Failure (Nat × GraphBuilder)
  | 0, _, _, _, _, _ => ([], .error .fuel)
  | fuel + 1, importer, b, path, display, isRoot =>
    match b.loaded.lookup path with
    | some index => ([], .ok (index, b))
    | none =>
      if (b.stack.map (·.1)).contains path then
        ([], .error (.load (.cycle (b.stack.map (·.2) ++ [display]))))
      else
        match host.read path with
        | .error e => ([.asked importer path], .error (.load (.reading display e)))
        | .ok source =>
          match host.parse source with
          | .error e => ([.asked importer path], .error (.load (.parsing display e)))
          | .ok program =>
            let done := host.importItemsLog roots
              (fun importer b path display =>
                host.loadFileLog roots fuel (some importer) b path display false)
              (parent path) program.items [] (b.push path display)
            (.asked importer path :: done.1,
              done.2.bind fun (imports, b) => .ok (b.finish path isRoot program imports))

def Host.loadGraphLog (host : Host) (fuel : Nat) (entry : Path) :
    List Event × Except Failure (List LoadedModule) :=
  let entry := normalize entry
  let loaded := host.loadFileLog (host.roots entry) fuel none ⟨[], [], []⟩ entry
    ((fileName entry).getD (display entry)) true
  (loaded.1, loaded.2.map fun loaded => loaded.2.modules)

variable {host : Host} {roots : Roots}

theorem importItemsLog_result
    {load : Path × Pull → GraphBuilder → Path → String →
      List Event × Except Failure (Nat × GraphBuilder)}
    {load' : GraphBuilder → Path → String → Except Failure (Nat × GraphBuilder)}
    (hload : ∀ importer b path display, (load importer b path display).2 = load' b path display)
    (dir : Path) (items : List Item) (imports : List Import) (b : GraphBuilder) :
    (host.importItemsLog roots load dir items imports b).2 =
      host.importItems roots load' dir items imports b := by
  induction items generalizing imports b with
  | nil => rfl
  | cons item items ih =>
    cases item with
    | other => exact ih imports b
    | pull p =>
      rw [Host.importItemsLog, Host.importItems]
      by_cases hbuiltin : isBuiltinModule p.module_ = true
      · rw [if_pos hbuiltin, if_pos hbuiltin]
        exact ih imports b
      · rw [if_neg hbuiltin, if_neg hbuiltin]
        dsimp only
        cases host.resolvePull roots dir (imports.map (·.name)) p with
        | error e => rfl
        | ok target =>
          dsimp only
          rw [← hload (dir, p) b target.path target.display]
          rcases load (dir, p) b target.path target.display with ⟨events, result⟩
          cases result with
          | error e => rfl
          | ok loaded => exact ih _ _

/-- Keeping the log changes no result. -/
theorem loadFileLog_result (fuel : Nat) (importer : Option (Path × Pull)) (b : GraphBuilder)
    (path : Path) (display : String) (isRoot : Bool) :
    (host.loadFileLog roots fuel importer b path display isRoot).2 =
      host.loadFile roots fuel b path display isRoot := by
  induction fuel generalizing importer b path display isRoot with
  | zero => rfl
  | succ fuel ih =>
    rw [Host.loadFileLog, Host.loadFile]
    cases b.loaded.lookup path with
    | some index => rfl
    | none =>
      dsimp only
      split
      · rfl
      · cases host.read path with
        | error e => rfl
        | ok source =>
          dsimp only
          cases host.parse source with
          | error e => rfl
          | ok program =>
            dsimp only
            rw [importItemsLog_result fun importer b path display =>
              ih (some importer) b path display false]

theorem loadGraphLog_result (host : Host) (fuel : Nat) (entry : Path) :
    (host.loadGraphLog fuel entry).2 = host.loadGraphWith fuel entry := by
  rw [Host.loadGraphLog, Host.loadGraphWith, ← loadFileLog_result fuel none]

end Log

section Paths

/-- No `.` or `..`, and a root only at the start. -/
structure Clean (path : Path) : Prop where
  cur : .curDir ∉ path
  up : .parentDir ∉ path
  root : .rootDir ∉ path.tail

variable {out rest dir : Path}

theorem normalizeFrom_append (out a b : Path) :
    normalizeFrom out (a ++ b) = normalizeFrom (normalizeFrom out a) b := by
  induction a generalizing out with
  | nil => rfl
  | cons c a ih =>
    cases c with
    | rootDir => exact ih _
    | curDir => exact ih _
    | normal name => exact ih _
    | parentDir =>
      rw [List.cons_append, normalizeFrom, normalizeFrom]
      split <;> exact ih _

theorem lexicalFrom_append (out a b : Path) :
    lexicalFrom out (a ++ b) = lexicalFrom (lexicalFrom out a) b := by
  induction a generalizing out with
  | nil => rfl
  | cons c a ih =>
    cases c with
    | rootDir => exact ih _
    | curDir => exact ih _
    | normal name => exact ih _
    | parentDir =>
      rw [List.cons_append, lexicalFrom, lexicalFrom]
      split <;> exact ih _

theorem Clean.snoc (h : Clean out) (name : String) : Clean (out ++ [.normal name]) where
  cur hmem := by
    rcases List.mem_append.mp hmem with hmem | hmem
    · exact h.cur hmem
    · cases List.mem_singleton.mp hmem
  up hmem := by
    rcases List.mem_append.mp hmem with hmem | hmem
    · exact h.up hmem
    · cases List.mem_singleton.mp hmem
  root hmem := by
    cases out with
    | nil => cases hmem
    | cons c out =>
      rcases List.mem_append.mp hmem with hmem | hmem
      · exact h.root hmem
      · cases List.mem_singleton.mp hmem

theorem Clean.dropLast (h : Clean out) : Clean out.dropLast where
  cur hmem := h.cur (List.dropLast_subset _ hmem)
  up hmem := h.up (List.dropLast_subset _ hmem)
  root hmem := by
    rw [List.tail_dropLast] at hmem
    exact h.root (List.dropLast_subset _ hmem)

theorem clean_nil : Clean [] := ⟨by simp, by simp, by simp⟩

theorem clean_root : Clean [.rootDir] := ⟨by simp, by simp, by simp⟩

theorem normalizeFrom_clean (h : Clean out) (hrest : .rootDir ∉ rest) :
    Clean (normalizeFrom out rest) := by
  induction rest generalizing out with
  | nil => exact h
  | cons c rest ih =>
    have hrest' : .rootDir ∉ rest := fun hmem => hrest (List.mem_cons_of_mem _ hmem)
    cases c with
    | rootDir => exact absurd List.mem_cons_self hrest
    | curDir => exact ih h hrest'
    | normal name => exact ih (h.snoc name) hrest'
    | parentDir =>
      rw [normalizeFrom]
      split
      · exact ih h.dropLast hrest'
      · exact ih h hrest'

/-- Once a relative path has climbed above its start it stays there. -/
theorem lexicalFrom_climbed (tail : Path) (hrest : .rootDir ∉ rest) :
    .parentDir ∈ lexicalFrom (.parentDir :: tail) rest := by
  induction rest generalizing tail with
  | nil => exact List.mem_cons_self
  | cons c rest ih =>
    have hrest' : .rootDir ∉ rest := fun hmem => hrest (List.mem_cons_of_mem _ hmem)
    cases c with
    | rootDir => exact absurd List.mem_cons_self hrest
    | curDir => exact ih tail hrest'
    | normal name => exact ih (tail ++ [.normal name]) hrest'
    | parentDir =>
      rw [lexicalFrom]
      split
      · rename_i name hlast
        cases tail with
        | nil => cases hlast
        | cons c tail => exact ih (c :: tail).dropLast hrest'
      · exact ih tail hrest'
      · exact ih (tail ++ [.parentDir]) hrest'

/-- The clamped path is the real one unless that climbs above the start. -/
theorem lexicalFrom_eq (h : Clean out) (hrest : .rootDir ∉ rest)
    (hup : .parentDir ∉ lexicalFrom out rest) : lexicalFrom out rest = normalizeFrom out rest := by
  induction rest generalizing out with
  | nil => rfl
  | cons c rest ih =>
    have hrest' : .rootDir ∉ rest := fun hmem => hrest (List.mem_cons_of_mem _ hmem)
    cases c with
    | rootDir => exact absurd List.mem_cons_self hrest
    | curDir => exact ih h hrest' hup
    | normal name => exact ih (h.snoc name) hrest' hup
    | parentDir =>
      rw [lexicalFrom] at hup ⊢
      rw [normalizeFrom]
      cases hlast : out.getLast? with
      | none =>
        rw [hlast] at hup
        rw [List.getLast?_eq_none_iff.mp hlast] at hup
        exact absurd (lexicalFrom_climbed [] hrest') hup
      | some c =>
        have hmem := List.mem_of_getLast? hlast
        rw [hlast] at hup
        cases c with
        | rootDir => exact ih h hrest' hup
        | curDir => exact absurd hmem h.cur
        | parentDir => exact absurd hmem h.up
        | normal name => exact ih h.dropLast hrest' hup

theorem normals_eq (out : Path) (hclean : Clean (out ++ rest)) (hroot : .rootDir ∉ rest) :
    normalizeFrom out rest = out ++ rest ∧ lexicalFrom out rest = out ++ rest := by
  induction rest generalizing out with
  | nil => exact ⟨(List.append_nil out).symm, (List.append_nil out).symm⟩
  | cons c rest ih =>
    cases c with
    | rootDir => exact absurd List.mem_cons_self hroot
    | curDir => exact absurd (List.mem_append_right _ List.mem_cons_self) hclean.cur
    | parentDir => exact absurd (List.mem_append_right _ List.mem_cons_self) hclean.up
    | normal name =>
      rw [List.append_cons] at hclean ⊢
      exact ih _ hclean fun hmem => hroot (List.mem_cons_of_mem _ hmem)

theorem Clean.normalize_eq (h : Clean dir) : normalize dir = dir ∧ lexical dir = dir := by
  cases dir with
  | nil => exact ⟨rfl, rfl⟩
  | cons c dir =>
    by_cases hroot : c = .rootDir
    · subst hroot
      exact normals_eq [.rootDir] h h.root
    · refine normals_eq [] h fun hmem => ?_
      rcases List.mem_cons.mp hmem with heq | hmem
      · exact hroot heq.symm
      · exact h.root hmem

theorem components_root (s : String) :
    .rootDir ∉ (components s).tail ∧ (.rootDir ∈ components s ↔ s.toList.head? = some '/') := by
  have hparts : .rootDir ∉ ((splitSlash s.toList).filter (!·.isEmpty)).map component := by
    intro hmem
    obtain ⟨part, -, hpart⟩ := List.mem_map.mp hmem
    rw [component] at hpart
    split_ifs at hpart
  rw [components]
  by_cases habs : s.toList.head? = some '/'
  · rw [if_pos habs]
    exact ⟨fun hmem => hparts (List.mem_of_mem_filter hmem), by simp [habs]⟩
  · rw [if_neg habs]
    have hnot : .rootDir ∉ (((splitSlash s.toList).filter (!·.isEmpty)).map component).take 1 ++
        ((((splitSlash s.toList).filter (!·.isEmpty)).map component).drop 1).filter
          (· ≠ .curDir) := by
      intro hmem
      rcases List.mem_append.mp hmem with hmem | hmem
      · exact hparts (List.mem_of_mem_take hmem)
      · exact hparts (List.mem_of_mem_drop (List.mem_of_mem_filter hmem))
    exact ⟨fun hmem => hnot (List.mem_of_mem_tail hmem), by simp only [hnot, habs]⟩

/-- Both paths of a relative import go on from its directory. -/
theorem import_paths (hdir : Clean dir) {p : Pull} (hrel : .rootDir ∉ components p.module_) :
    importPath dir p = normalizeFrom dir (components (p.module_ ++ ".bet")) ∧
      denoted dir p = lexicalFrom dir (components (p.module_ ++ ".bet")) ∧
      .rootDir ∉ components (p.module_ ++ ".bet") := by
  have hrel' : .rootDir ∉ components (p.module_ ++ ".bet") := by
    rw [(components_root _).2] at hrel ⊢
    rw [String.toList_append]
    cases hchars : p.module_.toList with
    | nil => decide
    | cons c chars =>
      rw [hchars] at hrel
      exact hrel
  have hjoin : join dir (components (p.module_ ++ ".bet")) =
      dir ++ components (p.module_ ++ ".bet") := by
    rw [join, if_neg]
    intro habs
    rw [isAbsolute, beq_iff_eq] at habs
    exact hrel' (List.mem_of_head? habs)
  obtain ⟨hnorm, hlex⟩ := hdir.normalize_eq
  rw [normalize] at hnorm
  rw [lexical] at hlex
  rw [importPath, denoted, hjoin, normalize, lexical, normalizeFrom_append, lexicalFrom_append,
    hnorm, hlex]
  exact ⟨rfl, rfl, hrel'⟩

theorem importPath_clean (hdir : Clean dir) {p : Pull} (hrel : .rootDir ∉ components p.module_) :
    Clean (importPath dir p) := by
  obtain ⟨himport, -, hrel'⟩ := import_paths hdir hrel
  rw [himport]
  exact normalizeFrom_clean hdir hrel'

theorem importPath_eq (hdir : Clean dir) {p : Pull} (hrel : .rootDir ∉ components p.module_)
    (hup : .parentDir ∉ denoted dir p) : importPath dir p = denoted dir p := by
  obtain ⟨himport, hdenoted, hrel'⟩ := import_paths hdir hrel
  rw [hdenoted] at hup ⊢
  rw [himport, lexicalFrom_eq hdir hrel' hup]

theorem parent_clean {path : Path} (h : Clean path) : Clean (parent path) := by
  rw [parent.eq_def]
  split
  · exact clean_nil
  · exact clean_nil
  · exact h.dropLast

theorem parent_ancestor (path : Path) : parent path <+: path := by
  rw [parent.eq_def]
  split
  · exact List.prefix_rfl
  · exact List.nil_prefix
  · exact List.dropLast_prefix _

/-- The entry's path is the real one unless that climbs above its start. -/
theorem entry_paths (s : String) :
    Clean (normalize (components s)) ∧
      (.parentDir ∉ lexical (components s) →
        normalize (components s) = lexical (components s)) := by
  have htail := (components_root s).1
  cases hs : components s with
  | nil => exact ⟨clean_nil, fun _ => rfl⟩
  | cons c rest =>
    rw [hs] at htail
    by_cases hroot : c = .rootDir
    · subst hroot
      have hclean : Clean (normalizeFrom [.rootDir] rest) := normalizeFrom_clean clean_root htail
      exact ⟨hclean, fun hup => (lexicalFrom_eq clean_root htail hup).symm⟩
    · have hrest : .rootDir ∉ c :: rest := by
        intro hmem
        rcases List.mem_cons.mp hmem with heq | hmem
        · exact hroot heq.symm
        · exact htail hmem
      exact ⟨normalizeFrom_clean clean_nil hrest,
        fun hup => (lexicalFrom_eq clean_nil hrest hup).symm⟩

end Paths

section Memory

/-- A host whose files are all in memory: none of them resolves on disk. -/
def memoryHost (files : List (Path × String)) (parse : String → Except String Program)
    (cwd : Option Path) : Host :=
  ⟨files, parse, cwd, fun _ => none⟩

/-- The project root of an entry. -/
def projectRoot (entry : String) : Path := parent (normalize (components entry))

/-- An import that passes the checks on names, is not absolute, and climbs above the start of its
path, while what is left of it without those hops is in the project. -/
structure Redirected (root dir : Path) (names : List String) (p : Pull) : Prop where
  builtin : isBuiltinModule (pullName p) = false
  fresh : names.contains (pullName p) = false
  relative : .rootDir ∉ components p.module_
  climbs : .parentDir ∈ denoted dir p
  inside : root <+: importPath dir p

/-- Reads and imports stay in the project. -/
structure Confined (root : Path) (entry : String) (events : List Event) : Prop where
  entry : ∀ path, .asked none path ∈ events → path = lexical (components entry)
  asked : ∀ dir p path, .asked (some (dir, p)) path ∈ events →
    path = denoted dir p ∧ Inside root path
  resolved : ∀ dir names p target, .checked dir names p (.ok target) ∈ events →
    target.path = denoted dir p
  rejected : ∀ dir names p result, .checked dir names p result ∈ events →
    (.rootDir ∈ components p.module_ ∨ ¬Inside root (denoted dir p)) → ∃ e, result = .error e

variable {files files' : List (Path × String)} {parse : String → Except String Program}
  {cwd : Option Path} {root dir : Path} {names : List String} {p : Pull} {target : Target}

theorem memory_roots (entry : String) :
    (memoryHost files parse cwd).roots (normalize (components entry)) =
      ⟨projectRoot entry, none⟩ := by
  have hclean := parent_clean (entry_paths entry).1
  have hroot : (memoryHost files parse cwd).importRoot (normalize (components entry))
      (parent (normalize (components entry))) = none := by
    cases cwd <;> rfl
  rw [Host.roots, hroot, hclean.normalize_eq.1]
  rfl

theorem memory_confined (files : List (Path × String))
    (parse : String → Except String Program) (cwd : Option Path) (root : Path) (h : Clean dir) :
    (memoryHost files parse cwd).confined ⟨root, none⟩ dir = true ↔ root <+: dir := by
  have hconfined : (memoryHost files parse cwd).confined ⟨root, none⟩ dir =
      root.isPrefixOf (normalize dir) := rfl
  rw [hconfined, h.normalize_eq.1, List.isPrefixOf_iff_prefix]

/-- The checks of a `pull`, one after the other. -/
theorem resolvePull_memory (hdir : Clean dir) :
    (memoryHost files parse cwd).resolvePull ⟨root, none⟩ dir names p = .ok target ↔
      isBuiltinModule (pullName p) = false ∧ names.contains (pullName p) = false ∧
        .rootDir ∉ components p.module_ ∧ root <+: importPath dir p ∧
        target = ⟨pullName p, importPath dir p, p.module_ ++ ".bet"⟩ := by
  rw [Host.resolvePull]
  dsimp only
  rw [← pullName, ← importPath]
  by_cases hbuiltin : isBuiltinModule (pullName p) = true
  · simp [hbuiltin]
  · rw [if_neg hbuiltin]
    by_cases hfresh : names.contains (pullName p) = true
    · rw [if_pos hfresh]
      simp only [hfresh, reduceCtorEq, false_iff]
      rintro ⟨-, hfalse, -⟩
      cases hfalse
    · rw [if_neg hfresh]
      by_cases hrel : (components p.module_).contains .rootDir = true
      · rw [if_pos hrel]
        simp only [reduceCtorEq, false_iff]
        rintro ⟨-, -, hnot, -⟩
        exact hnot (List.contains_iff_mem.mp hrel)
      · rw [if_neg hrel]
        have hrel' : .rootDir ∉ components p.module_ :=
          fun hmem => hrel (List.contains_iff_mem.mpr hmem)
        have hconfined := memory_confined files parse cwd root (importPath_clean hdir hrel')
        by_cases hin : root <+: importPath dir p
        · rw [if_pos (hconfined.mpr hin)]
          simp only [Except.ok.injEq]
          constructor
          · rintro rfl
            exact ⟨by simpa using hbuiltin, by simpa using hfresh, hrel', hin, rfl⟩
          · rintro ⟨-, -, -, -, rfl⟩
            rfl
        · rw [if_neg fun h => hin (hconfined.mp h)]
          simp only [reduceCtorEq, false_iff]
          rintro ⟨-, -, -, hin', -⟩
          exact hin hin'

theorem resolvePull_clean (hdir : Clean dir)
    (h : (memoryHost files parse cwd).resolvePull ⟨root, none⟩ dir names p = .ok target) :
    Clean target.path ∧ Inside root target.path := by
  obtain ⟨-, -, hrel, hin, rfl⟩ := (resolvePull_memory hdir).mp h
  have hclean := importPath_clean hdir hrel
  exact ⟨hclean, hin, hclean.up⟩

/-- A check is that of the loader, for a file in a clean directory. -/
def EventOk (host : Host) (roots : Roots) : Event → Prop
  | .checked dir names p result => Clean dir ∧ result = host.resolvePull roots dir names p
  | .asked _ _ => True

/-- What the reader is asked for is what the load began with, or what a check has given. -/
def Linked (first : Option (Path × Pull) × Path) (events : List Event) : Prop :=
  ∀ importer path, .asked importer path ∈ events → (importer, path) = first ∨
    ∃ dir names p target, importer = some (dir, p) ∧ path = target.path ∧
      .checked dir names p (.ok target) ∈ events

variable {host : Host} {roots : Roots}

theorem importItemsLog_ok
    {load : Path × Pull → GraphBuilder → Path → String →
      List Event × Except Failure (Nat × GraphBuilder)} (hdir : Clean dir)
    (hload : ∀ names p target b, host.resolvePull roots dir names p = .ok target →
      ∀ e ∈ (load (dir, p) b target.path target.display).1, EventOk host roots e)
    (items : List Item) (imports : List Import) (b : GraphBuilder) :
    ∀ e ∈ (host.importItemsLog roots load dir items imports b).1, EventOk host roots e := by
  induction items generalizing imports b with
  | nil => simp [Host.importItemsLog]
  | cons item items ih =>
    cases item with
    | other => exact ih imports b
    | pull p =>
      rw [Host.importItemsLog]
      split
      · exact ih imports b
      · dsimp only
        cases hresult : host.resolvePull roots dir (imports.map (·.name)) p with
        | error e =>
          intro ev hev
          rw [List.mem_singleton.mp hev]
          exact ⟨hdir, hresult.symm⟩
        | ok target =>
          have hchecked : EventOk host roots
              (.checked dir (imports.map (·.name)) p (.ok target)) := ⟨hdir, hresult.symm⟩
          have htarget := hload _ p target b hresult
          dsimp only
          rcases hrun : load (dir, p) b target.path target.display with ⟨events, result⟩
          rw [hrun] at htarget
          cases result with
          | error e => exact List.forall_mem_cons.mpr ⟨hchecked, htarget⟩
          | ok loaded =>
            intro ev hev
            rcases List.mem_append.mp hev with hev | hev
            · exact List.forall_mem_cons.mpr ⟨hchecked, htarget⟩ ev hev
            · exact ih _ _ ev hev

theorem importItemsLog_linked (host : Host) (roots : Roots)
    (load : Path × Pull → GraphBuilder → Path → String →
      List Event × Except Failure (Nat × GraphBuilder))
    (hload : ∀ (p : Pull) (target : Target) (b : GraphBuilder), Linked (some (dir, p), target.path)
      (load (dir, p) b target.path target.display).1)
    (first : Option (Path × Pull) × Path) (items : List Item) (imports : List Import)
    (b : GraphBuilder) :
    Linked first (host.importItemsLog roots load dir items imports b).1 := by
  induction items generalizing imports b with
  | nil =>
    intro importer path hmem
    cases hmem
  | cons item items ih =>
    cases item with
    | other => exact ih imports b
    | pull p =>
      rw [Host.importItemsLog]
      split
      · exact ih imports b
      · dsimp only
        cases host.resolvePull roots dir (imports.map (·.name)) p with
        | error e =>
          intro importer path hmem
          cases List.mem_singleton.mp hmem
        | ok target =>
          have htarget : Linked first
              (.checked dir (imports.map (·.name)) p (.ok target) ::
                (load (dir, p) b target.path target.display).1) := by
            intro importer path hmem
            rcases List.mem_cons.mp hmem with heq | hmem
            · cases heq
            · rcases hload p target b importer path hmem with heq | ⟨d, n, q, t, himp, hpath, hin⟩
              · cases heq
                exact .inr ⟨dir, _, p, target, rfl, rfl, List.mem_cons_self⟩
              · exact .inr ⟨d, n, q, t, himp, hpath, List.mem_cons_of_mem _ hin⟩
          dsimp only
          rcases hrun : load (dir, p) b target.path target.display with ⟨events, result⟩
          rw [hrun] at htarget
          cases result with
          | error e => exact htarget
          | ok loaded =>
            intro importer path hmem
            rcases List.mem_append.mp hmem with hmem | hmem
            · exact (htarget importer path hmem).imp id fun ⟨d, n, q, t, himp, hpath, hin⟩ =>
                ⟨d, n, q, t, himp, hpath, List.mem_append_left _ hin⟩
            · exact (ih _ _ importer path hmem).imp id fun ⟨d, n, q, t, himp, hpath, hin⟩ =>
                ⟨d, n, q, t, himp, hpath, List.mem_append_right _ hin⟩

theorem loadFileLog_ok (fuel : Nat) (importer : Option (Path × Pull)) {path : Path}
    (hpath : Clean path) (b : GraphBuilder) (display : String) (isRoot : Bool) :
    ∀ e ∈ ((memoryHost files parse cwd).loadFileLog ⟨root, none⟩ fuel importer b path display
      isRoot).1, EventOk (memoryHost files parse cwd) ⟨root, none⟩ e := by
  induction fuel generalizing importer path b display isRoot with
  | zero => simp [Host.loadFileLog]
  | succ fuel ih =>
    rw [Host.loadFileLog]
    split
    · simp
    · split
      · simp
      · split
        · simp [EventOk]
        · split
          · simp [EventOk]
          · have hdir := parent_clean hpath
            refine List.forall_mem_cons.mpr ⟨trivial, importItemsLog_ok hdir ?_ _ _ _⟩
            intro names p target b' hresult
            exact ih _ (resolvePull_clean hdir hresult).1 _ _ _

theorem linked_nil (first : Option (Path × Pull) × Path) : Linked first [] := by
  intro importer path hmem
  cases hmem

theorem linked_one (importer : Option (Path × Pull)) (path : Path) :
    Linked (importer, path) [.asked importer path] := by
  intro importer' path' hmem
  cases List.mem_singleton.mp hmem
  exact .inl rfl

theorem loadFileLog_linked (host : Host) (roots : Roots) (fuel : Nat)
    (importer : Option (Path × Pull)) (path : Path) (b : GraphBuilder) (display : String)
    (isRoot : Bool) :
    Linked (importer, path) (host.loadFileLog roots fuel importer b path display isRoot).1 := by
  induction fuel generalizing importer path b display isRoot with
  | zero => exact linked_nil _
  | succ fuel ih =>
    rw [Host.loadFileLog]
    split
    · exact linked_nil _
    · split
      · exact linked_nil _
      · split
        · exact linked_one importer path
        · split
          · exact linked_one importer path
          · rename_i program hparse
            have hitems := importItemsLog_linked host roots
              (fun importer b path display =>
                host.loadFileLog roots fuel (some importer) b path display false)
              (fun p target b' => ih (some (parent path, p)) target.path b' target.display false)
              (importer, path) program.items [] (b.push path display)
            intro importer' path' hmem
            rcases List.mem_cons.mp hmem with heq | hmem
            · cases heq
              exact .inl rfl
            · exact (hitems importer' path' hmem).imp id fun ⟨d, n, q, t, himp, hpath, hin⟩ =>
                ⟨d, n, q, t, himp, hpath, List.mem_cons_of_mem _ hin⟩

theorem entry_asked (host : Host) (roots : Roots) (fuel : Nat) (importer : Option (Path × Pull))
    (path : Path) (display : String) (isRoot : Bool) :
    .asked importer path ∈
      (host.loadFileLog roots (fuel + 1) importer ⟨[], [], []⟩ path display isRoot).1 := by
  rw [Host.loadFileLog]
  have hopen : ¬(([] : List (Path × String)).map (·.1)).contains path = true := by simp
  rw [if_neg hopen]
  split
  · rename_i hlookup
    cases hlookup
  · split
    · exact List.mem_cons_self
    · split
      · exact List.mem_cons_self
      · exact List.mem_cons_self

/-- Two file maps that agree in the project. -/
def AgreeInside (root : Path) (files files' : List (Path × String)) : Prop :=
  ∀ path, Inside root path → files.lookup path = files'.lookup path

theorem importItems_agree {load load' : GraphBuilder → Path → String →
      Except Failure (Nat × GraphBuilder)}
    (hload : ∀ names p target b,
      (memoryHost files parse cwd).resolvePull ⟨root, none⟩ dir names p = .ok target →
        load b target.path target.display = load' b target.path target.display)
    (items : List Item) (imports : List Import) (b : GraphBuilder) :
    (memoryHost files parse cwd).importItems ⟨root, none⟩ load dir items imports b =
      (memoryHost files' parse cwd).importItems ⟨root, none⟩ load' dir items imports b := by
  induction items generalizing imports b with
  | nil => rfl
  | cons item items ih =>
    cases item with
    | other => exact ih imports b
    | pull p =>
      have hsame : (memoryHost files' parse cwd).resolvePull ⟨root, none⟩ dir
          (imports.map (·.name)) p =
          (memoryHost files parse cwd).resolvePull ⟨root, none⟩ dir (imports.map (·.name)) p := rfl
      rw [Host.importItems, Host.importItems, hsame]
      split
      · exact ih imports b
      · cases hresult : (memoryHost files parse cwd).resolvePull ⟨root, none⟩ dir
            (imports.map (·.name)) p with
        | error e => rfl
        | ok target =>
          dsimp only
          rw [hload _ p target b hresult]
          cases load' b target.path target.display with
          | error e => rfl
          | ok loaded => exact ih _ _

theorem loadFile_agree (hagree : AgreeInside root files files') (fuel : Nat) {path : Path}
    (hpath : Clean path) (hin : Inside root path) (b : GraphBuilder) (display : String)
    (isRoot : Bool) :
    (memoryHost files parse cwd).loadFile ⟨root, none⟩ fuel b path display isRoot =
      (memoryHost files' parse cwd).loadFile ⟨root, none⟩ fuel b path display isRoot := by
  induction fuel generalizing path b display isRoot with
  | zero => rfl
  | succ fuel ih =>
    have hread : (memoryHost files parse cwd).read path =
        (memoryHost files' parse cwd).read path := by
      have hlookup : (memoryHost files parse cwd).files.lookup path =
          (memoryHost files' parse cwd).files.lookup path := hagree path hin
      rw [Host.read, Host.read, hlookup]
    have hparse : (memoryHost files' parse cwd).parse = (memoryHost files parse cwd).parse := rfl
    have hitems : ∀ items b', (memoryHost files parse cwd).importItems ⟨root, none⟩
        (fun b path display =>
          (memoryHost files parse cwd).loadFile ⟨root, none⟩ fuel b path display false)
        (parent path) items [] b' =
        (memoryHost files' parse cwd).importItems ⟨root, none⟩
          (fun b path display =>
            (memoryHost files' parse cwd).loadFile ⟨root, none⟩ fuel b path display false)
          (parent path) items [] b' := by
      intro items b'
      refine importItems_agree (fun names p target b hresult => ?_) items [] b'
      obtain ⟨hclean, hinside⟩ := resolvePull_clean (parent_clean hpath) hresult
      exact ih hclean hinside _ _ _
    rw [Host.loadFile, Host.loadFile, hread, hparse]
    simp only [hitems]

/-- Which file maps agree in the project makes no difference to a load. -/
theorem loadGraph_agree {entry : String} (hagree : AgreeInside (projectRoot entry) files files')
    (fuel : Nat) :
    (memoryHost files parse cwd).loadGraphWith fuel (components entry) =
      (memoryHost files' parse cwd).loadGraphWith fuel (components entry) := by
  have hclean := (entry_paths entry).1
  have hin : Inside (projectRoot entry) (normalize (components entry)) :=
    ⟨parent_ancestor _, hclean.up⟩
  rw [Host.loadGraphWith, Host.loadGraphWith, memory_roots, memory_roots,
    loadFile_agree hagree fuel hclean hin]

/-- The events of a load are confined where nothing climbs unnoticed. -/
theorem confined_iff {events : List Event} {entry : String}
    (hok : ∀ e ∈ events, EventOk (memoryHost files parse cwd) ⟨root, none⟩ e)
    (hlinked : Linked (none, normalize (components entry)) events)
    (hasked : .asked none (normalize (components entry)) ∈ events) :
    Confined root entry events ↔ .parentDir ∉ lexical (components entry) ∧
      ∀ dir names p result, .checked dir names p result ∈ events →
        ¬Redirected root dir names p := by
  obtain ⟨hclean, hentry⟩ := entry_paths entry
  constructor
  · intro h
    constructor
    · rw [← h.entry _ hasked]
      exact hclean.up
    · intro dir names p result hchecked hr
      obtain ⟨hdir, rfl⟩ := hok _ hchecked
      rw [(resolvePull_memory hdir).mpr
        ⟨hr.builtin, hr.fresh, hr.relative, hr.inside, rfl⟩] at hchecked
      have hpath : importPath dir p = denoted dir p := h.resolved _ _ _ _ hchecked
      exact (importPath_clean hdir hr.relative).up (hpath ▸ hr.climbs)
  · rintro ⟨hup, hno⟩
    have hresolved : ∀ dir names p target, .checked dir names p (.ok target) ∈ events →
        .rootDir ∉ components p.module_ ∧ target.path = denoted dir p ∧
          Inside root target.path := by
      intro dir names p target hchecked
      obtain ⟨hdir, hresult⟩ := hok _ hchecked
      obtain ⟨hbuiltin, hfresh, hrel, hin, rfl⟩ := (resolvePull_memory hdir).mp hresult.symm
      refine ⟨hrel, importPath_eq hdir hrel fun hclimbs => ?_, hin,
        (importPath_clean hdir hrel).up⟩
      exact hno dir names p _ hchecked ⟨hbuiltin, hfresh, hrel, hclimbs, hin⟩
    refine ⟨fun path hmem => ?_, fun dir p path hmem => ?_, fun dir names p target hmem => ?_,
      fun dir names p result hmem hout => ?_⟩
    · rcases hlinked _ _ hmem with heq | ⟨_, _, _, _, himp, _⟩
      · cases heq
        exact hentry hup
      · cases himp
    · rcases hlinked _ _ hmem with heq | ⟨dir', names, p', target, himp, rfl, hchecked⟩
      · cases heq
      · cases himp
        exact (hresolved _ _ _ _ hchecked).2
    · exact (hresolved _ _ _ _ hmem).2.1
    · cases result with
      | error e => exact ⟨e, rfl⟩
      | ok target =>
        obtain ⟨hrel, hpath, hin⟩ := hresolved _ _ _ _ hmem
        rcases hout with habs | hout
        · exact absurd habs hrel
        · exact absurd (hpath ▸ hin) hout

/-- Reads stay in the project, and go where the imports say, where neither the entry nor an import
climbs above the start of its path unnoticed; what is outside never matters. -/
theorem imports_confined_iff (files : List (Path × String))
    (parse : String → Except String Program) (cwd : Option Path) (entry : String) (fuel : Nat) :
    (Confined (projectRoot entry) entry
        ((memoryHost files parse cwd).loadGraphLog (fuel + 1) (components entry)).1 ↔
      .parentDir ∉ lexical (components entry) ∧
        ∀ dir names p result,
          .checked dir names p result ∈
            ((memoryHost files parse cwd).loadGraphLog (fuel + 1) (components entry)).1 →
          ¬Redirected (projectRoot entry) dir names p) ∧
    ((memoryHost files parse cwd).loadGraphLog (fuel + 1) (components entry)).2 =
      (memoryHost files parse cwd).loadGraphWith (fuel + 1) (components entry) ∧
    ∀ files', AgreeInside (projectRoot entry) files files' →
      (memoryHost files parse cwd).loadGraphWith (fuel + 1) (components entry) =
        (memoryHost files' parse cwd).loadGraphWith (fuel + 1) (components entry) := by
  refine ⟨?_, loadGraphLog_result _ _ _, fun files' hagree => loadGraph_agree hagree _⟩
  rw [Host.loadGraphLog, memory_roots]
  exact confined_iff (loadFileLog_ok _ _ (entry_paths entry).1 _ _ _)
    (loadFileLog_linked _ _ _ _ _ _ _ _) (entry_asked _ _ _ _ _ _ _)

/-- `main.bet` pulls `../x`. -/
def climbing : Host :=
  memoryHost [([.normal "main.bet"], "main"), ([.normal "x.bet"], "x")]
    (fun source => .ok ⟨if source = "main" then [.pull ⟨"../x", none⟩] else []⟩) none

/-- It is given its sibling `x.bet`. -/
theorem climb_redirected :
    ¬Confined (projectRoot "main.bet") "main.bet"
      (climbing.loadGraphLog 2 (components "main.bet")).1 := by
  intro h
  have hchecked : .checked [] [] ⟨"../x", none⟩ (.ok ⟨"x", [.normal "x.bet"], "../x.bet"⟩) ∈
      (climbing.loadGraphLog 2 (components "main.bet")).1 := by
    have hlog : (climbing.loadGraphLog 2 (components "main.bet")).1 =
        [.asked none [.normal "main.bet"],
          .checked [] [] ⟨"../x", none⟩ (.ok ⟨"x", [.normal "x.bet"], "../x.bet"⟩),
          .asked (some ([], ⟨"../x", none⟩)) [.normal "x.bet"]] := by rfl
    simp [hlog]
  have hpath : [.normal "x.bet"] = denoted [] ⟨"../x", none⟩ := h.resolved _ _ _ _ hchecked
  exact absurd hpath (by decide)

end Memory

end BetLang.Loading
