import BetLang.PostOrder

/-! The module loader: paths, the checks on an import, and the walk over the import graph. -/

namespace BetLang.Loading

inductive Component where
  | rootDir
  | curDir
  | parentDir
  | normal (name : String)
  deriving DecidableEq, Repr

/-- A path as its components. -/
abbrev Path := List Component

def splitSlash : List Char → List (List Char)
  | [] => [[]]
  | c :: cs =>
    if c = '/' then [] :: splitSlash cs
    else
      match splitSlash cs with
      | [] => [[c]]
      | part :: parts => (c :: part) :: parts

def component (part : List Char) : Component :=
  if part = ['.'] then .curDir
  else if part = ['.', '.'] then .parentDir
  else .normal (String.ofList part)

/-- The components of a path string: empty parts are dropped, and so is `.` except at the start of a
relative path. -/
def components (s : String) : Path :=
  let chars := s.toList
  let parts := ((splitSlash chars).filter (!·.isEmpty)).map component
  if chars.head? = some '/' then .rootDir :: parts.filter (· ≠ .curDir)
  else parts.take 1 ++ (parts.drop 1).filter (· ≠ .curDir)

def isAbsolute (path : Path) : Bool := path.head? == some .rootDir

/-- An absolute path replaces what it is joined to. -/
def join (base target : Path) : Path := if isAbsolute target then target else base ++ target

def parent : Path → Path
  | [] => []
  | [.rootDir] => []
  | path => path.dropLast

def fileName (path : Path) : Option String :=
  match path.getLast? with
  | some (.normal name) => some name
  | _ => none

/-- The name without its extension; a dot at the start does not begin one. -/
def fileStem (name : String) : String :=
  match name.toList.reverse.dropWhile (· ≠ '.') with
  | [] | [_] => name
  | _ :: stem => String.ofList stem.reverse

def stemOf (path : Path) : String := ((fileName path).map fileStem).getD ""

def Component.text : Component → String
  | .rootDir => "/"
  | .curDir => "."
  | .parentDir => ".."
  | .normal name => name

def display (path : Path) : String :=
  if isAbsolute path then "/" ++ String.intercalate "/" (path.tail.map Component.text)
  else String.intercalate "/" (path.map Component.text)

/-- `.` goes, and `..` takes a normal segment before it away, or nothing. -/
def normalizeFrom : Path → Path → Path
  | out, [] => out
  | out, .curDir :: rest => normalizeFrom out rest
  | out, .parentDir :: rest =>
    match out.getLast? with
    | some (.normal _) => normalizeFrom out.dropLast rest
    | _ => normalizeFrom out rest
  | _, .rootDir :: rest => normalizeFrom [.rootDir] rest
  | out, .normal name :: rest => normalizeFrom (out ++ [.normal name]) rest

def normalize (path : Path) : Path := normalizeFrom [] path

def isBuiltinModule (name : String) : Bool :=
  ["spill", "str", "math", "mem", "bytes", "fmt", "stash", "vec", "yikes", "fs", "sys", "gg",
    "squadops", "time", "net"].contains name

structure Pull where
  module_ : String
  alias_ : Option String
  deriving DecidableEq, Repr

inductive Item where
  | pull (p : Pull)
  | other
  deriving DecidableEq, Repr

structure Program where
  items : List Item
  deriving DecidableEq, Repr

structure Import where
  name : String
  target : Nat
  deriving DecidableEq, Repr

structure LoadedModule where
  stem : String
  isRoot : Bool
  program : Program
  imports : List Import
  deriving DecidableEq, Repr

inductive LoadError where
  | cycle (chain : List String)
  | reading (display error : String)
  | parsing (display error : String)
  | builtinNamespace (module_ name : String)
  | importedTwice (name : String)
  | absolute (module_ : String)
  | escapes (module_ : String)
  deriving DecidableEq, Repr

def LoadError.message : LoadError → String
  | .cycle chain => "import cycle: " ++ String.intercalate " -> " chain
  | .reading display error => s!"reading \"{display}\": {error}"
  | .parsing display error => s!"in \"{display}\": {error}"
  | .builtinNamespace module_ name =>
    s!"import \"{module_}\" binds namespace `{name}`, which is a built-in module name — add an " ++
      "`as` alias"
  | .importedTwice name => s!"namespace `{name}` is imported twice — add an `as` alias"
  | .absolute module_ =>
    s!"pull \"{module_}\" is an absolute path — keep imports relative and inside the project, fr"
  | .escapes module_ =>
    s!"pull \"{module_}\" escapes the project root — imports gotta stay inside the project, no cap"

/-- What the loader is given: a finite map from normalized paths to sources, the parser, and what the
host says about directories. -/
structure Host where
  files : List (Path × String)
  parse : String → Except String Program
  cwd : Option Path
  canonicalize : Path → Option Path

def Host.read (host : Host) (path : Path) : Except String String :=
  match host.files.lookup path with
  | some source => .ok source
  | none => .error "no such file"

/-- The directories that imports are confined to. -/
structure Roots where
  lexical : Path
  canonical : Option Path
  deriving DecidableEq, Repr

def Host.absolutize (host : Host) (target : Path) : Path :=
  if isAbsolute target then normalize target
  else
    match host.cwd with
    | some cwd => normalize (join cwd target)
    | none => normalize target

def Host.confined (host : Host) (roots : Roots) (target : Path) : Bool :=
  match roots.canonical with
  | some root => root.isPrefixOf ((host.canonicalize target).getD (host.absolutize target))
  | none => roots.lexical.isPrefixOf (normalize target)

def Host.importRoot (host : Host) (entry entryDir : Path) : Option Path :=
  match host.cwd, host.canonicalize entry with
  | some cwd, some entryAbs =>
    if cwd.isPrefixOf entryAbs then some cwd else host.canonicalize entryDir
  | _, _ => host.canonicalize entryDir

/-- An import that passed its checks. -/
structure Target where
  name : String
  path : Path
  display : String
  deriving DecidableEq, Repr

/-- The checks on a `pull` of a file, where `names` are the namespaces bound before it. -/
def Host.resolvePull (host : Host) (roots : Roots) (dir : Path) (names : List String) (p : Pull) :
    Except LoadError Target :=
  let name := p.alias_.getD (stemOf (components p.module_))
  if isBuiltinModule name then .error (.builtinNamespace p.module_ name)
  else if names.contains name then .error (.importedTwice name)
  else if (components p.module_).contains .rootDir then .error (.absolute p.module_)
  else
    let targetDisplay := p.module_ ++ ".bet"
    let targetPath := normalize (join dir (components targetDisplay))
    if host.confined roots targetPath then .ok ⟨name, targetPath, targetDisplay⟩
    else .error (.escapes p.module_)

structure GraphBuilder where
  modules : List LoadedModule
  loaded : List (Path × Nat)
  stack : List (Path × String)
  deriving DecidableEq, Repr

/-- A load stops with an error, or because the model's fuel has run out. -/
inductive Failure where
  | load (error : LoadError)
  | fuel
  deriving DecidableEq, Repr

/-- The imports of one file, in order; `load` loads a file and gives its index. -/
def Host.importItems (host : Host) (roots : Roots)
    (load : GraphBuilder → Path → String → Except Failure (Nat × GraphBuilder)) (dir : Path) :
    List Item → List Import → GraphBuilder → Except Failure (List Import × GraphBuilder)
  | [], imports, b => .ok (imports, b)
  | .other :: items, imports, b => host.importItems roots load dir items imports b
  | .pull p :: items, imports, b =>
    if isBuiltinModule p.module_ then host.importItems roots load dir items imports b
    else
      match host.resolvePull roots dir (imports.map (·.name)) p with
      | .error e => .error (.load e)
      | .ok target =>
        (load b target.path target.display).bind fun (index, b) =>
          host.importItems roots load dir items (imports ++ [⟨target.name, index⟩]) b

def GraphBuilder.push (b : GraphBuilder) (path : Path) (display : String) : GraphBuilder :=
  { b with stack := b.stack ++ [(path, display)] }

def GraphBuilder.finish (b : GraphBuilder) (path : Path) (isRoot : Bool) (program : Program)
    (imports : List Import) : Nat × GraphBuilder :=
  let index := b.modules.length
  (index, ⟨b.modules ++ [⟨stemOf path, isRoot, program, imports⟩], (path, index) :: b.loaded,
    b.stack.dropLast⟩)

/-- At most `fuel` nested loads. -/
def Host.loadFile (host : Host) (roots : Roots) :
    Nat → GraphBuilder → Path → String → Bool → Except Failure (Nat × GraphBuilder)
  | 0, _, _, _, _ => .error .fuel
  | fuel + 1, b, path, display, isRoot =>
    match b.loaded.lookup path with
    | some index => .ok (index, b)
    | none =>
      if (b.stack.map (·.1)).contains path then
        .error (.load (.cycle (b.stack.map (·.2) ++ [display])))
      else
        match host.read path with
        | .error e => .error (.load (.reading display e))
        | .ok source =>
          match host.parse source with
          | .error e => .error (.load (.parsing display e))
          | .ok program =>
            (host.importItems roots (fun b path display => host.loadFile roots fuel b path display false)
              (parent path) program.items [] (b.push path display)).bind fun (imports, b) =>
                .ok (b.finish path isRoot program imports)

def Host.roots (host : Host) (entry : Path) : Roots :=
  ⟨normalize (parent entry), host.importRoot entry (parent entry)⟩

def Host.loadGraphWith (host : Host) (fuel : Nat) (entry : Path) :
    Except Failure (List LoadedModule) :=
  let entry := normalize entry
  (host.loadFile (host.roots entry) fuel ⟨[], [], []⟩ entry
    ((fileName entry).getD (display entry)) true).map fun loaded => loaded.2.modules

end BetLang.Loading
