import BetLang.AstDump

/-! The tree whose lines are the dump of a program. -/

namespace BetLang.AstDump

open Mangling (Ident)
open Outline (Branch forestLines)
open Surface

def node (head : Head) (words : List Word) (ts : List (Branch Line)) : Branch Line :=
  .node ⟨head, words⟩ ts

@[simp] theorem node_lines (d : Nat) (head : Head) (words : List Word) (ts : List (Branch Line)) :
    (node head words ts).lines d = line d head words ++ forestLines (d + 1) ts := by
  simp [node, line]

section Trees

mutual

def tyTree : Ty Ident → Branch Line
  | .slice inner => node .slice [] [tyTree inner]
  | .array inner n => node .array [sizeWord n] [tyTree inner]
  | .tag inner => node .tag [] [tyTree inner]
  | .crib inner => node .cribTy [] [tyTree inner]
  | .soa inner => node .soa [] [tyTree inner]
  | .fn params ret => node .fnTy [] [node .params [] (tyTrees params), node .ret [] [tyTree ret]]
  | .rawPtr => node .rawptr [] []
  | .named name gens => node .named [pathWord name] (tyTrees gens)

def tyTrees : List (Ty Ident) → List (Branch Line)
  | [] => []
  | t :: ts => tyTree t :: tyTrees ts

end

def optTyTrees : Option (Ty Ident) → List (Branch Line)
  | none => []
  | some t => [tyTree t]

def typedTrees : Option (Ty Ident) → List (Branch Line)
  | none => []
  | some t => [node .type [] [tyTree t]]

def typeargsTrees : List (Ty Ident) → List (Branch Line)
  | [] => []
  | t :: ts => [node .typeargs [] (tyTree t :: tyTrees ts)]

def genericsTree (g : List Ident) : Branch Line := node .generics (g.map identWord) []

def paramTree (p : Param Ident) : Branch Line := node .param [identWord p.name] [tyTree p.ty]

def paramsTree (ps : List (Param Ident)) : Branch Line := node .params [] (ps.map paramTree)

def retTree : RetType Ident → Branch Line
  | .none => node .ret [noneWord] []
  | .single t => node .ret [singleWord] [tyTree t]
  | .multi ts => node .ret [multiWord] (tyTrees ts)

variable {F : Type} (fl : Floats F)

mutual

def exprTree : Expr Ident F → Branch Line
  | .int n => node .int [intWord n] []
  | .float f => node .float [floatWord fl f] []
  | .str s => node .str [strWord s] []
  | .byte b => node .byte [byteWord b] []
  | .bool b => node .bool [boolStr b] []
  | .ghosted => node .ghosted [] []
  | .name name gens => node .name [identWord name] (typeargsTrees gens)
  | .unary op x => node .unary [unopStr op] [exprTree x]
  | .binary op l r => node .binary [binopStr op] [exprTree l, exprTree r]
  | .cast x t => node .cast [] [exprTree x, tyTree t]
  | .field base name gens => node .field [identWord name] (exprTree base :: typeargsTrees gens)
  | .method receiver method gens args =>
    node .method [identWord method]
      (node .receiver [] [exprTree receiver] :: (typeargsTrees gens ++
        [node .args [] (argTrees args)]))
  | .call callee args =>
    node .call [] [node .callee [] [exprTree callee], node .args [] (argTrees args)]
  | .index base index => node .index [] [exprTree base, exprTree index]
  | .trust tag crib => node .trust [] [exprTree tag, exprTree crib]
  | .struct lit => structTree lit
  | .array elems => node .arrayLit [] (exprTrees elems)
  | .cop init crib => node .cop [] [copTree init, node .crib [] [exprTree crib]]

def exprTrees : List (Expr Ident F) → List (Branch Line)
  | [] => []
  | e :: es => exprTree e :: exprTrees es

def structTree : StructLit Ident F → Branch Line
  | .mk name gens fields =>
    node .struct [pathWord name] (typeargsTrees gens ++ [node .fields [] (fieldTrees fields)])

def fieldTrees : List (FieldInit Ident F) → List (Branch Line)
  | [] => []
  | .mk name value :: fs => node .field [identWord name] [exprTree value] :: fieldTrees fs

def argTrees : List (Arg Ident F) → List (Branch Line)
  | [] => []
  | .mk label value :: as => node .arg (labelWords label) [exprTree value] :: argTrees as

def copTree : CopInit Ident F → Branch Line
  | .struct lit => structTree lit
  | .variant name args => node .variant [pathWord name] [node .args [] (argTrees args)]

end

def cribTree (c : CribDecl Ident) : Branch Line :=
  node .crib [visStr c.vis, identWord c.name] (optTyTrees c.ty)

def constTree (c : ConstDecl Ident F) : Branch Line :=
  node .const [visStr c.vis, identWord c.name]
    (typedTrees c.ty ++ [node .value [] [exprTree fl c.value]])

def varTree (v : VarDecl Ident F) : Branch Line :=
  node .var (visStr v.vis :: identWord v.target :: v.targets.map identWord)
    (typedTrees v.ty ++ [node .values [] (exprTrees fl v.values)])

mutual

def blockTree : Block Ident F → Branch Line
  | .mk stmts => node .block [] (stmtTrees stmts)

def stmtTrees : List (Stmt Ident F) → List (Branch Line)
  | [] => []
  | s :: ss => stmtTree s :: stmtTrees ss

def stmtTree : Stmt Ident F → Branch Line
  | .var v => varTree fl v
  | .const c => constTree fl c
  | .crib c => cribTree c
  | .fr cond body elifs els =>
    node .fr [] (exprTree fl cond :: blockTree body ::
      (elifTrees elifs ++ optBlockTrees .els els))
  | .vibin cond body => node .vibin [] [exprTree fl cond, blockTree body]
  | .squad var iter body => node .squad [identWord var] [exprTree fl iter, blockTree body]
  | .vibe scrutinee arms default =>
    node .vibe [] (exprTree fl scrutinee :: (armTrees arms ++ optBlockTrees .default default))
  | .holla binding tag crib live ghosted =>
    node .holla [identWord binding]
      [node .tag [] [exprTree fl tag], node .crib [] [exprTree fl crib],
        node .live [] [blockTree live], node .ghosted [] [blockTree ghosted]]
  | .sheesh body recover => node .sheesh [] (blockTree body :: recoverTrees recover)
  | .evict crib none => node .evict [] [exprTree fl crib]
  | .evict crib (some tag) => node .evictSlot [] [exprTree fl tag, exprTree fl crib]
  | .slide e => node .slide [] [exprTree fl e]
  | .bet values => node .bet [] (exprTrees fl values)
  | .bounce e => node .bounce [] [exprTree fl e]
  | .yeet e => node .yeet [] [exprTree fl e]
  | .dip => node .dip [] []
  | .skip => node .skip [] []
  | .assign targets op values =>
    node .assign [assignOpStr op]
      [node .targets [] (exprTrees fl targets), node .values [] (exprTrees fl values)]
  | .expr e => node .exprStmt [] [exprTree fl e]

def elifTrees : List (Elif Ident F) → List (Branch Line)
  | [] => []
  | .mk cond body :: es => node .elif [] [exprTree fl cond, blockTree body] :: elifTrees es

def armTrees : List (MatchArm Ident F) → List (Branch Line)
  | [] => []
  | .mk variant bindings body :: as =>
    node .arm (pathWord variant :: bindings.map identWord) [blockTree body] :: armTrees as

def optBlockTrees (head : Head) : Option (Block Ident F) → List (Branch Line)
  | none => []
  | some b => [node head [] [blockTree b]]

def recoverTrees : Option (Recover Ident F) → List (Branch Line)
  | none => []
  | some (.mk name body) => [node .recover [identWord name] [blockTree body]]

end

def receiverTrees : Option (Param Ident) → List (Branch Line)
  | none => []
  | some r => [node .receiver [identWord r.name] [tyTree r.ty]]

def fieldDeclTree (f : FieldDecl Ident) : Branch Line :=
  node .field [fieldVis f.vis, identWord f.name] [tyTree f.ty]

def variantTree (v : Variant Ident) : Branch Line :=
  node .variant [identWord v.name] (tyTrees v.payload)

def itemTree : Item Ident F → Branch Line
  | .pull p => node .pull (strWord p.module :: aliasWords p.aliasName) []
  | .func f =>
    node .func [visStr f.vis, identWord f.name] (receiverTrees f.receiver ++
      [genericsTree f.generics, paramsTree f.params, retTree f.ret, blockTree fl f.body])
  | .drip s =>
    node .drip [visStr s.vis, identWord s.name]
      (genericsTree s.generics :: s.fields.map fieldDeclTree)
  | .moods m =>
    node .moods [visStr m.vis, identWord m.name]
      (genericsTree m.generics :: m.variants.map variantTree)
  | .crib c => cribTree c
  | .const c => constTree fl c
  | .var v => varTree fl v
  | .externFn e =>
    node .externFn [strWord e.abi, identWord e.name] [paramsTree e.params, retTree e.ret]

def programTree (p : Program Ident F) : Branch Line := node .program [] (p.items.map (itemTree fl))

end Trees

section Agreement

mutual

theorem ty_lines : ∀ (t : Ty Ident) (d : Nat), ty d t = (tyTree t).lines d
  | .slice inner, d => by simp [ty, tyTree, ty_lines inner]
  | .array inner n, d => by simp [ty, tyTree, ty_lines inner]
  | .tag inner, d => by simp [ty, tyTree, ty_lines inner]
  | .crib inner, d => by simp [ty, tyTree, ty_lines inner]
  | .soa inner, d => by simp [ty, tyTree, ty_lines inner]
  | .fn params ret, d => by simp [ty, tyTree, ty_lines ret, tys_lines params]
  | .rawPtr, d => by simp [ty, tyTree]
  | .named name gens, d => by simp [ty, tyTree, tys_lines gens]

theorem tys_lines : ∀ (ts : List (Ty Ident)) (d : Nat), tys d ts = forestLines d (tyTrees ts)
  | [], d => by simp [tys, tyTrees]
  | t :: ts, d => by simp [tys, tyTrees, ty_lines t, tys_lines ts]

end

theorem optTy_lines (d : Nat) (t : Option (Ty Ident)) :
    optTy d t = forestLines d (optTyTrees t) := by
  cases t <;> simp [optTy, optTyTrees, ty_lines]

theorem typed_lines (d : Nat) (t : Option (Ty Ident)) :
    typed d t = forestLines d (typedTrees t) := by
  cases t <;> simp [typed, typedTrees, ty_lines]

theorem typeargs_lines (d : Nat) (g : List (Ty Ident)) :
    typeargs d g = forestLines d (typeargsTrees g) := by
  cases g <;> simp [typeargs, typeargsTrees, tys, ty_lines, tys_lines]

/-- Lines written one node after the other are those of the forest. -/
theorem flatMap_lines {α : Type} {f : α → Lines} {tree : α → Branch Line} {d : Nat}
    (h : ∀ a, f a = (tree a).lines d) (l : List α) :
    l.flatMap f = forestLines d (l.map tree) := by
  induction l with
  | nil => simp
  | cons a l ih => simp [h, ih]

theorem generics_lines (d : Nat) (g : List Ident) : generics d g = (genericsTree g).lines d := by
  simp [generics, genericsTree]

theorem params_lines (d : Nat) (ps : List (Param Ident)) :
    params d ps = (paramsTree ps).lines d := by
  have hparams : (ps.flatMap fun p => line (d + 1) .param [identWord p.name] ++ ty (d + 2) p.ty) =
      forestLines (d + 1) (ps.map paramTree) :=
    flatMap_lines (fun p => by simp [paramTree, ty_lines]) ps
  simp [params, paramsTree, hparams]

theorem ret_lines (d : Nat) (r : RetType Ident) : ret d r = (retTree r).lines d := by
  cases r <;> simp [ret, retTree, ty_lines, tys_lines]

variable {F : Type} (fl : Floats F)

mutual

theorem expr_lines : ∀ (e : Expr Ident F) (d : Nat), expr fl d e = (exprTree fl e).lines d
  | .int n, d => by simp [expr, exprTree]
  | .float f, d => by simp [expr, exprTree]
  | .str s, d => by simp [expr, exprTree]
  | .byte b, d => by simp [expr, exprTree]
  | .bool b, d => by simp [expr, exprTree]
  | .ghosted, d => by simp [expr, exprTree]
  | .name name gens, d => by simp [expr, exprTree, typeargs_lines]
  | .unary op x, d => by simp [expr, exprTree, expr_lines x]
  | .binary op l r, d => by simp [expr, exprTree, expr_lines l, expr_lines r]
  | .cast x t, d => by simp [expr, exprTree, expr_lines x, ty_lines]
  | .field base name gens, d => by simp [expr, exprTree, expr_lines base, typeargs_lines]
  | .method receiver method gens args, d => by
    simp [expr, exprTree, expr_lines receiver, typeargs_lines, argList_lines args]
  | .call callee args, d => by simp [expr, exprTree, expr_lines callee, argList_lines args]
  | .index base index, d => by simp [expr, exprTree, expr_lines base, expr_lines index]
  | .trust tag crib, d => by simp [expr, exprTree, expr_lines tag, expr_lines crib]
  | .struct lit, d => by simp [expr, exprTree, structLit_lines lit]
  | .array elems, d => by simp [expr, exprTree, exprs_lines elems]
  | .cop init crib, d => by simp [expr, exprTree, copInit_lines init, expr_lines crib]

theorem exprs_lines : ∀ (es : List (Expr Ident F)) (d : Nat),
    exprs fl d es = forestLines d (exprTrees fl es)
  | [], d => by simp [exprs, exprTrees]
  | e :: es, d => by simp [exprs, exprTrees, expr_lines e, exprs_lines es]

theorem structLit_lines : ∀ (s : StructLit Ident F) (d : Nat),
    structLit fl d s = (structTree fl s).lines d
  | .mk name gens fields, d => by
    simp [structLit, structTree, typeargs_lines, fieldList_lines fields]

theorem fieldList_lines : ∀ (fs : List (FieldInit Ident F)) (d : Nat),
    fieldList fl d fs = forestLines d (fieldTrees fl fs)
  | [], d => by simp [fieldList, fieldTrees]
  | .mk name value :: fs, d => by
    simp [fieldList, fieldTrees, expr_lines value, fieldList_lines fs]

theorem argList_lines : ∀ (as : List (Arg Ident F)) (d : Nat),
    argList fl d as = forestLines d (argTrees fl as)
  | [], d => by simp [argList, argTrees]
  | .mk label value :: as, d => by
    simp [argList, argTrees, expr_lines value, argList_lines as]

theorem copInit_lines : ∀ (c : CopInit Ident F) (d : Nat),
    copInit fl d c = (copTree fl c).lines d
  | .struct lit, d => by simp [copInit, copTree, structLit_lines lit]
  | .variant name args, d => by simp [copInit, copTree, argList_lines args]

end

theorem cribDecl_lines (d : Nat) (c : CribDecl Ident) : cribDecl d c = (cribTree c).lines d := by
  simp [cribDecl, cribTree, optTy_lines]

theorem constDecl_lines (d : Nat) (c : ConstDecl Ident F) :
    constDecl fl d c = (constTree fl c).lines d := by
  simp [constDecl, constTree, typed_lines, expr_lines]

theorem varDecl_lines (d : Nat) (v : VarDecl Ident F) :
    varDecl fl d v = (varTree fl v).lines d := by
  simp [varDecl, varTree, typed_lines, exprs_lines]

mutual

theorem block_lines : ∀ (b : Block Ident F) (d : Nat), block fl d b = (blockTree fl b).lines d
  | .mk stmts, d => by simp [block, blockTree, stmtList_lines stmts]

theorem stmtList_lines : ∀ (ss : List (Stmt Ident F)) (d : Nat),
    stmtList fl d ss = forestLines d (stmtTrees fl ss)
  | [], d => by simp [stmtList, stmtTrees]
  | s :: ss, d => by simp [stmtList, stmtTrees, stmt_lines s, stmtList_lines ss]

theorem stmt_lines : ∀ (s : Stmt Ident F) (d : Nat), stmt fl d s = (stmtTree fl s).lines d
  | .var v, d => by simp [stmt, stmtTree, varDecl_lines]
  | .const c, d => by simp [stmt, stmtTree, constDecl_lines]
  | .crib c, d => by simp [stmt, stmtTree, cribDecl_lines]
  | .fr cond body elifs els, d => by
    simp [stmt, stmtTree, expr_lines, block_lines body, elifList_lines elifs, optBlock_lines els]
  | .vibin cond body, d => by simp [stmt, stmtTree, expr_lines, block_lines body]
  | .squad var iter body, d => by simp [stmt, stmtTree, expr_lines, block_lines body]
  | .vibe scrutinee arms default, d => by
    simp [stmt, stmtTree, expr_lines, armList_lines arms, optBlock_lines default]
  | .holla binding tag crib live ghosted, d => by
    simp [stmt, stmtTree, expr_lines, block_lines live, block_lines ghosted]
  | .sheesh body recover, d => by
    simp [stmt, stmtTree, block_lines body, optRecover_lines recover]
  | .evict crib none, d => by simp [stmt, stmtTree, expr_lines]
  | .evict crib (some tag), d => by simp [stmt, stmtTree, expr_lines]
  | .slide e, d => by simp [stmt, stmtTree, expr_lines]
  | .bet values, d => by simp [stmt, stmtTree, exprs_lines]
  | .bounce e, d => by simp [stmt, stmtTree, expr_lines]
  | .yeet e, d => by simp [stmt, stmtTree, expr_lines]
  | .dip, d => by simp [stmt, stmtTree]
  | .skip, d => by simp [stmt, stmtTree]
  | .assign targets op values, d => by simp [stmt, stmtTree, exprs_lines]
  | .expr e, d => by simp [stmt, stmtTree, expr_lines]

theorem elifList_lines : ∀ (es : List (Elif Ident F)) (d : Nat),
    elifList fl d es = forestLines d (elifTrees fl es)
  | [], d => by simp [elifList, elifTrees]
  | .mk cond body :: es, d => by
    simp [elifList, elifTrees, expr_lines, block_lines body, elifList_lines es]

theorem armList_lines : ∀ (as : List (MatchArm Ident F)) (d : Nat),
    armList fl d as = forestLines d (armTrees fl as)
  | [], d => by simp [armList, armTrees]
  | .mk variant bindings body :: as, d => by
    simp [armList, armTrees, block_lines body, armList_lines as]

theorem optBlock_lines : ∀ (b : Option (Block Ident F)) (d : Nat) (head : Head),
    optBlock fl d head b = forestLines d (optBlockTrees fl head b)
  | none, d, head => by simp [optBlock, optBlockTrees]
  | some b, d, head => by simp [optBlock, optBlockTrees, block_lines b]

theorem optRecover_lines : ∀ (r : Option (Recover Ident F)) (d : Nat),
    optRecover fl d r = forestLines d (recoverTrees fl r)
  | none, d => by simp [optRecover, recoverTrees]
  | some (.mk name body), d => by simp [optRecover, recoverTrees, block_lines body]

end

theorem receiver_lines (d : Nat) (r : Option (Param Ident)) :
    receiver d r = forestLines d (receiverTrees r) := by
  cases r <;> simp [receiver, receiverTrees, ty_lines]

theorem item_lines (i : Item Ident F) (d : Nat) : item fl d i = (itemTree fl i).lines d := by
  cases i with
  | pull p => simp [item, itemTree]
  | func f =>
    simp [item, itemTree, receiver_lines, generics_lines, params_lines, ret_lines, block_lines]
  | drip s =>
    have hfields : (s.fields.flatMap fun f =>
        line (d + 1) .field [fieldVis f.vis, identWord f.name] ++ ty (d + 2) f.ty) =
        forestLines (d + 1) (s.fields.map fieldDeclTree) :=
      flatMap_lines (fun f => by simp [fieldDeclTree, ty_lines]) s.fields
    simp [item, itemTree, generics_lines, hfields]
  | moods m =>
    have hvariants : (m.variants.flatMap fun v =>
        line (d + 1) .variant [identWord v.name] ++ tys (d + 2) v.payload) =
        forestLines (d + 1) (m.variants.map variantTree) :=
      flatMap_lines (fun v => by simp [variantTree, tys_lines]) m.variants
    simp [item, itemTree, generics_lines, hvariants]
  | crib c => simp [item, itemTree, cribDecl_lines]
  | const c => simp [item, itemTree, constDecl_lines]
  | var v => simp [item, itemTree, varDecl_lines]
  | externFn e => simp [item, itemTree, params_lines, ret_lines]

/-- The dump writes the lines of the program's tree. -/
theorem program_lines (p : Program Ident F) : program fl p = forestLines 0 [programTree fl p] := by
  have hitems : p.items.flatMap (item fl 1) = forestLines 1 (p.items.map (itemTree fl)) :=
    flatMap_lines (fun i => item_lines fl i 1) p.items
  simp [program, programTree, hitems]

end Agreement

end BetLang.AstDump
