import BetLang.DumpTrees
import BetLang.DumpWords

/-! A syntax tree is found in its dump. -/

namespace BetLang.AstDump

open Mangling (Ident decimal)
open Outline (Branch)
open Surface

section Reading

noncomputable def readWord {α : Type} (f : α → Word) : Word → Option α := Function.partialInv f

theorem readWord_self {α : Type} {f : α → Word} (hf : Function.Injective f) (a : α) :
    readWord f (f a) = some a := Function.partialInv_left hf a

@[simp] theorem read_vis (v : Vis) : readWord visStr (visStr v) = some v :=
  readWord_self visStr_injective v

@[simp] theorem read_fieldVis (v : Option Vis) : readWord fieldVis (fieldVis v) = some v :=
  readWord_self fieldVis_injective v

@[simp] theorem read_unop (o : UnOp) : readWord unopStr (unopStr o) = some o :=
  readWord_self unopStr_injective o

@[simp] theorem read_binop (o : BinOp) : readWord binopStr (binopStr o) = some o :=
  readWord_self binopStr_injective o

@[simp] theorem read_assignOp (o : AssignOp) : readWord assignOpStr (assignOpStr o) = some o :=
  readWord_self assignOpStr_injective o

@[simp] theorem read_bool (b : Bool) : readWord boolStr (boolStr b) = some b :=
  readWord_self boolStr_injective b

@[simp] theorem read_ident (name : Ident) : readWord identWord (identWord name) = some name :=
  readWord_self identWord_injective name

@[simp] theorem read_path (p : Path Ident) : readWord pathWord (pathWord p) = some p :=
  readWord_self pathWord_injective p

@[simp] theorem read_size (n : UInt64) : readWord sizeWord (sizeWord n) = some n :=
  readWord_self sizeWord_injective n

@[simp] theorem read_byte (b : UInt8) : readWord byteWord (byteWord b) = some b :=
  readWord_self byteWord_injective b

@[simp] theorem read_int (n : Int) : readWord intWord (intWord n) = some n :=
  readWord_self intWord_injective n

@[simp] theorem read_str (s : String) : readWord strWord (strWord s) = some s :=
  readWord_self strWord_injective s

/-- A list written member by member is read so. -/
theorem mapM_map {α β : Type} {f : α → β} {g : β → Option α} (h : ∀ a, g (f a) = some a)
    (l : List α) : (l.map f).mapM g = some l := by
  induction l with
  | nil => simp
  | cons a l ih => simp [List.mapM_cons, h, ih]

noncomputable def readIdents (ws : List Word) : Option (List Ident) := ws.mapM (readWord identWord)

@[simp] theorem read_idents (names : List Ident) :
    readIdents (names.map identWord) = some names := mapM_map read_ident names

noncomputable def readLabel : List Word → Option (Option Ident)
  | [] => some none
  | w :: _ => (readWord identWord w).map some

@[simp] theorem read_label (l : Option Ident) : readLabel (labelWords l) = some l := by
  cases l <;> simp [readLabel, labelWords]

mutual

noncomputable def readTy : Branch Line → Option (Ty Ident)
  | .node l ts =>
    match l.head, l.words, ts with
    | .slice, [], [t] => (readTy t).map .slice
    | .array, [n], [t] => (readTy t).bind fun t => (readWord sizeWord n).map (.array t)
    | .tag, [], [t] => (readTy t).map .tag
    | .cribTy, [], [t] => (readTy t).map .crib
    | .soa, [], [t] => (readTy t).map .soa
    | .fnTy, [], [.node _ ps, .node _ [r]] =>
      (readTys ps).bind fun ps => (readTy r).map (.fn ps)
    | .rawptr, [], [] => some .rawPtr
    | .named, [n], ts => (readWord pathWord n).bind fun n => (readTys ts).map (.named n)
    | _, _, _ => none

noncomputable def readTys : List (Branch Line) → Option (List (Ty Ident))
  | [] => some []
  | t :: ts => (readTy t).bind fun t => (readTys ts).map (t :: ·)

end

mutual

@[simp] theorem readTy_tree : ∀ t : Ty Ident, readTy (tyTree t) = some t
  | .slice inner => by simp [tyTree, node, readTy, readTy_tree inner]
  | .array inner n => by simp [tyTree, node, readTy, readTy_tree inner]
  | .tag inner => by simp [tyTree, node, readTy, readTy_tree inner]
  | .crib inner => by simp [tyTree, node, readTy, readTy_tree inner]
  | .soa inner => by simp [tyTree, node, readTy, readTy_tree inner]
  | .fn params ret => by
    simp [tyTree, node, readTy, readTy_tree ret, readTys_trees params]
  | .rawPtr => by simp [tyTree, node, readTy]
  | .named name gens => by simp [tyTree, node, readTy, readTys_trees gens]

@[simp] theorem readTys_trees : ∀ ts : List (Ty Ident), readTys (tyTrees ts) = some ts
  | [] => by simp [tyTrees, readTys]
  | t :: ts => by simp [tyTrees, readTys, readTy_tree t, readTys_trees ts]

end

noncomputable def readOptTy : List (Branch Line) → Option (Option (Ty Ident))
  | [] => some none
  | t :: _ => (readTy t).map some

@[simp] theorem readOptTy_trees (t : Option (Ty Ident)) : readOptTy (optTyTrees t) = some t := by
  cases t <;> simp [readOptTy, optTyTrees]

noncomputable def readTypeargs : List (Branch Line) → Option (List (Ty Ident))
  | [] => some []
  | .node _ ts :: _ => readTys ts

@[simp] theorem readTypeargs_trees (g : List (Ty Ident)) :
    readTypeargs (typeargsTrees g) = some g := by
  cases g <;> simp [readTypeargs, typeargsTrees, node, readTys]

variable {F : Type} (fl : Floats F)

mutual

noncomputable def readExpr : Branch Line → Option (Expr Ident F)
  | .node l ts =>
    match l.head, l.words, ts with
    | .int, [n], [] => (readWord intWord n).map .int
    | .float, [f], [] => (readWord (floatWord fl) f).map .float
    | .str, [s], [] => (readWord strWord s).map .str
    | .byte, [b], [] => (readWord byteWord b).map .byte
    | .bool, [b], [] => (readWord boolStr b).map .bool
    | .ghosted, [], [] => some .ghosted
    | .name, [n], g => (readWord identWord n).bind fun n => (readTypeargs g).map (.name n)
    | .unary, [o], [x] => (readWord unopStr o).bind fun o => (readExpr x).map (.unary o)
    | .binary, [o], [x, y] =>
      (readWord binopStr o).bind fun o =>
        (readExpr x).bind fun x => (readExpr y).map (.binary o x)
    | .cast, [], [x, t] => (readExpr x).bind fun x => (readTy t).map (.cast x)
    | .field, [n], x :: g =>
      (readExpr x).bind fun x =>
        (readWord identWord n).bind fun n => (readTypeargs g).map (.field x n)
    | .method, [n], [.node _ [r], .node _ as] =>
      (readExpr r).bind fun r =>
        (readWord identWord n).bind fun n => (readArgs as).map (.method r n [])
    | .method, [n], [.node _ [r], g, .node _ as] =>
      (readExpr r).bind fun r =>
        (readWord identWord n).bind fun n =>
          (readTypeargs [g]).bind fun g => (readArgs as).map (.method r n g)
    | .call, [], [.node _ [c], .node _ as] =>
      (readExpr c).bind fun c => (readArgs as).map (.call c)
    | .index, [], [x, i] => (readExpr x).bind fun x => (readExpr i).map (.index x)
    | .trust, [], [t, c] => (readExpr t).bind fun t => (readExpr c).map (.trust t)
    | .struct, [n], [.node _ fs] =>
      (readWord pathWord n).bind fun n =>
        (readFields fs).map fun fs => .struct (.mk n [] fs)
    | .struct, [n], [g, .node _ fs] =>
      (readWord pathWord n).bind fun n =>
        (readTypeargs [g]).bind fun g =>
          (readFields fs).map fun fs => .struct (.mk n g fs)
    | .arrayLit, [], es => (readExprs es).map .array
    | .cop, [], [i, .node _ [c]] => (readCop i).bind fun i => (readExpr c).map (.cop i)
    | _, _, _ => none

noncomputable def readExprs : List (Branch Line) → Option (List (Expr Ident F))
  | [] => some []
  | t :: ts => (readExpr t).bind fun e => (readExprs ts).map (e :: ·)

noncomputable def readFields : List (Branch Line) → Option (List (FieldInit Ident F))
  | [] => some []
  | .node ⟨_, [n]⟩ [v] :: ts =>
    (readWord identWord n).bind fun n =>
      (readExpr v).bind fun v => (readFields ts).map (.mk n v :: ·)
  | _ => none

noncomputable def readArgs : List (Branch Line) → Option (List (Arg Ident F))
  | [] => some []
  | .node l [v] :: ts =>
    (readLabel l.words).bind fun l => (readExpr v).bind fun v => (readArgs ts).map (.mk l v :: ·)
  | _ => none

noncomputable def readCop : Branch Line → Option (CopInit Ident F)
  | .node l ts =>
    match l.head, l.words, ts with
    | .struct, [n], [.node _ fs] =>
      (readWord pathWord n).bind fun n => (readFields fs).map fun fs => .struct (.mk n [] fs)
    | .struct, [n], [g, .node _ fs] =>
      (readWord pathWord n).bind fun n =>
        (readTypeargs [g]).bind fun g => (readFields fs).map fun fs => .struct (.mk n g fs)
    | .variant, [n], [.node _ as] =>
      (readWord pathWord n).bind fun n => (readArgs as).map (.variant n)
    | _, _, _ => none

end

theorem typeargs_cons (t : Ty Ident) (ts : List (Ty Ident)) :
    typeargsTrees (t :: ts) = [node .typeargs [] (tyTrees (t :: ts))] := by
  simp [typeargsTrees, tyTrees]

theorem read_typeargs_node (ts : List (Ty Ident)) :
    readTypeargs [node .typeargs [] (tyTrees ts)] = some ts := by simp [readTypeargs, node]

@[simp] theorem read_float (f : F) : readWord (floatWord fl) (floatWord fl f) = some f :=
  readWord_self (floatWord_injective fl) f

mutual

@[simp] theorem readExpr_tree : ∀ e : Expr Ident F, readExpr fl (exprTree fl e) = some e
  | .int n => by simp [exprTree, node, readExpr]
  | .float f => by simp [exprTree, node, readExpr]
  | .str s => by simp [exprTree, node, readExpr]
  | .byte b => by simp [exprTree, node, readExpr]
  | .bool b => by simp [exprTree, node, readExpr]
  | .ghosted => by simp [exprTree, node, readExpr]
  | .name name gens => by simp [exprTree, node, readExpr]
  | .unary op x => by simp [exprTree, node, readExpr, readExpr_tree x]
  | .binary op l r => by simp [exprTree, node, readExpr, readExpr_tree l, readExpr_tree r]
  | .cast x t => by simp [exprTree, node, readExpr, readExpr_tree x]
  | .field base name gens => by simp [exprTree, node, readExpr, readExpr_tree base]
  | .method receiver method [] args => by
    simp [exprTree, typeargsTrees, node, readExpr, readExpr_tree receiver, readArgs_trees args]
  | .method receiver method (t :: ts) args => by
    have hargs := read_typeargs_node (t :: ts)
    rw [node] at hargs
    simp [exprTree, typeargs_cons, node, readExpr, hargs, readExpr_tree receiver,
      readArgs_trees args]
  | .call callee args => by
    simp [exprTree, node, readExpr, readExpr_tree callee, readArgs_trees args]
  | .index base index => by
    simp [exprTree, node, readExpr, readExpr_tree base, readExpr_tree index]
  | .trust tag crib => by simp [exprTree, node, readExpr, readExpr_tree tag, readExpr_tree crib]
  | .struct (.mk name [] fields) => by
    simp [exprTree, structTree, typeargsTrees, node, readExpr, readFields_trees fields]
  | .struct (.mk name (t :: ts) fields) => by
    have hargs := read_typeargs_node (t :: ts)
    rw [node] at hargs
    simp [exprTree, structTree, typeargs_cons, node, readExpr, hargs, readFields_trees fields]
  | .array elems => by simp [exprTree, node, readExpr, readExprs_trees elems]
  | .cop init crib => by
    simp [exprTree, node, readExpr, readCop_tree init, readExpr_tree crib]

@[simp] theorem readExprs_trees : ∀ es : List (Expr Ident F),
    readExprs fl (exprTrees fl es) = some es
  | [] => by simp [exprTrees, readExprs]
  | e :: es => by simp [exprTrees, readExprs, readExpr_tree e, readExprs_trees es]

@[simp] theorem readFields_trees : ∀ fs : List (FieldInit Ident F),
    readFields fl (fieldTrees fl fs) = some fs
  | [] => by simp [fieldTrees, readFields]
  | .mk name value :: fs => by
    simp [fieldTrees, node, readFields, readExpr_tree value, readFields_trees fs]

@[simp] theorem readArgs_trees : ∀ as : List (Arg Ident F),
    readArgs fl (argTrees fl as) = some as
  | [] => by simp [argTrees, readArgs]
  | .mk label value :: as => by
    simp [argTrees, node, readArgs, readExpr_tree value, readArgs_trees as]

@[simp] theorem readCop_tree : ∀ c : CopInit Ident F, readCop fl (copTree fl c) = some c
  | .struct (.mk name [] fields) => by
    simp [copTree, structTree, typeargsTrees, node, readCop, readFields_trees fields]
  | .struct (.mk name (t :: ts) fields) => by
    have hargs := read_typeargs_node (t :: ts)
    rw [node] at hargs
    simp [copTree, structTree, typeargs_cons, node, readCop, hargs, readFields_trees fields]
  | .variant name args => by simp [copTree, node, readCop, readArgs_trees args]

end

section Statements

noncomputable def readCrib : List Word → List (Branch Line) → Option (CribDecl Ident)
  | [v, n], ts =>
    (readWord visStr v).bind fun v =>
      (readWord identWord n).bind fun n => (readOptTy ts).map (.mk v n)
  | _, _ => none

noncomputable def readConst : List Word → List (Branch Line) → Option (ConstDecl Ident F)
  | [v, n], [.node _ [e]] =>
    (readWord visStr v).bind fun v =>
      (readWord identWord n).bind fun n => (readExpr fl e).map (.mk v n none)
  | [v, n], [.node _ [t], .node _ [e]] =>
    (readWord visStr v).bind fun v =>
      (readWord identWord n).bind fun n =>
        (readTy t).bind fun t => (readExpr fl e).map (.mk v n (some t))
  | _, _ => none

noncomputable def readVar : List Word → List (Branch Line) → Option (VarDecl Ident F)
  | v :: n :: ns, [.node _ es] =>
    (readWord visStr v).bind fun v =>
      (readWord identWord n).bind fun n =>
        (readIdents ns).bind fun ns => (readExprs fl es).map (.mk v n ns none)
  | v :: n :: ns, [.node _ [t], .node _ es] =>
    (readWord visStr v).bind fun v =>
      (readWord identWord n).bind fun n =>
        (readIdents ns).bind fun ns =>
          (readTy t).bind fun t => (readExprs fl es).map (.mk v n ns (some t))
  | _, _ => none

mutual

noncomputable def readBlock : Branch Line → Option (Block Ident F)
  | .node _ ts => (readStmts ts).map .mk

noncomputable def readStmts : List (Branch Line) → Option (List (Stmt Ident F))
  | [] => some []
  | t :: ts => (readStmt t).bind fun s => (readStmts ts).map (s :: ·)

noncomputable def readStmt : Branch Line → Option (Stmt Ident F)
  | .node l ts =>
    match l.head, l.words, ts with
    | .var, ws, ts => (readVar fl ws ts).map .var
    | .const, ws, ts => (readConst fl ws ts).map .const
    | .crib, ws, ts => (readCrib ws ts).map .crib
    | .fr, [], c :: b :: ts =>
      (readExpr fl c).bind fun c =>
        (readBlock b).bind fun b => (readElifs ts).map fun r => .fr c b r.1 r.2
    | .vibin, [], [c, b] => (readExpr fl c).bind fun c => (readBlock b).map (.vibin c)
    | .squad, [v], [i, b] =>
      (readWord identWord v).bind fun v =>
        (readExpr fl i).bind fun i => (readBlock b).map (.squad v i)
    | .vibe, [], s :: ts =>
      (readExpr fl s).bind fun s => (readArms ts).map fun r => .vibe s r.1 r.2
    | .holla, [n], [.node _ [t], .node _ [c], .node _ [l], .node _ [g]] =>
      (readWord identWord n).bind fun n =>
        (readExpr fl t).bind fun t =>
          (readExpr fl c).bind fun c =>
            (readBlock l).bind fun l => (readBlock g).map (.holla n t c l)
    | .sheesh, [], [b] => (readBlock b).map fun b => .sheesh b none
    | .sheesh, [], [b, .node ⟨_, [n]⟩ [r]] =>
      (readBlock b).bind fun b =>
        (readWord identWord n).bind fun n => (readBlock r).map fun r => .sheesh b (some (.mk n r))
    | .evict, [], [c] => (readExpr fl c).map fun c => .evict c none
    | .evictSlot, [], [t, c] =>
      (readExpr fl t).bind fun t => (readExpr fl c).map fun c => .evict c (some t)
    | .slide, [], [e] => (readExpr fl e).map .slide
    | .bet, [], es => (readExprs fl es).map .bet
    | .bounce, [], [e] => (readExpr fl e).map .bounce
    | .yeet, [], [e] => (readExpr fl e).map .yeet
    | .dip, [], [] => some .dip
    | .skip, [], [] => some .skip
    | .assign, [o], [.node _ ts, .node _ vs] =>
      (readWord assignOpStr o).bind fun o =>
        (readExprs fl ts).bind fun ts => (readExprs fl vs).map (.assign ts o)
    | .exprStmt, [], [e] => (readExpr fl e).map .expr
    | _, _, _ => none

/-- The branches behind the first, and the last of all. -/
noncomputable def readElifs :
    List (Branch Line) → Option (List (Elif Ident F) × Option (Block Ident F))
  | [] => some ([], none)
  | .node l ts :: rest =>
    match l.head, ts with
    | .elif, [c, b] =>
      (readExpr fl c).bind fun c =>
        (readBlock b).bind fun b => (readElifs rest).map fun r => (.mk c b :: r.1, r.2)
    | .els, [b] => (readBlock b).map fun b => ([], some b)
    | _, _ => none

noncomputable def readArms :
    List (Branch Line) → Option (List (MatchArm Ident F) × Option (Block Ident F))
  | [] => some ([], none)
  | .node l ts :: rest =>
    match l.head, l.words, ts with
    | .arm, v :: bs, [b] =>
      (readWord pathWord v).bind fun v =>
        (readIdents bs).bind fun bs =>
          (readBlock b).bind fun b => (readArms rest).map fun r => (.mk v bs b :: r.1, r.2)
    | .default, [], [b] => (readBlock b).map fun b => ([], some b)
    | _, _, _ => none

end

theorem readCrib_tree (c : CribDecl Ident) :
    readCrib [visStr c.vis, identWord c.name] (optTyTrees c.ty) = some c := by simp [readCrib]

theorem readConst_tree (c : ConstDecl Ident F) :
    readConst fl [visStr c.vis, identWord c.name]
      (typedTrees c.ty ++ [node .value [] [exprTree fl c.value]]) = some c := by
  obtain ⟨vis, name, ty, value⟩ := c
  cases ty <;> simp [readConst, typedTrees, node]

theorem readVar_tree (v : VarDecl Ident F) :
    readVar fl (visStr v.vis :: identWord v.target :: v.targets.map identWord)
      (typedTrees v.ty ++ [node .values [] (exprTrees fl v.values)]) = some v := by
  obtain ⟨vis, target, targets, ty, values⟩ := v
  cases ty <;> simp [readVar, typedTrees, node]

mutual

@[simp] theorem readBlock_tree : ∀ b : Block Ident F, readBlock fl (blockTree fl b) = some b
  | .mk stmts => by simp [blockTree, node, readBlock, readStmts_trees stmts]

theorem readStmts_trees : ∀ ss : List (Stmt Ident F), readStmts fl (stmtTrees fl ss) = some ss
  | [] => by simp [stmtTrees, readStmts]
  | s :: ss => by simp [stmtTrees, readStmts, readStmt_tree s, readStmts_trees ss]

theorem readStmt_tree : ∀ s : Stmt Ident F, readStmt fl (stmtTree fl s) = some s
  | .var v => by
    have hread := readVar_tree fl v
    simp only [node] at hread
    simp [stmtTree, varTree, node, readStmt, hread]
  | .const c => by
    have hread := readConst_tree fl c
    simp only [node] at hread
    simp [stmtTree, constTree, node, readStmt, hread]
  | .crib c => by
    have hread := readCrib_tree c
    simp [stmtTree, cribTree, node, readStmt, hread]
  | .fr cond body elifs els => by
    have hels := readEls_trees els
    have helifs := readElifs_trees elifs hels
    simp [stmtTree, node, readStmt, readBlock_tree body, helifs]
  | .vibin cond body => by simp [stmtTree, node, readStmt, readBlock_tree body]
  | .squad var iter body => by simp [stmtTree, node, readStmt, readBlock_tree body]
  | .vibe scrutinee arms default => by
    have hdefault := readDefault_trees default
    have harms := readArms_trees arms hdefault
    simp [stmtTree, node, readStmt, harms]
  | .holla binding tag crib live ghosted => by
    simp [stmtTree, node, readStmt, readBlock_tree live, readBlock_tree ghosted]
  | .sheesh body none => by simp [stmtTree, recoverTrees, node, readStmt, readBlock_tree body]
  | .sheesh body (some (.mk name b)) => by
    simp [stmtTree, recoverTrees, node, readStmt, readBlock_tree body, readBlock_tree b]
  | .evict crib none => by simp [stmtTree, node, readStmt]
  | .evict crib (some tag) => by simp [stmtTree, node, readStmt]
  | .slide e => by simp [stmtTree, node, readStmt]
  | .bet values => by simp [stmtTree, node, readStmt]
  | .bounce e => by simp [stmtTree, node, readStmt]
  | .yeet e => by simp [stmtTree, node, readStmt]
  | .dip => by simp [stmtTree, node, readStmt]
  | .skip => by simp [stmtTree, node, readStmt]
  | .assign targets op values => by simp [stmtTree, node, readStmt]
  | .expr e => by simp [stmtTree, node, readStmt]

theorem readElifs_trees : ∀ (es : List (Elif Ident F)) {ts : List (Branch Line)}
    {b : Option (Block Ident F)}, readElifs fl ts = some ([], b) →
    readElifs fl (elifTrees fl es ++ ts) = some (es, b)
  | [], ts, b, h => by simpa [elifTrees] using h
  | .mk cond body :: es, ts, b, h => by
    have hrest := readElifs_trees es h
    simp [elifTrees, node, readElifs, readBlock_tree body, hrest]

theorem readArms_trees : ∀ (as : List (MatchArm Ident F)) {ts : List (Branch Line)}
    {b : Option (Block Ident F)}, readArms fl ts = some ([], b) →
    readArms fl (armTrees fl as ++ ts) = some (as, b)
  | [], ts, b, h => by simpa [armTrees] using h
  | .mk variant bindings body :: as, ts, b, h => by
    have hrest := readArms_trees as h
    simp [armTrees, node, readArms, readBlock_tree body, hrest]

theorem readEls_trees : ∀ b : Option (Block Ident F),
    readElifs fl (optBlockTrees fl .els b) = some ([], b)
  | none => by simp [optBlockTrees, readElifs]
  | some b => by simp [optBlockTrees, node, readElifs, readBlock_tree b]

theorem readDefault_trees : ∀ b : Option (Block Ident F),
    readArms fl (optBlockTrees fl .default b) = some ([], b)
  | none => by simp [optBlockTrees, readArms]
  | some b => by simp [optBlockTrees, node, readArms, readBlock_tree b]

end

end Statements

section Items

noncomputable def readParam : Branch Line → Option (Param Ident)
  | .node ⟨_, [n]⟩ [t] => (readWord identWord n).bind fun n => (readTy t).map (.mk n)
  | _ => none

theorem readParam_tree (p : Param Ident) : readParam (paramTree p) = some p := by
  simp [paramTree, node, readParam]

noncomputable def readParams : Branch Line → Option (List (Param Ident))
  | .node _ ts => ts.mapM readParam

@[simp] theorem readParams_tree (ps : List (Param Ident)) :
    readParams (paramsTree ps) = some ps := by
  simp [paramsTree, node, readParams, mapM_map readParam_tree ps]

noncomputable def readGenerics : Branch Line → Option (List Ident)
  | .node l _ => readIdents l.words

@[simp] theorem readGenerics_tree (g : List Ident) : readGenerics (genericsTree g) = some g := by
  simp [genericsTree, node, readGenerics]

noncomputable def readRet : Branch Line → Option (RetType Ident)
  | .node ⟨_, [w]⟩ ts =>
    if w = noneWord then some .none
    else if w = singleWord then (readOptTy ts).bind fun t => t.map .single
    else (readTys ts).map .multi
  | _ => none

@[simp] theorem readRet_tree (r : RetType Ident) : readRet (retTree r) = some r := by
  have hsingle : singleWord ≠ noneWord := by decide
  have hmulti : multiWord ≠ noneWord ∧ multiWord ≠ singleWord := by decide
  cases r with
  | none => simp [retTree, node, readRet]
  | single t => simp [retTree, node, readRet, hsingle, readOptTy]
  | multi ts => simp [retTree, node, readRet, hmulti]

noncomputable def readFieldDecl : Branch Line → Option (FieldDecl Ident)
  | .node ⟨_, [v, n]⟩ [t] =>
    (readWord fieldVis v).bind fun v =>
      (readWord identWord n).bind fun n => (readTy t).map (.mk v n)
  | _ => none

theorem readFieldDecl_tree (f : FieldDecl Ident) : readFieldDecl (fieldDeclTree f) = some f := by
  simp [fieldDeclTree, node, readFieldDecl]

noncomputable def readVariant : Branch Line → Option (Variant Ident)
  | .node ⟨_, [n]⟩ ts => (readWord identWord n).bind fun n => (readTys ts).map (.mk n)
  | _ => none

theorem readVariant_tree (v : Variant Ident) : readVariant (variantTree v) = some v := by
  simp [variantTree, node, readVariant]

noncomputable def readAlias : List Word → Option (Option Ident)
  | [_, a] => (readWord identWord a).map some
  | _ => some none

@[simp] theorem read_alias (a : Option Ident) : readAlias (aliasWords a) = some a := by
  cases a <;> simp [readAlias, aliasWords]

noncomputable def readItem : Branch Line → Option (Item Ident F)
  | .node l ts =>
    match l.head, l.words, ts with
    | .pull, m :: ws, [] =>
      (readWord strWord m).bind fun m => (readAlias ws).map fun a => .pull ⟨m, a⟩
    | .func, [v, n], [g, p, r, b] =>
      (readWord visStr v).bind fun v =>
        (readWord identWord n).bind fun n =>
          (readGenerics g).bind fun g =>
            (readParams p).bind fun p =>
              (readRet r).bind fun r =>
                (readBlock fl b).map fun b => .func ⟨v, none, n, g, p, r, b⟩
    | .func, [v, n], [.node ⟨_, [x]⟩ [t], g, p, r, b] =>
      (readWord visStr v).bind fun v =>
        (readWord identWord n).bind fun n =>
          (readWord identWord x).bind fun x =>
            (readTy t).bind fun t =>
              (readGenerics g).bind fun g =>
                (readParams p).bind fun p =>
                  (readRet r).bind fun r =>
                    (readBlock fl b).map fun b => .func ⟨v, some ⟨x, t⟩, n, g, p, r, b⟩
    | .drip, [v, n], g :: fs =>
      (readWord visStr v).bind fun v =>
        (readWord identWord n).bind fun n =>
          (readGenerics g).bind fun g =>
            (fs.mapM readFieldDecl).map fun fs => .drip ⟨v, n, g, fs⟩
    | .moods, [v, n], g :: vs =>
      (readWord visStr v).bind fun v =>
        (readWord identWord n).bind fun n =>
          (readGenerics g).bind fun g =>
            (vs.mapM readVariant).map fun vs => .moods ⟨v, n, g, vs⟩
    | .crib, ws, ts => (readCrib ws ts).map .crib
    | .const, ws, ts => (readConst fl ws ts).map .const
    | .var, ws, ts => (readVar fl ws ts).map .var
    | .externFn, [a, n], [p, r] =>
      (readWord strWord a).bind fun a =>
        (readWord identWord n).bind fun n =>
          (readParams p).bind fun p => (readRet r).map fun r => .externFn ⟨a, n, p, r⟩
    | _, _, _ => none

theorem readItem_tree (i : Item Ident F) : readItem fl (itemTree fl i) = some i := by
  cases i with
  | pull p => simp [itemTree, node, readItem]
  | func f =>
    obtain ⟨vis, receiver, name, generics, params, ret, body⟩ := f
    cases receiver <;> simp [itemTree, receiverTrees, node, readItem]
  | drip s => simp [itemTree, node, readItem, mapM_map readFieldDecl_tree s.fields]
  | moods m => simp [itemTree, node, readItem, mapM_map readVariant_tree m.variants]
  | crib c => simp [itemTree, cribTree, node, readItem, readCrib_tree c]
  | const c =>
    have hread := readConst_tree fl c
    simp only [node] at hread
    simp [itemTree, constTree, node, readItem, hread]
  | var v =>
    have hread := readVar_tree fl v
    simp only [node] at hread
    simp [itemTree, varTree, node, readItem, hread]
  | externFn e => simp [itemTree, node, readItem]

noncomputable def readProgram : Branch Line → Option (Program Ident F)
  | .node _ ts => (ts.mapM (readItem fl)).map .mk

/-- The tree of a program tells the program. -/
theorem readProgram_tree (p : Program Ident F) : readProgram fl (programTree fl p) = some p := by
  simp [programTree, node, readProgram, mapM_map (readItem_tree fl) p.items]

end Items

end Reading

section Fingerprint

variable {F : Type}

/-- Programs of one dump are the same. -/
theorem ast_injective (fl : Floats F) : Function.Injective (ast fl) := by
  intro p q h
  rw [ast, ast, program_lines, program_lines] at h
  have htree := Outline.forest_text_injective line_visible line_injective h
  have hread := readProgram_tree fl p
  rw [(List.cons.inj htree).1, readProgram_tree] at hread
  exact (Option.some.inj hread).symm

theorem decimal_no_dot (n : Nat) : '.' ∉ decimal n := fun h =>
  absurd (Mangling.decimal_digits n _ h) (by decide)

/-- The whole floating numbers below a thousand. -/
def wholeFloats : Floats (Fin 1000) where
  display f := decimal f.val
  read t :=
    let n := Mangling.value (t.takeWhile fun c => c != '.')
    if h : n < 1000 then some ⟨n, h⟩ else none
  display_ne_nil f := decimal_ne_nil f.val
  display_chars f c hc := .inl (Mangling.decimal_digits f.val c hc)
  read_display f := by
    have hpoint := Outline.takeWhile_mark (decimal_no_dot f.val) (.inl rfl)
    rw [List.append_nil] at hpoint
    simp [hpoint, Mangling.value_decimal]
  read_whole f _ := by
    have hpoint := Outline.takeWhile_mark (decimal_no_dot f.val) (.inr ⟨['0'], rfl⟩)
    simp [hpoint, Mangling.value_decimal]

/-- A floating literal is told from the whole number. -/
theorem whole_float_apart :
    ast wholeFloats ⟨[.const ⟨.hush, ⟨['x'], by decide⟩, none, .float ⟨1, by decide⟩⟩]⟩ ≠
      ast wholeFloats ⟨[.const ⟨.hush, ⟨['x'], by decide⟩, none, .int 1⟩]⟩ := by
  intro h
  have hsame := ast_injective wholeFloats h
  simp at hsame

end Fingerprint

end BetLang.AstDump
