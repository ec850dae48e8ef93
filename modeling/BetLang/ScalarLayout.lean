import BetLang.ControlLower
import BetLang.ScalarLower

/-! Where the names of the scalar core are kept: lowering gives every binding a local of its own, of
its type, and takes every statement that is well-typed. -/

namespace BetLang.Scalar

section Maps

variable {α β : Type} {s : Scopes α}

def Scopes.map (f : α → β) (s : Scopes α) : Scopes β := List.map (List.map (Prod.map id f)) s

theorem lookup_map (f : α → β) (sc : List (String × α)) (x : String) :
    (sc.map (Prod.map id f)).lookup x = (sc.lookup x).map f := by
  induction sc with
  | nil => rfl
  | cons b sc ih =>
    obtain ⟨y, a⟩ := b
    simp only [List.map_cons, Prod.map_apply, id, List.lookup_cons]
    cases x == y with
    | true => rfl
    | false => exact ih

theorem find_map (f : α → β) (s : Scopes α) (x : String) :
    (s.map f).find x = (s.find x).map f := by
  induction s with
  | nil => rfl
  | cons sc s ih =>
    rw [Scopes.find, Scopes.map, List.map_cons, List.findSome?_cons, lookup_map]
    rw [Scopes.find, List.findSome?_cons]
    cases sc.lookup x with
    | some a => rfl
    | none => exact ih

theorem bind_map (f : α → β) (s : Scopes α) (x : String) (a : α) :
    (s.bind x a).map f = (s.map f).bind x (f a) := by
  cases s <;> rfl

/-- The bindings of all scopes. -/
def Scopes.bindings (s : Scopes α) : List α := s.flatten.map (·.2)

theorem mem_of_lookup {sc : List (String × α)} {x : String} {a : α}
    (h : sc.lookup x = some a) : (x, a) ∈ sc := by
  obtain ⟨l₁, l₂, rfl, _⟩ := List.lookup_eq_some_iff.mp h
  exact List.mem_append_right _ List.mem_cons_self

theorem mem_bindings {x : String} {a : α} (h : s.find x = some a) : a ∈ s.bindings := by
  obtain ⟨sc, hsc, hx⟩ := List.exists_of_findSome?_eq_some h
  exact List.mem_map.mpr ⟨(x, a), List.mem_flatten.mpr ⟨sc, hsc, mem_of_lookup hx⟩, rfl⟩

end Maps

/-- The local and the type of every binding. -/
abbrev Layout := Scopes (Nat × Ty)

namespace Layout

def slots (L : Layout) : Scopes Nat := L.map (·.1)

def ctx (L : Layout) : Scopes Ty := L.map (·.2)

/-- Every binding has a local of its own, of its type. -/
structure Fits (L : Layout) (tys : List Ir.Ty) : Prop where
  types : ∀ b ∈ L.bindings, tys[b.1]? = some b.2.ir
  distinct : (L.bindings.map (·.1)).Nodup

variable {L : Layout} {tys tys' : List Ir.Ty}

theorem Fits.mono (h : L.Fits tys) (hp : tys <+: tys') : L.Fits tys' := by
  refine ⟨fun b hb => ?_, h.distinct⟩
  obtain ⟨rest, rfl⟩ := hp
  have hlt := (List.getElem?_eq_some_iff.mp (h.types b hb)).1
  rw [List.getElem?_append_left hlt]
  exact h.types b hb

theorem Fits.lt (h : L.Fits tys) {b : Nat × Ty} (hb : b ∈ L.bindings) : b.1 < tys.length :=
  (List.getElem?_eq_some_iff.mp (h.types b hb)).1

theorem Fits.push (h : L.Fits tys) : Fits ([] :: L) tys := ⟨h.types, h.distinct⟩

theorem bindings_bind {sc : List (String × Nat × Ty)} (x : String) (b : Nat × Ty) :
    (Scopes.bind x b (sc :: L)).bindings = b :: Scopes.bindings (sc :: L) := rfl

/-- A new binding gets a new local. -/
theorem Fits.bind {t : Ty} (h : L.Fits tys) (x : String) :
    Fits (Scopes.bind x (tys.length, t) L) (tys ++ [t.ir]) := by
  cases L with
  | nil => exact ⟨fun b hb => (by cases hb), .nil⟩
  | cons sc L =>
    refine ⟨fun b hb => ?_, ?_⟩
    · rw [bindings_bind] at hb
      rcases List.mem_cons.mp hb with rfl | hb
      · exact List.getElem?_concat_length
      · exact (h.mono (List.prefix_append _ _)).types b hb
    · rw [bindings_bind, List.map_cons, List.nodup_cons]
      refine ⟨fun hmem => ?_, h.distinct⟩
      obtain ⟨b, hb, hlt⟩ := List.mem_map.mp hmem
      exact absurd (h.lt hb) (by rw [hlt]; exact Nat.lt_irrefl _)

theorem find_slots (L : Layout) (x : String) : L.slots.find x = (L.find x).map (·.1) :=
  find_map _ L x

theorem find_ctx (L : Layout) (x : String) : L.ctx.find x = (L.find x).map (·.2) :=
  find_map _ L x

/-- A typed name has its local. -/
theorem Fits.find (h : L.Fits tys) {x : String} {t : Ty} (hx : L.ctx.find x = some t) :
    ∃ l, L.find x = some (l, t) ∧ L.slots.find x = some l ∧ tys[l]? = some t.ir := by
  rw [find_ctx] at hx
  obtain ⟨⟨l, t'⟩, hb, rfl⟩ := Option.map_eq_some_iff.mp hx
  refine ⟨l, hb, ?_, h.types _ (mem_bindings hb)⟩
  rw [find_slots, hb]
  rfl

end Layout

section Operands

/-- The value of the operand depends on the first locals only. -/
def Below (n : Nat) (op : Ir.Operand) : Prop :=
  ∀ locals locals' : Locals, (∀ i < n, locals' i = locals i) →
    evalOperand locals' op = evalOperand locals op

variable {n k : Nat} {op : Ir.Operand}

theorem Below.mono (h : Below n op) (hk : n ≤ k) : Below k op :=
  fun _ _ heq => h _ _ fun i hi => heq i (Nat.lt_of_lt_of_le hi hk)

theorem below_const (c : Ir.Const) : Below n (.const c) := by
  intro locals locals' _
  cases c <;> rfl

theorem below_copy {l : Nat} (h : l < n) : Below n (copy l) := fun _ _ heq => heq l h

end Operands

section Exprs

/-- What is known of the code of an expression before it runs. -/
structure Lowered.Typed (r : Lowered) (ty : Ir.Ty) (tys : List Ir.Ty) : Prop where
  ty : r.ty = ty
  tys : tys <+: r.tys
  op : Below r.tys.length r.op

variable {p : Program} {L : Layout} {tys : List Ir.Ty}

theorem emit_typed {tys' : List Ir.Ty} (code : Code) (rv : Ir.Rvalue) (ty : Ir.Ty)
    (h : tys <+: tys') : (emit code rv ty tys').Typed ty tys := by
  refine ⟨rfl, h.trans (List.prefix_append _ _), below_copy ?_⟩
  rw [emit, List.length_append]
  exact Nat.lt_succ_self _

theorem isSome_of_binaryTy {op : Ast.BinOp} (hand : op ≠ .and) (hor : op ≠ .or) :
    ∃ irop, Ast.mapBinop op = some irop := by
  cases op with
  | and => exact absurd rfl hand
  | or => exact absurd rfl hor
  | _ => exact ⟨_, rfl⟩

theorem lowerExpr_binary {op : Ast.BinOp} {irop : Ir.BinOp} (hop : Ast.mapBinop op = some irop)
    (scopes : Scopes Nat) (l r : Expr) :
    lowerExpr p scopes tys (.binary op l r) = do
      let l ← lowerExpr p scopes tys l
      let r ← lowerExpr p scopes l.tys r
      return emit (.seq l.code r.code) (.binOp irop l.op r.op (arithMode l.ty irop))
        (if irop.isComparison then .bool else l.ty) r.tys := by
  cases op with
  | and | or => cases hop
  | _ =>
    cases hop
    rfl

/-- The type of a result, as it is lowered. -/
theorem binaryTy_ir {op : Ast.BinOp} {irop : Ir.BinOp} {tl tr t : Ty}
    (hop : Ast.mapBinop op = some irop) (ht : binaryTy op tl tr = some t) :
    (if irop.isComparison then .bool else tl.ir) = t.ir := by
  cases op <;> cases hop <;> cases tl <;> cases tr <;> cases ht <;> rfl

theorem unaryTy_ir {op : Ast.UnOp} {te t : Ty} (ht : unaryTy op te = some t) :
    (if op = .not then .bool else te.ir) = t.ir := by
  cases op <;> cases te <;> cases ht <;> rfl

theorem shortCircuit_typed (isAnd : Bool) {l r : Lowered} (hl : tys ++ [.bool] <+: l.tys)
    (hr : l.tys <+: r.tys) : (shortCircuit isAnd tys.length l r).Typed .bool tys := by
  have hp := hl.trans hr
  refine ⟨rfl, (List.prefix_append _ _).trans hp, below_copy ?_⟩
  have hlen := hp.length_le
  rw [List.length_append] at hlen
  exact hlen

theorem typeOf_binary {op : Ast.BinOp} {ctx : Scopes Ty} {l r : Expr} {t : Ty}
    (h : typeOf p ctx (.binary op l r) = some t) :
    ∃ tl tr, typeOf p ctx l = some tl ∧ typeOf p ctx r = some tr ∧ binaryTy op tl tr = some t := by
  obtain ⟨tl, hl, h⟩ := Option.bind_eq_some_iff.mp h
  obtain ⟨tr, hr, h⟩ := Option.bind_eq_some_iff.mp h
  exact ⟨tl, tr, hl, hr, h⟩

/-- Both operands of `&&` and `||` are bools. -/
theorem binaryTy_logical {op : Ast.BinOp} {tl tr t : Ty} (hop : op = .and ∨ op = .or)
    (h : binaryTy op tl tr = some t) : tl = .bool ∧ tr = .bool ∧ t = .bool := by
  rcases hop with rfl | rfl <;> cases tl <;> cases tr <;> cases h <;> exact ⟨rfl, rfl, rfl⟩

theorem callTarget_some {ctx : Scopes Ty} {f : String} {ts : List Ty} {fid : Nat} {fn : FnDecl}
    (h : callTarget p ctx f ts = some (fid, fn)) :
    p.find f = some (fid, fn) ∧ ctx.find f = none ∧ fn.params.map (·.2) = ts := by
  obtain ⟨hfind, hc⟩ := Option.filter_eq_some_iff.mp h
  exact ⟨hfind, of_decide_eq_true hc⟩

theorem typeOf_call {ctx : Scopes Ty} {f : String} {args : List Expr} {t : Ty}
    (h : typeOf p ctx (.call f args) = some t) :
    ∃ ts fid fn, typesOf p ctx args = some ts ∧ callTarget p ctx f ts = some (fid, fn) ∧
      fn.ret = some t := by
  obtain ⟨ts, hts, hcall⟩ := Option.bind_eq_some_iff.mp h
  obtain ⟨⟨fid, fn⟩, hfn, hret⟩ := Option.bind_eq_some_iff.mp hcall
  exact ⟨ts, fid, fn, hts, hfn, hret⟩

/-- A call, behind the code of its arguments. -/
def lowerCall (fid : Nat) (fn : FnDecl) (args : Code × List Ir.Operand × List Ir.Ty) : Lowered :=
  ⟨.seq args.1 (.call (.call args.2.2.length fid args.2.1)), copy args.2.2.length, retTy fn.ret,
    args.2.2 ++ [retTy fn.ret]⟩

theorem lowerExpr_call {f : String} {ts : List Ty} {fid : Nat} {fn : FnDecl}
    (hfn : callTarget p L.ctx f ts = some (fid, fn)) (args : List Expr) :
    lowerExpr p L.slots tys (.call f args) =
      (lowerArgs p L.slots tys args).map (lowerCall fid fn) := by
  obtain ⟨hfind, hx, _⟩ := callTarget_some hfn
  rw [Layout.find_ctx, Option.map_eq_none_iff] at hx
  have hslot : L.slots.find f = none := by
    rw [Layout.find_slots, hx]
    rfl
  rw [lowerExpr, hslot]
  dsimp only
  rw [hfind]
  cases lowerArgs p L.slots tys args <;> rfl

theorem lowerCall_typed (fid : Nat) (fn : FnDecl) {args : Code × List Ir.Operand × List Ir.Ty}
    (h : tys <+: args.2.2) : (lowerCall fid fn args).Typed (retTy fn.ret) tys := by
  refine ⟨rfl, h.trans (List.prefix_append _ _), below_copy ?_⟩
  rw [lowerCall, List.length_append]
  exact Nat.lt_succ_self _

mutual

theorem lowerExpr_typed : ∀ (e : Expr) {L : Layout} {tys : List Ir.Ty} {t : Ty},
    typeOf p L.ctx e = some t → L.Fits tys →
    ∃ r, lowerExpr p L.slots tys e = some r ∧ r.Typed t.ir tys
  | .int i, L, tys, t, ht, hf => by
    cases ht
    exact ⟨_, rfl, rfl, List.prefix_refl _, below_const _⟩
  | .bool b, L, tys, t, ht, hf => by
    cases ht
    exact ⟨_, rfl, rfl, List.prefix_refl _, below_const _⟩
  | .name x, L, tys, t, ht, hf => by
    obtain ⟨l, _, hl, hty⟩ := hf.find ht
    refine ⟨⟨.nil, copy l, t.ir, tys⟩, ?_, rfl, List.prefix_refl _, below_copy ?_⟩
    · rw [lowerExpr, hl, Option.bind_eq_bind, Option.bind_some, hty]
      rfl
    · exact (List.getElem?_eq_some_iff.mp hty).1
  | .unary op e, L, tys, t, ht, hf => by
    obtain ⟨te, he, hop⟩ := Option.bind_eq_some_iff.mp ht
    obtain ⟨r, hr, htr⟩ := lowerExpr_typed e he hf
    refine ⟨_, ?_, emit_typed r.code (.unOp (Ast.mapUnop op) r.op) t.ir htr.tys⟩
    rw [lowerExpr, hr, ← unaryTy_ir hop, ← htr.ty]
    rfl
  | .binary op l r, L, tys, t, ht, hf => by
    obtain ⟨tl, tr, hl, hr, hop⟩ := typeOf_binary ht
    have hlogical (isAnd : Bool) (h : op = .and ∨ op = .or) : ∃ r', (do
        let l ← lowerExpr p L.slots (tys ++ [.bool]) l
        return shortCircuit isAnd tys.length l (← lowerExpr p L.slots l.tys r) : Option Lowered) =
          some r' ∧ r'.Typed t.ir tys := by
      obtain ⟨rfl, rfl, rfl⟩ := binaryTy_logical h hop
      obtain ⟨l', hl', htl⟩ := lowerExpr_typed l hl (hf.mono (List.prefix_append _ [.bool]))
      obtain ⟨r', hr', htr⟩ := lowerExpr_typed r hr
        (hf.mono ((List.prefix_append _ _).trans htl.tys))
      refine ⟨_, ?_, shortCircuit_typed isAnd htl.tys htr.tys⟩
      rw [hl', Option.bind_eq_bind, Option.bind_some, hr']
      rfl
    by_cases hand : op = .and
    · subst hand
      exact hlogical true (.inl rfl)
    by_cases hor : op = .or
    · subst hor
      exact hlogical false (.inr rfl)
    obtain ⟨irop, hirop⟩ := isSome_of_binaryTy hand hor
    obtain ⟨l', hl', htl⟩ := lowerExpr_typed l hl hf
    obtain ⟨r', hr', htr⟩ := lowerExpr_typed r hr (hf.mono htl.tys)
    refine ⟨_, ?_, emit_typed (.seq l'.code r'.code)
      (.binOp irop l'.op r'.op (arithMode l'.ty irop)) t.ir (htl.tys.trans htr.tys)⟩
    rw [lowerExpr_binary hirop, hl', Option.bind_eq_bind, Option.bind_some, hr',
      ← binaryTy_ir hirop hop, ← htl.ty]
    rfl
  | .call f args, L, tys, t, ht, hf => by
    obtain ⟨ts, fid, fn, hts, hfn, hret⟩ := typeOf_call ht
    obtain ⟨out, hargs, hp, _⟩ := lowerArgs_typed args hts hf
    refine ⟨_, ?_, hret ▸ lowerCall_typed fid fn hp⟩
    rw [lowerExpr_call hfn, hargs]
    rfl

theorem lowerArgs_typed : ∀ (es : List Expr) {L : Layout} {tys : List Ir.Ty} {ts : List Ty},
    typesOf p L.ctx es = some ts → L.Fits tys →
    ∃ out, lowerArgs p L.slots tys es = some out ∧ tys <+: out.2.2 ∧
      ∀ op ∈ out.2.1, Below out.2.2.length op
  | [], L, tys, ts, ht, hf => ⟨_, rfl, List.prefix_refl _, fun op hop => (by cases hop)⟩
  | e :: es, L, tys, ts, ht, hf => by
    obtain ⟨t, he, ht⟩ := Option.bind_eq_some_iff.mp ht
    obtain ⟨ts', hes, rfl⟩ := Option.map_eq_some_iff.mp ht
    obtain ⟨r, hr, htr⟩ := lowerExpr_typed e he hf
    obtain ⟨out, hargs, hp, hops⟩ := lowerArgs_typed es hes (hf.mono htr.tys)
    refine ⟨(.seq r.code out.1, r.op :: out.2.1, out.2.2), ?_, htr.tys.trans hp, ?_⟩
    · rw [lowerArgs, hr, Option.bind_eq_bind, Option.bind_some, hargs]
      rfl
    · intro op hop
      rcases List.mem_cons.mp hop with rfl | hop
      · exact htr.op.mono hp.length_le
      · exact hops op hop

end

end Exprs

section Stmts

variable {p : Program} {ret : Option Ty} {L : Layout} {tys : List Ir.Ty}

/-- A call as a statement, or an expression. -/
theorem lowerExpr_of_callTyped {e : Expr} (ht : callTyped p L.ctx e = true) (hf : L.Fits tys) :
    ∃ r, lowerExpr p L.slots tys e = some r ∧ tys <+: r.tys := by
  have hother (h : (typeOf p L.ctx e).isSome = true) :
      ∃ r, lowerExpr p L.slots tys e = some r ∧ tys <+: r.tys := by
    obtain ⟨t, ht⟩ := Option.isSome_iff_exists.mp h
    obtain ⟨r, hr, htr⟩ := lowerExpr_typed e ht hf
    exact ⟨r, hr, htr.tys⟩
  cases e with
  | call f args =>
    obtain ⟨⟨fid, fn⟩, h⟩ := Option.isSome_iff_exists.mp ht
    obtain ⟨ts, hts, hfn⟩ := Option.bind_eq_some_iff.mp h
    obtain ⟨out, hargs, hp, _⟩ := lowerArgs_typed args hts hf
    refine ⟨_, ?_, (lowerCall_typed fid fn hp).tys⟩
    rw [lowerExpr_call hfn, hargs]
    rfl
  | _ => exact hother ht

/-- The bindings behind a statement have one of the same shape for their locals. -/
structure Layout.Behind (L' L : Layout) (ctx : Scopes Ty) (tys' tys : List Ir.Ty) : Prop where
  ctx : L'.ctx = ctx
  tail : L'.tail = L.tail
  fits : L'.Fits tys'
  tys : tys <+: tys'

theorem Layout.Fits.stay {tys' : List Ir.Ty} (h : L.Fits tys) (hp : tys <+: tys') :
    Layout.Behind L L L.ctx tys' tys :=
  ⟨rfl, rfl, h.mono hp, hp⟩

theorem Layout.slots_bind (L : Layout) (x : String) (b : Nat × Ty) :
    Layout.slots (Scopes.bind x b L) = L.slots.bind x b.1 := bind_map _ L x b

/-- A declaration, behind its initializer. -/
theorem Layout.Fits.declare {tys' : List Ir.Ty} (h : L.Fits tys) (hp : tys <+: tys') (x : String)
    (t : Ty) : Layout.Behind (Scopes.bind x (tys'.length, t) L) L (L.ctx.bind x t)
      (tys' ++ [t.ir]) tys := by
  refine ⟨bind_map _ L x _, ?_, (h.mono hp).bind x, hp.trans (List.prefix_append _ _)⟩
  cases L <;> rfl

/-- The declared type is that of the initializer. -/
theorem declared_ir {ty : Option Ty} {t : Ty} {vty : Ir.Ty} (hty : ty = none ∨ ty = some t)
    (hv : vty = t.ir) : (ty.map Ty.ir).getD vty = t.ir := by
  rcases hty with rfl | rfl
  · exact hv
  · rfl

mutual

theorem lowerStmt_typed : ∀ (s : Stmt) {inLoop : Bool} {L : Layout} {tys : List Ir.Ty}
    {ctx : Scopes Ty}, stmtTyped p ret inLoop L.ctx s = some ctx → L.Fits tys →
    ∃ (c : Control.Stmt Op) (L' : Layout) (tys' : List Ir.Ty),
      lowerStmt p L.slots tys s = some (c, L'.slots, tys') ∧ L'.Behind L ctx tys' tys
  | .var x ty e, inLoop, L, tys, ctx, ht, hf => by
    obtain ⟨t, he, ht⟩ := Option.bind_eq_some_iff.mp ht
    split_ifs at ht with hty
    cases ht
    obtain ⟨r, hr, htr⟩ := lowerExpr_typed e he hf
    refine ⟨.eval (emit r.code (.use r.op) t.ir r.tys).code, Scopes.bind x (r.tys.length, t) L,
      r.tys ++ [t.ir], ?_, hf.declare htr.tys x t⟩
    rw [lowerStmt, hr, Option.bind_eq_bind, Option.bind_some, declared_ir hty htr.ty,
      Layout.slots_bind]
    rfl
  | .assign x op e, inLoop, L, tys, ctx, ht, hf => by
    obtain ⟨t, he, ht⟩ := Option.bind_eq_some_iff.mp ht
    split_ifs at ht with hx
    cases ht
    obtain ⟨l, _, hl, hty⟩ := hf.find hx.1
    obtain ⟨r, hr, htr⟩ := lowerExpr_typed e he hf
    have hop : ∃ code, lowerAssign l t.ir r op = some code := by
      cases op <;> exact ⟨_, rfl⟩
    obtain ⟨code, hcode⟩ := hop
    refine ⟨.eval code, L, r.tys, ?_, hf.stay htr.tys⟩
    simp only [lowerStmt, hl, hty, hr, hcode, Option.bind_eq_bind, Option.bind_some]
    rfl
  | .fr chain, inLoop, L, tys, ctx, ht, hf => by
    rw [stmtTyped] at ht
    split_ifs at ht with hc
    cases ht
    obtain ⟨c, tys', hlow, hp⟩ := emitIfChain_typed chain hc hf
    refine ⟨.fr c, L, tys', ?_, hf.stay hp⟩
    rw [lowerStmt, hlow]
    rfl
  | .vibin cond body, inLoop, L, tys, ctx, ht, hf => by
    rw [stmtTyped] at ht
    split_ifs at ht with hc
    cases ht
    obtain ⟨r, hr, htr⟩ := lowerExpr_typed cond hc.1 hf
    obtain ⟨b, tys', hb, hp⟩ := lowerStmts_typed (L := [] :: L) body hc.2 (hf.mono htr.tys).push
    refine ⟨.vibin r.code (.cond r.op) b, L, tys', ?_, hf.stay (htr.tys.trans hp)⟩
    rw [lowerStmt, hr, Option.bind_eq_bind, Option.bind_some]
    exact congrArg (Option.bind · _) hb
  | .dip, inLoop, L, tys, ctx, ht, hf => by
    rw [stmtTyped] at ht
    split_ifs at ht
    cases ht
    exact ⟨.dip, L, tys, rfl, hf.stay (List.prefix_refl _)⟩
  | .skip, inLoop, L, tys, ctx, ht, hf => by
    rw [stmtTyped] at ht
    split_ifs at ht
    cases ht
    exact ⟨.skip, L, tys, rfl, hf.stay (List.prefix_refl _)⟩
  | .bet none, inLoop, L, tys, ctx, ht, hf => by
    rw [stmtTyped] at ht
    split_ifs at ht
    cases ht
    exact ⟨.bet 0 (.op (.ret [])), L, tys, rfl, hf.stay (List.prefix_refl _)⟩
  | .bet (some e), inLoop, L, tys, ctx, ht, hf => by
    rw [stmtTyped] at ht
    split_ifs at ht with hc
    cases ht
    obtain ⟨t, hret⟩ := Option.ne_none_iff_exists'.mp hc.1
    obtain ⟨r, hr, htr⟩ := lowerExpr_typed e (hc.2.trans hret) hf
    refine ⟨.bet 1 (.seq r.code (.op (.ret [r.op]))), L, r.tys, ?_, hf.stay htr.tys⟩
    rw [lowerStmt, hr]
    rfl
  | .expr e, inLoop, L, tys, ctx, ht, hf => by
    rw [stmtTyped] at ht
    split_ifs at ht with hc
    cases ht
    obtain ⟨r, hr, hp⟩ := lowerExpr_of_callTyped hc hf
    refine ⟨.eval r.code, L, r.tys, ?_, hf.stay hp⟩
    rw [lowerStmt, hr]
    rfl

theorem emitIfChain_typed : ∀ (chain : Chain) {inLoop : Bool} {L : Layout} {tys : List Ir.Ty},
    chainTyped p ret inLoop L.ctx chain = true → L.Fits tys →
    ∃ c tys', emitIfChain p L.slots tys chain = some (c, tys') ∧ tys <+: tys'
  | .done, inLoop, L, tys, ht, hf => ⟨.done, tys, rfl, List.prefix_refl _⟩
  | .naw body, inLoop, L, tys, ht, hf => by
    obtain ⟨b, tys', hb, hp⟩ := lowerStmts_typed (L := [] :: L) body ht hf.push
    refine ⟨.naw b, tys', ?_, hp⟩
    rw [emitIfChain]
    exact congrArg (Option.bind · _) hb
  | .fr cond body rest, inLoop, L, tys, ht, hf => by
    rw [chainTyped, Bool.and_eq_true, Bool.and_eq_true, decide_eq_true_eq] at ht
    obtain ⟨⟨hc, hbody⟩, hrest⟩ := ht
    obtain ⟨r, hr, htr⟩ := lowerExpr_typed cond hc hf
    obtain ⟨b, tys₁, hb, hp₁⟩ := lowerStmts_typed (L := [] :: L) body hbody (hf.mono htr.tys).push
    have hp := htr.tys.trans hp₁
    obtain ⟨c, tys₂, hrest, hp₂⟩ := emitIfChain_typed rest hrest (hf.mono hp)
    refine ⟨.fr r.code (.cond r.op) b c, tys₂, ?_, hp.trans hp₂⟩
    rw [emitIfChain, hr, Option.bind_eq_bind, Option.bind_some]
    refine (congrArg (Option.bind · _) hb).trans ?_
    exact congrArg (Option.bind · _) hrest

theorem lowerStmts_typed : ∀ (b : Block) {inLoop : Bool} {L : Layout} {tys : List Ir.Ty},
    stmtsTyped p ret inLoop L.ctx b = true → L.Fits tys →
    ∃ c tys', lowerStmts p L.slots tys b = some (c, tys') ∧ tys <+: tys'
  | .nil, inLoop, L, tys, ht, hf => ⟨.nil, tys, rfl, List.prefix_refl _⟩
  | .cons s rest, inLoop, L, tys, ht, hf => by
    rw [stmtsTyped] at ht
    cases hs : stmtTyped p ret inLoop L.ctx s with
    | none =>
      rw [hs] at ht
      cases ht
    | some ctx =>
      rw [hs] at ht
      obtain ⟨c, L', tys₁, hc, hL⟩ := lowerStmt_typed s hs hf
      rw [← hL.ctx] at ht
      obtain ⟨cs, tys₂, hcs, hp⟩ := lowerStmts_typed rest ht hL.fits
      rw [lowerStmts, hc, Option.bind_eq_bind, Option.bind_some]
      cases hleave : s.leaves with
      | true => exact ⟨_, _, rfl, hL.tys⟩
      | false => exact ⟨_, _, congrArg (Option.bind · _) hcs, hL.tys.trans hp⟩

end

end Stmts

end BetLang.Scalar
