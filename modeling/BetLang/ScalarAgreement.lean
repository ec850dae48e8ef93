import BetLang.ScalarLayout
import BetLang.ScalarOps

/-! The code of the scalar core does what the interpreter does: the locals of the machine have the values
of the environment. -/

namespace BetLang.Scalar

open Control.Interp (Comp Outcome instr perform choose)
open Interp (Value RunError)
open OrderedCalls (andThen)

/-- The local of a binding has its value. -/
def Holds (m : Machine) (b : Nat × Ty) (v : Value) : Prop :=
  HasTy v b.2 ∧ m.locals b.1 = scalar v

def Bound (m : Machine) (b : String × Nat × Ty) (c : String × Value) : Prop :=
  b.1 = c.1 ∧ Holds m b.2 c.2

/-- The locals have the values of the environment. -/
def Stored (L : Layout) (env : Env) (m : Machine) : Prop :=
  List.Forall₂ (List.Forall₂ (Bound m)) L env

section Stored

variable {L : Layout} {env : Env} {m m' : Machine} {x : String}

theorem lookup_rel {sc : List (String × Nat × Ty)} {sc' : List (String × Value)}
    (h : List.Forall₂ (Bound m) sc sc') (x : String) :
    Option.Rel (Holds m) (sc.lookup x) (sc'.lookup x) := by
  induction h with
  | nil => exact .none
  | @cons b c sc sc' hb _ ih =>
    rw [List.lookup_cons, List.lookup_cons, hb.1]
    cases x == c.1 with
    | true => exact .some hb.2
    | false => exact ih

theorem Stored.find_rel (h : Stored L env m) (x : String) :
    Option.Rel (Holds m) (L.find x) (env.find x) := by
  induction h with
  | nil => exact .none
  | @cons sc sc' L env hsc _ ih =>
    rw [Scopes.find, Scopes.find, List.findSome?_cons, List.findSome?_cons]
    have hrel := lookup_rel hsc x
    generalize sc.lookup x = o, sc'.lookup x = o' at hrel
    cases hrel with
    | some hv => exact .some hv
    | none => exact ih

theorem Stored.find (h : Stored L env m) {b : Nat × Ty} (hx : L.find x = some b) :
    ∃ v, env.find x = some v ∧ Holds m b v := by
  have hrel := h.find_rel x
  rw [hx] at hrel
  generalize env.find x = o at hrel
  cases hrel with
  | some hv => exact ⟨_, rfl, hv⟩

theorem Stored.find_none (h : Stored L env m) (hx : L.find x = none) : env.find x = none := by
  have hrel := h.find_rel x
  rw [hx] at hrel
  generalize env.find x = o at hrel
  cases hrel
  rfl

theorem scope_keep {sc : List (String × Nat × Ty)} {sc' : List (String × Value)}
    (h : List.Forall₂ (Bound m) sc sc') (hm : ∀ b ∈ sc, m'.locals b.2.1 = m.locals b.2.1) :
    List.Forall₂ (Bound m') sc sc' := by
  induction h with
  | nil => exact .nil
  | cons hb _ ih =>
    have hhead := hm _ List.mem_cons_self
    exact .cons ⟨hb.1, hb.2.1, hhead.trans hb.2.2⟩ (ih fun b hb => hm b (List.mem_cons_of_mem _ hb))

theorem bindings_cons (sc : List (String × Nat × Ty)) (L : Layout) :
    Scopes.bindings (sc :: L) = sc.map (·.2) ++ L.bindings := by
  rw [Scopes.bindings, List.flatten_cons, List.map_append]
  rfl

/-- Only the locals of the bindings matter. -/
theorem Stored.keep (h : Stored L env m)
    (hm : ∀ b ∈ L.bindings, m'.locals b.1 = m.locals b.1) : Stored L env m' := by
  induction h with
  | nil => exact .nil
  | cons hsc _ ih =>
    rw [bindings_cons] at hm
    refine .cons (scope_keep hsc fun b hb => ?_) (ih fun b hb => ?_)
    · exact hm _ (List.mem_append_left _ (List.mem_map.mpr ⟨b, hb, rfl⟩))
    · exact hm b (List.mem_append_right _ hb)

theorem Stored.push (h : Stored L env m) : Stored ([] :: L) ([] :: env) m := .cons .nil h

theorem Stored.tail (h : Stored L env m) : Stored L.tail env.tail m := by
  cases h with
  | nil => exact .nil
  | cons _ h => exact h

theorem Stored.bind (h : Stored L env m) {b : Nat × Ty} {v : Value} (hv : Holds m b v)
    (x : String) : Stored (Scopes.bind x b L) (Scopes.bind x v env) m := by
  cases h with
  | nil => exact .nil
  | cons hsc h => exact .cons (.cons ⟨rfl, hv⟩ hsc) h

theorem Machine.set_self (m : Machine) (l : Nat) (v : Option (Codegen.Scalar 64)) :
    (m.set l v).locals l = v := if_pos rfl

theorem Machine.set_ne (m : Machine) {l i : Nat} (v : Option (Codegen.Scalar 64)) (h : i ≠ l) :
    (m.set l v).locals i = m.locals i := if_neg h

theorem slot_ne {bs : List (String × Nat × Ty)} {l : Nat} (h : l ∉ bs.map (·.2.1))
    {b : String × Nat × Ty} (hb : b ∈ bs) : b.2.1 ≠ l := by
  rintro rfl
  exact h (List.mem_map.mpr ⟨b, hb, rfl⟩)

theorem scope_set {sc : List (String × Nat × Ty)} {sc' : List (String × Value)}
    (h : List.Forall₂ (Bound m) sc sc') (hd : (sc.map (·.2.1)).Nodup) {b : Nat × Ty}
    (hx : sc.lookup x = some b) {v : Value} (hv : HasTy v b.2) :
    List.Forall₂ (Bound (m.set b.1 (scalar v))) sc (setIn x v sc') := by
  induction h with
  | nil => cases hx
  | @cons a c sc sc' ha h ih =>
    obtain ⟨y, old⟩ := c
    rw [List.map_cons, List.nodup_cons] at hd
    rw [List.lookup_cons, ha.1, BEq.comm] at hx
    rw [setIn]
    by_cases heq : y == x
    · rw [if_pos heq]
      rw [heq] at hx
      cases hx
      refine .cons ⟨ha.1, hv, m.set_self _ _⟩ (scope_keep h fun a' ha' => ?_)
      exact m.set_ne _ (slot_ne hd.1 ha')
    · rw [if_neg heq]
      rw [Bool.eq_false_iff.mpr heq] at hx
      have hmem : b.1 ∈ sc.map (·.2.1) := List.mem_map.mpr ⟨_, mem_of_lookup hx, rfl⟩
      refine .cons ⟨ha.1, ha.2.1, (m.set_ne _ fun hab => hd.1 ?_).trans ha.2.2⟩ (ih hd.2 hx)
      rw [hab]
      exact hmem

/-- An assignment, to the local of the name that is in scope. -/
theorem Stored.set (h : Stored L env m) (hd : (L.bindings.map (·.1)).Nodup) {b : Nat × Ty}
    (hx : L.find x = some b) {v : Value} (hv : HasTy v b.2) :
    Stored L (env.set x v) (m.set b.1 (scalar v)) := by
  induction h with
  | nil => cases hx
  | @cons sc sc' L env hsc h ih =>
    rw [bindings_cons, List.map_append, List.map_map] at hd
    obtain ⟨hd₁, hd₂, hdis⟩ := List.nodup_append.mp hd
    rw [Scopes.find, List.findSome?_cons] at hx
    have hrel := lookup_rel hsc x
    rw [Env.set]
    cases hsome : sc.lookup x with
    | some b' =>
      rw [hsome] at hx hrel
      cases hx
      have hin : (sc'.lookup x).isSome = true := by
        generalize sc'.lookup x = o at hrel
        cases hrel
        rfl
      rw [if_pos hin]
      have hmem : b.1 ∈ sc.map (·.2.1) := List.mem_map.mpr ⟨_, mem_of_lookup hsome, rfl⟩
      refine .cons (scope_set hsc hd₁ hsome hv) (Stored.keep h fun a ha => m.set_ne _ fun hab => ?_)
      exact hdis _ hmem _ (List.mem_map.mpr ⟨a, ha, rfl⟩) hab.symm
    | none =>
      rw [hsome] at hx hrel
      have hin : ¬ (sc'.lookup x).isSome = true := by
        generalize sc'.lookup x = o at hrel
        cases hrel
        exact Bool.false_ne_true
      rw [if_neg hin]
      refine .cons (scope_keep hsc fun a ha => m.set_ne _ fun hab => ?_) (ih hd₂ hx)
      exact hdis _ (List.mem_map.mpr ⟨a, ha, rfl⟩) _ (List.mem_map.mpr ⟨b, mem_bindings hx, rfl⟩)
        hab

end Stored

/-- What a function returns. -/
inductive Returned : Option Ty → List Value → Prop where
  | none : Returned none []
  | some {t : Ty} {v : Value} (h : HasTy v t) : Returned (some t) [v]

/-- Calls come to the same results, and only write the local of the result. -/
def CallsMatch (p : Program) (call : FnDecl → Nat → List Value → Run (List Value))
    (call' : Op → Comp Machine) : Prop :=
  ∀ {f : String} {fid : Nat} {fn : FnDecl}, p.find f = some (fid, fn) →
    ∀ d vals, List.Forall₂ HasTy vals (fn.params.map (·.2)) →
    ∀ dest ops m, ops.map (evalOperand m.locals) = vals.map scalar →
      Matches (Normal fun rets m' => Returned fn.ret rets ∧
          m'.locals = m.locals.set dest (rets.head?.bind scalar) ∧ m'.rets = m.rets ∧
          m'.saved = m.saved)
        (call fn d vals) (call' (.call dest fid ops) m)

/-- Of the running function only later locals are written, of the callers none. -/
def Kept (n : Nat) (m m' : Machine) : Prop :=
  (∀ i < n, m'.locals i = m.locals i) ∧ m'.rets = m.rets ∧ m'.saved = m.saved

section Kept

variable {n k : Nat} {m m' m'' : Machine}

theorem Kept.refl (n : Nat) (m : Machine) : Kept n m m := ⟨fun _ _ => rfl, rfl, rfl⟩

theorem Kept.mono (h : Kept k m m') (hn : n ≤ k) : Kept n m m' :=
  ⟨fun i hi => h.1 i (Nat.lt_of_lt_of_le hi hn), h.2⟩

theorem Kept.trans (h : Kept n m m') (h' : Kept n m' m'') : Kept n m m'' :=
  ⟨fun i hi => (h'.1 i hi).trans (h.1 i hi), h'.2.1.trans h.2.1, h'.2.2.trans h.2.2⟩

theorem Kept.set (h : Kept n m m') (hk : n ≤ k) (v : Option (Codegen.Scalar 64)) :
    Kept n m (m'.set k v) :=
  ⟨fun i hi => (m'.set_ne v (Nat.ne_of_lt (Nat.lt_of_lt_of_le hi hk))).trans (h.1 i hi), h.2⟩

theorem Kept.stored {L : Layout} {env : Env} {tys : List Ir.Ty} (h : Kept tys.length m m')
    (hf : L.Fits tys) (hs : Stored L env m) : Stored L env m' :=
  hs.keep fun _ hb => h.1 _ (hf.lt hb)

end Kept

section Exprs

variable {p : Program} {call : FnDecl → Nat → List Value → Run (List Value)}
  {call' : Op → Comp Machine} {fuel : Nat}

/-- The value of an expression can be read from its operand. -/
def Evaluates (t : Ty) (op : Ir.Operand) (n : Nat) (m : Machine) (v : Value) (m' : Machine) :
    Prop :=
  HasTy v t ∧ evalOperand m'.locals op = scalar v ∧ Kept n m m'

abbrev exec (call' : Op → Comp Machine) (fuel : Nat) (code : Code) : Comp Machine :=
  Control.Interp.evalExpr sem call' fuel code

theorem pure_matches {t : Ty} {op : Ir.Operand} {n : Nat} {m : Machine} {v : Value} (hv : HasTy v t)
    (hop : evalOperand m.locals op = scalar v) :
    Matches (Normal (Evaluates t op n m)) (some (.ok v)) (exec call' fuel .nil m) :=
  .ok ⟨m, rfl, hv, hop, .refl n m⟩

theorem emit_matches {α : Type} {x : Run α} {k : α → Run Value} {code : Code} {rv : Ir.Rvalue}
    {ty : Ir.Ty} {t : Ty} {tys : List Ir.Ty} {n : Nat} {m : Machine} {R : α → Machine → Prop}
    (hx : Matches (Normal R) x (exec call' fuel code m)) (hn : n ≤ tys.length)
    (hk : ∀ a m₁, R a m₁ → Kept n m m₁ ∧ Matches (Normal (Assigned m₁ tys.length t)) (k a)
      (perform (fun m => m.assign tys.length (evalRvalue m₁.locals rv)) m₁)) :
    Matches (Normal (Evaluates t (emit code rv ty tys).op n m)) (andThen x k)
      (exec call' fuel (emit code rv ty tys).code m) := by
  refine hx.next fun a m₁ hR => ?_
  obtain ⟨hkept, hassign⟩ := hk a m₁ hR
  refine hassign.mono fun v out => ?_
  rintro ⟨m', rfl, hv, rfl⟩
  exact ⟨_, rfl, hv, m₁.set_self _ _, hkept.set hn _⟩

theorem asBool_matches {op : Ir.Operand} {n : Nat} {m : Machine} {x : Run Value}
    {out : Option (Outcome Machine)} (h : Matches (Normal (Evaluates .bool op n m)) x out) :
    Matches (Normal fun b m' => evalOperand m'.locals op = some (.bool b) ∧ Kept n m m')
      (andThen x asBool) out := by
  refine h.andThen fun v m' ⟨hv, hop, hkept⟩ => ?_
  cases hv with
  | bool b => exact .ok ⟨m', rfl, hop, hkept⟩

theorem andThen_pair {α β γ : Type} (x : Run α) (y : Run β) (k : α → β → Run γ) :
    (andThen x fun a => andThen y fun b => k a b) =
      andThen (andThen x fun a => andThen y fun b => some (.ok (a, b))) fun ab => k ab.1 ab.2 := by
  rw [OrderedCalls.andThen_assoc]
  congr
  funext a
  rw [OrderedCalls.andThen_assoc]
  rfl

theorem evalExpr_binary {op : Ast.BinOp} {irop : Ir.BinOp} (hop : Ast.mapBinop op = some irop)
    (env : Env) (l r : Expr) (d : Nat) :
    evalExpr p call env (.binary op l r) d = deeper d fun d =>
      andThen (evalExpr p call env l d) fun l =>
        andThen (evalExpr p call env r d) fun r => some (binaryOp op l r) := by
  cases op with
  | and | or => cases hop
  | _ =>
    cases hop
    rfl

theorem seq_matches {α β : Type} {x : Run α} {y : Run β} {c c' : Code} {m : Machine}
    {R : α → Machine → Prop} {Q : α × β → Machine → Prop}
    (hx : Matches (Normal R) x (exec call' fuel c m))
    (hy : ∀ a m₁, R a m₁ → Matches (Normal fun b m' => Q (a, b) m') y (exec call' fuel c' m₁)) :
    Matches (Normal Q) (andThen x fun a => andThen y fun b => some (.ok (a, b)))
      (exec call' fuel (.seq c c') m) :=
  hx.next fun a m₁ hR => (hy a m₁ hR).andThen fun _ m₂ hQ => .ok ⟨m₂, rfl, hQ⟩

/-- The bool that is tested is that of the left operand. -/
theorem choose_matches {b : Bool} {res : Nat} {l r : Lowered} {m : Machine} {α : Type}
    {R : α → Outcome Machine → Prop} {x : Run α} {y z : Comp Machine}
    (hb : evalOperand m.locals l.op = some (.bool b))
    (ht : b = true → Matches R x (y m)) (hf : b = false → Matches R x (z m)) :
    Matches R x (choose sem (.cond (.shortCircuit res l.op r.op)) y z m) := by
  have htest : sem.test (.cond (.shortCircuit res l.op r.op)) m = b := by
    change (evalOperand m.locals l.op == some (.bool true)) = b
    rw [hb]
    cases b <;> rfl
  rw [choose, htest]
  cases b with
  | true => exact ht rfl
  | false => exact hf rfl

theorem shortCircuit_matches (isAnd : Bool) {x y : Run Value} {l r : Lowered} {tys : List Ir.Ty}
    {m : Machine} (hl : tys ++ [.bool] <+: l.tys)
    (hx : Matches (Normal (Evaluates .bool l.op (tys ++ [Ir.Ty.bool]).length m)) x
      (exec call' fuel l.code m))
    (hy : ∀ m₁, Kept (tys ++ [Ir.Ty.bool]).length m m₁ →
      Matches (Normal (Evaluates .bool r.op l.tys.length m₁)) y (exec call' fuel r.code m₁)) :
    Matches (Normal (Evaluates .bool (copy tys.length) tys.length m))
      (andThen (andThen x asBool) fun b =>
        if b = isAnd then andThen (andThen y asBool) fun b => some (.ok (.bool b))
        else some (.ok (.bool !isAnd)))
      (exec call' fuel (shortCircuit isAnd tys.length l r).code m) := by
  have hle : tys.length ≤ (tys ++ [Ir.Ty.bool]).length := (List.prefix_append _ _).length_le
  refine (asBool_matches hx).next fun b m₁ ⟨hb, hkept⟩ => ?_
  have hset {m₂ : Machine} (h : Kept tys.length m m₂) {v : Option (Codegen.Scalar 64)} {b : Bool}
      (hv : v = some (.bool b)) : Matches (Normal (Evaluates .bool (copy tys.length) tys.length m))
        (some (.ok (.bool b))) (some (.normal (m₂.set tys.length v))) :=
    .ok ⟨_, rfl, .bool b, (m₂.set_self _ _).trans hv, h.set (Nat.le_refl _) _⟩
  have hshort : Matches (Normal (Evaluates .bool (copy tys.length) tys.length m))
      (some (.ok (.bool !isAnd)))
      (instr sem (.short (.shortCircuit tys.length l.op r.op) !isAnd) m₁) :=
    hset (hkept.mono hle) rfl
  have hrhs : Matches (Normal (Evaluates .bool (copy tys.length) tys.length m))
      (andThen (andThen y asBool) fun b => some (.ok (.bool b)))
      (Control.Interp.next (exec call' fuel r.code)
        (instr sem (.keep (.shortCircuit tys.length l.op r.op))) m₁) := by
    refine (asBool_matches (hy m₁ hkept)).next fun b' m₂ ⟨hb', hkept'⟩ => ?_
    exact hset ((hkept.mono hle).trans (hkept'.mono (hle.trans hl.length_le))) hb'
  cases isAnd with
  | true =>
    refine choose_matches hb (fun h => ?_) (fun h => ?_)
    · rw [if_pos h]
      exact hrhs
    · rw [if_neg (by rw [h]; exact Bool.false_ne_true)]
      exact hshort
  | false =>
    refine choose_matches hb (fun h => ?_) (fun h => ?_)
    · rw [if_neg (by rw [h]; exact Bool.noConfusion)]
      exact hshort
    · rw [if_pos h]
      exact hrhs

/-- A call, from the code of its arguments on. -/
theorem call_matches (hcall : CallsMatch p call call') {f : String} {ts : List Ty} {fid : Nat}
    {fn : FnDecl} {L : Layout} {tys : List Ir.Ty} {env : Env} {m : Machine} {args : List Expr}
    {d : Nat} {out : Code × List Ir.Operand × List Ir.Ty}
    (hfn : callTarget p L.ctx f ts = some (fid, fn)) (hs : Stored L env m) (hp : tys <+: out.2.2)
    (hargs : Matches (Normal fun vs m' => (List.Forall₂ HasTy vs ts ∧
        out.2.1.map (evalOperand m'.locals) = vs.map scalar) ∧ Kept tys.length m m')
      (evalExprs p call env args d) (exec call' fuel out.1 m)) :
    Matches (Normal fun rets m' => Returned fn.ret rets ∧
        evalOperand m'.locals (lowerCall fid fn out).op = rets.head?.bind scalar ∧
        Kept tys.length m m')
      (andThen (some (callee p env f)) fun fn => andThen (evalExprs p call env args d) (call fn d))
      (exec call' fuel (lowerCall fid fn out).code m) := by
  obtain ⟨hfind, hx, rfl⟩ := callTarget_some hfn
  rw [Layout.find_ctx, Option.map_eq_none_iff] at hx
  rw [callee, hs.find_none hx, named, hfind]
  refine hargs.next fun vs m₁ ⟨⟨hvs, hops⟩, hkept⟩ => ?_
  refine (hcall hfind d vs hvs _ _ m₁ hops).mono fun rets out' => ?_
  rintro ⟨m₂, rfl, hret, hlocals, hsaved⟩
  have hset : Kept tys.length m₁ m₂ := by
    refine ⟨fun i hi => ?_, hsaved⟩
    rw [hlocals, Locals.set, if_neg (Nat.ne_of_lt (Nat.lt_of_lt_of_le hi hp.length_le))]
  refine ⟨m₂, rfl, hret, ?_, hkept.trans hset⟩
  change m₂.locals out.2.2.length = _
  rw [hlocals, Locals.set, if_pos rfl]

mutual

theorem expr_matches (hcall : CallsMatch p call call') :
    ∀ (e : Expr) {L : Layout} {tys : List Ir.Ty} {t : Ty} {r : Lowered},
    typeOf p L.ctx e = some t → L.Fits tys → lowerExpr p L.slots tys e = some r →
    ∀ d {env : Env} {m : Machine}, Stored L env m →
      Matches (Normal (Evaluates t r.op tys.length m)) (evalExpr p call env e d)
        (exec call' fuel r.code m)
  | .int i, L, tys, t, r, ht, hf, hr, d, env, m, hs => by
    cases ht
    cases hr
    exact (pure_matches (.int _) rfl).deeper
  | .bool b, L, tys, t, r, ht, hf, hr, d, env, m, hs => by
    cases ht
    cases hr
    exact (pure_matches (.bool _) rfl).deeper
  | .name x, L, tys, t, r, ht, hf, hr, d, env, m, hs => by
    obtain ⟨l, hx, hl, hty⟩ := hf.find ht
    rw [lowerExpr, hl, Option.bind_eq_bind, Option.bind_some, hty] at hr
    cases hr
    obtain ⟨v, hv, hty, hlocal⟩ := hs.find hx
    have hval : evalOperand m.locals (copy l) = scalar v := hlocal
    rw [evalExpr, evalName, hv]
    exact (pure_matches hty hval).deeper
  | .unary op e, L, tys, t, r, ht, hf, hr, d, env, m, hs => by
    obtain ⟨te, he, hop⟩ := Option.bind_eq_some_iff.mp ht
    obtain ⟨r', hr', htr⟩ := lowerExpr_typed e he hf
    rw [lowerExpr, hr'] at hr
    cases hr
    rw [evalExpr]
    refine Matches.deeper (emit_matches (expr_matches hcall e he hf hr' (d + 1) hs)
      htr.tys.length_le fun v m₁ ⟨hv, hval, hkept⟩ => ⟨hkept, ?_⟩)
    rw [evalRvalue, hval]
    exact unaryOp_matches hop hv
  | .binary op l r, L, tys, t, r', ht, hf, hr', d, env, m, hs => by
    obtain ⟨tl, tr, hl, hr, hop⟩ := typeOf_binary ht
    have hpush : tys <+: tys ++ [.bool] := List.prefix_append _ _
    by_cases hand : op = .and
    · subst hand
      obtain ⟨rfl, rfl, rfl⟩ := binaryTy_logical (.inl rfl) hop
      obtain ⟨l', hl', htl⟩ := lowerExpr_typed l hl (hf.mono hpush)
      obtain ⟨r'', hr'', htr⟩ := lowerExpr_typed r hr (hf.mono (hpush.trans htl.tys))
      rw [lowerExpr, hl', Option.bind_eq_bind, Option.bind_some, hr''] at hr'
      cases hr'
      rw [evalExpr]
      refine Matches.deeper (shortCircuit_matches true htl.tys
        (expr_matches hcall l hl (hf.mono hpush) hl' (d + 1) hs) fun m₁ hkept => ?_)
      exact expr_matches hcall r hr (hf.mono (hpush.trans htl.tys)) hr'' (d + 1)
        (hkept.stored (hf.mono hpush) hs)
    by_cases hor : op = .or
    · subst hor
      obtain ⟨rfl, rfl, rfl⟩ := binaryTy_logical (.inr rfl) hop
      obtain ⟨l', hl', htl⟩ := lowerExpr_typed l hl (hf.mono hpush)
      obtain ⟨r'', hr'', htr⟩ := lowerExpr_typed r hr (hf.mono (hpush.trans htl.tys))
      rw [lowerExpr, hl', Option.bind_eq_bind, Option.bind_some, hr''] at hr'
      cases hr'
      rw [evalExpr]
      have hswap {x y : Run Value} : (fun b : Bool => if b then x else y) =
          fun b => if b = false then y else x := by
        funext b
        cases b <;> rfl
      refine Matches.deeper ?_
      rw [hswap]
      refine shortCircuit_matches false htl.tys
        (expr_matches hcall l hl (hf.mono hpush) hl' (d + 1) hs) fun m₁ hkept => ?_
      exact expr_matches hcall r hr (hf.mono (hpush.trans htl.tys)) hr'' (d + 1)
        (hkept.stored (hf.mono hpush) hs)
    obtain ⟨irop, hirop⟩ := isSome_of_binaryTy hand hor
    obtain ⟨l', hl', htl⟩ := lowerExpr_typed l hl hf
    obtain ⟨r'', hr'', htr⟩ := lowerExpr_typed r hr (hf.mono htl.tys)
    rw [lowerExpr_binary hirop, hl', Option.bind_eq_bind, Option.bind_some, hr''] at hr'
    cases hr'
    rw [evalExpr_binary hirop]
    refine Matches.deeper ?_
    rw [andThen_pair]
    refine emit_matches (R := fun ab m' => (HasTy ab.1 tl ∧ HasTy ab.2 tr ∧
      evalOperand m'.locals l'.op = scalar ab.1 ∧ evalOperand m'.locals r''.op = scalar ab.2) ∧
      Kept tys.length m m') ?_ (htl.tys.trans htr.tys).length_le ?_
    · refine seq_matches (expr_matches hcall l hl hf hl' (d + 1) hs)
        fun a m₁ ⟨ha, hval, hkept⟩ => ?_
      refine (expr_matches hcall r hr (hf.mono htl.tys) hr'' (d + 1) (hkept.stored hf hs)).mono
        fun b out => ?_
      rintro ⟨m₂, rfl, hb, hval', hkept'⟩
      refine ⟨m₂, rfl, ⟨ha, hb, (htl.op _ _ hkept'.1).trans hval, hval'⟩, ?_⟩
      exact hkept.trans (hkept'.mono htl.tys.length_le)
    · rintro ⟨a, b⟩ m₁ ⟨⟨ha, hb, hval, hval'⟩, hkept⟩
      refine ⟨hkept, ?_⟩
      rw [evalRvalue, hval, hval', htl.ty]
      exact binaryOp_matches hirop hop ha hb
  | .call f args, L, tys, t, r, ht, hf, hr, d, env, m, hs => by
    obtain ⟨ts, fid, fn, hts, hfn, hret⟩ := typeOf_call ht
    obtain ⟨out, hargs, hp, _⟩ := lowerArgs_typed args hts hf
    rw [lowerExpr_call hfn, hargs] at hr
    cases hr
    rw [evalExpr]
    refine Matches.deeper (Matches.andThen
      (call_matches hcall hfn hs hp (exprs_matches hcall args hts hf hargs (d + 1) hs)) ?_)
    rintro rets m' ⟨hrets, hval, hkept⟩
    rw [hret] at hrets
    cases hrets with
    | some hv => exact .ok ⟨m', rfl, hv, hval, hkept⟩

theorem exprs_matches (hcall : CallsMatch p call call') :
    ∀ (es : List Expr) {L : Layout} {tys : List Ir.Ty} {ts : List Ty}
      {out : Code × List Ir.Operand × List Ir.Ty},
    typesOf p L.ctx es = some ts → L.Fits tys → lowerArgs p L.slots tys es = some out →
    ∀ d {env : Env} {m : Machine}, Stored L env m →
      Matches (Normal fun vs m' => (List.Forall₂ HasTy vs ts ∧
          out.2.1.map (evalOperand m'.locals) = vs.map scalar) ∧ Kept tys.length m m')
        (evalExprs p call env es d) (exec call' fuel out.1 m)
  | [], L, tys, ts, out, ht, hf, hout, d, env, m, hs => by
    cases ht
    cases hout
    exact .ok ⟨m, rfl, ⟨.nil, rfl⟩, .refl _ m⟩
  | e :: es, L, tys, ts, out, ht, hf, hout, d, env, m, hs => by
    obtain ⟨t, he, ht⟩ := Option.bind_eq_some_iff.mp ht
    obtain ⟨ts', hes, rfl⟩ := Option.map_eq_some_iff.mp ht
    obtain ⟨r, hr, htr⟩ := lowerExpr_typed e he hf
    obtain ⟨out', hargs, hp, hops⟩ := lowerArgs_typed es hes (hf.mono htr.tys)
    rw [lowerArgs, hr, Option.bind_eq_bind, Option.bind_some, hargs] at hout
    cases hout
    rw [evalExprs]
    refine (expr_matches hcall e he hf hr d hs).next fun v m₁ ⟨hv, hval, hkept⟩ => ?_
    refine (exprs_matches hcall es hes (hf.mono htr.tys) hargs d (hkept.stored hf hs)).andThen
      fun vs m₂ ⟨⟨hvs, hvals⟩, hkept'⟩ => ?_
    refine .ok ⟨m₂, rfl, ⟨.cons hv hvs, ?_⟩, hkept.trans (hkept'.mono htr.tys.length_le)⟩
    rw [List.map_cons, List.map_cons, hvals, htr.op _ _ hkept'.1, hval]

end

end Exprs

end BetLang.Scalar
