import BetLang.FormatTypes
import Mathlib.Tactic.IntervalCases

/-! The expressions whose canonical form the parser reads back: what the printed form ends in, what
may then stand behind it, and that what a level of the ladder reads is read by the looser levels too. -/

namespace BetLang.Fmt

open Filter (atTop)
open Lexer (Token)
open BetLang.Parser
open Surface

section Brackets

def isBracket : Token → Bool
  | .lBracket | .lParen | .lBrace | .rBracket | .rParen | .rBrace => true
  | _ => false

/-- Tokens that close what they open, inside a group. -/
def Balanced (ts : List Token) : Prop :=
  ∀ depth : Int, 1 ≤ depth → ∀ rest, behindGroup depth (ts ++ rest) = behindGroup depth rest

variable {ts us : List Token}

theorem balanced_nil : Balanced [] := fun _ _ _ => rfl

theorem Balanced.append (hts : Balanced ts) (hus : Balanced us) : Balanced (ts ++ us) := by
  intro depth hdepth rest
  rw [List.append_assoc, hts depth hdepth, hus depth hdepth]

theorem Balanced.cons {t : Token} (ht : isBracket t = false) (hts : Balanced ts) :
    Balanced (t :: ts) := by
  intro depth hdepth rest
  rw [← hts depth hdepth rest]
  cases t <;> first | rfl | cases ht

theorem balanced_group {o c : Token} (ho : ∀ depth rest, behindGroup depth (o :: rest) = behindGroup (depth + 1) rest)
    (hc : ∀ depth rest, behindGroup depth (c :: rest) =
      if depth - 1 = 0 then rest.head? else behindGroup (depth - 1) rest)
    (hts : Balanced ts) : Balanced (o :: (ts ++ [c])) := by
  intro depth hdepth rest
  have hclose : ¬depth + 1 - 1 = 0 := by omega
  have hback : depth + 1 - 1 = depth := by omega
  rw [List.cons_append, ho, List.append_assoc, hts (depth + 1) (by omega), List.singleton_append, hc, if_neg hclose,
    hback]

theorem balanced_parens (hts : Balanced ts) : Balanced (parens ts) :=
  balanced_group (fun _ _ => rfl) (fun _ _ => rfl) hts

theorem balanced_brackets (hts : Balanced ts) : Balanced (brackets ts) :=
  balanced_group (fun _ _ => rfl) (fun _ _ => rfl) hts

theorem balanced_braces (hts : Balanced ts) : Balanced (braces ts) :=
  balanced_group (fun _ _ => rfl) (fun _ _ => rfl) hts

/-- The token behind a bracketed group. -/
theorem behindGroup_brackets (hts : Balanced ts) (rest : List Token) :
    behindGroup 0 (brackets ts ++ rest) = rest.head? := by
  simp only [brackets, List.cons_append, List.append_assoc, List.nil_append, behindGroup]
  rw [hts (0 + 1) (by omega), behindGroup, if_pos (by omega)]

theorem balanced_flatMap_comma {tss : List (List Token)} (h : ∀ ts ∈ tss, Balanced ts) :
    Balanced (tss.flatMap (.comma :: ·)) := by
  induction tss with
  | nil => exact balanced_nil
  | cons ts tss ih =>
    obtain ⟨hts, htss⟩ := List.forall_mem_cons.mp h
    exact (Balanced.cons rfl hts).append (ih htss)

theorem balanced_comma {tss : List (List Token)} (h : ∀ ts ∈ tss, Balanced ts) :
    Balanced (commaToks tss) := by
  cases tss with
  | nil => exact balanced_nil
  | cons ts tss =>
    obtain ⟨hts, htss⟩ := List.forall_mem_cons.mp h
    exact hts.append (balanced_flatMap_comma htss)

theorem balanced_path (p : Path String) : Balanced (pathToks p) := by
  obtain ⟨head, member⟩ := p
  cases member with
  | none => exact .cons rfl balanced_nil
  | some m => exact .cons rfl (.cons rfl (.cons rfl balanced_nil))

mutual

theorem balanced_ty : ∀ t : Ty String, Balanced (tyToks t)
  | .slice inner => (balanced_brackets balanced_nil).append (balanced_ty inner)
  | .array inner _ => (balanced_ty inner).append (balanced_brackets (.cons rfl balanced_nil))
  | .tag inner => .cons rfl (balanced_ty inner)
  | .crib inner => .cons rfl (balanced_ty inner)
  | .soa inner => .cons rfl (balanced_ty inner)
  | .fn params ret =>
    .cons rfl ((balanced_parens (balanced_comma (balanced_tys params))).append
      (.cons rfl (balanced_ty ret)))
  | .rawPtr => .cons rfl balanced_nil
  | .named name [] => (balanced_path name).append balanced_nil
  | .named name (g :: gs) =>
    (balanced_path name).append (balanced_brackets (balanced_comma (balanced_tys (g :: gs))))

theorem balanced_tys : ∀ ts : List (Ty String), ∀ toks ∈ tyTokss ts, Balanced toks
  | [] => fun _ h => by cases h
  | t :: ts => List.forall_mem_cons.mpr ⟨balanced_ty t, balanced_tys ts⟩

end

theorem balanced_typeArgs (gs : List (Ty String)) : Balanced (typeArgToks gs) := by
  cases gs with
  | nil => exact balanced_nil
  | cons g gs => exact balanced_brackets (balanced_comma (balanced_tys (g :: gs)))

theorem balanced_operand {print : Bool → List Token} (h : ∀ b, Balanced (print b)) (paren b : Bool) :
    Balanced (operandToks print paren b) := by
  cases paren with
  | true => exact balanced_parens (h false)
  | false => exact h b

theorem balanced_label (label : Option String) : Balanced (labelToks label) := by
  cases label with
  | none => exact balanced_nil
  | some s => exact .cons (by split <;> rfl) (.cons rfl balanced_nil)

theorem unopTok_plain (op : UnOp) : isBracket (unopTok op) = false := by cases op <;> rfl

theorem binopTok_plain (op : BinOp) : isBracket (binopTok op) = false := by cases op <;> rfl

mutual

theorem balanced_expr : ∀ (e : Expr String String) (b : Bool), Balanced (exprToks b e)
  | .int _, _ => .cons rfl balanced_nil
  | .float _, _ => .cons rfl balanced_nil
  | .str _, _ => .cons rfl balanced_nil
  | .byte _, _ => .cons rfl balanced_nil
  | .bool true, _ => .cons rfl balanced_nil
  | .bool false, _ => .cons rfl balanced_nil
  | .ghosted, _ => .cons rfl balanced_nil
  | .name _ generics, _ => .cons rfl (balanced_typeArgs generics)
  | .unary op x, b => .cons (unopTok_plain op) (balanced_operand (balanced_expr x) _ b)
  | .binary op l r, b =>
    (balanced_operand (balanced_expr l) _ b).append
      (.cons (binopTok_plain op) (balanced_operand (balanced_expr r) _ b))
  | .cast x ty, b => (balanced_operand (balanced_expr x) _ b).append (.cons rfl (balanced_ty ty))
  | .field base _ generics, b =>
    (balanced_operand (balanced_expr base) _ b).append
      (.cons rfl (.cons rfl (balanced_typeArgs generics)))
  | .method receiver _ generics args, b =>
    (balanced_operand (balanced_expr receiver) _ b).append
      (.cons rfl (.cons rfl ((balanced_typeArgs generics).append
        (balanced_parens (balanced_comma (balanced_args args))))))
  | .call callee args, b =>
    (balanced_operand (balanced_expr callee) _ b).append
      (balanced_parens (balanced_comma (balanced_args args)))
  | .index base index, b =>
    (balanced_operand (balanced_expr base) _ b).append (balanced_brackets (balanced_expr index false))
  | .trust tag crib, b =>
    (balanced_operand (balanced_expr tag) _ b).append
      (.cons rfl (.cons rfl ((balanced_parens balanced_nil).append
        (.cons rfl (balanced_operand (balanced_expr crib) _ b)))))
  | .struct lit, true => balanced_parens (balanced_struct lit)
  | .struct lit, false => balanced_struct lit
  | .array elems, _ => balanced_brackets (balanced_comma (balanced_exprs elems))
  | .cop init crib, b =>
    .cons rfl ((balanced_cop init).append (.cons rfl (balanced_operand (balanced_expr crib) _ b)))

theorem balanced_exprs : ∀ es : List (Expr String String), ∀ toks ∈ exprTokss es, Balanced toks
  | [] => fun _ h => by cases h
  | e :: es => List.forall_mem_cons.mpr ⟨balanced_expr e false, balanced_exprs es⟩

theorem balanced_args : ∀ as : List (Arg String String), ∀ toks ∈ argTokss as, Balanced toks
  | [] => fun _ h => by cases h
  | .mk label value :: as =>
    List.forall_mem_cons.mpr ⟨(balanced_label label).append (balanced_expr value false), balanced_args as⟩

theorem balanced_struct : ∀ lit : StructLit String String, Balanced (structToks lit)
  | .mk name generics fields =>
    ((balanced_path name).append (balanced_typeArgs generics)).append
      (balanced_braces (balanced_comma (balanced_fields fields)))

theorem balanced_fields : ∀ fs : List (FieldInit String String), ∀ toks ∈ fieldTokss fs, Balanced toks
  | [] => fun _ h => by cases h
  | .mk _ value :: fs =>
    List.forall_mem_cons.mpr ⟨.cons rfl (.cons rfl (balanced_expr value false)), balanced_fields fs⟩

theorem balanced_cop : ∀ init : CopInit String String, Balanced (copToks init)
  | .struct lit => balanced_struct lit
  | .variant name [] => (balanced_path name).append balanced_nil
  | .variant name (a :: as) =>
    (balanced_path name).append (balanced_parens (balanced_comma (balanced_args (a :: as))))

end

end Brackets

section Tails

/-- What the printed form of a postfix expression ends in. -/
inductive Tail where
  /-- a name that type arguments can follow -/
  | bare
  /-- a name with type arguments, which must be called -/
  | generic
  /-- a member, which becomes a method when it is called -/
  | member
  /-- a bracket behind a name, which becomes type arguments when it is called -/
  | indexed
  /-- the place of a new value, which takes all postfixes behind it -/
  | unclosed
  | closed
  deriving DecidableEq

def nameTail (generics : List (Ty String)) : Tail := if generics.isEmpty then .bare else .generic

def exprTail : Expr String String → Tail
  | .name _ generics => nameTail generics
  | .field _ _ _ => .member
  | .index base _ =>
    if exprPrec base < precPostfix then .closed
    else if exprTail base = .bare ∨ exprTail base = .member then .indexed
    else .closed
  | .trust _ crib => if exprPrec crib < precPostfix then .closed else exprTail crib
  | .cop _ _ => .unclosed
  | _ => .closed

/-- The tail of an expression where it stands before a postfix. -/
def baseTail (e : Expr String String) : Tail :=
  if exprPrec e < precPostfix then .closed else exprTail e

/-- What `primary` reads. -/
def isPrimary (noStruct : Bool) : Expr String String → Bool
  | .field _ _ _ | .method _ _ _ _ | .call _ _ | .index _ _ | .trust _ _ => false
  | .struct (.mk name _ _) => noStruct || name.member.isNone
  | _ => true

/-- Nothing that goes on with a postfix expression. -/
def Stop (noStruct : Bool) (rest : List Token) : Prop :=
  rest.head? ≠ some .dot ∧ rest.head? ≠ some .lParen ∧ rest.head? ≠ some .lBracket ∧
    (noStruct = false → rest.head? ≠ some .lBrace)

/-- What may stand behind a postfix expression with this tail. -/
def Behind (tail : Tail) (noStruct : Bool) (rest : List Token) : Prop :=
  match tail with
  | .bare =>
    (noStruct = false → rest.head? ≠ some .lBrace) ∧
      (rest.head? = some .lBracket → behindGroup 0 rest ≠ some .lParen ∧
        (noStruct = false → behindGroup 0 rest ≠ some .lBrace))
  | .generic => rest.head? = some .lParen
  | .member =>
    rest.head? ≠ some .lParen ∧ (noStruct = false → rest.head? ≠ some .lBrace) ∧
      (rest.head? = some .lBracket → behindGroup 0 rest ≠ some .lParen ∧
        (noStruct = false → behindGroup 0 rest ≠ some .lBrace))
  | .indexed => rest.head? ≠ some .lParen ∧ (noStruct = false → rest.head? ≠ some .lBrace)
  | .unclosed => Stop noStruct rest
  | .closed => True

theorem Stop.behind {tail : Tail} {b : Bool} {rest : List Token} (h : Stop b rest)
    (htail : tail ≠ .generic) : Behind tail b rest := by
  obtain ⟨hdot, hparen, hbracket, hbrace⟩ := h
  cases tail with
  | bare => exact ⟨hbrace, fun hb => absurd hb hbracket⟩
  | generic => exact absurd rfl htail
  | member => exact ⟨hparen, hbrace, fun hb => absurd hb hbracket⟩
  | indexed => exact ⟨hparen, hbrace⟩
  | unclosed => exact ⟨hdot, hparen, hbracket, hbrace⟩
  | closed => trivial

end Tails

section Shapes

/-- An operand read at a level, from the conditions on it where it is reached; `d` levels of depth
are left. -/
def OperandOk (ok : Nat → Bool → Prop) (e : Expr String String) (level d : Nat) (b : Bool) : Prop :=
  if exprPrec e < level then
    exprTail e ≠ .generic ∧ (if level = precPostfix then 1 else 2) ≤ d ∧
      ok (d - if level = precPostfix then 1 else 2) false
  else if exprPrec e = precPostfix ∧ level < precPostfix then
    exprTail e ≠ .generic ∧ 1 ≤ d ∧ ok (d - 1) b
  else ok d b

/-- A whole expression. -/
def TopOk (ok : Nat → Bool → Prop) (e : Expr String String) (d : Nat) (b : Bool) : Prop :=
  1 ≤ d ∧ OperandOk ok e 1 (d - 1) b

/-- The base of a postfix. -/
def BaseOk (ok : Nat → Bool → Prop) (e : Expr String String) (d : Nat) (b : Bool) : Prop :=
  OperandOk ok e precPostfix d b ∧ baseTail e ≠ .generic ∧ baseTail e ≠ .unclosed

mutual

/-- The expressions that their canonical form stands for, where struct literals are off if `b`. -/
def ExprOk (d : Nat) (b : Bool) : Expr String String → Prop
  | .name _ generics => TysOk d generics
  | .unary _ x => 1 ≤ d ∧ OperandOk (fun d b => ExprOk d b x) x precUnary (d - 1) b
  | .binary op l r =>
    OperandOk (fun d b => ExprOk d b l) l (binopPrec op) d b ∧
      OperandOk (fun d b => ExprOk d b r) r (binopPrec op + 1) d b
  | .cast x ty => OperandOk (fun d b => ExprOk d b x) x precCast d b ∧ TyOk d ty
  | .field base _ generics => BaseOk (fun d b => ExprOk d b base) base d b ∧ generics = []
  | .method receiver _ generics args =>
    BaseOk (fun d b => ExprOk d b receiver) receiver d b ∧ TysOk d generics ∧ ArgsOk d args
  | .call callee args =>
    OperandOk (fun d b => ExprOk d b callee) callee precPostfix d b ∧
      baseTail callee ≠ .unclosed ∧ baseTail callee ≠ .member ∧ baseTail callee ≠ .indexed ∧
      ArgsOk d args
  | .index base index =>
    BaseOk (fun d b => ExprOk d b base) base d b ∧ TopOk (fun d b => ExprOk d b index) index d false
  | .trust tag crib =>
    BaseOk (fun d b => ExprOk d b tag) tag d b ∧
      OperandOk (fun d b => ExprOk d b crib) crib precPostfix d b ∧ isPrimary b crib = true
  | .struct lit => if b then 2 ≤ d ∧ StructOk (d - 2) lit else StructOk d lit
  | .array elems => ElemsOk d elems
  | .cop init crib =>
    CopOk d b init ∧ OperandOk (fun d b => ExprOk d b crib) crib precPostfix d b ∧
      baseTail crib ≠ .generic
  | _ => True

def ElemsOk (d : Nat) : List (Expr String String) → Prop
  | [] => True
  | e :: es => TopOk (fun d b => ExprOk d b e) e d false ∧ ElemsOk d es

def ArgsOk (d : Nat) : List (Arg String String) → Prop
  | [] => True
  | .mk _ value :: as => TopOk (fun d b => ExprOk d b value) value d false ∧ ArgsOk d as

def StructOk (d : Nat) : StructLit String String → Prop
  | .mk _ generics fields => TysOk d generics ∧ FieldsOk d fields

def FieldsOk (d : Nat) : List (FieldInit String String) → Prop
  | [] => True
  | .mk _ value :: fs => TopOk (fun d b => ExprOk d b value) value d false ∧ FieldsOk d fs

def CopOk (d : Nat) (b : Bool) : CopInit String String → Prop
  | .struct (.mk name generics fields) =>
    (b = true → generics = []) ∧ StructOk d (.mk name generics fields)
  | .variant _ args => ArgsOk d args

end

end Shapes

section Levels

/-- The operators of the levels from 1 to 9. -/
def levelOp : Nat → Option Token → Option BinOp
  | 1 => onlyOp .orOr .or
  | 2 => onlyOp .andAnd .and
  | 3 => cmpOp
  | 4 => onlyOp .pipe .bitOr
  | 5 => onlyOp .caret .bitXor
  | 6 => onlyOp .amp .bitAnd
  | 7 => shiftOp
  | 8 => addOp
  | _ => mulOp

/-- The function of a level, the loosest first. -/
def level (k : Knot) : Nat → P PExpr
  | 1 => orExpr k
  | 2 => andExpr k
  | 3 => cmpExpr k
  | 4 => bitorExpr k
  | 5 => bitxorExpr k
  | 6 => bitandExpr k
  | 7 => shiftExpr k
  | 8 => addExpr k
  | 9 => mulExpr k
  | 10 => castExpr k
  | 11 => k.unaryExpr
  | _ => postfixExpr k

/-- What a level reads first. -/
def below (k : Knot) (p : Nat) : P PExpr := if p = precPostfix then primary k else level k (p + 1)

/-- A round of the loop of a level. -/
def body (k : Knot) (p : Nat) (e : PExpr) : P (PExpr ⊕ PExpr) :=
  if p = precPostfix then postfixStep k e
  else if p = precCast then do
    if ← eat .asKw then do pure (.inl (.cast e (← k.parseType)))
    else pure (.inr e)
  else do
    match levelOp p (← peek) with
    | some op => do
      advance
      pure (.inl (.binary op e (← level k (p + 1))))
    | none => pure (.inr e)

theorem level_eq (k : Knot) {p : Nat} (hp : 1 ≤ p) (hp' : p ≤ precPostfix) (hunary : p ≠ precUnary) :
    ∃ f, level k p = call f (below k p >>= loop k.fuel (body k p)) := by
  rw [precPostfix] at hp'
  interval_cases p
  · exact ⟨.orExpr, rfl⟩
  · exact ⟨.andExpr, rfl⟩
  · exact ⟨.cmpExpr, rfl⟩
  · exact ⟨.bitorExpr, rfl⟩
  · exact ⟨.bitxorExpr, rfl⟩
  · exact ⟨.bitandExpr, rfl⟩
  · exact ⟨.shiftExpr, rfl⟩
  · exact ⟨.addExpr, rfl⟩
  · exact ⟨.mulExpr, rfl⟩
  · exact ⟨.castExpr, rfl⟩
  · exact absurd rfl hunary
  · exact ⟨.postfixExpr, rfl⟩

theorem binopPrec_bounds (op : BinOp) : 1 ≤ binopPrec op ∧ binopPrec op ≤ 9 := by cases op <;> decide

theorem exprPrec_bounds (e : PExpr) : 1 ≤ exprPrec e ∧ exprPrec e ≤ precPostfix := by
  cases e with
  | binary op l r =>
    have := binopPrec_bounds op
    simp only [exprPrec, precPostfix]
    omega
  | _ => simp [exprPrec, precPostfix, precCast, precUnary]

theorem levelOp_self (op : BinOp) : levelOp (binopPrec op) (some (binopTok op)) = some op := by
  cases op <;> rfl

theorem onlyOp_some {t : Token} {op op' : BinOp} {o : Option Token} (h : onlyOp t op o = some op') :
    o = some t ∧ op = op' := by
  by_cases ho : o = some t
  · rw [onlyOp, if_pos ho] at h
    exact ⟨ho, Option.some.inj h⟩
  · rw [onlyOp, if_neg ho] at h
    cases h

theorem levelOp_some {p : Nat} {o : Option Token} {op : BinOp} (hp : 1 ≤ p) (hp' : p ≤ 9)
    (h : levelOp p o = some op) : o = some (binopTok op) ∧ binopPrec op = p := by
  interval_cases p
  case «3» | «7» | «8» | «9» =>
    simp only [levelOp, cmpOp, shiftOp, addOp, mulOp] at h
    split at h <;> cases h <;> exact ⟨rfl, rfl⟩
  all_goals
    obtain ⟨rfl, rfl⟩ := onlyOp_some h
    exact ⟨rfl, rfl⟩

end Levels

section Starts

/-- The tokens that an expression starts with. -/
def starts : Token → Bool
  | .int _ | .float _ | .str _ | .byte _ | .nocap | .cap | .ghosted | .ident _ | .lParen | .lBracket
  | .cop | .minus | .bang | .tilde => true
  | _ => false

theorem operandToks_head {print : Bool → List Token}
    (h : ∀ b, ∃ t ts, print b = t :: ts ∧ starts t = true) (paren b : Bool) :
    ∃ t ts, operandToks print paren b = t :: ts ∧ starts t = true := by
  cases paren with
  | true => exact ⟨.lParen, _, rfl, rfl⟩
  | false => exact h b

theorem append_head {P : Token → Prop} {ts r : List Token} (h : ∃ t ts', ts = t :: ts' ∧ P t) :
    ∃ t ts', ts ++ r = t :: ts' ∧ P t := by
  obtain ⟨t, ts', rfl, ht⟩ := h
  exact ⟨t, ts' ++ r, rfl, ht⟩

theorem pathToks_head (p : Path String) : ∃ ts, pathToks p = .ident p.head :: ts := by
  obtain ⟨head, member⟩ := p
  cases member <;> exact ⟨_, rfl⟩

theorem structToks_head (lit : StructLit String String) :
    ∃ s ts, structToks lit = .ident s :: ts := by
  obtain ⟨name, generics, fields⟩ := lit
  obtain ⟨ts, hts⟩ := pathToks_head name
  exact ⟨name.head, _, by rw [structToks, hts]; rfl⟩

theorem exprToks_head : ∀ (e : PExpr) (b : Bool), ∃ t ts, exprToks b e = t :: ts ∧ starts t = true
  | .int _, _ | .float _, _ | .str _, _ | .byte _, _ | .bool true, _ | .bool false, _ | .ghosted, _ =>
    ⟨_, _, rfl, rfl⟩
  | .name _ _, _ => ⟨_, _, rfl, rfl⟩
  | .unary op _, _ => ⟨_, _, rfl, by cases op <;> rfl⟩
  | .binary _ l _, b => append_head (operandToks_head (exprToks_head l) _ b)
  | .cast x _, b => append_head (operandToks_head (exprToks_head x) _ b)
  | .field base _ _, b => append_head (operandToks_head (exprToks_head base) _ b)
  | .method receiver _ _ _, b => append_head (operandToks_head (exprToks_head receiver) _ b)
  | .call callee _, b => append_head (operandToks_head (exprToks_head callee) _ b)
  | .index base _, b => append_head (operandToks_head (exprToks_head base) _ b)
  | .trust tag _, b => append_head (operandToks_head (exprToks_head tag) _ b)
  | .struct _, true => ⟨_, _, rfl, rfl⟩
  | .struct lit, false => by
    obtain ⟨s, ts, hts⟩ := structToks_head lit
    exact ⟨_, _, hts, rfl⟩
  | .array _, _ => ⟨_, _, rfl, rfl⟩
  | .cop _ _, _ => ⟨_, _, rfl, rfl⟩

/-- No postfix expression starts with an operator. -/
theorem postfix_head : ∀ (e : PExpr) (b : Bool), exprPrec e = precPostfix →
    ∃ t ts, exprToks b e = t :: ts ∧ unOp (some t) = none
  | .int _, _, _ | .float _, _, _ | .str _, _, _ | .byte _, _, _ | .bool true, _, _
  | .bool false, _, _ | .ghosted, _, _ => ⟨_, _, rfl, rfl⟩
  | .name _ _, _, _ => ⟨_, _, rfl, rfl⟩
  | .field base _ _, b, _ => append_head (base_head base b)
  | .method receiver _ _ _, b, _ => append_head (base_head receiver b)
  | .call callee _, b, _ => append_head (base_head callee b)
  | .index base _, b, _ => append_head (base_head base b)
  | .trust tag _, b, _ => append_head (base_head tag b)
  | .struct _, true, _ => ⟨_, _, rfl, rfl⟩
  | .struct lit, false, _ => by
    obtain ⟨s, ts, hts⟩ := structToks_head lit
    exact ⟨_, _, hts, rfl⟩
  | .array _, _, _ => ⟨_, _, rfl, rfl⟩
  | .cop _ _, _, _ => ⟨_, _, rfl, rfl⟩
  | .binary op _ _, _, h => by
    have := (binopPrec_bounds op).2
    simp only [exprPrec, precPostfix] at h
    omega
where
  base_head (e : PExpr) (b : Bool) : ∃ t ts,
      operandToks (fun ns => exprToks ns e) (exprPrec e < precPostfix) b = t :: ts ∧
        unOp (some t) = none := by
    by_cases hprec : exprPrec e < precPostfix
    · rw [decide_eq_true hprec]
      exact ⟨.lParen, _, rfl, rfl⟩
    · rw [decide_eq_false hprec]
      exact postfix_head e b (by have := (exprPrec_bounds e).2; omega)

end Starts

section Follow

/-- What may stand behind an expression that is read at a level. -/
def Follow (p : Nat) (noStruct : Bool) (rest : List Token) : Prop :=
  Stop noStruct rest ∧ (∀ op, rest.head? = some (binopTok op) → binopPrec op < p) ∧
    (p ≤ precCast → rest.head? ≠ some .asKw)

theorem Follow.mono {p q : Nat} {b : Bool} {rest : List Token} (h : Follow p b rest) (hpq : p ≤ q) :
    Follow q b rest :=
  ⟨h.1, fun op hop => Nat.lt_of_lt_of_le (h.2.1 op hop) hpq, fun hq => h.2.2 (Nat.le_trans hpq hq)⟩

/-- What may stand behind an expression when the loop that has read it goes on. -/
def After (p : Nat) (b : Bool) (e : PExpr) (rest : List Token) : Prop :=
  if p = precPostfix then Behind (exprTail e) b rest else Follow (p + 1) b rest

variable {b : Bool} {d : Nat} {e : PExpr} {ts : List Token}

theorem body_done (k : Knot) {p : Nat} (hp : 1 ≤ p) (hp' : p ≤ precPostfix) (hunary : p ≠ precUnary)
    (e : PExpr) : Reads (body k p e) b d [] (Follow p b) (.inr e) := by
  by_cases hpost : p = precPostfix
  · rw [body, if_pos hpost]
    refine .pointwise fun rest hrest => (reads_peek rest.head?).look ?_ (by rintro _ rfl; rfl)
    obtain ⟨⟨hdot, hparen, hbracket, -⟩, -⟩ := hrest
    split
    · exact absurd ‹_› hdot
    · exact absurd ‹_› hparen
    · exact absurd ‹_› hbracket
    · exact .pure _
  · by_cases hcast : p = precCast
    · rw [body, if_neg hpost, if_pos hcast]
      exact (reads_eat_ne .asKw).look (.pure _) fun _ hrest => hrest.2.2 (by omega)
    · rw [body, if_neg hpost, if_neg hcast]
      refine .pointwise fun rest hrest => (reads_peek rest.head?).look ?_ (by rintro _ rfl; rfl)
      have hle : p ≤ 9 := by
        simp only [precPostfix, precCast, precUnary] at *
        omega
      have hnone : levelOp p rest.head? = none := by
        rw [Option.eq_none_iff_forall_ne_some]
        intro op hop
        obtain ⟨hhead, hprec⟩ := levelOp_some hp hle hop
        have := hrest.2.1 op hhead
        omega
      rw [hnone]
      exact .pure _

/-- The parser reads the canonical form of an expression, at the level where it stands. -/
structure GoodAt (b : Bool) (e : PExpr) : Prop where
  spine : ∀ d, ExprOk d b e → exprPrec e ≠ precUnary → ∃ s, ∀ᶠ n in atTop,
    Spine s (below (knot n) (exprPrec e)) (body (knot n) (exprPrec e)) b d (exprToks b e)
      (After (exprPrec e) b e) e
  unary : ∀ d, ExprOk d b e → exprPrec e = precUnary → ∀ᶠ n in atTop,
    Reads (unaryExpr (knot n)) b d (exprToks b e) (Follow precUnary b) e
  primary : ∀ d, ExprOk d b e → exprPrec e = precPostfix → isPrimary b e = true →
    ∀ᶠ n in atTop, Reads (primary (knot n)) b d (exprToks b e) (Behind (exprTail e) b) e

def Good (e : PExpr) : Prop := ∀ b, GoodAt b e

theorem knot_unary {F : List Token → Prop} (h : ∀ᶠ n in atTop, Reads (unaryExpr (knot n)) b d ts F e) :
    ∀ᶠ n in atTop, Reads (knot n).unaryExpr b d ts F e := by
  filter_upwards [through_knot h] with n hn
  obtain ⟨n, rfl⟩ := Nat.exists_eq_succ_of_ne_zero hn.2
  exact hn.1

theorem knot_expr {F : List Token → Prop} (h : ∀ᶠ n in atTop, Reads (Parser.expr (knot n)) b d ts F e) :
    ∀ᶠ n in atTop, Reads (knot n).expr b d ts F e := by
  filter_upwards [through_knot h] with n hn
  obtain ⟨n, rfl⟩ := Nat.exists_eq_succ_of_ne_zero hn.2
  exact hn.1

theorem spine_level {p s : Nat} {G : List Token → Prop} (hp : 1 ≤ p) (hp' : p ≤ precPostfix)
    (hunary : p ≠ precUnary)
    (h : ∀ᶠ n in atTop, Spine s (below (knot n) p) (body (knot n) p) b d ts G e)
    (hG : ∀ rest, Follow p b rest → G rest) :
    ∀ᶠ n in atTop, Reads (level (knot n) p) b d ts (Follow p b) e := by
  filter_upwards [h, Filter.eventually_gt_atTop s] with n hn hs
  obtain ⟨f, hlevel⟩ := level_eq (knot n) hp hp' hunary
  rw [hlevel, knot_fuel]
  exact (hn.done hs (body_done (knot n) hp hp' hunary e) hG).call f

theorem level_down {p : Nat} (hp : 1 ≤ p) (hp' : p ≤ precCast)
    (h : ∀ᶠ n in atTop, Reads (level (knot n) (p + 1)) b d ts (Follow (p + 1) b) e) :
    ∀ᶠ n in atTop, Reads (level (knot n) p) b d ts (Follow p b) e := by
  have hpost : p ≠ precPostfix := by simp only [precPostfix, precCast] at *; omega
  have hunary : p ≠ precUnary := by simp only [precUnary, precCast] at *; omega
  have hspine : ∀ᶠ n in atTop, Spine 0 (below (knot n) p) (body (knot n) p) b d ts (Follow (p + 1) b) e := by
    filter_upwards [h] with n hn
    rw [below, if_neg hpost]
    exact hn.spine
  refine spine_level hp (by simp only [precPostfix, precCast] at *; omega) hunary hspine ?_
  exact fun rest hrest => hrest.mono (Nat.le_succ p)

theorem level_descend {p q : Nat} (hp : 1 ≤ p) (hpq : p ≤ q) (hq : q ≤ precUnary)
    (h : ∀ᶠ n in atTop, Reads (level (knot n) q) b d ts (Follow q b) e) :
    ∀ᶠ n in atTop, Reads (level (knot n) p) b d ts (Follow p b) e := by
  induction q, hpq using Nat.le_induction with
  | base => exact h
  | succ q hpq ih =>
    have hq' : q ≤ precCast := by simp only [precUnary, precCast] at *; omega
    exact ih (by omega) (level_down (by omega) hq' h)

theorem level_unary (hhead : ∃ t ts', ts = t :: ts' ∧ unOp (some t) = none)
    (h : ∀ᶠ n in atTop, Reads (level (knot n) precPostfix) b d ts (Follow precPostfix b) e) :
    ∀ᶠ n in atTop, Reads (level (knot n) precUnary) b (d + 1) ts (Follow precUnary b) e := by
  obtain ⟨t, ts', rfl, hop⟩ := hhead
  refine knot_unary ?_
  filter_upwards [h] with n hn
  refine ReadsTo.call _ (ReadsTo.guarded (ReadsTo.call _ ?_))
  refine (reads_peek (some t)).look ?_ fun _ _ => rfl
  rw [hop]
  exact ReadsTo.mono hn fun rest hrest => hrest.mono (by decide)

end Follow

section Operands

variable {b : Bool} {d : Nat} {e : PExpr}

theorem GoodAt.atLevel (h : GoodAt b e) (hok : ExprOk d b e) (htail : exprTail e ≠ .generic) :
    ∀ᶠ n in atTop, Reads (level (knot n) (exprPrec e)) b d (exprToks b e) (Follow (exprPrec e) b) e := by
  obtain ⟨hpos, hle⟩ := exprPrec_bounds e
  by_cases hunary : exprPrec e = precUnary
  · rw [hunary]
    exact knot_unary (h.unary d hok hunary)
  · obtain ⟨s, hs⟩ := h.spine d hok hunary
    refine spine_level hpos hle hunary hs fun rest hrest => ?_
    by_cases hpost : exprPrec e = precPostfix
    · rw [After, if_pos hpost]
      exact hrest.1.behind htail
    · rw [After, if_neg hpost]
      exact hrest.mono (Nat.le_succ _)

theorem tail_of_loose (h : exprPrec e ≠ precPostfix) : exprTail e ≠ .generic := by
  cases e <;> simp [exprPrec] at h <;> simp [exprTail]

/-- A whole expression. -/
theorem GoodAt.top (h : GoodAt b e) (hok : TopOk (fun d b => ExprOk d b e) e d b) :
    ∀ᶠ n in atTop, Reads (Parser.expr (knot n)) b d (exprToks b e) (Follow 1 b) e := by
  obtain ⟨hd, hok⟩ := hok
  obtain ⟨hpos, hle⟩ := exprPrec_bounds e
  rw [OperandOk, if_neg (by omega)] at hok
  have horExpr : ∀ᶠ n in atTop, Reads (level (knot n) 1) b (d - 1) (exprToks b e) (Follow 1 b) e := by
    by_cases hpost : exprPrec e = precPostfix
    · rw [if_pos ⟨hpost, by decide⟩] at hok
      obtain ⟨htail, hd', hok⟩ := hok
      have hlevel := h.atLevel hok htail
      rw [hpost] at hlevel
      have hunary := level_unary (postfix_head e b hpost) hlevel
      rw [Nat.sub_add_cancel hd'] at hunary
      exact level_descend (Nat.le_refl 1) (by decide) (Nat.le_refl _) hunary
    · rw [if_neg fun h => hpost h.1] at hok
      have hle' : exprPrec e ≤ precUnary := by simp only [precUnary, precPostfix] at *; omega
      exact level_descend (Nat.le_refl 1) hpos hle' (h.atLevel hok (tail_of_loose hpost))
  filter_upwards [horExpr] with n hn
  have hguarded := (ReadsTo.guarded hn).call .expr
  rwa [Nat.sub_add_cancel hd] at hguarded

theorem primary_parens (h : GoodAt false e) (hok : TopOk (fun d b => ExprOk d b e) e d false) :
    ∀ᶠ n in atTop, Reads (primary (knot n)) b d (parens (exprToks false e)) (fun _ => True) e := by
  filter_upwards [knot_expr (h.top hok)] with n hn
  have hfull : Reads (fullExpr (knot n)) b d (exprToks false e) (Follow 1 false) e :=
    (ReadsTo.withNoStruct hn).call _
  refine ReadsTo.call _ ((reads_peek (some .lParen)).look ?_ fun _ _ => rfl)
  refine (reads_peek (some .lParen)).look ?_ fun _ _ => rfl
  refine (reads_advance .lParen).take (G := fun _ => True) ?_ fun _ _ => trivial
  refine hfull.bind (reads_expect .rParen).last fun rest _ => ?_
  refine ⟨by simp [Stop], fun op hop => ?_, fun _ => by simp⟩
  cases op <;> cases hop

/-- An operand, in parentheses or not. -/
theorem Good.operand (h : Good e) {p : Nat} (hp : 1 ≤ p) (hp' : p ≤ precUnary)
    (hok : OperandOk (fun d b => ExprOk d b e) e p d b) :
    ∀ᶠ n in atTop, Reads (level (knot n) p) b d
      (operandToks (fun ns => exprToks ns e) (exprPrec e < p) b) (Follow p b) e := by
  obtain ⟨hpos, hle⟩ := exprPrec_bounds e
  have hlevel : p ≠ precPostfix := by simp only [precUnary, precPostfix] at *; omega
  by_cases hparen : exprPrec e < p
  · rw [OperandOk, if_pos hparen, if_neg hlevel] at hok
    obtain ⟨-, hd, hok⟩ := hok
    have htop : TopOk (fun d b => ExprOk d b e) e (d - 1) false := by
      have hpost : exprPrec e ≠ precPostfix := by simp only [precUnary, precPostfix] at *; omega
      refine ⟨by omega, ?_⟩
      rw [OperandOk, if_neg (by omega), if_neg fun hboth => hpost hboth.1]
      exact hok
    rw [decide_eq_true hparen]
    have hspine : ∀ᶠ n in atTop, Spine 0 (below (knot n) precPostfix) (body (knot n) precPostfix) b (d - 1)
        (parens (exprToks false e)) (fun _ => True) e := by
      filter_upwards [primary_parens (b := b) (h false) htop] with n hn
      exact hn.spine
    have hpostfix := spine_level (by decide) (Nat.le_refl _) (by decide) hspine fun _ _ => trivial
    have hunary := level_unary ⟨.lParen, _, rfl, rfl⟩ hpostfix
    rw [Nat.sub_add_cancel (by omega)] at hunary
    exact level_descend hp hp' (Nat.le_refl _) hunary
  · rw [OperandOk, if_neg hparen] at hok
    rw [decide_eq_false hparen]
    by_cases hpost : exprPrec e = precPostfix
    · rw [if_pos ⟨hpost, by simp only [precUnary, precPostfix] at *; omega⟩] at hok
      obtain ⟨htail, hd, hok⟩ := hok
      have hread := (h b).atLevel hok htail
      rw [hpost] at hread
      have hunary := level_unary (postfix_head e b hpost) hread
      rw [Nat.sub_add_cancel hd] at hunary
      exact level_descend hp hp' (Nat.le_refl _) hunary
    · rw [if_neg fun hboth => hpost hboth.1] at hok
      have hle' : exprPrec e ≤ precUnary := by simp only [precUnary, precPostfix] at *; omega
      exact level_descend hp (by omega) hle' ((h b).atLevel hok (tail_of_loose hpost))

/-- What a postfix stands behind. -/
theorem Good.base (h : Good e) (hok : OperandOk (fun d b => ExprOk d b e) e precPostfix d b) :
    ∃ s, ∀ᶠ n in atTop, Spine s (Parser.primary (knot n)) (postfixStep (knot n)) b d
      (operandToks (fun ns => exprToks ns e) (exprPrec e < precPostfix) b) (Behind (baseTail e) b) e := by
  by_cases hparen : exprPrec e < precPostfix
  · rw [OperandOk, if_pos hparen, if_pos rfl] at hok
    obtain ⟨-, hd, hok⟩ := hok
    have htop : TopOk (fun d b => ExprOk d b e) e d false := by
      refine ⟨hd, ?_⟩
      have hpos := (exprPrec_bounds e).1
      rw [OperandOk, if_neg (by omega), if_neg fun hpost => by omega]
      exact hok
    rw [decide_eq_true hparen, baseTail, if_pos hparen]
    refine ⟨0, ?_⟩
    filter_upwards [primary_parens (b := b) (h false) htop] with n hn
    exact hn.spine
  · have hpost : exprPrec e = precPostfix := by
      have := (exprPrec_bounds e).2
      omega
    rw [OperandOk, if_neg hparen, if_neg fun hlt => absurd hlt.2 (by omega)] at hok
    obtain ⟨s, hs⟩ := (h b).spine d hok (by rw [hpost]; decide)
    rw [decide_eq_false hparen, baseTail, if_neg hparen]
    refine ⟨s, ?_⟩
    filter_upwards [hs] with n hn
    have hafter : After (exprPrec e) b e = Behind (exprTail e) b := by
      funext rest
      rw [After, if_pos hpost]
    have hbelow : below (knot n) (exprPrec e) = Parser.primary (knot n) := by rw [below, if_pos hpost]
    have hbody : body (knot n) (exprPrec e) = postfixStep (knot n) := by
      funext e'
      rw [body, if_pos hpost]
    rwa [hafter, hbelow, hbody] at hn

end Operands

end BetLang.Fmt
