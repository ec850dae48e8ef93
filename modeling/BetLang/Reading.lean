import BetLang.Parser
import Mathlib.Data.List.Forall2

/-! What a function of the parser does on tokens that it accepts: rules for its steps and loops. -/

namespace BetLang.Parser

open Lexer (Token)

variable {α β σ : Type} {b b' b'' : Bool} {d : Nat} {l r : List Token}
  {F G : List Token → Prop} {a : α}

/-- From the flag `b` and with `d` levels of depth left, `m` reads the tokens `l`, gives `a` and
leaves the flag `b'`, wherever `F` holds of the tokens behind. -/
def ReadsTo (m : P α) (b b' : Bool) (d : Nat) (l : List Token) (F : List Token → Prop) (a : α) : Prop :=
  ∀ s rest, s.toks.drop s.pos = l ++ rest → F rest → s.noStruct = b → s.depth + d ≤ maxDepth →
    ∃ calls, m s = (.ok a, { s with pos := s.pos + l.length, noStruct := b', calls := calls })

abbrev Reads (m : P α) (b : Bool) (d : Nat) (l : List Token) (F : List Token → Prop) (a : α) : Prop :=
  ReadsTo m b b d l F a

section Steps

theorem drop_step {s : State} {rest : List Token} (h : s.toks.drop s.pos = l ++ rest) :
    s.toks.drop (s.pos + l.length) = rest := by
  rw [← List.drop_drop, h, List.drop_left]

theorem head_eq {s : State} {rest : List Token} (h : s.toks.drop s.pos = rest) :
    s.toks[s.pos]? = rest.head? := by
  rw [← h, List.head?_drop]

theorem second_eq {s : State} {rest : List Token} (h : s.toks.drop s.pos = rest) :
    s.toks[s.pos + 1]? = rest[1]? := by
  rw [← h, List.getElem?_drop]

theorem ReadsTo.mono {m : P α} (h : ReadsTo m b b' d l G a) (hF : ∀ rest, F rest → G rest) :
    ReadsTo m b b' d l F a :=
  fun s rest htoks hrest hflag hdepth => h s rest htoks (hF rest hrest) hflag hdepth

theorem ReadsTo.deepen {m : P α} {d' : Nat} (h : ReadsTo m b b' d l F a) (hd : d ≤ d') :
    ReadsTo m b b' d' l F a :=
  fun s rest htoks hrest hflag hdepth => h s rest htoks hrest hflag (by omega)

/-- It is enough to look at one continuation at a time. -/
theorem ReadsTo.pointwise {m : P α} (h : ∀ rest, F rest → ReadsTo m b b' d l (· = rest) a) :
    ReadsTo m b b' d l F a :=
  fun s rest htoks hrest hflag hdepth => h rest hrest s rest htoks rfl hflag hdepth

theorem ReadsTo.toks {m : P α} (he : r = l) (h : ReadsTo m b b' d l F a) :
    ReadsTo m b b' d r F a := he ▸ h

theorem ReadsTo.pure (a : α) : ReadsTo (pure a) b b d [] F a := by
  rintro s rest - - rfl -
  exact ⟨s.calls, rfl⟩

theorem ReadsTo.bind {m : P α} {f : α → P β} {c : β} (hm : ReadsTo m b b' d l G a)
    (hf : ReadsTo (f a) b' b'' d r F c) (hG : ∀ rest, F rest → G (r ++ rest)) :
    ReadsTo (m >>= f) b b'' d (l ++ r) F c := by
  intro s rest htoks hrest hflag hdepth
  rw [List.append_assoc] at htoks
  obtain ⟨calls, hrun⟩ := hm s (r ++ rest) htoks (hG rest hrest) hflag hdepth
  obtain ⟨calls', hrun'⟩ := hf { s with pos := s.pos + l.length, noStruct := b', calls := calls } rest
    (drop_step htoks) hrest rfl hdepth
  refine ⟨calls', ?_⟩
  change P.bind m f s = _
  simp only [P.bind, hrun, hrun', List.length_append, Nat.add_assoc]

/-- A step that reads nothing decides on what is ahead. -/
theorem ReadsTo.look {m : P α} {f : α → P β} {c : β} (hm : ReadsTo m b b' d [] G a)
    (hf : ReadsTo (f a) b' b'' d r F c) (hG : ∀ rest, F rest → G (r ++ rest)) :
    ReadsTo (m >>= f) b b'' d r F c := hm.bind hf hG

/-- A step that takes one token. -/
theorem ReadsTo.take {t : Token} {m : P α} {f : α → P β} {c : β} (hm : Reads m b d [t] G a)
    (hf : ReadsTo (f a) b b' d r F c) (hG : ∀ rest, F rest → G (r ++ rest)) :
    ReadsTo (m >>= f) b b' d (t :: r) F c := hm.bind hf hG

theorem ReadsTo.last {m : P α} {f : α → β} (hm : ReadsTo m b b' d l F a) :
    ReadsTo (m >>= fun a => Pure.pure (f a)) b b' d l F (f a) := by
  have h := hm.bind (f := fun a => Pure.pure (f a)) (r := []) (F := F) (ReadsTo.pure (f a))
    fun rest hrest => hrest
  rwa [List.append_nil] at h

theorem reads_peek (o : Option Token) : Reads peek b d [] (fun rest => rest.head? = o) o := by
  rintro s rest htoks hrest rfl -
  refine ⟨s.calls, ?_⟩
  rw [peek, head_eq htoks]
  exact congrArg (fun o => (Except.ok o, s)) hrest

theorem reads_peek2 (o : Option Token) : Reads peek2 b d [] (fun rest => rest[1]? = o) o := by
  rintro s rest htoks hrest rfl -
  refine ⟨s.calls, ?_⟩
  rw [peek2, second_eq htoks]
  exact congrArg (fun o => (Except.ok o, s)) hrest

theorem reads_check (t : Token) (o : Option Token) :
    Reads (check t) b d [] (fun rest => rest.head? = o) (o == some t) := by
  rintro s rest htoks hrest rfl -
  refine ⟨s.calls, ?_⟩
  rw [check, head_eq htoks]
  exact congrArg (fun o => (Except.ok (o == some t), s)) hrest

theorem reads_check_ne (t : Token) :
    Reads (check t) b d [] (fun rest => rest.head? ≠ some t) false := by
  rintro s rest htoks hrest rfl -
  refine ⟨s.calls, ?_⟩
  rw [check, head_eq htoks]
  exact congrArg (fun v => (Except.ok v, s)) (beq_eq_false_iff_ne.mpr hrest)

theorem reads_advance (t : Token) : Reads advance b d [t] F () := by
  rintro s rest htoks hrest rfl -
  exact ⟨s.calls, rfl⟩

theorem reads_eat (t : Token) : Reads (eat t) b d [t] F true := by
  have hcheck := reads_check (b := b) (d := d) t (some t)
  rw [beq_self_eq_true] at hcheck
  refine hcheck.look (r := [t]) (F := F) ?_ fun _ _ => rfl
  exact (reads_advance t).last

theorem reads_eat_ne (t : Token) : Reads (eat t) b d [] (fun rest => rest.head? ≠ some t) false :=
  (reads_check_ne t).look (ReadsTo.pure false) fun _ hrest => hrest

theorem reads_expect (t : Token) : Reads (expect t) b d [t] F () :=
  (reads_eat t).bind (r := []) (G := fun _ => True) (ReadsTo.pure ()) fun _ _ => trivial

theorem reads_opt_none (t : Token) (m : P α) :
    Reads (opt t m) b d [] (fun rest => rest.head? ≠ some t) none :=
  (reads_eat_ne t).look (ReadsTo.pure none) fun _ hrest => hrest

theorem ReadsTo.opt {m : P α} (t : Token) (h : ReadsTo m b b' d l F a) :
    ReadsTo (opt t m) b b' d (t :: l) F (some a) :=
  (reads_eat t).take (G := fun _ => True) h.last fun _ _ => trivial

theorem reads_ident (s : String) : Reads ident b d [.ident s] F s := by
  refine (reads_peek (some (.ident s))).look ?_ fun rest _ => rfl
  exact (reads_advance (.ident s)).last

theorem reads_strLit (s : String) : Reads strLit b d [.str s] F s := by
  refine (reads_peek (some (.str s))).look ?_ fun rest _ => rfl
  exact (reads_advance (.str s)).last

theorem reads_intLit (v : Int) : Reads intLit b d [.int v] F v := by
  refine (reads_peek (some (.int v))).look ?_ fun rest _ => rfl
  exact (reads_advance (.int v)).last

theorem reads_getNoStruct : Reads getNoStruct b d [] F b := by
  rintro s rest htoks hrest rfl -
  exact ⟨s.calls, rfl⟩

theorem reads_setNoStruct (b' : Bool) : ReadsTo (setNoStruct b') b b' d [] F () := by
  rintro s rest htoks hrest rfl -
  exact ⟨s.calls, rfl⟩

theorem ReadsTo.withNoStruct {m : P α} {c : Bool} (h : ReadsTo m c b' d l F a) :
    Reads (withNoStruct c m) b d l F a := by
  rintro s rest htoks hrest rfl hdepth
  obtain ⟨calls, hrun⟩ := h { s with noStruct := c } rest htoks hrest rfl hdepth
  exact ⟨calls, by simp only [Parser.withNoStruct, hrun]⟩

theorem ReadsTo.call {m : P α} (f : Fn) (h : ReadsTo m b b' d l F a) :
    ReadsTo (call f m) b b' d l F a := by
  intro s rest htoks hrest hflag hdepth
  obtain ⟨calls, hrun⟩ := h { s with stack := f :: s.stack, calls := ⟨f :: s.stack, s.depth⟩ :: s.calls }
    rest htoks hrest hflag hdepth
  exact ⟨calls, by simp only [Parser.call, hrun]⟩

theorem ReadsTo.guarded {m : P α} (h : ReadsTo m b b' d l F a) :
    ReadsTo (guarded m) b b' (d + 1) l F a := by
  intro s rest htoks hrest hflag hdepth
  obtain ⟨calls, hrun⟩ := h { s with depth := s.depth + 1 } rest htoks hrest hflag
    (by dsimp only; omega)
  have henter : enterDepth s = (.ok (), { s with depth := s.depth + 1 }) :=
    if_neg (by omega : ¬s.depth + 1 > maxDepth)
  refine ⟨calls, ?_⟩
  change P.bind enterDepth (fun _ => exitDepth m) s = _
  simp only [P.bind, henter, exitDepth, hrun, Nat.add_sub_cancel]

end Steps

section Loops

theorem ReadsTo.next {body : σ → P (σ ⊕ α)} {n : Nat} {x y : σ} (hbody : ReadsTo (body x) b b' d l G (.inl y))
    (hloop : ReadsTo (loop n body y) b' b'' d r F a) (hG : ∀ rest, F rest → G (r ++ rest)) :
    ReadsTo (loop (n + 1) body x) b b'' d (l ++ r) F a := hbody.bind hloop hG

theorem ReadsTo.done {body : σ → P (σ ⊕ α)} {n : Nat} {x : σ} (hbody : ReadsTo (body x) b b' d l F (.inr a)) :
    ReadsTo (loop (n + 1) body x) b b' d l F a := by
  rw [← List.append_nil l]
  exact hbody.bind (ReadsTo.pure a) fun rest hrest => hrest

/-- Behind the tokens `l` the loop stands at `x`, after `s` rounds, where `G` holds of what is
behind. -/
def Spine (s : Nat) (below : P σ) (body : σ → P (σ ⊕ α)) (b : Bool) (d : Nat) (l : List Token)
    (G : List Token → Prop) (x : σ) : Prop :=
  ∀ m r F a, Reads (loop m body x) b d r F a → (∀ rest, F rest → G (r ++ rest)) →
    Reads (below >>= loop (m + s) body) b d (l ++ r) F a

variable {below : P σ} {body : σ → P (σ ⊕ α)} {s : Nat} {x y : σ}

theorem ReadsTo.spine {f : σ → P (σ ⊕ α)} (h : Reads below b d l G x) : Spine 0 below f b d l G x :=
  fun _ _ _ _ hloop hG => h.bind hloop hG

theorem Spine.step {H : List Token → Prop} (h : Spine s below body b d l G x)
    (hbody : Reads (body x) b d r H (.inl y)) (hG : ∀ rest, H rest → G (r ++ rest)) :
    Spine (s + 1) below body b d (l ++ r) H y := by
  intro m vs F a hloop hH
  have hround := hbody.next hloop hH
  have hread := h (m + 1) (r ++ vs) F a hround fun rest hrest => by
    rw [List.append_assoc]
    exact hG _ (hH rest hrest)
  rw [List.append_assoc]
  exact (Nat.add_right_comm m 1 s) ▸ hread

theorem Spine.done {n : Nat} (h : Spine s below body b d l G x) (hn : s < n)
    (hbody : Reads (body x) b d [] F (.inr a)) (hG : ∀ rest, F rest → G rest) :
    Reads (below >>= loop n body) b d l F a := by
  obtain ⟨m, rfl⟩ := Nat.exists_eq_add_of_lt hn
  have hread := h (m + 1) [] F a hbody.done hG
  rw [List.append_nil] at hread
  have hcomm : m + 1 + s = s + m + 1 := by omega
  rwa [hcomm] at hread

/-- Commas between the tokens of the members. -/
def commaToks : List (List Token) → List Token
  | [] => []
  | l :: tss => l ++ tss.flatMap (.comma :: ·)

theorem ReadsTo.whileEat {m : P α} {as o : List α} {tss : List (List Token)} {n : Nat}
    (h : List.Forall₂ (fun a l => Reads m b d l G a) as tss) (hn : as.length < n)
    (hcomma : ∀ rest, G (.comma :: rest)) (hF : ∀ rest, F rest → G rest ∧ rest.head? ≠ some .comma) :
    Reads (whileEat n .comma m o) b d (tss.flatMap (.comma :: ·)) F (o ++ as) := by
  induction h generalizing o n with
  | nil =>
    obtain ⟨n, rfl⟩ := Nat.exists_eq_succ_of_ne_zero (by omega : n ≠ 0)
    rw [List.append_nil]
    apply ReadsTo.done
    exact (reads_eat_ne .comma).look (r := []) (ReadsTo.pure _) fun rest hrest => (hF rest hrest).2
  | @cons x l xs tss hx hxs ih =>
    obtain ⟨n, rfl⟩ := Nat.exists_eq_succ_of_ne_zero (by omega : n ≠ 0)
    have hmembers := ih (o := o ++ [x]) (n := n) (by simp at hn; omega)
    rw [List.append_assoc, List.singleton_append] at hmembers
    refine ReadsTo.next (l := .comma :: l) (G := G) ?_ hmembers fun rest hrest => ?_
    · exact (reads_eat .comma).take (G := fun _ => True) hx.last fun _ _ => trivial
    cases tss with
    | nil => exact (hF rest hrest).1
    | cons r tss => exact hcomma _

theorem ReadsTo.commaList {m : P α} {as : List α} {tss : List (List Token)} {n : Nat}
    (h : List.Forall₂ (fun a l => Reads m b d l G a) as tss) (hne : as ≠ []) (hn : as.length ≤ n)
    (hcomma : ∀ rest, G (.comma :: rest)) (hF : ∀ rest, F rest → G rest ∧ rest.head? ≠ some .comma) :
    Reads (commaList n m) b d (commaToks tss) F as := by
  cases h with
  | nil => exact absurd rfl hne
  | @cons x l xs tss hx hxs =>
    have hmembers := ReadsTo.whileEat (n := n) (o := [x]) hxs (by simp at hn; omega) hcomma hF
    refine hx.bind hmembers fun rest hrest => ?_
    cases tss with
    | nil => exact (hF rest hrest).1
    | cons r tss => exact hcomma _

theorem commaToks_cons_cons (l r : List Token) (tss : List (List Token)) :
    commaToks (l :: r :: tss) = l ++ .comma :: commaToks (r :: tss) := rfl

/-- The rounds behind the first member. -/
theorem reads_trailingRounds {m : P α} {close : Token} {as o : List α} {tss : List (List Token)}
    {n : Nat} (h : List.Forall₂ (fun a l => Reads m b d l G a) as tss) (hn : as.length < n)
    (hhead : ∀ l ∈ tss, ∃ t ts', l = t :: ts' ∧ t ≠ close) (hclose : close ≠ .comma)
    (hcomma : ∀ rest, G (.comma :: rest)) (hend : ∀ rest, rest.head? = some close → G rest) :
    Reads (loop n (fun o => do
      if ← eat .comma then
        if ← check close then pure (.inr o)
        else do pure (.inl (o ++ [← m]))
      else pure (.inr o)) o) b d (tss.flatMap (.comma :: ·)) (fun rest => rest.head? = some close)
        (o ++ as) := by
  induction h generalizing o n with
  | nil =>
    obtain ⟨n, rfl⟩ := Nat.exists_eq_succ_of_ne_zero (by omega : n ≠ 0)
    rw [List.append_nil]
    refine .done ((reads_eat_ne .comma).look (r := []) (ReadsTo.pure _) fun rest hrest => ?_)
    rw [List.nil_append, hrest]
    simpa using hclose
  | @cons x l xs tss hx hxs ih =>
    obtain ⟨n, rfl⟩ := Nat.exists_eq_succ_of_ne_zero (by omega : n ≠ 0)
    obtain ⟨⟨t, ts', rfl, ht⟩, hheads⟩ := List.forall_mem_cons.mp hhead
    have hmembers := ih (o := o ++ [x]) (n := n) (by simp at hn; omega) hheads
    rw [List.append_assoc, List.singleton_append] at hmembers
    refine ReadsTo.next (l := .comma :: t :: ts') (G := G) ?_ hmembers fun rest hrest => ?_
    · refine (reads_eat .comma).take (G := fun _ => True) ?_ fun _ _ => trivial
      exact (reads_check_ne close).look hx.last fun _ _ => by simpa using ht
    · cases tss with
      | nil => exact hend _ hrest
      | cons r tss => exact hcomma _

theorem reads_trailingList {m : P α} {k : Knot} {close : Token} {as : List α} {tss : List (List Token)}
    (h : List.Forall₂ (fun a l => Reads m b d l G a) as tss) (hn : as.length ≤ k.fuel)
    (hhead : ∀ l ∈ tss, ∃ t ts', l = t :: ts' ∧ t ≠ close) (hclose : close ≠ .comma)
    (hcomma : ∀ rest, G (.comma :: rest)) (hend : ∀ rest, rest.head? = some close → G rest) :
    Reads (trailingList k close m) b d (commaToks tss) (fun rest => rest.head? = some close) as := by
  cases h with
  | nil =>
    have hcheck := reads_check (b := b) (d := d) close (some close)
    rw [beq_self_eq_true] at hcheck
    exact hcheck.look (ReadsTo.pure []) fun _ hrest => hrest
  | @cons x l xs tss hx hxs =>
    obtain ⟨⟨t, ts', rfl, ht⟩, hheads⟩ := List.forall_mem_cons.mp hhead
    have hrounds := reads_trailingRounds (n := k.fuel) (o := [x]) hxs (by simp at hn; omega) hheads hclose hcomma hend
    refine (reads_check_ne close).look (hx.bind hrounds fun rest hrest => ?_) fun _ _ => by
      simpa [commaToks] using ht
    cases tss with
    | nil => exact hend _ hrest
    | cons r tss => exact hcomma _

theorem reads_skipSemis_ne {n : Nat} (hn : 0 < n) :
    Reads (skipSemis n) b d [] (fun rest => rest.head? ≠ some .semi) () := by
  obtain ⟨n, rfl⟩ := Nat.exists_eq_succ_of_ne_zero (by omega : n ≠ 0)
  exact .done ((reads_check_ne .semi).look (ReadsTo.pure _) fun _ hrest => hrest)

theorem reads_skipSemis {n : Nat} (hn : 1 < n) :
    Reads (skipSemis n) b d [.semi] (fun rest => rest.head? ≠ some .semi) () := by
  obtain ⟨n, rfl⟩ := Nat.exists_eq_succ_of_ne_zero (by omega : n ≠ 0)
  refine ReadsTo.next (l := [.semi]) (G := fun _ => True) ?_ (reads_skipSemis_ne (by omega)) fun _ _ => trivial
  refine (reads_check .semi (some .semi)).look ?_ fun _ _ => rfl
  exact (reads_advance .semi).last

theorem reads_closing : Reads closing b d [] (fun rest => rest.head? = some .rBrace) true :=
  (reads_check .rBrace (some .rBrace)).look (ReadsTo.pure true) fun _ hrest => hrest

theorem reads_closing_ne {t : Token} (ht : t ≠ .rBrace) :
    Reads closing b d [] (fun rest => rest.head? = some t) false := by
  refine (reads_check_ne .rBrace).look ?_ fun rest hrest => by
    rw [List.nil_append, hrest]
    simpa using ht
  exact (reads_peek (some t)).last

/-- Members with commas between, each of which takes the comma behind it. -/
theorem reads_untilBrace_comma {m : P α} {as o : List α} {tss : List (List Token)} {n n' : Nat}
    (h : List.Forall₂ (fun a l => Reads m b d l (fun rest => rest.head? = some .rBrace) a ∧
      Reads m b d (l ++ [.comma]) (fun _ => True) a) as tss)
    (hhead : ∀ l ∈ tss, ∃ t ts', l = t :: ts' ∧ t ≠ .rBrace ∧ t ≠ .semi)
    (hn : as.length < n) (hn' : 0 < n') :
    Reads (loop n (fun o => do
      skipSemis n'
      if ← closing then pure (.inr o)
      else do pure (.inl (o ++ [← m]))) o) b d (commaToks tss)
        (fun rest => rest.head? = some .rBrace) (o ++ as) := by
  induction h generalizing o n with
  | nil =>
    obtain ⟨n, rfl⟩ := Nat.exists_eq_succ_of_ne_zero (by omega : n ≠ 0)
    rw [List.append_nil]
    refine .done ((reads_skipSemis_ne hn').look (r := []) ?_ fun rest hrest => ?_)
    · exact reads_closing.look (ReadsTo.pure _) fun _ hrest => hrest
    · rw [List.nil_append, hrest]
      simp
  | @cons x l xs tss hx hxs ih =>
    obtain ⟨n, rfl⟩ := Nat.exists_eq_succ_of_ne_zero (by omega : n ≠ 0)
    obtain ⟨⟨t, ts', rfl, hbrace, hsemi⟩, hheads⟩ := List.forall_mem_cons.mp hhead
    have hmembers := ih (o := o ++ [x]) (n := n) hheads (by simp at hn; omega)
    rw [List.append_assoc, List.singleton_append] at hmembers
    cases tss with
    | nil =>
      refine .toks (l := t :: ts' ++ []) (by simp [commaToks]) ?_
      refine ReadsTo.next (G := fun rest => rest.head? = some .rBrace) ?_ hmembers fun _ hrest => hrest
      refine (reads_skipSemis_ne hn').look ?_ fun _ _ => by simpa using hsemi
      exact (reads_closing_ne hbrace).look hx.1.last fun _ _ => rfl
    | cons r tss =>
      refine .toks (l := (t :: ts' ++ [.comma]) ++ commaToks (r :: tss)) (by simp [commaToks]) ?_
      refine ReadsTo.next (G := fun _ => True) ?_ hmembers fun _ _ => trivial
      refine (reads_skipSemis_ne hn').look ?_ fun _ _ => by simpa using hsemi
      exact (reads_closing_ne hbrace).look hx.2.last fun _ _ => rfl

/-- Nothing, or the separator behind the last member. -/
def Pending (l : List Token) : Prop := l = [] ∨ l = [.semi]

theorem reads_skipPending {n : Nat} (hl : Pending l) (hn : 1 < n) :
    Reads (skipSemis n) b d l (fun rest => rest.head? ≠ some .semi) () := by
  rcases hl with rfl | rfl
  · exact reads_skipSemis_ne (by omega)
  · exact reads_skipSemis hn

/-- Members with a separator behind each, which the round behind skips. -/
theorem reads_members {ρ : Type} {body : List α → P (List α ⊕ ρ)} {as o : List α}
    {tss : List (List Token)} {e w : List Token} {c : ρ} {n : Nat}
    (h : List.Forall₂ (fun a l => ∀ o w, Pending w →
      Reads (body o) b d (w ++ l) (fun rest => rest.head? = some .semi) (.inl (o ++ [a]))) as tss)
    (hend : ∀ w, Pending w → Reads (body (o ++ as)) b d (w ++ e) F (.inr c)) (hn : as.length < n)
    (hw : Pending w) :
    Reads (loop n body o) b d (w ++ (tss.flatMap (· ++ [.semi]) ++ e)) F c := by
  induction h generalizing o n w with
  | nil =>
    obtain ⟨n, rfl⟩ := Nat.exists_eq_succ_of_ne_zero (by omega : n ≠ 0)
    refine .done ?_
    rw [List.append_nil] at hend
    exact hend w hw
  | @cons x l xs tss hx hxs ih =>
    obtain ⟨n, rfl⟩ := Nat.exists_eq_succ_of_ne_zero (by omega : n ≠ 0)
    have hmembers := ih (o := o ++ [x]) (n := n) (by simpa using hend) (by simp at hn; omega)
      (.inr rfl)
    refine .toks (l := (w ++ l) ++ ([.semi] ++ (tss.flatMap (· ++ [.semi]) ++ e))) (by simp) ?_
    exact (hx o w hw).next hmembers fun _ _ => rfl

/-- Members that take what separates them. -/
theorem reads_untilBrace {m : P α} {as o : List α} {tss : List (List Token)} {n k : Nat}
    (h : List.Forall₂ (fun a l => Reads m b d l
      (fun rest => rest.head? ≠ some .semi ∧ rest.head? ≠ some .comma) a) as tss)
    (hhead : ∀ l ∈ tss, ∃ t ts', l = t :: ts' ∧ t ≠ .rBrace ∧ t ≠ .semi ∧ t ≠ .comma)
    (hn : as.length < n) (hk : 0 < k) :
    Reads (loop n (fun o => do
      skipSemis k
      if ← closing then pure (.inr o)
      else do pure (.inl (o ++ [← m]))) o) b d tss.flatten
        (fun rest => rest.head? = some .rBrace) (o ++ as) := by
  induction h generalizing o n with
  | nil =>
    obtain ⟨n, rfl⟩ := Nat.exists_eq_succ_of_ne_zero (by omega : n ≠ 0)
    rw [List.append_nil]
    refine .done ((reads_skipSemis_ne hk).look (r := []) ?_ fun rest hrest => by simp [hrest])
    exact reads_closing.look (ReadsTo.pure _) fun _ hrest => hrest
  | @cons x l xs tss hx hxs ih =>
    obtain ⟨n, rfl⟩ := Nat.exists_eq_succ_of_ne_zero (by omega : n ≠ 0)
    obtain ⟨⟨t, ts', rfl, hbrace, hsemi, hcomma⟩, hheads⟩ := List.forall_mem_cons.mp hhead
    have hmembers := ih (o := o ++ [x]) (n := n) hheads (by simp at hn; omega)
    rw [List.append_assoc, List.singleton_append] at hmembers
    refine ReadsTo.next (l := t :: ts')
      (G := fun rest => rest.head? ≠ some .semi ∧ rest.head? ≠ some .comma) ?_ hmembers fun rest hrest => ?_
    · refine (reads_skipSemis_ne hk).look ?_ fun _ _ => by simpa using hsemi
      exact (reads_closing_ne hbrace).look hx.last fun _ _ => rfl
    · cases tss with
      | nil => simp [hrest]
      | cons r tss =>
        obtain ⟨t', us, rfl, -, hsemi', hcomma'⟩ := hheads r (List.mem_cons_self ..)
        simp [hsemi', hcomma']

end Loops

end BetLang.Parser
