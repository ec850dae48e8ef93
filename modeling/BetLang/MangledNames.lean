import BetLang.Mangling

/-! When the names of the merged program, and those of the instances, are told apart. -/

namespace BetLang.Mangling

open Joins (joined joined_cons joined_singleton joined_flatten Piece)
open Midir (Unicode)

section Words

theorem identStart_not_digit {c : Char} (h : Lexer.identStart c = true) :
    c.toNat < 128 ∧ c.isDigit = false ∧ c ≠ '$' ∧ (c.isAlpha = true ∨ c = '_') := by
  simp only [Lexer.identStart, Bool.or_eq_true, Bool.and_eq_true, decide_eq_true_eq, beq_iff_eq]
    at h
  have letter (hc : c.isAlpha = true) (hlow : c.toNat < 128) : c.toNat < 128 ∧
      c.isDigit = false ∧ c ≠ '$' ∧ (c.isAlpha = true ∨ c = '_') := by
    refine ⟨hlow, ?_, ?_, .inl hc⟩
    · by_contra hd
      have := (Midir.isDigit_ascii (c := c) (by simpa using hd)).2
      simp [hc] at this
    · rintro rfl
      exact absurd hc (by decide)
  have codes {a b : Char} (hab : a ≤ c ∧ c ≤ b) : a.toNat ≤ c.toNat ∧ c.toNat ≤ b.toNat :=
    ⟨UInt32.le_iff_toNat_le.mp hab.1, UInt32.le_iff_toNat_le.mp hab.2⟩
  rcases h with (h | h) | rfl
  · exact letter (Midir.isAlpha_iff.mpr (.inl (codes h))) (lt_of_le_of_lt (codes h).2 (by decide))
  · exact letter (Midir.isAlpha_iff.mpr (.inr (codes h))) (lt_of_le_of_lt (codes h).2 (by decide))
  · exact ⟨by decide, by decide, by decide, .inr rfl⟩

theorem decimal_digits (n : Nat) : ∀ c ∈ decimal n, c.isDigit = true :=
  fun _ hc => Nat.isDigit_of_mem_toDigits (by decide) (by decide) hc

/-- What a row of digits is worth. -/
def value (ds : Text) : Nat := ds.foldl (fun n c => 10 * n + (c.toNat - 48)) 0

theorem value_decimal (n : Nat) : value (decimal n) = n := by
  induction n using Nat.strong_induction_on with
  | _ n ih =>
    have hdigit : ∀ d < 10, (Nat.digitChar d).toNat - 48 = d := by decide
    by_cases h : n < 10
    · rw [decimal, Nat.toDigits_of_lt_base h]
      simpa [value] using hdigit n h
    · have hback := ih (n / 10) (by omega)
      rw [decimal, Nat.toDigits_of_base_le (by decide) (by omega)]
      simp only [value, decimal, List.foldl_append, List.foldl_cons, List.foldl_nil] at hback ⊢
      rw [hback, hdigit _ (Nat.mod_lt n (by decide))]
      omega

theorem decimal_injective {m n : Nat} (h : decimal m = decimal n) : m = n := by
  rw [← value_decimal m, h, value_decimal]

/-- The text can stand in the words of a name: it holds no `$` and is no number. -/
def Plain (w : Text) : Prop := '$' ∉ w ∧ ∃ c ∈ w, c.isDigit = false

theorem Ident.plain (name : Ident) : Plain name.text := by
  obtain ⟨text, h⟩ := name
  cases text with
  | nil => simp [isIdent] at h
  | cons c cs =>
    simp only [isIdent, Bool.and_eq_true, List.all_eq_true] at h
    have hc := identStart_not_digit h.1
    refine ⟨?_, c, by simp, hc.2.1⟩
    intro hmem
    rcases List.mem_cons.mp hmem with hd | hd
    · exact hc.2.2.1 hd.symm
    · exact absurd (h.2 '$' hd) (by decide)

theorem decimal_no_sep (n : Nat) : '$' ∉ decimal n :=
  fun h => absurd (decimal_digits n '$' h) (by decide)

theorem Leaf.plain (l : Leaf) : Plain l.word := by
  cases l with
  | bool => exact ⟨by decide, 'b', by decide, by decide⟩
  | f32 => exact ⟨by decide, 'f', by decide, by decide⟩
  | f64 => exact ⟨by decide, 'f', by decide, by decide⟩
  | str => exact ⟨by decide, 's', by decide, by decide⟩
  | void => exact ⟨by decide, 'v', by decide, by decide⟩
  | rawPtr => exact ⟨by decide, 'r', by decide, by decide⟩
  | yikes => exact ⟨by decide, 'y', by decide, by decide⟩
  | int width signed =>
    cases signed with
    | true => exact ⟨by simp [Leaf.word, decimal_no_sep], 'i', by simp [Leaf.word], by decide⟩
    | false => exact ⟨by simp [Leaf.word, decimal_no_sep], 'u', by simp [Leaf.word], by decide⟩
  | unnamed id => exact ⟨by simp [Leaf.word, decimal_no_sep], 't', by simp [Leaf.word], by decide⟩

theorem Mod.no_sep (m : Mod) : '$' ∉ m.word := by
  cases m with
  | array n => simp [Mod.word, decimal_no_sep]
  | slice => decide
  | tag => decide
  | crib => decide
  | ref => decide

/-- What the modifiers around a type put before its word. -/
def modsWord (mods : List Mod) : Text := (mods.map Mod.word).flatten

theorem modsWord_no_sep (mods : List Mod) : '$' ∉ modsWord mods := by
  simp only [modsWord, List.mem_flatten, List.mem_map, not_exists, not_and]
  intro w hw
  obtain ⟨m, -, rfl⟩ := hw
  exact m.no_sep

theorem Plain.behind {w : Text} (h : Plain w) (mods : List Mod) : Plain (modsWord mods ++ w) := by
  obtain ⟨hw, c, hc, hdigit⟩ := h
  exact ⟨by simp [hw, modsWord_no_sep], c, by simp [hc], hdigit⟩

theorem Mod.word_ne_nil (m : Mod) : m.word ≠ [] := by
  cases m <;> simp [Mod.word]

theorem decimal_bar {n n' : Nat} {r r' : Text} (h : decimal n ++ '_' :: r = decimal n' ++ '_' :: r') :
    n = n' ∧ r = r' := by
  have hread (k : Nat) (s : Text) : (decimal k ++ '_' :: s).takeWhile Char.isDigit = decimal k := by
    rw [List.takeWhile_append_of_pos (decimal_digits k)]
    simp
  have hn : decimal n = decimal n' := by rw [← hread n r, h, hread n' r']
  rw [hn] at h
  exact ⟨decimal_injective hn, by simpa using h⟩

/-- The first modifier can be read off a text. -/
theorem Mod.word_inj {m m' : Mod} {r r' : Text} (h : m.word ++ r = m'.word ++ r') :
    m = m' ∧ r = r' := by
  cases m with
  | array n =>
    cases m' with
    | array n' =>
      have hbar : decimal n ++ '_' :: r = decimal n' ++ '_' :: r' := by simpa [Mod.word] using h
      obtain ⟨rfl, hr⟩ := decimal_bar hbar
      exact ⟨rfl, hr⟩
    | _ => simp [Mod.word] at h
  | _ =>
    cases m' with
    | array n' => simp [Mod.word] at h
    | _ =>
      first
        | exact ⟨rfl, List.append_cancel_left h⟩
        | simp [Mod.word] at h

theorem mods_peel {mods mods' : List Mod} {x y : Text} (h : modsWord mods ++ x = modsWord mods' ++ y) :
    (∃ d, mods = mods' ++ d ∧ y = modsWord d ++ x) ∨
      ∃ d, mods' = mods ++ d ∧ x = modsWord d ++ y := by
  induction mods generalizing mods' with
  | nil => exact .inr ⟨mods', rfl, h⟩
  | cons m mods ih =>
    cases mods' with
    | nil => exact .inl ⟨m :: mods, rfl, h.symm⟩
    | cons m' mods' =>
      have hsame : m.word ++ (modsWord mods ++ x) = m'.word ++ (modsWord mods' ++ y) := by
        simpa [modsWord] using h
      obtain ⟨rfl, hrest⟩ := Mod.word_inj hsame
      rcases ih hrest with ⟨d, rfl, hd⟩ | ⟨d, rfl, hd⟩
      · exact .inl ⟨d, rfl, hd⟩
      · exact .inr ⟨d, rfl, hd⟩

end Words

section Resolved

variable {g : Graph}

theorem lookup_table (lead : Text) {x : Text} {entries : List (Ident × SymKind)} {t : Table}
    (h : (∃ s ∈ entries, s.1.text = x) ∨ ∃ sym, t.lookup x = some sym ∧ sym.mangled = lead ++ x) :
    ∃ sym, (entries.foldl (put lead) t).lookup x = some sym ∧ sym.mangled = lead ++ x := by
  induction entries generalizing t with
  | nil => simpa using h
  | cons s entries ih =>
    refine ih ?_
    by_cases hs : s.1.text = x
    · subst hs
      exact .inr ⟨⟨s.2, lead ++ s.1.text⟩, by simp [put], rfl⟩
    · rcases h with ⟨s', hs', rfl⟩ | ⟨sym, hsym, hmangled⟩
      · rcases List.mem_cons.mp hs' with rfl | hs'
        · exact absurd rfl hs
        · exact .inl ⟨s', hs', rfl⟩
      · refine .inr ⟨sym, ?_, hmangled⟩
        have hne : (x == s.1.text) = false := by simpa using fun h => hs h.symm
        simp [put, List.lookup_cons, hne, hsym]

/-- A declaration is renamed by what the names of its module start with. -/
theorem resolved_eq {i : Nat} {s : Ident × SymKind} (h : s ∈ g.symbolsAt i) :
    g.resolved i s.1 = g.lead i ++ s.1.text := by
  obtain ⟨sym, hsym, hmangled⟩ := lookup_table (g.lead i) (t := []) (.inl ⟨s, h, rfl⟩)
  have hlookup : (buildTable (g.items i) (g.lead i)).lookup s.1.text = some sym := hsym
  simp [Graph.resolved, ownMangle, hlookup, hmangled]

/-- The stem of the module with a number. -/
def stemOf (g : Graph) (num : Text) : Text := (g.deps[value num]?.map Module.stem).getD []

/-- A declared name behind modifiers. -/
def namePiece (g : Graph) (mods : List Mod) (i : Nat) (name : Ident) : Piece Char :=
  if i < g.deps.length then .numbered (modsWord mods) (decimal i) name.text
  else .plain (modsWord mods ++ name.text)

theorem namePiece_fine (mods : List Mod) (i : Nat) (name : Ident) :
    (namePiece g mods i name).Fine '$' Char.isDigit := by
  by_cases hi : i < g.deps.length
  · rw [namePiece, if_pos hi]
    exact ⟨modsWord_no_sep mods, name.plain.1, decimal_digits i, name.plain.2⟩
  · rw [namePiece, if_neg hi]
    exact name.plain.behind mods

theorem namePiece_text {i : Nat} {s : Ident × SymKind} (h : s ∈ g.symbolsAt i) (mods : List Mod) :
    (namePiece g mods i s.1).text '$' (stemOf g) = modsWord mods ++ g.resolved i s.1 := by
  rw [resolved_eq h]
  by_cases hi : i < g.deps.length
  · have hstem : stemOf g (decimal i) = g.deps[i].stem := by
      simp [stemOf, value_decimal, List.getElem?_eq_getElem hi]
    rw [namePiece, if_pos hi, Piece.text, hstem, Graph.lead, List.getElem?_eq_getElem hi]
    simp
  · have hnone : g.deps[i]? = none := List.getElem?_eq_none (by omega)
    rw [namePiece, if_neg hi, Piece.text, Graph.lead, hnone]
    simp

theorem index_le {i : Nat} {s : Ident × SymKind} (h : s ∈ g.symbolsAt i) : i ≤ g.deps.length := by
  by_contra hi
  have hnone : g.modules[i]? = none := List.getElem?_eq_none (by simp [Graph.modules]; omega)
  simp [Graph.symbolsAt, Graph.items, hnone] at h

theorem ident_ext {a b : Ident} (h : a.text = b.text) : a = b := by
  cases a
  cases b
  cases h
  rfl

/-- A name without modifiers is found again in its piece. -/
theorem namePiece_inj {i j : Nat} {s s' : Ident × SymKind} (h : s ∈ g.symbolsAt i)
    (h' : s' ∈ g.symbolsAt j) (heq : namePiece g [] i s.1 = namePiece g [] j s'.1) :
    i = j ∧ s.1 = s'.1 := by
  have hi := index_le h
  have hj := index_le h'
  by_cases hdep : i < g.deps.length
  · by_cases hdep' : j < g.deps.length
    · simp only [namePiece, if_pos hdep, if_pos hdep', Piece.numbered.injEq] at heq
      exact ⟨decimal_injective heq.2.1, ident_ext heq.2.2⟩
    · simp [namePiece, hdep, hdep'] at heq
  · by_cases hdep' : j < g.deps.length
    · simp [namePiece, hdep, hdep'] at heq
    · simp only [namePiece, if_neg hdep, if_neg hdep', Piece.plain.injEq, modsWord, List.map_nil,
        List.flatten_nil, List.nil_append] at heq
      exact ⟨by omega, ident_ext heq⟩

theorem joined_pieces {pieces pieces' : List (Piece Char)}
    (hfine : ∀ p ∈ pieces, p.Fine '$' Char.isDigit) (hfine' : ∀ p ∈ pieces', p.Fine '$' Char.isDigit)
    (h : joined '$' (pieces.map (Piece.text '$' (stemOf g))) =
      joined '$' (pieces'.map (Piece.text '$' (stemOf g)))) : pieces = pieces' :=
  Joins.joined_injective (by decide) hfine hfine' h

/-- Two declarations of one resolved name are of one module and one source name. -/
theorem resolved_inj {i j : Nat} {s s' : Ident × SymKind} (h : s ∈ g.symbolsAt i)
    (h' : s' ∈ g.symbolsAt j) (heq : g.resolved i s.1 = g.resolved j s'.1) : i = j ∧ s.1 = s'.1 := by
  have hpieces : [namePiece g [] i s.1] = [namePiece g [] j s'.1] := by
    refine joined_pieces (g := g) (by simpa using namePiece_fine [] i s.1)
      (by simpa using namePiece_fine [] j s'.1) ?_
    simpa [namePiece_text h, namePiece_text h', modsWord] using heq
  exact namePiece_inj h h' (List.cons.inj hpieces).1

end Resolved

section Tokens

/-- What a type is built around: with the number of arguments that follow it. -/
inductive Head where
  | leaf (l : Leaf)
  | plain (i : Nat) (name : Ident)
  | generic (i : Nat) (name : Ident) (arity : Nat)

def Head.text (g : Graph) : Head → Text
  | .leaf l => l.word
  | .plain i name => g.resolved i name
  | .generic i name _ => g.resolved i name

def Head.arity : Head → Nat
  | .leaf _ => 0
  | .plain _ _ => 0
  | .generic _ _ k => k

structure Tok where
  mods : List Mod
  head : Head

def Tok.text (g : Graph) (t : Tok) : Text := modsWord t.mods ++ t.head.text g

/-- Puts a modifier around the first of the tokens. -/
def pushMod (m : Mod) : List Tok → List Tok
  | [] => []
  | t :: toks => ⟨m :: t.mods, t.head⟩ :: toks

mutual

/-- A type in Polish notation. -/
def tokens : Ty → List Tok
  | .leaf l => [⟨[], .leaf l⟩]
  | .named i name => [⟨[], .plain i name⟩]
  | .inst i name args => ⟨[], .generic i name args.length⟩ :: tokensList args
  | .modified m e => pushMod m (tokens e)

def tokensList : List Ty → List Tok
  | [] => []
  | t :: ts => tokens t ++ tokensList ts

end

theorem tokensList_eq (ts : List Ty) : tokensList ts = ts.flatMap tokens := by
  induction ts with
  | nil => simp [tokensList]
  | cons t ts ih => simp [tokensList, ih]

theorem mangleTys_eq (g : Graph) (ts : List Ty) : mangleTys g ts = ts.map (mangleTy g) := by
  induction ts with
  | nil => simp [mangleTys]
  | cons t ts ih => simp [mangleTys, ih]

variable {g : Graph} {unnamed : List Nat}

/-- The heads that the program has. -/
inductive Available (g : Graph) (unnamed : List Nat) : Head → Prop where
  | leaf {l : Leaf} : l.Formable unnamed → Available g unnamed (.leaf l)
  | plain {i : Nat} {name : Ident} : TypeName g i name → Available g unnamed (.plain i name)
  | generic {i : Nat} {name : Ident} {k : Nat} : Generic g .struct i name k →
    Available g unnamed (.generic i name k)

def Tok.Good (g : Graph) (unnamed : List Nat) (t : Tok) : Prop :=
  Available g unnamed t.head ∧ ∀ m ∈ t.mods, m.Formable

theorem tokens_ne_nil : (t : Ty) → tokens t ≠ []
  | .leaf _ => by simp [tokens]
  | .named _ _ => by simp [tokens]
  | .inst _ _ _ => by simp [tokens]
  | .modified m e => by
    obtain ⟨tok, toks, htoks⟩ := List.exists_cons_of_ne_nil (tokens_ne_nil e)
    simp [tokens, htoks, pushMod]

/-- A modified type has the tokens of the type itself, with the modifier around the first. -/
theorem tokens_modified (m : Mod) (e : Ty) : ∃ first toks, tokens e = first :: toks ∧
    tokens (.modified m e) = ⟨m :: first.mods, first.head⟩ :: toks := by
  obtain ⟨first, toks, htoks⟩ := List.exists_cons_of_ne_nil (tokens_ne_nil e)
  exact ⟨first, toks, htoks, by simp [tokens, htoks, pushMod]⟩

theorem tokens_good {t : Ty} (h : Formable g unnamed t) : ∀ tok ∈ tokens t, tok.Good g unnamed := by
  induction h with
  | leaf hl =>
    intro tok htok
    simp only [tokens, List.mem_singleton] at htok
    subst htok
    exact ⟨.leaf hl, by simp⟩
  | named hn =>
    intro tok htok
    simp only [tokens, List.mem_singleton] at htok
    subst htok
    exact ⟨.plain hn, by simp⟩
  | inst hg _ ih =>
    intro tok htok
    simp only [tokens, tokensList_eq, List.mem_cons, List.mem_flatMap] at htok
    rcases htok with rfl | ⟨t, ht, htok⟩
    · exact ⟨.generic hg, by simp⟩
    · exact ih t ht tok htok
  | @modified m e hm _ ih =>
    obtain ⟨first, toks, htoks, hmod⟩ := tokens_modified m e
    intro tok htok
    rw [hmod, List.mem_cons] at htok
    rw [htoks] at ih
    rcases htok with rfl | htok
    · have hfirst := ih first (by simp)
      exact ⟨hfirst.1, by simpa [hm] using hfirst.2⟩
    · exact ih tok (by simp [htok])

theorem generic_pos {k : SymKind} {i : Nat} {name : Ident} {a : Nat} (h : Generic g k i name a) :
    0 < a := by
  cases h with
  | func _ hne => exact List.length_pos_iff.mpr hne
  | drip _ hne _ => exact List.length_pos_iff.mpr hne

theorem joined_args {base : Text} {args : List Ty} (hne : args ≠ [])
    (h : ∀ t ∈ args, mangleTy g t = joined '$' ((tokens t).map (Tok.text g))) :
    base ++ '$' :: joined '$' (mangleTys g args) =
      joined '$' (base :: (tokensList args).map (Tok.text g)) := by
  have hlists : ∀ words ∈ args.map (fun t => (tokens t).map (Tok.text g)), words ≠ [] := by
    intro words hw
    obtain ⟨t, -, rfl⟩ := List.mem_map.mp hw
    simpa using tokens_ne_nil t
  have hargs : mangleTys g args =
      (args.map fun t => (tokens t).map (Tok.text g)).map (joined '$') := by
    rw [mangleTys_eq, List.map_map]
    exact List.map_congr_left h
  have htail : (tokensList args).map (Tok.text g) ≠ [] := by
    obtain ⟨t, rest, rfl⟩ := List.exists_cons_of_ne_nil hne
    simp [tokensList, tokens_ne_nil t]
  rw [hargs, joined_flatten hlists, joined_cons _ htail, tokensList_eq]
  simp [List.flatMap, List.map_flatten, Function.comp_def]

/-- The name of a type is its tokens, joined. -/
theorem mangleTy_eq {t : Ty} (h : Formable g unnamed t) :
    mangleTy g t = joined '$' ((tokens t).map (Tok.text g)) := by
  induction h with
  | leaf _ => simp [mangleTy, tokens, Tok.text, Head.text, modsWord]
  | named _ => simp [mangleTy, tokens, Tok.text, Head.text, modsWord]
  | @inst i name args hg _ ih =>
    have hne : args ≠ [] := List.length_pos_iff.mp (generic_pos hg)
    rw [mangleTy, joined_args hne ih, tokens, List.map_cons]
    simp [Tok.text, Head.text, modsWord]
  | @modified m e _ _ ih =>
    obtain ⟨first, toks, htoks, hmod⟩ := tokens_modified m e
    rw [mangleTy, ih, hmod, htoks, List.map_cons, List.map_cons]
    by_cases hrest : toks = []
    · simp [hrest, Tok.text, modsWord]
    · rw [joined_cons _ (by simpa using hrest), joined_cons _ (by simpa using hrest)]
      simp [Tok.text, modsWord]

theorem mangle_eq {base : Text} {args : List Ty} (hne : args ≠ [])
    (h : ∀ t ∈ args, Formable g unnamed t) :
    mangle g base args = joined '$' (base :: (tokensList args).map (Tok.text g)) :=
  joined_args hne fun t ht => mangleTy_eq (h t ht)

theorem tokensList_cancel {ts ts' : List Ty} {rest rest' : List Tok}
    (ih : ∀ t ∈ ts, ∀ t' rest rest', tokens t ++ rest = tokens t' ++ rest' → t = t' ∧ rest = rest')
    (hlen : ts.length = ts'.length) (h : tokensList ts ++ rest = tokensList ts' ++ rest') :
    ts = ts' ∧ rest = rest' := by
  induction ts generalizing ts' with
  | nil =>
    have hnil : ts' = [] := List.length_eq_zero_iff.mp hlen.symm
    simpa [hnil, tokensList] using h
  | cons t ts ihl =>
    obtain ⟨t', ts', rfl⟩ := List.exists_cons_of_length_eq_add_one hlen.symm
    simp only [tokensList, List.append_assoc] at h
    obtain ⟨rfl, hrest⟩ := ih t (by simp) t' _ _ h
    obtain ⟨rfl, hr⟩ := ihl (fun u hu => ih u (by simp [hu])) (by simpa using hlen) hrest
    exact ⟨rfl, hr⟩

/-- A type is read back from its tokens, whatever follows them. -/
theorem tokens_cancel {t : Ty} (h : Formable g unnamed t) : ∀ t' rest rest',
    tokens t ++ rest = tokens t' ++ rest' → t = t' ∧ rest = rest' := by
  induction h with
  | @leaf l _ =>
    intro t' rest rest' heq
    cases t' with
    | leaf l' => simpa [tokens] using heq
    | named i' name' => simp [tokens] at heq
    | inst i' name' args' => simp [tokens] at heq
    | modified m' e' =>
      obtain ⟨first, toks, -, hmod⟩ := tokens_modified m' e'
      rw [hmod] at heq
      simp [tokens] at heq
  | @named i name _ =>
    intro t' rest rest' heq
    cases t' with
    | leaf l' => simp [tokens] at heq
    | named i' name' => simpa [tokens] using heq
    | inst i' name' args' => simp [tokens] at heq
    | modified m' e' =>
      obtain ⟨first, toks, -, hmod⟩ := tokens_modified m' e'
      rw [hmod] at heq
      simp [tokens] at heq
  | @inst i name args _ _ ih =>
    intro t' rest rest' heq
    cases t' with
    | leaf l' => simp [tokens] at heq
    | named i' name' => simp [tokens] at heq
    | inst i' name' args' =>
      simp only [tokens, List.cons_append, List.cons.injEq, Tok.mk.injEq, true_and,
        Head.generic.injEq] at heq
      obtain ⟨⟨rfl, rfl, hlen⟩, hargs⟩ := heq
      obtain ⟨rfl, hr⟩ := tokensList_cancel ih hlen hargs
      exact ⟨rfl, hr⟩
    | modified m' e' =>
      obtain ⟨first, toks, -, hmod⟩ := tokens_modified m' e'
      rw [hmod] at heq
      simp [tokens] at heq
  | @modified m e _ _ ih =>
    intro t' rest rest' heq
    obtain ⟨first, toks, htoks, hmod⟩ := tokens_modified m e
    rw [hmod] at heq
    cases t' with
    | leaf l' => simp [tokens] at heq
    | named i' name' => simp [tokens] at heq
    | inst i' name' args' => simp [tokens] at heq
    | modified m' e' =>
      obtain ⟨first', toks', htoks', hmod'⟩ := tokens_modified m' e'
      rw [hmod'] at heq
      simp only [List.cons_append, List.cons.injEq, Tok.mk.injEq] at heq
      obtain ⟨⟨⟨rfl, hmods⟩, hhead⟩, hrest⟩ := heq
      have hfirst : first = first' := by
        cases first
        cases first'
        simp_all
      obtain ⟨rfl, hr⟩ := ih e' rest rest' (by rw [htoks, htoks', hfirst]; simpa using hrest)
      exact ⟨rfl, hr⟩

end Tokens

end BetLang.Mangling
