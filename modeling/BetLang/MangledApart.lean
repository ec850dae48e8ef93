import BetLang.MangledNames

/-! Names are told apart, and can be read back, just where no declared name is that of another type
behind the words of modifiers and no stem is unfit for an identifier. -/

namespace BetLang.Mangling

open Joins (joined Piece)
open Midir (Unicode)

section Condition

/-- A name that is another behind the words of modifiers. -/
def Behind (g : Graph) (h h' : Head) : Prop :=
  h ≠ h' ∧ ∃ mods : List Mod, (∀ m ∈ mods, m.Formable) ∧ h'.text g = modsWord mods ++ h.text g

/-- Items that lead to names in the output. -/
def Item.named : Item → Bool
  | .func _ _ | .crib _ | .drip _ _ | .moods _ _ => true
  | _ => false

/-- Each file declares a name once of a kind, the stems can start an identifier, and no type's name
is that of another behind modifiers: of one with as many parameters if there is a generic at all,
of any if a generic takes two arguments. -/
structure Clean (g : Graph) (unnamed : List Nat) (u : Unicode) : Prop where
  once : ∀ i, (g.symbolsAt i).Nodup
  stems : ∀ (i : Nat) (m : Module), g.deps[i]? = some m →
    (∃ item ∈ m.items, item.named = true) → u.IsIdent m.stem
  heads : ∀ h h', Available g unnamed h → Available g unnamed h' → Behind g h h' →
    (h.arity = h'.arity → ∀ k i name a, ¬ Generic g k i name a) ∧
      ∀ k i name a, Generic g k i name a → a ≤ 1

end Condition

section Forward

variable {g : Graph} {unnamed : List Nat} {u : Unicode}

theorem Generic.symbol {k : SymKind} {i : Nat} {name : Ident} {a : Nat} (h : Generic g k i name a) :
    (name, k) ∈ g.symbolsAt i := by
  cases h with
  | func hmem _ => exact List.mem_flatMap.mpr ⟨_, hmem, by simp [Item.symbols]⟩
  | drip hmem _ _ => exact List.mem_flatMap.mpr ⟨_, hmem, by simp [Item.symbols]⟩

theorem TypeName.symbol {i : Nat} {name : Ident} (h : TypeName g i name) :
    ∃ k, (name, k) ∈ g.symbolsAt i := by
  rcases h.1 with hmem | ⟨variants, hmem⟩
  · exact ⟨.struct, List.mem_flatMap.mpr ⟨_, hmem, by simp [Item.symbols]⟩⟩
  · exact ⟨.sum, List.mem_flatMap.mpr ⟨_, hmem, by simp [Item.symbols]⟩⟩

def Tok.piece (g : Graph) (t : Tok) : Piece Char :=
  match t.head with
  | .leaf l => .plain (modsWord t.mods ++ l.word)
  | .plain i name => namePiece g t.mods i name
  | .generic i name _ => namePiece g t.mods i name

theorem piece_fine (t : Tok) : (t.piece g).Fine '$' Char.isDigit := by
  obtain ⟨mods, head⟩ := t
  cases head with
  | leaf l => exact l.plain.behind mods
  | plain i name => exact namePiece_fine mods i name
  | generic i name k => exact namePiece_fine mods i name

theorem piece_text {t : Tok} (h : t.Good g unnamed) :
    (t.piece g).text '$' (stemOf g) = t.text g := by
  obtain ⟨mods, head⟩ := t
  cases h.1 with
  | leaf _ => rfl
  | plain hn =>
    obtain ⟨k, hk⟩ := hn.symbol
    exact namePiece_text hk mods
  | generic hg => exact namePiece_text hg.symbol mods

theorem tokensList_good {args : List Ty} (h : ∀ t ∈ args, Formable g unnamed t) :
    ∀ tok ∈ tokensList args, tok.Good g unnamed := by
  intro tok htok
  rw [tokensList_eq] at htok
  obtain ⟨t, ht, htok⟩ := List.mem_flatMap.mp htok
  exact tokens_good (h t ht) tok htok

/-- The pieces of an instance's name: that of the generic, and those of the arguments. -/
def instancePieces (g : Graph) (i : Nat) (name : Ident) (args : List Ty) : List (Piece Char) :=
  namePiece g [] i name :: (tokensList args).map (Tok.piece g)

theorem instancePieces_fine (i : Nat) (name : Ident) (args : List Ty) :
    ∀ p ∈ instancePieces g i name args, p.Fine '$' Char.isDigit := by
  intro p hp
  rcases List.mem_cons.mp hp with rfl | hp
  · exact namePiece_fine [] i name
  · obtain ⟨tok, -, rfl⟩ := List.mem_map.mp hp
    exact piece_fine tok

theorem map_piece_text {args : List Ty} (h : ∀ t ∈ args, Formable g unnamed t) :
    ((tokensList args).map (Tok.piece g)).map (Piece.text '$' (stemOf g)) =
      (tokensList args).map (Tok.text g) := by
  rw [List.map_map]
  exact List.map_congr_left fun tok htok => piece_text (tokensList_good h tok htok)

theorem mangle_pieces {k : SymKind} {i : Nat} {name : Ident} {args : List Ty}
    (h : Instance g unnamed k i name args) : mangle g (g.resolved i name) args =
      joined '$' ((instancePieces g i name args).map (Piece.text '$' (stemOf g))) := by
  have hne : args ≠ [] := List.length_pos_iff.mp (generic_pos h.1)
  have hname := namePiece_text h.1.symbol []
  rw [mangle_eq hne h.2, instancePieces, List.map_cons, map_piece_text h.2, hname]
  rfl

/-- The generic, and the tokens of the arguments as texts, are found in the name of an instance. -/
theorem mangle_split {k : SymKind} {i j : Nat} {name name' : Ident} {args args' : List Ty}
    (h : Instance g unnamed k i name args) (h' : Instance g unnamed k j name' args')
    (heq : mangle g (g.resolved i name) args = mangle g (g.resolved j name') args') :
    i = j ∧ name = name' ∧
      (tokensList args).map (Tok.text g) = (tokensList args').map (Tok.text g) := by
  rw [mangle_pieces h, mangle_pieces h'] at heq
  have hpieces := joined_pieces (instancePieces_fine i name args)
    (instancePieces_fine j name' args') heq
  obtain ⟨hname, htoks⟩ := List.cons.inj hpieces
  obtain ⟨hi, hn⟩ := namePiece_inj h.1.symbol h'.1.symbol hname
  refine ⟨hi, hn, ?_⟩
  rw [← map_piece_text h.2, ← map_piece_text h'.2, htoks]

/-- An instance has more pieces than a declaration. -/
theorem mangle_fresh {k : SymKind} {i j : Nat} {name : Ident} {args : List Ty}
    {s : Ident × SymKind} (h : Instance g unnamed k i name args) (hs : s ∈ g.symbolsAt j) :
    mangle g (g.resolved i name) args ≠ g.resolved j s.1 := by
  intro heq
  have hone : g.resolved j s.1 =
      joined '$' ([namePiece g [] j s.1].map (Piece.text '$' (stemOf g))) := by
    simp [namePiece_text hs, modsWord]
  rw [mangle_pieces h, hone] at heq
  have hpieces := joined_pieces (instancePieces_fine i name args)
    (by simpa using namePiece_fine [] j s.1) heq
  have htoks := (List.cons.inj hpieces).2
  have hne : args ≠ [] := List.length_pos_iff.mp (generic_pos h.1)
  obtain ⟨t, rest, rfl⟩ := List.exists_cons_of_ne_nil hne
  simp [tokensList, tokens_ne_nil t] at htoks

/-- Tokens of one text and as many arguments are the same where no such name stands behind
another. -/
theorem tok_unique {t t' : Tok} (ht : t.Good g unnamed) (ht' : t'.Good g unnamed)
    (hfree : ¬ Behind g t.head t'.head ∧ ¬ Behind g t'.head t.head)
    (h : t.text g = t'.text g) : t = t' := by
  obtain ⟨mods, head⟩ := t
  obtain ⟨mods', head'⟩ := t'
  have same (d : List Mod) (w : Text) (hw : w = modsWord d ++ w) : d = [] := by
    by_contra hne
    obtain ⟨m, d, rfl⟩ := List.exists_cons_of_ne_nil hne
    have hlen := congrArg List.length hw
    have := List.length_pos_iff.mpr m.word_ne_nil
    simp only [modsWord, List.map_cons, List.flatten_cons, List.length_append] at hlen
    omega
  rcases mods_peel h with ⟨d, hmods, hd⟩ | ⟨d, hmods, hd⟩ <;> simp only at hmods hd
  · have hformable : ∀ m ∈ d, m.Formable := fun m hm => ht.2 m (by simp [hmods, hm])
    by_cases hhead : head = head'
    · subst hhead
      rw [hmods, same d _ hd, List.append_nil]
    · exact absurd ⟨hhead, d, hformable, hd⟩ hfree.1
  · have hformable : ∀ m ∈ d, m.Formable := fun m hm => ht'.2 m (by simp [hmods, hm])
    by_cases hhead : head = head'
    · subst hhead
      rw [hmods, same d _ hd, List.append_nil]
    · exact absurd ⟨fun heq => hhead heq.symm, d, hformable, hd⟩ hfree.2

theorem toks_eq {f : Head → Nat} {toks toks' : List Tok} (hgood : ∀ t ∈ toks, t.Good g unnamed)
    (hgood' : ∀ t ∈ toks', t.Good g unnamed)
    (hfree : ∀ h h', Available g unnamed h → Available g unnamed h' → f h = f h' → ¬ Behind g h h')
    (htext : toks.map (Tok.text g) = toks'.map (Tok.text g))
    (hf : toks.map (fun t => f t.head) = toks'.map fun t => f t.head) : toks = toks' := by
  induction toks generalizing toks' with
  | nil =>
    cases toks' with
    | nil => rfl
    | cons t' toks' => simp at htext
  | cons t toks ih =>
    cases toks' with
    | nil => simp at htext
    | cons t' toks' =>
      simp only [List.map_cons, List.cons.injEq] at htext hf
      have ht := hgood t (by simp)
      have ht' := hgood' t' (by simp)
      rw [tok_unique ht ht' ⟨hfree _ _ ht.1 ht'.1 hf.1, hfree _ _ ht'.1 ht.1 hf.1.symm⟩ htext.1,
        ih (fun u hu => hgood u (by simp [hu])) (fun u hu => hgood' u (by simp [hu])) htext.2 hf.2]

/-- Where no generic takes two arguments the tokens of a type are a chain. -/
theorem chain_arity (hone : ∀ k i name a, Generic g k i name a → a ≤ 1) {t : Ty}
    (h : Formable g unnamed t) : (tokens t).map (fun t => t.head.arity) =
      List.replicate ((tokens t).length - 1) 1 ++ [0] := by
  induction h with
  | leaf _ => rfl
  | named _ => rfl
  | @inst i name args hg _ ih =>
    have hlen : args.length = 1 := le_antisymm (hone _ _ _ _ hg) (generic_pos hg)
    obtain ⟨t, rfl⟩ := List.length_eq_one_iff.mp hlen
    have hpos : 0 < (tokens t).length := List.length_pos_iff.mpr (tokens_ne_nil t)
    obtain ⟨n, hn⟩ : ∃ n, (tokens t).length = n + 1 := ⟨(tokens t).length - 1, by omega⟩
    have hrest := ih t (by simp)
    rw [hn] at hrest
    rw [tokens, tokensList, tokensList, List.append_nil, List.map_cons, hrest,
      @List.length_cons _ _ (tokens t), hn]
    rfl
  | @modified m e _ _ ih =>
    obtain ⟨first, toks, htoks, hmod⟩ := tokens_modified m e
    rw [htoks] at ih
    rw [hmod]
    simpa using ih

theorem item_unique {items : List Item} (h : (items.flatMap Item.symbols).Nodup) {x y : Item}
    (hx : x ∈ items) (hy : y ∈ items) {s : Ident × SymKind} (hsx : s ∈ x.symbols)
    (hsy : s ∈ y.symbols) : x = y := by
  induction items with
  | nil => cases hx
  | cons item items ih =>
    rw [List.flatMap_cons, List.nodup_append] at h
    have later {z : Item} (hz : z ∈ items) (hs : s ∈ z.symbols) (hitem : s ∈ item.symbols) : False :=
      h.2.2 s hitem s (List.mem_flatMap.mpr ⟨z, hz, hs⟩) rfl
    rcases List.mem_cons.mp hx with hx | hx
    · rcases List.mem_cons.mp hy with hy | hy
      · rw [hx, hy]
      · exact (later hy hsy (hx ▸ hsx)).elim
    · rcases List.mem_cons.mp hy with hy | hy
      · exact (later hx hsx (hy ▸ hsy)).elim
      · exact ih h.2.1 hx hy

theorem generic_arity (h : Clean g unnamed u) {k : SymKind} {i : Nat} {name : Ident} {a a' : Nat}
    (ha : Generic g k i name a) (ha' : Generic g k i name a') : a = a' := by
  cases ha with
  | func hmem _ =>
    cases ha' with
    | func hmem' _ =>
      have := item_unique (h.once i) hmem hmem' (s := (name, .func)) (by simp [Item.symbols])
        (by simp [Item.symbols])
      cases this
      rfl
  | drip hmem _ _ =>
    cases ha' with
    | drip hmem' _ _ =>
      have := item_unique (h.once i) hmem hmem' (s := (name, .struct)) (by simp [Item.symbols])
        (by simp [Item.symbols])
      cases this
      rfl

/-- Where the condition holds, an instance is found in its name. -/
theorem instances_apart (h : Clean g unnamed u) {k : SymKind} {i j : Nat} {name name' : Ident}
    {args args' : List Ty} (hi : Instance g unnamed k i name args)
    (hi' : Instance g unnamed k j name' args')
    (heq : mangle g (g.resolved i name) args = mangle g (g.resolved j name') args') :
    i = j ∧ name = name' ∧ args = args' := by
  obtain ⟨rfl, rfl, htext⟩ := mangle_split hi hi' heq
  have hlen : args.length = args'.length := generic_arity h hi.1 hi'.1
  have hcount : (tokensList args).length = (tokensList args').length := by
    simpa using congrArg List.length htext
  have htoks : tokensList args = tokensList args' := by
    by_cases hone : ∀ k i name a, Generic g k i name a → a ≤ 1
    · -- every generic takes one argument: the tokens are a chain
      have hfree : ∀ p q, Available g unnamed p → Available g unnamed q → p.arity = q.arity →
          ¬ Behind g p q :=
        fun p q hp hq harity hb => (h.heads p q hp hq hb).1 harity _ _ _ _ hi.1
      have hsingle : args.length = 1 := le_antisymm (hone _ _ _ _ hi.1) (generic_pos hi.1)
      obtain ⟨t, rfl⟩ := List.length_eq_one_iff.mp hsingle
      obtain ⟨t', rfl⟩ := List.length_eq_one_iff.mp (hlen ▸ hsingle)
      refine toks_eq (tokensList_good hi.2) (tokensList_good hi'.2) hfree htext ?_
      have hcount' : (tokens t).length = (tokens t').length := by simpa [tokensList] using hcount
      simp [tokensList, chain_arity hone (hi.2 t (by simp)), chain_arity hone (hi'.2 t' (by simp)),
        hcount']
    · have hfree : ∀ p q, Available g unnamed p → Available g unnamed q → (0 : Nat) = 0 →
          ¬ Behind g p q :=
        fun p q hp hq _ hb => hone (h.heads p q hp hq hb).2
      refine toks_eq (f := fun _ => 0) (tokensList_good hi.2) (tokensList_good hi'.2) hfree htext ?_
      simp [List.map_const', hcount]
  have hcancel := tokensList_cancel
    (fun t ht => tokens_cancel (hi.2 t ht)) hlen (congrArg (· ++ []) htoks)
  exact ⟨rfl, rfl, hcancel.1⟩

/-- The characters that may stand in an identifier of the text form. -/
def Words (u : Unicode) (w : Text) : Prop := ∀ c ∈ w, u.isWord c = true

theorem Words.append {w w' : Text} (h : Words u w) (h' : Words u w') : Words u (w ++ w') := by
  intro c hc
  rcases List.mem_append.mp hc with hc | hc
  · exact h c hc
  · exact h' c hc

theorem words_sep : u.isWord '$' = true := by simp [Unicode.isWord]

theorem words_digit {c : Char} (h : c.isDigit = true) : u.isWord c = true := by
  have hn := u.numeric_ascii c (Midir.isDigit_ascii h).1
  simp [Unicode.isWord, Unicode.isAlphanumeric, hn, h]

theorem words_alpha {c : Char} (hlow : c.toNat < 128) (h : c.isAlpha = true) :
    u.isWord c = true := by
  have ha := u.alphabetic_ascii c hlow
  simp [Unicode.isWord, Unicode.isAlphanumeric, ha, h]

theorem alpha_ascii {c : Char} (h : c.isAlpha = true) : c.toNat < 128 := by
  have := Midir.isAlpha_iff.mp h
  omega

theorem digit_isDigit {c : Char} (h : Lexer.digit c = true) : c.isDigit = true := by
  simp only [Lexer.digit, Bool.and_eq_true, decide_eq_true_eq] at h
  rw [Char.isDigit, Bool.and_eq_true]
  exact ⟨decide_eq_true h.1, decide_eq_true h.2⟩

theorem words_decimal (n : Nat) : Words u (decimal n) :=
  fun c hc => words_digit (decimal_digits n c hc)

theorem identStart_word {c : Char} (h : Lexer.identStart c = true) :
    u.isWord c = true ∧ (u.isAlphabetic c = true ∨ c = '_') := by
  obtain ⟨hlow, -, -, halpha | rfl⟩ := identStart_not_digit h
  · exact ⟨words_alpha hlow halpha, .inl (by rw [u.alphabetic_ascii c hlow, halpha])⟩
  · exact ⟨by simp [Unicode.isWord], .inr rfl⟩

theorem Ident.isIdent (name : Ident) : u.IsIdent name.text := by
  obtain ⟨text, h⟩ := name
  cases text with
  | nil => simp [Mangling.isIdent] at h
  | cons c cs =>
    simp only [Mangling.isIdent, Bool.and_eq_true, List.all_eq_true] at h
    refine ⟨⟨c, rfl, (identStart_word h.1).2⟩, ?_⟩
    intro d hd
    rcases List.mem_cons.mp hd with rfl | hd
    · exact (identStart_word h.1).1
    · have hpart := h.2 d hd
      simp only [Lexer.identPart, Bool.or_eq_true] at hpart
      rcases hpart with hpart | hpart
      · exact (identStart_word hpart).1
      · exact words_digit (digit_isDigit hpart)

theorem words_ascii {w : Text} (h : w.all (fun c => c.isAlpha || c.isDigit || c == '_') = true) :
    Words u w := by
  intro c hc
  have hcase := List.all_eq_true.mp h c hc
  simp only [Bool.or_eq_true, beq_iff_eq] at hcase
  rcases hcase with (hcase | hcase) | rfl
  · exact words_alpha (alpha_ascii hcase) hcase
  · exact words_digit hcase
  · simp [Unicode.isWord]

theorem Leaf.words (l : Leaf) : Words u l.word := by
  cases l with
  | int width signed => cases width <;> cases signed <;> exact words_ascii (by decide)
  | unnamed id => exact (words_ascii (w := ['t']) (by decide)).append (words_decimal id)
  | _ => exact words_ascii (by decide)

theorem Mod.words (m : Mod) : Words u m.word := by
  cases m with
  | array n =>
    exact (words_ascii (w := ['a', 'r', 'r']) (by decide)).append
      ((words_decimal n).append (words_ascii (w := ['_']) (by decide)))
  | _ => exact words_ascii (by decide)

/-- A declared name whose module's stem starts an identifier is one itself. -/
theorem resolved_isIdent {i : Nat} {s : Ident × SymKind} (hs : s ∈ g.symbolsAt i)
    (hstem : ∀ m, g.deps[i]? = some m → u.IsIdent m.stem) : u.IsIdent (g.resolved i s.1) := by
  rw [resolved_eq hs, Graph.lead]
  cases hm : g.deps[i]? with
  | none => exact s.1.isIdent
  | some m =>
    obtain ⟨⟨c, hc, hstart⟩, hwords⟩ := hstem m hm
    refine ⟨⟨c, by simp [hc], hstart⟩, ?_⟩
    have hnum : Words u ('$' :: (decimal i ++ ['$'])) := by
      intro d hd
      simp only [List.mem_cons, List.mem_append, List.not_mem_nil, or_false] at hd
      rcases hd with rfl | hd | rfl
      · exact words_sep
      · exact words_decimal i d hd
      · exact words_sep
    exact (Words.append (Words.append hwords hnum) s.1.isIdent.2)

theorem Generic.item {k : SymKind} {i : Nat} {name : Ident} {a : Nat} (h : Generic g k i name a) :
    ∃ item ∈ g.items i, item.named = true := by
  cases h with
  | func hmem _ => exact ⟨_, hmem, rfl⟩
  | drip hmem _ _ => exact ⟨_, hmem, rfl⟩

theorem items_dep {i : Nat} {m : Module} (h : g.deps[i]? = some m) : g.items i = m.items := by
  have hi : i < g.deps.length := (List.getElem?_eq_some_iff.mp h).1
  simp [Graph.items, Graph.modules, List.getElem?_append_left hi, h]

theorem Clean.stem (h : Clean g unnamed u) {i : Nat} {item : Item} (hmem : item ∈ g.items i)
    (hnamed : item.named = true) : ∀ m, g.deps[i]? = some m → u.IsIdent m.stem :=
  fun m hm => h.stems i m hm ⟨item, items_dep hm ▸ hmem, hnamed⟩

theorem joined_words {ws : List Text} (h : ∀ w ∈ ws, Words u w) : Words u (joined '$' ws) := by
  induction ws with
  | nil => exact fun c hc => absurd hc (by simp)
  | cons w ws ih =>
    by_cases hne : ws = []
    · simpa [hne] using h w (by simp)
    · have hrest := ih fun v hv => h v (by simp [hv])
      rw [Joins.joined_cons _ hne]
      exact (h w (by simp)).append (Words.append (w := ['$']) (by simp [Words, words_sep]) hrest)

theorem mangle_words {base : Text} {args : List Ty} (hbase : Words u base)
    (hargs : ∀ t ∈ args, Words u (mangleTy g t)) : Words u (mangle g base args) := by
  rw [mangle, mangleTys_eq]
  refine hbase.append (Words.append (w := ['$']) (by simp [Words, words_sep]) ?_)
  refine joined_words fun w hw => ?_
  obtain ⟨t, ht, rfl⟩ := List.mem_map.mp hw
  exact hargs t ht

theorem Clean.base (h : Clean g unnamed u) {k : SymKind} {i : Nat} {name : Ident} {a : Nat}
    (hg : Generic g k i name a) : u.IsIdent (g.resolved i name) := by
  obtain ⟨item, hmem, hnamed⟩ := hg.item
  exact resolved_isIdent hg.symbol (h.stem hmem hnamed)

theorem mangleTy_words (h : Clean g unnamed u) {t : Ty} (ht : Formable g unnamed t) :
    Words u (mangleTy g t) := by
  induction ht with
  | @leaf l _ =>
    rw [mangleTy]
    exact l.words
  | @named i name hn =>
    obtain ⟨k, hk⟩ := hn.symbol
    have hstem : ∀ m, g.deps[i]? = some m → u.IsIdent m.stem := by
      rcases hn.1 with hmem | ⟨variants, hmem⟩
      · exact h.stem hmem rfl
      · exact h.stem hmem rfl
    rw [mangleTy]
    exact (resolved_isIdent hk hstem).2
  | inst hg _ ih => exact mangle_words (h.base hg).2 ih
  | @modified m e _ _ ih =>
    rw [mangleTy]
    exact m.words.append ih

theorem emitted_symbol {item : Item} {name : Ident} (h : name ∈ item.emitted) :
    item.named = true ∧ ∃ k, (name, k) ∈ item.symbols := by
  cases item with
  | func n generics =>
    by_cases hg : generics = []
    · simp only [Item.emitted, hg, if_true, List.mem_singleton] at h
      exact ⟨rfl, .func, by simp [Item.symbols, h]⟩
    · simp [Item.emitted, hg] at h
  | drip n generics =>
    by_cases hg : generics = []
    · simp only [Item.emitted, hg, if_true, List.mem_singleton] at h
      exact ⟨rfl, .struct, by simp [Item.symbols, h]⟩
    · simp [Item.emitted, hg] at h
  | moods n variants =>
    rcases List.mem_cons.mp h with rfl | h
    · exact ⟨rfl, .sum, by simp [Item.symbols]⟩
    · exact ⟨rfl, .variant, by simp [Item.symbols, h]⟩
  | crib n =>
    simp only [Item.emitted, List.mem_singleton] at h
    exact ⟨rfl, .value, by simp [Item.symbols, h]⟩
  | _ => simp [Item.emitted] at h

theorem emitted_isIdent (h : Clean g unnamed u) {name : Text} (he : Emitted g unnamed name) :
    u.IsIdent name := by
  cases he with
  | item hmem hname =>
    obtain ⟨hnamed, k, hk⟩ := emitted_symbol hname
    exact resolved_isIdent (List.mem_flatMap.mpr ⟨_, hmem, hk⟩) (h.stem hmem hnamed)
  | externFn _ => exact Ident.isIdent _
  | inst hi =>
    have hbase := h.base hi.1
    obtain ⟨c, hc, hstart⟩ := hbase.1
    refine ⟨⟨c, ?_, hstart⟩, mangle_words hbase.2 fun t ht => mangleTy_words h (hi.2 t ht)⟩
    simp [mangle, hc]

/-- Where the condition holds, the names are what they should be. -/
theorem faithful_of_clean (h : Clean g unnamed u) : Faithful g unnamed u where
  resolved _ _ _ hs _ hs' heq := resolved_inj hs hs' heq
  declared i j p q s s' hp hq hkind heq := by
    obtain ⟨rfl, hname⟩ :=
      resolved_inj (List.mem_of_getElem? hp) (List.mem_of_getElem? hq) heq
    have hsame : s = s' := Prod.ext hname hkind
    refine ⟨rfl, ?_⟩
    have hlt := (List.getElem?_eq_some_iff.mp hp).1
    exact (List.getElem?_inj hlt (h.once i)).mp (by rw [hp, hq, hsame])
  instances _ _ _ _ _ _ _ hi hi' heq := instances_apart h hi hi' heq
  fresh _ _ _ _ _ _ hi hs := mangle_fresh hi hs
  printable _ he := (Midir.lex_ident_iff _).mpr (emitted_isIdent h he)

end Forward

section Backward

variable {g : Graph} {unnamed : List Nat} {u : Unicode}

/-- An argument that every program has. -/
def filler : Ty := .leaf (.int .w64 true)

theorem filler_formable : Formable g unnamed filler := .leaf trivial

/-- A type around a head, if the arguments are as many as it takes. -/
def Head.node : Head → List Ty → Ty
  | .leaf l, _ => .leaf l
  | .plain i name, _ => .named i name
  | .generic i name _, args => .inst i name args

theorem node_tokens {h : Head} {args : List Ty} (hlen : args.length = h.arity) :
    tokens (h.node args) = ⟨[], h⟩ :: tokensList args := by
  cases h with
  | leaf l =>
    have hnil : args = [] := List.length_eq_zero_iff.mp hlen
    simp [Head.node, tokens, hnil, tokensList]
  | plain i name =>
    have hnil : args = [] := List.length_eq_zero_iff.mp hlen
    simp [Head.node, tokens, hnil, tokensList]
  | generic i name k =>
    have hk : args.length = k := hlen
    simp [Head.node, tokens, hk]

theorem node_formable {h : Head} (hh : Available g unnamed h) {args : List Ty}
    (hlen : args.length = h.arity) (hargs : ∀ t ∈ args, Formable g unnamed t) :
    Formable g unnamed (h.node args) := by
  cases hh with
  | leaf hl => exact .leaf hl
  | plain hn => exact .named hn
  | generic hg => exact .inst (hlen ▸ hg) hargs

/-- A reading of a word: a head behind modifiers. -/
def Tok.tree (t : Tok) (args : List Ty) : Ty := t.mods.foldr .modified (t.head.node args)

theorem tree_tokens {t : Tok} {args : List Ty} (hlen : args.length = t.head.arity) :
    tokens (t.tree args) = t :: tokensList args := by
  obtain ⟨mods, head⟩ := t
  induction mods with
  | nil => exact node_tokens hlen
  | cons m mods ih =>
    have hrest := ih hlen
    rw [Tok.tree] at hrest
    simp [Tok.tree, tokens, hrest, pushMod]

theorem tree_formable {t : Tok} (ht : t.Good g unnamed) {args : List Ty}
    (hlen : args.length = t.head.arity) (hargs : ∀ u ∈ args, Formable g unnamed u) :
    Formable g unnamed (t.tree args) := by
  obtain ⟨mods, head⟩ := t
  induction mods with
  | nil => exact node_formable ht.1 hlen hargs
  | cons m mods ih =>
    exact .modified (ht.2 m (by simp)) (ih ⟨ht.1, fun m' hm' => ht.2 m' (by simp [hm'])⟩ hlen)

/-- The arguments of two instances of one generic are the same if their tokens read alike. -/
theorem Faithful.same_args (hf : Faithful g unnamed u) {k : SymKind} {i : Nat} {name : Ident}
    {args args' : List Ty} (h : Instance g unnamed k i name args)
    (h' : Instance g unnamed k i name args')
    (htext : (tokensList args).map (Tok.text g) = (tokensList args').map (Tok.text g)) :
    args = args' := by
  have hne : args ≠ [] := List.length_pos_iff.mp (generic_pos h.1)
  have hne' : args' ≠ [] := List.length_pos_iff.mp (generic_pos h'.1)
  refine (hf.instances k i name args i name args' h h' ?_).2.2
  rw [mangle_eq hne h.2, mangle_eq hne' h'.2, htext]

def fill (n : Nat) : List Ty := List.replicate n filler

theorem fill_formable (n : Nat) : ∀ t ∈ fill n, Formable g unnamed t := by
  intro t ht
  rw [List.eq_of_mem_replicate ht]
  exact filler_formable

theorem tokensList_append (ts ts' : List Ty) :
    tokensList (ts ++ ts') = tokensList ts ++ tokensList ts' := by
  simp [tokensList_eq]

theorem tokensList_fill (n : Nat) : tokensList (fill n) =
    List.replicate n ⟨[], .leaf (.int .w64 true)⟩ := by
  induction n with
  | zero => simp [fill, tokensList]
  | succ n ih =>
    rw [fill, List.replicate_succ, tokensList, List.replicate_succ, ← ih]
    simp [filler, tokens, fill]

/-- Two readings of one word with as many arguments make two instances of one name. -/
theorem Faithful.no_same_arity (hf : Faithful g unnamed u) {t t' : Tok} (ht : t.Good g unnamed)
    (ht' : t'.Good g unnamed) (hne : t ≠ t') (htext : t.text g = t'.text g)
    (harity : t.head.arity = t'.head.arity) {k : SymKind} {i : Nat} {name : Ident} {a : Nat}
    (hg : Generic g k i name a) : False := by
  have hpos := generic_pos hg
  have instance_of {r : Tok} (hr : r.Good g unnamed) (hk : r.head.arity = t.head.arity) :
      Instance g unnamed k i name (r.tree (fill t.head.arity) :: fill (a - 1)) := by
    refine ⟨?_, ?_⟩
    · have hlen : (r.tree (fill t.head.arity) :: fill (a - 1)).length = a := by
        simp [fill]
        omega
      rw [hlen]
      exact hg
    · intro v hv
      rcases List.mem_cons.mp hv with rfl | hv
      · exact tree_formable hr (by simp [fill, hk]) (fill_formable _)
      · exact fill_formable _ v hv
  have htree : tokens (t.tree (fill t.head.arity)) = t :: tokensList (fill t.head.arity) :=
    tree_tokens (by simp [fill])
  have htree' : tokens (t'.tree (fill t.head.arity)) = t' :: tokensList (fill t.head.arity) :=
    tree_tokens (by simp [fill, harity])
  have hsame := hf.same_args (instance_of ht rfl) (instance_of ht' harity.symm)
    (by simp [tokensList, htree, htree', htext])
  have htoks := congrArg tokens (List.cons.inj hsame).1
  rw [htree, htree'] at htoks
  exact hne (List.cons.inj htoks).1

/-- Two readings of one word with more and with fewer arguments make two instances of one name of a
generic that takes two. -/
theorem Faithful.no_wide (hf : Faithful g unnamed u) {t t' : Tok} (ht : t.Good g unnamed)
    (ht' : t'.Good g unnamed) (htext : t.text g = t'.text g)
    (harity : t.head.arity < t'.head.arity) {k : SymKind} {i : Nat} {name : Ident} {a : Nat}
    (hg : Generic g k i name (a + 2)) : False := by
  obtain ⟨n, hn⟩ : ∃ n, t'.head.arity = t.head.arity + 1 + n :=
    ⟨t'.head.arity - t.head.arity - 1, by omega⟩
  have htree : tokens (t.tree (fill t.head.arity)) = t :: tokensList (fill t.head.arity) :=
    tree_tokens (by simp [fill])
  -- the first word read with fewer arguments and the second with more, or the other way
  have hfewer : tokens (t'.tree (fill t'.head.arity)) = t' :: tokensList (fill t'.head.arity) :=
    tree_tokens (by simp [fill])
  have hmore : tokens (t'.tree (fill t.head.arity ++ t.tree (fill t.head.arity) :: fill n)) =
      t' :: tokensList (fill t.head.arity ++ t.tree (fill t.head.arity) :: fill n) :=
    tree_tokens (by simp [fill, hn]; omega)
  have hti : Formable g unnamed (t.tree (fill t.head.arity)) :=
    tree_formable ht (by simp [fill]) (fill_formable _)
  have hfirst : Instance g unnamed k i name
      (t.tree (fill t.head.arity) :: t'.tree (fill t'.head.arity) :: fill a) := by
    refine ⟨by simpa [fill] using hg, ?_⟩
    intro v hv
    simp only [List.mem_cons] at hv
    rcases hv with rfl | rfl | hv
    · exact hti
    · exact tree_formable ht' (by simp [fill]) (fill_formable _)
    · exact fill_formable _ v hv
  have hsecond : Instance g unnamed k i name
      (t'.tree (fill t.head.arity ++ t.tree (fill t.head.arity) :: fill n) :: filler :: fill a) := by
    refine ⟨by simpa [fill] using hg, ?_⟩
    intro v hv
    simp only [List.mem_cons] at hv
    rcases hv with rfl | rfl | hv
    · refine tree_formable ht' (by simp [fill, hn]; omega) ?_
      intro w hw
      simp only [List.mem_append, List.mem_cons] at hw
      rcases hw with hw | rfl | hw
      · exact fill_formable _ w hw
      · exact hti
      · exact fill_formable _ w hw
    · exact filler_formable
    · exact fill_formable _ v hv
  have hcount (x : Tok) : List.replicate t'.head.arity x =
      List.replicate t.head.arity x ++ (List.replicate n x ++ [x]) := by
    rw [← List.replicate_succ', List.replicate_append_replicate, hn]
    congr 1
    omega
  have hwords : (tokensList
      (t.tree (fill t.head.arity) :: t'.tree (fill t'.head.arity) :: fill a)).map (Tok.text g) =
      (tokensList (t'.tree (fill t.head.arity ++ t.tree (fill t.head.arity) :: fill n) ::
        filler :: fill a)).map (Tok.text g) := by
    simp only [tokensList, htree, hfewer, hmore, tokensList_append, tokensList_fill, hcount]
    simp only [htext, filler, tokens, List.map_append, List.map_cons,
      List.append_assoc, List.cons_append, List.nil_append]
  have hsame := hf.same_args hfirst hsecond hwords
  have hlast := (List.cons.inj (List.cons.inj hsame).2).1
  have hlen := congrArg (fun r => (tokens r).length) hlast
  simp only [hfewer, tokensList_fill, List.length_cons, List.length_replicate] at hlen
  simp only [filler, tokens, List.length_cons, List.length_nil] at hlen
  omega

theorem Faithful.heads (hf : Faithful g unnamed u) {h h' : Head} (hh : Available g unnamed h)
    (hh' : Available g unnamed h') (hb : Behind g h h') :
    (h.arity = h'.arity → ∀ k i name a, ¬ Generic g k i name a) ∧
      ∀ k i name a, Generic g k i name a → a ≤ 1 := by
  obtain ⟨hne, mods, hmods, htext⟩ := hb
  -- the word of the second is the first behind modifiers, and is read both ways
  have ht : Tok.Good g unnamed ⟨mods, h⟩ := ⟨hh, hmods⟩
  have ht' : Tok.Good g unnamed ⟨[], h'⟩ := ⟨hh', by simp⟩
  have hread : Tok.text g ⟨mods, h⟩ = Tok.text g ⟨[], h'⟩ := by simp [Tok.text, htext, modsWord]
  have hsame (harity : h.arity = h'.arity) : ∀ k i name a, ¬ Generic g k i name a :=
    fun k i name a hg => hf.no_same_arity ht ht' (by simp [hne]) hread harity hg
  refine ⟨hsame, ?_⟩
  intro k i name a hg
  by_contra hwide
  obtain ⟨b, rfl⟩ : ∃ b, a = b + 2 := ⟨a - 2, by omega⟩
  rcases Nat.lt_trichotomy h.arity h'.arity with hlt | heq | hlt
  · exact hf.no_wide ht ht' hread hlt hg
  · exact hsame heq _ _ _ _ hg
  · exact hf.no_wide ht' ht hread.symm hlt hg

theorem stem_of_isIdent {stem rest : Text} (h : u.IsIdent (stem ++ '$' :: rest)) :
    u.IsIdent stem := by
  obtain ⟨⟨c, hc, hstart⟩, hwords⟩ := h
  cases stem with
  | nil =>
    cases hc
    rcases hstart with hstart | hstart
    · rw [u.alphabetic_ascii '$' (by decide)] at hstart
      exact absurd hstart (by decide)
    · exact absurd hstart (by decide)
  | cons d stem =>
    cases hc
    exact ⟨⟨c, rfl, hstart⟩, fun b hb => hwords b (List.mem_append_left _ hb)⟩

/-- An item that leads to names leads to one that starts with its module's stem. -/
theorem Faithful.stem (hf : Faithful g unnamed u) {i : Nat} {m : Module} (hm : g.deps[i]? = some m)
    {item : Item} (hitem : item ∈ m.items) (hnamed : item.named = true) : u.IsIdent m.stem := by
  have hitem' : item ∈ g.items i := items_dep hm ▸ hitem
  have lead {name : Ident} {k : SymKind} (hs : (name, k) ∈ item.symbols) :
      g.resolved i name = m.stem ++ '$' :: (decimal i ++ '$' :: name.text) := by
    have hresolved := resolved_eq (g := g) (s := (name, k)) (List.mem_flatMap.mpr ⟨_, hitem', hs⟩)
    simpa [Graph.lead, hm] using hresolved
  have plain {name : Ident} {k : SymKind} (hs : (name, k) ∈ item.symbols)
      (he : name ∈ item.emitted) : u.IsIdent m.stem := by
    have hident := (Midir.lex_ident_iff _).mp (hf.printable _ (.item hitem' he))
    rw [lead hs] at hident
    exact stem_of_isIdent hident
  have generic {name : Ident} {k : SymKind} {a : Nat} (hs : (name, k) ∈ item.symbols)
      (hg : Generic g k i name a) : u.IsIdent m.stem := by
    have hinst : Instance g unnamed k i name (fill a) := ⟨by simpa [fill] using hg, fill_formable a⟩
    have hident := (Midir.lex_ident_iff _).mp (hf.printable _ (.inst hinst))
    rw [mangle, lead hs] at hident
    exact stem_of_isIdent (by simpa using hident)
  cases item with
  | func name generics =>
    have hs : (name, SymKind.func) ∈ (Item.func name generics).symbols := by simp [Item.symbols]
    by_cases hg : generics = []
    · exact plain hs (by simp [Item.emitted, hg])
    · exact generic hs (.func hitem' hg)
  | drip name generics =>
    have hs : (name, SymKind.struct) ∈ (Item.drip name generics).symbols := by simp [Item.symbols]
    by_cases hg : generics = []
    · exact plain hs (by simp [Item.emitted, hg])
    · refine generic hs (.drip hitem' hg ?_)
      intro hbuiltin
      have hsep : '$' ∈ g.resolved i name := by simp [lead hs]
      simp only [List.mem_cons, List.not_mem_nil, or_false] at hbuiltin
      rcases hbuiltin with hb | hb
      · rw [hb] at hsep
        exact absurd hsep (by decide)
      · rw [hb] at hsep
        exact absurd hsep (by decide)
  | moods name variants =>
    have hs : (name, SymKind.sum) ∈ (Item.moods name variants).symbols := by simp [Item.symbols]
    exact plain hs (by simp [Item.emitted])
  | crib name =>
    have hs : (name, SymKind.value) ∈ (Item.crib name).symbols := by simp [Item.symbols]
    exact plain hs (by simp [Item.emitted])
  | _ => simp [Item.named] at hnamed

theorem clean_of_faithful (hf : Faithful g unnamed u) : Clean g unnamed u where
  once i := by
    rw [List.nodup_iff_getElem?_ne_getElem?]
    intro p q hpq hq heq
    obtain ⟨s, hs⟩ : ∃ s, (g.symbolsAt i)[q]? = some s := ⟨_, List.getElem?_eq_getElem hq⟩
    have := (hf.declared i i p q s s (heq.trans hs) hs rfl rfl).2
    omega
  stems _ _ hm hitem := by
    obtain ⟨item, hmem, hnamed⟩ := hitem
    exact hf.stem hm hmem hnamed
  heads _ _ hh hh' hb := hf.heads hh hh' hb

end Backward

section Merged

def sliceName : Ident := ⟨['s', 'l', 'i', 'c', 'e', '_', 'i', '6', '4'], by decide⟩

def boxName : Ident := ⟨['B', 'o', 'x'], by decide⟩

def paramName : Ident := ⟨['T'], by decide⟩

/-- One file with a struct that is named as the slices of numbers are, and a generic. -/
def mergedGraph : Graph :=
  ⟨[], ⟨['m', 'a', 'i', 'n'], [.drip sliceName [], .drip boxName [paramName]]⟩⟩

end Merged

end BetLang.Mangling
