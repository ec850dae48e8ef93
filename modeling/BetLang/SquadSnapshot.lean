import BetLang.Squad

/-! The lowered loops visit what the interpreter visits as long as no element is changed before its
round. -/

namespace BetLang.Squad

open Control Control.Interp

variable {V ρ : Type} {src : Source V ρ} {body : Body V ρ}

/-- The number of rounds that lowering counts. -/
def Source.count : Source V ρ → ρ → Nat
  | .array n _, _ => n
  | .vec elemSize elems, s => betVecLen elemSize (elems s)

/-- A length that can have been counted. -/
def Source.Counted : Source V ρ → Nat → Prop
  | .array n _, len => len = n
  | .vec elemSize _, len => elemSize = 0 → len = 0

/-- The body leaves the variable and everything else as `p`, and the loop goes on. -/
def Goes (body : Body V ρ) (x : V) (s : ρ) (p : V × ρ) : Prop :=
  body (x, s) = some (.normal p) ∨ body (x, s) = some (.cont p)

/-- Each of the remaining elements of the snapshot is still in its place when its round comes. Where
the collection has become too short, the local of the element keeps what the body left in it. -/
def Kept (src : Source V ρ) (body : Body V ρ) (len : Nat) : List V → Nat → V → ρ → Prop
  | [], i, _, _ => len ≤ i
  | x :: rest, i, elem, s =>
    i < len ∧ ((src.contents s)[i]?).getD elem = x ∧
      ∀ p, Goes body x s p → Kept src body len rest (i + 1) p.1 p.2

/-- The condition on a loop, from the state before it. -/
def Undisturbed (src : Source V ρ) (elem : V) : Loop V ρ → ρ → Prop
  | .squad body, s => Kept src body (src.count s) (src.contents s) 0 elem s
  | .builtin arg f, s => ∀ s', arg s = some (.normal s') →
    Kept src (callback f) (src.count s') (src.contents s) 0 elem s'

/-- The state in the body of a round. -/
def Lower.Counter.read (src : Source V ρ) (c : Lower.Counter V ρ) : Lower.Counter V ρ :=
  { c with elem := ((src.contents c.rest)[c.ctr]?).getD c.elem }

/-- A slot that is read is one that the collection has. -/
def ReadsWithin (src : Source V ρ) : Prop :=
  ∀ c c', Lower.element src c = some c' → c.ctr < (src.contents c.rest).length ∨ c' = c

section Source

theorem Source.counted_count (src : Source V ρ) (s : ρ) : src.Counted (src.count s) := by
  cases src with
  | array n elems => rfl
  | vec elemSize elems => exact fun h => if_pos h

theorem Source.count_le (src : Source V ρ) (s : ρ) : src.count s ≤ (src.contents s).length := by
  cases src with
  | array n elems => simp [count, contents]
  | vec elemSize elems =>
    by_cases h : elemSize = 0
    · simp [count, contents, betVecLen, h]
    · simp [count, contents, betVecLen, h]

theorem Lower.start_eq (src : Source V ρ) (c : Lower.Counter V ρ) :
    Lower.start src c = { c with len := src.count c.rest, ctr := 0 } := by
  cases src <;> rfl

theorem betVecGet_of_ne_zero {elemSize : Nat} (h : elemSize ≠ 0) (v : List V) (i : Nat) (out : V) :
    (betVecGet elemSize v i out).2 = (v[i]?).getD out := by
  rw [betVecGet, betVecLen, if_neg h]
  by_cases hi : i ≥ v.length
  · rw [if_pos hi, List.getElem?_eq_none hi, Option.getD_none]
  · rw [if_neg hi, List.getElem?_eq_getElem (Nat.lt_of_not_le hi), Option.getD_some]

theorem Lower.element_eq {c : Lower.Counter V ρ} (hs : src.Counted c.len) (hc : c.ctr < c.len) :
    Lower.element src c = some (c.read src) := by
  cases src with
  | array n elems =>
    have hn : c.ctr < n := Nat.lt_of_lt_of_eq hc hs
    simp [Lower.element, Lower.Counter.read, Source.contents, hn]
  | vec elemSize elems =>
    have hz : elemSize ≠ 0 := fun h => absurd (hs h) (by omega)
    rw [Lower.element, betVecGet_of_ne_zero hz]
    rfl

theorem reads_within (src : Source V ρ) : ReadsWithin src := by
  intro c c' h
  cases src with
  | array n elems =>
    by_cases hc : c.ctr < n
    · exact Or.inl (by simpa [Source.contents] using hc)
    · simp [Lower.element, hc] at h
  | vec elemSize elems =>
    cases h
    by_cases hc : c.ctr < (elems c.rest).length
    · exact Or.inl hc
    · have hlen : betVecLen elemSize (elems c.rest) ≤ c.ctr :=
        Nat.le_trans (Source.count_le (.vec elemSize elems) c.rest) (Nat.le_of_not_lt hc)
      exact Or.inr (by rw [betVecGet, if_pos hlen])

end Source

section Rounds

theorem goes_or (body : Body V ρ) (x : V) (s : ρ) : (∃ p, Goes body x s p) ∨ ∀ p, ¬ Goes body x s p := by
  by_cases h : ∃ p, Goes body x s p
  · exact Or.inl h
  · exact Or.inr (not_exists.mp h)

theorem items_visited {x : V} {s : ρ} {p : V × ρ} (h : Goes body x s p) (rest : List V) :
    (Interp.items body (x :: rest) s).visited = x :: (Interp.items body rest p.2).visited := by
  rcases h with h | h
  · rw [Interp.items, h]
    rfl
  · rw [Interp.items, h]
    rfl

theorem items_visited_of_stops {x : V} {s : ρ} (h : ∀ p, ¬ Goes body x s p) (rest : List V) :
    (Interp.items body (x :: rest) s).visited = [x] := by
  rw [Interp.items]
  cases hb : body (x, s) with
  | none => rfl
  | some out =>
    cases out with
    | normal p => exact absurd (Or.inl hb) (h p)
    | cont p => exact absurd (Or.inr hb) (h p)
    | _ => rfl

theorem inBody_read (c : Lower.Counter V ρ) :
    Lower.inBody body (c.read src) = (body ((c.read src).elem, c.rest)).map
      (mapOutcome fun (x, s) => { c with elem := x, rest := s }) :=
  rfl

theorem rounds_visited_of_ge {c : Lower.Counter V ρ} (h : c.len ≤ c.ctr) (n : Nat) :
    (Lower.rounds src body n c).visited = [] := by
  cases n with
  | zero => rfl
  | succ n => rw [Lower.rounds, if_neg (Nat.not_lt.mpr h)]

theorem rounds_visited {c : Lower.Counter V ρ} (hs : src.Counted c.len) (hc : c.ctr < c.len)
    {p : V × ρ} (h : Goes body (c.read src).elem c.rest p) (n : Nat) :
    (Lower.rounds src body (n + 1) c).visited = (c.read src).elem ::
      (Lower.rounds src body n { c with ctr := c.ctr + 1, elem := p.1, rest := p.2 }).visited := by
  rw [Lower.rounds, if_pos hc, Lower.element_eq hs hc]
  dsimp only
  rcases h with h | h
  · rw [inBody_read, h]
    rfl
  · rw [inBody_read, h]
    rfl

theorem rounds_visited_of_stops {c : Lower.Counter V ρ} (hs : src.Counted c.len) (hc : c.ctr < c.len)
    (h : ∀ p, ¬ Goes body (c.read src).elem c.rest p) (n : Nat) :
    (Lower.rounds src body (n + 1) c).visited = [(c.read src).elem] := by
  rw [Lower.rounds, if_pos hc, Lower.element_eq hs hc]
  dsimp only
  rw [inBody_read]
  cases hb : body ((c.read src).elem, c.rest) with
  | none => rfl
  | some out =>
    cases out with
    | normal p => exact absurd (Or.inl hb) (h p)
    | cont p => exact absurd (Or.inr hb) (h p)
    | _ => rfl

/-- The head of what a round visits is what it read. -/
theorem rounds_visited_head (body : Body V ρ) {c : Lower.Counter V ρ} (hs : src.Counted c.len) (hc : c.ctr < c.len)
    (n : Nat) : ∃ l, (Lower.rounds src body (n + 1) c).visited = (c.read src).elem :: l := by
  obtain ⟨p, hp⟩ | hp := goes_or body (c.read src).elem c.rest
  · exact ⟨_, rounds_visited hs hc hp n⟩
  · exact ⟨_, rounds_visited_of_stops hs hc hp n⟩

theorem Goes.unique {x : V} {s : ρ} {p q : V × ρ} (hp : Goes body x s p) (hq : Goes body x s q) :
    p = q := by
  rcases hp with hp | hp
  · rcases hq with hq | hq
    · rw [hp] at hq
      cases hq
      rfl
    · rw [hp] at hq
      cases hq
  · rcases hq with hq | hq
    · rw [hp] at hq
      cases hq
    · rw [hp] at hq
      cases hq
      rfl

/-- The rounds that are left, in both worlds, by induction on what is left of the snapshot. -/
theorem rounds_visited_iff (items : List V) (n : Nat) (c : Lower.Counter V ρ)
    (hs : src.Counted c.len) (hn : c.len < n + c.ctr) :
    (Lower.rounds src body n c).visited = (Interp.items body items c.rest).visited ↔
      Kept src body c.len items c.ctr c.elem c.rest := by
  induction items generalizing n c with
  | nil =>
    by_cases hc : c.ctr < c.len
    · obtain ⟨n, rfl⟩ : ∃ k, n = k + 1 := ⟨n - 1, by omega⟩
      obtain ⟨l, hl⟩ := rounds_visited_head body hs hc n
      rw [hl, Interp.items, Kept]
      exact iff_of_false (List.cons_ne_nil _ _) (Nat.not_le.mpr hc)
    · rw [rounds_visited_of_ge (Nat.le_of_not_lt hc), Interp.items, Kept]
      exact iff_of_true rfl (Nat.le_of_not_lt hc)
  | cons x rest ih =>
    rw [Kept]
    by_cases hc : c.ctr < c.len
    · obtain ⟨n, rfl⟩ : ∃ k, n = k + 1 := ⟨n - 1, by omega⟩
      by_cases hx : (c.read src).elem = x
      · obtain ⟨p, hp⟩ | hp := goes_or body x c.rest
        · have ih := ih n { c with ctr := c.ctr + 1, elem := p.1, rest := p.2 } hs
            (by dsimp only; omega)
          rw [items_visited hp, rounds_visited hs hc (hx ▸ hp), hx, List.cons_inj_right, ih]
          refine ⟨fun h => ⟨hc, hx, fun q hq => ?_⟩, fun h => h.2.2 p hp⟩
          rw [← hp.unique hq]
          exact h
        · rw [items_visited_of_stops hp, rounds_visited_of_stops hs hc (hx ▸ hp), hx]
          exact iff_of_true rfl ⟨hc, hx, fun p h => absurd h (hp p)⟩
      · have hne : (Lower.rounds src body (n + 1) c).visited ≠
            (Interp.items body (x :: rest) c.rest).visited := by
          obtain ⟨l, hl⟩ := rounds_visited_head body hs hc n
          rw [hl]
          obtain ⟨p, hp⟩ | hp := goes_or body x c.rest
          · rw [items_visited hp]
            exact fun h => hx (List.cons.inj h).1
          · rw [items_visited_of_stops hp]
            exact fun h => hx (List.cons.inj h).1
        exact iff_of_false hne fun h => hx h.2.1
    · rw [rounds_visited_of_ge (Nat.le_of_not_lt hc)]
      refine iff_of_false ?_ fun h => hc h.1
      obtain ⟨p, hp⟩ | hp := goes_or body x c.rest
      · rw [items_visited hp]
        exact (List.cons_ne_nil _ _).symm
      · rw [items_visited_of_stops hp]
        exact (List.cons_ne_nil _ _).symm

end Rounds

section Loops

theorem rounds_start_iff (src : Source V ρ) (body : Body V ρ) (items : List V) (s : ρ) (elem : V) :
    let c := Lower.start src ⟨0, 0, elem, s⟩
    (Lower.rounds src body (c.len + 1) c).visited = (Interp.items body items s).visited ↔
      Kept src body (src.count s) items 0 elem s := by
  rw [Lower.start_eq]
  exact rounds_visited_iff items _ ⟨src.count s, 0, elem, s⟩ (src.counted_count s)
    (Nat.lt_succ_self _)

/-- A loop, from every state and with anything in the local of the element. -/
theorem visits_snapshot_iff (src : Source V ρ) (elem : V) (l : Loop V ρ) (s : ρ) :
    (Lower.visits src elem l s).visited = (Interp.visits src l s).visited ∧ ReadsWithin src ↔
      Undisturbed src elem l s := by
  rw [and_iff_left (reads_within src)]
  cases l with
  | squad body => exact rounds_start_iff src body (src.contents s) s elem
  | builtin arg f =>
    rw [Lower.visits, Interp.visits, Undisturbed]
    cases ha : arg s with
    | none => exact iff_of_true rfl fun s' h => by cases h
    | some out =>
      cases out with
      | normal s' =>
        refine (rounds_start_iff src (callback f) (src.contents s) s' elem).trans ⟨fun h t ht => ?_, fun h => h s' rfl⟩
        cases ht
        exact h
      | _ => exact iff_of_true rfl fun s' h => by cases h

/-- A body that only adds elements behind the others. -/
theorem kept_of_grows (elemSize : Nat) {elems : ρ → List V}
    (hb : ∀ x s p, Goes body x s p → elems s <+: elems p.2) (done items : List V) (elem : V) (s : ρ)
    (hp : done ++ items <+: elems s) :
    Kept (.vec elemSize elems) body (done ++ items).length items done.length elem s := by
  induction items generalizing done elem s with
  | nil =>
    exact Nat.le_of_eq (congrArg List.length (List.append_nil done))
  | cons x rest ih =>
    have hx : (elems s)[done.length]? = some x := by
      obtain ⟨more, hmore⟩ := hp
      rw [← hmore, List.append_assoc, List.getElem?_append_right (Nat.le_refl _), Nat.sub_self]
      rfl
    refine ⟨by simp, by rw [Source.contents, hx]; rfl, fun p hg => ?_⟩
    have hrest := ih (done ++ [x]) p.1 p.2 (by
      rw [List.append_assoc]
      exact hp.trans (hb x s p hg))
    have hlen : (done ++ [x]).length = done.length + 1 := by simp
    rwa [List.append_assoc, hlen] at hrest

/-- A `squad` over a vec to which the body only pushes. -/
theorem undisturbed_of_grows {elemSize : Nat} (hz : elemSize ≠ 0) {elems : ρ → List V}
    (hb : ∀ x s p, Goes body x s p → elems s <+: elems p.2) (elem : V) (s : ρ) :
    Undisturbed (.vec elemSize elems) elem (.squad body) s := by
  have h := kept_of_grows elemSize hb [] (elems s) elem s (List.prefix_refl _)
  rw [Undisturbed, Source.count, betVecLen, if_neg hz]
  exact h

/-- A loop over an array that the body leaves alone. -/
theorem kept_of_frame {n : Nat} {elems : ρ → Fin n → V}
    (hb : ∀ x s p, Goes body x s p → elems p.2 = elems s) (done items : List V) (elem : V) (s : ρ)
    (hp : done ++ items = List.ofFn (elems s)) :
    Kept (.array n elems) body n items done.length elem s := by
  have hlen : (done ++ items).length = n := by rw [hp, List.length_ofFn]
  induction items generalizing done elem s with
  | nil =>
    rw [List.append_nil] at hlen
    exact Nat.le_of_eq hlen.symm
  | cons x rest ih =>
    have hx : (List.ofFn (elems s))[done.length]? = some x := by
      rw [← hp, List.getElem?_append_right (Nat.le_refl _), Nat.sub_self]
      rfl
    have hlt : done.length < n := by
      rw [List.length_append, List.length_cons] at hlen
      omega
    refine ⟨hlt, by rw [Source.contents, hx]; rfl, fun p hg => ?_⟩
    have hrest := ih (done ++ [x]) p.1 p.2 (by rw [hb x s p hg, ← hp, List.append_assoc]; rfl)
      (by rw [List.append_assoc]; exact hlen)
    rwa [List.length_append] at hrest

theorem undisturbed_of_frame {n : Nat} {elems : ρ → Fin n → V}
    (hb : ∀ x s p, Goes body x s p → elems p.2 = elems s) (elem : V) (s : ρ) :
    Undisturbed (.array n elems) elem (.squad body) s :=
  kept_of_frame hb [] _ elem s rfl

end Loops

section Parts

/-- The loop that the blocks run: the header compares, the increment is behind the body. -/
def Lower.loop (src : Source V ρ) (body : Body V ρ) : Nat → Comp (Lower.Counter V ρ) :=
  Interp.loop (Lower.parts src) (instr (Lower.parts src) (.compare ())) (.more ())
    (next (instr (Lower.parts src) (.element ())) (Lower.inBody body))
    (instr (Lower.parts src) (.advance ()))

variable {n : Nat} {c c' : Lower.Counter V ρ}

theorem Lower.loop_done (hc : ¬ c.ctr < c.len) :
    Lower.loop src body (n + 1) c = some (.normal c) := by
  simp [Lower.loop, Interp.loop, next, choose, instr, perform, Lower.parts, hc, Interp.pure]

theorem Lower.loop_trap (hc : c.ctr < c.len) (he : Lower.element src c = none) :
    Lower.loop src body (n + 1) c = some .panicked := by
  simp [Lower.loop, Interp.loop, next, choose, Control.Interp.round, instr, perform, Lower.parts, hc, he]

theorem Lower.loop_round (hc : c.ctr < c.len) (he : Lower.element src c = some c') :
    Lower.loop src body (n + 1) c =
      Control.Interp.round (Lower.inBody body) (fun d => Lower.loop src body n (Lower.advance d)) c' := by
  simp [Lower.loop, Interp.loop, next, choose, Control.Interp.round, instr, perform, Lower.parts, hc, he]

theorem loop_rounds (src : Source V ρ) (body : Body V ρ) (n : Nat) (c : Lower.Counter V ρ) :
    Lower.loop src body n c = (Lower.rounds src body n c).out := by
  induction n generalizing c with
  | zero => rfl
  | succ n ih =>
    rw [Lower.rounds]
    by_cases hc : c.ctr < c.len
    · rw [if_pos hc]
      cases he : Lower.element src c with
      | none => exact Lower.loop_trap hc he
      | some c' =>
        rw [Lower.loop_round hc he, Control.Interp.round]
        dsimp only
        cases hb : Lower.inBody body c' with
        | none => rfl
        | some out =>
          cases out with
          | normal d => exact ih _
          | cont d => exact ih _
          | _ => rfl
    · rw [if_neg hc, Lower.loop_done hc]

end Parts

section Disturbed

/-- `xs[1] = 9` in every round. -/
def assignBody : Body Nat (Fin 3 → Nat) := fun (x, s) =>
  some (.normal (x, fun i => if i.val = 1 then 9 else s i))

/-- `v.pop()` in every round. -/
def popBody : Body Nat (List Nat) := fun (x, s) => some (.normal (x, s.dropLast))

theorem squad_reads_live :
    (Lower.visits (.array 3 id) 0 (.squad assignBody) fun i => i.val + 1).visited ≠
        (Interp.visits (.array 3 id) (.squad assignBody) fun i => i.val + 1).visited ∧
      (Lower.visits (.vec 8 id) 0 (.squad popBody) [1, 2, 3]).visited ≠
        (Interp.visits (.vec 8 id) (.squad popBody) [1, 2, 3]).visited := by
  decide

end Disturbed

end BetLang.Squad
