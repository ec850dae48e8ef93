import BetLang.DowncastRun
import BetLang.Sequencing

/-! What an accepted downcast can rely on. The last read of the guard's discriminant is before the
last crossing of the case edge, and the edge is taken by the value read. -/

namespace BetLang.Validate

open Ir

/-- A local that a switch reads and that has one assignment. -/
def GuardTemp (f : Func) (l : Nat) : Prop :=
  assignCount f l = 1 ∧ ∃ blk ∈ f.blocks, ∃ scrutinee cases default,
    blk.term = .switch scrutinee cases default ∧ scrutineeLocal scrutinee = some l

/-- A step writes a guard's temp only by the assignment of the temp. -/
def TempsIntact (f : Func) (x : Event) : Prop :=
  ∀ l, GuardTemp f l → x.effect.locals l → Assigns f x.src.block x.src.pc l

/-- Some case edge accepted for a downcast leads to a block other than the entry. -/
def GuardedOffEntry (fuel : Nat) (f : Func) (site : DowncastSite) : Prop :=
  ∀ doms, computeDominators fuel f.blocks.length f.entry (computePreds f) = some doms →
    ∃ g ∈ collectSwitchGuards f doms, ∃ c ∈ g.cases,
      caseAccepted doms (computePreds f) site g c = true ∧ c.2 ≠ f.entry

instance (fuel : Nat) (f : Func) (site : DowncastSite) : Decidable (GuardedOffEntry fuel f site) :=
  inferInstanceAs (Decidable (∀ doms ∈
    computeDominators fuel f.blocks.length f.entry (computePreds f),
      ∃ g ∈ collectSwitchGuards f doms, ∃ c ∈ g.cases,
        caseAccepted doms (computePreds f) site g c = true ∧ c.2 ≠ f.entry))

/-- The event reads into a local the discriminant that the downcast relies on. -/
def GuardRead (f : Func) (l : Nat) (p : Place) (x : Event) : Prop :=
  ∃ q, samePlace q p = true ∧ ReadsDisc f x.src.block x.src.pc l q

variable {f : Func} {h : List Event} {c c' : Config} {e : Effect}

section Unique

theorem count_unique {α : Type} [BEq α] [LawfulBEq α] {xs : List α} {a : α} (h : xs.count a = 1)
    {i j : Nat} (hi : xs[i]? = some a) (hj : xs[j]? = some a) : i = j := by
  induction xs generalizing i j with
  | nil => simp at hi
  | cons x xs ih =>
    have hpos : ∀ k : Nat, xs[k]? = some a → 0 < xs.count a := fun k hk =>
      List.count_pos_iff.mpr (List.mem_of_getElem? hk)
    rw [List.count_cons] at h
    cases i with
    | zero =>
      cases j with
      | zero => rfl
      | succ j =>
        have hx : x = a := by simpa using hi
        have hrest := hpos j (by simpa using hj)
        rw [if_pos (by simpa using hx)] at h
        omega
    | succ i =>
      have hrest := hpos i (by simpa using hi)
      cases j with
      | zero =>
        have hx : x = a := by simpa using hj
        rw [if_pos (by simpa using hx)] at h
        omega
      | succ j =>
        have hone : xs.count a = 1 := by omega
        have hij := ih hone (by simpa using hi) (by simpa using hj)
        omega

theorem flatMap_count_unique {α β : Type} [BEq β] [LawfulBEq β] {g : α → List β} {xs : List α}
    {b : β} (h : (xs.flatMap g).count b = 1) {i j k m : Nat} {x y : α} (hx : xs[i]? = some x)
    (hk : (g x)[k]? = some b) (hy : xs[j]? = some y) (hm : (g y)[m]? = some b) :
    i = j ∧ k = m := by
  induction xs generalizing i j with
  | nil => simp at hx
  | cons z zs ih =>
    have hpos : ∀ (n : Nat) (w : α) (o : Nat), zs[n]? = some w → (g w)[o]? = some b →
        0 < (zs.flatMap g).count b := fun n w o hw ho =>
      List.count_pos_iff.mpr
        (List.mem_flatMap.mpr ⟨w, List.mem_of_getElem? hw, List.mem_of_getElem? ho⟩)
    have hhead : ∀ o : Nat, (g z)[o]? = some b → 0 < (g z).count b := fun o ho =>
      List.count_pos_iff.mpr (List.mem_of_getElem? ho)
    rw [List.flatMap_cons, List.count_append] at h
    cases i with
    | zero =>
      obtain rfl : z = x := by simpa using hx
      have hz := hhead k hk
      cases j with
      | zero =>
        obtain rfl : z = y := by simpa using hy
        exact ⟨rfl, count_unique (by omega) hk hm⟩
      | succ j =>
        have hrest := hpos j y m (by simpa using hy) hm
        omega
    | succ i =>
      have hrest := hpos i x k (by simpa using hx) hk
      cases j with
      | zero =>
        obtain rfl : z = y := by simpa using hy
        have hz := hhead m hm
        omega
      | succ j =>
        obtain ⟨hij, hkm⟩ := ih (by omega) (by simpa using hx) (by simpa using hy)
        exact ⟨by rw [hij], hkm⟩

/-- A single assignment has one position. -/
theorem assigns_unique {l b b' pc pc' : Nat} (hl : assignCount f l = 1)
    (ha : Assigns f b pc l) (ha' : Assigns f b' pc' l) : b = b' ∧ pc = pc' := by
  obtain ⟨blk, hblk, hpc⟩ := ha
  obtain ⟨blk', hblk', hpc'⟩ := ha'
  exact flatMap_count_unique hl hblk hpc hblk' hpc'

end Unique

theorem discRead_assigned {l : Nat} {st : Stmt} {p : Place} (h : discRead l st = some p) :
    assignedLocal st = some l := by
  unfold discRead at h
  split at h
  · split_ifs at h with hx
    rw [assignedLocal, hx]
  · split_ifs at h with hx
    rw [assignedLocal, hx]
  · cases h

theorem ReadsDisc.assigns {b pc l : Nat} {p : Place} (hr : ReadsDisc f b pc l p) :
    Assigns f b pc l := by
  obtain ⟨blk, st, hblk, hst, hread⟩ := hr
  refine ⟨blk, hblk, ?_⟩
  have hlt := (List.getElem?_eq_some_iff.mp hst).1
  rw [blockAssigns, List.getElem?_append_left (by simpa using hlt), List.getElem?_map, hst]
  exact congrArg some (discRead_assigned hread)

/-- The recorded definition of a temp is a read at some statement of its block. -/
theorem discDef_reads {l b : Nat} {p : Place} (hd : discDef f l = some (b, p)) :
    ∃ pc, ReadsDisc f b pc l p := by
  have hmem := List.mem_of_getLast? hd
  obtain ⟨⟨blk, i⟩, hblk, hmem⟩ := List.mem_flatMap.mp hmem
  obtain ⟨q, hq, heq⟩ := List.mem_map.mp hmem
  obtain ⟨st, hst, hread⟩ := List.mem_filterMap.mp hq
  cases heq
  obtain ⟨pc, hpc⟩ := List.mem_iff_getElem?.mp hst
  exact ⟨pc, blk, st, List.mem_zipIdx_iff_getElem?.mp hblk, hpc, hread⟩

/-- What the source requires of a switch before it is used as a guard on temp `l`, read in block
`def`. -/
structure GuardOn (f : Func) (doms : DomMatrix) (g : SwitchGuard) (l defBlock : Nat) : Prop where
  single : assignCount f l = 1
  reads : ∃ pc, ReadsDisc f defBlock pc l g.sumPlace
  dominated : doms g.block defBlock = true
  switch : ∃ blk scrutinee cases default, f.blocks[g.block]? = some blk ∧
    blk.term = .switch scrutinee cases default ∧ scrutineeLocal scrutinee = some l ∧
    g.cases = cases.filter (fun c => c.2 < f.blocks.length) ∧
    g.default = if default < f.blocks.length then some default else none

theorem guardOn_of_mem {doms : DomMatrix} {g : SwitchGuard}
    (hg : g ∈ collectSwitchGuards f doms) : ∃ l defBlock, GuardOn f doms g l defBlock := by
  obtain ⟨⟨blk, i⟩, hblk, hg⟩ := List.mem_filterMap.mp hg
  have hblk := List.mem_zipIdx_iff_getElem?.mp hblk
  simp only [switchGuard] at hg
  cases ht : blk.term with
  | switch scrutinee cases default =>
    simp only [ht] at hg
    obtain ⟨l, hl, hg⟩ := option_bind_some hg
    by_cases hcount : assignCount f l = 1
    · rw [if_neg (not_not.mpr hcount)] at hg
      obtain ⟨⟨b, p⟩, hdef, hg⟩ := option_bind_some hg
      cases hdom : doms i b with
      | true =>
        simp only [hdom] at hg
        cases hg
        exact ⟨l, b, hcount, discDef_reads hdef, hdom, blk, scrutinee, cases, default, hblk, ht,
          hl, rfl, rfl⟩
      | false =>
        simp only [hdom] at hg
        cases hg
    · rw [if_pos hcount] at hg
      cases hg
  | _ => simp [ht] at hg

theorem GuardOn.temp {doms : DomMatrix} {g : SwitchGuard} {l b : Nat}
    (hg : GuardOn f doms g l b) : GuardTemp f l := by
  obtain ⟨blk, scrutinee, cases, default, hblk, ht, hl, _, _⟩ := hg.switch
  exact ⟨hg.single, blk, List.mem_of_getElem? hblk, scrutinee, cases, default, ht, hl⟩

theorem view_scrutinee (s : View) {op : Operand} {l : Nat} (h : scrutineeLocal op = some l) :
    s.value op = s.local l := by
  unfold scrutineeLocal at h
  split at h
  · cases h
    rfl
  · cases h
    exact s.value_move _
  · cases h

/-- An exclusive case target is reached by the case's value only. -/
theorem GuardOn.edge_value {doms : DomMatrix} {g : SwitchGuard} {l b t v : Nat} {blk : Block}
    {s : View} (hg : GuardOn f doms g l b) (hblk : f.blocks[g.block]? = some blk)
    (ht : t < f.blocks.length) (hex : caseTargetIsExclusive g t v = true)
    (hedge : Edge s blk.term t) : s.local l = v := by
  obtain ⟨blk', scrutinee, cases, default, hblk', hterm, hl, hcases, hdefault⟩ := hg.switch
  rw [hblk] at hblk'
  cases hblk'
  rw [hterm, Edge, view_scrutinee s hl, switchTarget] at hedge
  rw [caseTargetIsExclusive, Bool.and_eq_true, decide_eq_true_iff, List.all_eq_true] at hex
  obtain ⟨hdef, hall⟩ := hex
  cases hf : cases.find? fun c => c.1 = s.local l with
  | some c =>
    rw [hf] at hedge
    have hc : c ∈ g.cases := by
      rw [hcases, List.mem_filter]
      exact ⟨List.mem_of_find?_eq_some hf, by simpa [← hedge] using ht⟩
    have hv := hall c hc
    have hval : c.1 = s.local l := by simpa using List.find?_some hf
    rw [← hval]
    simpa [hedge] using hv
  | none =>
    rw [hf] at hedge
    refine absurd ?_ hdef
    rw [hdefault, ← show t = default from hedge, if_pos ht]

/-- A run has executed the terminator of a block. -/
def Left (f : Func) (h : List Event) (b : Nat) : Prop :=
  ∃ x ∈ h, x.src.block = b ∧ ∃ blk, f.blocks[b]? = some blk ∧ x.src.pc = blk.stmts.length

theorem Left.mono {h h' : List Event} {b : Nat} (hl : Left f h b) (hsub : h ⊆ h') :
    Left f h' b := by
  obtain ⟨x, hx, hpos⟩ := hl
  exact ⟨x, hsub hx, hpos⟩

theorem Left.executed {b pc l : Nat} {p : Place} (hl : Left f h b) (hrun : Run f h c)
    (hr : ReadsDisc f b pc l p) : ∃ x ∈ h, x.src.block = b ∧ x.src.pc = pc := by
  obtain ⟨x, hx, rfl, blk, hblk, hpc⟩ := hl
  obtain ⟨blk', st, hblk', hst, _⟩ := hr
  rw [hblk] at hblk'
  cases hblk'
  obtain ⟨h', hrun', hsub, _⟩ := hrun.reached hx
  have hlt : pc < x.src.pc := hpc ▸ (List.getElem?_eq_some_iff.mp hst).1
  obtain ⟨y, hy, hpos⟩ := hrun'.executed hlt
  exact ⟨y, hsub hy, hpos⟩

section Dominance

variable {doms : DomMatrix} (hc : Closed f.blocks.length f.entry (computePreds f) doms)

include hc

/-- A run in a block has left each of its dominators, the block apart. -/
theorem Run.left_dominator (hrun : Run f h c) (hb : c.block < f.blocks.length) {a : Nat}
    (ha : a < f.blocks.length) (hd : doms c.block a = true) : a = c.block ∨ Left f h a := by
  induction hrun with
  | start s => exact Or.inl (hc.root a hd)
  | step hrun hstep ih =>
    cases hstep with
    | stmt =>
      rcases ih hb hd with heq | hl
      · exact Or.inl heq
      · exact Or.inr (hl.mono (List.subset_cons_self _ _))
    | term hblk hpc _ _ hedge =>
      have hp := mem_computePreds.mpr ⟨_, hblk, edge_mem_successors hedge⟩
      rcases hc.pred hb ha hp hd with heq | hd
      · exact Or.inl heq
      · right
        rcases ih (List.getElem?_eq_some_iff.mp hblk).1 hd with heq | hl
        · exact ⟨_, List.mem_cons_self, heq.symm, _, heq ▸ hblk, hpc⟩
        · exact hl.mono (List.subset_cons_self _ _)

/-- A block other than the entry that dominates the dominator of its only predecessor is never
entered. -/
theorem Run.not_in_cycle (hrun : Run f h c) {k b t : Nat} (hb : b < f.blocks.length)
    (ht : t < f.blocks.length) (hentry : t ≠ f.entry) (hpred : computePreds f t = [k])
    (hkb : doms k b = true) (hbt : doms b t = true) :
    c.block ≠ t ∧ ∀ x ∈ h, x.src.block ≠ t := by
  induction hrun with
  | start s => exact ⟨Ne.symm hentry, by simp⟩
  | @step h c c' e hrun hstep ih =>
    obtain ⟨hne, hall⟩ := ih
    have hnever : ¬Left f h t := by
      rintro ⟨x, hx, hxt, _⟩
      exact hall x hx hxt
    refine ⟨fun heq => ?_, ?_⟩
    · rcases hstep.moves with ⟨hsame, _⟩ | ⟨_, hp⟩
      · exact hne (hsame.symm.trans heq)
      · rw [heq, hpred, List.mem_singleton] at hp
        have hlt := hstep.block_lt
        -- control is in `k`, so it has been in `b`, and before that in `t`
        rcases hrun.left_dominator hc hlt hb (hp ▸ hkb) with hbk | ⟨x, hx, hxb, _⟩
        · rcases hrun.left_dominator hc hlt ht (hbk ▸ hbt) with htk | hl
          · exact hne htk.symm
          · exact hnever hl
        · obtain ⟨h', hrun', hsub, hstep'⟩ := hrun.reached hx
          rcases hrun'.left_dominator hc hstep'.block_lt ht (hxb ▸ hbt) with htk | hl
          · exact hall x hx htk.symm
          · exact hnever (hl.mono hsub)
    · intro x hx
      rcases List.mem_cons.mp hx with rfl | hx
      · exact hne
      · exact hall x hx

end Dominance

/-- The last read of a temp's discriminant, with the events after it. -/
structure LastRead (f : Func) (l : Nat) (h post : List Event) (r : Event) : Prop where
  split : ∃ pre, h = post ++ r :: pre
  reads : ∃ p, ReadsDisc f r.src.block r.src.pc l p
  last : ∀ x ∈ post, ∀ p, ¬ReadsDisc f x.src.block x.src.pc l p

theorem LastRead.cons {l : Nat} {post : List Event} {r x : Event} (hl : LastRead f l h post r)
    (hx : ∀ p, ¬ReadsDisc f x.src.block x.src.pc l p) : LastRead f l (x :: h) (x :: post) r := by
  obtain ⟨⟨pre, rfl⟩, hreads, hlast⟩ := hl
  refine ⟨⟨pre, rfl⟩, hreads, fun y hy => ?_⟩
  rcases List.mem_cons.mp hy with rfl | hy
  · exact hx
  · exact hlast y hy

theorem exists_lastRead {l : Nat}
    (hx : ∃ x ∈ h, ∃ p, ReadsDisc f x.src.block x.src.pc l p) :
    ∃ post r, LastRead f l h post r := by
  induction h with
  | nil =>
    obtain ⟨x, hx, _⟩ := hx
    cases hx
  | cons y h ih =>
    by_cases hy : ∃ p, ReadsDisc f y.src.block y.src.pc l p
    · exact ⟨[], y, ⟨h, rfl⟩, hy, by simp⟩
    · obtain ⟨x, hx, hread⟩ := hx
      rcases List.mem_cons.mp hx with rfl | hx
      · exact absurd hread hy
      · obtain ⟨post, r, hl⟩ := ih ⟨x, hx, hread⟩
        exact ⟨y :: post, r, hl.cons (not_exists.mp hy)⟩

/-- A temp keeps what its last read found. -/
theorem Run.temp_value {l b pc : Nat} {p : Place} (hrun : Run f h c)
    (hintact : ∀ x ∈ h, TempsIntact f x) (htemp : GuardTemp f l) (hread : ReadsDisc f b pc l p)
    {post : List Event} {r : Event} (hl : LastRead f l h post r) :
    c.view.local l = r.src.view.disc p := by
  induction hrun generalizing post with
  | start s =>
    obtain ⟨pre, hnil⟩ := hl.split
    simp at hnil
  | @step h c c' e hrun hstep ih =>
    obtain ⟨pre, hsplit⟩ := hl.split
    cases post with
    | nil =>
      cases hsplit
      obtain ⟨q, hq⟩ := hl.reads
      obtain ⟨hblk, hpc⟩ := assigns_unique htemp.1 hq.assigns hread.assigns
      simp only at hblk hpc
      subst hblk hpc
      cases hstep with
      | stmt _ _ _ _ hval => exact hval l p hread
      | term hblk' hpc' =>
        obtain ⟨blk, st, hblk, hst, _⟩ := hread
        rw [hblk] at hblk'
        cases hblk'
        rw [hpc', List.getElem?_eq_none (Nat.le_refl _)] at hst
        cases hst
    | cons y post =>
      cases hsplit
      have hnot : ¬e.locals l := by
        intro hw
        have ha := hintact _ List.mem_cons_self l htemp hw
        obtain ⟨hblk, hpc⟩ := assigns_unique htemp.1 ha hread.assigns
        refine hl.last _ List.mem_cons_self p ?_
        rw [hblk, hpc]
        exact hread
      rw [hstep.framed.local_eq l hnot]
      exact ih (fun x hx => hintact x (List.mem_cons_of_mem _ hx))
        ⟨⟨pre, rfl⟩, hl.reads, fun x hx => hl.last x (List.mem_cons_of_mem _ hx)⟩

theorem not_reads_at_terminator {blk : Block} (hblk : f.blocks[c.block]? = some blk)
    (hpc : c.pc = blk.stmts.length) (l : Nat) (p : Place) : ¬ReadsDisc f c.block c.pc l p := by
  rintro ⟨blk', st, hblk', hst, _⟩
  rw [hblk] at hblk'
  cases hblk'
  rw [hpc, List.getElem?_eq_none (Nat.le_refl _)] at hst
  cases hst

section Guarded

variable {doms : DomMatrix} {g : SwitchGuard} {l b t v : Nat}
  (hc : Closed f.blocks.length f.entry (computePreds f) doms) (hg : GuardOn f doms g l b)

include hc hg

/-- At a guarding switch the temp has been read. -/
theorem Run.read_before_switch (hrun : Run f h c) {blk : Block}
    (hblk : f.blocks[c.block]? = some blk) (hpc : c.pc = blk.stmts.length)
    (hk : c.block = g.block) : ∃ x ∈ h, ∃ p, ReadsDisc f x.src.block x.src.pc l p := by
  obtain ⟨pc, hread⟩ := hg.reads
  obtain ⟨blk', st, hblk', hst, _⟩ := id hread
  have hb : b < f.blocks.length := (List.getElem?_eq_some_iff.mp hblk').1
  have hlt : c.block < f.blocks.length := (List.getElem?_eq_some_iff.mp hblk).1
  have hexec : ∃ x ∈ h, x.src.block = b ∧ x.src.pc = pc := by
    rcases hrun.left_dominator hc hlt hb (hk ▸ hg.dominated) with rfl | hl
    · rw [hblk] at hblk'
      cases hblk'
      exact hrun.executed (hpc ▸ (List.getElem?_eq_some_iff.mp hst).1)
    · exact hl.executed hrun hread
  obtain ⟨x, hx, rfl, rfl⟩ := hexec
  exact ⟨x, hx, g.sumPlace, hread⟩

variable (hpred : computePreds f t = [g.block]) (ht : t < f.blocks.length)
  (hentry : t ≠ f.entry) (hex : caseTargetIsExclusive g t v = true)

include hpred ht hentry hex

/-- In every block that an exclusive case target dominates, the last read found the case's
value. -/
theorem Run.guarded (hrun : Run f h c) (hintact : ∀ x ∈ h, TempsIntact f x)
    (hb : c.block < f.blocks.length) (hd : doms c.block t = true) :
    ∃ post r, LastRead f l h post r ∧ r.src.view.disc g.sumPlace = v := by
  obtain ⟨pc, hread⟩ := hg.reads
  induction hrun with
  | start s => exact absurd (hc.root t hd) hentry
  | @step h c c' e hrun hstep ih =>
    have hintact' : ∀ x ∈ h, TempsIntact f x := fun x hx => hintact x (List.mem_cons_of_mem _ hx)
    cases hstep with
    | stmt =>
      obtain ⟨post, r, hl, hv⟩ := ih hintact' hb hd
      refine ⟨_, r, hl.cons fun p hp => ?_, hv⟩
      -- the read is not in the part of the graph that the target dominates
      obtain ⟨hblk, _⟩ := assigns_unique hg.single hp.assigns hread.assigns
      simp only at hblk hd
      obtain ⟨hne, hnever⟩ :=
        hrun.not_in_cycle hc (hblk ▸ hb) ht hentry hpred hg.dominated (hblk ▸ hd)
      rcases hrun.left_dominator hc hb ht hd with heq | ⟨x, hx, hxt, _⟩
      · exact hne heq.symm
      · exact hnever x hx hxt
    | @term blk b' s hblk hpc hframe hassign hedge =>
      have hterm := not_reads_at_terminator hblk hpc l
      have hp := mem_computePreds.mpr ⟨_, hblk, edge_mem_successors hedge⟩
      have hlt : c.block < f.blocks.length := (List.getElem?_eq_some_iff.mp hblk).1
      by_cases hbt : b' = t
      · subst hbt
        rw [hpred, List.mem_singleton] at hp
        obtain ⟨post, r, hl⟩ := exists_lastRead (hrun.read_before_switch hc hg hblk hpc hp)
        refine ⟨_, r, hl.cons hterm, ?_⟩
        rw [← hrun.temp_value hintact' hg.temp hread hl]
        exact hg.edge_value (hp ▸ hblk) ht hex hedge
      · have hd' := (hc.pred hb ht hp hd).resolve_left (Ne.symm hbt)
        obtain ⟨post, r, hl, hv⟩ := ih hintact' hlt hd'
        exact ⟨_, r, hl.cons hterm, hv⟩

end Guarded

theorem site_block_lt {site : DowncastSite} (hs : site ∈ collectDowncastSites f) :
    site.block < f.blocks.length := by
  obtain ⟨⟨blk, i⟩, hblk, hs⟩ := List.mem_flatMap.mp hs
  obtain ⟨⟨p, v⟩, _, rfl⟩ := List.mem_map.mp hs
  exact (List.getElem?_eq_some_iff.mp (List.mem_zipIdx_iff_getElem?.mp hblk)).1

theorem Run.entry_lt (hrun : Run f h c) (hb : c.block < f.blocks.length) :
    f.entry < f.blocks.length := by
  induction hrun with
  | start s => exact hb
  | step hrun hstep ih => exact ih hstep.block_lt

theorem accepted_dominators {fuel : Nat} {site : DowncastSite}
    (ha : checkDowncastGuards fuel f = some []) (hs : site ∈ collectDowncastSites f)
    (hentry : f.entry < f.blocks.length) :
    ∃ doms, computeDominators fuel f.blocks.length f.entry (computePreds f) = some doms := by
  have hnil : (collectDowncastSites f).isEmpty = false := by
    rw [List.isEmpty_eq_false_iff]
    exact List.ne_nil_of_mem hs
  simp only [checkDowncastGuards, hnil, Bool.false_or, decide_eq_true_iff] at ha
  rw [if_neg (by omega)] at ha
  obtain ⟨doms, hd, _⟩ := option_bind_some ha
  exact ⟨doms, hd⟩

/-- Wherever control meets an accepted downcast, the discriminant of its place is the variant if
nothing has written the place since it was last read. -/
theorem downcast_guarded {fuel : Nat} {site : DowncastSite}
    (haccept : checkDowncastGuards fuel f = some []) (hsite : site ∈ collectDowncastSites f)
    (hoff : GuardedOffEntry fuel f site) (hrun : Run f h c)
    (hintact : ∀ x ∈ h, TempsIntact f x) (hat : c.block = site.block) :
    ∃ l post r, GuardTemp f l ∧ LastRead f l h post r ∧ GuardRead f l site.sumPlace r ∧
      ((∀ x ∈ post ++ [r], ¬x.effect.touches site.sumPlace) →
        c.view.disc site.sumPlace = site.variant) := by
  have hb : c.block < f.blocks.length := hat ▸ site_block_lt hsite
  obtain ⟨doms, hdoms⟩ := accepted_dominators haccept hsite (hrun.entry_lt hb)
  have hc := computeDominators_closed hdoms
  obtain ⟨g, hg, e, he, hcase, hentry⟩ := hoff doms hdoms
  obtain ⟨l, b, hg⟩ := guardOn_of_mem hg
  simp only [caseAccepted, Bool.and_eq_true, decide_eq_true_iff] at hcase
  obtain ⟨⟨⟨⟨hplace, hvariant⟩, hdom⟩, hpred⟩, hex⟩ := hcase
  have ht : e.2 < f.blocks.length := by
    obtain ⟨_, _, cases, _, _, _, _, hcases, _⟩ := hg.switch
    rw [hcases, List.mem_filter] at he
    exact of_decide_eq_true he.2
  obtain ⟨post, r, hl, hv⟩ :=
    hrun.guarded hc hg hpred ht hentry hex hintact hb (hat ▸ hdom)
  obtain ⟨pc, hread⟩ := hg.reads
  obtain ⟨p, hp⟩ := hl.reads
  obtain ⟨hblk, hpc⟩ := assigns_unique hg.single hp.assigns hread.assigns
  refine ⟨l, post, r, hg.temp, hl, ⟨g.sumPlace, hplace, hblk ▸ hpc ▸ hread⟩, fun hkept => ?_⟩
  obtain ⟨pre, rfl⟩ := hl.split
  rw [hrun.disc_kept hkept, ← r.src.view.disc_same _ _ hplace]
  exact hv

section Runs

/-- `temp = discriminant(param)`. -/
def readParam : Stmt := .assign (.local 2) (.discriminant (.copy (.local 0)))

/-- The first field of the payload of variant 1 of the parameter. -/
def takePayload : Stmt := .assign (.local 1) (.use (.copy (.mk 0 [.downcast 1, .field 0])))

def payloadSite (block : Nat) : DowncastSite :=
  { block := block, sumPlace := .local 0, variant := 1 }

def matchParam (target default : Nat) : Terminator :=
  .switch (.copy (.local 2)) [(1, target)] default

def funcOf (blocks : List Block) : Func :=
  { name := "f", params := [.sum 0], rets := [], locals := [], blocks := blocks, entry := 0 }

/-- The match that the front end emits. -/
def matchFunc : Func := funcOf
  [{ id := 0, stmts := [readParam], term := matchParam 1 2 },
    { id := 1, stmts := [takePayload], term := .ret [] },
    { id := 2, stmts := [], term := .ret [] }]

/-- The downcast comes first, and the case edge leads back to it. -/
def loopFunc : Func := funcOf
  [{ id := 0, stmts := [takePayload, readParam], term := matchParam 0 1 },
    { id := 1, stmts := [], term := .ret [] }]

/-- The sum has variant `v`, and so has every temp. -/
def viewOf (v : Nat) : View :=
  { value := fun _ => v, disc := fun _ => v, value_move := fun _ => rfl,
    disc_same := fun _ _ _ => rfl }

def matchRead : Event :=
  { src := ⟨0, 0, viewOf 1⟩, effect := ⟨(· = 2), fun _ => False⟩, dst := ⟨0, 1, viewOf 1⟩ }

def matchCross : Event :=
  { src := ⟨0, 1, viewOf 1⟩, effect := ⟨fun _ => False, fun _ => False⟩,
    dst := ⟨1, 0, viewOf 1⟩ }

theorem matchFunc_run : Run matchFunc [matchCross, matchRead] ⟨1, 0, viewOf 1⟩ := by
  have hread : Step matchFunc ⟨0, 0, viewOf 1⟩ matchRead.effect ⟨0, 1, viewOf 1⟩ := by
    refine .stmt rfl rfl ⟨fun _ _ => rfl, fun _ _ => rfl⟩ ?_ fun _ _ _ => rfl
    rintro l ⟨blk, hblk, hl⟩
    cases hblk
    cases hl
    rfl
  have hcross : Step matchFunc ⟨0, 1, viewOf 1⟩ matchCross.effect ⟨1, 0, viewOf 1⟩ := by
    refine .term rfl rfl ⟨fun _ _ => rfl, fun _ _ => rfl⟩ ?_ rfl
    rintro l ⟨blk, hblk, hl⟩
    cases hblk
    cases hl
  exact .step (.step (.start (viewOf 1)) hread) hcross

theorem matchFunc_guarded :
    ∃ l post r, GuardTemp matchFunc l ∧ LastRead matchFunc l [matchCross, matchRead] post r ∧
      GuardRead matchFunc l (.local 0) r ∧
      ((∀ x ∈ post ++ [r], ¬x.effect.touches (.local 0)) → (viewOf 1).disc (.local 0) = 1) := by
  have haccept : checkDowncastGuards 3 matchFunc = some [] := rfl
  have hsite : payloadSite 1 ∈ collectDowncastSites matchFunc := List.mem_singleton.mpr rfl
  have hintact : ∀ x ∈ [matchCross, matchRead], TempsIntact matchFunc x := by
    intro x hx l _ hl
    rcases List.mem_cons.mp hx with rfl | hx
    · cases hl
    · cases List.mem_singleton.mp hx
      cases hl
      exact ⟨_, rfl, rfl⟩
  exact downcast_guarded haccept hsite (by decide) matchFunc_run hintact rfl

/-- An accepted function that starts at its downcast, with the other variant. -/
theorem loopFunc_unguarded :
    checkDowncastGuards 3 loopFunc = some [] ∧ payloadSite 0 ∈ collectDowncastSites loopFunc ∧
      Run loopFunc [] ⟨0, 0, viewOf 0⟩ ∧
      loopFunc.blocks[0]?.bind (·.stmts[0]?) = some takePayload ∧
      (viewOf 0).disc (payloadSite 0).sumPlace ≠ (payloadSite 0).variant := by
  refine ⟨rfl, List.mem_singleton.mpr rfl, .start _, rfl, ?_⟩
  decide

end Runs

end BetLang.Validate
