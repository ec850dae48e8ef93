import BetLang.DispatchSound
import Mathlib.Data.List.Forall2

/-! The emitted module against the (type, name) lookups. -/

namespace BetLang.Dispatch.Lower

open Registry
open Interp (Target Site)

variable {prog : Program} {tb : Tables} {W : List MonoFnJob} {out : List Func}

/-- Pass 2 keeps any invariant that each body keeps, and emits one function per declaration. -/
theorem lowerConcrete_run {I : Mono → Prop} {l : List (FnDecl × Nat)} {st st' : Mono}
    (hstep : ∀ p ∈ l, ∀ s e s', p.1.concrete = true → I s →
      lowerFunc prog tb p.2 p.1 s = .ok (e, s') → I s' ∧ s.worklist <+: s'.worklist)
    (hi : I st) (h : lowerConcrete prog tb l st = .ok (out, st')) :
    I st' ∧ st.worklist <+: st'.worklist ∧
      List.Forall₂ (fun p e => ∃ s s', I s ∧ s'.worklist <+: st'.worklist ∧
        lowerFunc prog tb p.2 p.1 s = .ok (e, s')) (l.filter fun p => p.1.concrete) out := by
  induction l generalizing st out with
  | nil =>
    unfold lowerConcrete at h
    cases h
    exact ⟨hi, List.prefix_rfl, .nil⟩
  | cons p rest ih =>
    obtain ⟨f, i⟩ := p
    unfold lowerConcrete at h
    split at h
    · rename_i hc
      obtain ⟨⟨e, st₁⟩, he, h⟩ := except_bind_ok h
      obtain ⟨⟨rest', st₂⟩, hr, h⟩ := except_bind_ok h
      cases h
      obtain ⟨hi₁, hext₁⟩ := hstep (f, i) (by simp) st e st₁ hc hi he
      obtain ⟨hi₂, hext₂, hall⟩ := ih (fun p hp => hstep p (List.mem_cons_of_mem _ hp)) hi₁ hr
      refine ⟨hi₂, hext₁.trans hext₂, ?_⟩
      rw [List.filter_cons_of_pos (by simpa using hc)]
      exact .cons ⟨st, st₁, hi, hext₂, he⟩ hall
    · rename_i hc
      rw [List.filter_cons_of_neg (by simpa using hc)]
      exact ih (fun p hp => hstep p (List.mem_cons_of_mem _ hp)) hi h

/-- Pass 3 keeps any invariant that each instance keeps, and emits one function per job. -/
theorem drainWorklist_run {I : Mono → Prop} {fuel i : Nat} {st st' : Mono}
    (hstep : ∀ s e s', ∀ job ∈ s.worklist, I s → lowerMonoFn prog tb job s = .ok (e, s') →
      I s' ∧ s.worklist <+: s'.worklist)
    (hi : I st) (h : drainWorklist prog tb fuel i st = .ok (out, st')) :
    I st' ∧ st.worklist <+: st'.worklist ∧
      List.Forall₂ (fun job e => ∃ s s', I s ∧ job ∈ s.worklist ∧ s'.worklist <+: st'.worklist ∧
        lowerMonoFn prog tb job s = .ok (e, s')) (st'.worklist.drop i) out := by
  induction fuel generalizing i st out with
  | zero =>
    unfold drainWorklist at h
    split at h
    · rename_i hnone
      cases h
      rw [List.drop_eq_nil_of_le (List.getElem?_eq_none_iff.mp hnone)]
      exact ⟨hi, List.prefix_rfl, .nil⟩
    · cases h
  | succ fuel ih =>
    unfold drainWorklist at h
    split at h
    · rename_i hnone
      cases h
      rw [List.drop_eq_nil_of_le (List.getElem?_eq_none_iff.mp hnone)]
      exact ⟨hi, List.prefix_rfl, .nil⟩
    · rename_i job hjob
      obtain ⟨⟨e, st₁⟩, he, h⟩ := except_bind_ok h
      obtain ⟨⟨rest, st₂⟩, hr, h⟩ := except_bind_ok h
      cases h
      have hmem := List.mem_of_getElem? hjob
      obtain ⟨hi₁, hext₁⟩ := hstep st e st₁ job hmem hi he
      obtain ⟨hi₂, hext₂, hall⟩ := ih hi₁ hr
      refine ⟨hi₂, hext₁.trans hext₂, ?_⟩
      have hlt := (List.getElem?_eq_some_iff.mp hjob).1
      have hlt' := Nat.lt_of_lt_of_le hlt (hext₁.trans hext₂).length_le
      have hget := (hext₁.trans hext₂).getElem hlt
      rw [(List.getElem?_eq_some_iff.mp hjob).2] at hget
      rw [List.drop_eq_getElem_cons hlt', ← hget]
      exact .cons ⟨st, st₁, hi, hmem, hext₂, he⟩ hall

/-- An emitted function with the state its body was lowered in. -/
inductive Emission (prog : Program) (tb : Tables) (I : Mono → Prop) (W : List MonoFnJob) :
    Func → Prop where
  | concrete {e : Func} {f : FnDecl} {s s' : Mono} (hf : prog.funcs[e.decl]? = some f)
      (hc : f.concrete = true) (hi : I s) (hW : s'.worklist <+: W)
      (h : lowerFunc prog tb e.decl f s = .ok (e, s')) : Emission prog tb I W e
  | instance_ {e : Func} {job : MonoFnJob} {s s' : Mono} (hj : job ∈ W) (hi : I s)
      (hjs : job ∈ s.worklist) (hW : s'.worklist <+: W)
      (h : lowerMonoFn prog tb job s = .ok (e, s')) : Emission prog tb I W e

/-- A module that lowering accepts: `I` holds throughout and ids line up with declarations. -/
theorem lowerItems_run {I : Mono → Prop} {fuel : Nat} (htb : tb = collect prog prog.funcs)
    (hmono : ∀ s, I s → MonoInv prog tb s) (hstart : I ⟨tb.nextMonoFid, [], [], []⟩)
    (hconc : ∀ i f s e s', prog.funcs[i]? = some f → f.concrete = true → I s →
      lowerFunc prog tb i f s = .ok (e, s') → I s')
    (hinst : ∀ job s e s', job ∈ s.worklist → I s → lowerMonoFn prog tb job s = .ok (e, s') → I s')
    (h : lowerItems fuel prog = .ok out) :
    ∃ st, I st ∧ Final prog tb st.worklist out ∧
      ∀ e ∈ out, Emission prog tb I st.worklist e := by
  have hcol : tb.Collected prog prog.funcs := htb ▸ collect_collected prog prog.funcs
  unfold lowerItems at h
  rw [← htb] at h
  obtain ⟨⟨oc, st₁⟩, h₁, h⟩ := except_bind_ok h
  obtain ⟨⟨oi, st⟩, h₂, h⟩ := except_bind_ok h
  cases h
  have hat : ∀ p ∈ prog.funcs.zipIdx, prog.funcs[p.2]? = some p.1 :=
    fun p hp => List.mem_zipIdx_iff_getElem?.mp hp
  obtain ⟨hi₁, -, hall₁⟩ := lowerConcrete_run (I := I) (fun p hp s e s' hc hi he => by
    obtain ⟨-, -, hlow, -⟩ := lowerFunc_spec hcol (hat p hp) he
    exact ⟨hconc p.2 p.1 s e s' (hat p hp) hc hi he, (hlow.mono (hmono s hi)).2⟩) hstart h₁
  obtain ⟨hi₂, hext, hall₂⟩ := drainWorklist_run (I := I) (fun s e s' job hj hi he => by
    obtain ⟨-, hlow, -⟩ := lowerMonoFn_spec hcol (hmono s hi) hj he
    exact ⟨hinst job s e s' hj hi he, (hlow.mono (hmono s hi)).2⟩) hi₁ h₂
  rw [List.drop_zero] at hall₂
  have hlen : oc.length = tb.nextMonoFid := by
    rw [← hall₁.length_eq, length_filter_concrete, hcol.next]
  refine ⟨st, hi₂, ⟨hcol, fun i f hf hc => ?_, fun job hj => ?_⟩, fun e he => ?_⟩
  · obtain ⟨e, he, s, s', hi, hW, hlow⟩ := forall₂_getElem? hall₁ (filter_concrete_at hf hc)
    obtain ⟨hd, ha, -⟩ := lowerFunc_spec hcol hf hlow
    refine ⟨e, ?_, hd, ha⟩
    rw [List.getElem?_append_left (List.getElem?_eq_some_iff.mp he).1, he]
  · obtain ⟨k, hk⟩ := List.mem_iff_getElem?.mp hj
    obtain ⟨e, he, s, s', hi, hjs, hW, hlow⟩ := forall₂_getElem? hall₂ hk
    obtain ⟨ha, -, f, hd, hf, -⟩ := lowerMonoFn_spec hcol (hmono s hi) hjs hlow
    refine ⟨e, e.decl, f, ?_, hd, rfl, ha⟩
    rw [((hmono st hi₂).jobs k job hk).1, ← hlen, List.getElem?_append_right (Nat.le_add_right _ _),
      Nat.add_sub_cancel_left, he]
  · rcases List.mem_append.mp he with he | he
    · obtain ⟨k, hk⟩ := List.mem_iff_getElem?.mp he
      obtain ⟨p, hp, s, s', hi, hW, hlow⟩ := forall₂_getElem? hall₁.flip hk
      obtain ⟨hp, hc⟩ := List.mem_filter.mp (List.mem_of_getElem? hp)
      obtain ⟨f, i⟩ := p
      obtain ⟨rfl, -, -⟩ := lowerFunc_spec hcol (hat _ hp) hlow
      exact .concrete (hat _ hp) hc hi (hW.trans hext) hlow
    · obtain ⟨k, hk⟩ := List.mem_iff_getElem?.mp he
      obtain ⟨job, hj, s, s', hi, hjs, hW, hlow⟩ := forall₂_getElem? hall₂.flip hk
      exact .instance_ (List.mem_of_getElem? hj) hi hjs hW hlow

/-- What holds of every emitted function, however it was reached. -/
theorem Emission.spec {I : Mono → Prop} {e : Func} (hcol : tb.Collected prog prog.funcs)
    (hmono : ∀ s, I s → MonoInv prog tb s) (h : Emission prog tb I W e) :
    ∃ f s s', prog.funcs[e.decl]? = some f ∧ MonoInv prog tb s ∧ s'.worklist <+: W ∧
      lowerBlock prog tb (f.generics.zip e.args) e.sig.params f.body s = .ok (e.calls, s') ∧
      ((f.concrete = true ∧ e.args = [] ∧ ∃ j g, IsLast (concreteNamed f.name) prog.funcs j ∧
          prog.funcs[j]? = some g ∧ declSig prog g [] = some e.sig) ∨
        ((∃ job ∈ W, job.args = e.args ∧ IsLast (genericNamed job.name) prog.funcs e.decl) ∧
          declSig prog f e.args = some e.sig)) := by
  cases h with
  | @concrete f s s' hf hc hi hW h =>
    obtain ⟨-, ha, ⟨f', hf', hlow⟩, hsig⟩ := lowerFunc_spec hcol hf h
    rw [hf] at hf'
    cases hf'
    exact ⟨f, s, s', hf, hmono s hi, hW, hlow, .inl ⟨hc, ha, hsig⟩⟩
  | @instance_ job s s' hj hi hjs hW h =>
    obtain ⟨ha, ⟨f', hf', hlow⟩, f, hd, hf, hsig⟩ := lowerMonoFn_spec hcol (hmono s hi) hjs h
    obtain rfl := Option.some.inj (hf.symm.trans hf')
    exact ⟨f, s, s', hf, hmono s hi, hW, hlow,
      .inr ⟨⟨job, hj, ha.symm, (hcol.generic_some _ _ _ hd).1⟩, hsig⟩⟩

theorem callFn_eq {f : FnDecl} {e : Func} (hf : prog.funcs[e.decl]? = some f)
    (hsig : declSig prog f e.args = some e.sig) :
    Interp.callFn prog e.decl e.args =
      Interp.evalBlock prog (f.generics.zip e.args) e.sig.params f.body := by
  simp [Interp.callFn, hf, hsig]

/-- Every instance the lookups reach is emitted, once every emitted call follows the lookups. -/
theorem emitted_of_reach (hF : Final prog tb W out) (hcorrect : DispatchCorrect prog out) {i : Nat}
    {args : List Ty} (h : Reach prog i args) : ∃ e ∈ out, e.decl = i ∧ e.args = args := by
  induction h with
  | concrete hf hc =>
    obtain ⟨e, he, hd, ha⟩ := hF.concrete _ _ hf hc
    exact ⟨e, List.mem_of_getElem? he, hd, ha⟩
  | @call i d args as sites s hr hs hmem ht ih =>
    obtain ⟨e, he, rfl, rfl⟩ := ih
    obtain ⟨k, hk⟩ := List.mem_iff_getElem?.mp he
    obtain ⟨-, sites', hs', hall⟩ := hcorrect k e hk
    rw [hs] at hs'
    cases hs'
    obtain ⟨m, hm⟩ := List.mem_iff_getElem?.mp hmem
    obtain ⟨c, -, hc⟩ := forall₂_getElem? hall.flip hm
    rw [ht] at hc
    cases c with
    | direct id =>
      obtain ⟨e', he', hd, ha⟩ := hc
      exact ⟨e', List.mem_of_getElem? he', hd, ha⟩
    | indirect => cases hc
    | extern_ => cases hc
    | builtin => cases hc

theorem collisionFree_of_correct {fuel : Nat} (h : lowerItems fuel prog = .ok out)
    (hcorrect : DispatchCorrect prog out) : CollisionFree prog := by
  obtain ⟨st, hi, hF, hem⟩ := lowerItems_run (I := MonoInv prog (collect prog prog.funcs)) rfl
    (fun s hs => hs) (monoInv_start _ _)
    (fun i f s e s' hf hc hi he =>
      ((lowerFunc_spec (collect_collected prog prog.funcs) hf he).2.2.1.mono hi).1)
    (fun job s e s' hj hi he =>
      ((lowerMonoFn_spec (collect_collected prog prog.funcs) hi hj he).2.1.mono hi).1) h
  refine ⟨fun i j f g hf hc hg hl => ?_, fun i args hr => ?_⟩
  · obtain ⟨e, he, rfl, ha⟩ := hF.concrete i f hf hc
    obtain ⟨⟨f', hf', hsig⟩, -⟩ := hcorrect _ e he
    obtain ⟨f'', s, s', hf'', -, -, -, hcases⟩ :=
      (hem e (List.mem_of_getElem? he)).spec hF.collected fun s hs => hs
    rw [hf] at hf' hf''
    cases hf'
    cases hf''
    rw [ha] at hsig
    rcases hcases with ⟨-, -, j', g', hl', hg', hsig'⟩ | ⟨⟨job, -, -, hl'⟩, -⟩
    · obtain rfl := hl.unique hl'
      rw [hg] at hg'
      cases hg'
      rw [hsig', hsig]
    · obtain ⟨f', hf', hgen⟩ := hl'.1
      rw [hf] at hf'
      cases hf'
      rw [hgen.1] at hc
      cases hc
  · obtain ⟨e, he, rfl, rfl⟩ := emitted_of_reach hF hcorrect hr
    obtain ⟨k, hk⟩ := List.mem_iff_getElem?.mp he
    obtain ⟨⟨f, hf, hsig⟩, sites, hs, hall⟩ := hcorrect k e hk
    obtain ⟨f', s, s', hf', hi', hW, hlow, -⟩ := (hem e he).spec hF.collected fun s hs => hs
    rw [hf] at hf'
    cases hf'
    refine ⟨sites, hs, ?_⟩
    rw [callFn_eq hf hsig] at hs
    exact (lowerBlock_sim hF hlow hi' hW hs).mp hall

theorem callFn_some {i : Nat} {args : List Ty} {sites : List Site}
    (h : Interp.callFn prog i args = some sites) :
    ∃ f sig, prog.funcs[i]? = some f ∧ declSig prog f args = some sig ∧
      Interp.evalBlock prog (f.generics.zip args) sig.params f.body = some sites := by
  unfold Interp.callFn at h
  obtain ⟨f, hf, h⟩ := option_bind_some h
  obtain ⟨sig, hsig, h⟩ := option_bind_some h
  exact ⟨f, sig, hf, hsig, h⟩

/-- Every queued instance is one the lookups reach. -/
def JobsReach (prog : Program) (st : Mono) : Prop :=
  ∀ job ∈ st.worklist, ∃ d, IsLast (genericNamed job.name) prog.funcs d ∧ Reach prog d job.args

theorem Lowered.jobsReach (hfree : CollisionFree prog) {st st' : Mono} {e : Func}
    (h : Lowered prog tb st e st') (hi : MonoInv prog tb st) (hj : JobsReach prog st)
    (hr : Reach prog e.decl e.args) : JobsReach prog st' := by
  obtain ⟨f, hf, hlow⟩ := h
  obtain ⟨sites, hs, hall⟩ := hfree.2 _ _ hr
  obtain ⟨f', sig, hf', -, hb⟩ := callFn_some hs
  rw [hf] at hf'
  cases hf'
  intro job hmem
  rcases lowerBlock_jobs hlow hi hb hall job hmem with hold | ⟨s, hsm, d, ht, hl⟩
  · exact hj job hold
  · exact ⟨d, hl, .call hr hs hsm ht⟩

theorem correct_of_collisionFree {fuel : Nat} (h : lowerItems fuel prog = .ok out)
    (hfree : CollisionFree prog) : DispatchCorrect prog out := by
  have hcol := collect_collected prog prog.funcs
  obtain ⟨st, hi, hF, hem⟩ := lowerItems_run
    (I := fun s => MonoInv prog (collect prog prog.funcs) s ∧ JobsReach prog s) rfl
    (fun s hs => hs.1) ⟨monoInv_start _ _, fun job hj => nomatch hj⟩
    (fun i f s e s' hf hc hi he => by
      obtain ⟨rfl, ha, hlow, -⟩ := lowerFunc_spec hcol hf he
      exact ⟨(hlow.mono hi.1).1, hlow.jobsReach hfree hi.1 hi.2 (ha ▸ .concrete hf hc)⟩)
    (fun job s e s' hj hi he => by
      obtain ⟨ha, hlow, f, hd, -, -⟩ := lowerMonoFn_spec hcol hi.1 hj he
      obtain ⟨d, hl, hr⟩ := hi.2 job hj
      obtain rfl := hl.unique (hcol.generic_some _ _ _ hd).1
      exact ⟨(hlow.mono hi.1).1, hlow.jobsReach hfree hi.1 hi.2 (ha ▸ hr)⟩) h
  intro k e hk
  obtain ⟨f, s, s', hf, hi', hW, hlow, hcases⟩ :=
    (hem e (List.mem_of_getElem? hk)).spec hcol fun s hs => hs.1
  have hsig : declSig prog f e.args = some e.sig := by
    rcases hcases with ⟨hc, ha, j, g, hl, hg, hsig⟩ | ⟨-, hsig⟩
    · rw [ha, ← hfree.1 _ j f g hf hc hg hl, hsig]
    · exact hsig
  have hr : Reach prog e.decl e.args := by
    rcases hcases with ⟨hc, ha, -⟩ | ⟨⟨job, hj, ha, hl⟩, -⟩
    · exact ha ▸ .concrete hf hc
    · obtain ⟨d, hl', hr⟩ := hi.2 job hj
      obtain rfl := hl.unique hl'
      exact ha ▸ hr
  refine ⟨⟨f, hf, hsig⟩, ?_⟩
  obtain ⟨sites, hs, hall⟩ := hfree.2 _ _ hr
  refine ⟨sites, hs, ?_⟩
  rw [callFn_eq hf hsig] at hs
  exact (lowerBlock_sim hF hlow hi' hW hs).mpr hall

/-- An accepted program is lowered with every body under its own signature and every call at
the index of the function its (type, name) lookup finds exactly when no name collides. -/
theorem dispatch_correct_iff {fuel : Nat} (h : lowerItems fuel prog = .ok out) :
    DispatchCorrect prog out ↔ CollisionFree prog :=
  ⟨collisionFree_of_correct h, correct_of_collisionFree h⟩

/-- A method each and a generic function: `main` calls `same[Circle](c).area()`. -/
def geometry : Program where
  drips := [⟨"Circle", [], []⟩, ⟨"Square", [], []⟩]
  moods := []
  externs := []
  funcs := [
    { receiver := some (.named "Circle"), name := "area", generics := [], params := []
      ret := .named "int", body := [] },
    { receiver := some (.named "Square"), name := "side", generics := [], params := []
      ret := .named "int", body := [] },
    { receiver := none, name := "same", generics := ["T"], params := [.named "T"]
      ret := .named "T", body := [] },
    { receiver := none, name := "main", generics := [], params := [.named "Circle"], ret := .nada
      body := [.method (.call "same" [.named "Circle"] (.cons (.var 0) .nil)) "area" .nil] }]

def geometryOut : List Func := [
  ⟨0, [], ⟨[.struct "Circle"], .int .w64 true⟩, []⟩,
  ⟨1, [], ⟨[.struct "Square"], .int .w64 true⟩, []⟩,
  ⟨3, [], ⟨[.struct "Circle"], .void⟩, [.direct 3, .direct 0]⟩,
  ⟨2, [.struct "Circle"], ⟨[.struct "Circle"], .struct "Circle"⟩, []⟩]

theorem geometry_correct : DispatchCorrect geometry geometryOut ∧ CollisionFree geometry := by
  have hs : Interp.callFn geometry 3 [] = some
      [⟨.generic, "same", .fn 2 [.struct "Circle"]⟩, ⟨.method, "area", .fn 0 []⟩] := by
    decide
  have hcorrect : DispatchCorrect geometry geometryOut := by
    intro k e hk
    rcases k with _ | _ | _ | _ | k <;> cases hk
    · exact ⟨⟨_, rfl, by decide⟩, [], by decide, .nil⟩
    · exact ⟨⟨_, rfl, by decide⟩, [], by decide, .nil⟩
    · exact ⟨⟨_, rfl, by decide⟩, _, hs,
        .cons ⟨_, rfl, rfl, rfl⟩ (.cons ⟨_, rfl, rfl, rfl⟩ .nil)⟩
    · exact ⟨⟨_, rfl, by decide⟩, [], by decide, .nil⟩
  exact ⟨hcorrect, (dispatch_correct_iff (show lowerItems 1 geometry = .ok geometryOut by rfl)).mp
    hcorrect⟩

/-- Two drips with a method `area` each: `main` calls the circle's through the square's id. -/
def twoAreas : Program where
  drips := [⟨"Circle", [], []⟩, ⟨"Square", [], []⟩]
  moods := []
  externs := []
  funcs := [
    { receiver := some (.named "Circle"), name := "area", generics := [], params := []
      ret := .named "int", body := [] },
    { receiver := some (.named "Square"), name := "area", generics := [], params := []
      ret := .named "int", body := [] },
    { receiver := none, name := "main", generics := [], params := [.named "Circle"]
      ret := .nada, body := [.method (.var 0) "area" .nil] }]

/-- What lowering emits for them. -/
def twoAreasOut : List Func := [
  ⟨0, [], ⟨[.struct "Square"], .int .w64 true⟩, []⟩,
  ⟨1, [], ⟨[.struct "Square"], .int .w64 true⟩, []⟩,
  ⟨2, [], ⟨[.struct "Circle"], .void⟩, [.direct 1]⟩]

theorem circle_area_is_square : lowerItems 0 twoAreas = .ok twoAreasOut ∧
    Interp.callFn twoAreas 2 [] = some [⟨.method, "area", .fn 0 []⟩] ∧
    ¬ DispatchCorrect twoAreas twoAreasOut := by
  have hs : Interp.callFn twoAreas 2 [] = some [⟨.method, "area", .fn 0 []⟩] := by decide
  refine ⟨by rfl, hs, fun hcorrect => ?_⟩
  obtain ⟨-, sites, hsites, hall⟩ := hcorrect 2 _ rfl
  rw [hs] at hsites
  cases hsites
  cases hall with
  | cons hm _ =>
    obtain ⟨e, he, hd, -⟩ := hm
    cases he
    cases hd

end BetLang.Dispatch.Lower
