import BetLang.DispatchCorrect

/-! From one lowered body to the whole module: every emitted function, the work-list drained,
and when all of it agrees with the (type, name) lookups. -/

namespace BetLang.Dispatch.Lower

open Registry
open Interp (Target Site)

variable {prog : Program} {tb : Tables} {subst : List (String × Ty)} {env : List Ty}
  {W : List MonoFnJob} {out : List Func}

theorem lowerBlock_mono {body : List Expr} {st st' : Mono} {calls : List Callee}
    (h : lowerBlock prog tb subst env body st = .ok (calls, st')) (hi : MonoInv prog tb st) :
    MonoInv prog tb st' ∧ st.worklist <+: st'.worklist := by
  induction body generalizing env st calls with
  | nil =>
    unfold lowerBlock at h
    cases h
    exact ⟨hi, List.prefix_rfl⟩
  | cons e rest ih =>
    obtain ⟨t, eCalls, st₁, restCalls, he, hr, rfl⟩ := lowerBlock_cons h
    obtain ⟨hi₁, hext₁⟩ := lowerExpr_mono e he hi
    obtain ⟨hi₂, hext₂⟩ := ih hr hi₁
    exact ⟨hi₂, hext₁.trans hext₂⟩

theorem evalBlock_cons {e : Expr} {rest : List Expr} {sites : List Site}
    (h : Interp.evalBlock prog subst env (e :: rest) = some sites) :
    ∃ t eSites restSites, Interp.evalExpr prog subst env e = some (t, eSites) ∧
      Interp.evalBlock prog subst (env ++ [t]) rest = some restSites ∧
      sites = eSites ++ restSites := by
  unfold Interp.evalBlock at h
  obtain ⟨⟨t, eSites⟩, he, h⟩ := option_bind_some h
  obtain ⟨restSites, hr, h⟩ := option_bind_some h
  cases h
  exact ⟨t, eSites, restSites, he, hr, rfl⟩

/-- A body whose calls resolve agrees with the lookups exactly when nothing is shadowed. -/
theorem lowerBlock_sim (hF : Final prog tb W out) {body : List Expr} {st st' : Mono}
    {calls : List Callee} {sites : List Site}
    (h : lowerBlock prog tb subst env body st = .ok (calls, st')) (hi : MonoInv prog tb st)
    (hW : st'.worklist <+: W) (hs : Interp.evalBlock prog subst env body = some sites) :
    List.Forall₂ (fun c s => Matches out c s.target) calls sites ↔
      ∀ s ∈ sites, Unshadowed prog s := by
  induction body generalizing env st calls sites with
  | nil =>
    unfold lowerBlock at h
    cases h
    unfold Interp.evalBlock at hs
    cases hs
    simp
  | cons e rest ih =>
    obtain ⟨t, eCalls, st₁, restCalls, he, hr, rfl⟩ := lowerBlock_cons h
    obtain ⟨t', eSites, restSites, he', hr', rfl⟩ := evalBlock_cons hs
    obtain ⟨hi₁, -⟩ := lowerExpr_mono e he hi
    obtain ⟨-, hext₂⟩ := lowerBlock_mono hr hi₁
    obtain ⟨hlen, hiff, heq⟩ := lowerExpr_sim hF e he hi (hext₂.trans hW) he'
    rw [forall₂_append_iff hlen]
    constructor
    · rintro ⟨hx, hy⟩ s hmem
      obtain rfl := heq hx
      rcases List.mem_append.mp hmem with hmem | hmem
      · exact hiff.mp hx s hmem
      · exact (ih hr hi₁ hr').mp hy s hmem
    · intro hall
      have hx := hiff.mpr fun s hmem => hall s (List.mem_append_left _ hmem)
      obtain rfl := heq hx
      exact ⟨hx, (ih hr hi₁ hr').mpr fun s hmem => hall s (List.mem_append_right _ hmem)⟩

/-- A job that an unshadowed call of `sites` enlists. -/
def Enlisted (prog : Program) (sites : List Site) (job : MonoFnJob) : Prop :=
  ∃ s ∈ sites, ∃ d, s.target = .fn d job.args ∧ IsLast (genericNamed job.name) prog.funcs d

theorem Enlisted.mono {sites sites' : List Site} {job : MonoFnJob} (h : Enlisted prog sites job)
    (hsub : ∀ s ∈ sites, s ∈ sites') : Enlisted prog sites' job := by
  obtain ⟨s, hs, hd⟩ := h
  exact ⟨s, hsub s hs, hd⟩

theorem CallHead.jobs {name : String} {generics : List Typ} {st st' : Mono} {t t' : Ty} {c : Callee}
    {args : List Ty} {target : Target} {sites : List Site}
    (h : CallHead prog tb subst name generics st st' t c) (hi : MonoInv prog tb st)
    (hargs : generics.mapM (mapType prog subst) = some args)
    (hp : Interp.plainCall prog name args = some (t', target))
    (hmem : ⟨if generics.isEmpty then .free else .generic, name, target⟩ ∈ sites)
    (hall : ∀ s ∈ sites, Unshadowed prog s) :
    ∀ job ∈ st'.worklist, job ∈ st.worklist ∨ Enlisted prog sites job := by
  intro job hj
  cases h with
  | free => exact .inl hj
  | extern_ => exact .inl hj
  | generic generics id sig hg hm =>
    obtain ⟨i, decl, args', -, ha, -, -, -, -, hnew⟩ := monoFn_spec hm hi
    rw [hargs] at ha
    cases ha
    rcases hnew job hj with hj | rfl
    · exact .inl hj
    · have hu := hall _ hmem
      rw [if_neg (by simpa using hg)] at hu hmem
      rcases plainCall_cases hp with ⟨d, rfl, -⟩ | ⟨e, rfl, -⟩
      · exact .inr ⟨_, hmem, d, rfl, hu⟩
      · exact False.elim hu

mutual
theorem lowerExpr_jobs {env' : List Ty} : ∀ (e : Expr) {st st' : Mono} {t t' : Ty}
    {calls : List Callee} {sites : List Site},
    lowerExpr prog tb subst env e st = .ok (t, calls, st') → MonoInv prog tb st →
      Interp.evalExpr prog subst env' e = some (t', sites) →
      (∀ s ∈ sites, Unshadowed prog s) →
      ∀ job ∈ st'.worklist, job ∈ st.worklist ∨ Enlisted prog sites job
  | .value ty, st, st', t, t', calls, sites, h, hi, hs, hall => by
    unfold lowerExpr at h
    split at h <;> cases h
    exact fun job hj => .inl hj
  | .var i, st, st', t, t', calls, sites, h, hi, hs, hall => by
    unfold lowerExpr at h
    split at h <;> cases h
    exact fun job hj => .inl hj
  | .call name generics args, st, st', t, t', calls, sites, h, hi, hs, hall => by
    intro job hj
    obtain ⟨st₁, ts, argCalls, c, hc, ha, rfl⟩ := lowerExpr_call h
    obtain ⟨targs, ts', argSites, target, hg, ha', hp, rfl⟩ := evalExpr_call hs
    obtain ⟨hi₁, -⟩ := hc.mono hi
    have hargs := lowerArgs_jobs args ha hi₁ ha' fun s hs => hall s (List.mem_append_left _ hs)
    rcases hargs job hj with hj | hj
    · exact hc.jobs hi hg hp (by simp) hall job hj
    · exact .inr (hj.mono fun s hs => List.mem_append_left _ hs)
  | .method receiver method args, st, st', t, t', calls, sites, h, hi, hs, hall => by
    intro job hj
    obtain ⟨r, recvCalls, st₁, ts, argCalls, c, hr, ha, hm, rfl⟩ := lowerExpr_method h
    obtain ⟨r', recvSites, ts', argSites, target, hr', ha', hp, rfl⟩ := evalExpr_method hs
    obtain ⟨hi₁, -⟩ := lowerExpr_mono receiver hr hi
    have hargs := lowerArgs_jobs args ha hi₁ ha' fun s hs => hall s (by simp [hs])
    rcases hargs job hj with hj | hj
    · have hrecv := lowerExpr_jobs receiver hr hi hr' fun s hs => hall s (by simp [hs])
      rcases hrecv job hj with hj | hj
      · exact .inl hj
      · exact .inr (hj.mono fun s hs => by simp [hs])
    · exact .inr (hj.mono fun s hs => by simp [hs])
theorem lowerArgs_jobs {env' : List Ty} : ∀ (a : Args) {st st' : Mono} {ts ts' : List Ty}
    {calls : List Callee} {sites : List Site},
    lowerArgs prog tb subst env a st = .ok (ts, calls, st') → MonoInv prog tb st →
      Interp.evalArgs prog subst env' a = some (ts', sites) →
      (∀ s ∈ sites, Unshadowed prog s) →
      ∀ job ∈ st'.worklist, job ∈ st.worklist ∨ Enlisted prog sites job
  | .nil, st, st', ts, ts', calls, sites, h, hi, hs, hall => by
    unfold lowerArgs at h
    cases h
    exact fun job hj => .inl hj
  | .cons e rest, st, st', ts, ts', calls, sites, h, hi, hs, hall => by
    intro job hj
    obtain ⟨t, eCalls, st₁, us, restCalls, he, hr, rfl, rfl⟩ := lowerArgs_cons h
    unfold Interp.evalArgs at hs
    obtain ⟨⟨t', eSites⟩, he', hs⟩ := option_bind_some hs
    obtain ⟨⟨us', restSites⟩, hr', hs⟩ := option_bind_some hs
    cases hs
    obtain ⟨hi₁, -⟩ := lowerExpr_mono e he hi
    have htail := lowerArgs_jobs rest hr hi₁ hr' fun s hs => hall s (List.mem_append_right _ hs)
    rcases htail job hj with hj | hj
    · have hhead := lowerExpr_jobs e he hi he' fun s hs => hall s (List.mem_append_left _ hs)
      rcases hhead job hj with hj | hj
      · exact .inl hj
      · exact .inr (hj.mono fun s hs => List.mem_append_left _ hs)
    · exact .inr (hj.mono fun s hs => List.mem_append_right _ hs)
end

theorem lowerBlock_jobs {env' : List Ty} {body : List Expr} {st st' : Mono} {calls : List Callee}
    {sites : List Site} (h : lowerBlock prog tb subst env body st = .ok (calls, st'))
    (hi : MonoInv prog tb st) (hs : Interp.evalBlock prog subst env' body = some sites)
    (hall : ∀ s ∈ sites, Unshadowed prog s) :
    ∀ job ∈ st'.worklist, job ∈ st.worklist ∨ Enlisted prog sites job := by
  induction body generalizing env env' st calls sites with
  | nil =>
    unfold lowerBlock at h
    cases h
    exact fun job hj => .inl hj
  | cons e rest ih =>
    intro job hj
    obtain ⟨t, eCalls, st₁, restCalls, he, hr, rfl⟩ := lowerBlock_cons h
    obtain ⟨t', eSites, restSites, he', hr', rfl⟩ := evalBlock_cons hs
    obtain ⟨hi₁, -⟩ := lowerExpr_mono e he hi
    rcases ih hr hi₁ hr' (fun s hs => hall s (List.mem_append_right _ hs)) job hj with hj | hj
    · have hhead := lowerExpr_jobs e he hi he' fun s hs => hall s (List.mem_append_left _ hs)
      rcases hhead job hj with hj | hj
      · exact .inl hj
      · exact .inr (hj.mono fun s hs => List.mem_append_left _ hs)
    · exact .inr (hj.mono fun s hs => List.mem_append_right _ hs)

/-- The body of `e` is the body of its declaration, lowered from `st` to `st'`. -/
def Lowered (prog : Program) (tb : Tables) (st : Mono) (e : Func) (st' : Mono) : Prop :=
  ∃ f, prog.funcs[e.decl]? = some f ∧
    lowerBlock prog tb (f.generics.zip e.args) e.sig.params f.body st = .ok (e.calls, st')

theorem Lowered.mono {st st' : Mono} {e : Func} (h : Lowered prog tb st e st')
    (hi : MonoInv prog tb st) : MonoInv prog tb st' ∧ st.worklist <+: st'.worklist := by
  obtain ⟨f, -, h⟩ := h
  exact lowerBlock_mono h hi

theorem lowerFunc_spec (hc : tb.Collected prog prog.funcs) {i : Nat} {f : FnDecl} {st st' : Mono}
    {e : Func} (hf : prog.funcs[i]? = some f)
    (h : lowerFunc prog tb i f st = .ok (e, st')) :
    e.decl = i ∧ e.args = [] ∧ Lowered prog tb st e st' ∧
      ∃ j g, IsLast (concreteNamed f.name) prog.funcs j ∧ prog.funcs[j]? = some g ∧
        declSig prog g [] = some e.sig := by
  unfold lowerFunc at h
  split at h
  · cases h
  · rename_i sig hs
    split at h
    · cases h
    · rename_i hok
      unfold lowerFnCore at h
      obtain ⟨⟨calls, st₁⟩, hb, h⟩ := except_bind_ok h
      cases h
      obtain ⟨j, g, hl, hg, rfl⟩ := hc.funcs_some _ _ hs
      refine ⟨rfl, rfl, ⟨f, hf, ?_⟩, j, g, hl, hg, collectFnSig_ok (by simpa using hok)⟩
      simpa only [List.zip_nil_right] using hb

theorem lowerMonoFn_spec (hc : tb.Collected prog prog.funcs) {job : MonoFnJob} {st st' : Mono}
    {e : Func} (hi : MonoInv prog tb st) (hj : job ∈ st.worklist)
    (h : lowerMonoFn prog tb job st = .ok (e, st')) :
    e.args = job.args ∧ Lowered prog tb st e st' ∧
      ∃ f, tb.genericFuncs.lookup job.name = some (e.decl, f) ∧ prog.funcs[e.decl]? = some f ∧
        declSig prog f e.args = some e.sig := by
  unfold lowerMonoFn at h
  split at h
  · rename_i i decl sig hd hs
    unfold lowerFnCore at h
    obtain ⟨⟨calls, st₁⟩, hb, h⟩ := except_bind_ok h
    cases h
    obtain ⟨k, hk⟩ := List.mem_iff_getElem?.mp hj
    obtain ⟨-, i', decl', sig', hd', -, hs', hsig⟩ := hi.jobs k job hk
    rw [hd] at hd'
    cases hd'
    rw [hs] at hs'
    cases hs'
    obtain ⟨-, hdi⟩ := hc.generic_some _ _ _ hd
    exact ⟨rfl, ⟨decl, hdi, hb⟩, decl, hd, hdi, hsig⟩
  · cases h

end BetLang.Dispatch.Lower
