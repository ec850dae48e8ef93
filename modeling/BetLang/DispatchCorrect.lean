import BetLang.DispatchMono

/-! Lowered calls against the (type, name) lookups: they agree exactly when no later concrete
declaration shares a bare name with what the lookup finds. -/

namespace BetLang.Dispatch.Lower

open Registry
open Interp (Target Site)

/-- The callee is the emitted instance of the target, or the same builtin, field or import. -/
def Matches (out : List Func) : Callee → Target → Prop
  | .direct id, .fn d args => ∃ e, out[id]? = some e ∧ e.decl = d ∧ e.args = args
  | .builtin m, .builtin m' => m = m'
  | .indirect f, .field f' => f = f'
  | .extern_ n, .extern_ n' => n = n'
  | _, _ => False

/-- Every function is lowered under its own signature, and each of its calls targets what the
(type, name) lookup finds, by the index of that function in the module. -/
def DispatchCorrect (prog : Program) (out : List Func) : Prop :=
  ∀ (k : Nat) (e : Func), out[k]? = some e →
    (∃ f, prog.funcs[e.decl]? = some f ∧ declSig prog f e.args = some e.sig) ∧
    ∃ sites, Interp.callFn prog e.decl e.args = some sites ∧
      List.Forall₂ (fun c s => Matches out c s.target) e.calls sites

/-- The declaration a call resolves to is the last concrete one (for explicit type arguments:
the last generic one) of its bare name; a builtin, field or import shares its name with no
concrete declaration. -/
def Unshadowed (prog : Program) (s : Site) : Prop :=
  match s.form, s.target with
  | .generic, .fn d _ => IsLast (genericNamed s.name) prog.funcs d
  | .generic, _ => False
  | _, .fn d _ => IsLast (concreteNamed s.name) prog.funcs d
  | _, _ => ∀ f ∈ prog.funcs, ¬ concreteNamed s.name f

/-- The instances that the concrete functions reach through the (type, name) lookups. -/
inductive Reach (prog : Program) : Nat → List Ty → Prop where
  | concrete {i : Nat} {f : FnDecl} (hf : prog.funcs[i]? = some f) (hc : f.concrete = true) :
      Reach prog i []
  | call {i d : Nat} {args as : List Ty} {sites : List Site} {s : Site} (hr : Reach prog i args)
      (hs : Interp.callFn prog i args = some sites) (hmem : s ∈ sites) (ht : s.target = .fn d as) :
      Reach prog d as

/-- No collision that bare-name lookup could turn into another body or signature. -/
def CollisionFree (prog : Program) : Prop :=
  (∀ (i j : Nat) (f g : FnDecl), prog.funcs[i]? = some f → f.concrete = true → prog.funcs[j]? = some g →
    IsLast (concreteNamed f.name) prog.funcs j → declSig prog g [] = declSig prog f []) ∧
  ∀ i args, Reach prog i args →
    ∃ sites, Interp.callFn prog i args = some sites ∧ ∀ s ∈ sites, Unshadowed prog s

variable {prog : Program} {tb : Tables}

/-- The finished module: ids lead to the declarations the tables name. -/
structure Final (prog : Program) (tb : Tables) (worklist : List MonoFnJob) (out : List Func) :
    Prop where
  collected : tb.Collected prog prog.funcs
  concrete : ∀ (i : Nat) (f : FnDecl), prog.funcs[i]? = some f → f.concrete = true →
    ∃ e, out[fidOf prog.funcs i]? = some e ∧ e.decl = i ∧ e.args = []
  instances : ∀ job ∈ worklist, ∃ e i decl, out[job.id]? = some e ∧
    tb.genericFuncs.lookup job.name = some (i, decl) ∧ e.decl = i ∧ e.args = job.args

/-- Lowering's view of a piece of code against the interpreter's. -/
def Sim {α : Type} (prog : Program) (out : List Func) (a : α) (calls : List Callee) (a' : α)
    (sites : List Site) : Prop :=
  calls.length = sites.length ∧
  (List.Forall₂ (fun c s => Matches out c s.target) calls sites ↔ ∀ s ∈ sites, Unshadowed prog s) ∧
  (List.Forall₂ (fun c s => Matches out c s.target) calls sites → a = a')

theorem forall₂_append_iff {α β : Type} {R : α → β → Prop} {as cs : List α} {bs ds : List β}
    (h : as.length = bs.length) :
    List.Forall₂ R (as ++ cs) (bs ++ ds) ↔ List.Forall₂ R as bs ∧ List.Forall₂ R cs ds := by
  induction as generalizing bs with
  | nil =>
    cases bs with
    | nil => simp
    | cons b bs => cases h
  | cons a as ih =>
    cases bs with
    | nil => cases h
    | cons b bs =>
      simp only [List.cons_append, List.forall₂_cons, ih (by simpa using h), and_assoc]

theorem sim_nil {α : Type} (out : List Func) (a : α) : Sim prog out a [] a [] :=
  ⟨rfl, by simp, fun _ => rfl⟩

theorem Sim.seq {α β : Type} {out : List Func} {a a' : α} {b b' : β} {xs ys : List Callee}
    {ss us : List Site} (h : Sim prog out a xs a' ss) (hlen : ys.length = us.length)
    (hn : a = a' → Sim prog out b ys b' us) : Sim prog out b (xs ++ ys) b' (ss ++ us) := by
  obtain ⟨hl, hiff, heq⟩ := h
  refine ⟨by simp [hl, hlen], ?_, ?_⟩
  · rw [forall₂_append_iff hl]
    constructor
    · rintro ⟨hx, hy⟩ s hs
      rcases List.mem_append.mp hs with hs | hs
      · exact hiff.mp hx s hs
      · exact (hn (heq hx)).2.1.mp hy s hs
    · intro hall
      have hx := hiff.mpr fun s hs => hall s (List.mem_append_left _ hs)
      exact ⟨hx, (hn (heq hx)).2.1.mpr fun s hs => hall s (List.mem_append_right _ hs)⟩
  · intro hxy
    obtain ⟨hx, hy⟩ := (forall₂_append_iff hl).mp hxy
    exact (hn (heq hx)).2.2 hy

theorem sim_head {out : List Func} {t t' : Ty} {c : Callee} {s : Site}
    (h : (Matches out c s.target ↔ Unshadowed prog s) ∧ (Matches out c s.target → t = t')) :
    Sim prog out t [c] t' [s] := by
  refine ⟨rfl, by simpa using h.1, ?_⟩
  intro hm
  cases hm with
  | cons hm _ => exact h.2 hm

/-- A direct call by bare name reaches the last concrete declaration of that name. -/
theorem Final.direct {W : List MonoFnJob} {out : List Func} (hF : Final prog tb W out)
    {name : String} {sig : FuncSig} (hf : tb.funcs.lookup name = some sig) (hok : sig.ok = true) :
    ∃ i f, IsLast (concreteNamed name) prog.funcs i ∧ prog.funcs[i]? = some f ∧
      Interp.retType prog i [] = some sig.rets ∧
      ∀ d args, Matches out (.direct sig.id) (.fn d args) ↔ d = i ∧ args = [] := by
  obtain ⟨i, f, hl, hfi, rfl⟩ := hF.collected.funcs_some name sig hf
  obtain ⟨g, hg, hgc⟩ := hl.1
  rw [hfi] at hg
  cases hg
  obtain ⟨e, he, hd, ha⟩ := hF.concrete i f hfi hgc.1
  refine ⟨i, f, hl, hfi, ?_, fun d args => ?_⟩
  · have hs := collectFnSig_ok hok
    obtain ⟨params, hp, hs⟩ := option_bind_some hs
    obtain ⟨r, hr, hs⟩ := option_bind_some hs
    simp only [Option.pure_def, Option.some.injEq, Sig.mk.injEq] at hs
    rw [Interp.retType, hfi]
    simpa [hs.2] using hr
  · have hid : (collectFnSig prog f (fidOf prog.funcs i)).id = fidOf prog.funcs i := rfl
    simp only [Matches, hid, he, Option.some.injEq, exists_eq_left', hd, ha, eq_comm]

variable {subst : List (String × Ty)} {env : List Ty} {W : List MonoFnJob} {out : List Func}

theorem plainCall_cases {name : String} {args : List Ty} {t : Ty} {target : Target}
    (h : Interp.plainCall prog name args = some (t, target)) :
    (∃ d, target = .fn d args ∧ Interp.retType prog d args = some t) ∨
    (∃ e, target = .extern_ name ∧ prog.externs.reverse.find? (·.name = name) = some e ∧
      mapType prog [] e.ret = some t) := by
  unfold Interp.plainCall at h
  split at h
  · rename_i d hd
    obtain ⟨r, hr, h⟩ := Option.map_eq_some_iff.mp h
    cases h
    exact .inl ⟨d, rfl, hr⟩
  · obtain ⟨e, he, h⟩ := option_bind_some h
    obtain ⟨r, hr, h⟩ := option_bind_some h
    cases h
    exact .inr ⟨e, rfl, he, hr⟩

theorem CallHead.sim (hF : Final prog tb W out) {name : String} {generics : List Typ}
    {st st' : Mono} {t t' : Ty} {c : Callee} {args : List Ty} {target : Target}
    (h : CallHead prog tb subst name generics st st' t c) (hinv : MonoInv prog tb st)
    (hW : st'.worklist <+: W) (hargs : generics.mapM (mapType prog subst) = some args)
    (hp : Interp.plainCall prog name args = some (t', target)) :
    Sim prog out t [c] t' [⟨if generics.isEmpty then .free else .generic, name, target⟩] := by
  apply sim_head
  cases h with
  | free sig hf hok =>
    obtain ⟨i, f, hl, hfi, hret, hm⟩ := hF.direct hf hok
    obtain rfl : args = [] := by simpa [eq_comm] using hargs
    rcases plainCall_cases hp with ⟨d, rfl, hd⟩ | ⟨e, rfl, -⟩
    · simp only [hm, and_true]
      refine ⟨hl.eq_iff, ?_⟩
      rintro rfl
      exact Option.some.inj (hret.symm.trans hd)
    · refine ⟨⟨False.elim, fun hall => ?_⟩, False.elim⟩
      obtain ⟨g, hg, hgn⟩ := hl.exists_mem
      exact hall g hg hgn
  | extern_ e ret hf he hr =>
    have hnone := hF.collected.funcs_none name hf
    obtain rfl : args = [] := by simpa [eq_comm] using hargs
    rcases plainCall_cases hp with ⟨d, rfl, hd⟩ | ⟨e', rfl, he', hr'⟩
    · refine ⟨⟨False.elim, fun hl => ?_⟩, False.elim⟩
      obtain ⟨g, hg, hgn⟩ := IsLast.exists_mem hl
      exact hnone g hg hgn
    · rw [he] at he'
      cases he'
      exact ⟨⟨fun _ => hnone, fun _ => rfl⟩, fun _ => Option.some.inj (hr.symm.trans hr')⟩
  | generic generics id sig hg hm =>
    obtain ⟨i, decl, args', hd, ha, hsig, hmem, -, -, -⟩ := monoFn_spec hm hinv
    rw [hargs] at ha
    cases ha
    obtain ⟨e, i', decl', he, hd', hei, hea⟩ := hF.instances _ (hW.subset hmem)
    rw [hd] at hd'
    cases hd'
    obtain ⟨hl, hdi⟩ := hF.collected.generic_some name i decl hd
    rw [if_neg (by simpa using hg)]
    rcases plainCall_cases hp with ⟨d, rfl, hret⟩ | ⟨e, rfl, -⟩
    · have hmd : Matches out (.direct id) (.fn d args) ↔ d = i := by
        simp only [Matches, he, Option.some.injEq, exists_eq_left', hei, hea, and_true, eq_comm]
      simp only [hmd]
      refine ⟨hl.eq_iff, ?_⟩
      rintro rfl
      rw [Interp.retType, hdi] at hret
      obtain ⟨params, -, hsig⟩ := option_bind_some hsig
      obtain ⟨r, hr, hsig⟩ := option_bind_some hsig
      cases hsig
      exact Option.some.inj (hr.symm.trans hret)
    · exact ⟨⟨False.elim, False.elim⟩, False.elim⟩

theorem builtinNames_of_ret {t r : Ty} {m : String} {ts : List Ty} (h : builtinRet t m ts = some r) :
    m ∈ builtinNames t := by
  unfold builtinRet at h
  split at h
  all_goals first
    | (cases h; done)
    | simp [builtinNames]

theorem callMethod_cases {r t : Ty} {m : String} {ts : List Ty} {target : Target}
    (h : Interp.callMethod prog r m ts = some (t, target)) :
    (m ∈ builtinNames r ∧ target = .builtin m ∧ builtinRet r m ts = some t) ∨
    (m ∉ builtinNames r ∧ ∃ d, target = .fn d [] ∧ Interp.retType prog d [] = some t) ∨
    (m ∉ builtinNames r ∧ target = .field m ∧ fnFieldRet prog r m = some t) := by
  unfold Interp.callMethod at h
  split at h
  · rename_i hm
    obtain ⟨r, hr, h⟩ := Option.map_eq_some_iff.mp h
    cases h
    exact .inl ⟨hm, rfl, hr⟩
  · rename_i hm
    split at h
    · rename_i d hd
      obtain ⟨r, hr, h⟩ := Option.map_eq_some_iff.mp h
      cases h
      exact .inr (.inl ⟨hm, d, rfl, hr⟩)
    · obtain ⟨r, hr, h⟩ := Option.map_eq_some_iff.mp h
      cases h
      exact .inr (.inr ⟨hm, rfl, hr⟩)

theorem MethodHead.sim (hF : Final prog tb W out) {method : String} {r t t' : Ty} {ts : List Ty}
    {c : Callee} {target : Target} (h : MethodHead prog tb method r ts t c)
    (hp : Interp.callMethod prog r method ts = some (t', target)) :
    Sim prog out t [c] t' [⟨.method, method, target⟩] := by
  apply sim_head
  cases h with
  | user sig hf hok =>
    obtain ⟨i, f, hl, hfi, hret, hm⟩ := hF.direct hf hok
    have hex : ¬ ∀ f ∈ prog.funcs, ¬ concreteNamed method f := fun hall => by
      obtain ⟨g, hg, hgn⟩ := hl.exists_mem
      exact hall g hg hgn
    rcases callMethod_cases hp with ⟨-, rfl, -⟩ | ⟨-, d, rfl, hd⟩ | ⟨-, rfl, -⟩
    · exact ⟨⟨False.elim, hex⟩, False.elim⟩
    · simp only [hm, and_true]
      refine ⟨hl.eq_iff, ?_⟩
      rintro rfl
      exact Option.some.inj (hret.symm.trans hd)
    · exact ⟨⟨False.elim, hex⟩, False.elim⟩
  | builtin t hf hb =>
    have hnone := hF.collected.funcs_none method hf
    have hmem := builtinNames_of_ret hb
    rcases callMethod_cases hp with ⟨-, rfl, hb'⟩ | ⟨hn, -⟩ | ⟨hn, -⟩
    · exact ⟨⟨fun _ => hnone, fun _ => rfl⟩, fun _ => Option.some.inj (hb.symm.trans hb')⟩
    · exact absurd hmem hn
    · exact absurd hmem hn
  | field t hf hb hr =>
    have hnone := hF.collected.funcs_none method hf
    rcases callMethod_cases hp with ⟨hm, -⟩ | ⟨-, d, rfl, -⟩ | ⟨-, rfl, hr'⟩
    · rw [hb] at hm
      cases hm
    · refine ⟨⟨False.elim, fun hl => ?_⟩, False.elim⟩
      obtain ⟨g, hg, hgn⟩ := IsLast.exists_mem hl
      exact hnone g hg hgn
    · exact ⟨⟨fun _ => hnone, fun _ => rfl⟩, fun _ => Option.some.inj (hr.symm.trans hr')⟩

theorem CallHead.mono {name : String} {generics : List Typ} {st st' : Mono} {t : Ty} {c : Callee}
    (h : CallHead prog tb subst name generics st st' t c) (hi : MonoInv prog tb st) :
    MonoInv prog tb st' ∧ st.worklist <+: st'.worklist := by
  cases h with
  | free => exact ⟨hi, List.prefix_rfl⟩
  | extern_ => exact ⟨hi, List.prefix_rfl⟩
  | generic generics id sig hg hm =>
    obtain ⟨i, decl, args, -, -, -, -, hi', hext, -⟩ := monoFn_spec hm hi
    exact ⟨hi', hext⟩

mutual
theorem lowerExpr_mono : ∀ (e : Expr) {st st' : Mono} {t : Ty} {calls : List Callee},
    lowerExpr prog tb subst env e st = .ok (t, calls, st') → MonoInv prog tb st →
      MonoInv prog tb st' ∧ st.worklist <+: st'.worklist
  | .value ty, st, st', t, calls, h, hi => by
    unfold lowerExpr at h
    split at h <;> cases h
    exact ⟨hi, List.prefix_rfl⟩
  | .var i, st, st', t, calls, h, hi => by
    unfold lowerExpr at h
    split at h <;> cases h
    exact ⟨hi, List.prefix_rfl⟩
  | .call name generics args, st, st', t, calls, h, hi => by
    obtain ⟨st₁, ts, argCalls, c, hc, ha, -⟩ := lowerExpr_call h
    obtain ⟨hi₁, hext₁⟩ := hc.mono hi
    obtain ⟨hi₂, hext₂⟩ := lowerArgs_mono args ha hi₁
    exact ⟨hi₂, hext₁.trans hext₂⟩
  | .method receiver method args, st, st', t, calls, h, hi => by
    obtain ⟨r, recvCalls, st₁, ts, argCalls, c, hr, ha, -, -⟩ := lowerExpr_method h
    obtain ⟨hi₁, hext₁⟩ := lowerExpr_mono receiver hr hi
    obtain ⟨hi₂, hext₂⟩ := lowerArgs_mono args ha hi₁
    exact ⟨hi₂, hext₁.trans hext₂⟩
theorem lowerArgs_mono : ∀ (a : Args) {st st' : Mono} {ts : List Ty} {calls : List Callee},
    lowerArgs prog tb subst env a st = .ok (ts, calls, st') → MonoInv prog tb st →
      MonoInv prog tb st' ∧ st.worklist <+: st'.worklist
  | .nil, st, st', ts, calls, h, hi => by
    unfold lowerArgs at h
    cases h
    exact ⟨hi, List.prefix_rfl⟩
  | .cons e rest, st, st', ts, calls, h, hi => by
    obtain ⟨t, eCalls, st₁, us, restCalls, he, hr, -, -⟩ := lowerArgs_cons h
    obtain ⟨hi₁, hext₁⟩ := lowerExpr_mono e he hi
    obtain ⟨hi₂, hext₂⟩ := lowerArgs_mono rest hr hi₁
    exact ⟨hi₂, hext₁.trans hext₂⟩
end

theorem evalExpr_call {name : String} {generics : List Typ} {args : Args} {t : Ty}
    {sites : List Site}
    (h : Interp.evalExpr prog subst env (.call name generics args) = some (t, sites)) :
    ∃ targs ts argSites target, generics.mapM (mapType prog subst) = some targs ∧
      Interp.evalArgs prog subst env args = some (ts, argSites) ∧
      Interp.plainCall prog name targs = some (t, target) ∧
      sites = argSites ++ [⟨if generics.isEmpty then .free else .generic, name, target⟩] := by
  unfold Interp.evalExpr at h
  obtain ⟨targs, hg, h⟩ := option_bind_some h
  obtain ⟨⟨ts, argSites⟩, ha, h⟩ := option_bind_some h
  obtain ⟨⟨t', target⟩, hp, h⟩ := option_bind_some h
  cases h
  exact ⟨targs, ts, argSites, target, hg, ha, hp, rfl⟩

theorem evalExpr_method {receiver : Expr} {method : String} {args : Args} {t : Ty}
    {sites : List Site}
    (h : Interp.evalExpr prog subst env (.method receiver method args) = some (t, sites)) :
    ∃ r recvSites ts argSites target,
      Interp.evalExpr prog subst env receiver = some (r, recvSites) ∧
      Interp.evalArgs prog subst env args = some (ts, argSites) ∧
      Interp.callMethod prog r method ts = some (t, target) ∧
      sites = recvSites ++ argSites ++ [⟨.method, method, target⟩] := by
  unfold Interp.evalExpr at h
  obtain ⟨⟨r, recvSites⟩, hr, h⟩ := option_bind_some h
  obtain ⟨⟨ts, argSites⟩, ha, h⟩ := option_bind_some h
  obtain ⟨⟨t', target⟩, hp, h⟩ := option_bind_some h
  cases h
  exact ⟨r, recvSites, ts, argSites, target, hr, ha, hp, rfl⟩

theorem Sim.of_eq {α β : Type} {a a' : α} {b b' : β} {calls : List Callee} {sites : List Site}
    (h : Sim prog out a calls a' sites) (he : a = a' → b = b') : Sim prog out b calls b' sites :=
  ⟨h.1, h.2.1, fun hm => he (h.2.2 hm)⟩

mutual
theorem lowerExpr_sim (hF : Final prog tb W out) : ∀ (e : Expr) {st st' : Mono} {t t' : Ty}
    {calls : List Callee} {sites : List Site},
    lowerExpr prog tb subst env e st = .ok (t, calls, st') → MonoInv prog tb st →
      st'.worklist <+: W → Interp.evalExpr prog subst env e = some (t', sites) →
      Sim prog out t calls t' sites
  | .value ty, st, st', t, t', calls, sites, h, hi, hW, hs => by
    unfold lowerExpr at h
    split at h <;> cases h
    rename_i ht
    simp only [Interp.evalExpr, ht, Option.map_some, Option.some.injEq, Prod.mk.injEq] at hs
    obtain ⟨rfl, rfl⟩ := hs
    exact sim_nil out t
  | .var i, st, st', t, t', calls, sites, h, hi, hW, hs => by
    unfold lowerExpr at h
    split at h <;> cases h
    rename_i ht
    simp only [Interp.evalExpr, ht, Option.map_some, Option.some.injEq, Prod.mk.injEq] at hs
    obtain ⟨rfl, rfl⟩ := hs
    exact sim_nil out t
  | .call name generics args, st, st', t, t', calls, sites, h, hi, hW, hs => by
    obtain ⟨st₁, ts, argCalls, c, hc, ha, rfl⟩ := lowerExpr_call h
    obtain ⟨targs, ts', argSites, target, hg, ha', hp, rfl⟩ := evalExpr_call hs
    obtain ⟨hi₁, hext₁⟩ := hc.mono hi
    obtain ⟨-, hext₂⟩ := lowerArgs_mono args ha hi₁
    have hargs := lowerArgs_sim hF args ha hi₁ hW ha'
    exact hargs.seq rfl fun _ => hc.sim hF hi (hext₂.trans hW) hg hp
  | .method receiver method args, st, st', t, t', calls, sites, h, hi, hW, hs => by
    obtain ⟨r, recvCalls, st₁, ts, argCalls, c, hr, ha, hm, rfl⟩ := lowerExpr_method h
    obtain ⟨r', recvSites, ts', argSites, target, hr', ha', hp, rfl⟩ := evalExpr_method hs
    obtain ⟨hi₁, -⟩ := lowerExpr_mono receiver hr hi
    obtain ⟨-, hext₂⟩ := lowerArgs_mono args ha hi₁
    have hrecv := lowerExpr_sim hF receiver hr hi (hext₂.trans hW) hr'
    have hargs := lowerArgs_sim hF args ha hi₁ hW ha'
    have hboth : Sim prog out (r, ts) (recvCalls ++ argCalls) (r', ts') (recvSites ++ argSites) :=
      hrecv.seq hargs.1 fun he => hargs.of_eq fun he' => by rw [he, he']
    refine hboth.seq rfl fun he => ?_
    cases he
    exact hm.sim hF hp
theorem lowerArgs_sim (hF : Final prog tb W out) : ∀ (a : Args) {st st' : Mono}
    {ts ts' : List Ty} {calls : List Callee} {sites : List Site},
    lowerArgs prog tb subst env a st = .ok (ts, calls, st') → MonoInv prog tb st →
      st'.worklist <+: W → Interp.evalArgs prog subst env a = some (ts', sites) →
      Sim prog out ts calls ts' sites
  | .nil, st, st', ts, ts', calls, sites, h, hi, hW, hs => by
    unfold lowerArgs at h
    cases h
    unfold Interp.evalArgs at hs
    cases hs
    exact sim_nil out []
  | .cons e rest, st, st', ts, ts', calls, sites, h, hi, hW, hs => by
    obtain ⟨t, eCalls, st₁, us, restCalls, he, hr, rfl, rfl⟩ := lowerArgs_cons h
    unfold Interp.evalArgs at hs
    obtain ⟨⟨t', eSites⟩, he', hs⟩ := option_bind_some hs
    obtain ⟨⟨us', restSites⟩, hr', hs⟩ := option_bind_some hs
    cases hs
    obtain ⟨hi₁, -⟩ := lowerExpr_mono e he hi
    obtain ⟨-, hext₂⟩ := lowerArgs_mono rest hr hi₁
    have hhead := lowerExpr_sim hF e he hi (hext₂.trans hW) he'
    have htail := lowerArgs_sim hF rest hr hi₁ hW hr'
    exact hhead.seq htail.1 fun ht => htail.of_eq fun hu => by rw [ht, hu]
end

end BetLang.Dispatch.Lower
