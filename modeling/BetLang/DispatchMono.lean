import BetLang.DispatchTables
import BetLang.Sequencing

/-! What lowering a call does: the callee it picks, and the invariant of the work-list. -/

namespace BetLang.Dispatch.Lower

open Registry

variable {prog : Program} {tb : Tables}

/-- Instance `k` of the work-list owns id `base + k` and its own signature. -/
structure MonoInv (prog : Program) (tb : Tables) (st : Mono) : Prop where
  next : st.nextMonoFid = tb.nextMonoFid + st.worklist.length
  jobs : ∀ k job, st.worklist[k]? = some job → job.id = tb.nextMonoFid + k ∧
    ∃ i decl sig, tb.genericFuncs.lookup job.name = some (i, decl) ∧
      decl.generics.length = job.args.length ∧
      st.monoSigs.lookup job.id = some sig ∧ declSig prog decl job.args = some sig
  funcs : ∀ key id, st.monoFuncs.lookup key = some id → ⟨key.1, key.2, id⟩ ∈ st.worklist

theorem monoInv_start (prog : Program) (tb : Tables) :
    MonoInv prog tb ⟨tb.nextMonoFid, [], [], []⟩ := by
  refine ⟨by simp, ?_, ?_⟩
  · rintro k job ⟨⟩
  · rintro key id ⟨⟩

theorem monoFn_spec {subst : List (String × Ty)} {name : String} {generics : List Typ}
    {st st' : Mono} {id : Nat} {sig : Sig}
    (h : monoFn prog tb subst name generics st = .ok (id, sig, st')) (hi : MonoInv prog tb st) :
    ∃ i decl args, tb.genericFuncs.lookup name = some (i, decl) ∧
      generics.mapM (mapType prog subst) = some args ∧ declSig prog decl args = some sig ∧
      ⟨name, args, id⟩ ∈ st'.worklist ∧ MonoInv prog tb st' ∧ st.worklist <+: st'.worklist ∧
      ∀ job ∈ st'.worklist, job ∈ st.worklist ∨ job = ⟨name, args, id⟩ := by
  unfold monoFn at h
  split at h
  · cases h
  · rename_i i decl hd
    split at h
    · cases h
    · rename_i args ha
      split at h
      · cases h
      · rename_i hlen
        split at h
        · rename_i id' hk
          split at h
          · cases h
          · rename_i sig' hs
            cases h
            have hmem := hi.funcs _ _ hk
            obtain ⟨k, hk'⟩ := List.mem_iff_getElem?.mp hmem
            obtain ⟨-, i', decl', sig'', hd', -, hs', hsig⟩ := hi.jobs k _ hk'
            rw [hs] at hs'
            cases hs'
            rw [hd] at hd'
            cases hd'
            exact ⟨i, decl, args, hd, ha, hsig, hmem, hi, List.prefix_rfl, fun job hj => .inl hj⟩
        · split at h
          · cases h
          · rename_i hnone sig' hs
            cases h
            refine ⟨i, decl, args, hd, ha, hs, by simp, ⟨?_, ?_, ?_⟩, List.prefix_append _ _, ?_⟩
            · simp only [hi.next, List.length_append, List.length_singleton]
              omega
            · intro k job hk
              rcases Nat.lt_or_ge k st.worklist.length with hlt | hge
              · rw [List.getElem?_append_left hlt] at hk
                obtain ⟨hid, i', decl', sig'', hd', hl, hs', hsig⟩ := hi.jobs k job hk
                refine ⟨hid, i', decl', sig'', hd', hl, ?_, hsig⟩
                have hne : (job.id == st.nextMonoFid) = false := by
                  rw [beq_eq_false_iff_ne, hid, hi.next]
                  omega
                simp only [List.lookup_cons, hne, hs']
              · have hlt := (List.getElem?_eq_some_iff.mp hk).1
                simp only [List.length_append, List.length_singleton] at hlt
                have he : k = st.worklist.length := by omega
                subst he
                simp only [List.getElem?_concat_length, Option.some.injEq] at hk
                subst hk
                exact ⟨hi.next, i, decl, sig, hd, by simpa using hlen, by simp, hs⟩
            · intro key id hk
              simp only [List.lookup_cons] at hk
              split at hk
              · rename_i he
                cases hk
                rw [beq_iff_eq.mp he]
                simp
              · exact List.mem_append_left _ (hi.funcs key id hk)
            · intro job hj
              simpa using hj

/-- How a plain call picks its callee, before the arguments are lowered. -/
inductive CallHead (prog : Program) (tb : Tables) (subst : List (String × Ty)) (name : String) :
    List Typ → Mono → Mono → Ty → Callee → Prop where
  | free {st : Mono} (sig : FuncSig) (hf : tb.funcs.lookup name = some sig) (hok : sig.ok = true) :
      CallHead prog tb subst name [] st st sig.rets (.direct sig.id)
  | extern_ {st : Mono} (e : Extern) (ret : Ty) (hf : tb.funcs.lookup name = none)
      (he : prog.externs.reverse.find? (·.name = name) = some e)
      (hr : mapType prog [] e.ret = some ret) :
      CallHead prog tb subst name [] st st ret (.extern_ name)
  | generic {st st' : Mono} (generics : List Typ) (id : Nat) (sig : Sig) (hg : generics ≠ [])
      (hm : monoFn prog tb subst name generics st = .ok (id, sig, st')) :
      CallHead prog tb subst name generics st st' sig.rets (.direct id)

/-- How a method call picks its callee, from the lowered receiver and argument types. -/
inductive MethodHead (prog : Program) (tb : Tables) (method : String) (r : Ty) (ts : List Ty) :
    Ty → Callee → Prop where
  | user (sig : FuncSig) (hf : tb.funcs.lookup method = some sig) (hok : sig.ok = true) :
      MethodHead prog tb method r ts sig.rets (.direct sig.id)
  | builtin (t : Ty) (hf : tb.funcs.lookup method = none) (hb : builtinRet r method ts = some t) :
      MethodHead prog tb method r ts t (.builtin method)
  | field (t : Ty) (hf : tb.funcs.lookup method = none) (hb : builtinNames r = [])
      (hr : fnFieldRet prog r method = some t) :
      MethodHead prog tb method r ts t (.indirect method)

variable {subst : List (String × Ty)} {env : List Ty}

theorem lowerExpr_call {name : String} {generics : List Typ} {args : Args} {st st' : Mono} {t : Ty}
    {calls : List Callee}
    (h : lowerExpr prog tb subst env (.call name generics args) st = .ok (t, calls, st')) :
    ∃ st₁ ts argCalls c, CallHead prog tb subst name generics st st₁ t c ∧
      lowerArgs prog tb subst env args st₁ = .ok (ts, argCalls, st') ∧ calls = argCalls ++ [c] := by
  unfold lowerExpr at h
  split at h
  · rename_i hg
    have hg' : generics = [] := by simpa using hg
    subst hg'
    split at h
    · rename_i sig hf
      split at h
      · cases h
      · rename_i hok
        obtain ⟨⟨ts, argCalls, st₁⟩, ha, h⟩ := except_bind_ok h
        cases h
        exact ⟨st, ts, argCalls, _, .free sig hf (by simpa using hok), ha, rfl⟩
    · rename_i hf
      split at h
      · cases h
      · rename_i e he
        split at h
        · cases h
        · rename_i ret hr
          obtain ⟨⟨ts, argCalls, st₁⟩, ha, h⟩ := except_bind_ok h
          cases h
          exact ⟨st, ts, argCalls, _, .extern_ e t hf he hr, ha, rfl⟩
  · rename_i hg
    obtain ⟨⟨id, sig, st₁⟩, hm, h⟩ := except_bind_ok h
    obtain ⟨⟨ts, argCalls, st₂⟩, ha, h⟩ := except_bind_ok h
    cases h
    exact ⟨st₁, ts, argCalls, _, .generic generics id sig (by simpa using hg) hm, ha, rfl⟩

theorem lowerExpr_method {receiver : Expr} {method : String} {args : Args} {st st' : Mono} {t : Ty}
    {calls : List Callee}
    (h : lowerExpr prog tb subst env (.method receiver method args) st = .ok (t, calls, st')) :
    ∃ r recvCalls st₁ ts argCalls c, lowerExpr prog tb subst env receiver st = .ok (r, recvCalls, st₁) ∧
      lowerArgs prog tb subst env args st₁ = .ok (ts, argCalls, st') ∧
      MethodHead prog tb method r ts t c ∧ calls = recvCalls ++ argCalls ++ [c] := by
  unfold lowerExpr at h
  split at h
  · rename_i sig hf
    split at h
    · cases h
    · rename_i hok
      obtain ⟨⟨r, recvCalls, st₁⟩, hr, h⟩ := except_bind_ok h
      obtain ⟨⟨ts, argCalls, st₂⟩, ha, h⟩ := except_bind_ok h
      cases h
      exact ⟨r, recvCalls, st₁, ts, argCalls, _, hr, ha, .user sig hf (by simp_all), rfl⟩
  · rename_i hf
    obtain ⟨⟨r, recvCalls, st₁⟩, hr, h⟩ := except_bind_ok h
    dsimp only at h
    split at h
    · obtain ⟨⟨ts, argCalls, st₂⟩, ha, h⟩ := except_bind_ok h
      dsimp only at h
      split at h
      · rename_i hb
        cases h
        exact ⟨r, recvCalls, st₁, ts, argCalls, _, hr, ha, .builtin t hf hb, rfl⟩
      · cases h
    · rename_i hb
      split at h
      · cases h
      · rename_i ret hfield
        obtain ⟨⟨ts, argCalls, st₂⟩, ha, h⟩ := except_bind_ok h
        cases h
        exact ⟨r, recvCalls, st₁, ts, argCalls, _, hr, ha, .field t hf (by simpa using hb) hfield, rfl⟩

theorem lowerArgs_cons {e : Expr} {rest : Args} {st st' : Mono} {ts : List Ty} {calls : List Callee}
    (h : lowerArgs prog tb subst env (.cons e rest) st = .ok (ts, calls, st')) :
    ∃ t eCalls st₁ us restCalls, lowerExpr prog tb subst env e st = .ok (t, eCalls, st₁) ∧
      lowerArgs prog tb subst env rest st₁ = .ok (us, restCalls, st') ∧
      ts = t :: us ∧ calls = eCalls ++ restCalls := by
  unfold lowerArgs at h
  obtain ⟨⟨t, eCalls, st₁⟩, he, h⟩ := except_bind_ok h
  obtain ⟨⟨us, restCalls, st₂⟩, hr, h⟩ := except_bind_ok h
  cases h
  exact ⟨t, eCalls, st₁, us, restCalls, he, hr, rfl, rfl⟩

theorem lowerBlock_cons {e : Expr} {rest : List Expr} {st st' : Mono} {calls : List Callee}
    (h : lowerBlock prog tb subst env (e :: rest) st = .ok (calls, st')) :
    ∃ t eCalls st₁ restCalls, lowerExpr prog tb subst env e st = .ok (t, eCalls, st₁) ∧
      lowerBlock prog tb subst (env ++ [t]) rest st₁ = .ok (restCalls, st') ∧
      calls = eCalls ++ restCalls := by
  unfold lowerBlock at h
  obtain ⟨⟨t, eCalls, st₁⟩, he, h⟩ := except_bind_ok h
  obtain ⟨⟨restCalls, st₂⟩, hr, h⟩ := except_bind_ok h
  cases h
  exact ⟨t, eCalls, st₁, restCalls, he, hr, rfl⟩

end BetLang.Dispatch.Lower
