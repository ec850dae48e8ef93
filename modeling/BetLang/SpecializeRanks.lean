import BetLang.SpecializeFuel
import Mathlib.Order.Lattice.Nat

/-! What a run that ends leaves behind: instances of drips behind those that their fields name, and
type arguments of every size that a call can make. -/

namespace BetLang.Specialize

open Dispatch (Drip Ty Typ)
open Stateful

variable {prog : Program} {s s' s'' : State}

/-- The names of the drips with an instance, in the order of these. -/
def State.drips (s : State) : List String := s.keys.map Prod.fst

/-- In front of an instance there are instances of what its fields name. -/
def Ordered (prog : Program) (s : State) : Prop :=
  ∀ front outer back, s.drips = front ++ outer :: back → ∀ d, prog.genericDrip outer = some d →
    ∀ f ∈ d.fields, ∀ name ∈ heads f.2, name ∈ front

/-- The signature of every job is mapped. -/
def Signed (prog : Program) (s : State) : Prop :=
  ∀ job ∈ s.worklist, ∀ f, prog.genericFn job.1 = some f →
    f.generics.length = job.2.length ∧ ∀ t ∈ f.sig, ∀ name ∈ heads t, name ∈ s.drips

/-- What a success does, if no error was dropped by its end. -/
structure Grows (prog : Program) (s s' : State) : Prop where
  drips : s.drips <+: s'.drips
  worklist : s.worklist <+: s'.worklist
  erred : s'.erred = false → s.erred = false
  ordered : Ordered prog s → Ordered prog s'
  signed : Signed prog s → Signed prog s'

theorem Grows.refl (s : State) : Grows prog s s :=
  ⟨List.prefix_rfl, List.prefix_rfl, id, id, id⟩

theorem Grows.trans (h : Grows prog s s') (h' : Grows prog s' s'') : Grows prog s s'' :=
  ⟨h.drips.trans h'.drips, h.worklist.trans h'.worklist, fun he => h.erred (h'.erred he),
    fun ho => h'.ordered (h.ordered ho), fun hs => h'.signed (h.signed hs)⟩

section Types

variable {mono : String → Ty → M Unit} {subst : List (String × Ty)}

/-- Making an instance records its drip. -/
def Records (prog : Program) (mono : String → Ty → M Unit) : Prop :=
  ∀ name args s s', (mono name args).run s = (.ok (), s') →
    Grows prog s s' ∧ name ∈ s'.drips

theorem namedType_grows {name : String} {ty : Ty}
    (h : (namedType prog subst name).run s = (.ok ty, s')) : Grows prog s s' := by
  rw [(namedType_ok h).2]
  exact .refl s

theorem checkSoa_grows {inner : Ty} (h : (checkSoa prog inner).run s = (.ok (), s')) :
    Grows prog s s' := by
  obtain hrun | ⟨text, hrun⟩ := checkSoa_run prog inner s
  · rw [hrun] at h
    cases h
    exact .refl s
  · rw [hrun] at h
    cases h

theorem mapType_grows (hmono : Records prog mono) {t : Typ} {ty : Ty}
    (h : (mapType prog mono subst t).run s = (.ok ty, s')) :
    Grows prog s s' ∧ ∀ name ∈ heads t, name ∈ s'.drips := by
  induction t generalizing s s' ty with
  | named name => exact ⟨namedType_grows h, nofun⟩
  | inst name args ih =>
    obtain ⟨args', s₁, hargs, h⟩ := bind_ok.mp h
    obtain ⟨_, s₂, hnew, h⟩ := bind_ok.mp h
    cases h
    obtain ⟨hgrow, hheads⟩ := ih hargs
    obtain ⟨hgrow', hname⟩ := hmono name args' s₁ s' hnew
    refine ⟨hgrow.trans hgrow', fun n hn => ?_⟩
    rcases List.mem_cons.mp hn with rfl | hn
    · exact hname
    · exact hgrow'.drips.subset (hheads n hn)
  | vec e ih | slice e ih | tag e ih | crib e ih =>
    obtain ⟨e', s₁, he, h⟩ := bind_ok.mp h
    cases h
    exact ih he
  | array e n ih =>
    obtain ⟨e', s₁, he, h⟩ := bind_ok.mp h
    cases h
    exact ih he
  | stash a b iha ihb | tuple a b iha ihb =>
    obtain ⟨a', s₁, ha, h⟩ := bind_ok.mp h
    obtain ⟨b', s₂, hb, h⟩ := bind_ok.mp h
    cases h
    obtain ⟨hgrow, hheads⟩ := iha ha
    obtain ⟨hgrow', hheads'⟩ := ihb hb
    refine ⟨hgrow.trans hgrow', fun n hn => ?_⟩
    rcases List.mem_append.mp hn with hn | hn
    · exact hgrow'.drips.subset (hheads n hn)
    · exact hheads' n hn
  | soa inner ih =>
    obtain ⟨inner', s₁, hinner, h⟩ := bind_ok.mp h
    obtain ⟨_, s₂, hcheck, h⟩ := bind_ok.mp h
    cases h
    obtain ⟨hgrow, hheads⟩ := ih hinner
    have hgrow' := checkSoa_grows hcheck
    exact ⟨hgrow.trans hgrow', fun n hn => hgrow'.drips.subset (hheads n hn)⟩
  | finna params ret ihp ihr =>
    obtain ⟨params', s₁, hparams, h⟩ := bind_ok.mp h
    obtain ⟨hgrow, hheads⟩ := ihp hparams
    by_cases hv : isVoid ret = true
    · rw [if_pos hv] at h
      cases h
      refine ⟨hgrow, fun n hn => hheads n ?_⟩
      rw [heads, if_pos hv, List.append_nil] at hn
      exact hn
    · rw [if_neg hv] at h
      obtain ⟨ret', s₂, hret, h⟩ := bind_ok.mp h
      cases h
      obtain ⟨hgrow', hheads'⟩ := ihr hret
      refine ⟨hgrow.trans hgrow', fun n hn => ?_⟩
      rw [heads, if_neg hv] at hn
      rcases List.mem_append.mp hn with hn | hn
      · exact hgrow'.drips.subset (hheads n hn)
      · exact hheads' n hn
  | rawptr | nada =>
    cases h
    exact ⟨.refl s, nofun⟩

/-- A list of mapped things, of each of which something is true from then on. -/
theorem mapM_grows {α β : Type} {f : α → M β} {q : α → State → Prop} {xs : List α} {ys : List β}
    (hf : ∀ x ∈ xs, ∀ s y s', (f x).run s = (.ok y, s') → Grows prog s s' ∧ q x s')
    (hq : ∀ x s s', Grows prog s s' → q x s → q x s')
    (h : (xs.mapM f).run s = (.ok ys, s')) : Grows prog s s' ∧ ∀ x ∈ xs, q x s' := by
  induction xs generalizing s ys with
  | nil =>
    cases h
    exact ⟨.refl _, nofun⟩
  | cons x xs ih =>
    rw [List.mapM_cons] at h
    obtain ⟨y, s₁, hx, h⟩ := bind_ok.mp h
    obtain ⟨ys', s₂, hxs, h⟩ := bind_ok.mp h
    cases h
    obtain ⟨hgrow, hqx⟩ := hf x List.mem_cons_self s y s₁ hx
    obtain ⟨hgrow', hqxs⟩ := ih (fun x' hx' => hf x' (List.mem_cons_of_mem _ hx')) hxs
    refine ⟨hgrow.trans hgrow', fun x' hx' => ?_⟩
    rcases List.mem_cons.mp hx' with rfl | hx'
    · exact hq x' s₁ s' hgrow' hqx
    · exact hqxs x' hx'

theorem push_drips (s : State) (i : Instance) : (s.push i).drips = s.drips ++ [i.name] := by
  rw [State.drips, push_keys, List.map_append]
  rfl

theorem grows_push {name : String} {args : Ty} {fields : List (String × Ty)} {d : Drip}
    (hd : prog.genericDrip name = some d)
    (hheads : ∀ f ∈ d.fields, ∀ n ∈ heads f.2, n ∈ s.drips) :
    Grows prog s (s.push ⟨name, args, fields⟩) := by
  have hdrips := push_drips s ⟨name, args, fields⟩
  have hgrows : s.drips <+: (s.push ⟨name, args, fields⟩).drips := by
    rw [hdrips]
    exact List.prefix_append _ _
  refine ⟨hgrows, List.prefix_rfl, id, fun ho => ?_, fun hs => ?_⟩
  · intro front outer back hsplit d' hd' f hf n hn
    rw [hdrips] at hsplit
    rcases List.eq_nil_or_concat back with rfl | ⟨back, x, rfl⟩
    · obtain ⟨hfront, hlast⟩ := List.append_inj' hsplit rfl
      obtain rfl := List.cons.inj hlast |>.1
      rw [hd] at hd'
      cases hd'
      rw [← hfront]
      exact hheads f hf n hn
    · have hinner : s.drips = front ++ outer :: back := by
        rw [List.concat_eq_append, ← List.cons_append, ← List.append_assoc] at hsplit
        exact (List.append_inj' hsplit rfl).1
      exact ho front outer back hinner d' hd' f hf n hn
  · intro job hjob f hf
    obtain ⟨hlen, hsig⟩ := hs job hjob f hf
    exact ⟨hlen, fun t ht n hn => hgrows.subset (hsig t ht n hn)⟩

theorem records_monoStruct (fuel : Nat) : Records prog (monoStruct prog fuel) := by
  induction fuel with
  | zero =>
    intro name args s s' h
    cases h
  | succ fuel ih =>
    intro name args s s' h
    rcases monoStruct_cases prog fuel name args s with ⟨hmem, hrun⟩ | ⟨text, hrun⟩ |
      ⟨d, hd, _, hrun⟩
    · rw [hrun] at h
      cases h
      exact ⟨.refl s, List.mem_map_of_mem hmem⟩
    · rw [hrun] at h
      cases h
    · rw [hrun] at h
      obtain ⟨fields, s₁, hfields, h⟩ := bind_ok.mp h
      cases h
      have hstep : ∀ f ∈ d.fields, ∀ s y s',
          (mapType prog (monoStruct prog fuel) (bindArgs d.generics args.list) f.2 >>= fun ty =>
            (pure (f.1, ty) : M (String × Ty))).run s = (.ok y, s') →
          Grows prog s s' ∧ ∀ n ∈ heads f.2, n ∈ s'.drips := by
        intro f _ s y s' h
        obtain ⟨ty, s₂, hty, h⟩ := bind_ok.mp h
        cases h
        exact mapType_grows ih hty
      obtain ⟨hgrow, hheads⟩ := mapM_grows hstep
        (fun f s s' hg hall n hn => hg.drips.subset (hall n hn)) hfields
      refine ⟨hgrow.trans (grows_push hd hheads), ?_⟩
      rw [push_drips]
      exact List.mem_append_right _ (List.mem_singleton_self _)

end Types

section Demands

variable {fuel : Nat} {subst : List (String × Ty)} {dm : Demand}

/-- The demand is met: its drips have instances, and so has the function it calls. -/
structure Met (prog : Program) (subst : List (String × Ty)) (dm : Demand) (s : State) : Prop where
  types : ∀ t ∈ dm.types, ∀ name ∈ heads t, name ∈ s.drips
  call : ∀ name args, dm = .call name args → (name, args.map (typeOf prog subst)) ∈ s.worklist

theorem Met.grows (h : Met prog subst dm s) (hg : Grows prog s s') : Met prog subst dm s' :=
  ⟨fun t ht n hn => hg.drips.subset (h.types t ht n hn),
    fun name args hdm => hg.worklist.subset (h.call name args hdm)⟩

theorem mapTypes_grows {ts : List Typ} {tys : List Ty}
    (h : (ts.mapM (mapType prog (monoStruct prog fuel) subst)).run s = (.ok tys, s')) :
    Grows prog s s' ∧ ∀ t ∈ ts, ∀ name ∈ heads t, name ∈ s'.drips := by
  have hstep : ∀ t ∈ ts, ∀ s ty s',
      (mapType prog (monoStruct prog fuel) subst t).run s = (.ok ty, s') →
      Grows prog s s' ∧ ∀ n ∈ heads t, n ∈ s'.drips :=
    fun t _ s ty s' h => mapType_grows (records_monoStruct fuel) h
  exact mapM_grows hstep (fun t s s' hg hall n hn => hg.drips.subset (hall n hn)) h

theorem signFn_grows {name : String} {f : GenericFn} {tys : List Ty}
    (hf : prog.genericFn name = some f)
    (h : (signFn prog fuel f name tys).run s = (.ok (), s')) :
    Grows prog s s' ∧ (name, tys) ∈ s'.worklist := by
  rcases signFn_cases prog fuel f name tys s with ⟨hmem, hrun⟩ | ⟨text, hrun⟩ | ⟨hlen, _, hrun⟩
  · rw [hrun] at h
    cases h
    exact ⟨.refl s, hmem⟩
  · rw [hrun] at h
    cases h
  · rw [hrun] at h
    obtain ⟨sig, s₁, hsig, h⟩ := bind_ok.mp h
    cases h
    obtain ⟨hgrow, hheads⟩ := mapTypes_grows hsig
    have hlast : (name, tys) ∈ (s₁.enqueue (name, tys)).worklist :=
      List.mem_append_right _ (List.mem_singleton_self _)
    have hpush : Grows prog s₁ (s₁.enqueue (name, tys)) := by
      refine ⟨List.prefix_rfl, List.prefix_append _ _, id, id, fun hs job hjob f' hf' => ?_⟩
      rcases List.mem_append.mp hjob with hjob | hjob
      · exact hs job hjob f' hf'
      · rw [List.mem_singleton.mp hjob] at hf' ⊢
        rw [hf] at hf'
        cases hf'
        exact ⟨hlen, hheads⟩
    exact ⟨hgrow.trans hpush, hlast⟩

/-- A demand whose errors are not dropped is met. -/
theorem ask_met (h : (ask prog fuel subst dm).run s = (.ok (), s')) (he : s'.erred = false) :
    Grows prog s s' ∧ Met prog subst dm s' := by
  cases dm with
  | type t =>
    obtain ⟨ty, s₁, hty, h⟩ := bind_ok.mp h
    cases h
    obtain ⟨hgrow, hheads⟩ := mapType_grows (records_monoStruct fuel) hty
    exact ⟨hgrow, List.forall_mem_singleton.mpr hheads, nofun⟩
  | tried t =>
    obtain ⟨res, s₁, hty, h⟩ := bind_ok.mp h
    cases res with
    | ok ty =>
      cases h
      obtain ⟨hgrow, hheads⟩ := mapType_grows (records_monoStruct fuel) (attempt_ok.mp hty)
      exact ⟨hgrow, List.forall_mem_singleton.mpr hheads, nofun⟩
    | error e =>
      cases e with
      | message text =>
        cases h
        cases he
      | unfinished => cases h
  | call name args =>
    rw [ask, monoFn] at h
    cases hf : prog.genericFn name with
    | none =>
      simp only [hf] at h
      cases h
    | some f =>
      simp only [hf] at h
      obtain ⟨tys, s₁, hargs, h⟩ := bind_ok.mp h
      obtain ⟨hgrow, hheads⟩ := mapTypes_grows hargs
      obtain ⟨hgrow', hjob⟩ := signFn_grows hf h
      rw [mapM_typeOf hargs] at hjob
      refine ⟨hgrow.trans hgrow', fun t ht n hn => hgrow'.drips.subset (hheads t ht n hn), ?_⟩
      rintro _ _ ⟨rfl, rfl⟩
      exact hjob

theorem askAll_met {dms : List Demand} (h : (askAll prog fuel subst dms).run s = (.ok (), s'))
    (he : s'.erred = false) : Grows prog s s' ∧ ∀ dm ∈ dms, Met prog subst dm s' := by
  induction dms generalizing s with
  | nil =>
    cases h
    exact ⟨.refl _, nofun⟩
  | cons dm dms ih =>
    obtain ⟨_, s₁, hdm, h⟩ := bind_ok.mp h
    obtain ⟨hgrow', hmet'⟩ := ih h
    obtain ⟨hgrow, hmet⟩ := ask_met hdm (hgrow'.erred he)
    refine ⟨hgrow.trans hgrow', fun x hx => ?_⟩
    rcases List.mem_cons.mp hx with rfl | hx
    · exact hmet.grows hgrow'
    · exact hmet' x hx

/-- The bodies of the first jobs have their demands met. -/
def Covered (prog : Program) (i : Nat) (s : State) : Prop :=
  ∀ k < i, ∀ job, s.worklist[k]? = some job → ∀ f, prog.genericFn job.1 = some f →
    ∀ dm ∈ f.body, Met prog (bindArgs f.generics job.2) dm s

theorem Covered.grows {i : Nat} (h : Covered prog i s) (hi : i ≤ s.worklist.length)
    (hg : Grows prog s s') : Covered prog i s' := by
  intro k hk job hjob f hf dm hdm
  have hold : s.worklist[k]? = some job := by
    obtain ⟨rest, hrest⟩ := hg.worklist
    rw [← hjob, ← hrest, List.getElem?_append_left (Nat.lt_of_lt_of_le hk hi)]
  exact (h k hk job hold f hf dm hdm).grows hg

/-- The rounds of the work-list: it is at its end, or one job is done. -/
theorem drain_cases {n i k : Nat} (h : (drain prog fuel n i).run s = (.ok k, s')) :
    (s.worklist.length ≤ i ∧ s' = s) ∨
      ∃ m job s₁, n = m + 1 ∧ s.worklist[i]? = some job ∧
        (lowerMonoFn prog fuel job).run s = (.ok (), s₁) ∧
        (drain prog fuel m (i + 1)).run s₁ = (.ok k, s') := by
  cases n with
  | zero =>
    have hrun : (drain prog fuel 0 i).run s =
      (if i < s.worklist.length then (fail .unfinished : M Nat) else pure i).run s := rfl
    by_cases hlt : i < s.worklist.length
    · rw [hrun, if_pos hlt] at h
      cases h
    · rw [hrun, if_neg hlt] at h
      cases h
      exact Or.inl ⟨Nat.le_of_not_lt hlt, rfl⟩
  | succ m =>
    have hrun : (drain prog fuel (m + 1) i).run s =
      (lowerNext prog fuel (drain prog fuel m (i + 1)) i s.worklist[i]?).run s := rfl
    rw [hrun] at h
    cases hjob : s.worklist[i]? with
    | none =>
      rw [hjob] at h
      cases h
      exact Or.inl ⟨List.getElem?_eq_none_iff.mp hjob, rfl⟩
    | some job =>
      rw [hjob] at h
      obtain ⟨_, s₁, hlow, hrest⟩ := bind_ok.mp h
      exact Or.inr ⟨m, job, s₁, rfl, rfl, hlow, hrest⟩

theorem lowerMonoFn_met {job : Job} (h : (lowerMonoFn prog fuel job).run s = (.ok (), s'))
    (he : s'.erred = false) : Grows prog s s' ∧ ∀ f, prog.genericFn job.1 = some f →
      ∀ dm ∈ f.body, Met prog (bindArgs f.generics job.2) dm s' := by
  rw [lowerMonoFn] at h
  cases hf : prog.genericFn job.1 with
  | none =>
    simp only [hf] at h
    cases h
  | some f =>
    simp only [hf] at h
    obtain ⟨hgrow, hmet⟩ := askAll_met h he
    refine ⟨hgrow, fun f' hf' => ?_⟩
    cases hf'
    exact hmet

theorem drain_grows {n i k : Nat} (h : (drain prog fuel n i).run s = (.ok k, s'))
    (he : s'.erred = false) : Grows prog s s' := by
  induction n generalizing s i with
  | zero =>
    obtain ⟨_, rfl⟩ | ⟨m, _, _, hn, _⟩ := drain_cases h
    · exact .refl _
    · cases hn
  | succ n ih =>
    obtain ⟨_, rfl⟩ | ⟨m, job, s₁, hn, _, hlow, hrest⟩ := drain_cases h
    · exact .refl _
    · cases hn
      have hgrow := ih hrest
      exact (lowerMonoFn_met hlow (hgrow.erred he)).1.trans hgrow

/-- Once the work-list is at its end, every job is covered. -/
theorem drain_covers {n i k : Nat} (h : (drain prog fuel n i).run s = (.ok k, s'))
    (he : s'.erred = false) (hi : i ≤ s.worklist.length) (hcov : Covered prog i s) :
    Covered prog s'.worklist.length s' := by
  induction n generalizing s i with
  | zero =>
    obtain ⟨hend, rfl⟩ | ⟨m, _, _, hn, _⟩ := drain_cases h
    · rwa [Nat.le_antisymm hi hend] at hcov
    · cases hn
  | succ n ih =>
    obtain ⟨hend, rfl⟩ | ⟨m, job, s₁, hn, hjob, hlow, hrest⟩ := drain_cases h
    · rwa [Nat.le_antisymm hi hend] at hcov
    · cases hn
      have he₁ := (drain_grows hrest he).erred he
      obtain ⟨hgrow, hmet⟩ := lowerMonoFn_met hlow he₁
      have hlt := (List.getElem?_eq_some_iff.mp hjob).1
      have hat : s₁.worklist[i]? = some job := by
        obtain ⟨rest, hsplit⟩ := hgrow.worklist
        rw [← hsplit, List.getElem?_append_left hlt, hjob]
      refine ih hrest (Nat.le_trans hlt hgrow.worklist.length_le) fun k hk job' hjob' f hf => ?_
      rcases Nat.lt_succ_iff_lt_or_eq.mp hk with hk | rfl
      · exact hcov.grows hi hgrow k hk job' hjob' f hf
      · rw [hat] at hjob'
        cases hjob'
        exact hmet f hf

end Demands

/-- What a run that ends without an error leaves. -/
structure Closed (prog : Program) (s : State) : Prop where
  roots : ∀ dm ∈ prog.roots, Met prog [] dm s
  jobs : ∀ job ∈ s.worklist, ∀ f, prog.genericFn job.1 = some f → ∀ dm ∈ f.body,
    Met prog (bindArgs f.generics job.2) dm s
  ordered : Ordered prog s
  signed : Signed prog s

theorem closed_of_lower {fuel n k : Nat} (h : (lower prog fuel n).run .start = (.ok k, s))
    (he : s.erred = false) : Closed prog s := by
  obtain ⟨_, s₁, hroots, hdrain⟩ := bind_ok.mp h
  have hgrow := drain_grows hdrain he
  obtain ⟨hgrow₁, hmet⟩ := askAll_met hroots (hgrow.erred he)
  have hcov : Covered prog 0 s₁ := fun k hk => absurd hk (Nat.not_lt_zero k)
  have hall := drain_covers hdrain he (Nat.zero_le _) hcov
  have hordered : Ordered prog .start := fun front outer back hsplit => by cases front <;> cases hsplit
  have hsigned : Signed prog .start := fun job hjob => by cases hjob
  refine ⟨fun dm hdm => (hmet dm hdm).grows hgrow, fun job hjob f hf dm hdm => ?_,
    hgrow.ordered (hgrow₁.ordered hordered), hgrow.signed (hgrow₁.signed hsigned)⟩
  obtain ⟨k, hk⟩ := List.mem_iff_getElem?.mp hjob
  exact hall k (List.getElem?_eq_some_iff.mp hk).1 job hk f hf dm hdm

section Measures

/-- The call of a demand made has its instance. -/
theorem Closed.met {dm : Demand} (h : Closed prog s) (hmade : Made prog dm) :
    ∃ subst, Met prog subst dm s := by
  induction hmade with
  | root hdm => exact ⟨[], h.roots _ hdm⟩
  | body _ hf hdm ih =>
    obtain ⟨subst, hmet⟩ := ih
    exact ⟨_, h.jobs _ (hmet.call _ _ rfl) _ hf _ hdm⟩

theorem Closed.asked {name : String} (h : Closed prog s) (hasked : Asked prog name) :
    name ∈ s.drips := by
  induction hasked with
  | demand hmade ht hn =>
    obtain ⟨_, hmet⟩ := h.met hmade
    exact hmet.types _ ht _ hn
  | sig hmade hf ht hn =>
    obtain ⟨_, hmet⟩ := h.met hmade
    exact (h.signed _ (hmet.call _ _ rfl) _ hf).2 _ ht _ hn
  | field _ hd hf hn ih =>
    obtain ⟨front, back, hsplit, _⟩ := List.eq_append_cons_of_mem ih
    rw [hsplit]
    exact List.mem_append_left _ (h.ordered front _ back hsplit _ hd _ hf _ hn)

theorem Closed.rank {outer : String} {d : Drip} (h : Closed prog s) (hasked : Asked prog outer)
    (hd : prog.genericDrip outer = some d) {f : String × Typ} (hf : f ∈ d.fields) {name : String}
    (hn : name ∈ heads f.2) : s.drips.idxOf name < s.drips.idxOf outer := by
  obtain ⟨front, back, hsplit, hfirst⟩ := List.eq_append_cons_of_mem (h.asked hasked)
  have hname := h.ordered front outer back hsplit d hd f hf name hn
  rw [hsplit, List.idxOf_append, if_pos hname, List.idxOf_append, if_neg hfirst]
  exact Nat.lt_of_lt_of_le (List.idxOf_lt_length_of_mem hname) (Nat.le_add_left _ _)

/-- The size of the type argument for a parameter. -/
noncomputable def argSize (prog : Program) (q : String) (job : Job) : Nat :=
  ((prog.genericFn job.1).bind fun f => (bindArgs f.generics job.2).lookup q).elim 0 sizeOf

noncomputable def levelAt (prog : Program) (s : State) (fn q : String) : Nat :=
  (s.worklist.toFinset.filter fun job => job.1 = fn).sup (argSize prog q)

theorem size_typeOf_lt {subst : List (String × Ty)} {q : String} {ty : Ty} {a : Typ}
    (hl : subst.lookup q = some ty) (hq : q ∈ names a) (ha : a ≠ .named q) :
    sizeOf ty < sizeOf (typeOf prog subst a) := by
  have hle : ∀ e, q ∈ names e → (e ≠ .named q → sizeOf ty < sizeOf (typeOf prog subst e)) →
      sizeOf ty ≤ sizeOf (typeOf prog subst e) := by
    intro e _ hlt
    by_cases he : e = .named q
    · rw [he, typeOf, hl, Option.some_or, Option.getD_some]
    · exact Nat.le_of_lt (hlt he)
  induction a with
  | named name => exact absurd (congrArg Typ.named (List.mem_singleton.mp hq).symm) ha
  | inst name e ih | vec e ih | slice e ih | array e n ih | tag e ih | crib e ih | soa e ih =>
    have hsub := hle e hq (ih hq)
    simp [typeOf]
    omega
  | stash a b iha ihb | tuple a b iha ihb =>
    rcases List.mem_append.mp hq with hq | hq
    · have hsub := hle a hq (iha hq)
      simp [typeOf]
      omega
    · have hsub := hle b hq (ihb hq)
      simp [typeOf]
      omega
  | finna params ret ihp ihr =>
    rcases List.mem_append.mp hq with hq | hq
    · have hsub := hle params hq (ihp hq)
      simp [typeOf]
      omega
    · by_cases hv : isVoid ret = true
      · rw [if_pos hv] at hq
        cases hq
      · rw [if_neg hv] at hq
        have hsub := hle ret hq (ihr hq)
        simp [typeOf, hv]
        omega
  | rawptr | nada => cases hq

theorem lookup_bindArgs_exists {generics : List String} {args : List Ty} {q : String}
    (hlen : generics.length = args.length) (hq : q ∈ generics) :
    ∃ ty, (bindArgs generics args).lookup q = some ty := by
  rw [← List.map_fst_zip (Nat.le_of_eq hlen)] at hq
  obtain ⟨pair, hpair, rfl⟩ := List.mem_map.mp hq
  exact Option.isSome_iff_exists.mp (List.lookup_isSome_iff.mpr
    ⟨pair, List.mem_reverse.mpr hpair, beq_self_eq_true _⟩)

theorem argSize_eq {q : String} {job : Job} {f : GenericFn} {ty : Ty}
    (hf : prog.genericFn job.1 = some f) (hl : (bindArgs f.generics job.2).lookup q = some ty) :
    argSize prog q job = sizeOf ty := by
  rw [argSize, hf, Option.bind_some, hl]
  rfl

theorem argSize_le (prog : Program) (q : String) {job : Job} (hjob : job ∈ s.worklist) :
    argSize prog q job ≤ levelAt prog s job.1 q :=
  Finset.le_sup (Finset.mem_filter.mpr ⟨List.mem_toFinset.mpr hjob, rfl⟩)

/-- Every instance that makes a call makes one with an argument of its size, or a larger one. -/
theorem Closed.level (h : Closed prog s) {fn : String} {fnArgs : List Typ} {f : GenericFn}
    (hmade : Made prog (.call fn fnArgs)) (hf : prog.genericFn fn = some f) {name : String}
    {args : List Typ} {g : GenericFn} (hcall : .call name args ∈ f.body)
    (hg : prog.genericFn name = some g) {p q : String} {a : Typ}
    (ha : (bindArgs g.generics args).lookup p = some a) (hq : q ∈ names a) (hqf : q ∈ f.generics) :
    levelAt prog s fn q ≤ levelAt prog s name p ∧
      (a ≠ .named q → levelAt prog s fn q < levelAt prog s name p) := by
  have hjobs : ∀ job ∈ s.worklist, job.1 = fn → argSize prog q job ≤ levelAt prog s name p ∧
      (a ≠ .named q → argSize prog q job < levelAt prog s name p) := by
    rintro job hjob rfl
    obtain ⟨ty, hty⟩ := lookup_bindArgs_exists (h.signed job hjob f hf).1 hqf
    have hnext := (h.jobs job hjob f hf _ hcall).call name args rfl
    have hsub : (bindArgs g.generics (args.map (typeOf prog (bindArgs f.generics job.2)))).lookup p =
        some (typeOf prog (bindArgs f.generics job.2) a) := by
      rw [lookup_bindArgs_map, ha, Option.map_some]
    have hle := argSize_le prog p hnext
    rw [argSize_eq hg hsub] at hle
    rw [argSize_eq hf hty]
    constructor
    · by_cases hbare : a = .named q
      · rw [hbare, typeOf, hty, Option.some_or, Option.getD_some] at hle
        exact hle
      · exact Nat.le_trans (Nat.le_of_lt (size_typeOf_lt hty hq hbare)) hle
    · exact fun hbare => Nat.lt_of_lt_of_le (size_typeOf_lt hty hq hbare) hle
  constructor
  · refine Finset.sup_le fun job hjob => ?_
    obtain ⟨hmem, hname⟩ := Finset.mem_filter.mp hjob
    exact (hjobs job (List.mem_toFinset.mp hmem) hname).1
  · intro hbare
    obtain ⟨subst, hmet⟩ := h.met hmade
    have hfirst := (hjobs _ (hmet.call fn fnArgs rfl) rfl).2 hbare
    refine (Finset.sup_lt_iff (Nat.lt_of_le_of_lt (Nat.zero_le _) hfirst)).mpr fun job hjob => ?_
    obtain ⟨hmem, hname⟩ := Finset.mem_filter.mp hjob
    exact (hjobs job (List.mem_toFinset.mp hmem) hname).2 hbare

end Measures

/-- A run that ends without an error has given ranks and levels. -/
theorem ranked_of_closed (h : Closed prog s) :
    Ranked prog (fun name => s.drips.idxOf name) (levelAt prog s) := by
  refine ⟨fun outer d hasked hd f hf name hn => h.rank hasked hd hf hn, ?_⟩
  intro fn fnArgs f hmade hf name args g hcall hg p a ha q hq hqf
  exact h.level hmade hf hcall hg ha hq hqf

/-- Where no drip leads back to itself and no type argument grows around a cycle, specialization
ends; of the programs without an error it ends for no others. -/
theorem specialization_ends (prog : Program) :
    (Stratified prog → Ends prog) ∧ (Flawless prog → (Ends prog ↔ Stratified prog)) := by
  have hends : Stratified prog → Ends prog := by
    rintro ⟨rank, level, hr⟩
    exact ends_of_ranked hr
  refine ⟨hends, fun hflawless => ⟨?_, hends⟩⟩
  rintro ⟨fuel, n, hended⟩
  obtain ⟨herred, hmessage⟩ := hflawless fuel n
  cases hrun : (lower prog fuel n).run .start with
  | mk res s =>
    rw [hrun] at hended herred hmessage
    cases res with
    | ok k => exact ⟨_, _, ranked_of_closed (closed_of_lower hrun herred)⟩
    | error e =>
      cases e with
      | message text => exact absurd rfl (hmessage text)
      | unfinished => exact hended.elim

def plainInt (name : String) : Option Ty := if name = "int" then some (.int .w64 true) else none

/-- `drip Pair[T] { a: T, b: T }`, a function `both[T]` that calls `one[Pair[T]]`, and a call
`both[int]`. -/
def pairs : Program where
  drips := [⟨"Pair", ["T"], [("a", .named "T"), ("b", .named "T")]⟩]
  fns := [⟨"both", ["T"], [], [.call "one" [.inst "Pair" (.tuple (.named "T") .nada)]]⟩,
    ⟨"one", ["U"], [.named "U"], []⟩]
  roots := [.call "both" [.named "int"]]
  plain := plainInt
  soaField _ := none
  structName _ := ""

theorem pairs_end : Ends pairs := by
  refine (specialization_ends pairs).1
    ⟨fun _ => 0, fun fn _ => if fn = "one" then 1 else 0, ?_, ?_⟩
  · intro outer d _ hd f hf name hn
    have hmem := List.mem_of_find?_eq_some hd
    simp only [pairs, List.reverse_singleton, List.mem_singleton] at hmem
    subst hmem
    simp only [List.mem_cons, List.not_mem_nil, or_false] at hf
    rcases hf with rfl | rfl <;> cases hn
  · intro fn fnArgs f _ hf name args g hcall _ p a _ q _ _
    obtain ⟨hmem, rfl⟩ := genericFn_mem hf
    simp only [pairs, List.mem_cons, List.not_mem_nil, or_false] at hmem
    rcases hmem with rfl | rfl
    · simp only [List.mem_singleton, Demand.call.injEq] at hcall
      obtain ⟨rfl, -⟩ := hcall
      exact ⟨by decide, fun _ => by decide⟩
    · cases hcall

/-- `drip List[T] { next: tag List[T] }`, and a use of `List[int]`. -/
def lists : Program where
  drips := [⟨"List", ["T"], [("next", .tag (.inst "List" (.tuple (.named "T") .nada)))]⟩]
  fns := []
  roots := [.type (.inst "List" (.tuple (.named "int") .nada))]
  plain := plainInt
  soaField _ := none
  structName _ := ""

theorem list_unfinished (fuel : Nat) :
    (monoStruct lists fuel "List" (.tuple (.int .w64 true) .void)).run .start =
      (.error .unfinished, .start) := by
  induction fuel with
  | zero => rfl
  | succ fuel ih =>
    have hmapped : (mapType lists (monoStruct lists fuel) [("T", .int .w64 true)]
        (.tag (.inst "List" (.tuple (.named "T") .nada)))).run .start =
        (.error .unfinished, .start) := by
      simp [mapType, namedType, run_bind, ih, -bind_pure_comp]
    have hfields : (mapFields lists (monoStruct lists fuel)
        ⟨"List", ["T"], [("next", .tag (.inst "List" (.tuple (.named "T") .nada)))]⟩
        (.tuple (.int .w64 true) .void)).run .start = (.error .unfinished, .start) := by
      simp [mapFields, bindArgs, Ty.list, run_bind, hmapped, -bind_pure_comp]
    have hdrip : lists.genericDrip "List" =
        some ⟨"List", ["T"], [("next", .tag (.inst "List" (.tuple (.named "T") .nada)))]⟩ := by
      simp [Program.genericDrip, lists]
    have hget : (Stateful.get : M State).run .start = (.ok .start, .start) := rfl
    have hkeys : State.start.keys = [] := rfl
    simp [monoStruct, hget, hkeys, newInstance, hdrip, Ty.list, run_bind, hfields]

/-- The fields of an instance ask for the instance, which is not recorded yet. -/
theorem lists_never_end : ¬Ends lists := by
  rintro ⟨fuel, n, hended⟩
  have hrun : (lower lists fuel n).run .start = (.error .unfinished, .start) := by
    have hint : namedType lists [] "int" = (return .int .w64 true) := rfl
    have hasked : (ask lists fuel []
        (.type (.inst "List" (.tuple (.named "int") .nada)))).run .start =
        (.error .unfinished, .start) := by
      simp [ask, mapType, hint, run_bind, list_unfinished, -bind_pure_comp]
    have hroots : lists.roots = [.type (.inst "List" (.tuple (.named "int") .nada))] := rfl
    simp [lower, hroots, askAll, run_bind, hasked]
  rw [hrun] at hended
  exact hended

end BetLang.Specialize
