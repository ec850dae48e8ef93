import BetLang.Specialize
import Mathlib.Data.Set.Finite.List
import Mathlib.Data.Set.Finite.Lattice

/-! Ranks bound the depth of the drips that are mapped at a time, levels the number of the
functions' instances. -/

namespace BetLang.Specialize

open Dispatch (Drip Ty Typ)
open Stateful

variable {prog : Program} {rank : String → Nat} {level : String → String → Nat} {s s' s'' : State}

section Types

variable {r r' : Nat} {α β : Type}

/-- What mapping types does whose drips lie below a rank. -/
structure Adds (rank : String → Nat) (r : Nat) (s s' : State) : Prop where
  worklist : s'.worklist = s.worklist
  below : ∀ key ∈ s'.keys, key ∈ s.keys ∨ rank key.1 < r
  nodup : s.keys.Nodup → s'.keys.Nodup

theorem Adds.refl (s : State) : Adds rank r s s := ⟨rfl, fun _ h => Or.inl h, id⟩

theorem Adds.trans (h : Adds rank r s s') (h' : Adds rank r s' s'') : Adds rank r s s'' := by
  refine ⟨h'.worklist.trans h.worklist, fun key hkey => ?_, fun hs => h'.nodup (h.nodup hs)⟩
  rcases h'.below key hkey with hkey | hkey
  · exact h.below key hkey
  · exact Or.inr hkey

theorem Adds.mono (h : Adds rank r s s') (hr : r ≤ r') : Adds rank r' s s' :=
  ⟨h.worklist, fun key hkey => (h.below key hkey).imp_right fun hlt =>
    Nat.lt_of_lt_of_le hlt hr, h.nodup⟩

def Safe (rank : String → Nat) (r : Nat) (x : M α) : Prop :=
  ∀ s, (x.run s).1 ≠ .error .unfinished ∧ Adds rank r s (x.run s).2

theorem safe_pure (a : α) : Safe rank r (pure a : M α) := by
  intro s
  rw [run_pure]
  exact ⟨nofun, .refl s⟩

theorem safe_message (text : String) : Safe rank r (message text : M α) :=
  fun s => ⟨nofun, .refl s⟩

theorem Safe.bind {x : M α} {f : α → M β} (hx : Safe rank r x) (hf : ∀ a, Safe rank r (f a)) :
    Safe rank r (x >>= f) := by
  intro s
  obtain ⟨hfuel, hadds⟩ := hx s
  rw [run_bind]
  cases hrun : x.run s with
  | mk res s₁ =>
    rw [hrun] at hfuel hadds
    cases res with
    | ok a =>
      obtain ⟨hfuel', hadds'⟩ := hf a s₁
      exact ⟨hfuel', hadds.trans hadds'⟩
    | error e => exact ⟨fun h => hfuel (by cases h; rfl), hadds⟩

theorem safe_mapM {f : α → M β} {xs : List α} (h : ∀ x ∈ xs, Safe rank r (f x)) :
    Safe rank r (xs.mapM f) := by
  induction xs with
  | nil => exact safe_pure []
  | cons x xs ih =>
    rw [List.mapM_cons]
    exact (h x List.mem_cons_self).bind fun y =>
      (ih fun x' hx' => h x' (List.mem_cons_of_mem _ hx')).bind fun ys => safe_pure _

theorem safe_checkSoa (inner : Ty) : Safe rank r (checkSoa prog inner) := by
  intro s
  obtain hrun | ⟨text, hrun⟩ := checkSoa_run prog inner s
  · rw [hrun]
    exact ⟨nofun, .refl s⟩
  · rw [hrun]
    exact ⟨nofun, .refl s⟩

theorem safe_namedType {subst : List (String × Ty)} (name : String) :
    Safe rank r (namedType prog subst name) := by
  simp only [namedType]
  cases (subst.lookup name).or (prog.plain name) with
  | none => exact safe_message _
  | some t => exact safe_pure t

theorem safe_mapType {mono : String → Ty → M Unit} {subst : List (String × Ty)} {t : Typ}
    (h : ∀ name ∈ heads t, ∀ args, Safe rank r (mono name args)) :
    Safe rank r (mapType prog mono subst t) := by
  induction t with
  | named name => exact safe_namedType name
  | inst name args ih =>
    exact (ih fun n hn => h n (List.mem_cons_of_mem _ hn)).bind fun args' =>
      (h name List.mem_cons_self args').bind fun _ => safe_pure _
  | vec e ih | slice e ih | tag e ih | crib e ih => exact (ih h).bind fun e' => safe_pure _
  | array e n ih => exact (ih h).bind fun e' => safe_pure _
  | stash a b iha ihb | tuple a b iha ihb =>
    exact (iha fun n hn => h n (List.mem_append_left _ hn)).bind fun a' =>
      (ihb fun n hn => h n (List.mem_append_right _ hn)).bind fun b' => safe_pure _
  | soa inner ih => exact (ih h).bind fun e' => (safe_checkSoa e').bind fun _ => safe_pure _
  | finna params ret ihp ihr =>
    refine (ihp fun n hn => h n (List.mem_append_left _ hn)).bind fun p' => ?_
    by_cases hv : isVoid ret = true
    · rw [if_pos hv]
      exact safe_pure _
    · rw [if_neg hv]
      have hret : ∀ n ∈ heads ret, ∀ args, Safe rank r (mono n args) := fun n hn =>
        h n (List.mem_append_right _ (by rw [if_neg hv]; exact hn))
      exact (ihr hret).bind fun r' => safe_pure _
  | rawptr | nada => exact safe_pure _

/-- The fields of a drip have lower ranks, so the fuel lasts, and no instance of the drip itself
comes up in between. -/
theorem safe_monoStruct (hr : Ranked prog rank level) {fuel : Nat} {name : String} (args : Ty)
    (hasked : Asked prog name) (hfuel : rank name < fuel) (hlt : rank name < r) :
    Safe rank r (monoStruct prog fuel name args) := by
  induction fuel generalizing name r args with
  | zero => cases hfuel
  | succ fuel ih =>
    intro s
    rcases monoStruct_cases prog fuel name args s with ⟨_, hrun⟩ | ⟨text, hrun⟩ |
      ⟨d, hd, hnew, hrun⟩
    · rw [hrun]
      exact ⟨nofun, .refl s⟩
    · rw [hrun]
      exact ⟨nofun, .refl s⟩
    · have hfields : Safe rank (rank name) (mapFields prog (monoStruct prog fuel) d args) := by
        refine safe_mapM fun f hf => (safe_mapType fun inner hin args' => ?_).bind fun ty =>
          safe_pure _
        have hlow := hr.drips name d hasked hd f hf inner hin
        exact ih args' (.field hasked hd hf hin) (by omega) hlow
      obtain ⟨hfin, hadds⟩ := hfields s
      rw [hrun, run_bind]
      cases hmap : (mapFields prog (monoStruct prog fuel) d args).run s with
      | mk res s₁ =>
        rw [hmap] at hfin hadds
        cases res with
        | error e => exact ⟨fun h => hfin (by cases h; rfl), hadds.mono (Nat.le_of_lt hlt)⟩
        | ok fields =>
          have hfinal : Adds rank r s (s₁.push ⟨name, args, fields⟩) := by
            refine ⟨hadds.worklist, fun key hkey => ?_, fun hnodup => ?_⟩
            · rw [push_keys] at hkey
              rcases List.mem_append.mp hkey with hkey | hkey
              · exact (hadds.mono (Nat.le_of_lt hlt)).below key hkey
              · rw [List.mem_singleton.mp hkey]
                exact Or.inr hlt
            · have hfresh : (name, args) ∉ s₁.keys := fun hkey =>
                (hadds.below _ hkey).elim hnew (Nat.lt_irrefl _)
              rw [push_keys, ← List.concat_eq_append]
              exact (hadds.nodup hnodup).concat hfresh
          exact ⟨nofun, hfinal⟩

end Types

section Values

/-- The types that `t` can be when its parameters are among `u`. -/
def reach (prog : Program) (u : Set Ty) : Typ → Set Ty
  | .named name => insert ((prog.plain name).getD .void) u
  | .inst name args => Ty.inst name '' reach prog u args
  | .vec e => Ty.vec '' reach prog u e
  | .stash k v => Set.image2 Ty.map (reach prog u k) (reach prog u v)
  | .slice e => Ty.slice '' reach prog u e
  | .array e n => (Ty.array · n) '' reach prog u e
  | .tag e => Ty.tag '' reach prog u e
  | .crib e => Ty.crib '' reach prog u e
  | .soa inner => Ty.soa '' reach prog u inner
  | .finna params ret => Set.image2 Ty.fnPtr (reach prog u params)
      (if isVoid ret then {.void} else (Ty.tuple · .void) '' reach prog u ret)
  | .rawptr => {.rawPtr}
  | .nada => {.void}
  | .tuple a b => Set.image2 Ty.tuple (reach prog u a) (reach prog u b)

theorem typeOf_mem_reach {u : Set Ty} {subst : List (String × Ty)} {t : Typ}
    (h : ∀ q ∈ names t, ∀ ty, subst.lookup q = some ty → ty ∈ u) :
    typeOf prog subst t ∈ reach prog u t := by
  induction t with
  | named name =>
    cases hl : subst.lookup name with
    | none =>
      rw [typeOf, hl, Option.none_or]
      exact Set.mem_insert _ _
    | some ty =>
      rw [typeOf, hl, Option.some_or, Option.getD_some]
      exact Set.mem_insert_of_mem _ (h name (List.mem_singleton_self name) ty hl)
  | inst name e ih | array e n ih => exact Set.mem_image_of_mem _ (ih h)
  | vec e ih | slice e ih | tag e ih | crib e ih | soa e ih => exact Set.mem_image_of_mem _ (ih h)
  | stash a b iha ihb | tuple a b iha ihb =>
    exact Set.mem_image2_of_mem (iha fun q hq => h q (List.mem_append_left _ hq))
      (ihb fun q hq => h q (List.mem_append_right _ hq))
  | finna params ret ihp ihr =>
    refine Set.mem_image2_of_mem (ihp fun q hq => h q (List.mem_append_left _ hq)) ?_
    by_cases hv : isVoid ret = true
    · rw [if_pos hv, if_pos hv]
      rfl
    · rw [if_neg hv, if_neg hv]
      exact Set.mem_image_of_mem _
        (ihr fun q hq => h q (List.mem_append_right _ (by rw [if_neg hv]; exact hq)))
  | rawptr | nada => rfl

theorem finite_reach {u : Set Ty} (hu : u.Finite) (t : Typ) : (reach prog u t).Finite := by
  induction t with
  | named name => exact hu.insert _
  | inst name e ih | array e n ih => exact ih.image _
  | vec e ih | slice e ih | tag e ih | crib e ih | soa e ih => exact ih.image _
  | stash a b iha ihb | tuple a b iha ihb => exact iha.image2 _ ihb
  | finna params ret ihp ihr =>
    refine ihp.image2 _ ?_
    by_cases hv : isVoid ret = true
    · rw [if_pos hv]
      exact Set.finite_singleton _
    · rw [if_neg hv]
      exact ihr.image _
  | rawptr | nada => exact Set.finite_singleton _

def Demand.args : Demand → List Typ
  | .call _ args => args
  | _ => []

/-- Every demand that is written down somewhere. -/
def Program.demands (prog : Program) : List Demand := prog.roots ++ prog.fns.flatMap (·.body)

def Program.callArgs (prog : Program) : List Typ := prog.demands.flatMap Demand.args

/-- The type arguments that `n` calls, one from the other, can make. -/
def values (prog : Program) : Nat → Set Ty
  | 0 => ∅
  | n + 1 => values prog n ∪ ⋃ a ∈ {a | a ∈ prog.callArgs}, reach prog (values prog n) a

theorem finite_values (n : Nat) : (values prog n).Finite := by
  induction n with
  | zero => exact Set.finite_empty
  | succ n ih =>
    exact ih.union ((List.finite_toSet prog.callArgs).biUnion fun a _ => finite_reach ih a)

theorem values_mono {m n : Nat} (h : m ≤ n) : values prog m ⊆ values prog n := by
  induction h with
  | refl => exact subset_rfl
  | step _ ih => exact ih.trans Set.subset_union_left

theorem genericFn_mem {name : String} {f : GenericFn} (h : prog.genericFn name = some f) :
    f ∈ prog.fns ∧ f.name = name := by
  have hname := List.find?_some h
  exact ⟨List.mem_reverse.mp (List.mem_of_find?_eq_some h), of_decide_eq_true hname⟩

theorem Made.mem {dm : Demand} (h : Made prog dm) : dm ∈ prog.demands := by
  cases h with
  | root h => exact List.mem_append_left _ h
  | body h hf hdm =>
    exact List.mem_append_right _ (List.mem_flatMap.mpr ⟨_, (genericFn_mem hf).1, hdm⟩)

theorem typeOf_mem_values {n : Nat} {name : String} {args : List Typ} {a : Typ}
    {subst : List (String × Ty)} (h : Made prog (.call name args)) (ha : a ∈ args)
    (hsub : ∀ q ∈ names a, ∀ ty, subst.lookup q = some ty → ty ∈ values prog n) :
    typeOf prog subst a ∈ values prog (n + 1) := by
  have hargs : a ∈ prog.callArgs := List.mem_flatMap.mpr ⟨_, h.mem, ha⟩
  exact Set.mem_union_right _ (Set.mem_biUnion hargs (typeOf_mem_reach hsub))

end Values

section Jobs

variable {bound : Nat} {subst : List (String × Ty)} {dm : Demand}

/-- The parameters that a demand is under, at their levels. -/
structure Feeds (prog : Program) (level : String → String → Nat) (bound : Nat)
    (subst : List (String × Ty)) (dm : Demand) : Prop where
  all : ∀ q ty, subst.lookup q = some ty → ty ∈ values prog (bound + 1)
  call : ∀ name args g, dm = .call name args → prog.genericFn name = some g →
    ∀ p a, (bindArgs g.generics args).lookup p = some a →
    ∀ q ∈ names a, ∀ ty, subst.lookup q = some ty →
      ty ∈ values prog (level name p + 1) ∧ (a ≠ .named q → ty ∈ values prog (level name p))

/-- The type arguments of an instance are at the levels of its parameters. -/
structure Fits (prog : Program) (level : String → String → Nat) (bound : Nat) (job : Job)
    (f : GenericFn) : Prop where
  fn : prog.genericFn job.1 = some f
  made : ∃ args, Made prog (.call job.1 args)
  length : f.generics.length = job.2.length
  level : ∀ p ty, (bindArgs f.generics job.2).lookup p = some ty →
    ty ∈ values prog (level job.1 p + 1)
  all : ∀ ty ∈ job.2, ty ∈ values prog (bound + 2)

theorem lookup_map {α β : Type} (f : α → β) (l : List (String × α)) (p : String) :
    (l.map (Prod.map id f)).lookup p = (l.lookup p).map f := by
  induction l with
  | nil => rfl
  | cons x l ih =>
    rw [List.map_cons, List.lookup_cons, List.lookup_cons]
    cases hx : p == x.1 with
    | true => simp [hx]
    | false => simp [hx, ih]

theorem lookup_bindArgs_map {α β : Type} (f : α → β) (generics : List String) (args : List α)
    (p : String) :
    (bindArgs generics (args.map f)).lookup p = ((bindArgs generics args).lookup p).map f := by
  rw [bindArgs, List.zip_map_right, ← List.map_reverse, lookup_map, bindArgs]

theorem lookup_bindArgs_mem {α : Type} {generics : List String} {args : List α} {p : String} {a : α}
    (h : (bindArgs generics args).lookup p = some a) : p ∈ generics ∧ a ∈ args := by
  obtain ⟨front, back, hsplit, _⟩ := List.lookup_eq_some_iff.mp h
  have hmem : (p, a) ∈ bindArgs generics args := by
    rw [hsplit]
    exact List.mem_append_right _ List.mem_cons_self
  exact List.of_mem_zip (List.mem_reverse.mp hmem)

theorem mapM_typeOf {mono : String → Ty → M Unit} {ts : List Typ} {tys : List Ty}
    (h : (ts.mapM (mapType prog mono subst)).run s = (.ok tys, s')) :
    tys = ts.map (typeOf prog subst) := by
  induction ts generalizing s tys with
  | nil =>
    cases h
    rfl
  | cons t ts ih =>
    rw [List.mapM_cons] at h
    obtain ⟨ty, s₁, ht, h⟩ := bind_ok.mp h
    obtain ⟨tys', s₂, hts, h⟩ := bind_ok.mp h
    cases h
    rw [mapType_typeOf ht, ih hts, List.map_cons]

/-- The instance that a call makes fits. -/
theorem Feeds.fits {name : String} {args : List Typ} {g : GenericFn}
    (h : Feeds prog level bound subst (.call name args)) (hmade : Made prog (.call name args))
    (hg : prog.genericFn name = some g) (hlen : g.generics.length = args.length) :
    Fits prog level bound (name, args.map (typeOf prog subst)) g := by
  refine ⟨hg, ⟨args, hmade⟩, by rw [List.length_map, hlen], fun p ty hty => ?_, fun ty hty => ?_⟩
  · rw [lookup_bindArgs_map, Option.map_eq_some_iff] at hty
    obtain ⟨a, ha, rfl⟩ := hty
    have hmem := (lookup_bindArgs_mem ha).2
    have hq := h.call name args g rfl hg p a ha
    by_cases hbare : ∃ q ty, a = .named q ∧ subst.lookup q = some ty
    · obtain ⟨q, ty, rfl, hl⟩ := hbare
      have htype : typeOf prog subst (.named q) = ty := by
        rw [typeOf, hl, Option.some_or, Option.getD_some]
      rw [htype]
      exact (hq q (List.mem_singleton_self q) ty hl).1
    · refine typeOf_mem_values hmade hmem fun q hqa ty hl => (hq q hqa ty hl).2 ?_
      rintro rfl
      exact hbare ⟨q, ty, rfl, hl⟩
  · obtain ⟨a, ha, rfl⟩ := List.mem_map.mp hty
    exact typeOf_mem_values hmade ha fun q _ ty hl => h.all q ty hl

theorem feeds_nil (dm : Demand) : Feeds prog level bound [] dm := by
  refine ⟨?_, ?_⟩
  · intro q ty h
    cases h
  · intro name args g _ _ p a _ q _ ty h
    cases h

/-- The demands of an instance's body are under parameters at their levels. -/
theorem Fits.feeds (hr : Ranked prog rank level)
    (hbound : ∀ f ∈ prog.fns, ∀ q ∈ f.generics, level f.name q ≤ bound) {job : Job} {f : GenericFn}
    (h : Fits prog level bound job f) (hdm : dm ∈ f.body) :
    Feeds prog level bound (bindArgs f.generics job.2) dm := by
  obtain ⟨hmem, hname⟩ := genericFn_mem h.fn
  obtain ⟨fnArgs, hmade⟩ := h.made
  constructor
  · intro q ty hl
    have hq := hbound f hmem q (lookup_bindArgs_mem hl).1
    rw [hname] at hq
    exact values_mono (Nat.succ_le_succ hq) (h.level q ty hl)
  · rintro name args g rfl hg p a ha q hqa ty hl
    obtain ⟨hle, hlt⟩ :=
      hr.args job.1 fnArgs f hmade h.fn name args g hdm hg p a ha q hqa (lookup_bindArgs_mem hl).1
    have hty := h.level q ty hl
    exact ⟨values_mono (Nat.succ_le_succ hle) hty, fun hne => values_mono (hlt hne) hty⟩

end Jobs

section Runs

variable {bound fuel : Nat} {subst : List (String × Ty)} {dm : Demand}

structure Inv (prog : Program) (level : String → String → Nat) (bound : Nat) (s : State) :
    Prop where
  structs : s.keys.Nodup
  jobs : s.worklist.Nodup
  fits : ∀ job ∈ s.worklist, ∃ f, Fits prog level bound job f

theorem Inv.adds {r : Nat} (hi : Inv prog level bound s) (h : Adds rank r s s') :
    Inv prog level bound s' := by
  refine ⟨h.nodup hi.structs, ?_, ?_⟩
  · rw [h.worklist]
    exact hi.jobs
  · rw [h.worklist]
    exact hi.fits

/-- The fuel lasts, and the work-list gets no shorter. -/
def Steady (prog : Program) (level : String → String → Nat) (bound : Nat) (x : M Unit) : Prop :=
  ∀ s, Inv prog level bound s → (x.run s).1 ≠ .error .unfinished ∧
    Inv prog level bound (x.run s).2 ∧ s.worklist.length ≤ (x.run s).2.worklist.length

theorem steady_safe {r : Nat} {x : M Unit} (h : Safe rank r x) : Steady prog level bound x := by
  intro s hi
  obtain ⟨hfuel, hadds⟩ := h s
  exact ⟨hfuel, hi.adds hadds, by rw [hadds.worklist]⟩

theorem Steady.seq {x y : M Unit} (hx : Steady prog level bound x) (hy : Steady prog level bound y) :
    Steady prog level bound (x >>= fun _ => y) := by
  intro s hi
  obtain ⟨hfuel, hi', hlen⟩ := hx s hi
  rw [run_bind]
  cases hrun : x.run s with
  | mk res s₁ =>
    rw [hrun] at hfuel hi' hlen
    cases res with
    | ok _ =>
      obtain ⟨hfuel', hi'', hlen'⟩ := hy s₁ hi'
      exact ⟨hfuel', hi'', Nat.le_trans hlen hlen'⟩
    | error e => exact ⟨fun h => hfuel (by cases h; rfl), hi', hlen⟩

theorem safe_asked (hr : Ranked prog rank level) (hfuel : ∀ name, Asked prog name → rank name < fuel)
    {t : Typ} (h : ∀ name ∈ heads t, Asked prog name) (subst : List (String × Ty)) :
    Safe rank fuel (mapType prog (monoStruct prog fuel) subst t) :=
  safe_mapType fun name hn args => safe_monoStruct hr args (h name hn) (hfuel name (h name hn))
    (hfuel name (h name hn))

theorem steady_signFn (hr : Ranked prog rank level)
    (hfuel : ∀ name, Asked prog name → rank name < fuel) {name : String} {args : List Typ}
    {f : GenericFn} {tys : List Ty} (hmade : Made prog (.call name args))
    (hf : prog.genericFn name = some f)
    (hfits : f.generics.length = tys.length → Fits prog level bound (name, tys) f) :
    Steady prog level bound (signFn prog fuel f name tys) := by
  intro s hi
  rcases signFn_cases prog fuel f name tys s with ⟨_, hrun⟩ | ⟨text, hrun⟩ |
    ⟨hlen, hnew, hrun⟩
  · rw [hrun]
    exact ⟨nofun, hi, Nat.le_refl _⟩
  · rw [hrun]
    exact ⟨nofun, hi, Nat.le_refl _⟩
  · have hsig : Safe rank fuel
        (f.sig.mapM (mapType prog (monoStruct prog fuel) (bindArgs f.generics tys))) :=
      safe_mapM fun t ht => safe_asked hr hfuel (fun n hn => .sig hmade hf ht hn) _
    obtain ⟨hfin, hadds⟩ := hsig s
    rw [hrun, run_bind]
    cases hmap : (f.sig.mapM (mapType prog (monoStruct prog fuel) (bindArgs f.generics tys))).run
        s with
    | mk res s₁ =>
      rw [hmap] at hfin hadds
      have hi₁ := hi.adds hadds
      have hlist := hadds.worklist
      cases res with
      | error e => exact ⟨fun h => hfin (by cases h; rfl), hi₁, by rw [hlist]⟩
      | ok _ =>
        have hnew₁ : (name, tys) ∉ s₁.worklist := by
          rw [hadds.worklist]
          exact hnew
        have hi₂ : Inv prog level bound (s₁.enqueue (name, tys)) := by
          refine ⟨hi₁.structs, ?_, fun job hjob => ?_⟩
          · rw [State.enqueue, ← List.concat_eq_append]
            exact hi₁.jobs.concat hnew₁
          · rcases List.mem_append.mp hjob with hjob | hjob
            · exact hi₁.fits job hjob
            · rw [List.mem_singleton.mp hjob]
              exact ⟨f, hfits hlen⟩
        have hlonger : s.worklist.length ≤ (s₁.enqueue (name, tys)).worklist.length := by
          rw [State.enqueue, List.length_append, hlist]
          exact Nat.le_add_right _ _
        exact ⟨nofun, hi₂, hlonger⟩

theorem steady_monoFn (hr : Ranked prog rank level)
    (hfuel : ∀ name, Asked prog name → rank name < fuel) {name : String} {args : List Typ}
    (hmade : Made prog (.call name args)) (hfeeds : Feeds prog level bound subst (.call name args)) :
    Steady prog level bound (monoFn prog fuel subst name args) := by
  intro s hi
  rw [monoFn]
  cases hf : prog.genericFn name with
  | none => exact ⟨nofun, hi, Nat.le_refl _⟩
  | some f =>
    have hargs : Safe rank fuel (args.mapM (mapType prog (monoStruct prog fuel) subst)) :=
      safe_mapM fun t ht => safe_asked hr hfuel (fun n hn => .demand hmade ht hn) subst
    obtain ⟨hfin, hadds⟩ := hargs s
    simp only
    rw [run_bind]
    cases hmap : (args.mapM (mapType prog (monoStruct prog fuel) subst)).run s with
    | mk res s₁ =>
      rw [hmap] at hfin hadds
      have hi₁ := hi.adds hadds
      have hlist := hadds.worklist
      cases res with
      | error e => exact ⟨fun h => hfin (by cases h; rfl), hi₁, by rw [hlist]⟩
      | ok tys =>
        have hfits : f.generics.length = tys.length → Fits prog level bound (name, tys) f := by
          intro hlen
          rw [mapM_typeOf hmap, List.length_map] at hlen
          rw [mapM_typeOf hmap]
          exact hfeeds.fits hmade hf hlen
        have hsign := steady_signFn hr hfuel hmade hf hfits s₁ hi₁
        rw [hlist] at hsign
        exact hsign

theorem steady_ask (hr : Ranked prog rank level)
    (hfuel : ∀ name, Asked prog name → rank name < fuel) (hmade : Made prog dm)
    (hfeeds : Feeds prog level bound subst dm) : Steady prog level bound (ask prog fuel subst dm) := by
  cases dm with
  | type t =>
    have hsafe := safe_asked hr hfuel
      (fun n hn => Asked.demand hmade (List.mem_singleton_self t) hn) subst
    exact steady_safe (hsafe.bind fun _ => safe_pure ())
  | tried t =>
    have hsafe := safe_asked hr hfuel
      (fun n hn => Asked.demand hmade (List.mem_singleton_self t) hn) subst
    intro s hi
    obtain ⟨hfin, hadds⟩ := hsafe s
    rw [ask, run_bind]
    cases hmap : (mapType prog (monoStruct prog fuel) subst t).run s with
    | mk res s₁ =>
      rw [attempt_ok.mpr hmap]
      rw [hmap] at hfin hadds
      have hi₁ := hi.adds hadds
      have hlen := Nat.le_of_eq (congrArg List.length hadds.worklist.symm)
      cases res with
      | ok ty => exact ⟨nofun, hi₁, hlen⟩
      | error e =>
        cases e with
        | message text => exact ⟨nofun, ⟨hi₁.structs, hi₁.jobs, hi₁.fits⟩, hlen⟩
        | unfinished => exact absurd rfl hfin
  | call name args => exact steady_monoFn hr hfuel hmade hfeeds

theorem steady_askAll (hr : Ranked prog rank level)
    (hfuel : ∀ name, Asked prog name → rank name < fuel) {dms : List Demand}
    (hmade : ∀ dm ∈ dms, Made prog dm) (hfeeds : ∀ dm ∈ dms, Feeds prog level bound subst dm) :
    Steady prog level bound (askAll prog fuel subst dms) := by
  induction dms with
  | nil => exact fun s hi => ⟨nofun, hi, Nat.le_refl _⟩
  | cons dm dms ih =>
    have hhead := steady_ask hr hfuel (hmade dm List.mem_cons_self) (hfeeds dm List.mem_cons_self)
    exact hhead.seq (ih (fun x hx => hmade x (List.mem_cons_of_mem _ hx))
      fun x hx => hfeeds x (List.mem_cons_of_mem _ hx))

theorem finite_lists {α : Type} {u : Set α} (hu : u.Finite) (n : Nat) :
    {l : List α | l.length = n ∧ ∀ x ∈ l, x ∈ u}.Finite := by
  induction n with
  | zero =>
    refine (Set.finite_singleton []).subset fun l hl => ?_
    exact List.eq_nil_of_length_eq_zero hl.1
  | succ n ih =>
    refine (hu.image2 List.cons ih).subset ?_
    rintro l ⟨hlen, hall⟩
    cases l with
    | nil => cases hlen
    | cons x l =>
      exact Set.mem_image2_of_mem (hall x List.mem_cons_self)
        ⟨Nat.succ.inj hlen, fun y hy => hall y (List.mem_cons_of_mem _ hy)⟩

/-- Every job that there can be. -/
def jobSet (prog : Program) (bound : Nat) : Set Job :=
  ⋃ f ∈ {f | f ∈ prog.fns}, Prod.mk f.name ''
    {tys : List Ty | tys.length = f.generics.length ∧ ∀ ty ∈ tys, ty ∈ values prog (bound + 2)}

theorem finite_jobSet (prog : Program) (bound : Nat) : (jobSet prog bound).Finite :=
  (List.finite_toSet prog.fns).biUnion fun _ _ => (finite_lists (finite_values _) _).image _

theorem Fits.mem_jobSet {job : Job} {f : GenericFn} (h : Fits prog level bound job f) :
    job ∈ jobSet prog bound := by
  obtain ⟨hmem, hname⟩ := genericFn_mem h.fn
  refine Set.mem_biUnion hmem ⟨job.2, ⟨h.length.symm, h.all⟩, ?_⟩
  rw [hname]

theorem Inv.length_le (hi : Inv prog level bound s) :
    s.worklist.length ≤ (finite_jobSet prog bound).toFinset.card := by
  rw [← List.toFinset_card_of_nodup hi.jobs]
  refine Finset.card_le_card fun job hjob => ?_
  obtain ⟨f, hfits⟩ := hi.fits job (List.mem_toFinset.mp hjob)
  exact (Set.Finite.mem_toFinset _).mpr hfits.mem_jobSet

theorem steady_lowerMonoFn (hr : Ranked prog rank level)
    (hfuel : ∀ name, Asked prog name → rank name < fuel)
    (hbound : ∀ f ∈ prog.fns, ∀ q ∈ f.generics, level f.name q ≤ bound) {job : Job} {f : GenericFn}
    (h : Fits prog level bound job f) :
    Steady prog level bound (lowerMonoFn prog fuel job) := by
  obtain ⟨args, hmade⟩ := h.made
  have hbody := steady_askAll hr hfuel (fun dm hdm => .body hmade h.fn hdm)
    fun dm hdm => h.feeds hr hbound hdm
  rw [lowerMonoFn, h.fn]
  exact hbody

/-- Each round does one of the jobs that there can be. -/
theorem drain_ends (hr : Ranked prog rank level)
    (hfuel : ∀ name, Asked prog name → rank name < fuel)
    (hbound : ∀ f ∈ prog.fns, ∀ q ∈ f.generics, level f.name q ≤ bound) {n i : Nat}
    (hi : Inv prog level bound s) (hle : i ≤ s.worklist.length)
    (hn : (finite_jobSet prog bound).toFinset.card ≤ n + i) :
    Ended ((drain prog fuel n i).run s) := by
  induction n generalizing s i with
  | zero =>
    have hlen := hi.length_le
    have hall : i = s.worklist.length := by omega
    have hget : (drain prog fuel 0 i).run s =
      (if i < s.worklist.length then (fail .unfinished : M Nat) else pure i).run s := rfl
    rw [hget, if_neg (by omega), run_pure]
    exact ⟨hall, hi.jobs, hi.structs⟩
  | succ n ih =>
    have hrun : (drain prog fuel (n + 1) i).run s =
      (lowerNext prog fuel (drain prog fuel n (i + 1)) i s.worklist[i]?).run s := rfl
    cases hjob : s.worklist[i]? with
    | none =>
      rw [hrun, hjob, lowerNext, run_pure]
      exact ⟨Nat.le_antisymm hle (List.getElem?_eq_none_iff.mp hjob), hi.jobs, hi.structs⟩
    | some job =>
      obtain ⟨f, hfits⟩ := hi.fits job (List.mem_of_getElem? hjob)
      obtain ⟨hfin, hi₁, hlen⟩ := steady_lowerMonoFn hr hfuel hbound hfits s hi
      rw [hrun, hjob, lowerNext, run_bind]
      cases hlow : (lowerMonoFn prog fuel job).run s with
      | mk res s₁ =>
        rw [hlow] at hfin hi₁ hlen
        cases res with
        | error e =>
          cases e with
          | message text => trivial
          | unfinished => exact absurd rfl hfin
        | ok _ =>
          have hlt := (List.getElem?_eq_some_iff.mp hjob).1
          exact ih hi₁ (Nat.le_trans hlt hlen) (by omega)

theorem inv_start : Inv prog level bound .start := by
  refine ⟨List.nodup_nil, List.nodup_nil, ?_⟩
  intro job hjob
  cases hjob

end Runs

section Bounds

/-- Every type that is written down somewhere. -/
def Program.types (prog : Program) : List Typ :=
  prog.demands.flatMap Demand.types ++ prog.fns.flatMap (·.sig) ++
    prog.drips.flatMap fun d => d.fields.map Prod.snd

theorem Asked.mem {name : String} (h : Asked prog name) : ∃ t ∈ prog.types, name ∈ heads t := by
  cases h with
  | demand h ht hn =>
    exact ⟨_, List.mem_append_left _ (List.mem_append_left _ (List.mem_flatMap.mpr ⟨_, h.mem, ht⟩)),
      hn⟩
  | sig h hf ht hn =>
    have hsig := List.mem_flatMap.mpr ⟨_, (genericFn_mem hf).1, ht⟩
    exact ⟨_, List.mem_append_left _ (List.mem_append_right _ hsig), hn⟩
  | field h hd hf hn =>
    have hdrip := List.mem_reverse.mp (List.mem_of_find?_eq_some hd)
    exact ⟨_, List.mem_append_right _ (List.mem_flatMap.mpr ⟨_, hdrip, List.mem_map_of_mem hf⟩), hn⟩

theorem exists_bound {α : Type} (f : α → Nat) (l : List α) : ∃ b, ∀ x ∈ l, f x ≤ b := by
  induction l with
  | nil => exact ⟨0, nofun⟩
  | cons x l ih =>
    obtain ⟨b, hb⟩ := ih
    refine ⟨max (f x) b, fun y hy => ?_⟩
    rcases List.mem_cons.mp hy with rfl | hy
    · exact Nat.le_max_left _ _
    · exact Nat.le_trans (hb y hy) (Nat.le_max_right _ _)

/-- Ranks and levels bound the run. -/
theorem ends_of_ranked (hr : Ranked prog rank level) : Ends prog := by
  obtain ⟨top, htop⟩ := exists_bound rank (prog.types.flatMap heads)
  obtain ⟨bound, hbound⟩ := exists_bound (fun p : String × String => level p.1 p.2)
    (prog.fns.flatMap fun f => f.generics.map fun q => (f.name, q))
  have hfuel : ∀ name, Asked prog name → rank name < top + 1 := by
    intro name h
    obtain ⟨t, ht, hn⟩ := h.mem
    exact Nat.lt_succ_of_le (htop name (List.mem_flatMap.mpr ⟨t, ht, hn⟩))
  have hlevels : ∀ f ∈ prog.fns, ∀ q ∈ f.generics, level f.name q ≤ bound := fun f hf q hq =>
    hbound (f.name, q) (List.mem_flatMap.mpr ⟨f, hf, List.mem_map_of_mem hq⟩)
  have hroots : Steady prog level bound (askAll prog (top + 1) [] prog.roots) :=
    steady_askAll hr hfuel (fun dm hdm => .root hdm) fun dm _ => feeds_nil dm
  refine ⟨top + 1, (finite_jobSet prog bound).toFinset.card, ?_⟩
  obtain ⟨hfin, hi, _⟩ := hroots .start inv_start
  rw [lower, run_bind]
  cases hask : (askAll prog (top + 1) [] prog.roots).run .start with
  | mk res s₁ =>
    rw [hask] at hfin hi
    cases res with
    | error e =>
      cases e with
      | message text => trivial
      | unfinished => exact absurd rfl hfin
    | ok _ => exact drain_ends hr hfuel hlevels hi (Nat.zero_le _) (Nat.le_refl _)

end Bounds

end BetLang.Specialize
