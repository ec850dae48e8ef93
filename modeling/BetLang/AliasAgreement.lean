import BetLang.Alias
import Mathlib.Tactic.ByContra

/-! When clones read like shared pointers, over every run: the bookkeeping names the block that
each clone stands for and the cells of it that another holder has written since. -/

namespace BetLang.Alias

structure Mark where
  origin : Nat
  stale : Nat → Bool

/-- The word that a compiled holder of the value has. -/
def Tree.word : Tree Mark → Word
  | .scalar v => .scalar v
  | .block m _ => .ptr m.origin

@[simp] theorem Tree.word_block (m : Mark) (cells : List (Tree Mark)) :
    (Tree.block m cells).word = .ptr m.origin := rfl

@[simp] theorem Tree.word_scalar (v : Int) : (Tree.scalar v).word = .scalar v := rfl

mutual
/-- Cell `i` of block `a` became `w`: clones of the block that hold another word there are stale. -/
def Tree.remark (a i : Nat) (w : Word) : Tree Mark → Tree Mark
  | .scalar v => .scalar v
  | .block m cells =>
    .block
      (if m.origin = a then
        { m with stale := fun j => if j = i then decide ((cells[j]?).map Tree.word ≠ some w)
                                   else m.stale j }
      else m)
      (remarkAll a i w cells)
def remarkAll (a i : Nat) (w : Word) : List (Tree Mark) → List (Tree Mark)
  | [] => []
  | t :: ts => t.remark a i w :: remarkAll a i w ts
end

/-- No cell on the path is stale. -/
def Tree.fresh : Tree Mark → List Nat → Bool
  | .block m cells, i :: rest => !m.stale i && (cells[i]?).all fun c => c.fresh rest
  | _, _ => true

/-- The block and cell that a nonempty path ends at. -/
def Tree.target : Tree Mark → List Nat → Option (Nat × Nat)
  | .block m _, [i] => some (m.origin, i)
  | .block _ cells, i :: rest => (cells[i]?).bind fun c => c.target rest
  | _, _ => none

structure Tracked where
  vars : List (Tree Mark)
  next : Nat

def Tracked.write (st : Tracked) (dst : Place) (v : Tree Mark) : Option Tracked :=
  (putPlace st.vars dst v).map fun vars =>
    match (st.vars[dst.var]?).bind fun t => t.target dst.path with
    | some (a, i) => { st with vars := remarkAll a i v.word vars }
    | none => { st with vars }

def trackedStep : Lockstep.Machine Tracked Op Obs
  | st, .alloc init =>
    (⟨st.vars ++ [.block ⟨st.next, fun _ => false⟩ (init.map .scalar)], st.next + 1⟩, .unit)
  | st, .bind src =>
    match getPlace st.vars src with
    | some v => ({ st with vars := st.vars ++ [v] }, .unit)
    | none => (st, .error)
  | st, .store dst src =>
    match (getPlace st.vars src).bind (st.write dst) with
    | some st' => (st', .unit)
    | none => (st, .error)
  | st, .set dst v =>
    match st.write dst (.scalar v) with
    | some st' => (st', .unit)
    | none => (st, .error)
  | st, .read src =>
    match getPlace st.vars src with
    | some v => (st, v.observe)
    | none => (st, .error)

/-- A place is used only through cells that no other holder has written since they were cloned. -/
def freshPlace (vars : List (Tree Mark)) (p : Place) (path : List Nat) : Bool :=
  (vars[p.var]?).all fun t => t.fresh path

/-- Reads and copies go through fresh cells to a fresh cell, writes through fresh cells. -/
def StepOk (st : Tracked) : Op → Prop
  | .alloc _ => True
  | .bind src | .read src => freshPlace st.vars src src.path = true
  | .store dst src =>
    freshPlace st.vars src src.path = true ∧ freshPlace st.vars dst dst.path.dropLast = true
  | .set dst _ => freshPlace st.vars dst dst.path.dropLast = true

mutual
/-- The value without the bookkeeping. -/
def Tree.erase : Tree Mark → Tree Unit
  | .scalar v => .scalar v
  | .block _ cells => .block () (eraseAll cells)
def eraseAll : List (Tree Mark) → List (Tree Unit)
  | [] => []
  | t :: ts => t.erase :: eraseAll ts
end

/-- Every clone stands for a block of memory and knows where the two differ, but for one cell. -/
inductive Ok (memory : List (List Word)) (but : Option (Nat × Nat)) : Tree Mark → Prop where
  | scalar (v : Int) : Ok memory but (.scalar v)
  | block {m : Mark} {cells : List (Tree Mark)} {row : List Word}
      (hrow : memory[m.origin]? = some row) (hlen : cells.length = row.length)
      (hstale : ∀ (i : Nat) (c : Tree Mark) (w : Word), cells[i]? = some c → row[i]? = some w →
        some (m.origin, i) ≠ but → (m.stale i = true ↔ c.word ≠ w))
      (hcells : ∀ c ∈ cells, Ok memory but c) : Ok memory but (.block m cells)

variable {memory : List (List Word)} {t v : Tree Mark}

theorem Ok.weaken (h : Ok memory none t) (but : Option (Nat × Nat)) : Ok memory but t := by
  induction h with
  | scalar v => exact .scalar v
  | block hrow hlen hstale _ ih =>
    exact .block hrow hlen (fun i c w hc hw _ => hstale i c w hc hw (by simp)) ih

/-- Through fresh cells, the clone and the memory hold the same. -/
theorem Ok.get (h : Ok memory none t) {path : List Nat} (hf : t.fresh path = true) :
    (t.get path = none ∧ loadPath memory t.word path = none) ∨
      ∃ u, t.get path = some u ∧ loadPath memory t.word path = some u.word ∧ Ok memory none u := by
  induction path generalizing t with
  | nil => exact .inr ⟨t, by simp [Tree.get], rfl, h⟩
  | cons i rest ih =>
    cases h with
    | scalar v => exact .inl ⟨rfl, rfl⟩
    | @block m cells row hrow hlen hstale hcells =>
      simp only [Tree.fresh, Bool.and_eq_true, Bool.not_eq_true'] at hf
      cases hc : cells[i]? with
      | none =>
        have hw : row[i]? = none := by
          rw [List.getElem?_eq_none_iff] at hc ⊢
          omega
        exact .inl ⟨by simp [Tree.get, hc], by simp [loadPath, loadCell, hrow, hw]⟩
      | some c =>
        obtain ⟨w, hw⟩ : ∃ w, row[i]? = some w := by
          have hlt := (List.getElem?_eq_some_iff.mp hc).1
          exact ⟨_, List.getElem?_eq_getElem (hlen ▸ hlt)⟩
        have hcw : c.word = w := by
          by_contra hne
          have hh := (hstale i c w hc hw (by simp)).mpr hne
          rw [hf.1] at hh
          cases hh
        rw [hc] at hf
        rcases ih (hcells c (List.mem_of_getElem? hc)) hf.2 with ⟨hg, hl⟩ | ⟨u, hg, hl, hu⟩
        · exact .inl ⟨by simp [Tree.get, hc, hg],
            by simp [loadPath, loadCell, hrow, hw, ← hcw, hl]⟩
        · exact .inr ⟨u, by simp [Tree.get, hc, hg],
            by simp [loadPath, loadCell, hrow, hw, ← hcw, hl], hu⟩

theorem Tree.put_word {path : List Nat} {t' : Tree Mark} (hp : path ≠ [])
    (h : t.put path v = some t') : t'.word = t.word := by
  cases path with
  | nil => exact absurd rfl hp
  | cons i rest =>
    cases t with
    | scalar x => cases h
    | block m cells =>
      simp only [Tree.put, Option.bind_eq_some_iff, Option.map_eq_some_iff] at h
      obtain ⟨c, -, c', -, rfl⟩ := h
      rfl

/-- A write leaves at most its own cell out of step. -/
theorem Ok.put {path : List Nat} {t' : Tree Mark} {but : Option (Nat × Nat)} (h : Ok memory but t)
    (hv : Ok memory but v) (hput : t.put path v = some t')
    (htarget : path ≠ [] → t.target path = but) : Ok memory but t' := by
  induction path generalizing t t' with
  | nil =>
    simp only [Tree.put, Option.some.injEq] at hput
    exact hput ▸ hv
  | cons i rest ih =>
    cases h with
    | scalar x => cases hput
    | @block m cells row hrow hlen hstale hcells =>
      simp only [Tree.put, Option.bind_eq_some_iff, Option.map_eq_some_iff] at hput
      obtain ⟨c, hc, c', hc', rfl⟩ := hput
      have ht := htarget (by simp)
      have hok : Ok memory but c' := by
        refine ih (hcells c (List.mem_of_getElem? hc)) hc' fun hne => ?_
        cases rest with
        | nil => exact absurd rfl hne
        | cons j rest => simpa [Tree.target, hc] using ht
      refine .block hrow (by simp [hlen]) (fun j d w hd hw hbut => ?_) (fun d hd => ?_)
      · rw [List.getElem?_set] at hd
        split at hd
        · rename_i hij
          subst hij
          split at hd <;> cases hd
          cases rest with
          | nil => exact absurd ht hbut
          | cons k rest =>
            rw [Tree.put_word (by simp) hc']
            exact hstale i c w hc hw hbut
        · exact hstale j d w hd hw hbut
      · rcases List.mem_or_eq_of_mem_set hd with hd | rfl
        · exact hcells d hd
        · exact hok

/-- Through fresh cells, both sides store in the same cell of the same block, or in none. -/
theorem Ok.store (h : Ok memory none t) {path : List Nat} (hp : path ≠ [])
    (hf : t.fresh path.dropLast = true) (w : Word) :
    (t.put path v = none ∧ storePath memory t.word path w = none) ∨
      ∃ t' a i row, t.put path v = some t' ∧ t.target path = some (a, i) ∧
        memory[a]? = some row ∧ i < row.length ∧
        storePath memory t.word path w = some (memory.set a (row.set i w)) := by
  induction path generalizing t with
  | nil => exact absurd rfl hp
  | cons i rest ih =>
    cases h with
    | scalar x =>
      refine .inl ⟨rfl, ?_⟩
      cases rest <;> rfl
    | @block m cells row hrow hlen hstale hcells =>
      cases hc : cells[i]? with
      | none =>
        have hi : ¬ i < row.length := by
          rw [List.getElem?_eq_none_iff] at hc
          omega
        refine .inl ⟨by simp [Tree.put, hc], ?_⟩
        cases rest with
        | nil => simp [storePath, storeCell, hrow, hi]
        | cons j rest =>
          have hw : row[i]? = none := by simpa using hi
          simp [storePath, loadCell, hrow, hw]
      | some c =>
        have hi : i < row.length := hlen ▸ (List.getElem?_eq_some_iff.mp hc).1
        cases rest with
        | nil =>
          exact .inr ⟨_, m.origin, i, row, by simp [Tree.put, hc]; rfl, rfl, hrow, hi,
            by simp [storePath, storeCell, hrow, hi]⟩
        | cons j rest =>
          rw [List.dropLast_cons_of_ne_nil (by simp)] at hf
          simp only [Tree.fresh, Bool.and_eq_true, Bool.not_eq_true', hc, Option.all_some] at hf
          have hw := List.getElem?_eq_getElem hi
          have hcw : c.word = row[i] := by
            by_contra hne
            have hh := (hstale i c _ hc hw (by simp)).mpr hne
            rw [hf.1] at hh
            cases hh
          rcases ih (hcells c (List.mem_of_getElem? hc)) (by simp) hf.2 with
            ⟨hput, hst⟩ | ⟨t', a, k, row', hput, htar, hrow', hk, hst⟩
          · exact .inl ⟨by simp [Tree.put, hc, hput],
              by simp [storePath, loadCell, hrow, hi, ← hcw, hst]⟩
          · exact .inr ⟨_, a, k, row', by simp [Tree.put, hc, hput]; rfl,
              by simp [Tree.target, hc, htar], hrow', hk,
              by simp [storePath, loadCell, hrow, hi, ← hcw, hst]⟩

theorem remarkAll_eq_map (a i : Nat) (w : Word) (ts : List (Tree Mark)) :
    remarkAll a i w ts = ts.map fun t => t.remark a i w := by
  induction ts with
  | nil => rfl
  | cons t ts ih => rw [remarkAll, ih, List.map_cons]

theorem Tree.remark_word (a i : Nat) (w : Word) (t : Tree Mark) : (t.remark a i w).word = t.word := by
  cases t with
  | scalar v => rfl
  | block m cells =>
    unfold Tree.remark
    rw [Tree.word_block, Tree.word_block]
    split <;> rfl

/-- After the write, the marks are exact again. -/
theorem Ok.remark {a i : Nat} {row : List Word} (h : Ok memory (some (a, i)) t)
    (hrow : memory[a]? = some row) (hi : i < row.length) (w : Word) :
    Ok (memory.set a (row.set i w)) none (t.remark a i w) := by
  have ha := (List.getElem?_eq_some_iff.mp hrow).1
  induction h with
  | scalar v =>
    unfold Tree.remark
    exact .scalar v
  | @block m cells row' hrow' hlen hstale hcells ih =>
    have hwords : ∀ (j : Nat) (c : Tree Mark), (remarkAll a i w cells)[j]? = some c →
        ∃ d, cells[j]? = some d ∧ d.word = c.word := by
      intro j c hc
      rw [remarkAll_eq_map, List.getElem?_map] at hc
      obtain ⟨d, hd, rfl⟩ := Option.map_eq_some_iff.mp hc
      exact ⟨d, hd, (Tree.remark_word a i w d).symm⟩
    have hok : ∀ c ∈ remarkAll a i w cells, Ok (memory.set a (row.set i w)) none c := by
      intro c hc
      rw [remarkAll_eq_map] at hc
      obtain ⟨d, hd, rfl⟩ := List.mem_map.mp hc
      exact ih d hd
    have hlen' : (remarkAll a i w cells).length = row'.length := by
      rw [remarkAll_eq_map, List.length_map, hlen]
    unfold Tree.remark
    by_cases hm : m.origin = a
    · rw [hm, hrow] at hrow'
      cases hrow'
      rw [if_pos hm]
      refine .block (show _ = some (row.set i w) by simp [hm, ha]) (by simp [hlen'])
        (fun j c w' hc hw' _ => ?_) hok
      obtain ⟨d, hd, hdc⟩ := hwords j c hc
      rw [List.getElem?_set] at hw'
      by_cases hj : j = i
      · subst hj
        rw [if_pos rfl, if_pos hi] at hw'
        cases hw'
        simp [hd, hdc]
      · rw [if_neg (Ne.symm hj)] at hw'
        simp only [if_neg hj]
        rw [← hdc]
        exact hstale j d w' hd hw' (by simp [hj])
    · rw [if_neg hm]
      refine .block (show _ = some row' by rw [List.getElem?_set_ne (Ne.symm hm), hrow']) hlen'
        (fun j c w' hc hw' _ => ?_) hok
      obtain ⟨d, hd, hdc⟩ := hwords j c hc
      rw [← hdc]
      exact hstale j d w' hd hw' (by simp [hm])

theorem Ok.alloc (h : Ok memory none t) (row : List Word) : Ok (memory ++ [row]) none t := by
  induction h with
  | scalar v => exact .scalar v
  | block hrow hlen hstale _ ih =>
    refine .block ?_ hlen hstale ih
    rw [List.getElem?_append_left (List.getElem?_eq_some_iff.mp hrow).1, hrow]

structure Rel (st : Tracked) (c : Compiled) : Prop where
  vars : c.vars = st.vars.map Tree.word
  next : st.next = c.memory.length
  ok : ∀ t ∈ st.vars, Ok c.memory none t

variable {st : Tracked} {c : Compiled}

theorem Rel.load (h : Rel st c) {p : Place} (hf : freshPlace st.vars p p.path = true) :
    (getPlace st.vars p = none ∧ c.load p = none) ∨
      ∃ u, getPlace st.vars p = some u ∧ c.load p = some u.word ∧ Ok c.memory none u := by
  unfold getPlace Compiled.load
  rw [h.vars, List.getElem?_map]
  unfold freshPlace at hf
  cases ht : st.vars[p.var]? with
  | none => exact .inl ⟨rfl, rfl⟩
  | some t =>
    rw [ht] at hf
    exact (h.ok t (List.mem_of_getElem? ht)).get hf

theorem Rel.bind (h : Rel st c) {u : Tree Mark} (hu : Ok c.memory none u) :
    Rel { st with vars := st.vars ++ [u] } { c with vars := c.vars ++ [u.word] } := by
  refine ⟨by simp [h.vars], h.next, fun t ht => ?_⟩
  rcases List.mem_append.mp ht with ht | ht
  · exact h.ok t ht
  · exact List.mem_singleton.mp ht ▸ hu

theorem Rel.write (h : Rel st c) {p : Place} (hf : freshPlace st.vars p p.path.dropLast = true)
    (hv : Ok c.memory none v) :
    (st.write p v = none ∧ c.store p v.word = none) ∨
      ∃ st' c', st.write p v = some st' ∧ c.store p v.word = some c' ∧ Rel st' c' := by
  unfold freshPlace at hf
  unfold Tracked.write putPlace Compiled.store
  rw [h.vars, List.getElem?_map]
  cases ht : st.vars[p.var]? with
  | none => exact .inl ⟨rfl, rfl⟩
  | some t =>
    rw [ht] at hf
    have hok := h.ok t (List.mem_of_getElem? ht)
    by_cases hp : p.path = []
    · refine .inr ⟨_, _, by simp [hp, Tree.put, Tree.target]; rfl, by simp [hp]; rfl, ?_⟩
      refine ⟨by simp [List.map_set], h.next, fun u hu => ?_⟩
      rcases List.mem_or_eq_of_mem_set hu with hu | rfl
      · exact h.ok u hu
      · exact hv
    · rcases hok.store (v := v) hp hf v.word with ⟨hput, hst⟩ | ⟨t', a, i, row, hput, htar, hrow, hi, hst⟩
      · exact .inl ⟨by simp [hput], by simp [hp, hst]⟩
      · refine .inr ⟨_, _, by simp [hput, htar]; rfl, by simp [hp, hst]; rfl, ?_⟩
        have ht' : Ok c.memory (some (a, i)) t' :=
          (hok.weaken _).put (hv.weaken _) hput fun _ => htar
        refine ⟨?_, by simp [h.next], fun u hu => ?_⟩
        · rw [remarkAll_eq_map, List.map_map]
          have hword : (Tree.word ∘ fun t => t.remark a i v.word) = Tree.word :=
            funext fun u => Tree.remark_word a i v.word u
          rw [hword, List.map_set, Tree.put_word hp hput]
          apply List.ext_getElem?
          intro k
          rw [List.getElem?_set]
          split
          · rename_i hk
            subst hk
            rw [List.getElem?_map, ht, Option.map_some, List.length_map,
              if_pos (List.getElem?_eq_some_iff.mp ht).1]
          · rfl
        · dsimp only at hu
          rw [remarkAll_eq_map] at hu
          obtain ⟨u', hu', rfl⟩ := List.mem_map.mp hu
          rcases List.mem_or_eq_of_mem_set hu' with hu' | rfl
          · exact ((h.ok u' hu').weaken _).remark hrow hi _
          · exact ht'.remark hrow hi _

theorem Rel.observe (h : Ok c.memory none v) : v.observe = c.observe v.word := by
  cases h with
  | scalar x => rfl
  | block hrow hlen _ _ => simp [Tree.observe, Compiled.observe, hrow, hlen]

theorem rel_step (h : Rel st c) {op : Op} (hok : StepOk st op) :
    Rel (trackedStep st op).1 (compiledStep c op).1 ∧
      (trackedStep st op).2 = (compiledStep c op).2 := by
  cases op with
  | alloc init =>
    refine ⟨⟨by simp [trackedStep, compiledStep, h.vars, h.next],
      by simp [trackedStep, compiledStep, h.next], fun t ht => ?_⟩, rfl⟩
    simp only [trackedStep, compiledStep] at ht ⊢
    rcases List.mem_append.mp ht with ht | ht
    · exact (h.ok t ht).alloc _
    · obtain rfl := List.mem_singleton.mp ht
      refine .block (show _ = some (init.map .scalar) by simp [h.next]) (by simp)
        (fun i c w hc hw _ => ?_) fun c hc => ?_
      · simp only [List.getElem?_map, Option.map_eq_some_iff] at hc hw
        obtain ⟨x, hx, rfl⟩ := hc
        obtain ⟨y, hy, rfl⟩ := hw
        rw [hx] at hy
        cases hy
        simp
      · obtain ⟨x, -, rfl⟩ := List.mem_map.mp hc
        exact .scalar x
  | bind src =>
    simp only [trackedStep, compiledStep]
    rcases h.load hok with ⟨hg, hl⟩ | ⟨u, hg, hl, hu⟩
    · rw [hg, hl]
      exact ⟨h, rfl⟩
    · rw [hg, hl]
      exact ⟨h.bind hu, rfl⟩
  | store dst src =>
    simp only [trackedStep, compiledStep]
    rcases h.load hok.1 with ⟨hg, hl⟩ | ⟨u, hg, hl, hu⟩
    · rw [hg, hl]
      exact ⟨h, rfl⟩
    · rw [hg, hl]
      rcases h.write hok.2 hu with ⟨hw, hs⟩ | ⟨st', c', hw, hs, hr⟩
      · simp only [Option.bind_some, hw, hs]
        exact ⟨h, trivial⟩
      · simp only [Option.bind_some, hw, hs]
        exact ⟨hr, trivial⟩
  | set dst x =>
    simp only [trackedStep, compiledStep]
    rcases h.write (v := .scalar x) hok (.scalar x) with ⟨hw, hs⟩ | ⟨st', c', hw, hs, hr⟩
    · rw [hw, show c.store dst (.scalar x) = none from hs]
      exact ⟨h, rfl⟩
    · rw [hw, show c.store dst (.scalar x) = some c' from hs]
      exact ⟨hr, rfl⟩
  | read src =>
    simp only [trackedStep, compiledStep]
    rcases h.load hok with ⟨hg, hl⟩ | ⟨u, hg, hl, hu⟩
    · rw [hg, hl]
      exact ⟨h, rfl⟩
    · rw [hg, hl]
      exact ⟨h, Rel.observe hu⟩

theorem eraseAll_eq_map (ts : List (Tree Mark)) : eraseAll ts = ts.map Tree.erase := by
  induction ts with
  | nil => rfl
  | cons t ts ih => rw [eraseAll, ih, List.map_cons]

theorem Tree.erase_block (m : Mark) (cells : List (Tree Mark)) :
    (Tree.block m cells).erase = .block () (cells.map Tree.erase) := by
  rw [Tree.erase, eraseAll_eq_map]

theorem Tree.erase_get (t : Tree Mark) (path : List Nat) :
    t.erase.get path = (t.get path).map Tree.erase := by
  induction path generalizing t with
  | nil => simp [Tree.get]
  | cons i rest ih =>
    cases t with
    | scalar x => rfl
    | block m cells =>
      rw [Tree.erase_block]
      simp only [Tree.get, List.getElem?_map]
      cases cells[i]? with
      | none => rfl
      | some c => exact ih c

theorem Tree.erase_put (t v : Tree Mark) (path : List Nat) :
    t.erase.put path v.erase = (t.put path v).map Tree.erase := by
  induction path generalizing t with
  | nil => simp [Tree.put]
  | cons i rest ih =>
    cases t with
    | scalar x => rfl
    | block m cells =>
      rw [Tree.erase_block]
      simp only [Tree.put, List.getElem?_map]
      cases cells[i]? with
      | none => rfl
      | some c =>
        simp only [Option.map_some, Option.bind_some, ih c, Option.map_map]
        congr 1
        funext c'
        simp [Tree.erase_block, List.map_set]

mutual
theorem Tree.erase_remark (a i : Nat) (w : Word) : ∀ t : Tree Mark, (t.remark a i w).erase = t.erase
  | .scalar _ => by unfold Tree.remark; rfl
  | .block m cells => by
    unfold Tree.remark
    rw [Tree.erase, Tree.erase, eraseAll_remarkAll a i w cells]
theorem eraseAll_remarkAll (a i : Nat) (w : Word) :
    ∀ ts : List (Tree Mark), eraseAll (remarkAll a i w ts) = eraseAll ts
  | [] => rfl
  | t :: ts => by
    rw [remarkAll, eraseAll, eraseAll, Tree.erase_remark a i w t, eraseAll_remarkAll a i w ts]
end

theorem Tree.erase_observe (t : Tree Mark) : t.erase.observe = t.observe := by
  cases t with
  | scalar x => rfl
  | block m cells => simp [Tree.erase_block, Tree.observe]

theorem erase_getPlace (vars : List (Tree Mark)) (p : Place) :
    getPlace (vars.map Tree.erase) p = (getPlace vars p).map Tree.erase := by
  unfold getPlace
  rw [List.getElem?_map]
  cases vars[p.var]? with
  | none => rfl
  | some t => exact t.erase_get p.path

theorem erase_putPlace (vars : List (Tree Mark)) (p : Place) (v : Tree Mark) :
    putPlace (vars.map Tree.erase) p v.erase =
      (putPlace vars p v).map fun vars' => vars'.map Tree.erase := by
  unfold putPlace
  rw [List.getElem?_map]
  cases vars[p.var]? with
  | none => rfl
  | some t =>
    simp only [Option.map_some, Option.bind_some, t.erase_put v p.path, Option.map_map]
    congr 1
    funext t'
    simp [List.map_set]

theorem erase_write (st : Tracked) (p : Place) (v : Tree Mark) :
    putPlace (st.vars.map Tree.erase) p v.erase =
      (st.write p v).map fun st' => st'.vars.map Tree.erase := by
  rw [erase_putPlace, Tracked.write, Option.map_map]
  congr 1
  funext vars'
  simp only [Function.comp_apply]
  split
  · rename_i a i _
    rw [← eraseAll_eq_map, ← eraseAll_eq_map, eraseAll_remarkAll]
  · rfl

/-- The bookkeeping does not change what the interpreter does. -/
theorem interpStep_erase (st : Tracked) (op : Op) :
    interpStep (st.vars.map Tree.erase) op =
      ((trackedStep st op).1.vars.map Tree.erase, (trackedStep st op).2) := by
  cases op with
  | alloc init =>
    have herase : (Tree.erase ∘ Tree.scalar : Int → Tree Unit) = .scalar := rfl
    simp [interpStep, trackedStep, Tree.erase_block, herase]
  | bind src =>
    simp only [interpStep, trackedStep, erase_getPlace]
    cases getPlace st.vars src <;> simp
  | store dst src =>
    simp only [interpStep, trackedStep, erase_getPlace]
    cases getPlace st.vars src with
    | none => rfl
    | some v =>
      simp only [Option.map_some, Option.bind_some, erase_write]
      cases st.write dst v <;> rfl
  | set dst x =>
    simp only [interpStep, trackedStep]
    rw [show (Tree.scalar x : Tree Unit) = (Tree.scalar x : Tree Mark).erase from rfl, erase_write]
    cases st.write dst (.scalar x) <;> rfl
  | read src =>
    simp only [interpStep, trackedStep, erase_getPlace]
    cases getPlace st.vars src with
    | none => rfl
    | some v => simp [Tree.erase_observe]

theorem rel_start : Rel ⟨[], 0⟩ ⟨[], []⟩ :=
  ⟨rfl, rfl, fun _ ht => nomatch ht⟩

/-- A program that performs a fixed list of operations. -/
def script (ops : List Op) : Lockstep.Strategy Op Obs :=
  fun seen => ops.getD seen.length (.alloc [])

/-- `a = mem.slab[int](1); b = a; b[0] = 7; b[0]` -/
def writerReads : List Op := [.alloc [0], .bind ⟨0, []⟩, .set ⟨1, [0]⟩ 7, .read ⟨1, [0]⟩]

/-- The same with a read of `a[0]` at the end. -/
def ownerReads : List Op := [.alloc [0], .bind ⟨0, []⟩, .set ⟨1, [0]⟩ 7, .read ⟨0, [0]⟩]

end BetLang.Alias
