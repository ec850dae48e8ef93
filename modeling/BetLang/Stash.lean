import Mathlib.Data.List.Find
import Mathlib.Data.List.Nodup

/-! The two stores behind a `stash`: the interpreter's association list, searched with value
equality, and the runtime's map over serialized keys. -/

namespace BetLang.Stash

inductive Op (K V : Type) where
  | put (k : K) (v : V)
  | peep (k : K)
  | yeet (k : K)
  | gang

def Op.key? {K V : Type} : Op K V → Option K
  | .put k _ | .peep k | .yeet k => some k
  | .gang => none

inductive Res (V : Type) where
  | done
  | found (v : V)
  | missing
  | removed (present : Bool)
  | count (n : Nat)
  deriving DecidableEq, Repr

variable {K B V S : Type}

/-- The first entry with an equal key takes the value, or a new one goes to the end. -/
def putFirst (same : K → K → Bool) (k : K) (v : V) : List (K × V) → List (K × V)
  | [] => [(k, v)]
  | e :: m => if same e.1 k then (e.1, v) :: m else e :: putFirst same k v m

def callStash (same : K → K → Bool) (m : List (K × V)) : Op K V → List (K × V) × Res V
  | .put k v => (putFirst same k v m, .done)
  | .peep k =>
    match m.find? fun e => same e.1 k with
    | some e => (m, .found e.2)
    | none => (m, .missing)
  | .yeet k =>
    let kept := m.filter fun e => !same e.1 k
    (kept, .removed (kept.length ≠ m.length))
  | .gang => (m, .count m.length)

/-- `HashMap::insert`. The entries stand in the order in which their keys came in. -/
def insert [DecidableEq B] (k : B) (v : V) (m : List (B × V)) : List (B × V) :=
  if m.any fun e => e.1 = k then m.map fun e => if e.1 = k then (k, v) else e else m ++ [(k, v)]

/-- `bet_map_put`, `bet_map_get`, `bet_map_del` and `bet_map_len` on serialized keys. -/
def betMap [DecidableEq B] (ser : K → B) (m : List (B × V)) : Op K V → List (B × V) × Res V
  | .put k v => (insert (ser k) v m, .done)
  | .peep k =>
    match m.find? fun e => e.1 = ser k with
    | some e => (m, .found e.2)
    | none => (m, .missing)
  | .yeet k => (m.filter fun e => ¬ e.1 = ser k, .removed (m.any fun e => e.1 = ser k))
  | .gang => (m, .count m.length)

/-- The results of a sequence of operations. -/
def run (step : S → Op K V → S × Res V) : S → List (Op K V) → List (Res V)
  | _, [] => []
  | s, op :: ops => (step s op).2 :: run step (step s op).1 ops

/-- Equality and bytes tell the same keys apart. -/
def Canonical (same : K → K → Bool) (ser : K → B) (P : K → Prop) : Prop :=
  ∀ k k', P k → P k' → (same k k' = true ↔ ser k = ser k')

/-- The byte map that an association list stands for. -/
def toBytes (ser : K → B) (m : List (K × V)) : List (B × V) :=
  m.map fun e => (ser e.1, e.2)

theorem mem_putFirst {same : K → K → Bool} {k : K} {v : V} {m : List (K × V)} {e : K × V}
    (h : e ∈ putFirst same k v m) : e.1 = k ∨ ∃ e' ∈ m, e'.1 = e.1 := by
  induction m with
  | nil =>
    rw [putFirst, List.mem_singleton] at h
    exact Or.inl (congrArg Prod.fst h)
  | cons x m ih =>
    rw [putFirst] at h
    by_cases hx : same x.1 k = true
    · rw [if_pos hx, List.mem_cons] at h
      rcases h with rfl | h
      · exact Or.inr ⟨x, by simp, rfl⟩
      · exact Or.inr ⟨e, by simp [h], rfl⟩
    · rw [if_neg hx, List.mem_cons] at h
      rcases h with rfl | h
      · exact Or.inr ⟨e, by simp, rfl⟩
      · rcases ih h with hk | ⟨e', he', heq⟩
        · exact Or.inl hk
        · exact Or.inr ⟨e', by simp [he'], heq⟩

/-- The keys of a map are all different. -/
def DistinctKeys (m : List (B × V)) : Prop := (m.map Prod.fst).Nodup

variable [DecidableEq B] {same : K → K → Bool} {ser : K → B} {P : K → Prop}

theorem insert_cons {k : B} {v : V} {e : B × V} {m : List (B × V)} (he : ¬ e.1 = k) :
    insert k v (e :: m) = e :: insert k v m := by
  by_cases hm : m.any (fun e => e.1 = k) = true
  · simp [insert, he, hm]
  · simp [insert, he, hm]

/-- Replacing in place: no other entry of the map has the key. -/
theorem insert_head {k : B} {v : V} {e : B × V} {m : List (B × V)} (he : e.1 = k)
    (hd : DistinctKeys (e :: m)) : insert k v (e :: m) = (k, v) :: m := by
  have hnot : ∀ x ∈ m, ¬ x.1 = k := by
    intro x hx hk
    have hnodup := (List.nodup_cons.mp hd).1
    exact hnodup (List.mem_map.mpr ⟨x, hx, hk.trans he.symm⟩)
  have hmap : (m.map fun x => if x.1 = k then (k, v) else x) = m := by
    rw [List.map_congr_left fun x hx => if_neg (hnot x hx), List.map_id']
  simp [insert, he, hmap]

theorem toBytes_putFirst (hc : Canonical same ser P) {k : K} {v : V} {m : List (K × V)}
    (hk : P k) (hm : ∀ e ∈ m, P e.1) (hd : DistinctKeys (toBytes ser m)) :
    toBytes ser (putFirst same k v m) = insert (ser k) v (toBytes ser m) := by
  induction m with
  | nil => rfl
  | cons e m ih =>
    have he : P e.1 := hm e (by simp)
    have hiff := hc e.1 k he hk
    rw [putFirst]
    by_cases hs : same e.1 k = true
    · have hser : ser e.1 = ser k := hiff.mp hs
      rw [if_pos hs]
      have hins := insert_head (v := v) (e := (ser e.1, e.2)) (m := toBytes ser m) hser hd
      calc toBytes ser ((e.1, v) :: m) = (ser e.1, v) :: toBytes ser m := rfl
        _ = (ser k, v) :: toBytes ser m := by rw [hser]
        _ = insert (ser k) v (toBytes ser (e :: m)) := hins.symm
    · have hser : ¬ ser e.1 = ser k := fun h => hs (hiff.mpr h)
      rw [if_neg hs]
      have htail := ih (fun x hx => hm x (by simp [hx])) (List.nodup_cons.mp hd).2
      have hins := insert_cons (v := v) (e := (ser e.1, e.2)) (m := toBytes ser m) hser
      calc toBytes ser (e :: putFirst same k v m)
          = (ser e.1, e.2) :: toBytes ser (putFirst same k v m) := rfl
        _ = (ser e.1, e.2) :: insert (ser k) v (toBytes ser m) := by rw [htail]
        _ = insert (ser k) v (toBytes ser (e :: m)) := hins.symm

theorem distinct_insert {k : B} {v : V} {m : List (B × V)} (hd : DistinctKeys m) :
    DistinctKeys (insert k v m) := by
  unfold insert DistinctKeys
  by_cases hm : m.any (fun e => e.1 = k) = true
  · have hkeys : (m.map fun e => if e.1 = k then (k, v) else e).map Prod.fst = m.map Prod.fst := by
      rw [List.map_map]
      refine List.map_congr_left fun e _ => ?_
      by_cases he : e.1 = k
      · simp [he]
      · simp [he]
    rw [if_pos hm, hkeys]
    exact hd
  · rw [if_neg hm, List.map_append, List.nodup_append]
    refine ⟨hd, List.nodup_singleton k, ?_⟩
    intro x hx y hy hxy
    have hy : y = k := List.mem_singleton.mp hy
    obtain ⟨e, he, rfl⟩ := List.mem_map.mp hx
    exact hm (List.any_eq_true.mpr ⟨e, he, by simp [hxy, hy]⟩)

theorem Canonical.decide_eq (hc : Canonical same ser P) {k k' : K} (hk : P k) (hk' : P k') :
    decide (ser k = ser k') = same k k' := by
  rw [Bool.eq_iff_iff, decide_eq_true_iff]
  exact (hc k k' hk hk').symm

theorem find_toBytes (hc : Canonical same ser P) {k : K} {m : List (K × V)} (hk : P k)
    (hm : ∀ e ∈ m, P e.1) :
    (toBytes ser m).find? (fun e => e.1 = ser k) =
      (m.find? fun e => same e.1 k).map fun e => (ser e.1, e.2) := by
  rw [toBytes, List.find?_map]
  congr 1
  exact List.find?_congr fun e he => hc.decide_eq (hm e he) hk

theorem filter_toBytes (hc : Canonical same ser P) {k : K} {m : List (K × V)} (hk : P k)
    (hm : ∀ e ∈ m, P e.1) :
    (toBytes ser m).filter (fun e => ¬ e.1 = ser k) =
      toBytes ser (m.filter fun e => !same e.1 k) := by
  rw [toBytes, toBytes, List.filter_map]
  congr 1
  refine List.filter_congr fun e he => ?_
  rw [← hc.decide_eq (hm e he) hk]
  simp

/-- A filter shortens a list exactly when it drops something. -/
theorem any_of_filter {p : K × V → Bool} {m : List (K × V)} :
    decide ((m.filter fun e => !p e).length ≠ m.length) = m.any p := by
  rw [Bool.eq_iff_iff, decide_eq_true_iff, ne_eq, List.length_filter_eq_length_iff]
  simp

/-- The byte map is the association list's, and its keys are different. -/
structure Agrees (ser : K → B) (P : K → Prop) (m : List (K × V)) (b : List (B × V)) : Prop where
  bytes : b = toBytes ser m
  keys : ∀ e ∈ m, P e.1
  distinct : DistinctKeys b

theorem agrees_step (hc : Canonical same ser P) {m : List (K × V)} {b : List (B × V)}
    (h : Agrees ser P m b) {op : Op K V} (hop : ∀ k, op.key? = some k → P k) :
    Agrees ser P (callStash same m op).1 (betMap ser b op).1 ∧
      (callStash same m op).2 = (betMap ser b op).2 := by
  obtain ⟨rfl, hm, hd⟩ := h
  cases op with
  | put k v =>
    have hk := hop k rfl
    refine ⟨⟨(toBytes_putFirst hc hk hm hd).symm, ?_, distinct_insert hd⟩, rfl⟩
    intro e he
    rcases mem_putFirst he with heq | ⟨e', he', heq⟩
    · exact heq ▸ hk
    · exact heq ▸ hm e' he'
  | peep k =>
    have hfind := find_toBytes hc (hop k rfl) hm
    simp only [callStash, betMap, hfind]
    cases m.find? fun e => same e.1 k with
    | none => exact ⟨⟨rfl, hm, hd⟩, rfl⟩
    | some e => exact ⟨⟨rfl, hm, hd⟩, rfl⟩
  | yeet k =>
    have hfilter := filter_toBytes hc (hop k rfl) hm
    have hany : (toBytes ser m).any (fun e => e.1 = ser k) = m.any fun e => same e.1 k := by
      rw [Bool.eq_iff_iff, toBytes, List.any_map, List.any_eq_true, List.any_eq_true]
      refine exists_congr fun e => and_congr_right fun he => ?_
      rw [← hc.decide_eq (hm e he) (hop k rfl)]
      rfl
    refine ⟨⟨hfilter, fun e he => hm e (List.mem_filter.mp he).1, ?_⟩, ?_⟩
    · have hsub : ((toBytes ser m).filter fun e => ¬ e.1 = ser k).Sublist (toBytes ser m) :=
        List.filter_sublist
      exact (hsub.map Prod.fst).nodup hd
    · simp only [callStash, betMap, hany, any_of_filter]
  | gang => exact ⟨⟨rfl, hm, hd⟩, by simp [callStash, betMap, toBytes]⟩

theorem run_agrees (hc : Canonical same ser P) {m : List (K × V)} {b : List (B × V)}
    (h : Agrees ser P m b) {ops : List (Op K V)}
    (hops : ∀ op ∈ ops, ∀ k, op.key? = some k → P k) :
    run (callStash same) m ops = run (betMap ser) b ops := by
  induction ops generalizing m b with
  | nil => rfl
  | cons op ops ih =>
    obtain ⟨hnext, hres⟩ := agrees_step hc h (hops op (by simp))
    rw [run, run, hres, ih hnext fun x hx => hops x (by simp [hx])]

omit [DecidableEq B] in
theorem agrees_empty : Agrees ser P ([] : List (K × V)) [] :=
  ⟨rfl, by simp, List.nodup_nil⟩

/-- One entry and one lookup compare two keys. -/
theorem canonical_of_run (v : V)
    (h : ∀ ops : List (Op K V), run (callStash same) [] ops = run (betMap ser) [] ops) (k k' : K) :
    same k k' = true ↔ ser k = ser k' := by
  have hrun := h [.put k v, .peep k']
  by_cases hs : same k k' = true <;> by_cases hser : ser k = ser k'
  · exact ⟨fun _ => hser, fun _ => hs⟩
  · simp [run, callStash, betMap, putFirst, insert, hs, hser] at hrun
  · simp [run, callStash, betMap, putFirst, insert, hs, hser] at hrun
  · exact ⟨fun h => absurd h hs, fun h => absurd h hser⟩

/-- The two stores give the same results on every sequence exactly when equality and bytes tell
the same keys apart. -/
theorem runs_agree_iff (v : V) :
    (∀ ops : List (Op K V), run (callStash same) [] ops = run (betMap ser) [] ops) ↔
      Canonical same ser fun _ => True := by
  constructor
  · exact fun h k k' _ _ => canonical_of_run v h k k'
  · exact fun hc ops => run_agrees hc agrees_empty fun _ _ _ _ => trivial

end BetLang.Stash
