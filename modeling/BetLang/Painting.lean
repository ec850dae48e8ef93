import Mathlib.Tactic.Common

/-! Loops that write a buffer cell by cell: the area they cover, and the value that they leave there. -/

namespace Painting

variable {α β : Type}

/-- `draw` writes `value` to the cells of `area` and keeps every other one. -/
structure Paints (draw : List α → List α) (area : Nat → Prop) (value : Nat → α) : Prop where
  length : ∀ buf, (draw buf).length = buf.length
  inside : ∀ buf i, area i → i < buf.length → (draw buf)[i]? = some (value i)
  outside : ∀ buf i, ¬area i → (draw buf)[i]? = buf[i]?

theorem Paints.congr {draw : List α → List α} {area area' : Nat → Prop} {value : Nat → α}
    (h : Paints draw area value) (harea : ∀ i, area' i ↔ area i) : Paints draw area' value where
  length := h.length
  inside buf i hi := h.inside buf i ((harea i).mp hi)
  outside buf i hi := h.outside buf i fun ha => hi ((harea i).mpr ha)

theorem paints_nothing {area : Nat → Prop} {value : Nat → α} (h : ∀ i, ¬area i) :
    Paints (fun buf => buf) area value where
  length _ := rfl
  inside _ i hi := (h i hi).elim
  outside _ _ _ := rfl

theorem paints_set {value : Nat → α} {v : α} (j : Nat) (hv : value j = v) :
    Paints (fun buf => buf.set j v) (· = j) value where
  length buf := List.length_set
  inside buf i hi hlt := by
    subst hi
    rw [List.getElem?_set_self hlt, hv]
  outside buf i hi := List.getElem?_set_ne fun heq => hi heq.symm

theorem Paints.andThen {first second : List α → List α} {area area' : Nat → Prop} {value : Nat → α}
    (h : Paints first area value) (h' : Paints second area' value) :
    Paints (fun buf => second (first buf)) (fun i => area i ∨ area' i) value where
  length buf := by rw [h'.length, h.length]
  inside buf i hi hlt := by
    by_cases ha : area' i
    · exact h'.inside (first buf) i ha (by rw [h.length]; exact hlt)
    · rw [h'.outside (first buf) i ha]
      exact h.inside buf i (hi.resolve_right ha) hlt
  outside buf i hi := by
    rw [h'.outside _ i fun ha => hi (.inr ha), h.outside buf i fun ha => hi (.inl ha)]

/-- A loop covers what its rounds cover. -/
theorem Paints.loop {draw : β → List α → List α} {area : β → Nat → Prop} {value : Nat → α}
    {l : List β} (h : ∀ b ∈ l, Paints (draw b) (area b) value) :
    Paints (fun buf => l.foldl (fun buf b => draw b buf) buf) (fun i => ∃ b ∈ l, area b i) value := by
  induction l with
  | nil => exact paints_nothing fun i ⟨_, hb, _⟩ => nomatch hb
  | cons b l ih =>
    have hfirst := h b List.mem_cons_self
    have hrest := ih fun b' hb' => h b' (List.mem_cons_of_mem _ hb')
    refine (hfirst.andThen hrest).congr fun i => ?_
    simp only [List.mem_cons, or_and_right, exists_or, exists_eq_left]

section RowMajor

theorem index_mod {width px : Nat} (py : Nat) (hpx : px < width) : (py * width + px) % width = px := by
  rw [Nat.mul_comm, Nat.mul_add_mod, Nat.mod_eq_of_lt hpx]

theorem index_div {width px : Nat} (py : Nat) (hpx : px < width) : (py * width + px) / width = py := by
  rw [Nat.mul_comm, Nat.mul_add_div (by omega), Nat.div_eq_of_lt hpx, Nat.add_zero]

theorem index_lt {width height px py : Nat} (hpx : px < width) (hpy : py < height) :
    py * width + px < width * height := by
  have hmul : (py + 1) * width ≤ height * width := Nat.mul_le_mul_right width hpy
  rw [Nat.add_mul, Nat.one_mul] at hmul
  rw [Nat.mul_comm width]
  omega

end RowMajor

section Fallible

variable {ε : Type}

/-- On a buffer of `n` cells, `draw` goes through and changes only cells of `area`. -/
def Draws (draw : List α → Except ε (List α)) (n : Nat) (area : Nat → Prop) : Prop :=
  ∀ buf, buf.length = n →
    ∃ buf', draw buf = .ok buf' ∧ buf'.length = n ∧ ∀ i, ¬area i → buf'[i]? = buf[i]?

theorem draws_nothing {n : Nat} {area : Nat → Prop} :
    Draws (Except.ok : List α → Except ε (List α)) n area :=
  fun buf hbuf => ⟨buf, rfl, hbuf, fun _ _ => rfl⟩

theorem draws_loop {draw : β → List α → Except ε (List α)} {n : Nat} {area : Nat → Prop} {l : List β}
    (h : ∀ b ∈ l, Draws (draw b) n area) :
    Draws (fun buf => l.foldlM (fun buf b => draw b buf) buf) n area := by
  induction l with
  | nil => exact draws_nothing
  | cons b l ih =>
    intro buf hbuf
    obtain ⟨mid, hfirst, hmid, hkept⟩ := h b List.mem_cons_self buf hbuf
    obtain ⟨last, hrest, hlast, hkept'⟩ :=
      ih (fun b' hb' => h b' (List.mem_cons_of_mem _ hb')) mid hmid
    refine ⟨last, ?_, hlast, fun i hi => by rw [hkept' i hi, hkept i hi]⟩
    dsimp only
    rw [List.foldlM_cons, hfirst]
    exact hrest

/-- A loop that goes through has gone through each of its rounds. -/
theorem ok_each {draw : β → List α → Except ε (List α)} {l : List β} {buf buf' : List α}
    (h : l.foldlM (fun buf b => draw b buf) buf = .ok buf') {b : β} (hb : b ∈ l) :
    ∃ before after, draw b before = .ok after := by
  induction l generalizing buf with
  | nil => cases hb
  | cons b' l ih =>
    rw [List.foldlM_cons] at h
    cases hround : draw b' buf with
    | error e =>
      rw [hround] at h
      cases h
    | ok mid =>
      rw [hround] at h
      rcases List.mem_cons.mp hb with rfl | hb
      · exact ⟨buf, mid, hround⟩
      · exact ih h hb

/-- Where `draw` goes through, it changes only cells of `area`, and each as `write` says. -/
def Touches (draw : List α → Except ε (List α)) (area : Nat → Prop) (write : Nat → α → α → Prop) :
    Prop :=
  ∀ buf buf', draw buf = .ok buf' → buf'.length = buf.length ∧
    ∀ i, buf'[i]? = buf[i]? ∨
      area i ∧ ∃ old new, buf[i]? = some old ∧ buf'[i]? = some new ∧ write i old new

theorem touches_nothing {area : Nat → Prop} {write : Nat → α → α → Prop} :
    Touches (Except.ok : List α → Except ε (List α)) area write := by
  rintro buf _ ⟨⟩
  exact ⟨rfl, fun _ => .inl rfl⟩

theorem Touches.mono {draw : List α → Except ε (List α)} {area area' : Nat → Prop}
    {write : Nat → α → α → Prop} (h : Touches draw area write) (harea : ∀ i, area i → area' i) :
    Touches draw area' write := by
  intro buf buf' hok
  obtain ⟨hlen, hcells⟩ := h buf buf' hok
  refine ⟨hlen, fun i => ?_⟩
  rcases hcells i with hkept | ⟨hin, hwrite⟩
  · exact .inl hkept
  · exact .inr ⟨harea i hin, hwrite⟩

/-- When the rounds of a loop have disjoint areas, no cell is written twice. -/
theorem touches_loop {draw : β → List α → Except ε (List α)} {area : β → Nat → Prop}
    {write : Nat → α → α → Prop} {l : List β} (h : ∀ b ∈ l, Touches (draw b) (area b) write)
    (hdisjoint : l.Pairwise fun b b' => ∀ i, area b i → ¬area b' i) :
    Touches (fun buf => l.foldlM (fun buf b => draw b buf) buf) (fun i => ∃ b ∈ l, area b i)
      write := by
  induction l with
  | nil => exact touches_nothing
  | cons b l ih =>
    obtain ⟨hapart, hrest⟩ := List.pairwise_cons.mp hdisjoint
    intro buf buf' hok
    dsimp only at hok
    rw [List.foldlM_cons] at hok
    cases hround : draw b buf with
    | error e =>
      rw [hround] at hok
      cases hok
    | ok mid =>
      rw [hround] at hok
      obtain ⟨hlen, hfirst⟩ := h b List.mem_cons_self buf mid hround
      obtain ⟨hlen', hlater⟩ :=
        ih (fun b' hb' => h b' (List.mem_cons_of_mem _ hb')) hrest mid buf' hok
      refine ⟨hlen'.trans hlen, fun i => ?_⟩
      rcases hlater i with hkept | ⟨⟨b', hb', hin⟩, old, new, hold, hnew, hwrite⟩
      · rw [hkept]
        rcases hfirst i with hkept' | ⟨hin, hwrite⟩
        · exact .inl hkept'
        · exact .inr ⟨⟨b, List.mem_cons_self, hin⟩, hwrite⟩
      · rcases hfirst i with hkept' | ⟨hin', _⟩
        · rw [hkept'] at hold
          exact .inr ⟨⟨b', List.mem_cons_of_mem _ hb', hin⟩, old, new, hold, hnew, hwrite⟩
        · exact absurd hin (hapart b' hb' i hin')

end Fallible

end Painting
