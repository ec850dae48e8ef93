import Mathlib.Algebra.Group.Nat.Defs
import Mathlib.Data.List.Basic
import Mathlib.Tactic.Common

/-! Cells in byte memory: ranges of addresses that do not overlap keep what was stored in them, so
two ways to lay out the same cells cannot be told apart by loads and stores. -/

namespace Cells

abbrev Byte := BitVec 8

abbrev Addr := BitVec 64

abbrev Mem := Addr → Byte

def load (mem : Mem) (a : Addr) (n : Nat) : List Byte :=
  (List.range n).map fun i => mem (a + BitVec.ofNat 64 i)

def store (mem : Mem) (a : Addr) (v : List Byte) : Mem := fun x => v[(x - a).toNat]?.getD (mem x)

/-- No address is in both ranges. -/
def Apart (a : Addr) (n : Nat) (b : Addr) (k : Nat) : Prop :=
  ∀ x, (x - a).toNat < n → ¬(x - b).toNat < k

theorem Apart.symm {a b : Addr} {n k : Nat} (h : Apart a n b k) : Apart b k a n :=
  fun x hb ha => h x ha hb

theorem offset_toNat (a : Addr) {i : Nat} (hi : i < 2 ^ 64) :
    (a + BitVec.ofNat 64 i - a).toNat = i := by
  rw [BitVec.add_comm, BitVec.add_sub_cancel, BitVec.toNat_ofNat, Nat.mod_eq_of_lt hi]

/-- An address in a part of a range lies that far into the range. -/
theorem within {b x : Addr} {o n : Nat} (hspace : o + n ≤ 2 ^ 64)
    (hx : (x - (b + BitVec.ofNat 64 o)).toNat < n) :
    o ≤ (x - b).toNat ∧ (x - b).toNat < o + n := by
  have ho : (BitVec.ofNat 64 o).toNat = o := by
    rw [BitVec.toNat_ofNat, Nat.mod_eq_of_lt (by omega)]
  rw [BitVec.toNat_sub, BitVec.toNat_add, ho] at hx
  rw [BitVec.toNat_sub]
  have hx64 := x.isLt
  have hb64 := b.isLt
  omega

/-- Parts of one range that come one after the other are apart. -/
theorem apart_parts (b : Addr) {o n o' n' : Nat} (h : o + n ≤ o') (hspace : o' + n' ≤ 2 ^ 64) :
    Apart (b + BitVec.ofNat 64 o) n (b + BitVec.ofNat 64 o') n' := by
  intro x hx hx'
  have hlt := (within (by omega) hx).2
  have hle := (within hspace hx').1
  omega

theorem load_length (mem : Mem) (a : Addr) (n : Nat) : (load mem a n).length = n := by
  simp [load]

theorem load_store_same (mem : Mem) (a : Addr) {v : List Byte} (hv : v.length ≤ 2 ^ 64) :
    load (store mem a v) a v.length = v := by
  apply List.ext_getElem
  · simp [load]
  · intro i hi hi'
    have hlt : i < 2 ^ 64 := Nat.lt_of_lt_of_le hi' hv
    simp only [load, store, List.getElem_map, List.getElem_range, offset_toNat a hlt]
    rw [List.getElem?_eq_getElem hi', Option.getD_some]

theorem load_store_apart (mem : Mem) {a b : Addr} {v : List Byte} {n : Nat} (hn : n ≤ 2 ^ 64)
    (h : Apart a v.length b n) : load (store mem a v) b n = load mem b n := by
  simp only [load]
  refine List.map_congr_left fun i hi => ?_
  have hi := List.mem_range.mp hi
  have hout : ¬(b + BitVec.ofNat 64 i - a).toNat < v.length :=
    h.symm _ (by rw [offset_toNat b (Nat.lt_of_lt_of_le hi hn)]; exact hi)
  rw [store, List.getElem?_eq_none (Nat.le_of_not_lt hout), Option.getD_none]

section Layouts

variable {K : Type}

/-- Cells at addresses, of which the valid ones do not overlap. -/
structure Layout (K : Type) where
  valid : K → Prop
  len : K → Nat
  addr : K → Addr
  len_le : ∀ k, valid k → len k ≤ 2 ^ 64
  apart : ∀ k k', valid k → valid k' → k ≠ k' → Apart (addr k) (len k) (addr k') (len k')

/-- Parts of one range, each before or behind each other one. -/
def Layout.ofParts (base : Addr) (valid : K → Prop) (offset len : K → Nat)
    (hspace : ∀ k, valid k → offset k + len k ≤ 2 ^ 64)
    (horder : ∀ k k', valid k → valid k' → k ≠ k' →
      offset k + len k ≤ offset k' ∨ offset k' + len k' ≤ offset k) : Layout K where
  valid := valid
  len := len
  addr k := base + BitVec.ofNat 64 (offset k)
  len_le k hk := Nat.le_trans (Nat.le_add_left ..) (hspace k hk)
  apart k k' hk hk' hne := by
    rcases horder k k' hk hk' hne with h | h
    · exact apart_parts base h (hspace k' hk')
    · exact (apart_parts base h (hspace k hk)).symm

/-- Parts of ranges that are apart are apart. -/
theorem Apart.parts {a b : Addr} {space space' o n o' n' : Nat} (h : Apart a space b space')
    (hspace : space ≤ 2 ^ 64) (hspace' : space' ≤ 2 ^ 64) (ho : o + n ≤ space)
    (ho' : o' + n' ≤ space') :
    Apart (a + BitVec.ofNat 64 o) n (b + BitVec.ofNat 64 o') n' := by
  intro x hx hx'
  have hlt := (within (Nat.le_trans ho hspace) hx).2
  have hlt' := (within (Nat.le_trans ho' hspace') hx').2
  exact h x (Nat.lt_of_lt_of_le hlt ho) (Nat.lt_of_lt_of_le hlt' ho')

variable (l : Layout K)

def Layout.get (mem : Mem) (k : K) : List Byte := load mem (l.addr k) (l.len k)

variable {l}

theorem get_store_self (mem : Mem) {k : K} (hk : l.valid k) {v : List Byte}
    (hv : v.length = l.len k) : l.get (store mem (l.addr k) v) k = v := by
  rw [Layout.get, ← hv]
  exact load_store_same mem (l.addr k) (hv ▸ l.len_le k hk)

theorem get_store_other (mem : Mem) {k k' : K} (hk : l.valid k) (hk' : l.valid k') (hne : k ≠ k')
    {v : List Byte} (hv : v.length = l.len k) :
    l.get (store mem (l.addr k) v) k' = l.get mem k' :=
  load_store_apart mem (l.len_le k' hk') (by rw [hv]; exact l.apart k k' hk hk' hne)

variable {l' : Layout K}

/-- Two memories hold the same in the same cells. -/
def Same (l l' : Layout K) (mem mem' : Mem) : Prop := ∀ k, l.valid k → l.get mem k = l'.get mem' k

theorem Same.store {mem mem' : Mem} (h : Same l l' mem mem') {k : K}
    (hvalid : ∀ k, l.valid k → l'.valid k) (hlen : ∀ k, l'.len k = l.len k) (hk : l.valid k)
    {v : List Byte} (hv : v.length = l.len k) :
    Same l l' (store mem (l.addr k) v) (store mem' (l'.addr k) v) := by
  intro k' hk'
  have hv' : v.length = l'.len k := hv.trans (hlen k).symm
  by_cases hne : k = k'
  · subst hne
    rw [get_store_self mem hk hv, get_store_self mem' (hvalid k hk) hv']
  · rw [get_store_other mem hk hk' hne hv,
      get_store_other mem' (hvalid k hk) (hvalid k' hk') hne hv']
    exact h k' hk'

/-- A write of `v` to a cell, or a read of it and what the read gives. -/
def Layout.access (l : Layout K) (mem : Mem) (k : K) : Option (List Byte) → Mem × List (List Byte)
  | some v => (Cells.store mem (l.addr k) v, [])
  | none => (mem, [l.get mem k])

theorem Same.access {mem mem' : Mem} (h : Same l l' mem mem') {k : K}
    (hvalid : ∀ k, l.valid k → l'.valid k) (hlen : ∀ k, l'.len k = l.len k) (hk : l.valid k)
    {v : Option (List Byte)} (hv : ∀ w, v = some w → w.length = l.len k) :
    Same l l' (l.access mem k v).1 (l'.access mem' k v).1 ∧
      (l.access mem k v).2 = (l'.access mem' k v).2 := by
  cases v with
  | some w => exact ⟨h.store hvalid hlen hk (hv w rfl), rfl⟩
  | none => exact ⟨h, by rw [Layout.access, Layout.access, h k hk]⟩

/-- Copying cells of one layout, one after the other, into those of another that are elsewhere. -/
def copyCells (l l' : Layout K) (mem : Mem) : List K → Mem
  | [] => mem
  | k :: ks => copyCells l l' (store mem (l'.addr k) (l.get mem k)) ks

theorem copyCells_spec (l l' : Layout K) {ks : List K} (hvalid : ∀ k, l.valid k → l'.valid k)
    (hlen : ∀ k, l'.len k = l.len k)
    (helse : ∀ k k', l.valid k → l.valid k' → Apart (l'.addr k) (l'.len k) (l.addr k') (l.len k'))
    (hks : ∀ k ∈ ks, l.valid k) (mem : Mem) :
    (∀ k, l.valid k → l.get (copyCells l l' mem ks) k = l.get mem k) ∧
      (∀ k, l.valid k → k ∈ ks → l'.get (copyCells l l' mem ks) k = l.get mem k) ∧
        ∀ k, l.valid k → k ∉ ks → l'.get (copyCells l l' mem ks) k = l'.get mem k := by
  induction ks generalizing mem with
  | nil => exact ⟨fun _ _ => rfl, fun _ _ hk => (by cases hk), fun _ _ _ => rfl⟩
  | cons k ks ih =>
    have hk := hks k List.mem_cons_self
    have hv : (l.get mem k).length = l'.len k := by
      rw [Layout.get, load_length, hlen]
    obtain ⟨hkept, hcopied, hother⟩ := ih (fun x hx => hks x (List.mem_cons_of_mem _ hx))
      (store mem (l'.addr k) (l.get mem k))
    have hsource (k' : K) (hk' : l.valid k') :
        l.get (store mem (l'.addr k) (l.get mem k)) k' = l.get mem k' :=
      load_store_apart mem (l.len_le k' hk') (by rw [hv]; exact helse k k' hk hk')
    refine ⟨fun k' hk' => (hkept k' hk').trans (hsource k' hk'), fun k' hk' hmem => ?_,
      fun k' hk' hnot => ?_⟩
    · by_cases hin : k' ∈ ks
      · exact (hcopied k' hk' hin).trans (hsource k' hk')
      · obtain rfl : k' = k := (List.mem_cons.mp hmem).resolve_right hin
        exact (hother k' hk' hin).trans (get_store_self mem (hvalid k' hk) hv)
    · have hne : k ≠ k' := fun h => hnot (h ▸ List.mem_cons_self)
      have hin : k' ∉ ks := fun h => hnot (List.mem_cons_of_mem _ h)
      exact (hother k' hk' hin).trans
        (get_store_other mem (hvalid k hk) (hvalid k' hk') hne hv)

end Layouts

end Cells
