import BetLang.IndexSoundness
import BetLang.Utf8
import Mathlib.Data.List.Forall2

/-! Operations on `str`: the interpreter's host keeps text, a compiled program looks at bytes
through a pointer and a length. -/

namespace BetLang.Strings

open Codegen (boundsCheck boundsCheck_access boundsCheck_addr)
open Llvm (Outcome)
open Utf8 (Byte CaseMap Valid asciiUpper lossy lossy_eq_iff valid_lossy)

/-- A `str` of the interpreter. -/
structure Str where
  bytes : List Byte
  valid : Valid bytes
  small : bytes.length < 2 ^ 63

/-- A `[]u8` or a `vec[u8]` of the interpreter. -/
structure Bytes where
  bytes : List Byte
  small : bytes.length < 2 ^ 63

def Str.empty : Str := ⟨[], Utf8.valid_nil, by decide⟩

def Bytes.empty : Bytes := ⟨[], by decide⟩

/-- The host stops when a text gets longer than it can be. -/
def Str.make (bs : List Byte) (h : Valid bs) : Except String Str :=
  if hs : bs.length < 2 ^ 63 then .ok ⟨bs, h, hs⟩ else .error "capacity overflow"

/-- An integer, at the width that both paths widen it to, or a byte (a byte literal, or an element
of `str.bytes`). -/
inductive Offset where
  | int (v : BitVec 64)
  | byte (b : Byte)

def Offset.isInt : Offset → Bool
  | .int _ => true
  | .byte _ => false

/-- `coerce_int`, to an `i64`. -/
def Offset.toI64 : Offset → BitVec 64
  | .int v => v
  | .byte b => b.zeroExtend 64

/-- One step of a program: the operands name what earlier steps gave, by their places among the
`str`s and among the byte sequences. -/
inductive Op where
  | lit (s : Str)
  | raw (bs : Bytes)
  | glow (x : Nat)
  | len (x : Nat)
  | byteAt (x : Nat) (i : Offset)
  | sub (x : Nat) (start stop : Offset)
  /-- The message of `yikes.new(y).tea(x)`. -/
  | tea (x y : Nat)
  | bytes (x : Nat)
  | fromBytes (y : Nat)
  | fromBytesTrust (y : Nat)
  | vecStr (y : Nat)

/-- A step of the source, which may also be the `+` of two `str`s. -/
inductive Step where
  | op (o : Op)
  | plus (x y : Nat)

section Interp

inductive Value where
  | str (s : Str)
  | bytes (bs : Bytes)
  | int (v : BitVec 64)

structure Env where
  strs : List Str
  seqs : List Bytes

def Env.str (e : Env) (x : Nat) : Str := e.strs[x]?.getD .empty

def Env.seq (e : Env) (y : Nat) : Bytes := e.seqs[y]?.getD .empty

def Env.record (e : Env) : Value → Env
  | .str s => { e with strs := e.strs ++ [s] }
  | .bytes bs => { e with seqs := e.seqs ++ [bs] }
  | .int _ => e

/-- The bytes of `s[start..end]`. -/
def slice (bs : List Byte) (start stop : Nat) : List Byte := (bs.drop start).take (stop - start)

/-- `String::from_utf8_lossy`. -/
def fromUtf8Lossy (bs : List Byte) : Except String Value :=
  (Str.make (lossy bs) (valid_lossy bs)).map .str

/-- `Display` of two texts, with another between them. -/
def Str.join (a sep b : Str) : Except String Value :=
  (Str.make (a.bytes ++ sep.bytes ++ b.bytes) ((a.valid.append sep.valid).append b.valid)).map .str

/-- `": "` -/
def Str.colon : Str := ⟨[0x3A, 0x20], by decide, by decide⟩

/-- `call_str`, and the `tea` and the `str` of `call_method`. -/
def callStr (t : CaseMap) (e : Env) : Op → Except String Value
  | .lit s => .ok (.str s)
  | .raw bs => .ok (.bytes bs)
  | .glow x =>
    (Str.make (t.toUppercase (e.str x).bytes) (t.valid_toUppercase (e.str x).valid)).map .str
  | .len x => .ok (.int (BitVec.ofNat 64 (e.str x).bytes.length))
  | .byteAt x (.int i) =>
    if 0 ≤ i.toInt then
      match (e.str x).bytes[i.toNat]? with
      | some b => .ok (.int (b.zeroExtend 64))
      | none =>
        .error s!"str.at index {i.toNat} out of range (len {(e.str x).bytes.length})"
    else .error "str.at called with the wrong argument shape"
  | .byteAt _ (.byte _) => .error "str.at called with the wrong argument shape"
  | .sub x (.int a) (.int b) =>
    if 0 ≤ a.toInt ∧ a.toInt ≤ b.toInt then
      if b.toNat > (e.str x).bytes.length then
        .error s!"str.sub end {b.toNat} out of range (len {(e.str x).bytes.length})"
      else fromUtf8Lossy (slice (e.str x).bytes a.toNat b.toNat)
    else .error "str.sub called with the wrong argument shape"
  | .sub _ _ _ => .error "str.sub called with the wrong argument shape"
  | .tea x y => (e.str x).join .colon (e.str y)
  | .bytes x => .ok (.bytes ⟨(e.str x).bytes, (e.str x).small⟩)
  | .fromBytes y =>
    if h : Valid (e.seq y).bytes then .ok (.str ⟨(e.seq y).bytes, h, (e.seq y).small⟩)
    else .ok (.str .empty)
  | .fromBytesTrust y => fromUtf8Lossy (e.seq y).bytes
  | .vecStr y => fromUtf8Lossy (e.seq y).bytes

def evalStep (t : CaseMap) (e : Env) : Step → Except String Value
  | .op o => callStr t e o
  | .plus x y => (e.str x).join .empty (e.str y)

/-- What every step gives, up to the first error. -/
def interpRun (t : CaseMap) (e : Env) : List Step → List (Except String Value)
  | [] => []
  | step :: steps =>
    match evalStep t e step with
    | .error msg => [.error msg]
    | .ok v => .ok v :: interpRun t (e.record v) steps

end Interp

section Compiled

/-- A pointer and a length, the pointer as the bytes that memory holds from there on. -/
structure View where
  behind : List Byte
  len : BitVec 64

/-- The bytes of a value that fill an allocation. -/
def View.ofBytes (bs : List Byte) : View := ⟨bs, BitVec.ofNat 64 bs.length⟩

/-- `slice::from_raw_parts` -/
def View.read (v : View) : Outcome (List Byte) :=
  if v.len.toNat ≤ v.behind.length then .ok (v.behind.take v.len.toNat) else .undef

def betStrConcat (a b : View) : Outcome (List Byte) := do
  Outcome.guard (decide (2 ^ 63 ≤ (a.len + b.len).toNat)) "capacity overflow"
  return (← a.read) ++ (← b.read)

def betStrUpper (v : View) : Outcome (List Byte) := do
  return (← v.read).map asciiUpper

def betStrValid (v : View) : Outcome (BitVec 64) := do
  return if Valid (← v.read) then 1#64 else 0#64

/-- `concat_str` -/
def concatStr (a b : View) : Outcome View := do
  return ⟨← betStrConcat a b, a.len + b.len⟩

inductive Held where
  | str (v : View)
  | bytes (v : View)
  | int (v : BitVec 64)

structure Frame where
  strs : List View
  seqs : List View

def Frame.str (f : Frame) (x : Nat) : View := f.strs[x]?.getD ⟨[], 0⟩

def Frame.seq (f : Frame) (y : Nat) : View := f.seqs[y]?.getD ⟨[], 0⟩

def Frame.record (f : Frame) : Held → Frame
  | .str v => { f with strs := f.strs ++ [v] }
  | .bytes v => { f with seqs := f.seqs ++ [v] }
  | .int _ => f

/-- What the lowering of the operation does when it runs. -/
def runLowered (f : Frame) : Op → Outcome Held
  | .lit s => .ok (.str (.ofBytes s.bytes))
  | .raw bs => .ok (.bytes (.ofBytes bs.bytes))
  | .glow x => do return .str ⟨← betStrUpper (f.str x), (f.str x).len⟩
  | .len x => .ok (.int (f.str x).len)
  | .byteAt x i => do
    boundsCheck i.toI64 (f.str x).len .access
    match (f.str x).behind[i.toI64.toNat]? with
    | some b => .ok (.int (b.zeroExtend 64))
    | none => .undef
  | .sub x start stop => do
    boundsCheck start.toI64 (f.str x).len .addr
    return .str ⟨(f.str x).behind.drop start.toI64.toNat, stop.toI64 - start.toI64⟩
  | .tea x y => do
    let prefixed ← concatStr (f.str x) (.ofBytes Str.colon.bytes)
    return .str (← concatStr prefixed (f.str y))
  | .bytes x => .ok (.bytes (f.str x))
  | .fromBytes y => do
    return .str ⟨(f.seq y).behind, (f.seq y).len * (← betStrValid (f.seq y))⟩
  | .fromBytesTrust y => .ok (.str (f.seq y))
  | .vecStr y => do
    return .str ⟨← betStrConcat (f.seq y) ⟨(f.seq y).behind, 0⟩, (f.seq y).len⟩

/-- `lower_agg_eq` takes no `+`: a program with one is not built. -/
def lowerStep : Step → Except String Op
  | .op o => .ok o
  | .plus _ _ => .error "only == / != are defined on aggregate (tag) operands"

def compiledRun (f : Frame) : List Op → List (Outcome Held)
  | [] => []
  | op :: ops =>
    match runLowered f op with
    | .ok v => .ok v :: compiledRun (f.record v) ops
    | r => [r]

end Compiled

/-- The view shows these bytes. -/
def View.Shows (v : View) (bs : List Byte) : Prop := v.len.toNat = bs.length ∧ bs <+: v.behind

/-- The same bytes and length, the same number, or an error of both. -/
def Same : Except String Value → Outcome Held → Prop
  | .ok (.str s), .ok (.str v) => v.Shows s.bytes
  | .ok (.bytes bs), .ok (.bytes v) => v.Shows bs.bytes
  | .ok (.int i), .ok (.int j) => i = j
  | .error _, .trap _ => True
  | _, _ => False

/-- Nothing but ASCII letters changes case; an offset is no byte, and a substring is cut between
characters within the text, unless both paths refuse; bytes taken for text unchecked are text. -/
def Meets (t : CaseMap) (e : Env) : Op → Prop
  | .glow x => t.Caseless (e.str x).bytes
  | .byteAt x i => (e.str x).bytes.length ≤ i.toI64.toNat ∨ i.isInt = true
  | .sub x start stop =>
    (e.str x).bytes.length < start.toI64.toNat ∨
      (start.isInt = true ∧ stop.isInt = true) ∧ start.toI64.toNat ≤ stop.toI64.toNat ∧
        stop.toI64.toNat ≤ (e.str x).bytes.length ∧
        Valid (slice (e.str x).bytes start.toI64.toNat stop.toI64.toNat)
  | .fromBytesTrust y | .vecStr y => Valid (e.seq y).bytes
  | _ => True

instance (t : CaseMap) (e : Env) : (op : Op) → Decidable (Meets t e op)
  | .glow x => inferInstanceAs (Decidable (t.Caseless (e.str x).bytes))
  | .byteAt _ _ | .sub _ _ _ => inferInstanceAs (Decidable (_ ∨ _))
  | .fromBytesTrust y | .vecStr y => inferInstanceAs (Decidable (Valid (e.seq y).bytes))
  | .lit _ | .raw _ | .len _ | .tea _ _ | .bytes _ | .fromBytes _ => isTrue trivial

/-- Every step meets the condition in the state before it. -/
def AllMeet (t : CaseMap) (e : Env) : List Op → Prop
  | [] => True
  | op :: ops => Meets t e op ∧ ∀ v, callStr t e op = .ok v → AllMeet t (e.record v) ops

/-- The program is built, and every step does the same on both paths, up to the first error. -/
def Agree (t : CaseMap) (e : Env) (f : Frame) (steps : List Step) : Prop :=
  ∃ ops, steps.mapM lowerStep = .ok ops ∧
    List.Forall₂ Same (interpRun t e steps) (compiledRun f ops)

section Views

variable {v w : View} {bs bs' : List Byte}

theorem shows_ofBytes (h : bs.length < 2 ^ 63) : (View.ofBytes bs).Shows bs := by
  refine ⟨?_, List.prefix_rfl⟩
  rw [View.ofBytes, BitVec.toNat_ofNat, Nat.mod_eq_of_lt (by omega)]

theorem View.Shows.read (h : v.Shows bs) : v.read = .ok bs := by
  rw [View.read, h.1, if_pos h.2.length_le, ← List.prefix_iff_eq_take.mp h.2]

theorem View.Shows.iff_eq (h : v.Shows bs) : v.Shows bs' ↔ bs' = bs := by
  constructor
  · intro h'
    rw [List.prefix_iff_eq_take.mp h.2, List.prefix_iff_eq_take.mp h'.2, ← h.1, ← h'.1]
  · rintro rfl
    exact h

theorem View.Shows.small (h : v.Shows bs) (hs : bs.length < 2 ^ 63) : v.len.toNat < 2 ^ 63 := by
  rw [h.1]
  exact hs

/-- The part of a view behind an offset. -/
theorem View.Shows.slice (h : v.Shows bs) {a b : BitVec 64} (hab : a.toNat ≤ b.toNat)
    (hb : b.toNat ≤ bs.length) :
    View.Shows ⟨v.behind.drop a.toNat, b - a⟩ (slice bs a.toNat b.toNat) := by
  constructor
  · rw [BitVec.toNat_sub_of_le hab, Strings.slice, List.length_take, List.length_drop]
    omega
  · obtain ⟨rest, hrest⟩ := h.2
    rw [← hrest, List.drop_append_of_le_length (Nat.le_trans hab hb)]
    exact (List.take_prefix _ _).trans (List.prefix_append _ _)

theorem toNat_add_len (h : v.Shows bs) (h' : w.Shows bs') (hs : bs.length < 2 ^ 63)
    (hs' : bs'.length < 2 ^ 63) : (v.len + w.len).toNat = (bs ++ bs').length := by
  rw [BitVec.toNat_add, h.1, h'.1, Nat.mod_eq_of_lt (by omega), List.length_append]

/-- A copy of two views, if it fits. -/
theorem betStrConcat_fits (h : v.Shows bs) (h' : w.Shows bs') (hs : bs.length < 2 ^ 63)
    (hs' : bs'.length < 2 ^ 63) (hfit : (bs ++ bs').length < 2 ^ 63) :
    betStrConcat v w = .ok (bs ++ bs') := by
  have hguard : decide (2 ^ 63 ≤ (v.len + w.len).toNat) = false := by
    rw [toNat_add_len h h' hs hs']
    exact decide_eq_false (Nat.not_le_of_lt hfit)
  rw [betStrConcat, hguard, h.read, h'.read]
  rfl

theorem concatStr_fits (h : v.Shows bs) (h' : w.Shows bs') (hs : bs.length < 2 ^ 63)
    (hs' : bs'.length < 2 ^ 63) (hfit : (bs ++ bs').length < 2 ^ 63) :
    ∃ u, concatStr v w = .ok u ∧ u.Shows (bs ++ bs') := by
  refine ⟨⟨bs ++ bs', v.len + w.len⟩, ?_, toNat_add_len h h' hs hs', List.prefix_rfl⟩
  rw [concatStr, betStrConcat_fits h h' hs hs' hfit]
  rfl

theorem concatStr_full (h : v.Shows bs) (h' : w.Shows bs') (hs : bs.length < 2 ^ 63)
    (hs' : bs'.length < 2 ^ 63) (hfull : ¬(bs ++ bs').length < 2 ^ 63) :
    concatStr v w = .trap "capacity overflow" := by
  have hguard : decide (2 ^ 63 ≤ (v.len + w.len).toNat) = true := by
    rw [toNat_add_len h h' hs hs']
    exact decide_eq_true (Nat.le_of_not_lt hfull)
  rw [concatStr, betStrConcat, hguard]
  rfl

/-- Text that the host makes, against a view of no more bytes than text can have. -/
theorem same_make {h : Valid bs} (hw : w.len.toNat < 2 ^ 63) :
    Same ((Str.make bs h).map .str) (.ok (.str w)) ↔ w.Shows bs := by
  by_cases hs : bs.length < 2 ^ 63
  · rw [Str.make, dif_pos hs]
    exact Iff.rfl
  · rw [Str.make, dif_neg hs]
    constructor
    · exact False.elim
    · intro hshows
      rw [hshows.1] at hw
      exact absurd hw hs

/-- Bytes taken for text unchecked stay the same only if they are text. -/
theorem same_lossy (h : w.Shows bs) (hs : bs.length < 2 ^ 63) :
    Same (fromUtf8Lossy bs) (.ok (.str w)) ↔ Valid bs := by
  rw [fromUtf8Lossy, same_make (h.small hs), h.iff_eq, lossy_eq_iff]

end Views

section Steps

variable {t : CaseMap} {e : Env} {f : Frame}

structure Matches (e : Env) (f : Frame) : Prop where
  strs : List.Forall₂ (fun s v => v.Shows s.bytes) e.strs f.strs
  seqs : List.Forall₂ (fun bs v => v.Shows bs.bytes) e.seqs f.seqs

theorem forall₂_getD {α β : Type} {R : α → β → Prop} {as : List α} {bs : List β} {a : α} {b : β}
    (h : List.Forall₂ R as bs) (hab : R a b) (k : Nat) : R (as[k]?.getD a) (bs[k]?.getD b) := by
  induction h generalizing k with
  | nil => exact hab
  | cons hhead _ ih =>
    cases k with
    | zero => exact hhead
    | succ k => exact ih k

theorem shows_nil : View.Shows ⟨[], 0⟩ [] := ⟨rfl, List.prefix_rfl⟩

theorem Matches.str (h : Matches e f) (x : Nat) : (f.str x).Shows (e.str x).bytes :=
  forall₂_getD h.strs shows_nil x

theorem Matches.seq (h : Matches e f) (y : Nat) : (f.seq y).Shows (e.seq y).bytes :=
  forall₂_getD h.seqs shows_nil y

theorem Matches.record (h : Matches e f) {v : Value} {w : Held} (hsame : Same (.ok v) (.ok w)) :
    Matches (e.record v) (f.record w) := by
  cases v with
  | str s =>
    cases w with
    | str v => exact ⟨List.rel_append h.strs (.cons hsame .nil), h.seqs⟩
    | bytes v => exact hsame.elim
    | int j => exact hsame.elim
  | bytes bs =>
    cases w with
    | str v => exact hsame.elim
    | bytes v => exact ⟨h.strs, List.rel_append h.seqs (.cons hsame .nil)⟩
    | int j => exact hsame.elim
  | int i =>
    cases w with
    | str v => exact hsame.elim
    | bytes v => exact hsame.elim
    | int j => exact h

theorem toInt_of_small {i : BitVec 64} (h : i.toNat < 2 ^ 63) : i.toInt = i.toNat := by
  rw [BitVec.toInt_eq_toNat_cond]
  omega

theorem glow_iff (h : Matches e f) (x : Nat) :
    Same (callStr t e (.glow x)) (runLowered f (.glow x)) ↔ t.Caseless (e.str x).bytes := by
  have hx := h.str x
  have hout : View.Shows ⟨(e.str x).bytes.map asciiUpper, (f.str x).len⟩
      ((e.str x).bytes.map asciiUpper) := ⟨by rw [List.length_map, hx.1], List.prefix_rfl⟩
  have hrun : runLowered f (.glow x) =
      .ok (.str ⟨(e.str x).bytes.map asciiUpper, (f.str x).len⟩) := by
    simp [runLowered, betStrUpper, hx.read]
  have hsmall := hout.small (by rw [List.length_map]; exact (e.str x).small)
  rw [hrun, callStr, same_make hsmall, hout.iff_eq, t.toUppercase_eq_iff (e.str x).valid]

theorem byteAt_iff (h : Matches e f) (x : Nat) (i : Offset) :
    Same (callStr t e (.byteAt x i)) (runLowered f (.byteAt x i)) ↔
      (e.str x).bytes.length ≤ i.toI64.toNat ∨ i.isInt = true := by
  have hx := h.str x
  by_cases hi : (e.str x).bytes.length ≤ i.toI64.toNat
  · have hrun : runLowered f (.byteAt x i) = .trap "index out of bounds" := by
      simp [runLowered, boundsCheck_access, hx.1, hi]
    have herr : ∃ msg, callStr t e (.byteAt x i) = .error msg := by
      cases i with
      | byte b => exact ⟨_, rfl⟩
      | int i =>
        have hget : (e.str x).bytes[i.toNat]? = none := List.getElem?_eq_none hi
        by_cases hneg : 0 ≤ i.toInt
        · exact ⟨_, by rw [callStr, if_pos hneg, hget]⟩
        · exact ⟨_, by rw [callStr, if_neg hneg]⟩
    obtain ⟨msg, herr⟩ := herr
    simp [hrun, herr, Same, hi]
  · have hlt := Nat.lt_of_not_le hi
    obtain ⟨rest, hrest⟩ := hx.2
    have hbyte : (f.str x).behind[i.toI64.toNat]? = some ((e.str x).bytes[i.toI64.toNat]) := by
      rw [← hrest, List.getElem?_append_left hlt, List.getElem?_eq_getElem hlt]
    have hrun : runLowered f (.byteAt x i) =
        .ok (.int ((e.str x).bytes[i.toI64.toNat].zeroExtend 64)) := by
      simp [runLowered, boundsCheck_access, hx.1, hi, hbyte]
    cases i with
    | byte b => simp [hrun, callStr, Same, Offset.isInt, hlt]
    | int i =>
      have hsmall := (e.str x).small
      have hget : (e.str x).bytes[i.toNat]? = some ((e.str x).bytes[i.toNat]) :=
        List.getElem?_eq_getElem hlt
      have hpos : 0 ≤ i.toInt := by
        rw [toInt_of_small (i := i) (Nat.lt_trans hlt hsmall)]
        exact Int.natCast_nonneg _
      rw [hrun, callStr, if_pos hpos, hget]
      exact iff_of_true rfl (Or.inr rfl)

theorem sub_error {x : Nat} {start stop : Offset}
    (h : ¬((start.isInt = true ∧ stop.isInt = true) ∧ start.toI64.toNat ≤ stop.toI64.toNat ∧
      stop.toI64.toNat ≤ (e.str x).bytes.length)) :
    ∃ msg, callStr t e (.sub x start stop) = .error msg := by
  cases start with
  | byte a => exact ⟨_, rfl⟩
  | int a =>
    cases stop with
    | byte b => exact ⟨_, rfl⟩
    | int b =>
      by_cases hab : 0 ≤ a.toInt ∧ a.toInt ≤ b.toInt
      · by_cases hb : b.toNat > (e.str x).bytes.length
        · exact ⟨_, by rw [callStr, if_pos hab, if_pos hb]⟩
        · refine absurd ⟨⟨rfl, rfl⟩, ?_, Nat.le_of_not_lt hb⟩ h
          have ha := BitVec.toInt_eq_toNat_cond a
          have hb' := BitVec.toInt_eq_toNat_cond b
          simp only [Offset.toI64]
          omega
      · exact ⟨_, by rw [callStr, if_neg hab]⟩

theorem sub_slice {x : Nat} {start stop : Offset}
    (hints : start.isInt = true ∧ stop.isInt = true) (hab : start.toI64.toNat ≤ stop.toI64.toNat)
    (hb : stop.toI64.toNat ≤ (e.str x).bytes.length) :
    callStr t e (.sub x start stop) =
      fromUtf8Lossy (slice (e.str x).bytes start.toI64.toNat stop.toI64.toNat) := by
  have hsmall := (e.str x).small
  cases start with
  | byte a => cases hints.1
  | int a =>
    cases stop with
    | byte b => cases hints.2
    | int b =>
      have ha : a.toInt = a.toNat :=
        toInt_of_small (Nat.lt_of_le_of_lt (Nat.le_trans hab hb) hsmall)
      have hb' : b.toInt = b.toNat := toInt_of_small (Nat.lt_of_le_of_lt hb hsmall)
      have hint : 0 ≤ a.toInt ∧ a.toInt ≤ b.toInt := by
        rw [ha, hb']
        exact ⟨Int.natCast_nonneg _, Int.ofNat_le.mpr hab⟩
      have hend : ¬b.toNat > (e.str x).bytes.length := Nat.not_lt_of_le hb
      rw [callStr, if_pos hint, if_neg hend]
      rfl

theorem slice_length_le (bs : List Byte) (start stop : Nat) :
    (slice bs start stop).length ≤ bs.length := by
  rw [slice, List.length_take, List.length_drop]
  omega

theorem sub_iff (h : Matches e f) (x : Nat) (start stop : Offset) :
    Same (callStr t e (.sub x start stop)) (runLowered f (.sub x start stop)) ↔
      Meets t e (.sub x start stop) := by
  have hx := h.str x
  by_cases hstart : (e.str x).bytes.length < start.toI64.toNat
  · have hrun : runLowered f (.sub x start stop) = .trap "index out of bounds" := by
      simp [runLowered, boundsCheck_addr, hx.1, hstart]
    obtain ⟨msg, herr⟩ : ∃ msg, callStr t e (.sub x start stop) = .error msg := sub_error (by omega)
    rw [hrun, herr]
    exact iff_of_true trivial (Or.inl hstart)
  · have hrun : runLowered f (.sub x start stop) = .ok
        (.str ⟨(f.str x).behind.drop start.toI64.toNat, stop.toI64 - start.toI64⟩) := by
      simp [runLowered, boundsCheck_addr, hx.1, hstart]
    by_cases hcut : (start.isInt = true ∧ stop.isInt = true) ∧
        start.toI64.toNat ≤ stop.toI64.toNat ∧ stop.toI64.toNat ≤ (e.str x).bytes.length
    · obtain ⟨hints, hab, hend⟩ := hcut
      have hshows := hx.slice hab hend
      have hsmall := Nat.lt_of_le_of_lt (slice_length_le _ start.toI64.toNat stop.toI64.toNat)
        (e.str x).small
      rw [hrun, sub_slice hints hab hend, same_lossy hshows hsmall, Meets, or_iff_right hstart]
      exact ⟨fun hv => ⟨hints, hab, hend, hv⟩, fun hm => hm.2.2.2⟩
    · obtain ⟨msg, herr⟩ : ∃ msg, callStr t e (.sub x start stop) = .error msg := sub_error hcut
      rw [hrun, herr]
      refine iff_of_false id ?_
      rintro (hout | ⟨hints, hab, hend, _⟩)
      · exact hstart hout
      · exact hcut ⟨hints, hab, hend⟩

theorem tea_same (h : Matches e f) (x y : Nat) :
    Same (callStr t e (.tea x y)) (runLowered f (.tea x y)) := by
  have hcolon := shows_ofBytes Str.colon.small
  by_cases hfront : ((e.str x).bytes ++ Str.colon.bytes).length < 2 ^ 63
  · obtain ⟨u, hu, hushows⟩ :=
      concatStr_fits (h.str x) hcolon (e.str x).small Str.colon.small hfront
    by_cases hfit : ((e.str x).bytes ++ Str.colon.bytes ++ (e.str y).bytes).length < 2 ^ 63
    · obtain ⟨w, hw, hwshows⟩ := concatStr_fits hushows (h.str y) hfront (e.str y).small hfit
      have hrun : runLowered f (.tea x y) = .ok (.str w) := by simp [runLowered, hu, hw]
      rw [hrun]
      exact (same_make (hwshows.small hfit)).mpr hwshows
    · have hw := concatStr_full hushows (h.str y) hfront (e.str y).small hfit
      have hrun : runLowered f (.tea x y) = .trap "capacity overflow" := by
        simp [runLowered, hu, hw]
      rw [hrun, callStr, Str.join, Str.make, dif_neg hfit]
      trivial
  · have hu := concatStr_full (h.str x) hcolon (e.str x).small Str.colon.small hfront
    have hfull : ¬((e.str x).bytes ++ Str.colon.bytes ++ (e.str y).bytes).length < 2 ^ 63 := by
      rw [List.length_append]
      omega
    have hrun : runLowered f (.tea x y) = .trap "capacity overflow" := by simp [runLowered, hu]
    rw [hrun, callStr, Str.join, Str.make, dif_neg hfull]
    trivial

theorem fromBytes_same (h : Matches e f) (y : Nat) :
    Same (callStr t e (.fromBytes y)) (runLowered f (.fromBytes y)) := by
  have hy := h.seq y
  have hrun : runLowered f (.fromBytes y) = .ok (.str ⟨(f.seq y).behind,
      (f.seq y).len * if Valid (e.seq y).bytes then 1#64 else 0#64⟩) := by
    simp [runLowered, betStrValid, hy.read]
  rw [hrun, callStr]
  by_cases hv : Valid (e.seq y).bytes
  · rw [dif_pos hv, if_pos hv, BitVec.mul_one]
    exact hy
  · rw [dif_neg hv, if_neg hv, BitVec.mul_zero]
    exact ⟨rfl, List.nil_prefix⟩

theorem vecStr_iff (h : Matches e f) (y : Nat) :
    Same (callStr t e (.vecStr y)) (runLowered f (.vecStr y)) ↔ Valid (e.seq y).bytes := by
  have hy := h.seq y
  have hnil : View.Shows ⟨(f.seq y).behind, 0⟩ [] := ⟨rfl, List.nil_prefix⟩
  have hcopy := betStrConcat_fits hy hnil (e.seq y).small (by simp)
    (by rw [List.append_nil]; exact (e.seq y).small)
  rw [List.append_nil] at hcopy
  have hrun : runLowered f (.vecStr y) = .ok (.str ⟨(e.seq y).bytes, (f.seq y).len⟩) := by
    rw [runLowered, hcopy]
    rfl
  have hshows : View.Shows ⟨(e.seq y).bytes, (f.seq y).len⟩ (e.seq y).bytes :=
    ⟨hy.1, List.prefix_rfl⟩
  rw [hrun, callStr, same_lossy hshows (e.seq y).small]

/-- A step agrees where it meets the condition, and only there. -/
theorem step_iff (h : Matches e f) (op : Op) :
    Same (callStr t e op) (runLowered f op) ↔ Meets t e op := by
  cases op with
  | lit s => exact iff_of_true (shows_ofBytes s.small) trivial
  | raw bs => exact iff_of_true (shows_ofBytes bs.small) trivial
  | glow x => exact glow_iff h x
  | len x =>
    refine iff_of_true ?_ trivial
    have hlen := congrArg (BitVec.ofNat 64) (h.str x).1
    rw [BitVec.ofNat_toNat, BitVec.setWidth_eq] at hlen
    exact hlen.symm
  | byteAt x i => exact byteAt_iff h x i
  | sub x start stop => exact sub_iff h x start stop
  | tea x y => exact iff_of_true (tea_same h x y) trivial
  | bytes x => exact iff_of_true (h.str x) trivial
  | fromBytes y => exact iff_of_true (fromBytes_same h y) trivial
  | fromBytesTrust y => exact same_lossy (h.seq y) (e.seq y).small
  | vecStr y => exact vecStr_iff h y

theorem run_iff (ops : List Op) (h : Matches e f) :
    List.Forall₂ Same (interpRun t e (ops.map .op)) (compiledRun f ops) ↔ AllMeet t e ops := by
  induction ops generalizing e f with
  | nil => exact iff_of_true .nil trivial
  | cons op ops ih =>
    have hstep := step_iff (t := t) h op
    rw [List.map_cons, interpRun, compiledRun, AllMeet, ← hstep, evalStep]
    cases hi : callStr t e op with
    | error msg =>
      cases hc : runLowered f op with
      | ok w => simp [Same]
      | trap msg' => simp [Same]
      | undef => simp [Same]
    | ok v =>
      cases hc : runLowered f op with
      | ok w =>
        simp only [List.forall₂_cons, Except.ok.injEq, forall_eq']
        exact and_congr_right fun hsame => ih (h.record hsame)
      | trap msg' => simp [Same]
      | undef => simp [Same]

theorem lowerStep_iff {step : Step} {op : Op} : lowerStep step = .ok op ↔ step = .op op := by
  cases step <;> simp [lowerStep]

theorem lowered_iff {steps : List Step} {ops : List Op} :
    steps.mapM lowerStep = .ok ops ↔ steps = ops.map .op := by
  simp only [mapM_ok_iff, lowerStep_iff]
  rw [← List.forall₂_map_right_iff, List.forall₂_eq_eq_eq]

end Steps

/-- Whatever the strings and byte sequences at the start, a program does the same on both paths
exactly when it adds no `str`s and every step of it meets the condition. -/
theorem strings_agree_iff (t : CaseMap) {e : Env} {f : Frame} (h : Matches e f)
    (steps : List Step) :
    Agree t e f steps ↔ ∃ ops, steps = ops.map Step.op ∧ AllMeet t e ops := by
  refine exists_congr fun ops => ?_
  rw [lowered_iff]
  refine and_congr_right fun hsteps => ?_
  rw [hsteps, run_iff ops h]

def acuteText : Str := ⟨[0xC3, 0xA9], by decide, by decide⟩

/-- A table with one accented letter. -/
def acuteMap : CaseMap where
  upper c := if c = acuteText.bytes then [0xC3, 0x89] else c.map asciiUpper
  valid c h := by
    by_cases hc : c = acuteText.bytes
    · rw [if_pos hc]
      decide
    · rw [if_neg hc]
      exact h.asciiUpper.valid
  ne_nil c h := by
    by_cases hc : c = acuteText.bytes
    · rw [if_pos hc]
      exact List.cons_ne_nil _ _
    · rw [if_neg hc]
      exact h.asciiUpper.ne_nil
  ascii b _ := by simp [acuteText]

theorem strings_agree_acute :
    Agree acuteMap ⟨[acuteText], []⟩ ⟨[.ofBytes acuteText.bytes], []⟩
      [.op (.sub 0 (.int 0) (.int 2)), .op (.byteAt 0 (.int 2))] := by
  have hstart : Matches ⟨[acuteText], []⟩ ⟨[.ofBytes acuteText.bytes], []⟩ :=
    ⟨.cons (shows_ofBytes acuteText.small) .nil, .nil⟩
  have hfirst (v : Value) : (Env.record ⟨[acuteText], []⟩ v).str 0 = acuteText := by
    cases v <;> rfl
  refine (strings_agree_iff acuteMap hstart _).mpr
    ⟨[.sub 0 (.int 0) (.int 2), .byteAt 0 (.int 2)], rfl, by decide,
      fun v _ => ⟨Or.inl ?_, fun _ _ => trivial⟩⟩
  rw [hfirst v]
  decide

theorem letter_differs {op : Op} (h : ¬Meets acuteMap ⟨[acuteText], []⟩ op) :
    ¬Agree acuteMap ⟨[], []⟩ ⟨[], []⟩ [.op (.lit acuteText), .op op] := by
  rintro ⟨ops, hlow, hall⟩
  cases hlow
  have hmeet := (run_iff [.lit acuteText, op] ⟨.nil, .nil⟩).mp hall
  exact h (hmeet.2 _ rfl).1

/-- Half of a letter, its uppercase, a substring that ends behind the text, and a sum. -/
theorem acute_letter_differs :
    ¬Agree acuteMap ⟨[], []⟩ ⟨[], []⟩ [.op (.lit acuteText), .op (.sub 0 (.int 0) (.int 1))] ∧
      ¬Agree acuteMap ⟨[], []⟩ ⟨[], []⟩ [.op (.lit acuteText), .op (.glow 0)] ∧
      ¬Agree acuteMap ⟨[], []⟩ ⟨[], []⟩ [.op (.lit acuteText), .op (.sub 0 (.int 0) (.int 3))] ∧
      ¬Agree acuteMap ⟨[], []⟩ ⟨[], []⟩ [.op (.lit acuteText), .plus 0 0] := by
  refine ⟨letter_differs (by decide), letter_differs (by decide), letter_differs (by decide), ?_⟩
  rintro ⟨ops, hlow, _⟩
  cases hlow

end BetLang.Strings
