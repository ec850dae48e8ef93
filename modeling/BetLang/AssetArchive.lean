import BetLang.FixedWidth
import BetLang.LittleEndian
import BetLang.Sequencing
import BetLang.Utf8

/-! The packed image of baked assets: a header, a table of entries of one size, the names and the
payloads. The reader is given files that it has not written. -/

namespace BetLang.BakeFb

open LittleEndian

def headerSize : Nat := 20

def entrySize : Nat := 32

/-- The letters FBD1. -/
def magic : List Byte := [0x46, 0x42, 0x44, 0x31]

def version : BitVec 32 := 1

/-- A string has valid bytes. -/
structure Str where
  bytes : List Byte
  valid : Utf8.Valid bytes

structure Asset where
  name : Str
  kind : BitVec 32
  a : BitVec 32
  b : BitVec 32
  c : BitVec 32
  blob : List Byte

structure ParsedEntry where
  name : Str
  kind : BitVec 32
  a : BitVec 32
  b : BitVec 32
  c : BitVec 32
  payload : List Byte

/-- What is left of an asset when it is read back. -/
def Asset.entry (x : Asset) : ParsedEntry :=
  { name := x.name, kind := x.kind, a := x.a, b := x.b, c := x.c, payload := x.blob }

def ParsedEntry.asset (x : ParsedEntry) : Asset :=
  { name := x.name, kind := x.kind, a := x.a, b := x.b, c := x.c, blob := x.payload }

@[simp] theorem ParsedEntry.entry_asset (x : ParsedEntry) : x.asset.entry = x := rfl

def leU32 (v : BitVec 32) : List Byte := encode 4 v.toNat

@[simp] theorem length_leU32 (v : BitVec 32) : (leU32 v).length = 4 := length_encode 4 _

/-- `as u32`. -/
def asU32 (n : Nat) : BitVec 32 := BitVec.ofNat 32 n

theorem toNat_asU32 {n : Nat} (hn : n < 2 ^ 32) : (asU32 n).toNat = n := by
  simpa [asU32] using hn

/-- A name in the string table, behind its length as `u16`. -/
def stored (name : Str) : List Byte := encode 2 name.bytes.length ++ name.bytes

/-- One round of the two loops that lay pieces one behind the other and note where each starts. -/
def push (piece : Asset → List Byte) (acc : List Byte × List (BitVec 32)) (x : Asset) :
    List Byte × List (BitVec 32) :=
  (acc.1 ++ piece x, acc.2 ++ [asU32 acc.1.length])

def table (piece : Asset → List Byte) (assets : List Asset) : List Byte × List (BitVec 32) :=
  assets.foldl (push piece) ([], [])

def entryRow (x : Asset) (nameOff boff : BitVec 32) : List Byte :=
  leU32 nameOff ++ leU32 x.kind ++ leU32 boff ++ leU32 (asU32 x.blob.length) ++ leU32 x.a ++
    leU32 x.b ++ leU32 x.c ++ leU32 0

def header (count strOff blobOff : BitVec 32) : List Byte :=
  magic ++ leU32 version ++ leU32 count ++ leU32 strOff ++ leU32 blobOff

def writeDat (assets : List Asset) : List Byte :=
  let entryTableSize := assets.length * entrySize
  let strOff := headerSize + entryTableSize
  let names := table (fun x => stored x.name) assets
  let blobOff := strOff + names.1.length
  let blobs := table Asset.blob assets
  let rows := ((assets.zip names.2).zip blobs.2).flatMap fun row => entryRow row.1.1 row.1.2 row.2
  header (asU32 assets.length) (asU32 strOff) (asU32 blobOff) ++ (rows ++ (names.1 ++ blobs.1))

/-- How reading ends without entries: with a message, or by an index out of range. -/
inductive Failure where
  | bail (message : String)
  | panic
deriving DecidableEq

abbrev Reader (α : Type) := Except Failure α

def index (bs : List Byte) (i : Nat) : Reader Byte :=
  match bs[i]? with
  | some b => .ok b
  | none => .error .panic

/-- `&bs[lo..hi]`. -/
def slice (bs : List Byte) (lo hi : Nat) : Reader (List Byte) :=
  if lo ≤ hi ∧ hi ≤ bs.length then .ok ((bs.drop lo).take (hi - lo)) else .error .panic

def rdU32 (bs : List Byte) (k : Nat) : Reader (BitVec 32) := do
  let b0 ← index bs k
  let b1 ← index bs (k + 1)
  let b2 ← index bs (k + 2)
  let b3 ← index bs (k + 3)
  return asU32 (decode [b0, b1, b2, b3])

def fromUtf8 (bs : List Byte) (message : String) : Reader Str :=
  if h : Utf8.Valid bs then .ok ⟨bs, h⟩ else .error (.bail message)

/-- Refuse when the condition holds. -/
def bailIf (p : Prop) [Decidable p] (message : String) : Reader Unit :=
  if p then .error (.bail message) else .ok ()

/-- One round of the loop over the entries. -/
def readEntry (bs : List Byte) (strOff blobOff i : Nat) : Reader ParsedEntry := do
  let base := headerSize + i * entrySize
  bailIf (base + entrySize > bs.length) s!"dat entry {i} runs past end of file"
  let nameOff ← rdU32 bs base
  let kind ← rdU32 bs (base + 4)
  let offset ← rdU32 bs (base + 8)
  let len ← rdU32 bs (base + 12)
  let a ← rdU32 bs (base + 16)
  let b ← rdU32 bs (base + 20)
  let c ← rdU32 bs (base + 24)
  let nptr := strOff + nameOff.toNat
  bailIf (nptr + 2 > bs.length) s!"dat entry {i} name length runs past end of file"
  let n0 ← index bs nptr
  let n1 ← index bs (nptr + 1)
  let nlen := decode [n0, n1]
  let nstart := nptr + 2
  bailIf (nstart + nlen > bs.length) s!"dat entry {i} name runs past end of file"
  let nameBytes ← slice bs nstart (nstart + nlen)
  let name ← fromUtf8 nameBytes s!"dat entry {i} name is not valid UTF-8"
  let pstart := blobOff + offset.toNat
  bailIf (pstart + len.toNat > bs.length) s!"dat entry {i} payload runs past end of file"
  let payload ← slice bs pstart (pstart + len.toNat)
  return { name, kind, a, b, c, payload }

def readDat (bs : List Byte) : Reader (List ParsedEntry) := do
  bailIf (bs.length < headerSize) s!"dat too short: {bs.length} bytes (< header)"
  bailIf (bs.take 4 ≠ magic) "dat has bad magic (expected FBD1)"
  let v ← rdU32 bs 4
  bailIf (v ≠ version) s!"dat unsupported version {v.toNat} (expected {version.toNat})"
  let count ← rdU32 bs 8
  let strOff ← rdU32 bs 12
  let blobOff ← rdU32 bs 16
  (List.range count.toNat).mapM (readEntry bs strOff.toNat blobOff.toNat)

section Reading

variable {bs : List Byte} {k : Nat}

theorem index_ok_iff {b : Byte} : index bs k = .ok b ↔ bs[k]? = some b := by
  cases h : bs[k]? <;> simp [index, h]

theorem index_ok (hk : k < bs.length) : ∃ b, index bs k = .ok b :=
  ⟨bs[k], index_ok_iff.mpr (List.getElem?_eq_getElem hk)⟩

theorem slice_ok {lo hi : Nat} (hlo : lo ≤ hi) (hhi : hi ≤ bs.length) :
    slice bs lo hi = .ok ((bs.drop lo).take (hi - lo)) := if_pos ⟨hlo, hhi⟩

theorem slice_ok_iff {n : Nat} {part : List Byte} :
    slice bs k (k + n) = .ok part ↔ At bs k part ∧ part.length = n := by
  constructor
  · intro h
    by_cases hn : k + n ≤ bs.length
    · rw [slice_ok (Nat.le_add_right ..) hn, Nat.add_sub_cancel_left] at h
      cases h
      refine ⟨at_take hn, ?_⟩
      rw [List.length_take, List.length_drop]
      omega
    · rw [slice, if_neg fun hle => hn hle.2] at h
      cases h
  · rintro ⟨hat, rfl⟩
    rw [slice_ok (Nat.le_add_right ..) hat.length_le, Nat.add_sub_cancel_left, hat.take]

theorem rdU32_ok (hk : k + 4 ≤ bs.length) : ∃ v, rdU32 bs k = .ok v := by
  obtain ⟨b0, h0⟩ := index_ok (show k < bs.length by omega)
  obtain ⟨b1, h1⟩ := index_ok (show k + 1 < bs.length by omega)
  obtain ⟨b2, h2⟩ := index_ok (show k + 2 < bs.length by omega)
  obtain ⟨b3, h3⟩ := index_ok (show k + 3 < bs.length by omega)
  exact ⟨_, by simp only [rdU32, h0, h1, h2, h3]; rfl⟩

theorem leU32_decode {b0 b1 b2 b3 : Byte} :
    leU32 (asU32 (decode [b0, b1, b2, b3])) = [b0, b1, b2, b3] := by
  have hpow : 256 ^ [b0, b1, b2, b3].length = 2 ^ 32 := by simp
  have hlt := decode_lt [b0, b1, b2, b3]
  rw [hpow] at hlt
  rw [leU32, toNat_asU32 hlt]
  exact encode_decode [b0, b1, b2, b3]

theorem asU32_decode (v : BitVec 32) : asU32 (decode (leU32 v)) = v := by
  have hv : v.toNat % 256 ^ 4 = v.toNat := Nat.mod_eq_of_lt v.isLt
  rw [leU32, decode_encode, hv, asU32, BitVec.ofNat_toNat, BitVec.setWidth_eq]

theorem rdU32_ok_iff {v : BitVec 32} : rdU32 bs k = .ok v ↔ At bs k (leU32 v) := by
  constructor
  · intro h
    obtain ⟨b0, h0, h⟩ := except_bind_ok h
    obtain ⟨b1, h1, h⟩ := except_bind_ok h
    obtain ⟨b2, h2, h⟩ := except_bind_ok h
    obtain ⟨b3, h3, h⟩ := except_bind_ok h
    cases h
    have h3' : At bs (k + 3) [b3] := at_singleton.mpr (index_ok_iff.mp h3)
    rw [leU32_decode, at_cons, at_cons, at_cons]
    exact ⟨index_ok_iff.mp h0, index_ok_iff.mp h1, index_ok_iff.mp h2, h3'⟩
  · intro h
    have hv := asU32_decode v
    obtain ⟨b0, b1, b2, b3, hbytes⟩ : ∃ b0 b1 b2 b3, leU32 v = [b0, b1, b2, b3] := ⟨_, _, _, _, rfl⟩
    rw [hbytes, at_cons, at_cons, at_cons, at_singleton] at h
    obtain ⟨h0, h1, h2, h3⟩ := h
    rw [← hv, hbytes]
    simp only [rdU32, index_ok_iff.mpr h0, index_ok_iff.mpr h1, index_ok_iff.mpr h2,
      index_ok_iff.mpr h3, except_ok_bind]
    rfl

theorem bailIf_false {p : Prop} [Decidable p] {message : String} (hp : ¬p) :
    bailIf p message = .ok () := if_neg hp

theorem bailIf_ok {p : Prop} [Decidable p] {message : String} {u : Unit}
    (h : bailIf p message = .ok u) : ¬p := by
  intro hp
  rw [bailIf, if_pos hp] at h
  cases h

end Reading

section Written

variable {assets : List Asset} {piece : Asset → List Byte} {i : Nat}

/-- Where the piece of asset `i` starts. -/
def startOf (piece : Asset → List Byte) (assets : List Asset) (i : Nat) : Nat :=
  ((assets.take i).flatMap piece).length

theorem foldl_push (piece : Asset → List Byte) (assets : List Asset) (tab : List Byte)
    (offs : List (BitVec 32)) :
    assets.foldl (push piece) (tab, offs) =
      (tab ++ assets.flatMap piece,
        offs ++ (List.range assets.length).map fun i => asU32 (tab.length + startOf piece assets i)) := by
  induction assets generalizing tab offs with
  | nil => simp
  | cons x assets ih =>
    have hstart : ∀ i, startOf piece (x :: assets) (i + 1) = (piece x).length + startOf piece assets i := by
      intro i
      simp [startOf]
    have hzero : startOf piece (x :: assets) 0 = 0 := rfl
    rw [List.foldl_cons, push, ih, List.length_cons, List.range_succ_eq_map]
    simp [hstart, hzero, Nat.add_assoc, Function.comp_def]

theorem table_eq (piece : Asset → List Byte) (assets : List Asset) :
    table piece assets =
      (assets.flatMap piece, (List.range assets.length).map fun i => asU32 (startOf piece assets i)) := by
  simp [table, foldl_push]

def strOff (assets : List Asset) : Nat := headerSize + assets.length * entrySize

def names (assets : List Asset) : List Byte := assets.flatMap fun x => stored x.name

def blobOff (assets : List Asset) : Nat := strOff assets + (names assets).length

def rowOf (assets : List Asset) (x : Asset) (i : Nat) : List Byte :=
  entryRow x (asU32 (startOf (fun x => stored x.name) assets i)) (asU32 (startOf Asset.blob assets i))

def rows (assets : List Asset) : List Byte :=
  assets.zipIdx.flatMap fun p => rowOf assets p.1 p.2

theorem length_entryRow (x : Asset) (nameOff boff : BitVec 32) :
    (entryRow x nameOff boff).length = entrySize := by
  simp [entryRow, entrySize]

theorem length_rowOf (assets : List Asset) (x : Asset) (i : Nat) :
    (rowOf assets x i).length = entrySize :=
  length_entryRow ..

theorem length_header (count strOff blobOff : BitVec 32) :
    (header count strOff blobOff).length = headerSize := by
  simp [header, headerSize, magic]

theorem writeDat_eq (assets : List Asset) :
    writeDat assets =
      header (asU32 assets.length) (asU32 (strOff assets)) (asU32 (blobOff assets)) ++
        (rows assets ++ (names assets ++ assets.flatMap Asset.blob)) := by
  have hrows : ((assets.zip ((List.range assets.length).map fun i =>
      asU32 (startOf (fun x => stored x.name) assets i))).zip
        ((List.range assets.length).map fun i => asU32 (startOf Asset.blob assets i))).map
          (fun row => entryRow row.1.1 row.1.2 row.2) =
      assets.zipIdx.map fun p => rowOf assets p.1 p.2 := by
    apply List.ext_getElem
    · simp
    · intro i hi hi'
      simp [rowOf]
  have hflat := congrArg List.flatten hrows
  rw [← List.flatMap_def, ← List.flatMap_def] at hflat
  rw [writeDat, table_eq, table_eq]
  exact congrArg (fun r => header _ _ _ ++ (r ++ _)) hflat

theorem length_rows (assets : List Asset) : (rows assets).length = assets.length * entrySize := by
  rw [rows, FixedWidth.length_flatMap (n := entrySize) (fun p _ => length_rowOf assets p.1 p.2),
    List.length_zipIdx]

theorem header_at (assets : List Asset) :
    At (writeDat assets) 0
      (header (asU32 assets.length) (asU32 (strOff assets)) (asU32 (blobOff assets))) := by
  rw [writeDat_eq]
  exact at_zero _ _

theorem row_at (hi : i < assets.length) :
    At (writeDat assets) (headerSize + i * entrySize) (rowOf assets assets[i] i) := by
  have hrow := at_flatMap (fun p : Asset × Nat => rowOf assets p.1 p.2) assets.zipIdx (i := i)
    (by simpa using hi)
  rw [FixedWidth.length_flatMap (n := entrySize) fun p _ => length_rowOf assets p.1 p.2, List.length_take_of_le (by simp; omega)] at hrow
  rw [writeDat_eq, ← length_header (asU32 assets.length) (asU32 (strOff assets)) (asU32 (blobOff assets))]
  apply at_front
  simpa [rows] using hrow.mono (names assets ++ assets.flatMap Asset.blob)

theorem name_at (hi : i < assets.length) :
    At (writeDat assets) (strOff assets + startOf (fun x => stored x.name) assets i)
      (stored assets[i].name) := by
  have hname := at_flatMap (fun x : Asset => stored x.name) assets hi
  rw [writeDat_eq, strOff,
    ← length_header (asU32 assets.length) (asU32 (strOff assets)) (asU32 (blobOff assets)),
    ← length_rows, Nat.add_assoc]
  exact at_front (at_front (hname.mono _))

theorem blob_at (hi : i < assets.length) :
    At (writeDat assets) (blobOff assets + startOf Asset.blob assets i) assets[i].blob := by
  have hblob := at_flatMap Asset.blob assets hi
  rw [writeDat_eq, blobOff, strOff,
    ← length_header (asU32 assets.length) (asU32 (strOff assets)) (asU32 (blobOff assets)),
    ← length_rows, Nat.add_assoc, Nat.add_assoc, Nat.add_assoc]
  exact at_front (at_front (at_front hblob))

end Written

end BetLang.BakeFb
