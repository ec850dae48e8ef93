import BetLang.AssetArchive

/-! Reading an image back: what the reader makes of any file, and of the files that are written. -/

namespace BetLang.BakeFb

open LittleEndian

section Files

variable {bs : List Byte}

theorem bailIf_ne_panic {p : Prop} [Decidable p] {message : String} :
    bailIf p message ≠ .error .panic := by
  by_cases hp : p
  · simp [bailIf, hp]
  · simp [bailIf, hp]

/-- A check that goes through leaves its guard behind; one that does not is no panic. -/
theorem guarded {α : Type} {p : Prop} [Decidable p] {message : String} {f : Unit → Reader α}
    (hf : ¬p → f () ≠ .error .panic) : (bailIf p message >>= f) ≠ .error .panic := by
  by_cases hp : p
  · rw [bailIf, if_pos hp]
    intro h
    cases h
  · rw [bailIf_false hp, except_ok_bind]
    exact hf hp

theorem readEntry_ne_panic (bs : List Byte) (strOff blobOff i : Nat) :
    readEntry bs strOff blobOff i ≠ .error .panic := by
  refine guarded fun hrow => ?_
  have hword : ∀ j, j + 4 ≤ entrySize → ∃ v, rdU32 bs (headerSize + i * entrySize + j) = .ok v :=
    fun j hj => rdU32_ok (by omega)
  obtain ⟨nameOff, h0⟩ := hword 0 (by decide)
  obtain ⟨kind, h4⟩ := hword 4 (by decide)
  obtain ⟨offset, h8⟩ := hword 8 (by decide)
  obtain ⟨len, h12⟩ := hword 12 (by decide)
  obtain ⟨a, h16⟩ := hword 16 (by decide)
  obtain ⟨b, h20⟩ := hword 20 (by decide)
  obtain ⟨c, h24⟩ := hword 24 (by decide)
  rw [Nat.add_zero] at h0
  simp only [h0, h4, h8, h12, h16, h20, h24, except_ok_bind]
  refine guarded fun hlen => ?_
  obtain ⟨n0, hn0⟩ := index_ok (show strOff + nameOff.toNat < bs.length by omega)
  obtain ⟨n1, hn1⟩ := index_ok (show strOff + nameOff.toNat + 1 < bs.length by omega)
  simp only [hn0, hn1, except_ok_bind]
  refine guarded fun hname => ?_
  rw [slice_ok (Nat.le_add_right ..) (by omega), except_ok_bind]
  by_cases hvalid : Utf8.Valid ((bs.drop (strOff + nameOff.toNat + 2)).take
      (strOff + nameOff.toNat + 2 + decode [n0, n1] - (strOff + nameOff.toNat + 2)))
  · rw [fromUtf8, dif_pos hvalid, except_ok_bind]
    refine guarded fun hpayload => ?_
    rw [slice_ok (Nat.le_add_right ..) (by omega), except_ok_bind]
    intro h
    cases h
  · rw [fromUtf8, dif_neg hvalid]
    intro h
    cases h

theorem mapM_ne_panic {α β : Type} {f : α → Reader β} (hf : ∀ x, f x ≠ .error .panic) (xs : List α) :
    xs.mapM f ≠ .error .panic := by
  induction xs with
  | nil =>
    intro h
    cases h
  | cons x xs ih =>
    rw [List.mapM_cons]
    cases hx : f x with
    | error e =>
      intro h
      cases h
      exact hf x hx
    | ok y =>
      rw [except_ok_bind]
      cases hxs : xs.mapM f with
      | error e =>
        intro h
        cases h
        exact ih hxs
      | ok ys =>
        intro h
        cases h

theorem readDat_ne_panic (bs : List Byte) : readDat bs ≠ .error .panic := by
  refine guarded fun hlen => guarded fun hmagic => ?_
  have hword : ∀ k, k + 4 ≤ headerSize → ∃ v, rdU32 bs k = .ok v := fun k hk => rdU32_ok (by omega)
  obtain ⟨v, hv⟩ := hword 4 (by decide)
  obtain ⟨count, hcount⟩ := hword 8 (by decide)
  obtain ⟨strOff, hstr⟩ := hword 12 (by decide)
  obtain ⟨blobOff, hblob⟩ := hword 16 (by decide)
  simp only [hv, hcount, hstr, hblob, except_ok_bind]
  exact guarded fun hversion => mapM_ne_panic (readEntry_ne_panic bs _ _) _

/-- What is read back of a row. -/
def entryWords (e : ParsedEntry) (nameOff boff : BitVec 32) : List Byte :=
  leU32 nameOff ++ leU32 e.kind ++ leU32 boff ++ leU32 (asU32 e.payload.length) ++ leU32 e.a ++
    leU32 e.b ++ leU32 e.c

/-- Entry `i` of a file: a row, and a name and a payload where the row says. -/
structure HoldsEntry (bs : List Byte) (strOff blobOff i : Nat) (e : ParsedEntry) : Prop where
  complete : headerSize + i * entrySize + entrySize ≤ bs.length
  placed : ∃ nameOff boff : BitVec 32, At bs (headerSize + i * entrySize) (entryWords e nameOff boff) ∧
    At bs (strOff + nameOff.toNat) (stored e.name) ∧ At bs (blobOff + boff.toNat) e.payload
  name_lt : e.name.bytes.length < 2 ^ 16
  payload_lt : e.payload.length < 2 ^ 32

/-- The files that hold these entries, in this order. -/
structure Holds (bs : List Byte) (es : List ParsedEntry) : Prop where
  count_lt : es.length < 2 ^ 32
  placed : ∃ strOff blobOff : BitVec 32, At bs 0 (header (asU32 es.length) strOff blobOff) ∧
    ∀ i (hi : i < es.length), HoldsEntry bs strOff.toNat blobOff.toNat i es[i]

theorem entryWords_at {k : Nat} {e : ParsedEntry} {nameOff boff : BitVec 32} :
    At bs k (entryWords e nameOff boff) ↔
      At bs k (leU32 nameOff) ∧ At bs (k + 4) (leU32 e.kind) ∧ At bs (k + 8) (leU32 boff) ∧
        At bs (k + 12) (leU32 (asU32 e.payload.length)) ∧ At bs (k + 16) (leU32 e.a) ∧
        At bs (k + 20) (leU32 e.b) ∧ At bs (k + 24) (leU32 e.c) := by
  simp [entryWords, at_append]

theorem stored_at {k : Nat} {name : Str} (hname : name.bytes.length < 2 ^ 16) :
    At bs k (stored name) ↔ ∃ n0 n1, bs[k]? = some n0 ∧ bs[k + 1]? = some n1 ∧
      decode [n0, n1] = name.bytes.length ∧ At bs (k + 2) name.bytes := by
  have hlen : name.bytes.length % 256 ^ 2 = name.bytes.length := Nat.mod_eq_of_lt hname
  constructor
  · intro h
    obtain ⟨n0, n1, hbytes⟩ : ∃ n0 n1, encode 2 name.bytes.length = [n0, n1] := ⟨_, _, rfl⟩
    have hdecode : decode [n0, n1] = name.bytes.length := by rw [← hbytes, decode_encode, hlen]
    rw [stored, hbytes, List.cons_append, List.singleton_append, at_cons, at_cons] at h
    exact ⟨n0, n1, h.1, h.2.1, hdecode, h.2.2⟩
  · rintro ⟨n0, n1, h0, h1, hdecode, hrest⟩
    have hbytes : encode 2 name.bytes.length = [n0, n1] := by
      rw [← hdecode]
      exact encode_decode [n0, n1]
    rw [stored, hbytes, List.cons_append, List.singleton_append, at_cons, at_cons]
    exact ⟨h0, h1, hrest⟩

theorem readEntry_ok_iff {strOff blobOff i : Nat} {e : ParsedEntry} :
    readEntry bs strOff blobOff i = .ok e ↔ HoldsEntry bs strOff blobOff i e := by
  constructor
  · intro h
    obtain ⟨_, hcomplete, h⟩ := except_bind_ok h
    obtain ⟨nameOff, h0, h⟩ := except_bind_ok h
    obtain ⟨kind, h4, h⟩ := except_bind_ok h
    obtain ⟨boff, h8, h⟩ := except_bind_ok h
    obtain ⟨len, h12, h⟩ := except_bind_ok h
    obtain ⟨a, h16, h⟩ := except_bind_ok h
    obtain ⟨b, h20, h⟩ := except_bind_ok h
    obtain ⟨c, h24, h⟩ := except_bind_ok h
    obtain ⟨_, -, h⟩ := except_bind_ok h
    obtain ⟨n0, hn0, h⟩ := except_bind_ok h
    obtain ⟨n1, hn1, h⟩ := except_bind_ok h
    obtain ⟨_, -, h⟩ := except_bind_ok h
    obtain ⟨nameBytes, hslice, h⟩ := except_bind_ok h
    obtain ⟨name, hutf8, h⟩ := except_bind_ok h
    obtain ⟨_, -, h⟩ := except_bind_ok h
    obtain ⟨payload, hpayload, h⟩ := except_bind_ok h
    cases h
    obtain ⟨hnameAt, hnameLen⟩ := slice_ok_iff.mp hslice
    obtain ⟨hpayloadAt, hpayloadLen⟩ := slice_ok_iff.mp hpayload
    have hname : name.bytes = nameBytes := by
      by_cases hvalid : Utf8.Valid nameBytes
      · rw [fromUtf8, dif_pos hvalid] at hutf8
        cases hutf8
        rfl
      · rw [fromUtf8, dif_neg hvalid] at hutf8
        cases hutf8
    have hlen : asU32 payload.length = len := by
      rw [hpayloadLen, asU32, BitVec.ofNat_toNat, BitVec.setWidth_eq]
    have hpow : 256 ^ [n0, n1].length = 2 ^ 16 := by simp
    have hlt := decode_lt [n0, n1]
    rw [hpow, ← hnameLen, ← hname] at hlt
    have hnot := bailIf_ok hcomplete
    refine ⟨by omega, ⟨nameOff, boff, entryWords_at.mpr ⟨rdU32_ok_iff.mp h0, rdU32_ok_iff.mp h4,
      rdU32_ok_iff.mp h8, hlen ▸ rdU32_ok_iff.mp h12, rdU32_ok_iff.mp h16, rdU32_ok_iff.mp h20,
      rdU32_ok_iff.mp h24⟩, (stored_at hlt).mpr ⟨n0, n1, index_ok_iff.mp hn0, index_ok_iff.mp hn1,
      by rw [hname, hnameLen], hname ▸ hnameAt⟩, hpayloadAt⟩, hlt, hpayloadLen ▸ len.isLt⟩
  · rintro ⟨hcomplete, ⟨nameOff, boff, hwords, hname, hpayload⟩, hnameLt, hpayloadLt⟩
    obtain ⟨h0, h4, h8, h12, h16, h20, h24⟩ := entryWords_at.mp hwords
    have hnameLen := hname.length_le
    obtain ⟨n0, n1, hn0, hn1, hdecode, hrest⟩ := (stored_at hnameLt).mp hname
    have hrestLen := hrest.length_le
    have hpayloadLen := hpayload.length_le
    have hlen := toNat_asU32 hpayloadLt
    have hstored : (stored e.name).length = 2 + e.name.bytes.length := by simp [stored]
    have hslice := slice_ok_iff.mpr ⟨hrest, rfl⟩
    have hutf8 : ∀ message, fromUtf8 e.name.bytes message = .ok e.name := fun _ => dif_pos e.name.valid
    have hslice' := slice_ok_iff.mpr ⟨hpayload, rfl⟩
    simp only [readEntry, rdU32_ok_iff.mpr h0, rdU32_ok_iff.mpr h4, rdU32_ok_iff.mpr h8,
      rdU32_ok_iff.mpr h12, rdU32_ok_iff.mpr h16, rdU32_ok_iff.mpr h20, rdU32_ok_iff.mpr h24,
      index_ok_iff.mpr hn0, index_ok_iff.mpr hn1, hdecode, hlen, hslice, hslice', hutf8, except_ok_bind]
    rw [bailIf_false (by omega), except_ok_bind, bailIf_false (by omega), except_ok_bind,
      bailIf_false (by omega), except_ok_bind, bailIf_false (by omega), except_ok_bind]
    rfl

theorem header_at_iff {count strOff blobOff : BitVec 32} :
    At bs 0 (header count strOff blobOff) ↔ bs.take 4 = magic ∧ At bs 4 (leU32 version) ∧
      At bs 8 (leU32 count) ∧ At bs 12 (leU32 strOff) ∧ At bs 16 (leU32 blobOff) := by
  have hmagic : At bs 0 magic ↔ bs.take 4 = magic := by
    constructor
    · intro h
      exact h.take
    · intro h
      have hfour : 4 ≤ bs.length := by
        have hlen := congrArg List.length h
        rw [List.length_take] at hlen
        simp [magic] at hlen
        omega
      rw [← h]
      exact at_take (k := 0) (by omega)
  have hlen : magic.length = 4 := rfl
  simp [header, at_append, hmagic, hlen]

theorem mapM_range_ok_iff {α : Type} {f : Nat → Reader α} {n : Nat} {ys : List α} :
    (List.range n).mapM f = .ok ys ↔ ys.length = n ∧ ∀ i (hi : i < ys.length), f i = .ok ys[i] := by
  rw [mapM_ok_iff, List.forall₂_iff_get]
  simp only [List.length_range, List.get_eq_getElem, List.getElem_range]
  constructor
  · rintro ⟨hlen, h⟩
    exact ⟨hlen.symm, fun i hi => h i (hlen ▸ hi) hi⟩
  · rintro ⟨hlen, h⟩
    exact ⟨hlen.symm, fun i _ hi => h i hi⟩

/-- The reader accepts the files that hold the entries it returns, and no others. -/
theorem readDat_ok_iff {es : List ParsedEntry} : readDat bs = .ok es ↔ Holds bs es := by
  constructor
  · intro h
    obtain ⟨_, -, h⟩ := except_bind_ok h
    obtain ⟨_, hmagic, h⟩ := except_bind_ok h
    obtain ⟨v, hv, h⟩ := except_bind_ok h
    obtain ⟨_, hversion, h⟩ := except_bind_ok h
    obtain ⟨count, hcount, h⟩ := except_bind_ok h
    obtain ⟨strOff, hstr, h⟩ := except_bind_ok h
    obtain ⟨blobOff, hblob, h⟩ := except_bind_ok h
    obtain ⟨hlen, hentries⟩ := mapM_range_ok_iff.mp h
    have hcount' : asU32 es.length = count := by
      rw [hlen, asU32, BitVec.ofNat_toNat, BitVec.setWidth_eq]
    have hv' : v = version := Decidable.not_not.mp (bailIf_ok hversion)
    refine ⟨hlen ▸ count.isLt, strOff, blobOff, header_at_iff.mpr ⟨Decidable.not_not.mp (bailIf_ok hmagic),
      hv' ▸ rdU32_ok_iff.mp hv, hcount' ▸ rdU32_ok_iff.mp hcount, rdU32_ok_iff.mp hstr,
      rdU32_ok_iff.mp hblob⟩, fun i hi => readEntry_ok_iff.mp (hentries i hi)⟩
  · rintro ⟨hcount, strOff, blobOff, hheader, hentries⟩
    have hle := hheader.length_le
    rw [length_header] at hle
    obtain ⟨hmagic, h4, h8, h12, h16⟩ := header_at_iff.mp hheader
    have hloop := mapM_range_ok_iff.mpr ⟨rfl, fun i hi => readEntry_ok_iff.mpr (hentries i hi)⟩
    rw [readDat, bailIf_false (by omega), except_ok_bind, bailIf_false (not_not_intro hmagic), except_ok_bind,
      rdU32_ok_iff.mpr h4, except_ok_bind, bailIf_false (not_not_intro rfl), except_ok_bind,
      rdU32_ok_iff.mpr h8, except_ok_bind, rdU32_ok_iff.mpr h12, except_ok_bind, rdU32_ok_iff.mpr h16,
      except_ok_bind, toNat_asU32 hcount]
    exact hloop

end Files

section RoundTrip

variable {assets : List Asset}

theorem entryRow_at {bs : List Byte} {k : Nat} {x : Asset} {nameOff boff : BitVec 32}
    (h : At bs k (entryRow x nameOff boff)) : At bs k (entryWords x.entry nameOff boff) :=
  (at_append.mp h).1

theorem written_holdsEntry (himage : (writeDat assets).length < 2 ^ 32)
    (hnames : ∀ x ∈ assets, x.name.bytes.length < 2 ^ 16) {i : Nat} (hi : i < assets.length) :
    HoldsEntry (writeDat assets) (strOff assets) (blobOff assets) i assets[i].entry := by
  have hrow := row_at hi
  have hname := name_at hi
  have hblob := blob_at hi
  have hrowLen := hrow.length_le
  have hnameLen := hname.length_le
  have hblobLen := hblob.length_le
  rw [length_rowOf] at hrowLen
  have hnameOff := toNat_asU32 (n := startOf (fun x => stored x.name) assets i) (by omega)
  have hboff := toNat_asU32 (n := startOf Asset.blob assets i) (by omega)
  refine ⟨hrowLen, ⟨_, _, entryRow_at hrow, ?_, ?_⟩, hnames _ (List.getElem_mem hi), ?_⟩
  · rw [hnameOff]
    exact hname
  · rw [hboff]
    exact hblob
  · change assets[i].blob.length < 2 ^ 32
    omega

theorem written_holds (himage : (writeDat assets).length < 2 ^ 32)
    (hnames : ∀ x ∈ assets, x.name.bytes.length < 2 ^ 16) :
    Holds (writeDat assets) (assets.map Asset.entry) := by
  have hlen : (writeDat assets).length = blobOff assets + (assets.flatMap Asset.blob).length := by
    rw [writeDat_eq]
    simp [length_header, length_rows, blobOff, strOff, Nat.add_assoc]
  have hstr : strOff assets ≤ blobOff assets := Nat.le_add_right ..
  have hcount : assets.length ≤ strOff assets := by
    simp only [strOff, entrySize]
    omega
  have hstrOff := toNat_asU32 (n := strOff assets) (by omega)
  have hblobOff := toNat_asU32 (n := blobOff assets) (by omega)
  refine ⟨?_, asU32 (strOff assets), asU32 (blobOff assets), ?_, fun i hi => ?_⟩
  · rw [List.length_map]
    omega
  · rw [List.length_map]
    exact header_at assets
  · rw [List.length_map] at hi
    rw [List.getElem_map, hstrOff, hblobOff]
    exact written_holdsEntry himage hnames hi

/-- Reading an image of less than four gigabytes gives its assets back exactly when every name fits
its length field. -/
theorem readDat_writeDat_iff (assets : List Asset) (himage : (writeDat assets).length < 2 ^ 32) :
    readDat (writeDat assets) = .ok (assets.map Asset.entry) ↔
      ∀ x ∈ assets, x.name.bytes.length < 2 ^ 16 := by
  rw [readDat_ok_iff]
  constructor
  · rintro ⟨-, strOff, blobOff, -, hentries⟩ x hx
    obtain ⟨i, hi, rfl⟩ := List.mem_iff_getElem.mp hx
    have hentry := hentries i (by rwa [List.length_map])
    rw [List.getElem_map] at hentry
    exact hentry.name_lt
  · exact written_holds himage

/-- A trig table of one entry, cos 0 and sin 0. -/
def trig : Asset :=
  { name := ⟨[0x74, 0x72, 0x69, 0x67], by decide⟩, kind := 3, a := 1, b := 0, c := 0,
    blob := leU32 65536 ++ leU32 0 }

theorem trig_reread : readDat (writeDat [trig]) = .ok [trig.entry] :=
  (readDat_writeDat_iff [trig] (by decide)).mpr (by decide)

/-- What the reader has accepted goes through the writer and the reader once more unchanged. -/
theorem reread {bs : List Byte} {es : List ParsedEntry} (hread : readDat bs = .ok es)
    (himage : (writeDat (es.map ParsedEntry.asset)).length < 2 ^ 32) :
    readDat (writeDat (es.map ParsedEntry.asset)) = .ok es := by
  obtain ⟨-, strOff, blobOff, -, hentries⟩ := readDat_ok_iff.mp hread
  have hnames : ∀ x ∈ es.map ParsedEntry.asset, x.name.bytes.length < 2 ^ 16 := by
    intro x hx
    obtain ⟨e, he, rfl⟩ := List.mem_map.mp hx
    obtain ⟨i, hi, rfl⟩ := List.mem_iff_getElem.mp he
    exact (hentries i hi).name_lt
  have hholds := written_holds himage hnames
  rw [readDat_ok_iff]
  simpa [Function.comp_def] using hholds

end RoundTrip

end BetLang.BakeFb
