import BetLang.CodegenTy
import BetLang.Crib
import BetLang.Ieee754
import BetLang.Layout
import BetLang.Stash

/-! The keys of a `stash`: what the interpreter compares of a key, and what its bytes are. -/

namespace BetLang.Stash

open Ir (IntWidth)
open Ieee754 (f32Eq f64Eq)

inductive LaneTy where
  | int (width : IntWidth) (signed : Bool)
  | f32
  | f64
  deriving DecidableEq, Repr

/-- A key type with its drips and sums unfolded. A `yikes` is the drip of its two fields, a
transposed container the drip of its columns, and a sum whose payloads take no words an `enum`. -/
inductive KeyTy where
  | bool
  | u8
  | int (width : IntWidth) (signed : Bool)
  | f32
  | f64
  | str
  /-- A crib, a function value or a raw pointer: one address for each of them. -/
  | handle
  | tag
  | slice
  | vec
  | map
  | rng
  /-- Two to four lanes. -/
  | simd (lane : LaneTy) (more : Fin 3)
  | array (elem : KeyTy) (n : Nat)
  | struct (fields : List KeyTy)
  | enum (more : BitVec 32)
  /-- The payload of the variants takes `words + 1` words. -/
  | sum (first : List KeyTy) (rest : List (List KeyTy)) (words : Nat)

/-- A value behind a reference, as the interpreter's equality sees it. A `group` is an array, a drip,
a variant, or the contents of a shared container. -/
inductive Held where
  | int (v : BitVec 64)
  | byte (b : BitVec 8)
  | float (bits : BitVec 64)
  | bool (b : Bool)
  | str (content : List (BitVec 8))
  | ghosted
  | tag (arena slot : Nat) (generation : BitVec 64)
  | handle (name : Nat)
  | group (label : String) (parts : List Held)

structure RngState where
  s : Vector (BitVec 64) 4
  deriving DecidableEq

structure StrVal where
  content : List (BitVec 8)
  addr : BitVec 64
  deriving DecidableEq

/-- A handle as both executions hold it: each numbers the slots of its cribs in its own way. -/
structure TagVal where
  arena : Nat
  slot : Nat
  generation : BitVec 64
  compiled : Tag
  deriving DecidableEq

def TagVal.same (a b : TagVal) : Bool :=
  decide (a.arena = b.arena ∧ a.slot = b.slot ∧ a.generation = b.generation)

def LaneTy.Val : LaneTy → Type
  | .int _ _ => BitVec 64
  | .f32 => BitVec 32
  | .f64 => BitVec 64

mutual

/-- The values of a key expression of the type, with what each execution knows of them. An integer
is the interpreter's `i64`, which no literal of a narrower type was wrapped into; an `f32` is the
interpreter's `f64` and the compiled `f32`; a reference is its address and what it reaches. -/
def KeyTy.Val : KeyTy → Type
  | .bool => Bool
  | .u8 => BitVec 64 ⊕ BitVec 8
  | .int _ _ => BitVec 64
  | .f32 => BitVec 64 × BitVec 32
  | .f64 => BitVec 64
  | .str => StrVal
  | .handle => BitVec 64
  | .tag => Option TagVal
  | .slice => BitVec 64 × List Held
  | .vec => Option (BitVec 64 × List Held)
  | .map => Option (BitVec 64 × List (Held × Held))
  | .rng => Option (BitVec 64 × RngState)
  | .simd lane more => Fin (more.val + 2) → lane.Val
  | .array elem n => Fin n → elem.Val
  | .struct fields => Vals fields
  | .enum more => Fin (more.toNat + 1)
  | .sum first rest _ => Vals first ⊕ Choice rest

def Vals : List KeyTy → Type
  | [] => Unit
  | t :: ts => t.Val × Vals ts

def Choice : List (List KeyTy) → Type
  | [] => Empty
  | p :: ps => Vals p ⊕ Choice ps

end

def sameAs {α : Type} [DecidableEq α] (a b : α) : Bool := decide (a = b)

def LaneTy.same : (t : LaneTy) → t.Val → t.Val → Bool
  | .int _ _, a, b => @sameAs (BitVec 64) _ a b
  | .f32, a, b => f32Eq a b
  | .f64, a, b => f64Eq a b

def sameList {α : Type} (same : α → α → Bool) : List α → List α → Bool
  | [], [] => true
  | a :: as, b :: bs => same a b && sameList same as bs
  | _, _ => false

def sameOption {α : Type} (same : α → α → Bool) : Option α → Option α → Bool
  | none, none => true
  | some a, some b => same a b
  | _, _ => false

mutual

def Held.same : Held → Held → Bool
  | .int a, .int b => sameAs a b
  | .byte a, .byte b => sameAs a b
  | .float a, .float b => f64Eq a b
  | .bool a, .bool b => sameAs a b
  | .str a, .str b => sameAs a b
  | .ghosted, .ghosted => true
  | .tag a s g, .tag a' s' g' => sameAs a a' && sameAs s s' && sameAs g g'
  | .handle a, .handle b => sameAs a b
  | .group l ps, .group l' ps' => sameAs l l' && sameParts ps ps'
  | _, _ => false

def sameParts : List Held → List Held → Bool
  | [], [] => true
  | a :: as, b :: bs => a.same b && sameParts as bs
  | _, _ => false

end

mutual

/-- The derived equality of the interpreter's values: integers by value whatever their declared
type, a shared container by its contents, a tag by its arena, slot and generation. -/
def KeyTy.same : (t : KeyTy) → t.Val → t.Val → Bool
  | .bool, a, b => @sameAs Bool _ a b
  | .u8, .inl a, .inl b => sameAs a b
  | .u8, .inr a, .inr b => sameAs a b
  | .u8, .inl _, .inr _ => false
  | .u8, .inr _, .inl _ => false
  | .int _ _, a, b => @sameAs (BitVec 64) _ a b
  | .f32, a, b => f64Eq a.1 b.1
  | .f64, a, b => f64Eq a b
  | .str, a, b => sameAs (StrVal.content a) (StrVal.content b)
  | .handle, a, b => @sameAs (BitVec 64) _ a b
  | .tag, a, b => sameOption TagVal.same a b
  | .slice, a, b => sameList Held.same a.2 b.2
  | .vec, a, b => sameOption (fun x y => sameList Held.same x.2 y.2) a b
  | .map, a, b => sameOption
      (fun x y => sameList (fun x y => x.1.same y.1 && x.2.same y.2) x.2 y.2) a b
  | .rng, a, b => sameOption (fun x y => sameAs x.2 y.2) a b
  | .simd lane _, a, b => decide (∀ i, lane.same (a i) (b i) = true)
  | .array elem _, a, b => decide (∀ i, elem.same (a i) (b i) = true)
  | .struct fields, a, b => sameFields fields a b
  | .enum more, a, b => @sameAs (Fin (more.toNat + 1)) _ a b
  | .sum first _ _, .inl a, .inl b => sameFields first a b
  | .sum _ rest _, .inr a, .inr b => sameChoice rest a b
  | .sum _ _ _, .inl _, .inr _ => false
  | .sum _ _ _, .inr _, .inl _ => false

def sameFields : (ts : List KeyTy) → Vals ts → Vals ts → Bool
  | [], _, _ => true
  | t :: ts, a, b => t.same a.1 b.1 && sameFields ts a.2 b.2

def sameChoice : (ps : List (List KeyTy)) → Choice ps → Choice ps → Bool
  | p :: _, .inl a, .inl b => sameFields p a b
  | _ :: ps, .inr a, .inr b => sameChoice ps a b
  | _ :: _, .inl _, .inr _ => false
  | _ :: _, .inr _, .inl _ => false

end

/-- A byte of an image: `none` is padding, which a store leaves as it is. -/
abbrev Image := List (Option (BitVec 8))

def leImage : Nat → Nat → Image
  | 0, _ => []
  | n + 1, x => some (BitVec.ofNat 8 x) :: leImage n (x / 256)

def leBits {w : Nat} (n : Nat) (v : BitVec w) : Image := leImage n v.toNat

def pad (n : Nat) : Image := List.replicate n none

def LaneTy.llvm : LaneTy → Llvm.Ty
  | .int width _ => .int width.bits
  | .f32 => .float
  | .f64 => .double

mutual

def KeyTy.llvm : KeyTy → Llvm.Ty
  | .bool => .int 1
  | .u8 => .int 8
  | .int width _ => .int width.bits
  | .f32 => .float
  | .f64 => .double
  | .str | .slice => Codegen.fatPtrTy
  | .handle | .vec | .map | .rng => .ptr
  | .tag => Codegen.tagTy
  | .simd lane more => .vector lane.llvm (more.val + 2)
  | .array elem n => .array elem.llvm n
  | .struct fields => .struct (llvmFields fields)
  | .enum _ => .struct [.int 32]
  | .sum _ _ words => .struct [.int 32, .array (.int 64) (words + 1)]

def llvmFields : List KeyTy → List Llvm.Ty
  | [] => []
  | t :: ts => t.llvm :: llvmFields ts

end

def LaneTy.image : (t : LaneTy) → t.Val → Image
  | .int width _, v => leBits (w := 64) (width.bits / 8) v
  | .f32, v => leBits (w := 32) 4 v
  | .f64, v => leBits (w := 64) 8 v

def fatImage (addr : BitVec 64) (len : Nat) : Image := leImage 8 addr.toNat ++ leImage 8 len

def tagImage (tag : Tag) : Image :=
  leImage 4 tag.slot.toNat ++ leImage 4 tag.pad.toNat ++ leImage 8 tag.generation.toNat

/-- A shared container is its handle, null for `ghosted`. -/
def addrImage {α : Type} (v : Option (BitVec 64 × α)) : Image :=
  leImage 8 ((v.map Prod.fst).getD 0).toNat

/-- An image cut or padded to the space it is given. -/
def fit (n : Nat) (img : Image) : Image := (img ++ pad n).take n

/-- The discriminant of a variant. -/
def indexOf : (ps : List (List KeyTy)) → Choice ps → Nat
  | _ :: _, .inl _ => 0
  | _ :: ps, .inr v => indexOf ps v + 1

mutual

/-- The bytes that the store of a key into its slot writes. -/
def KeyTy.image : (t : KeyTy) → t.Val → Image
  | .bool, v => leImage 1 (Bool.toNat v)
  | .u8, .inl v => leImage 1 v.toNat
  | .u8, .inr b => leImage 1 b.toNat
  | .int width _, v => leBits (w := 64) (width.bits / 8) v
  | .f32, v => leImage 4 v.2.toNat
  | .f64, v => leBits (w := 64) 8 v
  | .str, v => fatImage (StrVal.addr v) (StrVal.content v).length
  | .handle, v => leBits (w := 64) 8 v
  | .tag, v => tagImage ((Option.map TagVal.compiled v).getD Tag.null)
  | .slice, v => fatImage v.1 v.2.length
  | .vec, v => addrImage v
  | .map, v => addrImage v
  | .rng, v => addrImage v
  | .simd lane more, v =>
    let lanes := (List.finRange (more.val + 2)).flatMap fun i => lane.image (v i)
    lanes ++ pad ((KeyTy.simd lane more).llvm.size - lanes.length)
  | .array elem n, v => (List.finRange n).flatMap fun i => elem.image (v i)
  | .struct fields, v =>
    imageFields fields v 0 ++
      pad ((KeyTy.struct fields).llvm.size - Llvm.endOffset (llvmFields fields) 0)
  | .enum _, v => leImage 4 (Fin.val v)
  | .sum first _ words, .inl v =>
    leImage 4 0 ++ pad 4 ++ fit (8 * (words + 1)) (imageFields first v 0)
  | .sum _ rest words, .inr v =>
    leImage 4 (indexOf rest v + 1) ++ pad 4 ++ fit (8 * (words + 1)) (imageChoice rest v)

/-- Fields from an offset on, each at its alignment. -/
def imageFields : (ts : List KeyTy) → Vals ts → Nat → Image
  | [], _, _ => []
  | t :: ts, v, off =>
    let start := Llvm.alignUp off t.llvm.align
    pad (start - off) ++ t.image v.1 ++ imageFields ts v.2 (start + t.llvm.size)

def imageChoice : (ps : List (List KeyTy)) → Choice ps → Image
  | p :: _, .inl v => imageFields p v 0
  | _ :: ps, .inr v => imageChoice ps v

end

def KeyTy.lane : KeyTy → Except String LaneTy
  | .u8 => .ok (.int .w8 false)
  | .int width signed => .ok (.int width signed)
  | .f32 => .ok .f32
  | .f64 => .ok .f64
  | _ => .error "simd element must be a scalar int/float"

/-- The key type that an IR type is. -/
def keyTyOf (m : Ir.Module) : Nat → Ir.Ty → Except String KeyTy
  | 0, _ => .error "by-value recursion"
  | fuel + 1, ty =>
    match ty with
    | .bool => .ok .bool
    | .int .w8 false => .ok .u8
    | .int width signed => .ok (.int width signed)
    | .f32 => .ok .f32
    | .f64 => .ok .f64
    | .str => .ok .str
    | .rawPtr | .crib _ | .ref _ | .fnPtr _ _ => .ok .handle
    | .tag _ => .ok .tag
    | .slice _ => .ok .slice
    | .vec _ => .ok .vec
    | .map _ _ => .ok .map
    | .rng => .ok .rng
    | .array elem n => do return .array (← keyTyOf m fuel elem) (n % 2 ^ 32)
    | .simd elem lanes => do
      let lane ← (← keyTyOf m fuel elem).lane
      if h : 2 ≤ lanes ∧ lanes ≤ 4 then return .simd lane ⟨lanes - 2, by omega⟩
      else throw "between two and four lanes"
    | .tuple elems => do return .struct (← elems.mapM fun t => keyTyOf m fuel t)
    | .struct sid =>
      match m.structs[sid]? with
      | none => .error "bad struct id"
      | some d => do return .struct (← d.fields.mapM fun f => keyTyOf m fuel f.ty)
    | .sum sid =>
      match m.sums[sid]? with
      | none => .error "bad sum id"
      | some d => do
        let words ← Codegen.sumPayloadWords m fuel d
        match words, d.variants with
        | _, [] => throw "no variants"
        | 0, _ :: vs => return .enum (BitVec.ofNat 32 vs.length)
        | words + 1, v :: vs =>
          let first ← v.payload.mapM fun t => keyTyOf m fuel t
          let rest ← vs.mapM fun v => v.payload.mapM fun t => keyTyOf m fuel t
          return .sum first rest words
    | .soa inner => do
      let (elem, kind) ← Codegen.soaContainer inner
      match elem with
      | .struct sid =>
        match m.structs[sid]? with
        | none => .error "bad struct id"
        | some d =>
          let columns ← d.fields.mapM fun f =>
            match kind with
            | .array n => do return KeyTy.array (← keyTyOf m fuel f.ty) (n % 2 ^ 32)
            | .slice => pure .slice
            | .vec => pure .vec
          return .struct columns
      | _ => .error "soa element must be a drip"
    | .void => .error "value type Void is not supported yet"

/-- A key operand: its value, and what its slot holds where the store leaves padding. -/
structure Key (t : KeyTy) where
  value : t.Val
  junk : Nat → BitVec 8

def fill (junk : Nat → BitVec 8) (img : Image) : List (BitVec 8) :=
  img.mapIdx fun i b => b.getD (junk i)

/-- `serialize_key`: a string's own bytes, and the slot's bytes of anything else. -/
def serializeKey : (t : KeyTy) → Key t → List (BitVec 8)
  | .str, k => StrVal.content k.value
  | t, k => fill k.junk (t.image k.value)

def sameKey (t : KeyTy) (k k' : Key t) : Bool := t.same k.value k'.value

end BetLang.Stash
