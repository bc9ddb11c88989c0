import MRNet.Codec

/-!
# The PDR routines

Translation of `pdr.c`, `pdr_mem.c`, `pdr_sizeof.c` and `byte_order.c` as far as
packets use them. One procedure serves both directions: a call `pdr_xxx(pdrs, &v)`
takes the current value and returns the value after the call, and the handle's
operation and table decide whether bytes are written, counted or read. The cursor
is the `cur`/`space` part of the handle.

A pointer argument is an `Option`: `none` is a pointer outside the block it was
computed from, so that using it is a fault. Nothing in the repository passes
`PDR_FREE`, and the positional and destroy entries of the tables are never called;
they are left out. Array decoding is entered with a null `*addrp` at every call.
-/
namespace MRNet.Wire
open NativeBytes Codec

/-- What a procedure takes from the machine it runs on: the byte order fixed by
`WORDS_BIGENDIAN`, and the allocator, which may fail and returns memory with
whatever content it had. `scrap` is what an encode that is refused half-way leaves
in its block. -/
structure Host where
  bo : ByteOrder
  malloc : ℕ → Option (List Byte)
  malloc_length : ∀ n b, malloc n = some b → b.length = n
  scrap : List Byte → List Byte
  scrap_length : ∀ b, (scrap b).length = b.length

/-- The allocator never fails. -/
def Host.Allocates (host : Host) : Prop := ∀ n, (host.malloc n).isSome

/-- A machine of the given byte order with unlimited zeroed memory. -/
def Host.ample (bo : ByteOrder) : Host where
  bo := bo
  malloc := fun n => some (List.replicate n 0)
  malloc_length := by
    intro n b h
    cases h
    simp
  scrap := id
  scrap_length := fun _ => rfl

theorem Host.ample_allocates (bo : ByteOrder) : (Host.ample bo).Allocates := fun _ => rfl

inductive PdrOp where
  | encode
  | decode
  deriving DecidableEq, Repr

structure PdrOps where
  putchar : Byte → Action Unit
  getchar : Action Byte
  putint16 : BitVec 16 → Action Unit
  getint16 : Action (BitVec 16)
  putint32 : BitVec 32 → Action Unit
  getint32 : Action (BitVec 32)
  putint64 : BitVec 64 → Action Unit
  getint64 : Action (BitVec 64)
  putfloat : BitVec 32 → Action Unit
  getfloat : Action (BitVec 32)
  putdouble : BitVec 64 → Action Unit
  getdouble : Action (BitVec 64)
  putbytes : List Byte → Action Unit
  getbytes : ℕ → Action (List Byte)

/-- The PDR handle without its cursor. -/
structure PDR where
  op : PdrOp
  ops : PdrOps

/-- `out[j] = in[elemsize - j - 1]` for one element. -/
def byteSwap (elemsize : ℕ) (bytes : List Byte) : List Byte :=
  (List.range elemsize).map fun j => bytes.getD (elemsize - j - 1) 0

theorem byteSwap_eq_reverse (bytes : List Byte) : byteSwap bytes.length bytes = bytes.reverse := by
  apply List.ext_getElem
  · simp [byteSwap]
  · intro j h₁ h₂
    simp only [byteSwap, List.length_map, List.length_range] at h₁
    have hj : bytes.length - 1 - j < bytes.length := by omega
    have hflip : bytes.length - j - 1 = bytes.length - 1 - j := by omega
    simp only [byteSwap, List.getElem_map, List.getElem_range, List.getElem_reverse,
      List.getD_eq_getElem?_getD, hflip, List.getElem?_eq_getElem hj, Option.getD_some]

section Mem
variable (host : Host)

def pdrmemPut {w : ℕ} (v : BitVec w) : Action Unit :=
  Action.move fun s => s.put (nativeBytes host.bo v)

def pdrmemGet (w : ℕ) : Action (BitVec w) := do
  let bytes ← fun s : Cursor => s.get (w / 8)
  return nativeValue host.bo w bytes

def pdrmemGetSwap (w : ℕ) : Action (BitVec w) := do
  let bytes ← fun s : Cursor => s.get (w / 8)
  return nativeValue host.bo w (byteSwap (w / 8) bytes)

def pdrmemPutbytes (addr : List Byte) : Action Unit := Action.move fun s => s.put addr

def pdrmemGetbytes (len : ℕ) : Action (List Byte) := fun s => s.get len

def pdrmemOps : PdrOps where
  putchar := pdrmemPut host
  getchar := pdrmemGet host 8
  putint16 := pdrmemPut host
  getint16 := pdrmemGet host 16
  putint32 := pdrmemPut host
  getint32 := pdrmemGet host 32
  putint64 := pdrmemPut host
  getint64 := pdrmemGet host 64
  putfloat := pdrmemPut host
  getfloat := pdrmemGet host 32
  putdouble := pdrmemPut host
  getdouble := pdrmemGet host 64
  putbytes := pdrmemPutbytes
  getbytes := pdrmemGetbytes

/-- Only the multi-byte readers differ from `pdrmemOps`. -/
def pdrmemOpsSwap : PdrOps where
  putchar := pdrmemPut host
  getchar := pdrmemGet host 8
  putint16 := pdrmemPut host
  getint16 := pdrmemGetSwap host 16
  putint32 := pdrmemPut host
  getint32 := pdrmemGetSwap host 32
  putint64 := pdrmemPut host
  getint64 := pdrmemGetSwap host 64
  putfloat := pdrmemPut host
  getfloat := pdrmemGetSwap host 32
  putdouble := pdrmemPut host
  getdouble := pdrmemGetSwap host 64
  putbytes := pdrmemPutbytes
  getbytes := pdrmemGetbytes

/-- `PDR_LITTLEENDIAN` is 0 and `PDR_BIGENDIAN` is 1. -/
def pdrByteorder : ByteOrder → Byte
  | .little => 0
  | .big => 1

def pdrmemGetbo : Byte := pdrByteorder host.bo

def pdrmemCreate (op : PdrOp) (bo : Byte) : PDR where
  op := op
  ops := if op = .decode ∧ bo ≠ pdrmemGetbo host then pdrmemOpsSwap host else pdrmemOps host

end Mem

def sizeofPut {w : ℕ} (_ : BitVec w) : Action Unit :=
  Action.move fun s => .ok { s with space := (s.space + w / 8) % 2 ^ 64 }

def sizeofPutbytes (addr : List Byte) : Action Unit :=
  Action.move fun s => .ok { s with space := (s.space + addr.length) % 2 ^ 64 }

def sizeofOps : PdrOps where
  putchar := sizeofPut
  getchar := Action.stop .refused
  putint16 := sizeofPut
  getint16 := Action.stop .refused
  putint32 := sizeofPut
  getint32 := Action.stop .refused
  putint64 := sizeofPut
  getint64 := Action.stop .refused
  putfloat := sizeofPut
  getfloat := Action.stop .refused
  putdouble := sizeofPut
  getdouble := Action.stop .refused
  putbytes := sizeofPutbytes
  getbytes := fun _ => Action.stop .refused

/-- The return value and the size stored through the pointer, 0 on failure. -/
def pdrSizeof {α : Type} (func : PDR → Action α) : Outcome (Bool × BitVec 64) :=
  match func ⟨.encode, sizeofOps⟩ ⟨[], 0, 0⟩ with
  | .ok (_, s) => .ok (true, BitVec.ofNat 64 s.space)
  | .error .refused => .ok (false, 0)
  | .error (.fault f) => .error (.fault f)

/-- The common body of the scalar routines. -/
def pdrPrim {α : Type} (put : α → Action Unit) (get : Action α) (op : PdrOp) (p : Option α) :
    Action α :=
  match op with
  | .encode =>
      match p with
      | some v => do put v; return v
      | none => Action.stop (.fault .readPast)
  | .decode => do
      let v ← get
      match p with
      | some _ => return v
      | none => Action.stop (.fault .storePast)

def pdrChar (x : PDR) : Option Byte → Action Byte := pdrPrim x.ops.putchar x.ops.getchar x.op
def pdrUchar (x : PDR) : Option Byte → Action Byte := pdrChar x
def pdrInt16 (x : PDR) : Option (BitVec 16) → Action (BitVec 16) :=
  pdrPrim x.ops.putint16 x.ops.getint16 x.op
def pdrUint16 (x : PDR) : Option (BitVec 16) → Action (BitVec 16) := pdrInt16 x
def pdrInt32 (x : PDR) : Option (BitVec 32) → Action (BitVec 32) :=
  pdrPrim x.ops.putint32 x.ops.getint32 x.op
def pdrUint32 (x : PDR) : Option (BitVec 32) → Action (BitVec 32) := pdrInt32 x
def pdrInt64 (x : PDR) : Option (BitVec 64) → Action (BitVec 64) :=
  pdrPrim x.ops.putint64 x.ops.getint64 x.op
def pdrUint64 (x : PDR) : Option (BitVec 64) → Action (BitVec 64) := pdrInt64 x
def pdrFloat (x : PDR) : Option (BitVec 32) → Action (BitVec 32) :=
  pdrPrim x.ops.putfloat x.ops.getfloat x.op
def pdrDouble (x : PDR) : Option (BitVec 64) → Action (BitVec 64) :=
  pdrPrim x.ops.putdouble x.ops.getdouble x.op

/-- An array in memory: as an object it has fewer than 2^64 bytes. The empty
array stands for a null pointer too. -/
structure CArray (α : Type) (elsize : ℕ) where
  data : List α
  fits : data.length * elsize < 2 ^ 64
  deriving DecidableEq

namespace CArray
variable {α : Type} {elsize : ℕ}

def empty : CArray α elsize := ⟨[], by simp⟩

def arrayLen (a : CArray α elsize) : BitVec 64 := BitVec.ofNat 64 a.data.length

/-- A block of `size` bytes seen as the elements found in it. -/
def ofBlock (size : BitVec 64) (data : List α) : Action (CArray α elsize) :=
  if h : data.length * elsize ≤ size.toNat then return ⟨data, h.trans_lt size.isLt⟩
  else Action.stop (.fault .readPast)

end CArray

/-- `cp` is the block the bytes are copied from or into. -/
def pdrOpaque (x : PDR) (cp : List Byte) (cnt : ℕ) : Action (List Byte) :=
  if cnt = 0 then return cp
  else
    match x.op with
    | .decode => do
        let bytes ← x.ops.getbytes cnt
        if cnt ≤ cp.length then return bytes ++ cp.drop cnt
        else Action.stop (.fault .storePast)
    | .encode =>
        if cnt ≤ cp.length then do
          x.ops.putbytes (cp.take cnt)
          return cp
        else Action.stop (.fault .readPast)

/-- `strlen` of the string starting the block; without a NUL it runs off the end. -/
def strlen (block : List Byte) : Outcome ℕ :=
  if 0 ∈ block then .ok (block.idxOf 0) else .error (.fault .readPast)

section Alloc
variable (host : Host)

def pdrBytes (x : PDR) (a : CArray Byte 1) (maxsize : ℕ) : Action (CArray Byte 1) := do
  let nodesize ← pdrUint64 x (some a.arrayLen)
  if nodesize.toNat > maxsize then Action.stop .refused
  else
    match x.op with
    | .decode =>
        if nodesize = 0 then return CArray.empty
        else
          match host.malloc nodesize.toNat with
          | none => Action.stop .refused
          | some sp => do
              let bytes ← pdrOpaque x sp nodesize.toNat
              CArray.ofBlock nodesize bytes
    | .encode => do
        let _ ← pdrOpaque x a.data nodesize.toNat
        return a

/-- `cpp` points to a `char*`, itself null or the block of a string. In a decode
the terminator is stored before the bytes from the wire, at an index computed in
32 bits. -/
def pdrString (x : PDR) (cpp : Option (Option (List Byte))) (maxsize : ℕ) :
    Action (Option (List Byte)) :=
  match cpp with
  | none => Action.stop (.fault .readPast)
  | some sp =>
      match x.op with
      | .encode =>
          match sp with
          | none => Action.stop .refused
          | some block =>
              match strlen block with
              | .error e => Action.stop e
              | .ok n =>
                  if n + 1 > maxsize then Action.stop .refused
                  else do
                    let nodesize ← pdrUint32 x (some (BitVec.ofNat 32 (n + 1)))
                    let block ← pdrOpaque x block nodesize.toNat
                    return some block
      | .decode => do
          let nodesize ← pdrUint32 x (some 0)
          match sp.orElse (fun _ => host.malloc nodesize.toNat) with
          | none => Action.stop .refused
          | some block =>
              let last := (nodesize - 1).toNat
              if last < block.length then do
                let block ← pdrOpaque x (block.set last 0) nodesize.toNat
                return some block
              else Action.stop (.fault .storePast)

/-- `LASTUNSIGNED - 1`. -/
def wrapstringMax : ℕ := 2 ^ 32 - 2

def pdrWrapstring (x : PDR) (cpp : Option (Option (List Byte))) : Action (Option (List Byte)) :=
  pdrString host x cpp wrapstringMax

/-- The element loop of an encode. -/
def pdrArrayPut {α : Type} (elproc : Option α → Action α) : List α → Action Unit
  | [] => return ()
  | v :: data => do
      let _ ← elproc (some v)
      pdrArrayPut elproc data

/-- The element loop of a decode, from element `i`: the target is a zeroed slot
of the block as long as the block reaches that far. -/
def pdrArrayGet {α : Type} (elproc : Option α → Action α) (zero : α) (elsize nodesize : ℕ) :
    ℕ → ℕ → Action (List α)
  | 0, _ => return []
  | c + 1, i => do
      let v ← elproc (if (i + 1) * elsize ≤ nodesize then some zero else none)
      let data ← pdrArrayGet elproc zero elsize nodesize c (i + 1)
      return v :: data

/-- The block size is the product of count and element size in 64 bits. -/
def pdrArray {α : Type} {elsize : ℕ} (x : PDR) (a : CArray α elsize) (maxsize : ℕ)
    (elproc : PDR → Option α → Action α) (zero : α) : Action (CArray α elsize) := do
  let c ← pdrUint64 x (some a.arrayLen)
  if c.toNat > maxsize then Action.stop .refused
  else
    match x.op with
    | .decode =>
        if c = 0 then return CArray.empty
        else
          let nodesize := c * BitVec.ofNat 64 elsize
          match host.malloc nodesize.toNat with
          | none => Action.stop .refused
          | some _ => do
              let data ← pdrArrayGet (elproc x) zero elsize nodesize.toNat c.toNat 0
              CArray.ofBlock nodesize data
    | .encode => do
        pdrArrayPut (elproc x) a.data
        return a

end Alloc

/-- A fixed-length array of the caller. -/
def pdrVector {α : Type} (elproc : Option α → Action α) : List α → Action (List α)
  | [] => return []
  | v :: base => do
      let v ← elproc (some v)
      let base ← pdrVector elproc base
      return v :: base

end MRNet.Wire
