import Mathlib.Data.BitVec
import Turf.Lib.Slices

/-!
# Bit fields of a word

BitField.h. Members and array elements of a bit-field type are ranges of bits of one word of
its storage type. Arithmetic is done after the integer promotions: in `int` for the two
narrow storage types, whose values are then never negative, and in the storage type itself
for the others, where sums wrap around.
-/
namespace Turf.BitField

inductive StorageType where
  | u8
  | u16
  | u32
  | u64
  deriving DecidableEq

namespace StorageType

def bits : StorageType → Nat
  | u8 => 8
  | u16 => 16
  | u32 => 32
  | u64 => 64

/-- The width of the type that values are promoted to. -/
def promoted : StorageType → Nat
  | u8 | u16 | u32 => 32
  | u64 => 64

/-- Values are promoted to `int`. -/
def toInt : StorageType → Bool
  | u8 | u16 => true
  | u32 | u64 => false

end StorageType

abbrev Word (T : StorageType) := BitVec T.bits

section Arithmetic

variable {T : StorageType}

def promote (x : Word T) : BitVec T.promoted := x.setWidth T.promoted

/-- Conversion of a result to the storage type. -/
def convert (x : BitVec T.promoted) : Word T := x.setWidth T.bits

def shiftRight (T : StorageType) (x : BitVec T.promoted) (k : Nat) : BitVec T.promoted :=
  if T.toInt then x.sshiftRight k else x >>> k

def lessEq (T : StorageType) (x y : BitVec T.promoted) : Bool :=
  if T.toInt then x.sle y else x.ule y

end Arithmetic

/-- A `BitFieldMember`, or an `Element` of a `BitFieldArray`: the same operations, with the
offset known at compile time in the one and at run time in the other. -/
structure Field where
  offset : Nat
  bits : Nat
  deriving DecidableEq

namespace Field

variable {T : StorageType}

def maximum (T : StorageType) (f : Field) : Word T :=
  convert ((promote (1#T.bits) <<< f.bits) - 1#T.promoted)

def mask (T : StorageType) (f : Field) : Word T := convert (promote (f.maximum T) <<< f.offset)

/-- Conversion to the storage type. -/
def get (f : Field) (value : Word T) : Word T :=
  convert (shiftRight T (promote value) f.offset &&& promote (f.maximum T))

/-- `operator=`. As in the other operations there is no result where the assertion fails. -/
def assign (f : Field) (value v : Word T) : Option (Word T) :=
  if lessEq T (promote v) (promote (f.maximum T)) then
    some (convert ((promote value &&& ~~~promote (f.mask T)) ||| (promote v <<< f.offset)))
  else none

/-- `operator+=` -/
def addAssign (f : Field) (value v : Word T) : Option (Word T) :=
  if lessEq T (promote (f.get value) + promote v) (promote (f.maximum T)) then
    some (convert (promote value + (promote v <<< f.offset)))
  else none

/-- `operator-=` -/
def subAssign (f : Field) (value v : Word T) : Option (Word T) :=
  if lessEq T (promote v) (promote (f.get value)) then
    some (convert (promote value - (promote v <<< f.offset)))
  else none

/-- `operator++`, in both forms -/
def increment (f : Field) (value : Word T) : Option (Word T) := f.addAssign value 1#T.bits

/-- `operator--`, in both forms -/
def decrement (f : Field) (value : Word T) : Option (Word T) := f.subAssign value 1#T.bits

end Field

/-- The static assertions are fields. -/
structure BitFieldMember (T : StorageType) where
  offset : Nat
  bits : Nat
  fits : offset + bits ≤ T.bits
  narrow : bits < T.bits

structure BitFieldArray (T : StorageType) where
  baseOffset : Nat
  bitsPerItem : Nat
  numItems : Nat
  fits : baseOffset + bitsPerItem * numItems ≤ T.bits
  narrow : bitsPerItem < T.bits

variable {T : StorageType}

def BitFieldMember.field (m : BitFieldMember T) : Field := ⟨m.offset, m.bits⟩

/-- `operator[]`, whose assertion is that the index is in range -/
def BitFieldArray.element (a : BitFieldArray T) (i : Int) : Option Field :=
  if 0 ≤ i ∧ i < a.numItems then some ⟨a.baseOffset + a.bitsPerItem * i.toNat, a.bitsPerItem⟩
  else none

/-- `TURF_ADD_BITFIELD_MEMBER` or `TURF_ADD_BITFIELD_ARRAY` -/
inductive Declaration (T : StorageType) where
  | member (m : BitFieldMember T)
  | array (a : BitFieldArray T)

/-- An expression for a field: a declaration of the type, and an index if it is an array. -/
inductive Ref where
  | member (decl : Nat)
  | element (decl : Nat) (i : Int)
  deriving DecidableEq

def fieldOf (decls : List (Declaration T)) : Ref → Option Field
  | .member d =>
    match decls[d]? with
    | some (.member m) => some m.field
    | _ => none
  | .element d i =>
    match decls[d]? with
    | some (.array a) => a.element i
    | _ => none

def Field.Covers (f : Field) (i : Nat) : Prop := Lib.Slices.Covers f.offset f.bits i

/-- A bit-field type: its declarations, no two members or elements of which share a bit. -/
structure Layout (T : StorageType) where
  decls : List (Declaration T)
  disjoint : ∀ r r' f f', r ≠ r' → fieldOf decls r = some f → fieldOf decls r' = some f' →
    ∀ i, f.Covers i → ¬ f'.Covers i

/-- An operation on a field of a word. What is assigned is a value, or another field of the
word, or the same member of another word. -/
inductive Op (T : StorageType) where
  | assign (r : Ref) (v : Word T)
  | assignField (r source : Ref)
  | assignMember (r : Ref) (other : Word T)
  | addAssign (r : Ref) (v : Word T)
  | subAssign (r : Ref) (v : Word T)
  | increment (r : Ref)
  | decrement (r : Ref)

/-- The field that the operation names. -/
def Op.target : Op T → Ref
  | .assign r _ | .assignField r _ | .assignMember r _ | .addAssign r _ | .subAssign r _
  | .increment r | .decrement r => r

namespace Layout

def field (L : Layout T) (r : Ref) : Option Field := fieldOf L.decls r

/-- The word after an operation whose assertions hold. -/
def step (L : Layout T) (value : Word T) : Op T → Option (Word T)
  | .assign r v => (L.field r).bind fun f => f.assign value v
  | .assignField r r' =>
    (L.field r).bind fun f => (L.field r').bind fun g => f.assign value (g.get value)
  | .assignMember r other => (L.field r).bind fun f => f.assign value (f.get other)
  | .addAssign r v => (L.field r).bind fun f => f.addAssign value v
  | .subAssign r v => (L.field r).bind fun f => f.subAssign value v
  | .increment r => (L.field r).bind fun f => f.increment value
  | .decrement r => (L.field r).bind fun f => f.decrement value

end Layout

end Turf.BitField
