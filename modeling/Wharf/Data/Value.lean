import Wharf.Failure
import Wharf.Numeric.Binary64

/-!
# Values

Values in the memory of a node, and how they are written to a file: numbers in little-endian order
with their full width, texts, sequences and maps behind their length in eight bytes, all else bare.

* `Value.encode` is the encoding of a value, with what was written before a fault.
* `Value.writeTo` writes a value to a file, which is emptied first.
-/

namespace Wharf

/-- A value. -/
inductive Value
  /-- A whole number in so many bytes. -/
  | integer (width : Nat) (value : Int)
  | number (value : Binary64)
  | flag (value : Bool)
  | character (value : Char)
  | text (value : String)
  | unit
  | absent
  | present (value : Value)
  | sequence (items : List Value)
  | tuple (items : List Value)
  | map (entries : List (Value × Value))
  /-- A value that cannot be written, for a reason of its own. -/
  | failing (reason : String)
  /-- A sequence whose length is not known ahead of time. -/
  | unsized
  deriving Inhabited

/-- What has been written of a value, and the fault that ended the writing. -/
structure Encoding where
  bytes : List UInt8
  fault : Option String := none
  deriving DecidableEq

namespace Encoding

/-- Nothing. -/
def empty : Encoding := ⟨[], none⟩

/-- Goes on with `next`, unless there was a fault. -/
def append (e next : Encoding) : Encoding :=
  match e.fault with
  | some _ => e
  | none => ⟨e.bytes ++ next.bytes, next.fault⟩

end Encoding

namespace Value

/-- The lowest bytes of a number, lowest first. -/
def littleEndian : Nat → Nat → List UInt8
  | 0, _ => []
  | width + 1, n => UInt8.ofNat n :: littleEndian width (n / 256)

/-- The bytes of a whole number; a negative one is counted from the end of its range. -/
def integerBytes (width : Nat) (value : Int) : List UInt8 :=
  littleEndian width (value % (1 <<< (8 * width))).toNat

/-- The bytes of a length. -/
def lengthBytes (length : Nat) : List UInt8 := littleEndian 8 length

/-- Why a sequence of unknown length cannot be written. -/
def unsizedFault : String :=
  "Bincode can only encode sequences and maps that have a knowable size ahead of time"

mutual

/-- Writes a value. -/
def encode : Value → Encoding
  | integer width value => ⟨integerBytes width value, none⟩
  | number value => ⟨littleEndian 8 value.bits.toNat, none⟩
  | flag value => ⟨[if value then 1 else 0], none⟩
  | character value => ⟨(String.singleton value).toUTF8.toList, none⟩
  | text value => ⟨lengthBytes value.utf8ByteSize ++ value.toUTF8.toList, none⟩
  | unit => .empty
  | absent => ⟨[0], none⟩
  | present value => Encoding.append ⟨[1], none⟩ (encode value)
  | sequence items => Encoding.append ⟨lengthBytes items.length, none⟩ (encodeAll items)
  | tuple items => encodeAll items
  | map entries => Encoding.append ⟨lengthBytes entries.length, none⟩ (encodeEntries entries)
  | failing reason => ⟨[], some reason⟩
  | unsized => ⟨[], some unsizedFault⟩

/-- Writes values one behind the other. -/
def encodeAll : List Value → Encoding
  | [] => .empty
  | value :: rest => (encode value).append (encodeAll rest)

/-- Writes keys and values in turn. -/
def encodeEntries : List (Value × Value) → Encoding
  | [] => .empty
  | (key, value) :: rest => (encode key).append ((encode value).append (encodeEntries rest))

end

/-- Writes a value to a file. The file is emptied first, and what was written before a fault stays
in it. -/
def writeTo (v : Value) (fs : Files) (path : Path) : Files × Except Failure Unit :=
  match fs.create path v.encode.bytes with
  | .error e => (fs, .error (.file e))
  | .ok written =>
    match v.encode.fault with
    | some reason => (written, .error (.serialization reason))
    | none => (written, .ok ())

end Value

end Wharf
