import Mathlib.Data.Int.Notation
import Mathlib.Tactic.Common
/-!
# Words, ring sizes and the index map

`defs.h` and the `details` of `atomic_queue.h`: the 32-bit `unsigned`, the
round-up of a requested size to a power of two, the number of index bits
to shuffle, and the maps from a counter to a slot. `remap(index, size,
bits)` reduces the counter modulo the size and, where `bits` is not `0`,
swaps the index bits `[0, bits)` with the bits `[bits, 2 * bits)`; it is
written three times in the source, once with the two BMI instruction
sets told apart.
-/

namespace AtomicQueue

/-- `unsigned`. -/
abbrev Word := BitVec 32

/-- `as_signed`. -/
def asSigned (c : Word) : ℤ := c.toInt

/-- `max_value`, at `unsigned`. -/
def maxValue (a b : Word) : Word := if a < b then b else a

/-! ## The size of the ring -/

section RoundUp

variable {w : ℕ}

def decrement (x : BitVec w) : BitVec w := x - 1

def increment (x : BitVec w) : BitVec w := x + 1

/-- `or_equal`, folded over its shifts. -/
def orEqual (x : BitVec w) : List ℕ → BitVec w
  | [] => x
  | u :: rest => orEqual (x ||| x >>> u) rest

end RoundUp

/-- `round_up_to_power_of_2(uint32_t)`. -/
def roundUpToPowerOf2 (a : Word) : Word := increment (orEqual (decrement a) [1, 2, 4, 8, 16])

/-- `round_up_to_power_of_2(uint64_t)`. -/
def roundUpToPowerOf2U64 (a : BitVec 64) : BitVec 64 :=
  increment (orEqual (decrement a) [1, 2, 4, 8, 16, 32])

/-- `GetCacheLineIndexBits<elements_per_cache_line>::value`. -/
def getCacheLineIndexBits (elementsPerCacheLine : ℕ) : ℕ :=
  match elementsPerCacheLine with
  | 256 => 8
  | 128 => 7
  | 64 => 6
  | 32 => 5
  | 16 => 4
  | 8 => 3
  | 4 => 2
  | 2 => 1
  | _ => 0

/-- `GetIndexShuffleBits<minimize_contention, array_size,
elements_per_cache_line>::value`. -/
def getIndexShuffleBits (minimizeContention : Bool) (arraySize : Word)
    (elementsPerCacheLine : ℕ) : ℕ :=
  if minimizeContention then
    let bits := getCacheLineIndexBits elementsPerCacheLine
    let minSize := (1 : Word) <<< (bits * 2)
    if arraySize < minSize then 0 else bits
  else 0

/-! ## The index maps

A definition named `remap` is the overload with a size, one named
`remapFull` the overload without. -/

namespace IndexBits

variable (b : ℕ)

def maskElemIdx : Word := ~~~(~~~(0 : Word) <<< b)

def maskHi : Word := ~~~(0 : Word) <<< (2 * b)

def count2 : Word := BitVec.ofNat 32 b <<< 8 ||| BitVec.ofNat 32 b

end IndexBits

open IndexBits

namespace RemapXor

def remapFull (index : Word) (b : ℕ) : Word :=
  let mix := (index ^^^ (index >>> b)) &&& maskElemIdx b
  index ^^^ mix ^^^ (mix <<< b)

def remap (index size : Word) (b : ℕ) : Word := remapFull (index &&& (size - 1)) b

end RemapXor

namespace RemapAnd

def remap (index size : Word) (b : ℕ) : Word :=
  ((index >>> b) &&& maskElemIdx b) ||| ((index &&& maskElemIdx b) <<< b) |||
    (index &&& (maskHi b &&& (size - 1)))

def remapFull (index : Word) (b : ℕ) : Word := remap index 0 b

end RemapAnd

namespace RemapBmi

/-- `_bzhi_u32`: the bits from position `nn[7:0]` up are cleared. -/
def bzhi (a nn : Word) : Word :=
  let n := (nn.extractLsb' 0 8).toNat
  if n < 32 then a &&& ~~~(~~~(0 : Word) <<< n) else a

/-- `__bextr_u32`: the field of length `nn[15:8]` from position `nn[7:0]`. -/
def bextr (a nn : Word) : Word :=
  (a.extractLsb' (nn.extractLsb' 0 8).toNat (nn.extractLsb' 8 8).toNat).setWidth 32

/-- With `bmi2` the low field is cut by `_bzhi_u32`, without by a mask. -/
def remap (bmi2 : Bool) (index size : Word) (b : ℕ) : Word :=
  let nn := count2 b
  let newLineIdx := if bmi2 then bzhi index nn <<< b else (index &&& maskElemIdx b) <<< b
  let newElemIdx := bextr index nn ||| (index &&& (maskHi b &&& (size - 1)))
  newElemIdx ||| newLineIdx

def remapFull (bmi2 : Bool) (index : Word) (b : ℕ) : Word := remap bmi2 index 0 b

end RemapBmi

/-- The index maps `ATOMIC_QUEUE_REMAP` and the compiler flags choose from. -/
inductive Remapper
  | xor
  | and
  | bmi (bmi2 : Bool)
  deriving DecidableEq

/-- `Remap0<Remap>::remap(index, size, IndexBits<b>)`. -/
def Remapper.remap (r : Remapper) (index size : Word) (b : ℕ) : Word :=
  if b = 0 then index % size
  else
    match r with
    | .xor => RemapXor.remap index size b
    | .and => RemapAnd.remap index size b
    | .bmi bmi2 => RemapBmi.remap bmi2 index size b

/-- `Remap0<Remap>::remap(index, IndexBits<b>)`. -/
def Remapper.remapFull (r : Remapper) (index : Word) (b : ℕ) : Word :=
  if b = 0 then index
  else
    match r with
    | .xor => RemapXor.remapFull index b
    | .and => RemapAnd.remapFull index b
    | .bmi bmi2 => RemapBmi.remapFull bmi2 index b

end AtomicQueue
