/-!
# Prelude names

The globals that the prelude defines and the generated code refers to. `__EXPORTS__` is the
exception: it is a local of each module region.
-/

namespace Moonstack

/-- A name that the prelude gives to the generated code. -/
inductive Helper where
  | modules | exports | globals | setjmpStates
  | unsigned | multiplyCorrect | divideS | divideU | moduloS | moduloU | clz | ctz | popcnt
  | float | truncS32 | truncU32
  | longInt | longIntN | longIntUN
  | reinterpretF32 | reinterpretI32 | reinterpretI64
  | memoryAlloc | memoryGrow | memoryInit
  | memoryRead8 | memoryRead16 | memoryRead32 | memoryRead32F | memoryRead64F
  | memoryWrite8 | memoryWrite16 | memoryWrite32 | memoryWrite32F | memoryWrite64F
  | tableInit
deriving DecidableEq

namespace Helper

/-- The name. -/
def name : Helper → String
  | modules => "__MODULES__"
  | exports => "__EXPORTS__"
  | globals => "__GLOBALS__"
  | setjmpStates => "__SETJMP_STATES__"
  | unsigned => "__UNSIGNED__"
  | multiplyCorrect => "__MULTIPLY_CORRECT__"
  | divideS => "__DIVIDE_S__"
  | divideU => "__DIVIDE_U__"
  | moduloS => "__MODULO_S__"
  | moduloU => "__MODULO_U__"
  | clz => "__CLZ__"
  | ctz => "__CTZ__"
  | popcnt => "__POPCNT__"
  | float => "__FLOAT__"
  | truncS32 => "__TRUNC_S32__"
  | truncU32 => "__TRUNC_U32__"
  | longInt => "__LONG_INT__"
  | longIntN => "__LONG_INT_N__"
  | longIntUN => "__LONG_INT_UN__"
  | reinterpretF32 => "__REINTERPRET_F32__"
  | reinterpretI32 => "__REINTERPRET_I32__"
  | reinterpretI64 => "__REINTERPRET_I64__"
  | memoryAlloc => "__MEMORY_ALLOC__"
  | memoryGrow => "__MEMORY_GROW__"
  | memoryInit => "__MEMORY_INIT__"
  | memoryRead8 => "__MEMORY_READ_8__"
  | memoryRead16 => "__MEMORY_READ_16__"
  | memoryRead32 => "__MEMORY_READ_32__"
  | memoryRead32F => "__MEMORY_READ_32F__"
  | memoryRead64F => "__MEMORY_READ_64F__"
  | memoryWrite8 => "__MEMORY_WRITE_8__"
  | memoryWrite16 => "__MEMORY_WRITE_16__"
  | memoryWrite32 => "__MEMORY_WRITE_32__"
  | memoryWrite32F => "__MEMORY_WRITE_32F__"
  | memoryWrite64F => "__MEMORY_WRITE_64F__"
  | tableInit => "__TABLE_INIT__"

/-- All of them. -/
def all : List Helper :=
  [modules, exports, globals, setjmpStates, unsigned, multiplyCorrect, divideS, divideU, moduloS,
    moduloU, clz, ctz, popcnt, float, truncS32, truncU32, longInt, longIntN, longIntUN, reinterpretF32,
    reinterpretI32, reinterpretI64, memoryAlloc, memoryGrow, memoryInit, memoryRead8, memoryRead16,
    memoryRead32, memoryRead32F, memoryRead64F, memoryWrite8, memoryWrite16, memoryWrite32,
    memoryWrite32F, memoryWrite64F, tableInit]

end Helper

end Moonstack
