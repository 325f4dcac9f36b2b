import Moonstack.Prelude.Encoding
import Moonstack.Prelude.Float
import Moonstack.Prelude.LongInt
import Moonstack.Prelude.Word

/-!
# Prelude: linear memory and function tables

The lines of the prelude that deal with linear memory and function tables, and the whole of it: the
library that every chunk starts with, in Lua.
-/

namespace Moonstack.Prelude

/-- Allocation, growth and filling of memories. -/
def memoryAllocation : List String :=
  ["-- linear memory --------------------------------------------------------------",
    "--",
    "-- A memory is a table of byte values indexed from 0. Unwritten bytes read as 0.",
    "",
    "local PAGE_SIZE = 65536",
    "",
    "local function check_bounds(mem, addr, width)",
    "    if addr < 0 or addr + width > mem._page_count * PAGE_SIZE then",
    "        error(\"out of bounds memory access\")",
    "    end",
    "end",
    "",
    "function __MEMORY_ALLOC__(initial, maximum)",
    "    return \x7b _page_count = initial, _max_pages = maximum or 65536 \x7d",
    "end",
    "",
    "function __MEMORY_GROW__(mem, pages)",
    "    local previous = mem._page_count",
    "    if previous + pages > mem._max_pages then",
    "        return -1",
    "    end",
    "    mem._page_count = previous + pages",
    "    return previous",
    "end",
    "",
    "function __MEMORY_INIT__(mem, offset, bytes)",
    "    check_bounds(mem, offset, #bytes)",
    "    for i = 1, #bytes do",
    "        mem[offset + i - 1] = string.byte(bytes, i)",
    "    end",
    "end",
    ""]

/-- Loads and stores of integers of up to 32 bits. -/
def integerAccess : List String :=
  ["function __MEMORY_READ_8__(mem, addr)",
    "    check_bounds(mem, addr, 1)",
    "    return mem[addr] or 0",
    "end",
    "",
    "function __MEMORY_READ_16__(mem, addr)",
    "    check_bounds(mem, addr, 2)",
    "    return (mem[addr] or 0) + (mem[addr + 1] or 0) * 256",
    "end",
    "",
    "function __MEMORY_READ_32__(mem, addr)",
    "    check_bounds(mem, addr, 4)",
    "    return bit.tobit((mem[addr] or 0) + (mem[addr + 1] or 0) * 256",
    "        + (mem[addr + 2] or 0) * 65536 + (mem[addr + 3] or 0) * 16777216)",
    "end",
    "",
    "function __MEMORY_WRITE_8__(mem, addr, value)",
    "    check_bounds(mem, addr, 1)",
    "    mem[addr] = bit.band(value, 0xFF)",
    "end",
    "",
    "function __MEMORY_WRITE_16__(mem, addr, value)",
    "    check_bounds(mem, addr, 2)",
    "    mem[addr] = bit.band(value, 0xFF)",
    "    mem[addr + 1] = bit.band(bit.rshift(value, 8), 0xFF)",
    "end",
    "",
    "function __MEMORY_WRITE_32__(mem, addr, value)",
    "    check_bounds(mem, addr, 4)",
    "    mem[addr] = bit.band(value, 0xFF)",
    "    mem[addr + 1] = bit.band(bit.rshift(value, 8), 0xFF)",
    "    mem[addr + 2] = bit.band(bit.rshift(value, 16), 0xFF)",
    "    mem[addr + 3] = bit.band(bit.rshift(value, 24), 0xFF)",
    "end",
    ""]

/-- Loads and stores of floats and 64-bit integers. -/
def wideAccess : List String :=
  ["function __MEMORY_READ_32F__(mem, addr)",
    "    return decode_f32(__MEMORY_READ_32__(mem, addr))",
    "end",
    "",
    "function __MEMORY_READ_64F__(mem, addr)",
    "    return decode_f64(__MEMORY_READ_32__(mem, addr), __MEMORY_READ_32__(mem, addr + 4))",
    "end",
    "",
    "function __MEMORY_WRITE_32F__(mem, addr, value)",
    "    __MEMORY_WRITE_32__(mem, addr, encode_f32(value))",
    "end",
    "",
    "function __MEMORY_WRITE_64F__(mem, addr, value)",
    "    local low, high = encode_f64(value)",
    "    __MEMORY_WRITE_32__(mem, addr, low)",
    "    __MEMORY_WRITE_32__(mem, addr + 4, high)",
    "end",
    "",
    "function long_int:load(mem, addr)",
    "    self[1] = __MEMORY_READ_32__(mem, addr)",
    "    self[2] = __MEMORY_READ_32__(mem, addr + 4)",
    "end",
    "",
    "function long_int:store(mem, addr)",
    "    __MEMORY_WRITE_32__(mem, addr, self[1])",
    "    __MEMORY_WRITE_32__(mem, addr + 4, self[2])",
    "end",
    "",
    "function long_int:store8(mem, addr) __MEMORY_WRITE_8__(mem, addr, self[1]) end",
    "function long_int:store16(mem, addr) __MEMORY_WRITE_16__(mem, addr, self[1]) end",
    "function long_int:store32(mem, addr) __MEMORY_WRITE_32__(mem, addr, self[1]) end",
    ""]

/-- The helpers for tables of functions. -/
def functionTables : List String :=
  ["-- function tables ------------------------------------------------------------",
    "",
    "function __TABLE_INIT__(tbl, start, funcs)",
    "    for i = 1, #funcs do",
    "        tbl[start + i - 1] = funcs[i]",
    "    end",
    "end"]

/-- The lines of the prelude. -/
def lines : List String :=
  setup ++ wordArithmetic ++ wordBits ++ floatRounding ++ floatChoice ++ floatTruncation ++
    longConstruction ++ longArithmetic ++ longDivision ++ longBitwise ++ longShifts ++
    longComparison ++ longConversion ++ singleEncoding ++ doubleEncoding ++ reinterpretation ++
    memoryAllocation ++ integerAccess ++ wideAccess ++ functionTables

/-- The text of the prelude; every line ends with a line feed. -/
def text : String := String.join (lines.map fun line => line ++ "\n")

end Moonstack.Prelude
