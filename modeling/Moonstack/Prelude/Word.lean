/-!
# Prelude: 32-bit integers

The lines of the prelude that deal with 32-bit integers.
-/

namespace Moonstack.Prelude

/-- The head of the prelude: the tables that modules share. -/
def setup : List String :=
  ["-- wasm2lua runtime prelude",
    "--",
    "-- Numeric helpers, 64-bit integers, linear memory and function tables used by",
    "-- translated modules. Every name defined here is global so that several",
    "-- translated modules concatenated into one program share a single copy.",
    "",
    "local bit = bit or require(\"bit\")",
    "",
    "__MODULES__ = __MODULES__ or \x7b\x7d",
    "__GLOBALS__ = __GLOBALS__ or \x7b\x7d",
    "__SETJMP_STATES__ = __SETJMP_STATES__ or setmetatable(\x7b\x7d, \x7b",
    "    __mode = \"k\",",
    "    __index = function(states, memory)",
    "        local per_memory = \x7b\x7d",
    "        rawset(states, memory, per_memory)",
    "        return per_memory",
    "    end,",
    "\x7d)",
    ""]

/-- Multiplication, division and remainder of 32-bit integers. -/
def wordArithmetic : List String :=
  ["-- 32-bit integers ----------------------------------------------------------",
    "",
    "function __UNSIGNED__(value)",
    "    if value < 0 then",
    "        value = value + 4294967296",
    "    end",
    "    return value",
    "end",
    "",
    "function __MULTIPLY_CORRECT__(a, b)",
    "    local a_lo, a_hi = bit.band(a, 0xFFFF), bit.rshift(a, 16)",
    "    local b_lo, b_hi = bit.band(b, 0xFFFF), bit.rshift(b, 16)",
    "    local cross = bit.tobit(a_hi * b_lo + a_lo * b_hi)",
    "    return bit.tobit(a_lo * b_lo + bit.lshift(cross, 16))",
    "end",
    "",
    "function __DIVIDE_S__(a, b)",
    "    if b == 0 then",
    "        error(\"integer divide by zero\")",
    "    end",
    "    if a == -2147483648 and b == -1 then",
    "        error(\"integer overflow\")",
    "    end",
    "    local quotient = a / b",
    "    if quotient < 0 then",
    "        return math.ceil(quotient)",
    "    end",
    "    return math.floor(quotient)",
    "end",
    "",
    "function __DIVIDE_U__(a, b)",
    "    if b == 0 then",
    "        error(\"integer divide by zero\")",
    "    end",
    "    return bit.tobit(math.floor(__UNSIGNED__(a) / __UNSIGNED__(b)))",
    "end",
    "",
    "function __MODULO_S__(a, b)",
    "    if b == 0 then",
    "        error(\"integer divide by zero\")",
    "    end",
    "    if b == -1 then",
    "        return 0",
    "    end",
    "    return math.fmod(a, b)",
    "end",
    "",
    "function __MODULO_U__(a, b)",
    "    if b == 0 then",
    "        error(\"integer divide by zero\")",
    "    end",
    "    return bit.tobit(math.fmod(__UNSIGNED__(a), __UNSIGNED__(b)))",
    "end",
    ""]

/-- Counting the bits of 32-bit integers. -/
def wordBits : List String :=
  ["function __CLZ__(x)",
    "    if x == 0 then",
    "        return 32",
    "    end",
    "    local n = 0",
    "    if bit.band(x, 0xFFFF0000) == 0 then n = n + 16; x = bit.lshift(x, 16) end",
    "    if bit.band(x, 0xFF000000) == 0 then n = n + 8; x = bit.lshift(x, 8) end",
    "    if bit.band(x, 0xF0000000) == 0 then n = n + 4; x = bit.lshift(x, 4) end",
    "    if bit.band(x, 0xC0000000) == 0 then n = n + 2; x = bit.lshift(x, 2) end",
    "    if bit.band(x, 0x80000000) == 0 then n = n + 1 end",
    "    return n",
    "end",
    "",
    "function __CTZ__(x)",
    "    if x == 0 then",
    "        return 32",
    "    end",
    "    local n = 0",
    "    if bit.band(x, 0x0000FFFF) == 0 then n = n + 16; x = bit.rshift(x, 16) end",
    "    if bit.band(x, 0x000000FF) == 0 then n = n + 8; x = bit.rshift(x, 8) end",
    "    if bit.band(x, 0x0000000F) == 0 then n = n + 4; x = bit.rshift(x, 4) end",
    "    if bit.band(x, 0x00000003) == 0 then n = n + 2; x = bit.rshift(x, 2) end",
    "    if bit.band(x, 0x00000001) == 0 then n = n + 1 end",
    "    return n",
    "end",
    "",
    "function __POPCNT__(x)",
    "    local n = 0",
    "    while x ~= 0 do",
    "        x = bit.band(x, x - 1)",
    "        n = n + 1",
    "    end",
    "    return n",
    "end",
    ""]

end Moonstack.Prelude
