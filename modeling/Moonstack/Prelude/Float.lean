/-!
# Prelude: floats

The lines of the prelude that deal with floats.
-/

namespace Moonstack.Prelude

/-- The helpers that round floats. -/
def floatRounding : List String :=
  ["-- floats -------------------------------------------------------------------",
    "",
    "__FLOAT__ = \x7b\x7d",
    "",
    "function __FLOAT__.truncate(x)",
    "    if x >= 0 then",
    "        return math.floor(x)",
    "    end",
    "    return math.ceil(x)",
    "end",
    "",
    "function __FLOAT__.nearest(x)",
    "    if x ~= x or x == math.huge or x == -math.huge then",
    "        return x",
    "    end",
    "    if math.abs(x) >= 4503599627370496 then",
    "        return x",
    "    end",
    "    local rounded = math.floor(x + 0.5)",
    "    if rounded - x == 0.5 and rounded % 2 ~= 0 then",
    "        rounded = rounded - 1",
    "    end",
    "    if rounded == 0 and (x < 0 or 1 / x < 0) then",
    "        return -0.0",
    "    end",
    "    return rounded",
    "end",
    ""]

/-- Minimum, maximum and sign of floats. -/
def floatChoice : List String :=
  ["function __FLOAT__.min(a, b)",
    "    if a ~= a or b ~= b then",
    "        return 0 / 0",
    "    end",
    "    if a == 0 and b == 0 then",
    "        if 1 / a < 0 then return a end",
    "        return b",
    "    end",
    "    if a < b then return a end",
    "    return b",
    "end",
    "",
    "function __FLOAT__.max(a, b)",
    "    if a ~= a or b ~= b then",
    "        return 0 / 0",
    "    end",
    "    if a == 0 and b == 0 then",
    "        if 1 / a > 0 then return a end",
    "        return b",
    "    end",
    "    if a > b then return a end",
    "    return b",
    "end",
    "",
    "function __FLOAT__.copysign(a, b)",
    "    local negative = b < 0 or (b == 0 and 1 / b < 0)",
    "    a = math.abs(a)",
    "    if negative then",
    "        return -a",
    "    end",
    "    return a",
    "end",
    ""]

/-- Floats to 32-bit integers, clamped. -/
def floatTruncation : List String :=
  ["-- float to integer, saturating",
    "function __TRUNC_S32__(x)",
    "    if x ~= x then return 0 end",
    "    if x >= 2147483647 then return 2147483647 end",
    "    if x <= -2147483648 then return -2147483648 end",
    "    return __FLOAT__.truncate(x)",
    "end",
    "",
    "function __TRUNC_U32__(x)",
    "    if x ~= x or x <= 0 then return 0 end",
    "    if x >= 4294967295 then return -1 end",
    "    return bit.tobit(math.floor(x))",
    "end",
    ""]

end Moonstack.Prelude
