/-!
# Prelude: the bits of floats

The lines of the prelude that deal with the bits of floats.
-/

namespace Moonstack.Prelude

/-- The bits of single-precision numbers. -/
def singleEncoding : List String :=
  ["-- IEEE 754 encoding ----------------------------------------------------------",
    "",
    "-- Round to the nearest integer, ties to even.",
    "local function round_even(v)",
    "    local f = math.floor(v)",
    "    local d = v - f",
    "    if d > 0.5 or (d == 0.5 and f % 2 == 1) then",
    "        f = f + 1",
    "    end",
    "    return f",
    "end",
    "",
    "local function encode_f32(x)",
    "    if x ~= x then return 0x7FC00000 end",
    "    local sign = 0",
    "    if x < 0 or (x == 0 and 1 / x < 0) then",
    "        sign = 0x80000000",
    "        x = -x",
    "    end",
    "    if x == math.huge then return bit.bor(sign, 0x7F800000) end",
    "    if x == 0 then return bit.tobit(sign) end",
    "    local m, e = math.frexp(x)",
    "    e = e - 1",
    "    if e < -126 then",
    "        return bit.bor(sign, round_even(math.ldexp(x, 149)))",
    "    end",
    "    local mantissa = round_even((m * 2 - 1) * 8388608)",
    "    if mantissa == 8388608 then",
    "        mantissa = 0",
    "        e = e + 1",
    "    end",
    "    if e > 127 then return bit.bor(sign, 0x7F800000) end",
    "    return bit.bor(sign, bit.lshift(e + 127, 23), mantissa)",
    "end",
    "",
    "local function decode_f32(b)",
    "    local sign = b < 0 and -1 or 1",
    "    local e = bit.band(bit.rshift(b, 23), 0xFF)",
    "    local mantissa = bit.band(b, 0x7FFFFF)",
    "    if e == 0xFF then",
    "        if mantissa == 0 then return sign * math.huge end",
    "        return 0 / 0",
    "    end",
    "    if e == 0 then return sign * math.ldexp(mantissa, -149) end",
    "    return sign * math.ldexp(mantissa + 8388608, e - 150)",
    "end",
    ""]

/-- The bits of double-precision numbers. -/
def doubleEncoding : List String :=
  ["local function encode_f64(x)",
    "    if x ~= x then return 0, 0x7FF80000 end",
    "    local sign = 0",
    "    if x < 0 or (x == 0 and 1 / x < 0) then",
    "        sign = 0x80000000",
    "        x = -x",
    "    end",
    "    if x == math.huge then return 0, bit.bor(sign, 0x7FF00000) end",
    "    if x == 0 then return 0, bit.tobit(sign) end",
    "    local m, e = math.frexp(x)",
    "    e = e - 1",
    "    local mantissa",
    "    if e < -1022 then",
    "        mantissa = math.ldexp(x, 1074)",
    "        e = -1023",
    "    else",
    "        mantissa = (m * 2 - 1) * 4503599627370496",
    "    end",
    "    local mantissa_hi = math.floor(mantissa / 4294967296)",
    "    local mantissa_lo = mantissa - mantissa_hi * 4294967296",
    "    return bit.tobit(mantissa_lo), bit.bor(sign, bit.lshift(e + 1023, 20), mantissa_hi)",
    "end",
    "",
    "local function decode_f64(low, high)",
    "    local sign = high < 0 and -1 or 1",
    "    local e = bit.band(bit.rshift(high, 20), 0x7FF)",
    "    local mantissa = bit.band(high, 0xFFFFF) * 4294967296 + __UNSIGNED__(low)",
    "    if e == 0x7FF then",
    "        if mantissa == 0 then return sign * math.huge end",
    "        return 0 / 0",
    "    end",
    "    if e == 0 then return sign * math.ldexp(mantissa, -1074) end",
    "    return sign * math.ldexp(mantissa + 4503599627370496, e - 1075)",
    "end",
    ""]

/-- The same bits read as another type. -/
def reinterpretation : List String :=
  ["function __REINTERPRET_F32__(x) return decode_f32(bit.tobit(x)) end",
    "function __REINTERPRET_I32__(x) return encode_f32(x) end",
    "",
    "function __REINTERPRET_I64__(x)",
    "    local low, high = encode_f64(x)",
    "    return __LONG_INT__(low, high)",
    "end",
    "",
    "function long_int:_reinterpret_f64()",
    "    return decode_f64(self[1], self[2])",
    "end",
    ""]

end Moonstack.Prelude
