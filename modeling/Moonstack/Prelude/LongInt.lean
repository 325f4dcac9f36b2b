/-!
# Prelude: 64-bit integers

The lines of the prelude that deal with 64-bit integers.
-/

namespace Moonstack.Prelude

/-- Construction of 64-bit integers. -/
def longConstruction : List String :=
  ["-- 64-bit integers ----------------------------------------------------------",
    "--",
    "-- A long integer is a table \x7blow, high\x7d of two signed 32-bit halves. All",
    "-- methods return fresh values; only `load` mutates its receiver.",
    "",
    "local long_int = \x7b\x7d",
    "local long_int_mt = \x7b __index = long_int \x7d",
    "",
    "function __LONG_INT__(low, high)",
    "    return setmetatable(\x7b bit.tobit(low), bit.tobit(high) \x7d, long_int_mt)",
    "end",
    "",
    "local function from_unsigned_double(d)",
    "    local high = math.floor(d / 4294967296)",
    "    return __LONG_INT__(d - high * 4294967296, high)",
    "end",
    "",
    "local function to_unsigned_double(v)",
    "    return __UNSIGNED__(v[2]) * 4294967296 + __UNSIGNED__(v[1])",
    "end",
    "",
    "function __LONG_INT_N__(x)",
    "    if x ~= x then return __LONG_INT__(0, 0) end",
    "    if x >= 9223372036854775807 then return __LONG_INT__(-1, 0x7FFFFFFF) end",
    "    if x <= -9223372036854775808 then return __LONG_INT__(0, -2147483648) end",
    "    local t = __FLOAT__.truncate(x)",
    "    if t < 0 then",
    "        return __LONG_INT__(0, 0):_sub(from_unsigned_double(-t))",
    "    end",
    "    return from_unsigned_double(t)",
    "end",
    "",
    "function __LONG_INT_UN__(x)",
    "    if x ~= x or x <= 0 then return __LONG_INT__(0, 0) end",
    "    if x >= 18446744073709551615 then return __LONG_INT__(-1, -1) end",
    "    return from_unsigned_double(math.floor(x))",
    "end",
    ""]

/-- Sums and products of 64-bit integers. -/
def longArithmetic : List String :=
  ["function long_int:_add(other)",
    "    local low = __UNSIGNED__(self[1]) + __UNSIGNED__(other[1])",
    "    local carry = low >= 4294967296 and 1 or 0",
    "    return __LONG_INT__(low, self[2] + other[2] + carry)",
    "end",
    "",
    "function long_int:_sub(other)",
    "    local low = __UNSIGNED__(self[1]) - __UNSIGNED__(other[1])",
    "    local borrow = low < 0 and 1 or 0",
    "    return __LONG_INT__(low, self[2] - other[2] - borrow)",
    "end",
    "",
    "function long_int:_neg()",
    "    return __LONG_INT__(0, 0):_sub(self)",
    "end",
    "",
    "function long_int:_mul(other)",
    "    local a0, a1 = bit.band(self[1], 0xFFFF), bit.rshift(self[1], 16)",
    "    local a2, a3 = bit.band(self[2], 0xFFFF), bit.rshift(self[2], 16)",
    "    local b0, b1 = bit.band(other[1], 0xFFFF), bit.rshift(other[1], 16)",
    "    local b2, b3 = bit.band(other[2], 0xFFFF), bit.rshift(other[2], 16)",
    "    local c0 = a0 * b0",
    "    local c1 = a1 * b0 + a0 * b1 + math.floor(c0 / 65536)",
    "    local c2 = a2 * b0 + a1 * b1 + a0 * b2 + math.floor(c1 / 65536)",
    "    local c3 = a3 * b0 + a2 * b1 + a1 * b2 + a0 * b3 + math.floor(c2 / 65536)",
    "    return __LONG_INT__(c0 % 65536 + (c1 % 65536) * 65536, c2 % 65536 + (c3 % 65536) * 65536)",
    "end",
    ""]

/-- Quotients and remainders of 64-bit integers. -/
def longDivision : List String :=
  ["local function unsigned_divmod(a, b)",
    "    if b[1] == 0 and b[2] == 0 then",
    "        error(\"integer divide by zero\")",
    "    end",
    "    if bit.rshift(a[2], 20) == 0 and bit.rshift(b[2], 20) == 0 then",
    "        local x, y = to_unsigned_double(a), to_unsigned_double(b)",
    "        local q = math.floor(x / y)",
    "        local r = x - q * y",
    "        if r < 0 then",
    "            q, r = q - 1, r + y",
    "        elseif r >= y then",
    "            q, r = q + 1, r - y",
    "        end",
    "        return from_unsigned_double(q), from_unsigned_double(r)",
    "    end",
    "    local r_lo, r_hi, q_lo, q_hi = 0, 0, 0, 0",
    "    local b_lo, b_hi = __UNSIGNED__(b[1]), __UNSIGNED__(b[2])",
    "    for i = 63, 0, -1 do",
    "        local carry = bit.rshift(r_hi, 31)",
    "        r_hi = bit.bor(bit.lshift(r_hi, 1), bit.rshift(r_lo, 31))",
    "        r_lo = bit.lshift(r_lo, 1)",
    "        local word = i >= 32 and a[2] or a[1]",
    "        r_lo = bit.bor(r_lo, bit.band(bit.rshift(word, i % 32), 1))",
    "        local u_hi, u_lo = __UNSIGNED__(r_hi), __UNSIGNED__(r_lo)",
    "        if carry == 1 or u_hi > b_hi or (u_hi == b_hi and u_lo >= b_lo) then",
    "            local low = u_lo - b_lo",
    "            local borrow = low < 0 and 1 or 0",
    "            r_lo = bit.tobit(low)",
    "            r_hi = bit.tobit(u_hi - b_hi - borrow)",
    "            if i >= 32 then",
    "                q_hi = bit.bor(q_hi, bit.lshift(1, i - 32))",
    "            else",
    "                q_lo = bit.bor(q_lo, bit.lshift(1, i))",
    "            end",
    "        end",
    "    end",
    "    return __LONG_INT__(q_lo, q_hi), __LONG_INT__(r_lo, r_hi)",
    "end",
    "",
    "function long_int:_div_u(other)",
    "    local q = unsigned_divmod(self, other)",
    "    return q",
    "end",
    "",
    "function long_int:_rem_u(other)",
    "    local _, r = unsigned_divmod(self, other)",
    "    return r",
    "end",
    "",
    "function long_int:_div_s(other)",
    "    if other[1] == 0 and other[2] == 0 then",
    "        error(\"integer divide by zero\")",
    "    end",
    "    if self[1] == 0 and self[2] == -2147483648 and other[1] == -1 and other[2] == -1 then",
    "        error(\"integer overflow\")",
    "    end",
    "    local negative_a, negative_b = self[2] < 0, other[2] < 0",
    "    local q = unsigned_divmod(negative_a and self:_neg() or self, negative_b and other:_neg() or other)",
    "    if negative_a ~= negative_b then",
    "        return q:_neg()",
    "    end",
    "    return q",
    "end",
    "",
    "function long_int:_rem_s(other)",
    "    local negative_a = self[2] < 0",
    "    local _, r = unsigned_divmod(negative_a and self:_neg() or self, other[2] < 0 and other:_neg() or other)",
    "    if negative_a then",
    "        return r:_neg()",
    "    end",
    "    return r",
    "end",
    ""]

/-- Bitwise operations on 64-bit integers. -/
def longBitwise : List String :=
  ["function long_int:_and(other)",
    "    return __LONG_INT__(bit.band(self[1], other[1]), bit.band(self[2], other[2]))",
    "end",
    "",
    "function long_int:_or(other)",
    "    return __LONG_INT__(bit.bor(self[1], other[1]), bit.bor(self[2], other[2]))",
    "end",
    "",
    "function long_int:_xor(other)",
    "    return __LONG_INT__(bit.bxor(self[1], other[1]), bit.bxor(self[2], other[2]))",
    "end",
    ""]

/-- Shifts and rotations of 64-bit integers. -/
def longShifts : List String :=
  ["local function shift_left(low, high, n)",
    "    if n == 0 then return __LONG_INT__(low, high) end",
    "    if n >= 32 then return __LONG_INT__(0, bit.lshift(low, n - 32)) end",
    "    return __LONG_INT__(bit.lshift(low, n), bit.bor(bit.lshift(high, n), bit.rshift(low, 32 - n)))",
    "end",
    "",
    "local function shift_right_u(low, high, n)",
    "    if n == 0 then return __LONG_INT__(low, high) end",
    "    if n >= 32 then return __LONG_INT__(bit.rshift(high, n - 32), 0) end",
    "    return __LONG_INT__(bit.bor(bit.rshift(low, n), bit.lshift(high, 32 - n)), bit.rshift(high, n))",
    "end",
    "",
    "local function shift_right_s(low, high, n)",
    "    if n == 0 then return __LONG_INT__(low, high) end",
    "    if n >= 32 then return __LONG_INT__(bit.arshift(high, n - 32), bit.arshift(high, 31)) end",
    "    return __LONG_INT__(bit.bor(bit.rshift(low, n), bit.lshift(high, 32 - n)), bit.arshift(high, n))",
    "end",
    "",
    "function long_int:_shl(other)",
    "    return shift_left(self[1], self[2], bit.band(other[1], 63))",
    "end",
    "",
    "function long_int:_shr_u(other)",
    "    return shift_right_u(self[1], self[2], bit.band(other[1], 63))",
    "end",
    "",
    "function long_int:_shr_s(other)",
    "    return shift_right_s(self[1], self[2], bit.band(other[1], 63))",
    "end",
    "",
    "function long_int:_rotl(other)",
    "    local n = bit.band(other[1], 63)",
    "    if n == 0 then return __LONG_INT__(self[1], self[2]) end",
    "    return shift_left(self[1], self[2], n):_or(shift_right_u(self[1], self[2], 64 - n))",
    "end",
    "",
    "function long_int:_rotr(other)",
    "    local n = bit.band(other[1], 63)",
    "    if n == 0 then return __LONG_INT__(self[1], self[2]) end",
    "    return shift_right_u(self[1], self[2], n):_or(shift_left(self[1], self[2], 64 - n))",
    "end",
    ""]

/-- Comparisons of 64-bit integers. -/
def longComparison : List String :=
  ["local function less_s(a, b)",
    "    if a[2] ~= b[2] then return a[2] < b[2] end",
    "    return __UNSIGNED__(a[1]) < __UNSIGNED__(b[1])",
    "end",
    "",
    "local function less_u(a, b)",
    "    local a_hi, b_hi = __UNSIGNED__(a[2]), __UNSIGNED__(b[2])",
    "    if a_hi ~= b_hi then return a_hi < b_hi end",
    "    return __UNSIGNED__(a[1]) < __UNSIGNED__(b[1])",
    "end",
    "",
    "function long_int:_eqz() return (self[1] == 0 and self[2] == 0) and 1 or 0 end",
    "function long_int:_eq(other) return (self[1] == other[1] and self[2] == other[2]) and 1 or 0 end",
    "function long_int:_ne(other) return (self[1] == other[1] and self[2] == other[2]) and 0 or 1 end",
    "function long_int:_lt_s(other) return less_s(self, other) and 1 or 0 end",
    "function long_int:_lt_u(other) return less_u(self, other) and 1 or 0 end",
    "function long_int:_gt_s(other) return less_s(other, self) and 1 or 0 end",
    "function long_int:_gt_u(other) return less_u(other, self) and 1 or 0 end",
    "function long_int:_le_s(other) return less_s(other, self) and 0 or 1 end",
    "function long_int:_le_u(other) return less_u(other, self) and 0 or 1 end",
    "function long_int:_ge_s(other) return less_s(self, other) and 0 or 1 end",
    "function long_int:_ge_u(other) return less_u(self, other) and 0 or 1 end",
    ""]

/-- Bit counts, sign extension and conversion of 64-bit integers. -/
def longConversion : List String :=
  ["function long_int:_clz()",
    "    if self[2] == 0 then",
    "        return __LONG_INT__(32 + __CLZ__(self[1]), 0)",
    "    end",
    "    return __LONG_INT__(__CLZ__(self[2]), 0)",
    "end",
    "",
    "function long_int:_ctz()",
    "    if self[1] == 0 then",
    "        return __LONG_INT__(32 + __CTZ__(self[2]), 0)",
    "    end",
    "    return __LONG_INT__(__CTZ__(self[1]), 0)",
    "end",
    "",
    "function long_int:_popcnt()",
    "    return __LONG_INT__(__POPCNT__(self[1]) + __POPCNT__(self[2]), 0)",
    "end",
    "",
    "function long_int:_extend8_s()",
    "    local low = bit.arshift(bit.lshift(self[1], 24), 24)",
    "    return __LONG_INT__(low, bit.arshift(low, 31))",
    "end",
    "",
    "function long_int:_extend16_s()",
    "    local low = bit.arshift(bit.lshift(self[1], 16), 16)",
    "    return __LONG_INT__(low, bit.arshift(low, 31))",
    "end",
    "",
    "function long_int:_extend32_s()",
    "    return __LONG_INT__(self[1], bit.arshift(self[1], 31))",
    "end",
    "",
    "function long_int:_convert_s()",
    "    return self[2] * 4294967296 + __UNSIGNED__(self[1])",
    "end",
    "",
    "function long_int:_convert_u()",
    "    return to_unsigned_double(self)",
    "end",
    ""]

end Moonstack.Prelude
