import Moonstack.Instr

/-!
# Mnemonics

The name of an instruction in the text format, as diagnostics and debug comments show it.
-/

namespace Moonstack

/-- The operator part of a comparison's mnemonic. -/
def Comparison.name : Comparison → String
  | eq => "eq"
  | ne => "ne"
  | ltS => "lt_s"
  | ltU => "lt_u"
  | gtS => "gt_s"
  | gtU => "gt_u"
  | leS => "le_s"
  | leU => "le_u"
  | geS => "ge_s"
  | geU => "ge_u"
  | lt => "lt"
  | gt => "gt"
  | le => "le"
  | ge => "ge"

/-- The operator part of a unary operation's mnemonic. -/
def UnaryOp.name : UnaryOp → String
  | clz => "clz"
  | ctz => "ctz"
  | popcnt => "popcnt"
  | extend8S => "extend8_s"
  | extend16S => "extend16_s"
  | extend32S => "extend32_s"
  | abs => "abs"
  | neg => "neg"
  | sqrt => "sqrt"
  | ceil => "ceil"
  | floor => "floor"
  | trunc => "trunc"
  | nearest => "nearest"

/-- The operator part of a binary operation's mnemonic. -/
def BinaryOp.name : BinaryOp → String
  | add => "add"
  | sub => "sub"
  | mul => "mul"
  | divS => "div_s"
  | divU => "div_u"
  | remS => "rem_s"
  | remU => "rem_u"
  | and => "and"
  | or => "or"
  | xor => "xor"
  | shl => "shl"
  | shrS => "shr_s"
  | shrU => "shr_u"
  | rotl => "rotl"
  | rotr => "rotr"
  | div => "div"
  | min => "min"
  | max => "max"
  | copysign => "copysign"

/-- The name of a conversion. -/
def Conversion.mnemonic : Conversion → String
  | wrap => "i32.wrap_i64"
  | extendS => "i64.extend_i32_s"
  | extendU => "i64.extend_i32_u"
  | truncS target source => s!"{target.name}.trunc_{source.name}_s"
  | truncU target source => s!"{target.name}.trunc_{source.name}_u"
  | convertS target source => s!"{target.name}.convert_{source.name}_s"
  | convertU target source => s!"{target.name}.convert_{source.name}_u"
  | demote => "f32.demote_f64"
  | promote => "f64.promote_f32"
  | reinterpret target => s!"{target.name}.reinterpret_{target.counterpart.name}"

/-- The mnemonic of an instruction without a body. An access narrower or wider than its type shows
its width, and a load then its signedness too. -/
def Op.mnemonic : Op → String
  | unreachable => "unreachable"
  | nop => "nop"
  | br _ => "br"
  | brIf _ => "br_if"
  | brTable _ _ => "br_table"
  | ret => "return"
  | call _ => "call"
  | callIndirect _ _ => "call_indirect"
  | drop => "drop"
  | select => "select"
  | localGet _ => "local.get"
  | localSet _ => "local.set"
  | localTee _ => "local.tee"
  | globalGet _ => "global.get"
  | globalSet _ => "global.set"
  | load type width signed _ =>
    if width.bits = type.bits then s!"{type.name}.load"
    else
      let sign := if signed then "s" else "u"
      s!"{type.name}.load{width.bits}_{sign}"
  | store type width _ =>
    if width.bits = type.bits then s!"{type.name}.store" else s!"{type.name}.store{width.bits}"
  | memorySize _ => "memory.size"
  | memoryGrow _ => "memory.grow"
  | const value => s!"{value.type.name}.const"
  | eqz type => s!"{type.name}.eqz"
  | compare type op => s!"{type.name}.{op.name}"
  | unary type op => s!"{type.name}.{op.name}"
  | binary type op => s!"{type.name}.{op.name}"
  | convert op => op.mnemonic
  | unsupported name => name

/-- The name of an instruction. -/
def Instr.mnemonic : Instr → String
  | leaf _ op => op.mnemonic
  | block _ _ _ => "block"
  | loop _ _ _ => "loop"
  | ifThen _ _ _ | ifElse _ _ _ _ => "if"

end Moonstack
