import Moonstack.Binary.Layout

/-!
# Vector instructions

Layouts of instructions on 128-bit vectors, by their second code. Lanes are numbered, and a lane
number must exist.
-/

namespace Moonstack.Layout

/-- Loads, stores and constants. -/
def vectorMemory : List Layout :=
  accesses 0x00 [("V128Load", 4), ("V128Load8x8S", 3), ("V128Load8x8U", 3), ("V128Load16x4S", 3),
    ("V128Load16x4U", 3), ("V128Load32x2S", 3), ("V128Load32x2U", 3), ("V128Load8Splat", 0),
    ("V128Load16Splat", 1), ("V128Load32Splat", 2), ("V128Load64Splat", 3), ("V128Store", 4)] ++
  run 0x0c [.vector] ["V128Const"] ++
  run 0x54 [.place 0, .lane 16] ["V128Load8Lane"] ++
  run 0x55 [.place 1, .lane 8] ["V128Load16Lane"] ++
  run 0x56 [.place 2, .lane 4] ["V128Load32Lane"] ++
  run 0x57 [.place 3, .lane 2] ["V128Load64Lane"] ++
  run 0x58 [.place 0, .lane 16] ["V128Store8Lane"] ++
  run 0x59 [.place 1, .lane 8] ["V128Store16Lane"] ++
  run 0x5a [.place 2, .lane 4] ["V128Store32Lane"] ++
  run 0x5b [.place 3, .lane 2] ["V128Store64Lane"] ++
  accesses 0x5c [("V128Load32Zero", 2), ("V128Load64Zero", 3)]

/-- Accesses to single lanes. -/
def vectorLanes : List Layout :=
  run 0x0d [.lanes] ["I8x16Shuffle"] ++
  run 0x0e []
    ["I8x16Swizzle", "I8x16Splat", "I16x8Splat", "I32x4Splat", "I64x2Splat", "F32x4Splat",
      "F64x2Splat"] ++
  run 0x15 [.lane 16] ["I8x16ExtractLaneS", "I8x16ExtractLaneU", "I8x16ReplaceLane"] ++
  run 0x18 [.lane 8] ["I16x8ExtractLaneS", "I16x8ExtractLaneU", "I16x8ReplaceLane"] ++
  run 0x1b [.lane 4] ["I32x4ExtractLane", "I32x4ReplaceLane"] ++
  run 0x1d [.lane 2] ["I64x2ExtractLane", "I64x2ReplaceLane"] ++
  run 0x1f [.lane 4] ["F32x4ExtractLane", "F32x4ReplaceLane"] ++
  run 0x21 [.lane 2] ["F64x2ExtractLane", "F64x2ReplaceLane"]

/-- Comparisons, lane by lane. -/
def vectorComparison : List Layout :=
  run 0x23 []
    ["I8x16Eq", "I8x16Ne", "I8x16LtS", "I8x16LtU", "I8x16GtS", "I8x16GtU", "I8x16LeS", "I8x16LeU",
      "I8x16GeS", "I8x16GeU", "I16x8Eq", "I16x8Ne", "I16x8LtS", "I16x8LtU", "I16x8GtS", "I16x8GtU",
      "I16x8LeS", "I16x8LeU", "I16x8GeS", "I16x8GeU", "I32x4Eq", "I32x4Ne", "I32x4LtS", "I32x4LtU",
      "I32x4GtS", "I32x4GtU", "I32x4LeS", "I32x4LeU", "I32x4GeS", "I32x4GeU", "F32x4Eq", "F32x4Ne",
      "F32x4Lt", "F32x4Gt", "F32x4Le", "F32x4Ge", "F64x2Eq", "F64x2Ne", "F64x2Lt", "F64x2Gt",
      "F64x2Le",
      "F64x2Ge", "V128Not", "V128And", "V128AndNot", "V128Or", "V128Xor", "V128Bitselect",
      "V128AnyTrue"] ++
  run 0xd6 [] ["I64x2Eq", "I64x2Ne", "I64x2LtS", "I64x2GtS", "I64x2LeS", "I64x2GeS"]

/-- Arithmetic on lanes of eight and sixteen bits. -/
def vectorNarrow : List Layout :=
  run 0x60 []
    ["I8x16Abs", "I8x16Neg", "I8x16Popcnt", "I8x16AllTrue", "I8x16Bitmask", "I8x16NarrowI16x8S",
      "I8x16NarrowI16x8U"] ++
  run 0x6b []
    ["I8x16Shl", "I8x16ShrS", "I8x16ShrU", "I8x16Add", "I8x16AddSatS", "I8x16AddSatU", "I8x16Sub",
      "I8x16SubSatS", "I8x16SubSatU"] ++
  run 0x76 [] ["I8x16MinS", "I8x16MinU", "I8x16MaxS", "I8x16MaxU"] ++
  run 0x7b [] ["I8x16AvgrU", "I16x8ExtAddPairwiseI8x16S", "I16x8ExtAddPairwiseI8x16U"] ++
  run 0x80 []
    ["I16x8Abs", "I16x8Neg", "I16x8Q15MulrSatS", "I16x8AllTrue", "I16x8Bitmask",
      "I16x8NarrowI32x4S",
      "I16x8NarrowI32x4U", "I16x8ExtendLowI8x16S", "I16x8ExtendHighI8x16S", "I16x8ExtendLowI8x16U",
      "I16x8ExtendHighI8x16U", "I16x8Shl", "I16x8ShrS", "I16x8ShrU", "I16x8Add", "I16x8AddSatS",
      "I16x8AddSatU", "I16x8Sub", "I16x8SubSatS", "I16x8SubSatU"] ++
  run 0x95 [] ["I16x8Mul", "I16x8MinS", "I16x8MinU", "I16x8MaxS", "I16x8MaxU"] ++
  run 0x9b []
    ["I16x8AvgrU", "I16x8ExtMulLowI8x16S", "I16x8ExtMulHighI8x16S", "I16x8ExtMulLowI8x16U",
      "I16x8ExtMulHighI8x16U"]

/-- Arithmetic on lanes of 32 and 64 bits. -/
def vectorWide : List Layout :=
  run 0x7e [] ["I32x4ExtAddPairwiseI16x8S", "I32x4ExtAddPairwiseI16x8U"] ++
  run 0xa0 [] ["I32x4Abs", "I32x4Neg"] ++
  run 0xa3 [] ["I32x4AllTrue", "I32x4Bitmask"] ++
  run 0xa7 []
    ["I32x4ExtendLowI16x8S", "I32x4ExtendHighI16x8S", "I32x4ExtendLowI16x8U",
      "I32x4ExtendHighI16x8U",
      "I32x4Shl", "I32x4ShrS", "I32x4ShrU", "I32x4Add"] ++
  run 0xb1 [] ["I32x4Sub"] ++
  run 0xb5 [] ["I32x4Mul", "I32x4MinS", "I32x4MinU", "I32x4MaxS", "I32x4MaxU", "I32x4DotI16x8S"] ++
  run 0xbc []
    ["I32x4ExtMulLowI16x8S", "I32x4ExtMulHighI16x8S", "I32x4ExtMulLowI16x8U",
      "I32x4ExtMulHighI16x8U",
      "I64x2Abs", "I64x2Neg"] ++
  run 0xc3 [] ["I64x2AllTrue", "I64x2Bitmask"] ++
  run 0xc7 []
    ["I64x2ExtendLowI32x4S", "I64x2ExtendHighI32x4S", "I64x2ExtendLowI32x4U",
      "I64x2ExtendHighI32x4U",
      "I64x2Shl", "I64x2ShrS", "I64x2ShrU", "I64x2Add"] ++
  run 0xd1 [] ["I64x2Sub"] ++
  run 0xd5 [] ["I64x2Mul"] ++
  run 0xdc []
    ["I64x2ExtMulLowI32x4S", "I64x2ExtMulHighI32x4S", "I64x2ExtMulLowI32x4U",
      "I64x2ExtMulHighI32x4U"]

/-- Arithmetic on floating-point lanes, and conversions. -/
def vectorFloat : List Layout :=
  run 0x5e [] ["F32x4DemoteF64x2Zero", "F64x2PromoteLowF32x4"] ++
  run 0x67 [] ["F32x4Ceil", "F32x4Floor", "F32x4Trunc", "F32x4Nearest"] ++
  run 0x74 [] ["F64x2Ceil", "F64x2Floor"] ++
  run 0x7a [] ["F64x2Trunc"] ++
  run 0x94 [] ["F64x2Nearest"] ++
  run 0xe0 [] ["F32x4Abs", "F32x4Neg"] ++
  run 0xe3 []
    ["F32x4Sqrt", "F32x4Add", "F32x4Sub", "F32x4Mul", "F32x4Div", "F32x4Min", "F32x4Max",
      "F32x4PMin",
      "F32x4PMax", "F64x2Abs", "F64x2Neg"] ++
  run 0xef []
    ["F64x2Sqrt", "F64x2Add", "F64x2Sub", "F64x2Mul", "F64x2Div", "F64x2Min", "F64x2Max",
      "F64x2PMin",
      "F64x2PMax", "I32x4TruncSatF32x4S", "I32x4TruncSatF32x4U", "F32x4ConvertI32x4S",
      "F32x4ConvertI32x4U", "I32x4TruncSatF64x2SZero", "I32x4TruncSatF64x2UZero",
      "F64x2ConvertLowI32x4S", "F64x2ConvertLowI32x4U"]

/-- Operations whose result may differ between machines. -/
def vectorRelaxed : List Layout :=
  run 0x100 []
    ["I8x16RelaxedSwizzle", "I32x4RelaxedTruncF32x4S", "I32x4RelaxedTruncF32x4U",
      "I32x4RelaxedTruncF64x2SZero", "I32x4RelaxedTruncF64x2UZero", "F32x4RelaxedMadd",
      "F32x4RelaxedNmadd", "F64x2RelaxedMadd", "F64x2RelaxedNmadd", "I8x16RelaxedLaneselect",
      "I16x8RelaxedLaneselect", "I32x4RelaxedLaneselect", "I64x2RelaxedLaneselect",
      "F32x4RelaxedMin",
      "F32x4RelaxedMax", "F64x2RelaxedMin", "F64x2RelaxedMax", "I16x8RelaxedQ15mulrS",
      "I16x8RelaxedDotI8x16I7x16S", "I32x4RelaxedDotI8x16I7x16AddS"]

/-- All instructions on vectors. -/
def vector : List Layout :=
  vectorMemory ++ vectorLanes ++ vectorComparison ++ vectorNarrow ++ vectorWide ++ vectorFloat ++
    vectorRelaxed

end Moonstack.Layout
