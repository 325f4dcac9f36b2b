import Moonstack.Module
import Moonstack.Proofs.Emission.Steady

/-!
# Types of instructions

When an instruction is well typed. The types of the operand stack are listed with the top first, and
those of the operands and results of an instruction without a body in the order they are pushed.
Behind an instruction that never goes on, the stack is whatever the code there needs.
-/

namespace Moonstack

variable {type : ValueType}

def ValueType.isInteger : ValueType → Bool
  | i32 | i64 => true
  | f32 | f64 => false

/-- Can a value of the type be read from so many bits? -/
def ValueType.hasWidth : ValueType → Width → Bool
  | i32, .w8 | i32, .w16 | i32, .w32 => true
  | i64, _ => true
  | f32, .w32 | f64, .w64 => true
  | i32, .w64 | f32, _ | f64, _ => false

def Comparison.existsAt (type : ValueType) : Comparison → Bool
  | eq | ne => true
  | ltS | ltU | gtS | gtU | leS | leU | geS | geU => type.isInteger
  | lt | gt | le | ge => !type.isInteger

def UnaryOp.existsAt (type : ValueType) : UnaryOp → Bool
  | clz | ctz | popcnt | extend8S | extend16S => type.isInteger
  | extend32S => type = .i64
  | abs | neg | sqrt | ceil | floor | trunc | nearest => !type.isInteger

def BinaryOp.existsAt (type : ValueType) : BinaryOp → Bool
  | add | sub | mul => true
  | divS | divU | remS | remU | and | or | xor | shl | shrS | shrU | rotl | rotr => type.isInteger
  | div | min | max | copysign => !type.isInteger

/-- The type that a conversion takes and the one that it gives, if there is such a conversion. -/
def Conversion.types : Conversion → Option (ValueType × ValueType)
  | wrap => some (.i64, .i32)
  | extendS | extendU => some (.i32, .i64)
  | truncS target source | truncU target source =>
    if target.isInteger && !source.isInteger then some (source, target) else none
  | convertS target source | convertU target source =>
    if source.isInteger && !target.isInteger then some (source, target) else none
  | demote => some (.f64, .f32)
  | promote => some (.f32, .f64)
  | reinterpret .i32 => some (.f32, .i32)
  | reinterpret .i64 => some (.f64, .i64)
  | reinterpret .f32 => some (.i32, .f32)
  | reinterpret .f64 => some (.i64, .f64)

/-- What is known around an instruction. -/
structure TypeContext where
  registry : Registry
  global : Nat → ValueType × Bool
  locals : List ValueType
  /-- the types that a branch takes along, by depth -/
  labels : List (List ValueType)
  results : List ValueType

/-- The context inside a block, branches to which take values of the given types. -/
def TypeContext.enter (C : TypeContext) (types : List ValueType) : TypeContext :=
  { C with labels := types :: C.labels }

/-- The operands and the results of an instruction that goes on behind itself. -/
inductive Op.HasType (C : TypeContext) : Op → List ValueType → List ValueType → Prop
  | nop : HasType C .nop [] []
  | drop (type : ValueType) : HasType C .drop [type] []
  | select (type : ValueType) : HasType C .select [type, type, .i32] [type]
  | call {index : Nat} {entry : FunctionEntry} {signature : Signature}
      (known : C.registry.function? index = some entry)
      (typed : entry.signature = some signature) :
      HasType C (.call index) signature.params signature.results
  | callIndirect {type table : Nat} {signature : Signature} {handle : TableHandle}
      (typed : C.registry.types[type]? = some signature)
      (known : C.registry.table? table = some handle) :
      HasType C (.callIndirect type table) (signature.params ++ [.i32]) signature.results
  | localGet {index : Nat} {type : ValueType} (known : C.locals[index]? = some type) :
      HasType C (.localGet index) [] [type]
  | localSet {index : Nat} {type : ValueType} (known : C.locals[index]? = some type) :
      HasType C (.localSet index) [type] []
  | localTee {index : Nat} {type : ValueType} (known : C.locals[index]? = some type) :
      HasType C (.localTee index) [type] [type]
  | globalGet {index slot : Nat} (known : C.registry.global? index = some slot) :
      HasType C (.globalGet index) [] [(C.global index).1]
  | globalSet {index slot : Nat} (known : C.registry.global? index = some slot)
      (writable : (C.global index).2 = true) : HasType C (.globalSet index) [(C.global index).1] []
  | load {type : ValueType} {width : Width} {signed : Bool} {arg : MemArg} {handle : String}
      (known : C.registry.memory? arg.memory = some handle) (fits : type.hasWidth width = true) :
      HasType C (.load type width signed arg) [.i32] [type]
  | store {type : ValueType} {width : Width} {arg : MemArg} {handle : String}
      (known : C.registry.memory? arg.memory = some handle) (fits : type.hasWidth width = true) :
      HasType C (.store type width arg) [.i32, type] []
  | memorySize {index : Nat} {handle : String}
      (known : C.registry.memory? index = some handle) : HasType C (.memorySize index) [] [.i32]
  | memoryGrow {index : Nat} {handle : String}
      (known : C.registry.memory? index = some handle) :
      HasType C (.memoryGrow index) [.i32] [.i32]
  | const (value : Const) : HasType C (.const value) [] [value.type]
  | eqz {type : ValueType} (fits : type.isInteger = true) : HasType C (.eqz type) [type] [.i32]
  | compare {type : ValueType} {op : Comparison} (fits : op.existsAt type = true) :
      HasType C (.compare type op) [type, type] [.i32]
  | unary {type : ValueType} {op : UnaryOp} (fits : op.existsAt type = true) :
      HasType C (.unary type op) [type] [type]
  | binary {type : ValueType} {op : BinaryOp} (fits : op.existsAt type = true) :
      HasType C (.binary type op) [type, type] [type]
  | convert {op : Conversion} {source target : ValueType}
      (fits : op.types = some (source, target)) : HasType C (.convert op) [source] [target]

mutual

/-- The stacks before and behind an instruction. -/
inductive Instr.HasType : TypeContext → Instr → List ValueType → List ValueType → Prop
  | plain {C : TypeContext} {offset : Nat} {o : Op} {params results base : List ValueType}
      (typed : o.HasType C params results) :
      HasType C (.leaf offset o) (params.reverse ++ base) (results.reverse ++ base)
  | unreachable {C : TypeContext} {offset : Nat} {before behind : List ValueType} :
      HasType C (.leaf offset .unreachable) before behind
  | br {C : TypeContext} {offset depth : Nat} {types base behind : List ValueType}
      (label : C.labels[depth]? = some types) :
      HasType C (.leaf offset (.br depth)) (types.reverse ++ base) behind
  | brIf {C : TypeContext} {offset depth : Nat} {types base : List ValueType}
      (label : C.labels[depth]? = some types) :
      HasType C (.leaf offset (.brIf depth)) (.i32 :: (types.reverse ++ base))
        (types.reverse ++ base)
  | brTable {C : TypeContext} {offset fallback : Nat} {targets : List Nat}
      {types base behind : List ValueType}
      (labels : ∀ depth ∈ fallback :: targets, C.labels[depth]? = some types) :
      HasType C (.leaf offset (.brTable targets fallback)) (.i32 :: (types.reverse ++ base)) behind
  | ret {C : TypeContext} {offset : Nat} {base behind : List ValueType} :
      HasType C (.leaf offset .ret) (C.results.reverse ++ base) behind
  | block {C : TypeContext} {offset : Nat} {result : Option ValueType} {body : List Instr}
      {base : List ValueType}
      (typed : Instr.BodyHasType (C.enter result.toList) body [] result.toList) :
      HasType C (.block offset result body) base (result.toList ++ base)
  | loop {C : TypeContext} {offset : Nat} {result : Option ValueType} {body : List Instr}
      {base : List ValueType} (typed : Instr.BodyHasType (C.enter []) body [] result.toList) :
      HasType C (.loop offset result body) base (result.toList ++ base)
  | ifThen {C : TypeContext} {offset : Nat} {body : List Instr} {base : List ValueType}
      (typed : Instr.BodyHasType (C.enter []) body [] []) :
      HasType C (.ifThen offset none body) (.i32 :: base) base
  | ifElse {C : TypeContext} {offset : Nat} {result : Option ValueType} {body other : List Instr}
      {base : List ValueType}
      (first : Instr.BodyHasType (C.enter result.toList) body [] result.toList)
      (second : Instr.BodyHasType (C.enter result.toList) other [] result.toList) :
      HasType C (.ifElse offset result body other) (.i32 :: base) (result.toList ++ base)

/-- The stacks before and behind a body. -/
inductive Instr.BodyHasType : TypeContext → List Instr → List ValueType → List ValueType → Prop
  | nil {C : TypeContext} {stack : List ValueType} : BodyHasType C [] stack stack
  | cons {C : TypeContext} {i : Instr} {rest : List Instr} {before between behind : List ValueType}
      (first : Instr.HasType C i before between) (second : BodyHasType C rest between behind) :
      BodyHasType C (i :: rest) before behind

end

/-- An instruction without a body, on top of the given stack. -/
theorem Instr.HasType.leaf {C : TypeContext} {o : Op} {params results : List ValueType} {n : Nat}
    (base : List ValueType) (h : o.HasType C params results) :
    Instr.HasType C (.leaf n o) (params.reverse ++ base) (results.reverse ++ base) := .plain h

def TypeContext.function (registry : Registry) (global : Nat → ValueType × Bool)
    (signature : Signature) (locals : List ValueType) : TypeContext where
  registry
  global
  locals := signature.params ++ locals
  labels := [signature.results]
  results := signature.results

def Function.HasType (registry : Registry) (global : Nat → ValueType × Bool)
    (signature : Signature) (function : Function) : Prop :=
  Instr.BodyHasType (.function registry global signature function.locals) function.body []
    signature.results.reverse

namespace Instr

mutual

/-- Do all instructions without a body have the property? -/
def allOps (p : Op → Bool) : Instr → Bool
  | leaf _ o => p o
  | block _ _ body | loop _ _ body | ifThen _ _ body => bodyAllOps p body
  | ifElse _ _ body other => bodyAllOps p body && bodyAllOps p other

/-- Do all instructions of a body that have no body themselves have the property? -/
def bodyAllOps (p : Op → Bool) : List Instr → Bool
  | [] => true
  | i :: rest => allOps p i && bodyAllOps p rest

end

end Instr

/-- Is it a call of the long-jump protocol? -/
def Op.jumps (registry : Registry) : Op → Bool
  | call index => (registry.function? index).any fun callee =>
    Emit.isSetjmp callee.name || Emit.isLongjmp callee.name
  | _ => false

theorem Comparison.isSome_lower {op : Comparison} (h : op.existsAt type = true) (l r : Expr) :
    (op.lower type l r).isSome = true := by
  cases type <;> cases op <;> first | rfl | cases h

theorem UnaryOp.isSome_lower {op : UnaryOp} (h : op.existsAt type = true) (x : Expr) :
    (op.lower type x).isSome = true := by
  cases type <;> cases op <;> first | rfl | cases h

theorem BinaryOp.isSome_lower {op : BinaryOp} (h : op.existsAt type = true) (exact : Bool)
    (l r : Expr) : (op.lower exact type l r).isSome = true := by
  cases type <;> cases op <;> cases exact <;> first | rfl | cases h

theorem isSome_lowerEqz (h : type.isInteger = true) (x : Expr) :
    (lowerEqz type x).isSome = true := by
  cases type <;> first | rfl | cases h

theorem isSome_lowerLoad {width : Width} (h : type.hasWidth width = true)
    (dest memory address : Expr) (signed : Bool) :
    (lowerLoad dest type width signed memory address).isSome = true := by
  cases type <;> cases width <;> first | rfl | cases h

theorem isSome_lowerStore {width : Width} (h : type.hasWidth width = true)
    (memory address value : Expr) : (lowerStore type width memory address value).isSome = true := by
  cases type <;> cases width <;> first | rfl | cases h

namespace Plain

theorem unary_of_isSome {lower : Expr → Option Expr} (h : (lower (.number 0)).isSome = true) :
    ∃ p, unary lower = some p ∧ p.pops = 1 ∧ p.pushes = 1 := by
  have hsome : (unary lower).isSome = true := by rwa [unary, Option.isSome_map]
  obtain ⟨p, hp⟩ := Option.isSome_iff_exists.1 hsome
  exact ⟨p, hp, size_unary hp⟩

theorem binary_of_isSome {lower : Expr → Expr → Option Expr}
    (h : (lower (.number 0) (.number 0)).isSome = true) :
    ∃ p, binary lower = some p ∧ p.pops = 2 ∧ p.pushes = 1 := by
  have hsome : (binary lower).isSome = true := by rwa [binary, Option.isSome_map]
  obtain ⟨p, hp⟩ := Option.isSome_iff_exists.1 hsome
  exact ⟨p, hp, size_binary hp⟩

end Plain

namespace Op.HasType

variable {env : Env} {C : TypeContext} {o : Op} {params results : List ValueType}

/-- The plain instruction may leave some of its operands where they are: a conversion that changes
nothing does. -/
theorem plain (h : o.HasType C params results) (hr : C.registry = env.registry)
    (hj : o.jumps env.registry = false)
    (hl : ∀ l, o ≠ .localGet l ∧ o ≠ .localSet l ∧ o ≠ .localTee l) (hc : ∀ c, o ≠ .const c) :
    ∃ p kept, o.plain env = some p ∧ params.length = p.pops + kept ∧
      results.length = p.pushes + kept := by
  cases h with
  | localGet => exact absurd rfl (hl _).1
  | localSet => exact absurd rfl (hl _).2.1
  | localTee => exact absurd rfl (hl _).2.2
  | const => exact absurd rfl (hc _)
  | nop | drop | select => exact ⟨_, 0, rfl, rfl, rfl⟩
  | @call index entry signature known typed =>
    rw [hr] at known
    have hj' : (Emit.isSetjmp entry.name || Emit.isLongjmp entry.name) = false := by
      simpa only [jumps, known, Option.any_some] using hj
    refine ⟨.invoke signature 0 fun _ => .name entry.id, 0, ?_, rfl, rfl⟩
    simp only [Op.plain, known, typed, hj', Option.bind_eq_bind, Option.bind_some, Option.getD_some,
      Bool.false_eq_true, if_false]
  | @callIndirect type table signature handle typed known =>
    rw [hr] at typed known
    refine ⟨.invoke signature 1 fun taken => .index (.name handle.functions)
      (.binary .add (.name handle.offset) (.operand ((taken[0]?).getD .missing))), 0, ?_,
      List.length_append, rfl⟩
    simp only [Op.plain, typed, known, Option.bind_eq_bind, Option.bind_some]
  | globalGet known | globalSet known =>
    rw [hr] at known
    exact ⟨_, 0, by rw [Op.plain, known]; rfl, rfl, rfl⟩
  | load known fits =>
    rw [hr] at known
    obtain ⟨e, he⟩ := Option.isSome_iff_exists.1
      (isSome_lowerLoad fits (.slot 0) (.name _) (.number 0) _)
    exact ⟨_, 0, by rw [Op.plain, known, Option.bind_some, Plain.load, he]; rfl, rfl, rfl⟩
  | store known fits =>
    rw [hr] at known
    obtain ⟨e, he⟩ := Option.isSome_iff_exists.1
      (isSome_lowerStore fits (.name _) (.number 0) (.number 0))
    exact ⟨_, 0, by rw [Op.plain, known, Option.bind_some, Plain.store, he]; rfl, rfl, rfl⟩
  | memorySize known | memoryGrow known =>
    rw [hr] at known
    exact ⟨_, 0, by rw [Op.plain, known]; rfl, rfl, rfl⟩
  | eqz fits =>
    obtain ⟨p, hp, hpops, hpushes⟩ := Plain.unary_of_isSome (isSome_lowerEqz fits _)
    exact ⟨p, 0, hp, hpops.symm, hpushes.symm⟩
  | compare fits =>
    obtain ⟨p, hp, hpops, hpushes⟩ := Plain.binary_of_isSome (Comparison.isSome_lower fits _ _)
    exact ⟨p, 0, hp, hpops.symm, hpushes.symm⟩
  | unary fits =>
    obtain ⟨p, hp, hpops, hpushes⟩ := Plain.unary_of_isSome (UnaryOp.isSome_lower fits _)
    exact ⟨p, 0, hp, hpops.symm, hpushes.symm⟩
  | binary fits =>
    obtain ⟨p, hp, hpops, hpushes⟩ := Plain.binary_of_isSome (BinaryOp.isSome_lower fits _ _ _)
    exact ⟨p, 0, hp, hpops.symm, hpushes.symm⟩
  | @convert op source target fits =>
    cases hp : Plain.unary op.lower with
    | none => exact ⟨.discard 0, 1, by rw [Op.plain, Plain.conversion, hp]; rfl, rfl, rfl⟩
    | some p =>
      obtain ⟨hpops, hpushes⟩ := Plain.size_unary hp
      exact ⟨p, 0, by rw [Op.plain, Plain.conversion, hp]; rfl, hpops.symm, hpushes.symm⟩

theorem isKnown (h : o.HasType C params results) (hr : C.registry = env.registry)
    (hj : o.jumps env.registry = false) : o.isKnown env C.locals.length = true := by
  have hplain := h.plain hr hj
  cases h with
  | localGet known | localSet known | localTee known =>
    exact decide_eq_true (List.getElem?_eq_some_iff.1 known).1
  | const => rfl
  | _ =>
    obtain ⟨p, kept, hp, -⟩ := hplain (by simp) (by simp)
    exact Option.isSome_iff_exists.2 ⟨p, hp⟩

end Op.HasType

namespace Instr

variable {env : Env}

mutual

theorem HasType.isKnown {C : TypeContext} {before behind : List ValueType}
    (hr : C.registry = env.registry) : (i : Instr) → HasType C i before behind →
    i.allOps (!·.jumps env.registry) = true → i.isKnown env C.locals.length = true
  | .leaf _ o, h, hj => by
    cases h with
    | plain typed => exact typed.isKnown hr (by simpa [allOps] using hj)
    | _ => rfl
  | .block _ _ body, h, hj => by
    cases h with
    | block typed => exact BodyHasType.isKnown (C := C.enter _) hr body typed hj
  | .loop _ _ body, h, hj => by
    cases h with
    | loop typed => exact BodyHasType.isKnown (C := C.enter _) hr body typed hj
  | .ifThen _ _ body, h, hj => by
    cases h with
    | ifThen typed => exact BodyHasType.isKnown (C := C.enter _) hr body typed hj
  | .ifElse _ _ body other, h, hj => by
    cases h with
    | ifElse first second =>
      obtain ⟨hb, ho⟩ := Bool.and_eq_true_iff.1 hj
      exact Bool.and_eq_true_iff.2 ⟨BodyHasType.isKnown (C := C.enter _) hr body first hb,
        BodyHasType.isKnown (C := C.enter _) hr other second ho⟩

/-- What is well typed and jumps nowhere can be written as it is. -/
theorem BodyHasType.isKnown {C : TypeContext} {before behind : List ValueType}
    (hr : C.registry = env.registry) : (body : List Instr) → BodyHasType C body before behind →
    bodyAllOps (!·.jumps env.registry) body = true → bodyIsKnown env C.locals.length body = true
  | [], _, _ => rfl
  | i :: rest, h, hj => by
    obtain ⟨hi, hrest⟩ := Bool.and_eq_true_iff.1 hj
    cases h with
    | cons first second =>
      exact Bool.and_eq_true_iff.2 ⟨HasType.isKnown hr i first hi,
        BodyHasType.isKnown hr rest second hrest⟩

end

end Instr

end Moonstack
