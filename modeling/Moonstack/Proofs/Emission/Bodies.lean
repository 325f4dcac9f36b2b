import Moonstack.Proofs.Emission.Blocks

/-!
# Bodies

Instructions and bodies as wholes. Every body without a wide branch table is written, whatever
stands on the operand stack (`succeeds_walk`); a wide branch table stops the writing wherever it
stands, in dead code too (`fails_walk`).
-/

namespace Moonstack

namespace Instr

mutual

/-- The labels that the code of an instruction may hold. -/
def labels : Instr → List Label
  | leaf offset _ => [.resume offset]
  | block offset _ body => bodyLabels body ++ [.fin ⟨.block, offset⟩]
  | loop offset _ body => .start ⟨.loop, offset⟩ :: (bodyLabels body ++ [.fin ⟨.loop, offset⟩])
  | ifThen offset _ body => bodyLabels body ++ [.fin ⟨.cond, offset⟩]
  | ifElse offset _ body other =>
    bodyLabels body ++ .alternative ⟨.cond, offset⟩ ::
      (bodyLabels other ++ [.fin ⟨.cond, offset⟩])

/-- The labels that the code of a body may hold. -/
def bodyLabels : List Instr → List Label
  | [] => []
  | i :: rest => labels i ++ bodyLabels rest

end

/-- The name and the result of the block that an instruction opens. -/
def opens : Instr → Option (BlockName × Option ValueType)
  | .leaf _ _ => none
  | .block offset result _ => some (⟨.block, offset⟩, result)
  | .loop offset result _ => some (⟨.loop, offset⟩, result)
  | .ifThen offset result _ => some (⟨.cond, offset⟩, result)
  | .ifElse offset result _ _ => some (⟨.cond, offset⟩, result)

/-- The instruction has one body, and opens a block of the given name for it. -/
inductive Encloses : Instr → BlockName → Option ValueType → List Instr → Prop where
  | block (offset : Nat) (result : Option ValueType) (inner : List Instr) :
    Encloses (.block offset result inner) ⟨.block, offset⟩ result inner
  | loop (offset : Nat) (result : Option ValueType) (inner : List Instr) :
    Encloses (.loop offset result inner) ⟨.loop, offset⟩ result inner
  | ifThen (offset : Nat) (result : Option ValueType) (inner : List Instr) :
    Encloses (.ifThen offset result inner) ⟨.cond, offset⟩ result inner

namespace Encloses

variable {i : Instr} {name : BlockName} {result : Option ValueType} {inner : List Instr}
  (h : i.Encloses name result inner)
include h

theorem opens_eq : i.opens = some (name, result) := by cases h <;> rfl

theorem ticks_eq : i.ticks = bodyTicks inner + 2 := by
  cases h <;> simp only [ticks] <;> omega

theorem hasWide_eq (limit : Nat) : i.hasWide limit = bodyHasWide limit inner := by cases h <;> rfl

theorem ne_leaf (offset : Nat) (o : Op) : i ≠ .leaf offset o := by cases h <;> nofun

end Encloses

/-- A property of instructions and one of bodies, each shown from the parts. The instructions with
one body are one case. -/
structure Walk (P : Instr → Prop) (Q : List Instr → Prop) : Prop where
  leaf : ∀ offset o, P (.leaf offset o)
  encloses : ∀ {i name result inner}, i.Encloses name result inner → Q inner → P i
  ifElse : ∀ offset result inner other, Q inner → Q other → P (.ifElse offset result inner other)
  nil : Q []
  cons : ∀ {i rest}, P i → Q rest → Q (i :: rest)

namespace Walk

variable {P : Instr → Prop} {Q : List Instr → Prop}

mutual

theorem instr (h : Walk P Q) : (i : Instr) → P i
  | .leaf offset o => h.leaf offset o
  | .block offset result inner => h.encloses (.block offset result inner) (h.body inner)
  | .loop offset result inner => h.encloses (.loop offset result inner) (h.body inner)
  | .ifThen offset result inner => h.encloses (.ifThen offset result inner) (h.body inner)
  | .ifElse offset result inner other =>
    h.ifElse offset result inner other (h.body inner) (h.body other)

theorem body (h : Walk P Q) : (code : List Instr) → Q code
  | [] => h.nil
  | i :: rest => h.cons (h.instr i) (h.body rest)

end

end Walk

end Instr

namespace Frame

/-- The frame in which an instruction opens its block. An `if` has taken its condition. -/
def opening (f : Frame) : BlockKind → Frame
  | .block | .loop => f.begun
  | .cond => f.begun.popped

variable {f : Frame} {held : List RegisterId}

theorem Moved.opening (f : Frame) (kind : BlockKind) : Moved 1 f (f.opening kind) := by
  cases kind with
  | block | loop => exact Emit.moved_begun f
  | cond => exact (Emit.moved_begun f).trans (.popped _)

theorem Owned.opening (ho : f.Owned held) (kind : BlockKind) : (f.opening kind).Owned held := by
  have hb := (Emit.keeps_begin (.leaf 0 .nop) f held).owned ho
  cases kind with
  | block | loop => exact hb
  | cond => exact hb.popped

theorem Accounted.opening (ha : f.Accounted held) (ho : f.Owned held) (kind : BlockKind) :
    (f.opening kind).Accounted held := by
  have hb := (Emit.keeps_begin (.leaf 0 .nop) f held).accounted ho ha
  cases kind with
  | block | loop => exact hb
  | cond => exact hb.popped

end Frame

namespace Emit

open Moonstack.Frame Moonstack.Flow

variable {env : Env} {held : List RegisterId}
variable {f : Frame} {b : Block} {name : BlockName} {code : List Line}

theorem branchLabel_of_ne_loop (h : b.name.kind ≠ .loop) : b.branchLabel = .fin b.name := by
  unfold Block.branchLabel
  split <;> first | contradiction | rfl

theorem branchRegister_of_ne_loop (h : b.name.kind ≠ .loop) : b.branchRegister = b.register := by
  unfold Block.branchRegister
  split <;> first | contradiction | rfl

theorem name_openBlock (f : Frame) (name : BlockName) (result : Option ValueType) :
    (f.openBlock name result).1.name = name := by
  cases result <;> rfl

/-- The line that skips the first arm of an `if`. -/
def skipLine (condition : Operand) (target : Label) : Line :=
  .guard (.binary .eq (.operand condition) (.number 0)) (.goto target)

theorem shape_endCode (f : Frame) (b : Block) : Shape [] (f.endCode b) := by
  refine (keeps_settleArm b f.tick []).shape.append (?_ : Shape [] _)
  split
  · exact .comment _
  · exact .nil

theorem shape_closeCode (hn : b.name = name) (h : name.kind ≠ .loop) :
    Shape [.fin name] (f.closeCode b) := by
  subst hn
  unfold closeCode
  rw [if_neg h, List.append_nil]
  exact (shape_endCode f b).append (.label _)

theorem shape_turnCode (hn : b.name = name) : Shape [.alternative name] (f.turnCode b) := by
  subst hn
  exact (keeps_settleArm b f.tick []).shape.append ((Nested.stmt _).append (.label _))

/-- The code of a loop from its start on. -/
theorem shape_loop {labels : List Label} {tail : List Line} (hn : b.name = name)
    (h : name.kind = .loop) (hc : Shape labels code) (ht : Shape [] tail) :
    Shape (.start name :: (labels ++ [.fin name]))
      (.label (.start b.name) :: .forever :: (code ++ (f.closeCode b ++ tail))) := by
  subst hn
  have hinner : Inner labels (code ++ (f.endCode b ++ [.leave])) := by
    have hl := hc.inner.append ((shape_endCode f b).inner.append .leave)
    rwa [List.append_nil, List.append_nil] at hl
  have hs : Shape _ _ := (Nested.label (.start b.name)).append
    ((Nested.forever hinner).append ((Nested.label (.fin b.name)).append ht))
  unfold closeCode
  rw [if_pos h]
  simpa [List.append_assoc] using hs

theorem shape_skipLine (condition : Operand) (target : Label) :
    Shape [] [skipLine condition target] :=
  .flat (l := skipLine condition target) rfl

/-! What a structured instruction writes, from what its bodies write. -/

/-- The writing of a structured instruction from its begin to the start of its first body. -/
def inward : Instr → Emit Unit
  | .leaf _ _ => return ()
  | .block offset result _ => enterBlock ⟨.block, offset⟩ result
  | .loop offset result _ => enterBlock ⟨.loop, offset⟩ result
  | .ifThen offset result _ => do let _ ← enterIf offset result .fin
  | .ifElse offset result _ _ => do let _ ← enterIf offset result .alternative

/-- The writing of a structured instruction up to the start of its first body. -/
def enter (i : Instr) : Emit Unit := do
  begin i
  inward i

/-- The lines between the begin of a structured instruction, which opens the block `b`, and its first
body. -/
def enterCode (f : Frame) (b : Block) : Instr → List Line
  | .leaf _ _ | .block _ _ _ => []
  | .loop _ _ _ => [.label (.start b.name), .forever]
  | .ifThen _ _ _ => [skipLine f.begun.top (.fin b.name)]
  | .ifElse _ _ _ _ => [skipLine f.begun.top (.alternative b.name)]

section Structured

variable {offset n : Nat} {name : BlockName} {result : Option ValueType} {i : Instr}
  {inner other : List Instr} {f g g' : Frame} {code more : List Line} {b : Block}

theorem writes_leaf {o : Op} (ho : Writes (op env offset o) f.begun () g code) :
    Writes (instr env (.leaf offset o)) f () g.finished
      (f.beginCode (.leaf offset o) ++ (code ++ g.finishCode)) := by
  rw [instr]
  exact (keeps_begin _ f []).writes.bind (ho.bind (keeps_finish g []).writes)

theorem writes_enterIf (skip : BlockName → Label) (f : Frame) :
    Writes (enterIf offset result skip) f (f.popped.openBlock ⟨.cond, offset⟩ result).1
      (f.popped.openBlock ⟨.cond, offset⟩ result).2
      [skipLine f.top (skip (f.popped.openBlock ⟨.cond, offset⟩ result).1.name)] :=
  (writes_pop f).silent ((writes_step _ _).silent ((writes_line _ _).bind
    ((writes_deeper _).silent (.pure _ _))))

theorem writes_inward (hi : i.opens = some (name, result)) (f : Frame) :
    Writes (inward i) f.begun () ((f.opening name.kind).openBlock name result).2
      (enterCode f ((f.opening name.kind).openBlock name result).1 i) := by
  cases i with
  | leaf => cases hi
  | block offset result inner =>
    cases hi
    exact (writes_step _ _).silent (writes_deeper _)
  | loop offset result inner =>
    cases hi
    exact (writes_step _ _).silent
      ((writes_line _ _).bind ((writes_line _ _).bind (writes_deeper _)))
  | ifThen | ifElse =>
    cases hi
    exact (writes_enterIf _ _).bind (.pure _ _)

theorem writes_enter (hi : i.opens = some (name, result)) (f : Frame) :
    Writes (enter i) f () ((f.opening name.kind).openBlock name result).2
      (f.beginCode i ++ enterCode f ((f.opening name.kind).openBlock name result).1 i) :=
  (keeps_begin i f []).writes.bind (writes_inward hi f)

theorem writes_leave (hg : Within n f b g) :
    Writes leave g () (g.closed b).finished (g.closeCode b ++ (g.closed b).finishCode) :=
  (writes_closeBlock hg.blocks hg.enter_pos hg.depth_le).bind (keeps_finish _ []).writes

theorem instr_of_encloses (h : i.Encloses name result inner) : instr env i = (do
    enter i
    body env inner
    leave) := by
  cases h <;> rw [instr] <;> simp only [enter, inward, bind_assoc, pure_bind]

theorem writes_encloses (h : i.Encloses name result inner)
    (hb : ((f.opening name.kind).openBlock name result).1 = b)
    (hi : Writes (body env inner) ((f.opening name.kind).openBlock name result).2 () g code)
    (hg : Within n (f.opening name.kind) b g) :
    Writes (instr env i) f () (g.closed b).finished
      (f.beginCode i ++ (enterCode f b i ++
        (code ++ (g.closeCode b ++ (g.closed b).finishCode)))) := by
  subst hb
  rw [instr_of_encloses h, ← List.append_assoc]
  exact (writes_enter h.opens_eq f).bind (hi.bind (writes_leave hg))

theorem writes_ifElse {b' : Block} (hb : (f.begun.popped.openBlock ⟨.cond, offset⟩ result).1 = b)
    (hi : Writes (body env inner) (f.begun.popped.openBlock ⟨.cond, offset⟩ result).2 () g code)
    (ho : Writes (body env other) (g.turned b) () g' more) (hg : Within n f.begun.popped b' g') :
    Writes (instr env (.ifElse offset result inner other)) f () (g'.closed b').finished
      (f.beginCode (.ifElse offset result inner other) ++
        (skipLine f.begun.top (.alternative b.name) ::
          (code ++ (g.turnCode b ++
            (more ++ (g'.closeCode b' ++ (g'.closed b').finishCode)))))) := by
  subst hb
  rw [instr]
  refine (keeps_begin _ f []).writes.bind ((writes_enterIf _ _).bind ?_)
  exact hi.bind ((writes_alternative _ g).bind (ho.bind (writes_leave hg)))

end Structured

/-- What is kept from the opening of a block to its close. -/
theorem Keeps.closed {n : Nat} {i : Instr} {labels : List Label} {f₀ g : Frame} (hf : Moved 1 f f₀)
    (hof : f.Owned held → g.Owned held) (haf : f.Owned held → f.Accounted held → g.Accounted held)
    (hg : Within n f₀ b g) (hn : i.ticks = n + 2) (hs : Shape labels code)
    (hw : Writes (instr env i) f () (g.closed b).finished code) :
    Keeps i.ticks labels (instr env i) f held () (g.closed b).finished held code where
  writes := hw
  moved := by
    have hm := hf.trans (hg.closed.trans (keeps_finish _ held).moved)
    rwa [show 1 + (n + 1 + 0) = i.ticks by omega] at hm
  owned ho := (keeps_finish _ held).owned (hg.owned_closed (hof ho))
  accounted ho ha := (keeps_finish _ held).accounted (hg.owned_closed (hof ho))
    (hg.accounted_closed (hof ho) (haf ho ha))
  shape := hs

theorem shape_encloses {result : Option ValueType} {i : Instr} {inner : List Instr} {g : Frame}
    {tail : List Line} (h : i.Encloses name result inner) (hn : b.name = name)
    (hc : Shape (Instr.bodyLabels inner) code) (ht : Shape [] tail) :
    Shape i.labels (enterCode f b i ++ (code ++ (g.closeCode b ++ tail))) := by
  cases h with
  | block => exact hc.append ((shape_closeCode hn nofun).append ht)
  | loop => exact shape_loop hn rfl hc ht
  | ifThen =>
    exact (shape_skipLine _ _).append (hc.append ((shape_closeCode hn nofun).append ht))

/-- **Every body without a wide branch table is written**, whatever stands on the stack. -/
theorem succeeds_walk : Instr.Walk
    (fun i => i.hasWide env.options.branchTableLimit = false → ∀ f,
      Succeeds i.ticks i.labels (instr env i) f held held)
    (fun code => Instr.bodyHasWide env.options.branchTableLimit code = false → ∀ f,
      Succeeds (Instr.bodyTicks code) (Instr.bodyLabels code) (body env code) f held held) where
  leaf offset o hw f := by
    obtain ⟨_, g, code, ho⟩ := succeeds_op f.begun held hw offset
    have hb := keeps_begin (.leaf offset o) f held
    have hf := keeps_finish g held
    exact ⟨(), _, _, writes_leaf ho.writes, hb.moved.trans (ho.moved.trans hf.moved),
      fun h => hf.owned (ho.owned (hb.owned h)),
      fun h ha => hf.accounted (ho.owned (hb.owned h))
        (ho.accounted (hb.owned h) (hb.accounted h ha)), hb.shape.append (ho.shape.append hf.shape)⟩
  encloses {i name result inner} h hs hw f := by
    obtain ⟨_, g, code, hi⟩ := hs (h.hasWide_eq _ ▸ hw) ((f.opening name.kind).openBlock name result).2
    have hg := (Within.opened (f.opening name.kind) name result).moved hi.moved
    refine ⟨(), _, _, .closed (.opening f name.kind) (fun ho => ?_) (fun ho ha => ?_) hg ?_ ?_
      (writes_encloses h rfl hi.writes hg)⟩
    · exact hi.owned ((ho.opening _).openBlock _ _)
    · exact hi.accounted ((ho.opening _).openBlock _ _) ((ha.opening ho _).openBlock _ _)
    · rw [h.ticks_eq]
      omega
    · exact (keeps_begin i f held).shape.append
        (shape_encloses h (name_openBlock _ _ _) hi.shape (shape_finishCode _))
  ifElse offset result inner other hinner hother hw f := by
    rw [Instr.hasWide, Bool.or_eq_false_iff] at hw
    have hbegin := keeps_begin (.ifElse offset result inner other) f held
    have hname := name_openBlock f.begun.popped ⟨.cond, offset⟩ result
    obtain ⟨_, g, code, hi⟩ :=
      hinner hw.1 (f.begun.popped.openBlock ⟨.cond, offset⟩ result).2
    have hg := (Within.opened f.begun.popped ⟨.cond, offset⟩ result).moved hi.moved
    obtain ⟨_, g', more, ho⟩ := hother hw.2 (g.turned _)
    have hg' := hg.turned.moved ho.moved
    have hclose := shape_closeCode (f := g')
      (b := { (f.begun.popped.openBlock ⟨.cond, offset⟩ result).1 with inElse := true }) hname nofun
    refine ⟨(), _, _, .closed (hbegin.moved.trans (.popped _)) (fun h => ?_) (fun h ha => ?_) hg'
      ?_ ?_ (writes_ifElse rfl hi.writes ho.writes hg')⟩
    · exact ho.owned (hg.owned_turned (hi.owned ((hbegin.owned h).popped.openBlock _ _)))
    · have hopen := (hbegin.owned h).popped.openBlock ⟨.cond, offset⟩ result
      exact ho.accounted (hg.owned_turned (hi.owned hopen)) (hg.accounted_turned (hi.owned hopen)
        (hi.accounted hopen ((hbegin.accounted h ha).popped.openBlock _ _)))
    · simp only [Instr.ticks]
      omega
    · exact hbegin.shape.append ((shape_skipLine _ _).append (hi.shape.append
        ((shape_turnCode hname).append (ho.shape.append (hclose.append (shape_finishCode _))))))
  nil _ f := (Keeps.pure f held ()).succeeds
  cons {i rest} hhead hrest hw f := by
    rw [Instr.bodyHasWide, Bool.or_eq_false_iff] at hw
    obtain ⟨a, g, code, hi⟩ := hhead hw.1 f
    obtain ⟨b, h, more, hr⟩ := hrest hw.2 g
    exact ⟨b, h, _, hi.bind hr⟩

/-! ## What has been written, from the parts on -/

/-- What is written between the opening and the close of a block. -/
structure Inside (env : Env) (inner : List Instr) (f₀ : Frame) (b : Block) (start g : Frame)
    (code : List Line) : Prop where
  keeps : Keeps (Instr.bodyTicks inner) (Instr.bodyLabels inner) (body env inner) start [] () g []
    code
  within : ∃ n, Within n f₀ b g

section Inversion

variable {offset : Nat} {name : BlockName} {result : Option ValueType} {i : Instr}
  {inner other : List Instr} {f g : Frame} {code : List Line}

theorem succeeds_instr (hwide : i.hasWide env.options.branchTableLimit = false) (f : Frame) :
    Succeeds i.ticks i.labels (instr env i) f [] [] :=
  succeeds_walk.instr i hwide f

theorem succeeds_body (hwide : Instr.bodyHasWide env.options.branchTableLimit inner = false)
    (f : Frame) :
    Succeeds (Instr.bodyTicks inner) (Instr.bodyLabels inner) (body env inner) f [] [] :=
  succeeds_walk.body inner hwide f

theorem inside_opened (f : Frame) (name : BlockName) (result : Option ValueType)
    (hwide : Instr.bodyHasWide env.options.branchTableLimit inner = false) :
    ∃ g' lines, Inside env inner f (f.openBlock name result).1 (f.openBlock name result).2 g' lines
      := by
  obtain ⟨_, g', lines, hi⟩ := succeeds_body hwide (f.openBlock name result).2
  exact ⟨g', lines, hi, _, (Within.opened f name result).moved hi.moved⟩

/-- What is written for an instruction with one body. -/
theorem written_encloses (h : i.Encloses name result inner)
    (hwide : Instr.bodyHasWide env.options.branchTableLimit inner = false)
    (hw : Writes (instr env i) f () g code) :
    ∃ b g' lines, ((f.opening name.kind).openBlock name result).1 = b ∧
      Inside env inner (f.opening name.kind) b ((f.opening name.kind).openBlock name result).2 g'
        lines ∧
      g = (g'.closed b).finished ∧
      code = f.beginCode i ++ (enterCode f b i ++
        (lines ++ (g'.closeCode b ++ (g'.closed b).finishCode))) := by
  obtain ⟨g', lines, hi⟩ := inside_opened (f.opening name.kind) name result hwide
  obtain ⟨n, hn⟩ := hi.within
  obtain ⟨-, hg, hc⟩ := hw.unique (writes_encloses h rfl hi.keeps.writes hn)
  exact ⟨_, g', lines, rfl, hi, hg, hc⟩

section

variable (hwide : Instr.bodyHasWide env.options.branchTableLimit inner = false)
include hwide

theorem written_block (hw : Writes (instr env (.block offset result inner)) f () g code) :
    ∃ b g' lines, (f.begun.openBlock ⟨.block, offset⟩ result).1 = b ∧
      Inside env inner f.begun b (f.begun.openBlock ⟨.block, offset⟩ result).2 g' lines ∧
      g = (g'.closed b).finished ∧
      code = f.beginCode (.block offset result inner) ++
        (lines ++ (g'.closeCode b ++ (g'.closed b).finishCode)) :=
  written_encloses (.block offset result inner) hwide hw

theorem written_loop (hw : Writes (instr env (.loop offset result inner)) f () g code) :
    ∃ b g' lines, (f.begun.openBlock ⟨.loop, offset⟩ result).1 = b ∧
      Inside env inner f.begun b (f.begun.openBlock ⟨.loop, offset⟩ result).2 g' lines ∧
      g = (g'.closed b).finished ∧
      code = f.beginCode (.loop offset result inner) ++ (.label (.start b.name) :: .forever ::
        (lines ++ (g'.closeCode b ++ (g'.closed b).finishCode))) :=
  written_encloses (.loop offset result inner) hwide hw

theorem written_ifThen (hw : Writes (instr env (.ifThen offset result inner)) f () g code) :
    ∃ b g' lines, (f.begun.popped.openBlock ⟨.cond, offset⟩ result).1 = b ∧
      Inside env inner f.begun.popped b (f.begun.popped.openBlock ⟨.cond, offset⟩ result).2 g'
        lines ∧
      g = (g'.closed b).finished ∧
      code = f.beginCode (.ifThen offset result inner) ++ (skipLine f.begun.top (.fin b.name) ::
        (lines ++ (g'.closeCode b ++ (g'.closed b).finishCode))) :=
  written_encloses (.ifThen offset result inner) hwide hw

/-- What is written for an `if` with two arms. -/
theorem written_ifElse (hwide' : Instr.bodyHasWide env.options.branchTableLimit other = false)
    (hw : Writes (instr env (.ifElse offset result inner other)) f () g code) :
    ∃ b g₁ lines₁ g₂ lines₂, (f.begun.popped.openBlock ⟨.cond, offset⟩ result).1 = b ∧
      Inside env inner f.begun.popped b (f.begun.popped.openBlock ⟨.cond, offset⟩ result).2 g₁
        lines₁ ∧
      Inside env other f.begun.popped { b with inElse := true } (g₁.turned b) g₂ lines₂ ∧
      g = (g₂.closed { b with inElse := true }).finished ∧
      code = f.beginCode (.ifElse offset result inner other) ++
        (skipLine f.begun.top (.alternative b.name) :: (lines₁ ++ (g₁.turnCode b ++
          (lines₂ ++ (g₂.closeCode { b with inElse := true } ++
            (g₂.closed { b with inElse := true }).finishCode))))) := by
  obtain ⟨g₁, lines₁, hi⟩ := inside_opened f.begun.popped ⟨.cond, offset⟩ result hwide
  obtain ⟨n, hn⟩ := hi.within
  obtain ⟨_, g₂, lines₂, ho⟩ := succeeds_body hwide' (g₁.turned _)
  have hn' := hn.turned.moved ho.moved
  obtain ⟨-, hg, hc⟩ := hw.unique (writes_ifElse rfl hi.keeps.writes ho.writes hn')
  exact ⟨_, g₁, lines₁, g₂, lines₂, rfl, hi, ⟨ho, _, hn'⟩, hg, hc⟩

end

theorem written_cons {i : Instr} {rest : List Instr}
    (hwide : Instr.bodyHasWide env.options.branchTableLimit (i :: rest) = false)
    (hw : Writes (body env (i :: rest)) f () g code) :
    ∃ h lines more, Keeps i.ticks i.labels (instr env i) f [] () h [] lines ∧
      Keeps (Instr.bodyTicks rest) (Instr.bodyLabels rest) (body env rest) h [] () g [] more ∧
      code = lines ++ more := by
  rw [Instr.bodyHasWide, Bool.or_eq_false_iff] at hwide
  obtain ⟨_, h, lines, hi⟩ := succeeds_instr hwide.1 f
  obtain ⟨_, g', more, hr⟩ := succeeds_body hwide.2 h
  obtain ⟨-, rfl, rfl⟩ := hw.unique (hi.writes.bind hr.writes)
  exact ⟨h, lines, more, hi, hr, rfl⟩

end Inversion

/-! A wide branch table stops the writing wherever it stands. -/

/-- **Code with a wide branch table is refused.** -/
theorem fails_walk : Instr.Walk
    (fun i => i.hasWide env.options.branchTableLimit = true → ∀ f, ∃ count,
      Fails (instr env i) f (.rejected (.wideBranchTable count env.options.branchTableLimit)))
    (fun code => Instr.bodyHasWide env.options.branchTableLimit code = true → ∀ f, ∃ count,
      Fails (body env code) f (.rejected (.wideBranchTable count env.options.branchTableLimit))) where
  leaf offset o hw f := by
    obtain ⟨count, ho⟩ := fails_op hw offset f.begun
    refine ⟨count, ?_⟩
    rw [instr]
    exact .after (keeps_begin _ f []).writes ho.bind
  encloses {i name result inner} hi hinner hw f := by
    obtain ⟨count, hb⟩ := hinner (hi.hasWide_eq _ ▸ hw) ((f.opening name.kind).openBlock name result).2
    refine ⟨count, ?_⟩
    rw [instr_of_encloses hi]
    exact .after (writes_enter hi.opens_eq f) hb.bind
  ifElse offset result inner other hinner hother hw f := by
    rw [Instr.hasWide, Bool.or_eq_true_iff] at hw
    have hopen {c : Cause} (h : Fails (do
        body env inner
        alternative (f.begun.popped.openBlock ⟨.cond, offset⟩ result).1
        body env other
        leave) (f.begun.popped.openBlock ⟨.cond, offset⟩ result).2 c) :
        Fails (instr env (.ifElse offset result inner other)) f c := by
      rw [instr]
      exact .after (keeps_begin _ f []).writes (.after (writes_enterIf _ _) h)
    cases hwide : Instr.bodyHasWide env.options.branchTableLimit inner with
    | true =>
      obtain ⟨count, hi⟩ := hinner hwide (f.begun.popped.openBlock ⟨.cond, offset⟩ result).2
      exact ⟨count, hopen hi.bind⟩
    | false =>
      obtain ⟨_, g, code, hi⟩ := succeeds_body hwide
        (f.begun.popped.openBlock ⟨.cond, offset⟩ result).2
      obtain ⟨count, ho⟩ := hother (hw.resolve_left (by simp [hwide]))
        (g.turned (f.begun.popped.openBlock ⟨.cond, offset⟩ result).1)
      exact ⟨count, hopen (.after hi.writes (.after (writes_alternative _ g) ho.bind))⟩
  nil := nofun
  cons {i rest} hhead hrest hw f := by
    rw [Instr.bodyHasWide, Bool.or_eq_true_iff] at hw
    cases hi : i.hasWide env.options.branchTableLimit with
    | true =>
      obtain ⟨count, h⟩ := hhead hi f
      exact ⟨count, h.bind⟩
    | false =>
      obtain ⟨_, g, code, hs⟩ := succeeds_instr hi f
      obtain ⟨count, h⟩ := hrest (hw.resolve_left (by simp [hi])) g
      exact ⟨count, .after hs.writes h⟩

end Emit

end Moonstack
