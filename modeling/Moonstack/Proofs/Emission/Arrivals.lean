import Moonstack.Proofs.Emission.Bodies

/-!
# The stages of the writing of a body

A body is a tree, but it is written in one go. `Instr.bodyStages` lists the stages of this in their
order, and `Emit.stage` is what is done at a stage. The writing of a body is the writing of its
stages, one after the other (`along_walk`), so all that is said about the way through a body is said
about one list, `Emit.trail`: the stages with the states in which the writing comes to them.

What is known in front of a body is carried along the writing to each instruction by one induction
(`Guides.walk`): it is enough to say what is handed on from a body to its first instruction, from an
instruction to the next one, and from a structured instruction to its arms.
-/

namespace Moonstack

namespace Instr

mutual

/-- An instruction with all the instructions inside it. -/
def subterms : Instr → List Instr
  | leaf offset op => [leaf offset op]
  | block offset result body => block offset result body :: bodySubterms body
  | loop offset result body => loop offset result body :: bodySubterms body
  | ifThen offset result body => ifThen offset result body :: bodySubterms body
  | ifElse offset result body other =>
    ifElse offset result body other :: (bodySubterms body ++ bodySubterms other)

/-- The instructions of a body, at any depth of nesting. -/
def bodySubterms : List Instr → List Instr
  | [] => []
  | i :: rest => i.subterms ++ bodySubterms rest

end

/-- A stage of the writing of an instruction. -/
inductive Stage where
  /-- The instruction begins. -/
  | entry (i : Instr)
  /-- The instruction is carried out, or its first body is opened. -/
  | inside (i : Instr)
  /-- The second arm of an `if` is opened. -/
  | turn (i : Instr)
  /-- The last body is closed. -/
  | close (i : Instr)
  /-- The instruction is done. -/
  | behind (i : Instr)

/-- The stages of a structured instruction, from those inside it. -/
def around (i : Instr) (inner : List Stage) : List Stage :=
  [.entry i, .inside i] ++ (inner ++ [.close i, .behind i])

mutual

/-- The stages of an instruction. -/
def stages : Instr → List Stage
  | leaf offset op => [.entry (leaf offset op), .inside (leaf offset op), .behind (leaf offset op)]
  | block offset result body => (block offset result body).around (bodyStages body)
  | loop offset result body => (loop offset result body).around (bodyStages body)
  | ifThen offset result body => (ifThen offset result body).around (bodyStages body)
  | ifElse offset result body other => (ifElse offset result body other).around
      (bodyStages body ++ ([.turn (ifElse offset result body other)] ++ bodyStages other))

/-- The stages of a body. -/
def bodyStages : List Instr → List Stage
  | [] => []
  | i :: rest => i.stages ++ bodyStages rest

end

theorem Encloses.stages_eq {i : Instr} {name : BlockName} {result : Option ValueType}
    {inner : List Instr} (h : i.Encloses name result inner) :
    i.stages = i.around (bodyStages inner) := by
  cases h <;> rfl

end Instr

namespace Emit

open Moonstack.Frame Instr

/-- Opens the second arm of the innermost block. -/
def turn : Emit Unit := do
  match (← frame).blocks with
  | [] => throw (.of (.noOpenBlock (← frame).id))
  | b :: _ => alternative b

/-- What is done at a stage. -/
def stage (env : Env) : Stage → Emit Unit
  | .entry i => begin i
  | .inside (.leaf offset o) => do
    op env offset o
    finish
  | .inside i => inward i
  | .turn _ => turn
  | .close _ => leave
  | .behind _ => return ()

/-- Writes some stages, one after the other. -/
def along (env : Env) (stages : List Stage) : Emit Unit := stages.forM (stage env)

/-- The stages that the writing comes to, each with the state in front of it, up to a failure. -/
def trail (env : Env) : List Stage → Emission → List (Stage × Emission)
  | [], _ => []
  | s :: rest, e => (s, e) ::
    match stage env s e with
    | .ok _ e' => trail env rest e'
    | .error _ _ => []

/-- The writing of an instruction from the state `e` comes to the instruction `j`, itself or one
inside it, in the state `p`. -/
def Arrives (env : Env) (i : Instr) (e : Emission) (j : Instr) (p : Emission) : Prop :=
  (.entry j, p) ∈ trail env i.stages e

/-- The writing of a body from the state `e` comes to the instruction `j` in the state `p`. -/
def BodyArrives (env : Env) (code : List Instr) (e : Emission) (j : Instr) (p : Emission) : Prop :=
  (.entry j, p) ∈ trail env (bodyStages code) e

/-- The writing of a body from the state `e` passes through the state `p` behind an instruction: one
of the body itself, or one of a body inside it. -/
def Between (env : Env) (code : List Instr) (e p : Emission) : Prop :=
  ∃ i, (.behind i, p) ∈ trail env (bodyStages code) e

variable {env : Env} {f g : Frame} {e e' p : Emission} {i j : Instr} {name : BlockName}
  {result : Option ValueType} {inner other : List Instr} {code : List Line} {offset : Nat}
  {s : Stage} {stages more : List Stage}

/-! ## Trails -/

theorem exists_ok_bind {x y : Emit Unit} {P : Emission → Prop} :
    (∃ e', (do x; y) e = .ok () e' ∧ P e') ↔
      ∃ e₁, x e = .ok () e₁ ∧ ∃ e', y e₁ = .ok () e' ∧ P e' := by
  constructor
  · rintro ⟨e', h, hp⟩
    obtain ⟨_, e₁, h₁, h⟩ := ok_of_bind h
    exact ⟨e₁, h₁, e', h, hp⟩
  · rintro ⟨e₁, h₁, e', h, hp⟩
    exact ⟨e', (bind_ok h₁).trans h, hp⟩

theorem along_cons (s : Stage) (stages : List Stage) :
    along env (s :: stages) = (do stage env s; along env stages) :=
  List.forM_cons

theorem along_nil : along env [] = return () := rfl

theorem along_append (stages more : List Stage) :
    along env (stages ++ more) = (do along env stages; along env more) :=
  List.forM_append

theorem mem_trail_cons {first : Stage} : (s, p) ∈ trail env (first :: stages) e ↔
    (s = first ∧ p = e) ∨
      ∃ e', stage env first e = .ok () e' ∧ (s, p) ∈ trail env stages e' := by
  rw [trail, List.mem_cons, Prod.mk.injEq]
  cases stage env first e <;> simp

theorem mem_of_mem_trail (h : (s, p) ∈ trail env stages e) : s ∈ stages := by
  induction stages generalizing e with
  | nil => cases h
  | cons first rest ih =>
    rcases mem_trail_cons.1 h with ⟨rfl, -⟩ | ⟨e', -, h⟩
    · exact List.mem_cons_self
    · exact List.mem_cons_of_mem _ (ih h)

theorem trail_append (h : along env stages e = .ok () e') (more : List Stage) :
    trail env (stages ++ more) e = trail env stages e ++ trail env more e' := by
  induction stages generalizing e with
  | nil =>
    cases h
    rfl
  | cons first rest ih =>
    rw [along_cons] at h
    obtain ⟨_, e₁, h₁, h⟩ := ok_of_bind h
    simp only [List.cons_append, trail, h₁, ih h]

theorem mem_trail_append : (s, p) ∈ trail env (stages ++ more) e ↔ (s, p) ∈ trail env stages e ∨
    ∃ e', along env stages e = .ok () e' ∧ (s, p) ∈ trail env more e' := by
  induction stages generalizing e with
  | nil =>
    refine ⟨fun h => .inr ⟨e, rfl, h⟩, ?_⟩
    rintro (h | ⟨_, h, hs⟩)
    · cases h
    · cases h
      exact hs
  | cons first rest ih =>
    rw [List.cons_append, along_cons, exists_ok_bind, mem_trail_cons, mem_trail_cons, or_assoc,
      ← exists_or]
    simp only [ih, and_or_left]

/-! ## The writing of a body as the writing of its stages -/

theorem frame_of_ok {α : Type} {x : Emit α} {a b : α} (hw : Writes x f a g code)
    (he : e.frame = f) (hx : x e = .ok b e') : e'.frame = g := by
  obtain ⟨e₁, h₁, hg, -⟩ := hw e he
  rw [h₁] at hx
  cases hx
  exact hg

/-- An instruction that has been written holds no wide branch table. -/
theorem keeps_of_ok {i : Instr} (h : instr env i e = .ok () e') :
    i.hasWide env.options.branchTableLimit = false ∧
      ∃ lines, Keeps i.ticks i.labels (instr env i) e.frame [] () e'.frame [] lines := by
  cases hwide : i.hasWide env.options.branchTableLimit with
  | true =>
    obtain ⟨count, hf⟩ := fails_walk.instr i hwide e.frame
    obtain ⟨e₁, h₁⟩ := hf e rfl
    rw [h₁] at h
    cases h
  | false =>
    obtain ⟨_, g, lines, hk⟩ := succeeds_instr hwide e.frame
    obtain rfl := frame_of_ok hk.writes rfl h
    exact ⟨rfl, lines, hk⟩

theorem keeps_of_body {code : List Instr} (h : body env code e = .ok () e') :
    bodyHasWide env.options.branchTableLimit code = false ∧ ∃ lines,
      Keeps (bodyTicks code) (bodyLabels code) (body env code) e.frame [] () e'.frame [] lines := by
  cases hwide : bodyHasWide env.options.branchTableLimit code with
  | true =>
    obtain ⟨count, hf⟩ := fails_walk.body code hwide e.frame
    obtain ⟨e₁, h₁⟩ := hf e rfl
    rw [h₁] at h
    cases h
  | false =>
    obtain ⟨_, g, lines, hk⟩ := succeeds_body hwide e.frame
    obtain rfl := frame_of_ok hk.writes rfl h
    exact ⟨rfl, lines, hk⟩

/-- Where the first body of a structured instruction starts. -/
theorem frame_of_enter (hi : i.opens = some (name, result)) (hx : enter i e = .ok () e') :
    e'.frame = ((e.frame.opening name.kind).openBlock name result).2 :=
  frame_of_ok (writes_enter hi e.frame) rfl hx

theorem turn_of_blocks {b : Block} {outer : List Block} (h : e.frame.blocks = b :: outer) :
    turn e = alternative b e := by
  have hf : frame e = .ok e.frame e := rfl
  rw [turn, bind_ok hf]
  simp only [h]

theorem writes_turn {b : Block} {outer : List Block} (h : f.blocks = b :: outer) :
    Writes turn f () (f.turned b) (f.turnCode b) := by
  intro e he
  rw [turn_of_blocks (he ▸ h)]
  exact writes_alternative b f e he

/-- The writing of an `if` up to the start of its second arm. -/
def untilAlternative (env : Env) (offset : Nat) (result : Option ValueType)
    (inner other : List Instr) : Emit Unit := do
  enter (.ifElse offset result inner other)
  body env inner
  turn

/-- The block that an `if` has opened is still the innermost one behind its first arm. -/
theorem instr_ifElse (env : Env) (offset : Nat) (result : Option ValueType)
    (inner other : List Instr) : instr env (.ifElse offset result inner other) = (do
      untilAlternative env offset result inner other
      body env other
      leave) := by
  rw [instr, untilAlternative, enter, inward]
  simp only [bind_assoc, pure_bind]
  refine bind_congr fun _ => funext fun e => ?_
  have hw : Writes (enterIf offset result .alternative) e.frame _ _ _ := writes_enterIf _ _
  obtain ⟨e₁, h₁, hf, -⟩ := hw e rfl
  rw [bind_ok h₁, bind_ok h₁]
  cases h₂ : body env inner e₁ with
  | error failure e₂ => simp only [Bind.bind, EStateM.bind, h₂]
  | ok _ e₂ =>
    obtain ⟨-, _, hk⟩ := keeps_of_body h₂
    have hblocks := (hf ▸ hk.moved.blocks).trans
      (Within.opened e.frame.popped ⟨.cond, offset⟩ result).blocks
    rw [bind_ok h₂, bind_ok h₂]
    simp only [Bind.bind, EStateM.bind, turn_of_blocks hblocks]

theorem along_enter (hi : i.opens = some (name, result)) :
    along env [.entry i, .inside i] = enter i := by
  cases i with
  | leaf => cases hi
  | _ => simp only [along_cons, along_nil, stage, enter, bind_pure_unit]

theorem along_around (hi : i.opens = some (name, result)) (inner : List Stage) :
    along env (i.around inner) = (do enter i; along env inner; leave) := by
  rw [around, along_append, along_append, along_enter hi]
  simp only [along_cons, along_nil, stage, bind_pure_unit]

/-- **A body is written stage by stage.** -/
theorem along_walk : Walk (fun i => along env i.stages = instr env i)
    (fun code => along env (bodyStages code) = body env code) where
  leaf offset o := by
    simp only [stages, along_cons, along_nil, stage, bind_assoc, bind_pure_unit, instr]
  encloses hi hinner := by
    rw [hi.stages_eq, along_around hi.opens_eq, hinner, instr_of_encloses hi]
  ifElse offset result inner other hinner hother := by
    rw [stages, along_around rfl, along_append, along_append, hinner, hother, instr_ifElse,
      untilAlternative]
    simp only [along_cons, along_nil, stage, bind_assoc, bind_pure_unit]
  nil := rfl
  cons {i rest} hi hrest := by
    rw [bodyStages, along_append, hi, hrest, body]

/-! ## Arrivals -/

theorem Arrives.self (i : Instr) (e : Emission) : Arrives env i e i e := by
  cases i <;> exact List.mem_cons_self

/-- A list of stages with one begin, in front. -/
theorem entry_mem_trail (h : ∀ j, .entry j ∉ stages) :
    (.entry j, p) ∈ trail env (.entry i :: stages) e ↔ j = i ∧ p = e := by
  rw [mem_trail_cons, Stage.entry.injEq, or_iff_left]
  rintro ⟨_, -, hs⟩
  exact h j (mem_of_mem_trail hs)

theorem entry_mem_around (hi : i.opens = some (name, result)) :
    (.entry j, p) ∈ trail env (i.around stages) e ↔ (j = i ∧ p = e) ∨
      ∃ e', enter i e = .ok () e' ∧ (.entry j, p) ∈ trail env stages e' := by
  have hend (e : Emission) : (.entry j, p) ∈ trail env (stages ++ [.close i, .behind i]) e ↔
      (.entry j, p) ∈ trail env stages e := by
    rw [mem_trail_append, or_iff_left]
    rintro ⟨_, -, hs⟩
    simpa using mem_of_mem_trail hs
  rw [around, mem_trail_append, along_enter hi, entry_mem_trail (by simp)]
  simp only [hend]

theorem arrives_leaf {o : Op} : Arrives env (.leaf offset o) e j p ↔ j = .leaf offset o ∧ p = e :=
  entry_mem_trail (by simp)

/-- The writing of an instruction with one body comes to the instruction itself, and to what it comes
to in its body. -/
theorem arrives_encloses (h : i.Encloses name result inner) : Arrives env i e j p ↔
    (j = i ∧ p = e) ∨ ∃ e', enter i e = .ok () e' ∧ BodyArrives env inner e' j p := by
  rw [Arrives, h.stages_eq, entry_mem_around h.opens_eq]
  rfl

/-- The writing of an `if` comes to the `if` itself, and to what it comes to in its arms. -/
theorem arrives_ifElse : Arrives env (.ifElse offset result inner other) e j p ↔
    (j = .ifElse offset result inner other ∧ p = e) ∨
      (∃ e', enter (.ifElse offset result inner other) e = .ok () e' ∧
        BodyArrives env inner e' j p) ∨
      ∃ e', untilAlternative env offset result inner other e = .ok () e' ∧
        BodyArrives env other e' j p := by
  have hturn (e : Emission) : (.entry j, p) ∈ trail env (bodyStages inner ++
      ([.turn (.ifElse offset result inner other)] ++ bodyStages other)) e ↔
      BodyArrives env inner e j p ∨ ∃ e', (do body env inner; turn) e = .ok () e' ∧
        BodyArrives env other e' j p := by
    rw [← List.append_assoc, mem_trail_append, mem_trail_append, along_append, along_walk.body,
      along_cons, along_nil, bind_pure_unit, or_assoc]
    refine or_congr_right ?_
    rw [or_iff_right]
    · rfl
    · rintro ⟨_, -, hs⟩
      simpa using mem_of_mem_trail hs
  rw [Arrives, Instr.stages, entry_mem_around rfl]
  refine or_congr_right ?_
  simp only [hturn, and_or_left, exists_or, untilAlternative, exists_ok_bind (x := enter _)]

theorem arrives_nil : ¬ BodyArrives env [] e j p := List.not_mem_nil

theorem arrives_cons {rest : List Instr} : BodyArrives env (i :: rest) e j p ↔
    Arrives env i e j p ∨ ∃ e', instr env i e = .ok () e' ∧ BodyArrives env rest e' j p := by
  rw [BodyArrives, bodyStages, mem_trail_append, along_walk.instr]
  rfl

/-- The writing of an `if` up to the start of its second arm. -/
theorem writes_untilAlternative (offset : Nat) (result : Option ValueType) (other : List Instr)
    (hi : Inside env inner f.begun.popped (f.begun.popped.openBlock ⟨.cond, offset⟩ result).1
      (f.begun.popped.openBlock ⟨.cond, offset⟩ result).2 g code) :
    ∃ code, Writes (untilAlternative env offset result inner other) f ()
      (g.turned (f.begun.popped.openBlock ⟨.cond, offset⟩ result).1) code := by
  obtain ⟨n, hn⟩ := hi.within
  exact ⟨_, (writes_enter rfl f).bind (hi.keeps.writes.bind (writes_turn hn.blocks))⟩

/-- **The writing of a body comes to every instruction of it**, at any depth of nesting. -/
theorem arrives_walk : Walk
    (fun i => i.hasWide env.options.branchTableLimit = false →
      ∀ j ∈ i.subterms, ∀ e, ∃ p, Arrives env i e j p)
    (fun code => bodyHasWide env.options.branchTableLimit code = false →
      ∀ j ∈ bodySubterms code, ∀ e, ∃ p, BodyArrives env code e j p) where
  leaf offset o hwide j hj e := by
    obtain rfl := List.mem_singleton.1 hj
    exact ⟨e, .self _ e⟩
  encloses {i _ _ inner} hi hinner hwide j hj e := by
    have hsub : i.subterms = i :: bodySubterms inner := by cases hi <;> rfl
    rcases List.mem_cons.1 (hsub ▸ hj) with rfl | hj
    · exact ⟨e, .self _ e⟩
    · obtain ⟨e', hx, -⟩ := writes_enter hi.opens_eq e.frame e rfl
      obtain ⟨p, hp⟩ := hinner (hi.hasWide_eq _ ▸ hwide) j hj e'
      exact ⟨p, (arrives_encloses hi).2 (.inr ⟨e', hx, hp⟩)⟩
  ifElse offset result inner other hinner hother hwide j hj e := by
    obtain ⟨hwide₁, hwide₂⟩ := Bool.or_eq_false_iff.1 hwide
    rcases List.mem_cons.1 hj with rfl | hj
    · exact ⟨e, .self _ e⟩
    · rcases List.mem_append.1 hj with hj | hj
      · obtain ⟨e', he', -⟩ :=
          writes_enter (i := .ifElse offset result inner other) rfl e.frame e rfl
        obtain ⟨p, hp⟩ := hinner hwide₁ j hj e'
        exact ⟨p, arrives_ifElse.2 (.inr (.inl ⟨e', he', hp⟩))⟩
      · obtain ⟨g, _, hi⟩ := inside_opened e.frame.begun.popped ⟨.cond, offset⟩ result hwide₁
        obtain ⟨_, hopen⟩ := writes_untilAlternative offset result other hi
        obtain ⟨e', he', -⟩ := hopen e rfl
        obtain ⟨p, hp⟩ := hother hwide₂ j hj e'
        exact ⟨p, arrives_ifElse.2 (.inr (.inr ⟨e', he', hp⟩))⟩
  nil _ _ hj := absurd hj List.not_mem_nil
  cons {i rest} hhead hrest hwide j hj e := by
    obtain ⟨hwide₁, hwide₂⟩ := Bool.or_eq_false_iff.1 hwide
    rcases List.mem_append.1 hj with hj | hj
    · obtain ⟨p, hp⟩ := hhead hwide₁ j hj e
      exact ⟨p, arrives_cons.2 (.inl hp)⟩
    · obtain ⟨_, g, _, hi⟩ := succeeds_instr hwide₁ e.frame
      obtain ⟨e', he', -⟩ := hi.writes e rfl
      obtain ⟨p, hp⟩ := hrest hwide₂ j hj e'
      exact ⟨p, arrives_cons.2 (.inr ⟨e', he', hp⟩)⟩

/-- The state at the start of the second arm of an `if`. -/
theorem keeps_of_untilAlternative (h : untilAlternative env offset result inner other e = .ok () e') :
    bodyHasWide env.options.branchTableLimit inner = false ∧ ∃ g lines,
      Keeps (bodyTicks inner) (bodyLabels inner) (body env inner)
        (e.frame.begun.popped.openBlock ⟨.cond, offset⟩ result).2 [] () g [] lines ∧
      e'.frame = g.turned (e.frame.begun.popped.openBlock ⟨.cond, offset⟩ result).1 := by
  obtain ⟨_, e₁, h₁, h⟩ := ok_of_bind h
  obtain ⟨_, e₂, h₂, h₃⟩ := ok_of_bind h
  obtain ⟨hwide, lines, hk⟩ := keeps_of_body h₂
  have hf : e₁.frame = (e.frame.begun.popped.openBlock ⟨.cond, offset⟩ result).2 :=
    frame_of_enter rfl h₁
  rw [hf] at hk
  have hg := (Within.opened e.frame.begun.popped ⟨.cond, offset⟩ result).moved hk.moved
  exact ⟨hwide, e₂.frame, lines, hk, frame_of_ok (writes_turn hg.blocks) rfl h₃⟩

/-! ## Behind instructions -/

/-- The instruction is done, or it is one of a body. -/
theorem behind_mem_concat (h : (.behind j, p) ∈ trail env (stages ++ [.behind i]) e) :
    (.behind j, p) ∈ trail env stages e ∨
      j = i ∧ along env (stages ++ [.behind i]) e = .ok () p := by
  refine (mem_trail_append.1 h).imp_right ?_
  rintro ⟨e', he', h⟩
  rcases mem_trail_cons.1 h with ⟨hj, rfl⟩ | ⟨_, -, h⟩
  · cases hj
    rw [along_append]
    exact ⟨rfl, bind_ok he'⟩
  · cases h

theorem behind_mem_around (hi : i.opens = some (name, result))
    (h : (.behind j, p) ∈ trail env (i.around stages) e) :
    (j = i ∧ along env (i.around stages) e = .ok () p) ∨
      ∃ e', enter i e = .ok () e' ∧ (.behind j, p) ∈ trail env stages e' := by
  have hsplit : i.around stages =
      ([.entry i, .inside i] ++ (stages ++ [.close i])) ++ [.behind i] := by simp [around]
  rw [hsplit] at h ⊢
  rcases behind_mem_concat h with h | h
  · rw [mem_trail_append, along_enter hi] at h
    rcases h with h | ⟨e', he', h⟩
    · simpa using mem_of_mem_trail h
    · refine .inr ⟨e', he', (mem_trail_append.1 h).resolve_right ?_⟩
      rintro ⟨_, -, h⟩
      simpa using mem_of_mem_trail h
  · exact .inl h

/-- The state behind an instruction has been reached by writing it. -/
theorem behind_walk : Walk
    (fun i => ∀ {e p j}, (.behind j, p) ∈ trail env i.stages e →
      ∃ q, Arrives env i e j q ∧ instr env j q = .ok () p)
    (fun code => ∀ {e p j}, (.behind j, p) ∈ trail env (bodyStages code) e →
      ∃ q, BodyArrives env code e j q ∧ instr env j q = .ok () p) where
  leaf offset o e p j h := by
    change (.behind j, p) ∈ trail env ([.entry _, .inside _] ++ [.behind _]) e at h
    rcases behind_mem_concat h with h | ⟨rfl, hp⟩
    · simpa using mem_of_mem_trail h
    · exact ⟨e, .self _ e, along_walk.instr (.leaf offset o) ▸ hp⟩
  encloses {i name result inner} hi hinner e p j h := by
    rw [hi.stages_eq] at h
    rcases behind_mem_around hi.opens_eq h with ⟨rfl, hp⟩ | ⟨e', he', h⟩
    · rw [← hi.stages_eq, along_walk.instr] at hp
      exact ⟨e, .self _ e, hp⟩
    · obtain ⟨q, hq, hp⟩ := hinner h
      exact ⟨q, (arrives_encloses hi).2 (.inr ⟨e', he', hq⟩), hp⟩
  ifElse offset result inner other hinner hother e p j h := by
    rcases behind_mem_around rfl h with ⟨rfl, hp⟩ | ⟨e₁, h₁, h⟩
    · exact ⟨e, .self _ e, along_walk.instr (.ifElse offset result inner other) ▸ hp⟩
    · rcases mem_trail_append.1 h with h | ⟨e₂, h₂, h⟩
      · obtain ⟨q, hq, hp⟩ := hinner h
        exact ⟨q, arrives_ifElse.2 (.inr (.inl ⟨e₁, h₁, hq⟩)), hp⟩
      · rw [along_walk.body] at h₂
        obtain ⟨hj, -⟩ | ⟨e₃, h₃, h⟩ := mem_trail_cons.1 h
        · cases hj
        · obtain ⟨q, hq, hp⟩ := hother h
          have huntil : untilAlternative env offset result inner other e = .ok () e₃ :=
            (bind_ok h₁).trans ((bind_ok h₂).trans h₃)
          exact ⟨q, arrives_ifElse.2 (.inr (.inr ⟨e₃, huntil, hq⟩)), hp⟩
  nil h := by cases h
  cons {i rest} hhead hrest e p j h := by
    rcases mem_trail_append.1 h with h | ⟨e', he', h⟩
    · obtain ⟨q, hq, hp⟩ := hhead h
      exact ⟨q, arrives_cons.2 (.inl hq), hp⟩
    · rw [along_walk.instr] at he'
      obtain ⟨q, hq, hp⟩ := hrest h
      exact ⟨q, arrives_cons.2 (.inr ⟨e', he', hq⟩), hp⟩

/-- What is known in front of an instruction, `P`, and in front of a body, `Q`, is handed on along
the writing. -/
structure Guides (env : Env) (P : Frame → Instr → Prop) (Q : Frame → List Instr → Prop) : Prop where
  head : ∀ {f i rest}, Q f (i :: rest) → P f i
  tail : ∀ {f g i rest lines}, Q f (i :: rest) → i.hasWide env.options.branchTableLimit = false →
    Keeps i.ticks i.labels (instr env i) f [] () g [] lines → Q g rest
  inner : ∀ {f i name result inner}, i.Encloses name result inner → P f i →
    Q ((f.opening name.kind).openBlock name result).2 inner
  firstArm : ∀ {f offset result inner other}, P f (.ifElse offset result inner other) →
    Q (f.begun.popped.openBlock ⟨.cond, offset⟩ result).2 inner
  secondArm : ∀ {f g offset result inner other lines}, P f (.ifElse offset result inner other) →
    bodyHasWide env.options.branchTableLimit inner = false →
    Keeps (bodyTicks inner) (bodyLabels inner) (body env inner)
      (f.begun.popped.openBlock ⟨.cond, offset⟩ result).2 [] () g [] lines →
    Q (g.turned (f.begun.popped.openBlock ⟨.cond, offset⟩ result).1) other

/-- **What is known where a body starts is known in front of every instruction** that its writing
comes to. -/
theorem Guides.walk {P : Frame → Instr → Prop} {Q : Frame → List Instr → Prop}
    (h : Guides env P Q) : Walk
    (fun i => ∀ {e p j}, P e.frame i → Arrives env i e j p → P p.frame j)
    (fun code => ∀ {e p j}, Q e.frame code → BodyArrives env code e j p → P p.frame j) where
  leaf offset o _ _ _ hp ha := by
    obtain ⟨rfl, rfl⟩ := arrives_leaf.1 ha
    exact hp
  encloses hi hinner _ _ _ hp ha := by
    rcases (arrives_encloses hi).1 ha with ⟨rfl, rfl⟩ | ⟨e', hx, ha⟩
    · exact hp
    · exact hinner (frame_of_enter hi.opens_eq hx ▸ h.inner hi hp) ha
  ifElse offset result inner other hinner hother _ _ _ hp ha := by
    rcases arrives_ifElse.1 ha with ⟨rfl, rfl⟩ | ⟨e', hx, ha⟩ | ⟨e', hx, ha⟩
    · exact hp
    · have hframe := frame_of_enter (i := .ifElse offset result inner other) rfl hx
      exact hinner (hframe ▸ h.firstArm hp) ha
    · obtain ⟨hwide, g, lines, hk, hg⟩ := keeps_of_untilAlternative hx
      exact hother (hg ▸ h.secondArm hp hwide hk) ha
  nil _ ha := absurd ha arrives_nil
  cons hhead hrest _ _ _ hq ha := by
    rcases arrives_cons.1 ha with ha | ⟨e', hx, ha⟩
    · exact hhead (h.head hq) ha
    · obtain ⟨hwide, lines, hk⟩ := keeps_of_ok hx
      exact hrest (h.tail hq hwide hk) ha

end Emit

end Moonstack
