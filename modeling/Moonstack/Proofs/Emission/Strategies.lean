import Moonstack.Proofs.Emission.Leaks
import Moonstack.Proofs.Emission.Lockstep
import Moonstack.Proofs.Emission.Texts

/-!
# The two register strategies

A function written under the pooled strategy is the function written under the virtual one, up to
slots. Both writings come to the same result or the same failure, and behind every instruction their
frames agree on everything but slots. The lines of the one are those of the other with the slots
renamed by one function, which takes no two registers that are live at one time to the same slot, and
pooling never takes more slots (`alike_lowerFunction`).
-/

namespace Moonstack

open Registers Moonstack.Frame Emission

/-! ## Bodies -/

namespace Emit

open Instr

/-- The frames behind instructions, at the stages of a trail. -/
def framesBehind (trail : List (Stage × Emission)) : List Frame :=
  trail.filterMap fun
    | (.behind _, p) => some p.frame
    | _ => none

/-- The frames behind the instructions of a function, at any depth of nesting, in the order in which
the instructions end. They are there also if the writing fails later. -/
def states (env : Env) (id : String) (function : Function) : List Frame :=
  match env.registry.types[function.type]? with
  | none => []
  | some signature =>
    let f := startFrame env id (some signature) function.locals function.body
    match checkSize env f, params f.paramCount { frame := f } with
    | .ok _, .ok _ e => framesBehind (trail env (bodyStages function.body) e)
    | _, _ => []

/-- The instruction inside a block ends before the block does. -/
example : (states ⟨{}, { types := [⟨[], []⟩] }⟩ "f"
    { name := none, type := 0, locals := []
      body := [.leaf 0 .nop, .block 1 none [.leaf 2 .nop], .leaf 3 .nop] }).map Frame.clock =
    [1, 3, 4, 5] := by
  decide +kernel

variable {blocks : List Block} {history later : List Event} {held : List RegisterId}
  {e e' : Emission} {t t' : List (Stage × Emission)} {env env' : Env}

/-- The two writings come to the same stages, with frames that are twins, each pair with a part of
the history behind it. -/
def Met (history : List Event) (t t' : List (Stage × Emission)) : Prop :=
  List.Forall₂ (fun x y => x.1 = y.1 ∧ ∃ past, past <+: history ∧ Twins past x.2.frame y.2.frame) t t'

theorem Met.mono (h : Met history t t') (hp : history <+: later) : Met later t t' :=
  h.imp fun _ _ ⟨hs, past, hpast, ht⟩ => ⟨hs, past, hpast.trans hp, ht⟩

theorem Met.framesBehind (h : Met history t t') :
    List.Forall₂ (fun f g => ∃ past, past <+: history ∧ Twins past f g) (framesBehind t)
      (framesBehind t') := by
  refine List.rel_filterMap (fun x y hxy => ?_) h
  obtain ⟨s, p⟩ := x
  obtain ⟨s', q⟩ := y
  obtain ⟨rfl, ht⟩ := hxy
  cases s with
  | behind => exact .some ht
  | _ => exact .none

/-- Stage by stage, under environments that agree on instructions without a body. -/
theorem met_along (hop : ∀ offset o, op env offset o = op env' offset o) (stages : List Stage)
    (h : Abreast history held blocks e e') : ∃ later, history <+: later ∧
      Met later (trail env stages e) (trail env' stages e') ∧
      Both (along env stages) (along env' stages) e e' fun _ _ d d' =>
        ∃ blocks, Abreast later held blocks d d' := by
  induction stages generalizing history blocks e e' with
  | nil => exact ⟨history, List.prefix_refl _, .nil, .of_ok rfl rfl ⟨blocks, h⟩⟩
  | cons s rest ih =>
    have hs := strides_stage hop s h
    rw [along_cons, along_cons, trail, trail]
    unfold Strides Both at hs
    cases hx : stage env s e <;> cases hy : stage env' s e' <;> rw [hx, hy] at hs
    · obtain ⟨middle, _, hp, hd⟩ := hs
      obtain ⟨later, hp', hm, hboth⟩ := ih hd
      exact ⟨later, hp.trans hp', .cons ⟨rfl, history, hp.trans hp', h.frames⟩ hm,
        .of_run hx hy hboth⟩
    · exact hs.elim
    · exact hs.elim
    · exact ⟨history, List.prefix_refl _, .cons ⟨rfl, history, List.prefix_refl _, h.frames⟩ .nil,
        .of_error (bind_error hx) (bind_error (hs ▸ hy))⟩

/-- A body leaves the blocks open that were open in front of it. -/
theorem met_body (hop : ∀ offset o, op env offset o = op env' offset o) (code : List Instr)
    (h : Abreast history held blocks e e') : ∃ later, history <+: later ∧
      Met later (trail env (bodyStages code) e) (trail env' (bodyStages code) e') ∧
      Both (body env code) (body env' code) e e' fun _ _ d d' =>
        Abreast later held blocks d d' := by
  obtain ⟨later, hp, hm, hboth⟩ := met_along hop (bodyStages code) h
  rw [along_walk.body, along_walk.body] at hboth
  refine ⟨later, hp, hm, ?_⟩
  unfold Both at hboth ⊢
  split at hboth
  · rename_i d _ _ hx _
    obtain ⟨blocks', hd⟩ := hboth
    obtain ⟨-, _, hk⟩ := keeps_of_body hx
    obtain rfl : blocks' = blocks := hd.blocks.symm.trans (hk.moved.blocks.trans h.blocks)
    exact hd
  · exact hboth
  · exact hboth

end Emit

/-! ## Functions -/

/-- The environment with another strategy. -/
def Env.under (env : Env) (strategy : Strategy) : Env :=
  { env with options := { env.options with strategy } }

theorem Emit.op_under (env : Env) (strategy : Strategy) (offset : Nat) (o : Op) :
    Emit.op (env.under strategy) offset o = Emit.op env offset o := by
  cases o <;> rfl

namespace Frame.Twins

variable {history : List Event} {f g : Frame}

theorem bindAll (h : Twins history f g) (indices : List Nat) :
    TwinsBehind history (f.bindAll indices) (g.bindAll indices) := by
  induction indices generalizing history f g with
  | nil => exact h.behind
  | cons index rest ih => exact (h.localRegister index).2.andThen fun _ ht => ih ht

theorem accessedAll (h : Twins history f g) (indices : List Nat) :
    TwinsBehind history (f.accessedAll indices) (g.accessedAll indices) := by
  induction indices generalizing history f g with
  | nil => exact h.behind
  | cons index rest ih => exact (h.accessed index).andThen fun _ ht => ih ht

end Frame.Twins

namespace Emit

theorem turns_bindAll (indices : List Nat) :
    Turns (indices.mapM fun index => do
      let id ← step fun f => f.localRegister index
      return (← frame).nameOf id) (fun f => f.boundNames indices) fun f => f.bindAll indices := by
  intro e
  induction indices generalizing e with
  | nil => rfl
  | cons index rest ih =>
    rw [List.mapM_cons]
    exact (bind_ok (run_step (fun f => ((f.localRegister index).2.nameOf (f.localRegister index).1,
      (f.localRegister index).2)) e)).trans ((bind_ok (ih _)).trans rfl)

theorem turns_accessedAll (indices : List Nat) :
    Turns (indices.forM fun index => attempt' fun f => f.afterLocalAccess index) (fun _ => ())
      fun f => f.accessedAll indices := by
  intro e
  induction indices generalizing e with
  | nil => rfl
  | cons index rest ih =>
    exact (bind_ok (turns_attempt' (fun f => f.afterLocalAccess_eq index) e)).trans (ih _)

theorem turns_params (count : Nat) : Turns (params count) (fun f => f.boundNames (List.range count))
    fun f => (f.bindAll (List.range count)).accessedAll (List.range count) :=
  fun e => (bind_ok (turns_bindAll _ e)).trans ((bind_ok (turns_accessedAll _ _)).trans rfl)

/-- One more computation, whose runs are abreast. -/
theorem Both.andThen {history : List Event} {held : List RegisterId} {blocks : List Block}
    {e e' : Emission} {x y z : Emit Unit}
    (h : Both x y e e' fun _ _ d d' => Abreast history held blocks d d') (hz : InStep z) :
    ∃ later, history <+: later ∧
      Both (do x; z) (do y; z) e e' fun _ _ d d' => Abreast later held blocks d d' := by
  unfold Both at h
  cases hx : x e <;> cases hy : y e' <;> rw [hx, hy] at h
  · have hgoes := hz h
    unfold Goes Both at hgoes
    rename_i d _ d'
    cases hz : z d <;> cases hz' : z d' <;> rw [hz, hz'] at hgoes
    · obtain ⟨later, hp, hlast, -⟩ := hgoes
      exact ⟨later, hp, .of_run hx hy (.of_ok hz hz' hlast)⟩
    · exact hgoes.elim
    · exact hgoes.elim
    · exact ⟨history, List.prefix_refl _, .of_run hx hy (.of_error hz (hgoes ▸ hz'))⟩
  · exact h.elim
  · exact h.elim
  · exact ⟨history, List.prefix_refl _, .of_error (bind_error hx) (bind_error (h ▸ hy))⟩

end Emit

section

variable (env : Env) (id : String) (function : Function) (signature : Signature)

/-- The emission in front of a function. -/
def Emission.initial : Emission :=
  { frame := startFrame env id (some signature) function.locals function.body }

/-- In front of the body, the two runs are abreast. -/
theorem abreast_entered : ∃ history, Abreast history [] []
    { frame := (initial (env.under .pooled) id function signature).frame.entered }
    { frame := (initial (env.under .virtual) id function signature).frame.entered } := by
  have hstart : Twins [] (initial (env.under .pooled) id function signature).frame
      (initial (env.under .virtual) id function signature).frame :=
    .intro (initial env id function signature).frame fun _ _ => .nil
  obtain ⟨history, -, ht⟩ := (hstart.bindAll (List.range signature.params.length)).andThen
    fun _ ht => ht.accessedAll (List.range signature.params.length)
  exact ⟨history, ht, (stands_entered (env.under .pooled) id function signature).owned,
    (moved_entered (env.under .pooled) id function signature).1.blocks, rfl, fun _ _ => .nil⟩

/-- The writing of a function under both strategies: it fails alike, or leaves emissions that are
abreast but for the log. -/
theorem both_function : ∃ history,
    Emit.Met history
      (Emit.trail (env.under .pooled) (Instr.bodyStages function.body)
        { frame := (initial (env.under .pooled) id function signature).frame.entered })
      (Emit.trail (env.under .virtual) (Instr.bodyStages function.body)
        { frame := (initial (env.under .virtual) id function signature).frame.entered }) ∧
    Emit.Both (Emit.function (env.under .pooled) signature.params.length function.body)
      (Emit.function (env.under .virtual) signature.params.length function.body)
      (initial (env.under .pooled) id function signature)
      (initial (env.under .virtual) id function signature)
      fun params params' e e' => params = (List.range signature.params.length).map slotName ∧
        params' = params ∧ ∃ d d', Abreast history [] [] d d' ∧
          e = { d with frame := d.frame.reported } ∧ e' = { d' with frame := d'.frame.reported } := by
  obtain ⟨start, hstart⟩ := abreast_entered env id function signature
  have hop (offset : Nat) (o : Op) :
      Emit.op (env.under .pooled) offset o = Emit.op (env.under .virtual) offset o := by
    rw [Emit.op_under, Emit.op_under]
  obtain ⟨middle, -, hm, hbody⟩ := Emit.met_body hop function.body hstart
  obtain ⟨history, hp, hall⟩ := hbody.andThen Emit.goes_finishFunction
  refine ⟨history, hm.mono hp, ?_⟩
  have hnames (strategy : Strategy) := (binds_params (env.under strategy) id function signature).2
  refine Emit.Both.of_run (Emit.turns_params _ _) (Emit.turns_params _ _) ?_
  rw [← bind_assoc (Emit.body (env.under .pooled) function.body),
    ← bind_assoc (Emit.body (env.under .virtual) function.body)]
  refine Emit.Both.bind hall fun _ _ d d' hd => ?_
  exact Emit.Both.of_ok rfl rfl
    ⟨hnames .pooled, (hnames .virtual).trans (hnames .pooled).symm, d, d', hd, rfl, rfl⟩

end

theorem Emit.paramCount_body {env : Env} {code : List Instr} {e d : Emission}
    (h : body env code e = .ok () d) : d.frame.paramCount = e.frame.paramCount := by
  obtain ⟨-, _, hk⟩ := keeps_of_body h
  exact hk.moved.paramCount

/-- The number of parameters stays as it is. -/
theorem Emit.paramCount_function {env : Env} {count : Nat} {code : List Instr} {e d : Emission}
    {names : List String} (h : Emit.function env count code e = .ok names d) :
    d.frame.paramCount = e.frame.paramCount := by
  obtain ⟨_, e₁, h₁, h⟩ := ok_of_bind h
  obtain ⟨_, e₂, h₂, h⟩ := ok_of_bind h
  obtain ⟨_, e₃, h₃, h⟩ := ok_of_bind h
  have hentered : e₁.frame.paramCount = e.frame.paramCount := by
    rw [turns_params] at h₁
    cases h₁
    exact (moved_accessedAll _ _).1.paramCount.trans (moved_bindAll _ _).1.paramCount
  have hleft : e₃.frame.paramCount = e₂.frame.paramCount := by
    rw [frame_of_ok (writes_finishFunction e₂.frame) rfl h₃]
    unfold Frame.left
    split
    · exact (Moved.poppedMany _ _).paramCount
    · rfl
  have hreported : d.frame = e₃.frame.reported := by
    cases h
    rfl
  obtain ⟨log, hlog⟩ := e₃.frame.reported_eq
  rw [hreported, hlog]
  exact hleft.trans ((paramCount_body h₂).trans hentered)

/-! ## The two writings of a function -/

/-- The frames of the two writings at one time are the same but for slots, which `r` renames;
`past` is what has happened to their registers. -/
structure Frame.Alike (r : Nat → Nat) (past : List Event) (f g : Frame) : Prop where
  bare : f.bare = g.bare
  pooled : f.registers = run .pooled past
  virtual : g.registers = run .virtual past
  slot : ∀ {id a}, f.registers.get? id = some a →
    f.registers.slotOf id = r (g.registers.slotOf id)
  notes : List.Forall₂ (Remark.Renamed r) f.notes.toList g.notes.toList

/-- The line that declares the slots of a function. -/
def Lowered.declaration (f : Lowered) : List Placed :=
  if f.declared.isEmpty then [] else [⟨0, .declare f.declared⟩]

/-- The results of the two writings are the same but for slots, which `r` renames; `history` is what
has happened to their registers. -/
structure Lowered.Alike (r : Nat → Nat) (history : List Event) (a b : Lowered) : Prop where
  params : a.params = b.params
  resultCount : a.resultCount = b.resultCount
  usesSetjmp : a.usesSetjmp = b.usesSetjmp
  warnings : a.warnings = b.warnings
  pooled : a.declared = (List.range (run .pooled history).slotCount).drop a.params.length
  virtual : b.declared = (List.range (run .virtual history).slotCount).drop b.params.length
  /-- without a place to resume at, the declaration stands in front of the lines -/
  text : a.usesSetjmp = false → a.text = joinLines ((a.declaration ++ a.lines).map Placed.row) ∧
    b.text = joinLines ((b.declaration ++ b.lines).map Placed.row)
  /-- without a place to resume at, the lines are the same up to slots -/
  lines : a.usesSetjmp = false → List.Forall₂ (Placed.Renamed r) a.lines b.lines

/-- Twins are alike under every function that places their registers. -/
theorem Frame.Twins.alike {past history : List Event} {f g : Frame} (h : Twins past f g)
    (hp : past <+: history) {r : Nat → Nat} (hr : Places history r) : Frame.Alike r past f g where
  bare := h.bare_eq
  pooled := h.pooled
  virtual := h.virtual
  slot ha := h.slotOf ha (hr.mono hp)
  notes := h.notes (hr.mono hp)

/-- Without a place to resume at, the header is the declaration. -/
theorem Lowered.text_ofEmission (signature : Signature) (params : List String) {e : Emission}
    (hs : e.frame.sites = #[]) : (Lowered.ofEmission signature params e).text =
      joinLines (((Lowered.ofEmission signature params e).declaration ++ e.lines.toList).map
        Placed.row) := by
  rw [Lowered.text_eq]
  simp [Lowered.ofEmission, Lowered.declaration, Moonstack.header, hs]

theorem Emission.Abreast.lowered {history : List Event} {d d' : Emission}
    (h : Abreast history [] [] d d') (hs : d.frame.reported.Saves d.code) {r : Nat → Nat}
    (hr : Places history r)
    (signature : Signature) {params : List String} (hn : d.frame.paramCount = params.length) :
    Lowered.Alike r history
      (.ofEmission signature params { d with frame := d.frame.reported })
      (.ofEmission signature params { d' with frame := d'.frame.reported }) := by
  obtain ⟨log, hlog⟩ := d.frame.reported_eq
  obtain ⟨log', hlog'⟩ := d'.frame.reported_eq
  have hsites : d.frame.sites = d'.frame.sites := h.frames.same Frame.sites fun _ _ _ => rfl
  have hcount : d.frame.paramCount = d'.frame.paramCount :=
    h.frames.same Frame.paramCount fun _ _ _ => rfl
  have hempty (hu : (Lowered.ofEmission signature params
      { d with frame := { d.frame with log } }).usesSetjmp = false) : d.frame.sites = #[] := by
    simpa [Lowered.ofEmission] using hu
  rw [hlog] at hs
  rw [hlog, hlog']
  refine { params := rfl, resultCount := rfl, usesSetjmp := ?_, warnings := ?_, pooled := ?_,
           virtual := ?_, text := fun hu => ⟨?_, ?_⟩, lines := fun hu => ?_ }
  · exact congrArg (fun sites => !Array.isEmpty sites) hsites
  · exact h.frames.same Frame.warnings fun _ _ _ => rfl
  · change declaredSlots d.frame = (List.range (run .pooled history).slotCount).drop params.length
    rw [← h.frames.pooled, ← hn]
    rfl
  · change declaredSlots d'.frame = (List.range (run .virtual history).slotCount).drop params.length
    rw [← h.frames.virtual, ← hn, hcount]
    rfl
  · exact Lowered.text_ofEmission _ _ (hempty hu)
  · exact Lowered.text_ofEmission _ _ (hsites.symm.trans (hempty hu))
  · have hmem : ∀ p ∈ d.lines.toList, p.line ∈ d.code := fun p hp => List.mem_map_of_mem hp
    refine ((List.forall₂_and_left _ _).2 ⟨hmem, h.lines r hr⟩).imp ?_
    rintro ⟨_, s⟩ ⟨_, t⟩ ⟨hp, hi, hl⟩
    refine ⟨hi, ?_⟩
    cases hl with
    | renamed hl => exact hl
    | record => exact absurd (hempty hu) (hs.record hp).2

/-- Both writings fail, with the same failure, or both give a function and the two are related. -/
def Lowered.Agree (related : Lowered → Lowered → Prop) :
    Except Failure Lowered → Except Failure Lowered → Prop
  | .ok a, .ok b => related a b
  | .error failure, .error failure' => failure = failure'
  | _, _ => False

theorem Lowered.Agree.imp {P Q : Lowered → Lowered → Prop} {x y : Except Failure Lowered}
    (h : Agree P x y) (hPQ : ∀ a b, P a b → Q a b) : Agree Q x y := by
  cases x <;> cases y <;> first | exact h | exact hPQ _ _ h

/-- The two writings of a function with what happens to their registers. -/
theorem met_lowerFunction (env : Env) (id name : String) (function : Function) :
    ∃ history, List.Forall₂ (fun f g => ∃ past, past <+: history ∧ Twins past f g)
        (Emit.states (env.under .pooled) id function)
        (Emit.states (env.under .virtual) id function) ∧
      Lowered.Agree (fun a b => ∀ r, Places history r → Lowered.Alike r history a b)
        (lowerFunction (env.under .pooled) id name function).outcome.1
        (lowerFunction (env.under .virtual) id name function).outcome.1 := by
  cases hs : env.registry.types[function.type]? with
  | none =>
    have hs' (strategy : Strategy) : (env.under strategy).registry.types[function.type]? = none := hs
    have hstates (strategy : Strategy) : Emit.states (env.under strategy) id function = [] := by
      rw [Emit.states, hs']
    refine ⟨[], ?_, ?_⟩
    · rw [hstates, hstates]
      exact .nil
    · rw [(unknown_lowerFunction id name (hs' _)).outcome,
        (unknown_lowerFunction id name (hs' _)).outcome]
      rfl
  | some signature =>
    have hs' (strategy : Strategy) :
        (env.under strategy).registry.types[function.type]? = some signature := hs
    have hsize (strategy : Strategy) := checkSize_eq (env.under strategy) id (some signature)
      function.locals function.body
    have hyields (strategy : Strategy) :=
      (yields_function id name (hs' strategy)).outcome
    simp only [hsize] at hyields
    rw [hyields, hyields, Emit.states, Emit.states, hs', hs']
    simp only [hsize]
    by_cases ht : env.options.functionLimit < Instr.bodyTicks function.body
    · have hlimit (strategy : Strategy) :
          (env.under strategy).options.functionLimit < Instr.bodyTicks function.body := ht
      simp only [if_pos (hlimit _)]
      exact ⟨[], .nil, rfl⟩
    · have hlimit (strategy : Strategy) :
          ¬ (env.under strategy).options.functionLimit < Instr.bodyTicks function.body := ht
      simp only [if_neg (hlimit _)]
      obtain ⟨history, hm, hboth⟩ := both_function env id function signature
      have hparams (strategy : Strategy) := Emit.turns_params
        (initial (env.under strategy) id function signature).frame.paramCount
        (initial (env.under strategy) id function signature)
      unfold initial at hparams
      simp only [hparams]
      refine ⟨history, hm.framesBehind, ?_⟩
      unfold Emit.Both initial at hboth
      unfold Emit.result
      split at hboth
      · rename_i params e params' e' hx hy
        obtain ⟨hparams, rfl, d, d', hd, rfl, rfl⟩ := hboth
        have hn : d.frame.paramCount = params'.length := by
          obtain ⟨log, hlog⟩ := d.frame.reported_eq
          have hcount := Emit.paramCount_function hx
          rw [hlog] at hcount
          rw [hparams, List.length_map, List.length_range]
          exact hcount
        have hsaves := (Emit.holds_function Rule.full_saves False.elim _ False.elim 0 _ _ _
          ⟨rfl, by simp [Rule.saves, Frame.Saves, Emission.code]⟩ hx).1.keeps
        rw [hx, hy]
        exact fun r hr => hd.lowered hsaves hr signature hn
      · rename_i hx hy
        rw [hx, hy]
        exact hboth
      · exact hboth.elim

/-- **The two strategies write the same function up to slots.** Under both the function is refused
with the same failure, or written with the same parameters, results and warnings. Behind every
instruction the two frames agree on everything but slots. There is one renaming of slots that turns
the lines of the virtual function into those of the pooled one, if no place to resume at is among
them; it keeps registers apart that are live at one time, and pooling never takes more slots. -/
theorem alike_lowerFunction (env : Env) (id name : String) (function : Function) :
    ∃ (history : List Event) (r : Nat → Nat),
      List.Forall₂ (fun f g => ∃ past, past <+: history ∧ Frame.Alike r past f g)
        (Emit.states (env.under .pooled) id function)
        (Emit.states (env.under .virtual) id function) ∧
      Lowered.Agree (Lowered.Alike r history)
        (lowerFunction (env.under .pooled) id name function).outcome.1
        (lowerFunction (env.under .virtual) id name function).outcome.1 ∧
      ∀ past, past <+: history →
        (run .pooled past).slotCount ≤ (run .virtual past).slotCount ∧
        ∀ i j a b, (run .virtual past).get? i = some a → (run .virtual past).get? j = some b →
          a.live = true → b.live = true → r a.slot = r b.slot → i = j := by
  obtain ⟨history, hm, hout⟩ := met_lowerFunction env id name function
  have hr := places_slotOf history
  refine ⟨history, (run .pooled history).slotOf, ?_, ?_, fun past hp => ⟨?_, ?_⟩⟩
  · exact hm.imp fun _ _ ⟨past, hp, ht⟩ => ⟨past, hp, ht.alike hp hr⟩
  · exact hout.imp fun _ _ h => h _ hr
  · exact slotCount_run_le past
  · exact fun {i j a b hi} hj ha hb hs => hr.injective hp hi hj ha hb hs

end Moonstack
