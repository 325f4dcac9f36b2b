import Moonstack.Proofs.Emission.Homes
import Moonstack.Proofs.Emission.Resuming

/-!
# Two walks with one count

The lifetimes of locals are found in one walk over a body and used in another, the writing of the
code, and they are counter values. So it matters that both walks count alike. `Emit.paced_body` says
that they do.

Both walks go along the same list of stages. A beat is a stage at which the counter takes a step:
`Survey.bodyBeats` are the beats of the walk that finds the lifetimes, with the counter values
there, and `Emit.bodyBeats` those of the writing. `Emit.Paced` also says at which stage each line is
written, and which of the lines are there to zero a local.
-/

namespace Moonstack

namespace Instr

/-- Does the counter take a step at the stage? It does in front of an instruction, in front of the
second arm of an `if` and at the close of a block. -/
def Stage.isBeat : Stage → Bool
  | .entry _ | .turn _ | .close _ => true
  | .inside _ | .behind _ => false

/-- The beats of a trail, with the counter values there. -/
def beatsOf {α : Type} (clock : Stage → α → Nat) (trail : List (Stage × α)) : List (Stage × Nat) :=
  (trail.filter (·.1.isBeat)).map fun x => (x.1, clock x.1 x.2)

theorem fst_beatsOf {α : Type} (clock : Stage → α → Nat) (trail : List (Stage × α)) :
    (beatsOf clock trail).map Prod.fst = (trail.map Prod.fst).filter Stage.isBeat := by
  rw [beatsOf, List.map_map, List.filter_map]
  rfl

theorem beatsOf_append {α : Type} (clock : Stage → α → Nat) (t t' : List (Stage × α)) :
    beatsOf clock (t ++ t') = beatsOf clock t ++ beatsOf clock t' := by
  rw [beatsOf, List.filter_append, List.map_append]
  rfl

theorem beatsOf_cons {α : Type} {clock : Stage → α → Nat} {s : Stage} {a : α}
    {t : List (Stage × α)} (h : s.isBeat = true) :
    beatsOf clock ((s, a) :: t) = (s, clock s a) :: beatsOf clock t := by
  simp only [beatsOf, List.filter_cons, h, if_true, List.map_cons]

theorem beatsOf_cons_of_not {α : Type} {clock : Stage → α → Nat} {s : Stage} {a : α}
    {t : List (Stage × α)} (h : s.isBeat = false) : beatsOf clock ((s, a) :: t) = beatsOf clock t := by
  simp only [beatsOf, List.filter_cons, h, Bool.false_eq_true, if_false]

/-- The counter steps of an instruction itself. -/
def weight : Instr → Nat
  | leaf _ _ => 1
  | block _ _ _ | loop _ _ _ | ifThen _ _ _ => 2
  | ifElse _ _ _ _ => 3

/-- Where a top-level instruction begins. -/
theorem exists_of_mem_starts {clock t : Nat} {code : List Instr} (h : t ∈ starts clock code) :
    ∃ before i after, code = before ++ i :: after ∧ t = clock + bodyTicks before + 1 := by
  induction code generalizing clock with
  | nil => cases h
  | cons i rest ih =>
    rcases List.mem_cons.1 h with rfl | h
    · exact ⟨[], i, rest, rfl, rfl⟩
    · obtain ⟨before, j, after, rfl, rfl⟩ := ih h
      exact ⟨i :: before, j, after, rfl, by rw [bodyTicks, ← Nat.add_assoc clock]⟩

/-- The counter steps of a body, by kind of instruction. -/
theorem ticks_walk : Walk (fun i => i.ticks = (i.subterms.map weight).sum)
    (fun code => bodyTicks code = ((bodySubterms code).map weight).sum) where
  leaf _ _ := rfl
  encloses {i _ _ inner} hi hinner := by
    have hsum : (i.subterms.map weight).sum = 2 + ((bodySubterms inner).map weight).sum := by
      cases hi <;> rfl
    rw [hi.ticks_eq, hsum, hinner, Nat.add_comm]
  ifElse _ _ inner other hinner hother := by
    rw [ticks, hinner, hother, Nat.add_assoc, ← List.sum_append, ← List.map_append]
    rfl
  nil := rfl
  cons {i rest} hi hrest := by
    rw [bodyTicks, bodySubterms, hi, hrest, List.map_append, List.sum_append]

theorem bodyStages_append (before rest : List Instr) :
    bodyStages (before ++ rest) = bodyStages before ++ bodyStages rest := by
  induction before with
  | nil => rfl
  | cons i before ih => rw [List.cons_append, bodyStages, bodyStages, ih, List.append_assoc]

end Instr

open Instr (Stage Walk bodyStages beatsOf)

namespace Survey

/-- What the walk over a body does at a stage. -/
def stage (s : Survey) : Stage → Survey
  | .entry _ => s.advance
  | .inside (.leaf _ (.localGet index)) => s.read index
  | .inside (.leaf _ (.localSet index)) | .inside (.leaf _ (.localTee index)) => s.write index
  | .inside (.leaf _ _) | .behind _ => s
  | .inside (.loop _ _ _) => s.enter true
  | .inside _ => s.enter false
  | .turn _ => s.alternative
  | .close _ => s.exit

/-- The stages that the walk comes to, each with the state in front of it. -/
def trail (s : Survey) : List Stage → List (Stage × Survey)
  | [] => []
  | t :: rest => (t, s) :: (s.stage t).trail rest

/-- The beats of the walk over a body from the state `s`, with the counter values there. -/
def bodyBeats (s : Survey) (code : List Instr) : List (Stage × Nat) :=
  beatsOf (fun t s => (s.stage t).clock) (s.trail (bodyStages code))

/-- **The walk goes stage by stage.** -/
theorem along_walk : Walk (fun i => ∀ s : Survey, i.stages.foldl stage s = s.instr i)
    (fun code => ∀ s : Survey, (bodyStages code).foldl stage s = s.body code) where
  leaf offset o s := by cases o <;> rfl
  encloses hi hinner s := by
    cases hi <;> simp only [Instr.stages, Instr.around, List.foldl_append, hinner] <;> rfl
  ifElse offset result inner other hinner hother s := by
    simp only [Instr.stages, Instr.around, List.foldl_append, hinner, hother]
    rfl
  nil _ := rfl
  cons hi hrest s := by
    rw [bodyStages, List.foldl_append, hi, hrest]
    rfl

theorem clock_stage (s : Survey) (t : Stage) :
    (s.stage t).clock = s.clock + if t.isBeat then 1 else 0 := by
  unfold stage
  split
  · rfl
  · exact clock_read s _
  · exact clock_write s _
  · exact clock_write s _
  · rfl
  · rfl
  · rfl
  · rfl
  · exact clock_alternative s
  · exact clock_exit s

theorem clock_along (s : Survey) (stages : List Stage) :
    (stages.foldl stage s).clock = s.clock + stages.countP Stage.isBeat := by
  induction stages generalizing s with
  | nil => rfl
  | cons t rest ih =>
    rw [List.foldl_cons, ih, clock_stage, List.countP_cons]
    omega

/-- The counter goes up by one from beat to beat. -/
theorem numbered_trail (s : Survey) (stages : List Stage) :
    (beatsOf (fun t s => (s.stage t).clock) (s.trail stages)).map Prod.snd =
      List.range' (s.clock + 1) (stages.countP Stage.isBeat) := by
  induction stages generalizing s with
  | nil => rfl
  | cons t rest ih =>
    have hclock := clock_stage s t
    rw [trail, List.countP_cons]
    cases ht : t.isBeat with
    | true =>
      rw [ht] at hclock
      rw [Instr.beatsOf_cons ht, List.map_cons, ih, hclock]
      exact List.range'_succ.symm
    | false =>
      rw [ht] at hclock
      rw [Instr.beatsOf_cons_of_not ht, ih, hclock]
      rfl

theorem fst_trail (s : Survey) (stages : List Stage) : (s.trail stages).map Prod.fst = stages := by
  induction stages generalizing s with
  | nil => rfl
  | cons t rest ih => rw [trail, List.map_cons, ih]

/-- The beats of a body are its counter steps. -/
theorem countP_bodyStages (code : List Instr) :
    (bodyStages code).countP Stage.isBeat = Instr.bodyTicks code := by
  have h := clock_along (start 0 0) (bodyStages code)
  rw [along_walk.body, clock_body] at h
  exact (Nat.add_left_cancel h).symm

end Survey

namespace Emit

open Moonstack.Frame

/-- The counter value that the next step takes. -/
def nextClock (_ : Stage) (e : Emission) : Nat := e.frame.tick.clock

/-- The beats of the writing of a body from the state `e`, with the counter values there. -/
def bodyBeats (env : Env) (e : Emission) (code : List Instr) : List (Stage × Nat) :=
  beatsOf nextClock (trail env (bodyStages code) e)

variable {env : Env} {e e₁ e₂ e' p : Emission} {i : Instr} {name : BlockName}
  {result : Option ValueType} {code : List Instr} {s : Stage} {stages : List Stage}

theorem fst_trail (h : along env stages e = .ok () e') :
    (trail env stages e).map Prod.fst = stages := by
  induction stages generalizing e with
  | nil => rfl
  | cons s rest ih =>
    rw [along_cons] at h
    obtain ⟨_, e₁, h₁, h⟩ := ok_of_bind h
    simp only [trail, h₁, List.map_cons, ih h]

/-- A list of stages with one beat, in front. -/
theorem beatsOf_single (hs : s.isBeat = true) (hrest : ∀ t ∈ stages, t.isBeat = false) :
    beatsOf nextClock (trail env (s :: stages) e) = [(s, e.frame.clock + 1)] := by
  have hnone (e : Emission) : beatsOf nextClock (trail env stages e) = [] := by
    rw [beatsOf, List.filter_eq_nil_iff.2, List.map_nil]
    rintro ⟨t, p⟩ ht
    simp [hrest t (mem_of_mem_trail ht)]
  rw [trail, Instr.beatsOf_cons hs]
  split
  · rw [hnone]
    rfl
  · rfl

theorem beatsOf_around {inner : List Stage} (hi : i.opens = some (name, result))
    (h₁ : enter i e = .ok () e₁) (h₂ : along env inner e₁ = .ok () e₂) :
    (beatsOf nextClock (trail env (i.around inner) e)).map Prod.snd =
      (e.frame.clock + 1) ::
        ((beatsOf nextClock (trail env inner e₁)).map Prod.snd ++ [e₂.frame.clock + 1]) := by
  have hfront : along env [.entry i, .inside i] e = .ok () e₁ := along_enter hi ▸ h₁
  rw [Instr.around, trail_append hfront, trail_append h₂, Instr.beatsOf_append, Instr.beatsOf_append,
    beatsOf_single rfl (by simp [Stage.isBeat]), beatsOf_single rfl (by simp [Stage.isBeat]),
    List.map_append, List.map_append]
  rfl

theorem beatsOf_arms {e₃ : Emission} {inner other : List Stage} (h : along env inner e = .ok () e₁)
    (hturn : turn e₁ = .ok () e₂) (h' : along env other e₂ = .ok () e₃) :
    along env (inner ++ ([.turn i] ++ other)) e = .ok () e₃ ∧
      (beatsOf nextClock (trail env (inner ++ ([.turn i] ++ other)) e)).map Prod.snd =
        (beatsOf nextClock (trail env inner e)).map Prod.snd ++
          (e₁.frame.clock + 1) :: (beatsOf nextClock (trail env other e₂)).map Prod.snd := by
  have hstage : along env [.turn i] e₁ = .ok () e₂ := by
    rw [along_cons, along_nil, bind_pure_unit]
    exact hturn
  constructor
  · rw [along_append, along_append]
    exact (bind_ok h).trans ((bind_ok hstage).trans h')
  · rw [trail_append h, trail_append hstage, Instr.beatsOf_append, Instr.beatsOf_append,
      beatsOf_single rfl (by simp), List.map_append]
    rfl

/-- The counter values of a structured instruction, from those inside it. -/
theorem range'_around {first count last : Nat} {inner : List Nat}
    (h : inner = List.range' (first + 1) count) (hl : last = first + 1 + count) :
    first :: (inner ++ [last]) = List.range' first (count + 2) := by
  rw [h, hl, List.range'_succ, List.range'_1_concat]

/-- **The counter goes up by one from beat to beat** of the writing. -/
theorem numbered_walk : Walk
    (fun i => ∀ {e e' : Emission}, instr env i e = .ok () e' →
      (beatsOf nextClock (trail env i.stages e)).map Prod.snd = List.range' (e.frame.clock + 1) i.ticks)
    (fun code => ∀ {e e' : Emission}, body env code e = .ok () e' →
      (bodyBeats env e code).map Prod.snd =
        List.range' (e.frame.clock + 1) (Instr.bodyTicks code)) where
  leaf offset o e e' _ := by
    rw [Instr.stages, beatsOf_single rfl (by simp [Stage.isBeat])]
    rfl
  encloses {i name result inner} hi hinner e e' hx := by
    rw [instr_of_encloses hi] at hx
    obtain ⟨_, e₁, h₁, hx⟩ := ok_of_bind hx
    obtain ⟨_, e₂, h₂, -⟩ := ok_of_bind hx
    have hc₁ : e₁.frame.clock = e.frame.clock + 1 := by
      rw [frame_of_enter hi.opens_eq h₁]
      exact clock_opened _ _ _ (Moved.opening e.frame name.kind).ticks
    obtain ⟨-, _, hk⟩ := keeps_of_body h₂
    rw [hi.stages_eq, beatsOf_around hi.opens_eq h₁ (along_walk.body inner ▸ h₂), hi.ticks_eq]
    refine range'_around (hc₁ ▸ hinner h₂) ?_
    rw [hk.moved.ticks, hc₁]
    omega
  ifElse offset result inner other hinner hother e e' hx := by
    rw [instr_ifElse] at hx
    obtain ⟨_, e₃, h₃, hx⟩ := ok_of_bind hx
    obtain ⟨_, e₄, h₄, -⟩ := ok_of_bind hx
    obtain ⟨-, g, _, hk, hg⟩ := keeps_of_untilAlternative h₃
    obtain ⟨_, e₁, h₁, h₃⟩ := ok_of_bind h₃
    obtain ⟨_, e₂, h₂, hturn⟩ := ok_of_bind h₃
    obtain ⟨-, _, hk₂⟩ := keeps_of_body h₂
    obtain ⟨-, _, hk₄⟩ := keeps_of_body h₄
    have hc₁ : e₁.frame.clock = e.frame.clock + 1 := by
      rw [frame_of_enter rfl h₁]
      exact clock_opened _ _ _ (clock_popped e.frame)
    have hc₂ := hk₂.moved.ticks
    have hc₃ : e₃.frame.clock = e₂.frame.clock + 1 := by
      rw [hg, clock_turned (clock_opened _ _ _ (clock_popped e.frame)) hk.moved]
      omega
    obtain ⟨harms, hbeats⟩ := beatsOf_arms (i := .ifElse offset result inner other)
      (along_walk.body inner ▸ h₂) hturn (along_walk.body other ▸ h₄)
    rw [Instr.stages, beatsOf_around rfl h₁ harms, Instr.ticks, Nat.add_assoc, Nat.add_comm 3]
    refine range'_around ?_ ?_
    · rw [hbeats, ← bodyBeats, ← bodyBeats, hinner h₂, hother h₄, hc₃, ← hc₁, hc₂,
        Nat.add_right_comm, ← List.range'_succ]
      exact List.range'_append_1
    · rw [hk₄.moved.ticks]
      omega
  nil _ := rfl
  cons {i rest} hi hrest e e' hx := by
    rw [body] at hx
    obtain ⟨_, e₁, h₁, hx⟩ := ok_of_bind hx
    obtain ⟨-, _, hk⟩ := keeps_of_ok h₁
    rw [bodyBeats, bodyStages, trail_append (along_walk.instr i ▸ h₁), Instr.beatsOf_append,
      List.map_append, hi h₁, ← bodyBeats, hrest hx, hk.moved.ticks, Nat.add_right_comm]
    exact List.range'_append_1

/-- **The writing of a body takes the beats of the walk over it, at the same counter values.** -/
theorem bodyBeats_eq (h : body env code e = .ok () e') {s : Survey} (hc : s.clock = e.frame.clock) :
    bodyBeats env e code = s.bodyBeats code := by
  have halong : along env (bodyStages code) e = .ok () e' := along_walk.body code ▸ h
  have hstages : (bodyBeats env e code).map Prod.fst = (bodyStages code).filter Stage.isBeat := by
    rw [bodyBeats, Instr.fst_beatsOf, fst_trail halong]
  have hstages' : (s.bodyBeats code).map Prod.fst = (bodyStages code).filter Stage.isBeat := by
    rw [Survey.bodyBeats, Instr.fst_beatsOf, Survey.fst_trail]
  have hnumbers : (s.bodyBeats code).map Prod.snd =
      List.range' (e.frame.clock + 1) (Instr.bodyTicks code) := by
    rw [← hc, ← Survey.countP_bodyStages]
    exact Survey.numbered_trail _ _
  rw [List.zip_of_prod hstages (numbered_walk.body code h)]
  exact (List.zip_of_prod hstages' hnumbers).symm

theorem nodup_bodyBeats (h : body env code e = .ok () e') :
    ((bodyBeats env e code).map Prod.snd).Nodup := by
  rw [numbered_walk.body code h]
  exact List.nodup_range'

theorem body_append (before rest : List Instr) :
    body env (before ++ rest) = (do body env before; body env rest) := by
  induction before with
  | nil => rw [List.nil_append, body, pure_bind]
  | cons i before ih => rw [List.cons_append, body, body, ih, bind_assoc]

/-- What is known where the writing of a body starts. -/
theorem Starts.fresh (h : Starts env code e) : e.frame.clock = 0 ∧ e.frame.blocks = [] ∧
    e.frame.lifetimes = .ofBody code e.frame.localTypes.length e.frame.paramCount := by
  cases h with
  | @function id function signature params e h =>
    have hm := (moved_entered env id function signature).1
    rw [frame_of_ok (writes_params (function.startFrame env id signature)) rfl h, hm.ticks,
      hm.blocks, hm.lifetimes, hm.localTypes, hm.paramCount]
    exact ⟨rfl, rfl, rfl⟩
  | initializer => exact ⟨rfl, rfl, rfl⟩

/-! ## The lines of the stages -/

/-- The lines that are written at a stage. -/
def linesAt (env : Env) (x : Stage × Emission) : List Line :=
  match stage env x.1 x.2 with
  | .ok _ e | .error _ e => e.code.drop x.2.code.length

theorem code_eq_linesAt (h : stage env s p = .ok () e) : e.code = p.code ++ linesAt env (s, p) := by
  simp only [linesAt, h]
  exact (List.prefix_iff_eq_append.1 (code_prefix_stage h)).symm

/-- All lines are written at the stages, one after the other. -/
theorem code_along (h : along env stages e = .ok () e') :
    e'.code = e.code ++ (trail env stages e).flatMap (linesAt env) := by
  induction stages generalizing e with
  | nil =>
    cases h
    exact (List.append_nil _).symm
  | cons s rest ih =>
    rw [along_cons] at h
    obtain ⟨_, e₁, h₁, h⟩ := ok_of_bind h
    simp only [trail, h₁, List.flatMap_cons]
    rw [ih h, code_eq_linesAt h₁, List.append_assoc]

theorem linesAt_entry (env : Env) (i : Instr) (p : Emission) :
    linesAt env (.entry i, p) = p.frame.beginCode i := by
  obtain ⟨q, hq, -, hcode⟩ := (keeps_begin i p.frame []).writes p rfl
  have hstage : stage env (.entry i) p = .ok () q := hq
  exact List.append_cancel_left ((code_eq_linesAt hstage).symm.trans hcode)

/-- Along the writing, frames only go on. -/
theorem guides_later (env : Env) (f₀ : Frame) :
    Guides env (fun f _ => f₀.Later f) (fun f _ => f₀.Later f) where
  head h := h
  tail h _ hk := h.trans hk.moved.toLater
  inner _ h := h.trans ((Moved.opening _ _).toLater.trans (later_openBlock _ _ _))
  firstArm h := h.trans ((Moved.opening _ .cond).toLater.trans (later_openBlock _ _ _))
  secondArm h _ hk := h.trans ((Moved.opening _ .cond).toLater.trans
    ((later_openBlock _ _ _).trans (hk.moved.toLater.trans (later_turned _ _))))

theorem BodyArrives.lifetimes_eq (ha : BodyArrives env code e i p) :
    p.frame.lifetimes = e.frame.lifetimes :=
  ((guides_later env e.frame).walk.body code (.refl _) ha).lifetimes

/-! ## The locals to zero -/

/-- The locals that are to be zeroed at a stage, each with the counter value there. -/
def zeroedAt : Stage × Emission → List (Nat × Nat)
  | (.entry _, p) =>
    (p.frame.lifetimes.forcedAt p.frame.tick.clock).map fun l => (p.frame.tick.clock, l)
  | _ => []

theorem mem_zeroedAt {x : Stage × Emission} {t l : Nat} : (t, l) ∈ zeroedAt x ↔
    ∃ i p, x = (.entry i, p) ∧ p.frame.tick.clock = t ∧ (t, l) ∈ p.frame.lifetimes.forced := by
  constructor
  · intro h
    obtain ⟨s, p⟩ := x
    cases s with
    | entry i =>
      obtain ⟨l, hl, h⟩ := List.mem_map.1 h
      cases h
      exact ⟨i, p, rfl, rfl, mem_forcedAt hl⟩
    | _ => cases h
  · rintro ⟨i, p, rfl, rfl, h⟩
    exact List.mem_map_of_mem
      (List.mem_map.2 ⟨_, List.mem_filter.2 ⟨h, beq_self_eq_true p.frame.tick.clock⟩, rfl⟩)

/-- At different beats, different locals are zeroed. -/
theorem nodup_zeroedAt {t : List (Stage × Emission)} (hn : ((beatsOf nextClock t).map Prod.snd).Nodup)
    (hd : ∀ {i p}, (.entry i, p) ∈ t → (p.frame.lifetimes.forced.map Prod.snd).Nodup) :
    (t.flatMap zeroedAt).Nodup := by
  rw [beatsOf, List.map_map] at hn
  refine List.nodup_flatMap.2 ⟨fun x hx => ?_,
    (List.pairwise_filter.1 (List.pairwise_map.1 hn)).imp fun hne => ?_⟩
  · obtain ⟨s, p⟩ := x
    cases s with
    | entry i =>
      refine List.Nodup.map (fun _ _ h => (Prod.mk.inj h).2) ?_
      exact (List.filter_sublist.map _).nodup (hd hx)
    | _ => exact List.nodup_nil
  · rintro ⟨t, l⟩ hl hl'
    obtain ⟨i, p, rfl, hp, -⟩ := mem_zeroedAt.1 hl
    obtain ⟨j, q, rfl, hq, -⟩ := mem_zeroedAt.1 hl'
    exact hne rfl rfl (hp.trans hq.symm)

/-- The writing comes to a beat once. -/
theorem beat_unique {t : List (Stage × Emission)} (hn : ((beatsOf nextClock t).map Prod.snd).Nodup)
    {x y : Stage × Emission} (hx : x ∈ t) (hy : y ∈ t) (hbx : x.1.isBeat = true)
    (hby : y.1.isBeat = true) (hc : x.2.frame.clock = y.2.frame.clock) : x = y := by
  rw [beatsOf, List.map_map] at hn
  exact List.inj_on_of_nodup_map hn (List.mem_filter.2 ⟨hx, hbx⟩) (List.mem_filter.2 ⟨hy, hby⟩)
    (congrArg (· + 1) hc)

/-- The writing comes to the instructions of the body itself. -/
theorem arrives_top {before rest : List Instr}
    (h : body env (before ++ i :: rest) e = .ok () e') :
    ∃ p, body env before e = .ok () p ∧ BodyArrives env (before ++ i :: rest) e i p := by
  rw [body_append] at h
  obtain ⟨_, p, h₁, -⟩ := ok_of_bind h
  refine ⟨p, h₁, ?_⟩
  rw [BodyArrives, Instr.bodyStages_append, trail_append (along_walk.body before ▸ h₁)]
  exact List.mem_append_right _ (arrives_cons.2 (.inl (.self i p)))

/-- A local of the table is zeroed in front of a top-level instruction. -/
theorem Starts.placed (hs : Starts env code e) (h : body env code e = .ok () e') {t l : Nat}
    (ht : (t, l) ∈ e.frame.lifetimes.forced) : ∃ before i after p,
      code = before ++ i :: after ∧ body env before e = .ok () p ∧ BodyArrives env code e i p ∧
        (t, l) ∈ zeroedAt (.entry i, p) ∧ p.frame.blocks = [] := by
  obtain ⟨hclock, hblocks, hlifetimes⟩ := hs.fresh
  obtain ⟨before, i, after, rfl, rfl⟩ :=
    Instr.exists_of_mem_starts (starts_of_forced (hlifetimes ▸ ht))
  obtain ⟨p, hp, ha⟩ := arrives_top h
  obtain ⟨-, _, hk⟩ := keeps_of_body hp
  refine ⟨before, i, after, p, rfl, hp, ha, mem_zeroedAt.2 ⟨i, p, rfl, ?_, ha.lifetimes_eq ▸ ht⟩,
    hk.moved.blocks.trans hblocks⟩
  change p.frame.clock + 1 = _
  rw [hk.moved.ticks, hclock]

/-- Over all stages, the locals of the table are zeroed, each of them once. -/
theorem Starts.perm_zeroedAt (hs : Starts env code e) (h : body env code e = .ok () e') :
    ((trail env (bodyStages code) e).flatMap zeroedAt).Perm e.frame.lifetimes.forced := by
  have hd : (e.frame.lifetimes.forced.map Prod.snd).Nodup :=
    hs.fresh.2.2 ▸ nodup_forced_ofBody _ _ _
  have hzeroed := nodup_zeroedAt (nodup_bodyBeats h)
    fun ha => (BodyArrives.lifetimes_eq ha).symm ▸ hd
  refine (List.perm_ext_iff_of_nodup hzeroed hd.of_map).2 ?_
  rintro ⟨t, l⟩
  constructor
  · intro hl
    obtain ⟨x, hx, hl⟩ := List.mem_flatMap.1 hl
    obtain ⟨i, p, rfl, -, hl⟩ := mem_zeroedAt.1 hl
    exact BodyArrives.lifetimes_eq hx ▸ hl
  · intro ht
    obtain ⟨-, i, -, p, -, -, ha, hz, -⟩ := hs.placed h ht
    exact List.mem_flatMap.2 ⟨_, ha, hz⟩

/-- Inside a block no local is zeroed: the counter value would be that of a top-level instruction. -/
theorem Starts.zeroedAt_eq_nil (hs : Starts env code e) (h : body env code e = .ok () e')
    (ha : BodyArrives env code e i p) (hopen : p.frame.blocks ≠ []) : zeroedAt (.entry i, p) = [] := by
  refine List.eq_nil_iff_forall_not_mem.2 ?_
  rintro ⟨t, l⟩ hl
  obtain ⟨_, _, hx, rfl, hl⟩ := mem_zeroedAt.1 hl
  cases hx
  obtain ⟨-, j, -, q, -, -, ha', hz, hb⟩ := hs.placed h (ha.lifetimes_eq ▸ hl)
  obtain ⟨_, _, hx, hc, -⟩ := mem_zeroedAt.1 hz
  cases hx
  cases beat_unique (nodup_bodyBeats h) ha ha' rfl rfl (Nat.succ.inj hc.symm)
  exact hopen hb

/-- The walk over a body and its writing, from `e` to `e'`, go in step. -/
structure Paced (env : Env) (code : List Instr) (e e' : Emission) : Prop where
  lifetimes : e.frame.lifetimes = .ofBody code e.frame.localTypes.length e.frame.paramCount
  beats : bodyBeats env e code =
    (Survey.start e.frame.localTypes.length e.frame.paramCount).bodyBeats code
  numbered : (bodyBeats env e code).map Prod.snd = List.range' 1 e.frame.lifetimes.ticks
  clock : e'.frame.clock = e.frame.lifetimes.ticks
  total : e.frame.lifetimes.ticks = ((Instr.bodySubterms code).map Instr.weight).sum
  /-- Every line is written at one of the stages. -/
  written : e'.code = e.code ++ (trail env (bodyStages code) e).flatMap (linesAt env)
  /-- At the begin of an instruction, each of the locals to zero gets one line, and there is no other
  line but a comment. -/
  zeroes : ∀ {i p}, BodyArrives env code e i p → linesAt env (.entry i, p) =
    p.frame.tick.zeroCode ((zeroedAt (.entry i, p)).map Prod.snd) ++
      if p.frame.debug.instructions then [.comment s!"{i.mnemonic} @{i.offset}"] else []
  /-- Over all stages, the locals that are zeroed are those of the table, each of them once. -/
  once : ((trail env (bodyStages code) e).flatMap zeroedAt).Perm e.frame.lifetimes.forced
  /-- Inside a block no local is zeroed. -/
  outside : ∀ {i p}, BodyArrives env code e i p → p.frame.blocks ≠ [] → zeroedAt (.entry i, p) = []
  /-- A local is zeroed in front of the top-level instruction that it is noted for, where no block is
  open. -/
  placed : ∀ {t l}, (t, l) ∈ e.frame.lifetimes.forced → ∃ before i after p,
    code = before ++ i :: after ∧ body env before e = .ok () p ∧ BodyArrives env code e i p ∧
      (t, l) ∈ zeroedAt (.entry i, p) ∧ p.frame.blocks = []

end Emit

end Moonstack
