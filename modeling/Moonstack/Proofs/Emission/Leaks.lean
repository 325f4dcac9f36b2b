import Moonstack.Proofs.Emission.Arrivals
import Moonstack.Proofs.Frame.Operations
import Moonstack.Proofs.Lifetimes.Ends
import Moonstack.Proofs.Simulation.Functions

/-!
# No register leaks

Behind every instruction, of the body of a function or of a body inside it, a live register has
exactly one owner that will free it (`Frame.Leakless`): the operand stack, the queue of the locals
whose value is needed later, or an open block that will receive a value.

`Emit.Between env code e p` says that the writing of `code` from the state `e` passes through the
state `p` behind an instruction. Every such state is leakless, and at the end of a function, where no
block is open and no value is needed later, only the operand stack is left as an owner
(`leakless_lowerFunction`).
-/

namespace Moonstack

namespace Frame

/-- Who frees a live register. -/
inductive Owner where
  | stack
  | queue
  | block

def OwnedBy (f : Frame) (id : RegisterId) : Owner → Prop
  | .stack => .register id ∈ f.stack
  | .queue => ∃ r l last, f.registers.get? id = some r ∧ r.boundTo = some l ∧
      f.locals[l]? = some (some id) ∧ id ∈ f.pending ∧ r.lastRef = some last ∧ f.clock < last
  | .block => ∃ b ∈ f.blocks, b.register = some id ∧
      ∃ r, f.registers.get? id = some r ∧ r.boundTo = none ∧ .register id ∉ f.stack

/-- Every live register has exactly one owner, and open blocks do not share registers. -/
structure Leakless (f : Frame) : Prop where
  owner : ∀ id, f.isLive id = true → ∃! o, f.OwnedBy id o
  distinct : (f.blocks.filterMap Block.register).Nodup

variable {f : Frame} {held : List RegisterId} {id : RegisterId}

theorem OwnedBy.of_block (ho : f.Owned []) (h : id ∈ f.reserved []) : f.OwnedBy id .block := by
  obtain ⟨r, hr, -, hb, -⟩ := ho.kept h
  have hn := ho.kept_not_stacked h
  rw [reserved, List.append_nil] at h
  obtain ⟨b, hm, hid⟩ := List.mem_filterMap.1 h
  exact ⟨b, hm, hid, r, hr, hb, hn⟩

theorem OwnedBy.of_pending (ho : f.Owned []) (hp : f.Punctual) (h : id ∈ f.pending) :
    f.OwnedBy id .queue ∧ .register id ∉ f.stack := by
  obtain ⟨r, hr, hl, hz, hlast⟩ := hp id h
  obtain ⟨hb, hlast⟩ := Bool.and_eq_true_iff.1 hlast
  obtain ⟨l, hbound⟩ := Option.isSome_iff_exists.1 hb
  obtain ⟨last, hlast, hlt⟩ := (Option.any_eq_true _ _).1 hlast
  refine ⟨⟨r, l, last, hr, hbound, ho.named hr hl hbound, h, hlast, of_decide_eq_true hlt⟩, ?_⟩
  rw [ho.refs hr] at hz
  exact List.count_eq_zero.1 hz

/-- An owner excludes the others. -/
theorem OwnedBy.unique (ho : f.Owned []) (hp : f.Punctual) {o o' : Owner} (h : f.OwnedBy id o)
    (h' : f.OwnedBy id o') : o = o' := by
  have hqueue : f.OwnedBy id .queue → .register id ∉ f.stack := fun ⟨_, _, _, _, _, _, hm, _⟩ =>
    (of_pending ho hp hm).2
  have hblock : f.OwnedBy id .block → .register id ∉ f.stack := fun ⟨_, _, _, _, _, _, hn⟩ => hn
  have hboth : f.OwnedBy id .queue → ¬ f.OwnedBy id .block := by
    rintro ⟨r, l, last, hr, hl, -⟩ ⟨b, -, -, r', hr', hn, -⟩
    cases hr.symm.trans hr'
    rw [hl] at hn
    cases hn
  cases o <;> cases o'
  case stack.stack | queue.queue | block.block => rfl
  case stack.queue => exact absurd h (hqueue h')
  case stack.block => exact absurd h (hblock h')
  case queue.stack => exact absurd h' (hqueue h)
  case block.stack => exact absurd h' (hblock h)
  case queue.block => exact absurd h' (hboth h)
  case block.queue => exact absurd h (hboth h')

/-- Ownership, an account of every register and a queue in order make a frame leakless. -/
theorem leakless_of (ho : f.Owned []) (ha : f.Accounted []) (hp : f.Punctual) : f.Leakless where
  owner i hi := by
    obtain ⟨r, hr, hl⟩ := (Option.any_eq_true _ _).1 hi
    obtain ⟨o, h⟩ : ∃ o, f.OwnedBy i o := by
      by_cases hz : r.stackRefs = 0
      · rcases ha i r hr hl hz with hm | ⟨-, hm⟩
        · exact ⟨.block, .of_block ho hm⟩
        · exact ⟨.queue, (OwnedBy.of_pending ho hp hm).1⟩
      · rw [ho.refs hr] at hz
        exact ⟨.stack, List.count_pos_iff.1 (Nat.pos_of_ne_zero hz)⟩
    exact ⟨o, h, fun o' h' => h'.unique ho hp h⟩
  distinct := by
    have hn := ho.nodup
    rwa [reserved, List.append_nil] at hn

/-- In a leakless frame without open blocks, in which no value is needed later, exactly what is on
the stack is live. -/
theorem isLive_iff (ho : f.Owned []) (h : f.Leakless) (hb : f.blocks = [])
    (hlast : ∀ l last, f.lifetimes.lastRef l = some last → last ≤ f.clock) (i : RegisterId) :
    f.isLive i = true ↔ .register i ∈ f.stack := by
  constructor
  · intro hi
    obtain ⟨o, hown, -⟩ := h.owner i hi
    cases o with
    | stack => exact hown
    | queue =>
      obtain ⟨r, l, last, hr, -, hbound, -, hl, hlt⟩ := hown
      obtain ⟨r', hr', -, -, hl'⟩ := ho.bound hbound
      cases hr.symm.trans hr'
      have := hlast l last (hl'.symm.trans hl)
      omega
    | block =>
      obtain ⟨b, hm, -⟩ := hown
      rw [hb] at hm
      cases hm
  · intro hi
    obtain ⟨r, hr, hl⟩ := ho.stacked hi
    exact (Option.any_eq_true _ _).2 ⟨r, hr, hl⟩

end Frame

namespace Emit

open Moonstack.Frame

variable {env : Env} {f g : Frame} {e e' p : Emission} {code : List Line}

/-- An instruction ends with a look at the registers that wait. -/
theorem finished_instr {i : Instr} (hwide : i.hasWide env.options.branchTableLimit = false)
    (hw : Writes (instr env i) f () g code) : ∃ k : Frame, g = k.finished := by
  have hone {name : BlockName} {result : Option ValueType} {inner : List Instr}
      (hi : i.Encloses name result inner)
      (hwide : Instr.bodyHasWide env.options.branchTableLimit inner = false) :
      ∃ k : Frame, g = k.finished := by
    obtain ⟨b, k, lines, -, -, hg, -⟩ := written_encloses hi hwide hw
    exact ⟨_, hg⟩
  cases i with
  | leaf offset o =>
    obtain ⟨_, k, lines, ho⟩ := succeeds_op f.begun [] hwide offset
    exact ⟨k, (hw.unique (writes_leaf ho.writes)).2.1⟩
  | block offset result inner => exact hone (.block offset result inner) hwide
  | loop offset result inner => exact hone (.loop offset result inner) hwide
  | ifThen offset result inner => exact hone (.ifThen offset result inner) hwide
  | ifElse offset result inner other =>
    rw [Instr.hasWide, Bool.or_eq_false_iff] at hwide
    obtain ⟨b, k, lines, k', lines', -, -, -, hg, -⟩ := written_ifElse hwide.1 hwide.2 hw
    exact ⟨_, hg⟩

/-- What holds behind an instruction. -/
theorem leakless_instr {i : Instr} (h : instr env i e = .ok () p) (ho : e.frame.Owned [])
    (ha : e.frame.Accounted []) : p.frame.Owned [] ∧ p.frame.Accounted [] ∧ p.frame.Leakless := by
  obtain ⟨hwide, lines, hk⟩ := keeps_of_ok h
  obtain ⟨k, hg⟩ := finished_instr hwide hk.writes
  have hpunctual : p.frame.Punctual := hg ▸ punctual_drained _
  exact ⟨hk.owned ho, hk.accounted ho ha,
    leakless_of (hk.owned ho) (hk.accounted ho ha) hpunctual⟩

/-- What holds behind a body. -/
theorem leakless_body {code : List Instr} (h : body env code e = .ok () p) (ho : e.frame.Owned [])
    (ha : e.frame.Accounted []) (hl : e.frame.Leakless) : p.frame.Owned [] ∧ p.frame.Leakless := by
  induction code generalizing e with
  | nil =>
    cases h
    exact ⟨ho, hl⟩
  | cons i rest ih =>
    obtain ⟨_, e₁, hi, hrest⟩ := ok_of_bind h
    obtain ⟨ho₁, ha₁, hl₁⟩ := leakless_instr hi ho ha
    exact ih hrest ho₁ ha₁ hl₁

/-- In front of all instructions, no register is in hand and none is lost. -/
theorem guides_accounted (env : Env) : Guides env (fun f _ => f.Owned [] ∧ f.Accounted [])
    (fun f _ => f.Owned [] ∧ f.Accounted []) where
  head h := h
  tail h _ hk := ⟨hk.owned h.1, hk.accounted h.1 h.2⟩
  inner _ h := ⟨(h.1.opening _).openBlock _ _, (h.2.opening h.1 _).openBlock _ _⟩
  firstArm h := ⟨(h.1.opening .cond).openBlock _ _, (h.2.opening h.1 .cond).openBlock _ _⟩
  secondArm {f g offset result _ _ _} h _ hk := by
    have hg := (Within.opened f.begun.popped ⟨.cond, offset⟩ result).moved hk.moved
    have ho := (h.1.opening .cond).openBlock ⟨.cond, offset⟩ result
    have ha := (h.2.opening h.1 .cond).openBlock ⟨.cond, offset⟩ result
    exact ⟨hg.owned_turned (hk.owned ho), hg.accounted_turned (hk.owned ho) (hk.accounted ho ha)⟩

/-- **Behind every instruction no register leaks.** -/
theorem leakless_between {code : List Instr} (h : Between env code e p) (ho : e.frame.Owned [])
    (ha : e.frame.Accounted []) : p.frame.Leakless := by
  obtain ⟨i, hp⟩ := h
  obtain ⟨q, hq, hi⟩ := behind_walk.body code hp
  obtain ⟨ho', ha'⟩ := (guides_accounted env).walk.body code ⟨ho, ha⟩ hq
  exact (leakless_instr hi ho' ha').2.2

end Emit

namespace Frame

variable {f : Frame} {held : List RegisterId} {indices : List Nat}

/-- While the parameters get their registers, these are in hand. -/
theorem Accounted.bindAll (ha : f.Accounted held) (ho : f.Owned []) (done : List Nat)
    (hd : ∀ i ∈ held, ∃ l ∈ done, f.locals[l]? = some (some i))
    (hi : ∀ l ∈ indices, l < f.localTypes.length) :
    ∃ held', (f.bindAll indices).Accounted held' ∧
      ∀ i ∈ held', ∃ l ∈ done ++ indices, (f.bindAll indices).locals[l]? = some (some i) := by
  induction indices generalizing f held done with
  | nil => exact ⟨held, ha, by simpa [Frame.bindAll] using hd⟩
  | cons index rest ih =>
    obtain ⟨ho', hb⟩ := ho.localRegister (hi index List.mem_cons_self)
    obtain ⟨held', ha', hd'⟩ := ih (ha.localRegister index) ho' (done ++ [index])
      (fun i hm => by
        rcases List.mem_cons.1 hm with rfl | hm
        · exact ⟨index, by simp, hb⟩
        · obtain ⟨l, hl, hbound⟩ := hd i hm
          exact ⟨l, List.mem_append_left _ hl, bound_localRegister hbound⟩)
      (fun l hl => by
        rw [(f.later_localRegister index).localTypes]
        exact hi l (List.mem_cons_of_mem _ hl))
    exact ⟨held', ha', by simpa [Frame.bindAll, List.append_assoc] using hd'⟩

/-- When the access to each of them has ended, they are accounted for. -/
theorem Accounted.accessedAll (ha : f.Accounted held)
    (hd : ∀ i ∈ held, ∃ l ∈ indices, f.locals[l]? = some (some i)) :
    (f.accessedAll indices).Accounted [] := by
  induction indices generalizing f held with
  | nil =>
    refine ha.mono fun i hi => ?_
    obtain ⟨l, hl, -⟩ := hd i hi
    cases hl
  | cons index rest ih =>
    cases hj : (f.locals[index]?).join with
    | none =>
      have hf : f.accessed index = f := by simp only [Frame.accessed, hj]
      refine ih (f := f.accessed index) (hf.symm ▸ ha) fun i hi => ?_
      obtain ⟨l, hl, hbound⟩ := hd i hi
      rcases List.mem_cons.1 hl with rfl | hl
      · rw [hbound] at hj
        cases hj
      · exact ⟨l, hl, hf.symm ▸ hbound⟩
    | some id =>
      have hb := Option.join_eq_some_iff.1 hj
      have hf : f.accessed index = f.freed id := by simp only [Frame.accessed, hj]
      have hmono : f.Accounted (id :: held.filter (· ≠ id)) := ha.mono fun i hi => by
        by_cases he : i = id <;> simp [he, hi]
      refine ih (f := f.accessed index) (hmono.accessedHeld hb) fun i hi => ?_
      obtain ⟨hi, hne⟩ := List.mem_filter.1 hi
      have hne : id ≠ i := fun he => by simp [he] at hne
      obtain ⟨l, hl, hbound⟩ := hd i hi
      rcases List.mem_cons.1 hl with rfl | hl
      · rw [hb] at hbound
        cases hbound
        exact absurd rfl hne
      · exact ⟨l, hl, hf.symm ▸ Owned.bound_freed hbound hne⟩

theorem Punctual.accessedAll (h : f.Punctual) (indices : List Nat) :
    (f.accessedAll indices).Punctual := by
  induction indices generalizing f with
  | nil => exact h
  | cons index rest ih => exact ih (h.accessed index)

theorem pending_bindAll (f : Frame) (indices : List Nat) :
    (f.bindAll indices).pending = f.pending := by
  induction indices generalizing f with
  | nil => rfl
  | cons index rest ih =>
    refine (ih (f.localRegister index).2).trans ?_
    unfold localRegister
    split
    · rfl
    · simp only [noteIf_eq]

end Frame

section

open Moonstack.Frame Emit

variable (env : Env) (id : String) (function : Function) (signature : Signature)

/-- In front of the body, every parameter is accounted for. -/
theorem accounted_entered : (function.startFrame env id signature).entered.Accounted [] := by
  have hstart : (function.startFrame env id signature).Accounted [] :=
    fun i a hi => by simp [startFrame, Frame.start, Registers.get?] at hi
  have hparams : ∀ l ∈ List.range signature.params.length,
      l < (function.startFrame env id signature).localTypes.length := by
    intro l hl
    rw [List.mem_range] at hl
    exact Nat.lt_of_lt_of_le hl (by simp [startFrame, Frame.start])
  obtain ⟨held, ha, hd⟩ :=
    hstart.bindAll (owned_startFrame env id function signature) [] (by simp) hparams
  exact ha.accessedAll hd

theorem punctual_entered : (function.startFrame env id signature).entered.Punctual :=
  (Punctual.of_pending (pending_bindAll _ _)).accessedAll _

variable {env id function} {name : String} {lowered : Lowered}

/-- **No register leaks.** When a function is written, every live register has exactly one owner in
front of its body and behind every instruction, at any depth of nesting; behind the whole body, what
is live is exactly what the operand stack refers to. -/
theorem leakless_lowerFunction
    (h : (lowerFunction env id name function).outcome.1 = .ok lowered) :
    ∃ signature params e e', env.registry.types[function.type]? = some signature ∧
      Emit.params signature.params.length
        { frame := startFrame env id (some signature) function.locals function.body } =
        .ok params e ∧
      e.frame.Leakless ∧ (∀ p, Between env function.body e p → p.frame.Leakless) ∧
      Emit.body env function.body e = .ok () e' ∧
      ∀ r, e'.frame.isLive r = true ↔ .register r ∈ e'.frame.stack := by
  obtain ⟨signature, f, g, code, hs, hover, hf, hw, -⟩ := written_lowerFunction h
  have ho : f.entered.Owned [] := hf ▸ (stands_entered env id function signature).owned
  have ha : f.entered.Accounted [] := hf ▸ accounted_entered env id function signature
  have hp : f.entered.Punctual := hf ▸ punctual_entered env id function signature
  obtain ⟨e, he, hef, -⟩ := writes_params f { frame := f } rfl
  obtain ⟨e', he', hg, -⟩ := hw e hef
  have hcount : f.paramCount = signature.params.length := by rw [hf]; rfl
  rw [← hef] at ho ha hp
  rw [hcount, hf] at he
  have hl := leakless_of ho ha hp
  refine ⟨signature, _, e, e', hs, he, hl, fun p hbetween => leakless_between hbetween ho ha, he',
    ?_⟩
  -- behind the body no block is open, and all its counter steps have been made
  rw [Options.oversized, Bool.or_eq_false_iff] at hover
  obtain ⟨_, g', lines, hk⟩ := succeeds_body hover.2 f.entered
  have hend : Moved (0 + Instr.bodyTicks function.body) f e'.frame := by
    rw [frame_of_ok hk.writes hef he', hf]
    exact (moved_entered env id function signature).1.trans (hf ▸ hk.moved)
  obtain ⟨ho', hl'⟩ := leakless_body he' ho ha hl
  refine isLive_iff ho' hl' (by rw [hend.blocks, hf]; rfl) fun l last hlast => ?_
  rw [hend.lifetimes, hf] at hlast
  rw [hend.ticks, hf]
  have hle := Lifetimes.lastRef_le hlast
  omega

/-- A parameter stays on the stack while a block, which assigns it, and a loop, which reads it, are
written. -/
def reassigned : Function where
  name := none
  type := 0
  locals := [.i32]
  body := [
    .leaf 0 (.localGet 0),
    .block 2 (some .i32) [
      .leaf 4 (.localGet 1), .leaf 6 (.localTee 0),
      .loop 8 none [.leaf 10 (.localGet 0), .leaf 12 (.brIf 0)]],
    .leaf 16 (.binary .i32 .add)]

theorem leakless_lowerFunction_reassigned :
    let env : Env := { options := {}, registry := { types := [⟨[.i32], [.i32]⟩] } }
    ∃ lowered, (lowerFunction env "f" "f" reassigned).outcome.1 = .ok lowered ∧
      ∃ signature params e e', env.registry.types[reassigned.type]? = some signature ∧
        Emit.params signature.params.length
          { frame := startFrame env "f" (some signature) reassigned.locals reassigned.body } =
          .ok params e ∧
        e.frame.Leakless ∧ (∀ p, Between env reassigned.body e p → p.frame.Leakless) ∧
        Emit.body env reassigned.body e = .ok () e' ∧
        ∀ r, e'.frame.isLive r = true ↔ .register r ∈ e'.frame.stack := by
  intro env
  obtain ⟨f, g, code, lowered, -, -, -, -, -, -, hy⟩ :=
    @yields_lowerFunction env reassigned _ "f" "f" rfl (by decide)
  exact ⟨lowered, hy.outcome, leakless_lowerFunction hy.outcome⟩

end

end Moonstack
