import Mathlib.Data.List.Nodup
import Moonstack.Proofs.Emission.Bodies
import Moonstack.Proofs.Emission.Plain
import Moonstack.Proofs.Frame.Aliases
import Moonstack.Proofs.Lifetimes.Covered

/-!
# Steady bodies

A value on the operand stack that was read from a local is copied when the local is assigned, at the
place of the assignment. If the value was pushed outside the innermost block, that place may be
skipped or reached again while the value is still needed. A body is steady if this does not happen:
no local is assigned inside a block while a value of it from outside the block is on the stack.

* `Instr.standing` describes the operand stack behind an instruction: for each value, the local that
  it was read from and that has not been assigned since.
* `Instr.isSteady` checks an instruction against the values that lie outside the innermost block.

The frames in the writing of a steady body follow this description (`stands_walk`), so the entries
below the floor of a block are the same in all of the block.
-/

namespace Moonstack

variable {index l : Nat}

/-! ## Descriptions of the stack -/

namespace Op

/-- The stack behind an instruction without a body. -/
def standing (env : Env) (s : List (Option Nat)) : Op → List (Option Nat)
  | localGet l => some l :: s
  | localSet l => (s.map (Frame.forget l)).tail
  | localTee l => some l :: (s.map (Frame.forget l)).tail
  | const _ => none :: s
  | brIf _ | brTable _ _ => s.tail
  | o =>
    match o.plain env with
    | some p => List.replicate p.pushes none ++ s.drop p.pops
    | none => s

/-- Does the instruction leave the values of `outer` alone? -/
def spares (outer : List (Option Nat)) : Op → Bool
  | localSet l | localTee l => !outer.contains (some l)
  | _ => true

/-- Can the instruction be written as it is, in a function with `count` locals? -/
def isKnown (env : Env) (count : Nat) : Op → Bool
  | localGet l | localSet l | localTee l => decide (l < count)
  | const _ | unreachable | br _ | brIf _ | brTable _ _ | ret => true
  | o => (o.plain env).isSome

end Op

namespace Instr

/-- The stack behind an instruction. -/
def standing (env : Env) (s : List (Option Nat)) : Instr → List (Option Nat)
  | leaf _ o => o.standing env s
  | block _ result _ | loop _ result _ => result.toList.map (fun _ => none) ++ s
  | ifThen _ result _ | ifElse _ result _ _ => result.toList.map (fun _ => none) ++ s.tail

/-- The stack behind a body. -/
def bodyStanding (env : Env) (s : List (Option Nat)) (code : List Instr) : List (Option Nat) :=
  code.foldl (fun s i => i.standing env s) s

mutual

/-- Is an instruction steady? The values of `outer` lie outside the innermost block, those of `s`
inside it. -/
def isSteady (env : Env) (outer s : List (Option Nat)) : Instr → Bool
  | leaf _ o => o.spares outer
  | block _ _ body | loop _ _ body => bodyIsSteady env (s ++ outer) [] body
  | ifThen _ _ body => bodyIsSteady env (s.tail ++ outer) [] body
  | ifElse _ _ body other =>
    bodyIsSteady env (s.tail ++ outer) [] body && bodyIsSteady env (s.tail ++ outer) [] other

def bodyIsSteady (env : Env) (outer s : List (Option Nat)) : List Instr → Bool
  | [] => true
  | i :: rest => isSteady env outer s i && bodyIsSteady env outer (i.standing env s) rest

end

mutual

/-- Can all instructions be written as they are? -/
def isKnown (env : Env) (count : Nat) : Instr → Bool
  | leaf _ o => o.isKnown env count
  | block _ _ body | loop _ _ body | ifThen _ _ body => bodyIsKnown env count body
  | ifElse _ _ body other => bodyIsKnown env count body && bodyIsKnown env count other

/-- Can all instructions of a body be written as they are? -/
def bodyIsKnown (env : Env) (count : Nat) : List Instr → Bool
  | [] => true
  | i :: rest => isKnown env count i && bodyIsKnown env count rest

end

end Instr

/-! ## Locals without a register -/

namespace Frame

variable {f g : Frame}

theorem Sheds.of_quiet (h : Quiet f g) : f.Sheds g := by
  obtain ⟨w, l, rfl⟩ := h
  exact .of_locals rfl rfl Nat.le.refl

variable (f)

theorem Sheds.finished : f.Sheds f.finished := by
  have h : f.Sheds { f with notes := #[] } := .of_locals rfl rfl Nat.le.refl
  exact h.trans (.drained _)

theorem Sheds.poppedMany (n : Nat) : f.Sheds (f.poppedMany n) := by
  induction n generalizing f with
  | zero => exact .refl f
  | succ n ih => exact (Sheds.popped f).trans (ih f.popped)

theorem Sheds.temporaries (n : Nat) : f.Sheds (f.temporaries n).2 := by
  induction n generalizing f with
  | zero => exact .refl f
  | succ n ih => exact (Sheds.temporary f).trans (ih _)

theorem Sheds.performed (p : Plain) : f.Sheds (f.performed p) :=
  (Sheds.temporaries f _).trans ((Sheds.poppedMany _ _).trans (.foldl .pushRegister _ _))

theorem Sheds.settled (b : Block) : f.Sheds (f.settled b) := by
  have hy : f.Sheds (f.yielded b) := by
    unfold yielded
    split
    · exact .popped f
    · exact .refl f
  unfold Frame.settled
  split
  · exact hy.trans ((Sheds.warn _ _).trans (.poppedMany _ _))
  · exact hy

variable {f}

/-- Only the local itself gets a register when it is asked for. -/
theorem unbound_localRegister (hne : l ≠ index) (hl : f.Unbound l) :
    (f.localRegister index).2.Unbound l := by
  refine localRegister_cases (fun _ => hl) fun _ => ?_
  unfold Unbound at hl ⊢
  simp only [Frame.bind, Array.getElem?_modify, if_neg (Ne.symm hne)]
  exact hl

end Frame

/-! ## Frames that follow the description -/

namespace Frame

open Emit

/-- The frame follows the description of the stack, a local that is to be zeroed later has no
register yet, and there is no place to go on at after a long jump. -/
structure Stands (outer s : List (Option Nat)) (rest : List Entry) (f : Frame) : Prop where
  owned : f.Owned []
  mirrors : Mirrors outer s rest f
  fresh : ∀ {t l}, (t, l) ∈ f.lifetimes.forced → f.clock < t → f.Unbound l
  sites : f.sites = #[]

variable {f g : Frame} {held : List RegisterId} {outer s s' : List (Option Nat)} {rest : List Entry}

theorem Mirrors.performed (h : Mirrors outer s rest f) (ho : f.Owned held) (p : Plain) :
    Mirrors outer (List.replicate p.pushes none ++ s.drop p.pops) rest (f.performed p) := by
  have hpush (ids : List RegisterId) (g : Frame) (s : List (Option Nat))
      (h : Mirrors outer s rest g) (ho : g.Owned (ids ++ held)) :
      Mirrors outer (List.replicate ids.length none ++ s) rest (ids.foldl Frame.pushRegister g) := by
    induction ids generalizing g s with
    | nil => exact h
    | cons id ids ih =>
      have hi := ih _ _ (h.pushHeld ho) ho.pushHeld
      rwa [List.append_cons, ← List.replicate_succ', ← List.length_cons] at hi
  have hm := h.later ho (Moved.temporaries f p.pushes).toLater (f.stack_temporaries p.pushes)
    (Moved.temporaries f p.pushes).blocks
  have hot := ho.temporaries p.pushes
  have hp := hpush (f.results p) (f.consumed p) _ (hm.poppedMany hot p.pops)
    ((keeps_popMany _ _ p.pops).owned hot)
  rwa [show (f.results p).length = p.pushes from length_temporaries f p.pushes] at hp

theorem stack_freed (f : Frame) (id : RegisterId) : (f.freed id).stack = f.stack := by
  obtain ⟨_, _, _, _, h, -⟩ := f.freed_eq id
  rw [h]

theorem stack_freedAll (f : Frame) (ids : List RegisterId) : (f.freedAll ids).stack = f.stack :=
  List.foldlRecOn (motive := fun g : Frame => g.stack = f.stack) ids _ rfl fun g hg id _ =>
    (stack_freed g id).trans hg

theorem stack_accessed (f : Frame) (index : Nat) : (f.accessed index).stack = f.stack :=
  accessed_cases rfl fun _ => stack_freed f _

theorem stack_localRegister (f : Frame) (index : Nat) : (f.localRegister index).2.stack = f.stack :=
  (f.fixed_localRegister index).1

theorem Mirrors.localRegister (h : Mirrors outer s rest f) (ho : f.Owned held) (index : Nat) :
    Mirrors outer s rest (f.localRegister index).2 :=
  h.later ho (f.later_localRegister index) (f.stack_localRegister index)
    (Moved.localRegister f index).blocks

theorem Mirrors.accessed (h : Mirrors outer s rest f) (ho : f.Owned held) (index : Nat) :
    Mirrors outer s rest (f.accessed index) :=
  h.later ho (f.later_accessed index) (f.stack_accessed index) (Moved.accessed f index).blocks

theorem Mirrors.zeroed (h : Mirrors outer s rest f) (ho : f.Owned held) {indices : List Nat}
    (hi : ∀ index ∈ indices, index < f.localTypes.length) :
    Mirrors outer s rest (f.zeroed indices) :=
  (zeroed_induction (P := Mirrors outer s rest) ho hi h fun {_ index} _ ho hi h =>
    (h.localRegister ho index).accessed (ho.localRegister hi).1 index).2

theorem unbound_zeroed {indices : List Nat} (hl : l ∉ indices) (hu : f.Unbound l) :
    (f.zeroed indices).Unbound l := by
  induction indices generalizing f with
  | nil => exact hu
  | cons index indices ih =>
    refine ih (fun hm => hl (List.mem_cons_of_mem _ hm)) ((Sheds.accessed _ index).unbound _ ?_)
    exact unbound_localRegister (fun he => hl (he ▸ List.mem_cons_self)) hu

theorem sites_zeroed (f : Frame) (indices : List Nat) : (f.zeroed indices).sites = f.sites := by
  induction indices generalizing f with
  | nil => rfl
  | cons index rest ih =>
    exact (ih _).trans ((Sheds.accessed _ index).sites.trans (f.fixed_localRegister index).2)

theorem mem_forcedAt {L : Lifetimes} {tick : Nat} (h : l ∈ L.forcedAt tick) :
    (tick, l) ∈ L.forced := by
  obtain ⟨p, hp, rfl⟩ := List.mem_map.1 h
  obtain ⟨hp, ht⟩ := List.mem_filter.1 hp
  rwa [← beq_iff_eq.1 ht]

/-- A local is zeroed once. -/
theorem forced_unique {L : Lifetimes} (hd : (L.forced.map Prod.snd).Nodup) {t t' : Nat}
    (h : (t, l) ∈ L.forced) (h' : (t', l) ∈ L.forced) : t = t' :=
  congrArg Prod.fst (List.inj_on_of_nodup_map hd h h' rfl)

namespace Stands

variable (h : Stands outer s rest f)
include h

/-- A step that gives no local a register. -/
theorem of_sheds (hl : f.Later g) (hs : f.Sheds g) (ho : g.Owned [])
    (hm : Mirrors outer s' rest g) : Stands outer s' rest g where
  owned := ho
  mirrors := hm
  fresh ht hc := by
    rw [hl.lifetimes] at ht
    exact hs.unbound _ (h.fresh ht (Nat.lt_of_le_of_lt hl.clock hc))
  sites := hs.sites.trans h.sites

theorem of_quiet (hq : Quiet f g) : Stands outer s rest g := by
  have hm := hq.moved
  refine h.of_sheds hm.toLater (.of_quiet hq) (hq.owned h.owned) ?_
  obtain ⟨w, l, rfl⟩ := hq
  exact h.mirrors.later h.owned hm.toLater rfl rfl

theorem finished : Stands outer s rest f.finished := by
  have hk := keeps_finish f []
  refine h.of_sheds hk.moved.toLater (.finished f) (hk.owned h.owned) ?_
  exact h.mirrors.later h.owned hk.moved.toLater (stack_freedAll _ _) hk.moved.blocks

theorem popped : Stands outer s.tail rest f.popped :=
  h.of_sheds f.later_popped (.popped f) h.owned.popped (h.mirrors.popped h.owned)

theorem begun (hd : (f.lifetimes.forced.map Prod.snd).Nodup) : Stands outer s rest f.begun := by
  have hk := keeps_begin (.leaf 0 .nop) f []
  refine ⟨hk.owned h.owned, ?_, fun {t l} ht hc => ?_, (sites_zeroed _ _).trans h.sites⟩
  · have hm : Mirrors outer s rest f.tick := h.mirrors.later h.owned f.later_tick rfl rfl
    refine hm.zeroed h.owned.tick fun index hi => ?_
    exact h.owned.forced _ (mem_forcedAt hi)
  · rw [hk.moved.lifetimes] at ht
    have hclock : f.begun.clock = f.clock + 1 := hk.moved.ticks
    refine unbound_zeroed (fun hm => ?_) (h.fresh ht (by omega) : f.tick.Unbound l)
    have he := forced_unique hd ht (mem_forcedAt hm)
    rw [he, hclock] at hc
    exact absurd hc (Nat.lt_irrefl _)

/-- An access to a local, at a counter value at which it may be mentioned. -/
theorem localRegister (hi : index < f.localTypes.length)
    (ha : ∀ t, (t, index) ∈ f.lifetimes.forced → t ≤ f.clock) :
    Stands outer s rest (f.localRegister index).2 where
  owned := (h.owned.localRegister hi).1
  mirrors := h.mirrors.localRegister h.owned index
  fresh {t l} ht hc := by
    have hm := Moved.localRegister f index
    rw [hm.lifetimes] at ht
    rw [hm.ticks] at hc
    refine unbound_localRegister ?_ (h.fresh ht hc)
    rintro rfl
    exact absurd hc (Nat.not_lt.2 (ha t ht))
  sites := (f.fixed_localRegister index).2.trans h.sites

theorem accessed (index : Nat) : Stands outer s rest (f.accessed index) :=
  h.of_sheds (f.later_accessed index) (.accessed f index) (h.owned.accessed index)
    (h.mirrors.accessed h.owned index)

theorem pushBound {id : RegisterId} (hb : f.locals[index]? = some (some id)) :
    Stands outer (some index :: s) rest (f.pushRegister id) := by
  refine h.of_sheds (f.later_pushRegister id) (.pushRegister f id) (h.owned.pushBound hb) ?_
  rw [← h.owned.standsFor_bound hb]
  exact h.mirrors.pushRegister h.owned id

theorem fetched (hi : index < f.localTypes.length)
    (ha : ∀ t, (t, index) ∈ f.lifetimes.forced → t ≤ f.clock) :
    Stands outer (some index :: s) rest (fetched f index) :=
  ((h.localRegister hi ha).pushBound (h.owned.localRegister hi).2).accessed index

theorem stored (hi : index < f.localTypes.length)
    (ha : ∀ t, (t, index) ∈ f.lifetimes.forced → t ≤ f.clock) (hs : some index ∉ outer)
    (keep : Bool) : Stands outer
      (if keep then some index :: (s.map (forget index)).tail else (s.map (forget index)).tail)
      rest (stored f index keep) := by
  obtain ⟨ho, hb⟩ := h.owned.localRegister hi
  obtain ⟨hod, hn⟩ := ho.detachAliases hb
  have hd : Stands outer (s.map (forget index)) rest (detached f index).2 :=
    (h.localRegister hi ha).of_sheds (later_detachAliases _ _) (.detachAliases _ _) hod
      ((h.localRegister hi ha).mirrors.detachAliases ho hb hs)
  unfold Emit.stored
  cases keep with
  | true =>
    have hb' := Owned.bound_popped (locals_detachAliases _ _ ▸ hb) hn
    exact (hd.popped.pushBound hb').accessed index
  | false => exact hd.popped.accessed index

theorem performed (p : Plain) :
    Stands outer (List.replicate p.pushes none ++ s.drop p.pops) rest (f.performed p) := by
  have hl : f.Later (f.performed p) := by
    have hc := (Moved.temporaries f p.pushes).trans (.poppedMany _ p.pops)
    exact (hc.trans (keeps_pushAll _ [] (f.results p)).moved).toLater
  refine h.of_sheds hl (.performed f p) ?_ (h.mirrors.performed h.owned p)
  have ho := (keeps_popMany _ _ p.pops).owned (h.owned.temporaries p.pushes)
  exact (keeps_pushAll _ [] (f.results p)).owned ho

end Stands

/-! ## Blocks -/

theorem stack_openBlock (f : Frame) (name : BlockName) (result : Option ValueType) :
    (f.openBlock name result).2.stack = f.stack := by
  cases result with
  | none => rfl
  | some t =>
    change f.temporary.2.stack = _
    rw [temporary_eq]

theorem Mirrors.stack_eq (h : Mirrors outer [] rest f) : f.stack = rest := by
  obtain ⟨near, hs, hm⟩ := h.stack
  rw [hs, List.map_eq_nil_iff.1 hm, List.nil_append]

/-- At the end of an arm, only the entries below the floor are left. -/
theorem Mirrors.settled {b : Block} {blocks : List Block} (h : Mirrors outer s rest f)
    (ho : f.Owned held) (hb : f.blocks = b :: blocks) : Mirrors outer [] rest (f.settled b) := by
  have hy : ∃ s', Mirrors outer s' rest (f.yielded b) ∧ (f.yielded b).Owned held := by
    unfold yielded
    split
    · exact ⟨_, h.popped ho, ho.popped⟩
    · exact ⟨_, h, ho⟩
  obtain ⟨s₁, hy, hoy⟩ := hy
  obtain ⟨s₂, hs₂⟩ : ∃ s', Mirrors outer s' rest (f.settled b) := by
    unfold Frame.settled
    split
    · have hw : Mirrors outer s₁ rest ((f.yielded b).warn
          (Warning.extraValues b.name (f.surplus b)).message) :=
        hy.later hoy (later_warn _ _) rfl rfl
      exact ⟨_, hw.poppedMany (hoy.warn _) _⟩
    · exact ⟨_, hy⟩
  have hfloor : f.floor = b.enterDepth := by simp only [Frame.floor, hb]
  have hd := depth_settled hb (hfloor ▸ h.floor ▸ Nat.le_add_left 1 _)
    (hfloor ▸ h.depth ▸ Nat.le_add_right _ _)
  have hs := hs₂.depth
  rw [hd, hs₂.floor, ← hfloor, h.floor] at hs
  rwa [List.length_eq_zero_iff.1 (show s₂.length = 0 by omega)] at hs₂

theorem later_ended (g : Frame) (b : Block) : g.Later (g.ended b) := by
  refine (later_tick g).trans ((keeps_settleArm b g.tick []).moved.toLater.trans ?_)
  exact ended_cases (.refl _) (later_warn _)

theorem later_closed (g : Frame) (b : Block) : g.Later (g.closed b) := by
  have hd := (later_ended g b).trans (later_dropBlock _)
  exact closed_cases hd fun _ => hd.trans (later_pushRegister _ _)

theorem later_turned (g : Frame) (b : Block) : g.Later (g.turned b) := by
  refine (later_tick g).trans ((Emit.keeps_settleArm b g.tick []).moved.toLater.trans ?_)
  unfold Frame.turned inAlternative
  split
  · exact .refl _
  · exact later_blocks _ _

theorem Sheds.closed (g : Frame) (b : Block) : g.Sheds (g.closed b) := by
  have hs : g.Sheds (g.tick.settled b) := (Sheds.tick g).trans (.settled g.tick b)
  have hd : g.Sheds (g.ended b) := ended_cases hs fun message => hs.trans (.warn _ message)
  have he : g.Sheds (g.ended b).dropBlock := hd.trans (.blocks _ _)
  exact closed_cases he fun id => he.trans (.pushRegister _ id)

namespace Stands

variable {n : Nat} {b : Block}
variable {outer' : List (Option Nat)}

theorem opened (h : Stands outer s rest f) (name : BlockName) (result : Option ValueType) :
    Stands (s ++ outer) [] f.stack (f.openBlock name result).2 := by
  have hw := Within.opened f name result
  have hsheds := Sheds.openBlock f name result
  refine ⟨h.owned.openBlock name result, ⟨⟨[], f.stack_openBlock name result, rfl⟩, ?_, ?_⟩, ?_,
    hsheds.sites.trans h.sites⟩
  · obtain ⟨near, hs, rfl⟩ := h.mirrors.stack
    rw [← h.mirrors.outer, ← List.map_append, ← hs]
    exact List.map_congr_left fun e he => standsFor_of_later h.owned hw.toLater he
  · simp only [floor, hw.blocks, hw.enter]
    rfl
  · intro t l ht hc
    rw [hw.lifetimes] at ht
    exact hsheds.unbound _ (h.fresh ht (by have := hw.ticks; omega))

/-- The stack behind a block is what it was in front of it, with the value of the block on top. -/
theorem stack_closed (hg : Within n f b g) (h : Stands outer' s' f.stack g) :
    (g.closed b).stack = b.register.toList.map .register ++ f.stack := by
  have ht : Mirrors outer' s' f.stack g.tick := h.mirrors.later h.owned g.later_tick rfl rfl
  rw [stack_closed_eq, (ht.settled h.owned.tick hg.blocks).stack_eq]

theorem closed (h : Stands outer s rest f) (hg : Within n f b g)
    (hin : Stands outer' s' f.stack g) :
    Stands outer (b.register.toList.map (fun _ => none) ++ s) rest (g.closed b) := by
  have hm := hg.closed
  have hoc := hg.owned_closed hin.owned
  have hstack := stack_closed hg hin
  obtain ⟨near, hs, rfl⟩ := h.mirrors.stack
  have hsame {e : Entry} (he : e ∈ near ++ rest) : (g.closed b).standsFor e = f.standsFor e :=
    standsFor_of_later h.owned hm.toLater (hs ▸ he)
  refine ⟨hoc, ⟨⟨b.register.toList.map .register ++ near, ?_, ?_⟩, ?_, ?_⟩, fun {t l} ht hc => ?_,
    (Sheds.closed g b).sites.trans hin.sites⟩
  · rw [hstack, hs, List.append_assoc]
  · rw [List.map_append, List.map_map]
    congr 1
    · -- the register of the block is a temporary
      refine List.map_congr_left fun i hi => ?_
      have hr : i ∈ g.reserved [] := by
        simp only [reserved, hg.blocks, List.append_nil]
        exact List.mem_filterMap.2 ⟨b, List.mem_cons_self, Option.mem_toList.1 hi⟩
      obtain ⟨a, ha, -, hb, -⟩ := hin.owned.kept hr
      obtain ⟨a', ha', -, hb', -⟩ := (later_closed g b).register ha
      simp only [Function.comp_apply, standsFor, ha', Option.bind_some, hb', hb]
    · exact List.map_congr_left fun e he => hsame (List.mem_append_left _ he)
  · rw [← h.mirrors.outer]
    exact List.map_congr_left fun e he => hsame (List.mem_append_right _ he)
  · rw [← h.mirrors.floor]
    simp only [floor, hm.blocks]
  · have hl := later_closed g b
    rw [hl.lifetimes] at ht
    exact (Sheds.closed g b).unbound _ (hin.fresh ht (Nat.lt_of_le_of_lt hl.clock hc))

theorem turned (hg : Within n f b g) (hin : Stands outer' s' f.stack g) :
    Stands outer' [] f.stack (g.turned b) := by
  have htick : Mirrors outer' s' f.stack g.tick :=
    hin.mirrors.later hin.owned g.later_tick rfl rfl
  have hm := htick.settled hin.owned.tick hg.blocks
  have hsheds : g.Sheds (g.turned b) := by
    rw [hg.turned_eq]
    exact (Sheds.tick g).trans ((Sheds.settled g.tick b).trans (.blocks _ _))
  refine hin.of_sheds (later_turned g b) hsheds (hg.owned_turned hin.owned) ?_
  rw [hg.turned_eq]
  refine ⟨hm.stack, hm.outer, ?_⟩
  rw [← hm.floor]
  simp only [floor, hg.settled.blocks]

end Stands

end Frame

namespace Emit

open Moonstack.Frame

variable {env : Env} {f g : Frame} {outer s : List (Option Nat)} {rest : List Entry}
  {code : List Line}

/-- The frame behind an instruction without a body follows the description. -/
theorem stands_op {o : Op} {A : Nat → Prop} {offset tick : Nat} (h : Stands outer s rest f)
    (hk : o.isKnown env f.localTypes.length = true) (hs : o.spares outer = true)
    (hwide : o.isWide env.options.branchTableLimit = false)
    (hc : (Instr.leaf offset o).Covered f.lifetimes f.localTypes.length A tick)
    (ht : f.clock = tick + 1) (hw : Writes (op env offset o) f () g code) :
    Stands outer (o.standing env s) rest g := by
  have hplain {p : Plain} (hp : o.plain env = some p) :
      Stands outer (List.replicate p.pushes none ++ s.drop p.pops) rest g := by
    obtain ⟨f', hq, hw'⟩ := writes_plain hp offset
    obtain ⟨-, rfl, -⟩ := hw.unique hw'
    exact (h.of_quiet hq).performed p
  have hquiet {f' : Frame} {s' : List (Option Nat)} {lines : List Line}
      (hf : Stands outer s' rest f')
      (hb : ∃ g', Quiet f' g' ∧ Writes (op env offset o) f () g' lines) :
      Stands outer s' rest g := by
    obtain ⟨g', hq, hw'⟩ := hb
    obtain ⟨-, rfl, -⟩ := hw.unique hw'
    exact hf.of_quiet hq
  cases o with
  | localGet l =>
    have hl := of_decide_eq_true hk
    obtain ⟨-, rfl, -⟩ := hw.unique (keeps_localGet hl []).writes
    exact h.fetched hl fun t hf => ht ▸ (hc.2 hl).2.2 t hf
  | localSet l | localTee l =>
    have hl := of_decide_eq_true hk
    obtain ⟨-, rfl, -⟩ := hw.unique (keeps_localSet hl _ []).writes
    have hset := h.stored hl (fun t hf => ht ▸ (hc.2 hl).2 t hf) (by simpa [Op.spares] using hs)
    first
      | exact hset false
      | exact hset true
  | const value =>
    obtain ⟨-, rfl, -⟩ := hw.unique (keeps_pushLiteral f [] (.const value)).writes
    exact h.of_sheds (f.later_pushLiteral _) (.pushLiteral f _) (h.owned.pushLiteral _)
      (h.mirrors.pushLiteral h.owned _)
  | unreachable => exact hquiet h ⟨f, .refl f, writes_stmt _ f⟩
  | br depth => exact hquiet h (branches_branch f depth)
  | ret => exact hquiet h (branches_leaveFunction f)
  | brIf depth => exact hquiet h.popped (writes_branchIf f depth)
  | brTable targets fallback =>
    simp only [Op.isWide, decide_eq_false_iff_not] at hwide
    exact hquiet h.popped ((writes_branchTable f hwide).imp fun _ h => ⟨h.1, h.2.1⟩)
  | _ =>
    simp only [Op.isKnown, Option.isSome_iff_exists] at hk
    obtain ⟨p, hp⟩ := hk
    simp only [Op.standing, hp]
    exact hplain hp

theorem register_openBlock (f : Frame) (name : BlockName) (result : Option ValueType) :
    ((f.openBlock name result).1.register.toList.map fun _ => (none : Option Nat)) =
      result.toList.map fun _ => none := by
  cases result <;> rfl

end Emit

/-! ## Instructions and bodies -/

namespace BlockKind

/-- The stack when a block of the kind is opened. An `if` has taken its condition. -/
def beneath (s : List (Option Nat)) : BlockKind → List (Option Nat)
  | block | loop => s
  | cond => s.tail

/-- The locals that have a value inside a block of the kind. -/
def inside (L : Lifetimes) (A : Nat → Prop) (clock size : Nat) : BlockKind → Nat → Prop
  | block | cond => L.zeroing (clock + 1) A
  | loop => fun l => L.zeroing (clock + 1) A l ∧ L.Spans l (clock + 2 + size)

end BlockKind

namespace Instr

/-- All that is asked of an instruction: it can be written as it is, it is steady, no branch table in
it is too wide, and the lifetimes cover it. -/
structure Checked (env : Env) (L : Lifetimes) (count : Nat) (outer s : List (Option Nat))
    (A : Nat → Prop) (clock : Nat) (i : Instr) : Prop where
  known : i.isKnown env count = true
  steady : i.isSteady env outer s = true
  narrow : i.hasWide env.options.branchTableLimit = false
  covered : i.Covered L count A clock

/-- All that is asked of a body. -/
structure BodyChecked (env : Env) (L : Lifetimes) (count : Nat) (outer s : List (Option Nat))
    (A : Nat → Prop) (clock : Nat) (code : List Instr) : Prop where
  known : bodyIsKnown env count code = true
  steady : bodyIsSteady env outer s code = true
  narrow : bodyHasWide env.options.branchTableLimit code = false
  covered : bodyCovered L count A clock code

section

variable {env : Env} {L : Lifetimes} {count : Nat} {outer s : List (Option Nat)} {A : Nat → Prop}
  {clock offset : Nat} {result : Option ValueType} {inner other rest : List Instr} {i : Instr}

theorem BodyChecked.head (h : BodyChecked env L count outer s A clock (i :: rest)) :
    Checked env L count outer s A clock i where
  known := (Bool.and_eq_true_iff.1 h.known).1
  steady := (Bool.and_eq_true_iff.1 h.steady).1
  narrow := (Bool.or_eq_false_iff.1 h.narrow).1
  covered := h.covered.1

theorem BodyChecked.tail (h : BodyChecked env L count outer s A clock (i :: rest)) :
    BodyChecked env L count outer (i.standing env s) (i.leaves L A clock) (clock + i.ticks) rest
    where
  known := (Bool.and_eq_true_iff.1 h.known).2
  steady := (Bool.and_eq_true_iff.1 h.steady).2
  narrow := (Bool.or_eq_false_iff.1 h.narrow).2
  covered := h.covered.2

theorem Encloses.standing_eq {name : BlockName} (h : i.Encloses name result inner) :
    i.standing env s = result.toList.map (fun _ => none) ++ name.kind.beneath s := by
  cases h <;> rfl

/-- What is asked of the body of an instruction that has one. -/
theorem Checked.enclosed {name : BlockName} (h : Checked env L count outer s A clock i)
    (he : i.Encloses name result inner) :
    BodyChecked env L count (name.kind.beneath s ++ outer) []
      (name.kind.inside L A clock (bodyTicks inner)) (clock + 1) inner := by
  cases he <;> exact ⟨h.known, h.steady, h.narrow, h.covered.2.2⟩

theorem Checked.ifElse
    (h : Checked env L count outer s A clock (.ifElse offset result inner other)) :
    BodyChecked env L count (s.tail ++ outer) [] (L.zeroing (clock + 1) A) (clock + 1) inner where
  known := (Bool.and_eq_true_iff.1 h.known).1
  steady := (Bool.and_eq_true_iff.1 h.steady).1
  narrow := (Bool.or_eq_false_iff.1 h.narrow).1
  covered := h.covered.2.2.1

theorem Checked.alternative
    (h : Checked env L count outer s A clock (.ifElse offset result inner other)) :
    BodyChecked env L count (s.tail ++ outer) [] (L.zeroing (clock + 1) A)
      (clock + 2 + bodyTicks inner) other where
  known := (Bool.and_eq_true_iff.1 h.known).2
  steady := (Bool.and_eq_true_iff.1 h.steady).2
  narrow := (Bool.or_eq_false_iff.1 h.narrow).2
  covered := h.covered.2.2.2

end

end Instr

namespace Frame

/-- What all frames in the writing of a function have in common. -/
structure Setting (L : Lifetimes) (count : Nat) (f : Frame) : Prop where
  lifetimes : f.lifetimes = L
  count : f.localTypes.length = count
  nodup : (L.forced.map Prod.snd).Nodup
  lasting : f.registers.strategy = .pooled ∨ ∀ p ∈ L.forced, L.Spans p.2 (p.1 + 1)

theorem Setting.later {L : Lifetimes} {count : Nat} {f g : Frame} (h : Setting L count f)
    (hl : f.Later g) : Setting L count g where
  lifetimes := hl.lifetimes.trans h.lifetimes
  count := by rw [hl.localTypes]; exact h.count
  nodup := h.nodup
  lasting := by rw [hl.strategy]; exact h.lasting

namespace Setting

variable {L : Lifetimes} {count : Nat} {f : Frame}

theorem opening (h : Setting L count f) (kind : BlockKind) : Setting L count (f.opening kind) :=
  h.later (Moved.opening f kind).toLater

theorem opened (h : Setting L count f) (name : BlockName) (result : Option ValueType) :
    Setting L count (f.openBlock name result).2 :=
  h.later (f.later_openBlock name result)

end Setting

section

variable {L : Lifetimes} {count : Nat} {f : Frame} {outer s : List (Option Nat)} {rest : List Entry}
  (h : Stands outer s rest f) (hf : Setting L count f)
include h hf

theorem Stands.started : Stands outer s rest f.begun :=
  h.begun (by rw [hf.lifetimes]; exact hf.nodup)

theorem Stands.opening (kind : BlockKind) :
    Stands outer (kind.beneath s) rest (f.opening kind) := by
  cases kind with
  | block | loop => exact h.started hf
  | cond => exact (h.started hf).popped

end

theorem clock_begun (f : Frame) : f.begun.clock = f.clock + 1 :=
  (Emit.moved_begun f).ticks

theorem clock_popped (f : Frame) : f.begun.popped.clock = f.clock + 1 :=
  (Moved.popped f.begun).ticks.trans (clock_begun f)

theorem clock_opened {clock : Nat} (f : Frame) (name : BlockName) (result : Option ValueType)
    (hc : f.clock = clock) : (f.openBlock name result).2.clock = clock :=
  (Within.opened f name result).ticks.trans hc

theorem clock_turned {f g : Frame} {clock n : Nat} (hc : f.clock = clock + 1) (hm : Moved n f g)
    (b : Block) : (g.turned b).clock = clock + 2 + n := by
  have hs : (g.tick.settled b).clock = g.clock + 1 :=
    (Emit.keeps_settleArm b g.tick []).moved.ticks
  have ht : (g.turned b).clock = (g.tick.settled b).clock := by
    unfold turned inAlternative
    split <;> rfl
  rw [ht, hs, hm.ticks, hc]
  omega

end Frame

namespace Emit

open Moonstack.Frame Instr

variable {env : Env} {L : Lifetimes} {count : Nat}

/-- **The frames in the writing of a steady body follow the description.** -/
theorem stands_walk : Instr.Walk
    (fun i => ∀ {f g : Frame} {outer s : List (Option Nat)} {rest : List Entry} {A : Nat → Prop}
      {code : List Line}, Frame.Setting L count f → Stands outer s rest f →
      Checked env L count outer s A f.clock i → Writes (instr env i) f () g code →
      Stands outer (i.standing env s) rest g)
    (fun code => ∀ {f g : Frame} {outer s : List (Option Nat)} {rest : List Entry}
      {A : Nat → Prop} {lines : List Line}, Frame.Setting L count f → Stands outer s rest f →
      BodyChecked env L count outer s A f.clock code → Writes (body env code) f () g lines →
      Stands outer (bodyStanding env s code) rest g) where
  leaf offset o f g outer s rest A code hf h hc hw := by
    obtain ⟨_, g', lines, ho⟩ := succeeds_op f.begun [] hc.narrow offset
    obtain ⟨-, rfl, -⟩ := hw.unique (writes_leaf ho.writes)
    have hf' := hf.opening .block
    have hcov := hc.covered
    have hk := hc.known
    rw [← hf'.lifetimes, ← hf'.count] at hcov
    rw [← hf'.count] at hk
    exact (stands_op (h.started hf) hk hc.steady hc.narrow hcov (clock_begun f)
      ho.writes).finished
  encloses {i name result inner} hi ih f g outer s rest A code hf h hc hw := by
    obtain ⟨b, g', lines, rfl, hin, rfl, -⟩ := written_encloses hi (hi.hasWide_eq _ ▸ hc.narrow) hw
    obtain ⟨n, hn⟩ := hin.within
    have hst := h.opening hf name.kind
    have hbody := hc.enclosed hi
    rw [← clock_opened _ name result (Moved.opening f name.kind).ticks] at hbody
    have hend := ih ((hf.opening _).opened _ _) (hst.opened _ _) hbody hin.keeps.writes
    rw [hi.standing_eq, ← register_openBlock (f.opening name.kind) name]
    exact (hst.closed hn hend).finished
  ifElse offset result inner other hinner hother f g outer s rest A code hf h hc hw := by
    have hnarrow := Bool.or_eq_false_iff.1 hc.narrow
    obtain ⟨b, g₁, lines₁, g₂, lines₂, rfl, hi, ho, rfl, -⟩ :=
      written_ifElse hnarrow.1 hnarrow.2 hw
    obtain ⟨n, hn⟩ := hi.within
    obtain ⟨n', hn'⟩ := ho.within
    have hst := h.opening hf .cond
    have hf' := (hf.opening .cond).opened ⟨.cond, offset⟩ result
    have hin := hc.ifElse
    rw [← clock_opened f.begun.popped ⟨.cond, offset⟩ result (clock_popped f)] at hin
    have hend := hinner hf' (hst.opened _ _) hin hi.keeps.writes
    have hout := hc.alternative
    rw [← clock_turned (clock_opened f.begun.popped ⟨.cond, offset⟩ result (clock_popped f))
      hi.keeps.moved _] at hout
    have hend' := hother ((hf'.later hi.keeps.moved.toLater).later (later_turned _ _))
      (Stands.turned hn hend) hout ho.keeps.writes
    rw [standing, ← register_openBlock f.begun.popped ⟨.cond, offset⟩]
    exact (hst.closed hn' hend').finished
  nil _ h _ hw := by
    obtain ⟨-, rfl, -⟩ := hw.unique (.pure _ ())
    exact h
  cons {i code} hhead hrest f g outer s rest A lines hf h hc hw := by
    obtain ⟨f', _, _, hi, hr, -⟩ := written_cons hc.narrow hw
    have h' := hhead hf h hc.head hi.writes
    have ht := hc.tail
    rw [← hi.moved.ticks] at ht
    exact hrest (hf.later hi.moved.toLater) h' ht hr.writes

end Emit

end Moonstack
