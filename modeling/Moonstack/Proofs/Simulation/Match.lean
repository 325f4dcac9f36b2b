import Mathlib.Data.List.Forall2
import Mathlib.Data.List.Induction
import Moonstack.Proofs.Emission.Steady
import Moonstack.Proofs.Simulation.Precondition

/-!
# Frames and slots

`Domain.Match D f A vals outer ls σ` ties the slots `σ` of running code to the frame `f` that the
code was written from: the operands of the stack have the values `vals`, above the floor of the
innermost block, and `outer`, below it; the registers of those locals in `A` that are needed later
hold the values `ls`; and a local that is still to be zeroed has the value zero.

One lemma for each frame operation says what it does to this. Slots are written through registers
that nothing else needs: temporaries in hand, the register of a block (`Match.write`), or the
register of a local that is on the stack no more (`Match.assign`).
-/

namespace Moonstack

namespace Domain

open Moonstack.Frame

/-- The slots are as the frame says. -/
structure Match (D : Domain) (f : Frame) (A : Nat → Prop) (vals outer : List D.Value)
    (ls : Nat → D.Value) (σ : D.Store) : Prop where
  stack : List.Forall₂ (fun e v => D.Has σ (f.operand e) v) f.stack (vals ++ outer)
  floor : f.floor = outer.length + 1
  locals : ∀ l, A l → f.lifetimes.Spans l (f.clock + 1) →
    ∃ id, f.locals[l]? = some (some id) ∧ σ (f.registers.slotOf id) = D.cell (ls l)
  fresh : ∀ t l, (t, l) ∈ f.lifetimes.forced → f.clock < t →
    ls l = D.zero ((f.localTypes[l]?).getD .i32)

namespace Match

variable {D : Domain} {f g : Frame} {held : List RegisterId} {A B : Nat → Prop}
  {vals outer : List D.Value} {ls : Nat → D.Value} {σ τ : D.Store} {v : D.Value}

section

variable (h : Match D f A vals outer ls σ) (ho : f.Owned held)
include h

theorem mono (hB : ∀ l, B l → A l) : Match D f B vals outer ls σ :=
  { h with locals := fun l hl => h.locals l (hB l hl) }

/-- An instruction that assigns no local adds none. -/
theorem unassigned {o : Op} (ha : o.assigns = none) :
    Match D f (fun l => A l ∨ o.assigns = some l) vals outer ls σ :=
  h.mono fun _ hl => hl.resolve_right (by rw [ha]; nofun)

include ho

omit h in
/-- The entries of a later frame, if they were there before. -/
theorem stack_later {entries : List Entry} {vs : List D.Value} (hl : f.Later g)
    (hm : ∀ e ∈ entries, e ∈ f.stack)
    (h : List.Forall₂ (fun e v => D.Has σ (f.operand e) v) entries vs) :
    List.Forall₂ (fun e v => D.Has σ (g.operand e) v) entries vs := by
  induction h with
  | nil => exact .nil
  | cons hh _ ih =>
    refine .cons ?_ (ih fun e he => hm e (List.mem_cons_of_mem _ he))
    rw [operand_of_later ho hl (hm _ List.mem_cons_self)]
    exact hh

/-- The locals of a later frame. -/
theorem locals_later (hl : f.Later g) (l : Nat) (hA : A l)
    (hs : g.lifetimes.Spans l (g.clock + 1)) :
    ∃ id, g.locals[l]? = some (some id) ∧ σ (g.registers.slotOf id) = D.cell (ls l) := by
  rw [hl.lifetimes] at hs
  obtain ⟨id, hid, hσ⟩ := h.locals l hA (hs.mono (Nat.succ_le_succ hl.clock))
  obtain ⟨last, hlast, hle⟩ := hs
  obtain ⟨a, ha, -, hb, hr⟩ := ho.bound hid
  refine ⟨id, hl.bound hid ha hb (hr.trans hlast) (by omega), ?_⟩
  rw [hl.slotOf ha]
  exact hσ

omit ho in
theorem fresh_later (hl : f.Later g) (t l : Nat) (ht : (t, l) ∈ g.lifetimes.forced)
    (hc : g.clock < t) : ls l = D.zero ((g.localTypes[l]?).getD .i32) := by
  rw [hl.lifetimes] at ht
  rw [hl.localTypes]
  exact h.fresh t l ht (Nat.lt_of_le_of_lt hl.clock hc)

/-- A later frame with the same entries and floor. -/
theorem later (hl : f.Later g) (hs : g.stack = f.stack) (hf : g.floor = f.floor) :
    Match D g A vals outer ls σ where
  stack := by
    rw [hs]
    exact stack_later ho hl (fun _ he => he) h.stack
  floor := hf.trans h.floor
  locals := h.locals_later ho hl
  fresh := h.fresh_later hl

theorem quiet (hq : Quiet f g) : Match D g A vals outer ls σ := by
  have hl := hq.moved.toLater
  obtain ⟨w, l, rfl⟩ := hq
  exact h.later ho hl rfl rfl

theorem finished : Match D f.finished A vals outer ls σ :=
  h.later ho (Emit.keeps_finish f held).moved.toLater (stack_freedAll _ _)
    (floor_of_blocks (Emit.keeps_finish f held).moved.blocks)

theorem accessed (index : Nat) : Match D (f.accessed index) A vals outer ls σ :=
  h.later ho (f.later_accessed index) (f.stack_accessed index)
    (floor_of_blocks (Moved.accessed f index).blocks)

theorem localRegister (index : Nat) : Match D (f.localRegister index).2 A vals outer ls σ :=
  h.later ho (f.later_localRegister index) (f.stack_localRegister index)
    (floor_of_blocks (Moved.localRegister f index).blocks)

theorem temporaries (n : Nat) : Match D (f.temporaries n).2 A vals outer ls σ :=
  h.later ho (Moved.temporaries f n).toLater (f.stack_temporaries n)
    (floor_of_blocks (Moved.temporaries f n).blocks)

omit h in
/-- The operand on top has its value, and it can be popped. -/
theorem pop (h : Match D f A (v :: vals) outer ls σ) :
    D.Has σ f.top v ∧ Match D f.popped A vals outer ls σ := by
  obtain ⟨hs, hb, -⟩ := Moved.popped_frame f
  have hstack := h.stack
  rw [List.cons_append] at hstack
  cases he : f.stack with
  | nil => rw [he] at hstack; cases hstack
  | cons e rest =>
    rw [he] at hstack
    obtain ⟨htop, hrest⟩ := List.forall₂_cons.1 hstack
    have hlen : rest.length = vals.length + outer.length := by
      rw [hrest.length_eq, List.length_append]
    have hd : ¬ f.depth ≤ f.floor := by
      rw [Frame.depth, he, h.floor, List.length_cons]
      omega
    rw [if_neg hd, he, List.tail_cons] at hs
    refine ⟨?_, ⟨?_, ?_, h.locals_later ho f.later_popped, h.fresh_later f.later_popped⟩⟩
    · rw [Frame.top, if_neg hd, he]
      exact htop
    · rw [hs]
      refine stack_later ho f.later_popped (fun e' he' => ?_) hrest
      rw [he]
      exact List.mem_cons_of_mem _ he'
    · exact (floor_of_blocks hb).trans h.floor

omit h in
theorem popMany {args : List D.Value} (h : Match D f A (args.reverse ++ vals) outer ls σ) :
    List.Forall₂ (D.Has σ) (f.tops args.length) args ∧
      Match D (f.poppedMany args.length) A vals outer ls σ := by
  induction args using List.reverseRecOn generalizing f with
  | nil => exact ⟨.nil, h⟩
  | append_singleton args w ih =>
    rw [List.reverse_append, List.reverse_singleton, List.singleton_append, List.cons_append] at h
    obtain ⟨htop, hp⟩ := h.pop ho
    obtain ⟨htops, hm⟩ := ih ho.popped hp
    rw [List.length_append, List.length_singleton]
    exact ⟨List.rel_append htops (.cons htop .nil), hm⟩

omit ho in
/-- The operands at the top of the stack, which stay. -/
theorem peeks {n : Nat} (hn : n ≤ vals.length) :
    List.Forall₂ (D.Has σ) (f.peeks n) (vals.take n).reverse := by
  induction n generalizing f with
  | zero => exact .nil
  | succ n ih =>
    have hlen : f.stack.length = vals.length + outer.length := by
      rw [h.stack.length_eq, List.length_append]
    have hd : ¬ f.depth ≤ f.floor + n := by
      rw [Frame.depth, h.floor, hlen]
      omega
    have hs : n < f.stack.length := by omega
    have hv : n < (vals ++ outer).length := by rw [List.length_append]; omega
    have hpeek : f.peek n = (f.operand f.stack[n], f) := by
      rw [Frame.peek, if_neg hd, List.getElem?_eq_getElem hs]
    have hhas : D.Has σ (f.operand f.stack[n]) (vals ++ outer)[n] :=
      (List.forall₂_iff_get.1 h.stack).2 n hs hv
    rw [List.getElem_append_left (show n < vals.length by omega)] at hhas
    rw [Frame.peeks, hpeek, List.take_add_one, List.getElem?_eq_getElem (by omega),
      Option.toList_some, List.reverse_append, List.reverse_singleton, List.singleton_append]
    exact .cons hhas (ih h (by omega))

/-- An entry with a value is pushed. -/
theorem push (hl : f.Later g) (hb : g.blocks = f.blocks) {e : Entry} (hs : g.stack = e :: f.stack)
    (he : D.Has σ (g.operand e) v) : Match D g A (v :: vals) outer ls σ where
  stack := by
    rw [hs]
    exact .cons he (stack_later ho hl (fun _ h => h) h.stack)
  floor := (floor_of_blocks hb).trans h.floor
  locals := h.locals_later ho hl
  fresh := h.fresh_later hl

theorem pushLiteral {c : Const} (hv : D.const c = some v) :
    Match D (f.pushLiteral (.const c)) A (v :: vals) outer ls σ := by
  have hl := f.later_pushLiteral (.const c)
  rw [pushLiteral_eq] at hl ⊢
  exact h.push ho hl rfl rfl hv

theorem pushRegister {id : RegisterId} {a : Register} (ha : f.registers.get? id = some a)
    (hv : σ (f.registers.slotOf id) = D.cell v) :
    Match D (f.pushRegister id) A (v :: vals) outer ls σ := by
  have hl := f.later_pushRegister id
  have hslot := hl.slotOf ha
  rw [pushRegister_eq] at hl hslot ⊢
  refine h.push ho hl rfl rfl (e := .register id) ?_
  rw [← hslot] at hv
  exact hv

omit h in
/-- Live registers have different slots. -/
theorem slot_ne {i j : RegisterId} {a b : Register} (hi : f.registers.get? i = some a)
    (hj : f.registers.get? j = some b) (ha : a.live = true) (hb : b.live = true) (hne : i ≠ j) :
    f.registers.slotOf i ≠ f.registers.slotOf j := by
  intro hs
  simp only [Registers.slotOf, hi, hj, Option.map_some, Option.getD_some] at hs
  exact hne (ho.sound.slot_inj hi hj ha hb hs)

omit ho in
/-- Slots that no entry and no local of the frame needs may change. -/
theorem congr (hs : ∀ id, .register id ∈ f.stack →
      τ (f.registers.slotOf id) = σ (f.registers.slotOf id))
    (hl : ∀ l id, A l → f.locals[l]? = some (some id) →
      τ (f.registers.slotOf id) = σ (f.registers.slotOf id)) :
    Match D f A vals outer ls τ where
  stack := by
    have hall : ∀ e ∈ f.stack, ∀ v, D.Has σ (f.operand e) v → D.Has τ (f.operand e) v := by
      intro e he v hv
      cases e with
      | literal l => cases l <;> exact hv
      | register id => exact (hs id he).trans hv
    refine List.forall₂_iff_zip.2 ⟨h.stack.length_eq, fun {e v} hm => ?_⟩
    exact hall e (List.of_mem_zip hm).1 v ((List.forall₂_iff_zip.1 h.stack).2 hm)
  floor := h.floor
  locals l hA hsp := by
    obtain ⟨id, hid, hσ⟩ := h.locals l hA hsp
    exact ⟨id, hid, (hl l id hA hid).trans hσ⟩
  fresh := h.fresh

/-- The slots of registers that are kept for values to come may be written. -/
theorem write (ids : List RegisterId) (hk : ∀ id ∈ ids, id ∈ f.reserved held)
    (hτ : ∀ d, d ∉ ids.map f.registers.slotOf → τ d = σ d) : Match D f A vals outer ls τ := by
  refine h.congr (fun i hi => hτ _ fun hm => ?_) (fun l i _ hi => hτ _ fun hm => ?_)
  · obtain ⟨id, hid, hs⟩ := List.mem_map.1 hm
    obtain ⟨a, ha, hlive, -⟩ := ho.kept (hk id hid)
    obtain ⟨b, hb, hl⟩ := ho.stacked hi
    refine slot_ne ho ha hb hlive hl ?_ hs
    rintro rfl
    exact ho.kept_not_stacked (hk id hid) hi
  · obtain ⟨id, hid, hs⟩ := List.mem_map.1 hm
    obtain ⟨a, ha, hlive, hn, -⟩ := ho.kept (hk id hid)
    obtain ⟨b, hb, hl, hbound, -⟩ := ho.bound hi
    refine slot_ne ho ha hb hlive hl ?_ hs
    rintro rfl
    rw [ha] at hb
    cases hb
    rw [hn] at hbound
    cases hbound

theorem writeOne {id : RegisterId} (hk : id ∈ f.reserved held) (c : D.Cell) :
    Match D f A vals outer ls (Function.update σ (f.registers.slotOf id) c) :=
  h.write ho [id] (fun _ hi => List.mem_singleton.1 hi ▸ hk) fun d hd =>
    Function.update_of_ne (fun he => hd (by simp [he])) _ _

/-- The register of a local that is not on the stack is assigned. -/
theorem assign {index : Nat} {id : RegisterId} (hb : f.locals[index]? = some (some id))
    (hn : .register id ∉ f.stack) (hf : ∀ t, (t, index) ∈ f.lifetimes.forced → t ≤ f.clock)
    (v : D.Value) :
    Match D f (fun l => A l ∨ l = index) vals outer (Function.update ls index v)
      (Function.update σ (f.registers.slotOf id) (D.cell v)) := by
  obtain ⟨a, ha, hlive, hbound, -⟩ := ho.bound hb
  have hne {l : Nat} {i : RegisterId} (hl : l ≠ index) (hi : f.locals[l]? = some (some i)) :
      f.registers.slotOf i ≠ f.registers.slotOf id := by
    obtain ⟨b, hb', hlive', hbound', -⟩ := ho.bound hi
    refine slot_ne ho hb' ha hlive' hlive ?_
    rintro rfl
    rw [ha] at hb'
    cases hb'
    rw [hbound] at hbound'
    exact hl (Option.some.inj hbound').symm
  have hw : Match D f (fun l => A l ∧ l ≠ index) vals outer ls
      (Function.update σ (f.registers.slotOf id) (D.cell v)) := by
    refine (h.mono fun l hl => hl.1).congr (fun i hi => ?_) (fun l i hl hi => ?_)
    · obtain ⟨b, hb', hlive'⟩ := ho.stacked hi
      refine Function.update_of_ne (slot_ne ho hb' ha hlive' hlive ?_) _ _
      rintro rfl
      exact hn hi
    · exact Function.update_of_ne (hne hl.2 hi) _ _
  refine ⟨hw.stack, hw.floor, fun l hl hs => ?_, fun t l ht hc => ?_⟩
  · by_cases hi : l = index
    · subst hi
      exact ⟨id, hb, by rw [Function.update_self, Function.update_self]⟩
    · obtain ⟨i, hi', hσ⟩ := hw.locals l ⟨hl.resolve_right hi, hi⟩ hs
      exact ⟨i, hi', by rw [hσ, Function.update_of_ne hi]⟩
  · have hi : l ≠ index := by
      rintro rfl
      exact absurd hc (Nat.not_lt.2 (hf t ht))
    rw [Function.update_of_ne hi]
    exact hw.fresh t l ht hc

omit ho in
/-- Registers in hand that hold values go to the stack. -/
theorem pushAll {ids : List RegisterId} {results : List D.Value} (ho : f.Owned (ids ++ held))
    (hv : List.Forall₂ (fun id v => σ (f.registers.slotOf id) = D.cell v) ids results) :
    Match D (ids.foldl Frame.pushRegister f) A (results.reverse ++ vals) outer ls σ := by
  induction ids generalizing f vals results with
  | nil =>
    cases hv
    exact h
  | cons id ids ih =>
    obtain ⟨v, results, hid, hrest, rfl⟩ := List.forall₂_cons_left_iff.1 hv
    obtain ⟨a, ha, -⟩ := ho.held_live
    rw [List.reverse_cons, List.append_assoc, List.singleton_append]
    refine ih (h.pushRegister ho ha hid) ho.pushHeld ?_
    refine List.forall₂_iff_zip.2 ⟨hrest.length_eq, fun {i w} hm => ?_⟩
    have hi : i ∈ f.reserved (id :: ids ++ held) :=
      List.mem_append_right _ (List.mem_cons_of_mem _
        (List.mem_append_left _ (List.of_mem_zip hm).1))
    obtain ⟨b, hb, -⟩ := ho.kept hi
    rw [(f.later_pushRegister id).slotOf hb]
    exact (List.forall₂_iff_zip.1 hrest).2 hm

end

/-- The slots of registers in hand are different. -/
theorem nodup_slots {ids : List RegisterId} (ho : f.Owned (ids ++ held)) :
    (ids.map f.registers.slotOf).Nodup := by
  have hd : ids.Nodup := (List.nodup_append.1 (List.nodup_append.1 ho.nodup).2.1).1
  have hkept {i : RegisterId} (hi : i ∈ ids) : i ∈ f.reserved (ids ++ held) :=
    List.mem_append_right _ (List.mem_append_left _ hi)
  refine (List.nodup_map_iff_inj_on hd).2 fun i hi j hj hs => ?_
  obtain ⟨a, ha, hla, -⟩ := ho.kept (hkept hi)
  obtain ⟨b, hb, hlb, -⟩ := ho.kept (hkept hj)
  by_contra hne
  exact slot_ne ho ha hb hla hlb hne hs

/-- The frame behind the operands of a plain instruction has the registers of its results in hand. -/
theorem owned_consumed (ho : f.Owned held) (p : Plain) :
    (f.consumed p).Owned (f.results p ++ held) :=
  (Emit.keeps_popMany _ _ p.pops).owned (ho.temporaries p.pushes)

theorem length_resultSlots (f : Frame) (p : Plain) :
    ((f.results p).map (f.consumed p).registers.slotOf).length = p.pushes := by
  rw [List.length_map]
  exact length_temporaries f p.pushes

/-- The operands of a plain instruction are taken off. -/
theorem consumed {p : Plain} {args : List D.Value}
    (h : Match D f A (args.reverse ++ vals) outer ls σ) (ho : f.Owned held)
    (hargs : args.length = p.pops) : List.Forall₂ (D.Has σ) (f.arguments p) args ∧
      Match D (f.consumed p) A vals outer ls σ := by
  have hpop := (h.temporaries ho p.pushes).popMany (ho.temporaries p.pushes)
  rwa [hargs] at hpop

/-- The results of a plain instruction are put on the stack. -/
theorem produced {p : Plain} {results : List D.Value} (h : Match D (f.consumed p) A vals outer ls σ)
    (ho : f.Owned held) (hres : List.Forall₂ (fun d v => τ d = D.cell v)
      ((f.results p).map (f.consumed p).registers.slotOf) results)
    (hframe : ∀ d, d ∉ (f.results p).map (f.consumed p).registers.slotOf → τ d = σ d) :
    Match D (f.performed p) A (results.reverse ++ vals) outer ls τ := by
  have hoc := owned_consumed ho p
  refine (h.write hoc _ (fun id hid => ?_) hframe).pushAll hoc (List.forall₂_map_left_iff.1 hres)
  exact List.mem_append_right _ (List.mem_append_left _ hid)

/-- **The code of a plain instruction** takes the operands off and puts the results on the stack. -/
theorem performed {env : Env} {o : Op} {p : Plain} {args results : List D.Value}
    (h : Match D f A (args.reverse ++ vals) outer ls σ) (hD : D.Lawful env) (ho : f.Owned [])
    (hp : o.plain env = some p) (hperf : D.Performs o args results)
    (hargs : args.length = p.pops) (hres : results.length = p.pushes) :
    D.Through (Match D (f.performed p) A (results.reverse ++ vals) outer ls) (f.plainCode p) σ := by
  obtain ⟨hops, hm⟩ := h.consumed ho hargs
  exact (hD.performs hp hperf hargs hres hops (length_resultSlots f p)
    (nodup_slots (owned_consumed ho p))).mono fun τ hτ => hm.produced ho hτ.1 hτ.2

/-- A block is opened: its own part of the stack is empty. -/
theorem opened (h : Match D f A vals outer ls σ) (ho : f.Owned held) (name : BlockName)
    (result : Option ValueType) :
    Match D (f.openBlock name result).2 A [] (vals ++ outer) ls σ where
  stack := by
    rw [stack_openBlock]
    exact stack_later ho (f.later_openBlock name result) (fun _ he => he) h.stack
  floor := by
    have hw := Within.opened f name result
    rw [← h.stack.length_eq, Frame.floor, hw.blocks]
    exact hw.enter
  locals := h.locals_later ho (f.later_openBlock name result)
  fresh := h.fresh_later (f.later_openBlock name result)

end Match

end Domain

end Moonstack
