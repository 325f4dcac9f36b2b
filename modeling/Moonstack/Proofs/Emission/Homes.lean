import Moonstack.Proofs.Emission.Effects
import Moonstack.Proofs.Emission.Leaks
import Moonstack.Proofs.Lifetimes.Mentions

/-!
# A local lives in one slot

A local gets a register when it is asked for, loses it when its value is not needed any more, and
may be asked for again. `Frame.Housed f l tick s` says what is known about its slot: nothing, or that
its register has the slot `n` as long as its value is needed. Every step of the writing of a function
keeps this (`Frame.Lodges`), and a local that is asked for is found in the slot that is known.

`Emit.Houses env f l n i` says that all that is written for the local `l` at the instruction `i`, from
the frame `f` in front of it, goes by the slot `n`. `housed_lowerFunction` says for which locals there
is such a slot.
-/

namespace Moonstack

variable {n : Nat} {i : Instr} {A : Nat → Prop}

namespace Frame

variable {f g : Frame} {held : List RegisterId} {l tick : Nat} {s : Option Nat}

/-! ## Where a local lives -/

/-- What is known about the slot of a local. Before it is asked for, nothing is known and it has no
register. From then on it lives in a slot: as long as its value is needed at the counter value `tick`
or later, its register has this slot, and it is not zeroed any more. -/
def Housed (f : Frame) (l tick : Nat) : Option Nat → Prop
  | none => f.Unbound l
  | some n =>
    (f.lifetimes.Spans l tick →
      ∃ id, f.locals[l]? = some (some id) ∧ f.registers.slotOf id = n) ∧
    ∀ t, (t, l) ∈ f.lifetimes.forced → t ≤ f.clock

theorem Housed.mono {tick' : Nat} (h : f.Housed l tick s) (hle : tick ≤ tick') :
    f.Housed l tick' s := by
  cases s with
  | none => exact h
  | some n => exact ⟨fun hs => h.1 (hs.mono hle), h.2⟩

/-- A local whose value is needed goes on living in its slot. -/
theorem Housed.later (h : f.Housed l tick (some n)) (ho : f.Owned held) (hl : f.Later g)
    (hle : tick ≤ g.clock + 1) : g.Housed l (g.clock + 1) (some n) := by
  obtain ⟨hbound, hforced⟩ := h
  refine ⟨fun hs => ?_, fun t ht => ?_⟩
  · rw [hl.lifetimes] at hs
    obtain ⟨id, hid, hslot⟩ := hbound (hs.mono hle)
    obtain ⟨last, hlast, hlt⟩ := hs
    obtain ⟨a, ha, -, hb, hla⟩ := ho.bound hid
    exact ⟨id, hl.bound hid ha hb (hla.trans hlast) hlt, (hl.slotOf ha).trans hslot⟩
  · rw [hl.lifetimes] at ht
    exact Nat.le_trans (hforced t ht) hl.clock

/-- The slot that a local gets when it is asked for is where it lives. -/
theorem housed_localRegister (ho : f.Owned held) (hi : l < f.localTypes.length)
    (hf : ∀ t, (t, l) ∈ f.lifetimes.forced → t ≤ f.clock) (tick : Nat) :
    (f.localRegister l).2.Housed l tick (some (f.home l)) := by
  refine ⟨fun _ => ⟨_, (ho.localRegister hi).2, rfl⟩, fun t ht => ?_⟩
  have hm := Moved.localRegister f l
  rw [hm.lifetimes] at ht
  rw [hm.ticks]
  exact hf t ht

/-- A local that is needed is found where it lives. -/
theorem Housed.home (h : f.Housed l tick (some n)) (hs : f.lifetimes.Spans l tick) :
    f.home l = n := by
  obtain ⟨id, hid, hslot⟩ := h.1 hs
  rw [home_of_bound hid, hslot]

/-! ## The begin of an instruction -/

/-- A register is not touched when other locals are zeroed. -/
theorem bound_zeroed {indices : List Nat} {id : RegisterId} (ho : f.Owned held)
    (hi : ∀ i ∈ indices, i < f.localTypes.length) (hl : l ∉ indices)
    (hb : f.locals[l]? = some (some id)) : (f.zeroed indices).locals[l]? = some (some id) :=
  (Emit.zeroed_induction (P := fun f => f.locals[l]? = some (some id)) ho hi hb fun hmem ho hi hb =>
    bound_accessed (ho.localRegister hi).1 (bound_localRegister hb) fun he => hl (he ▸ hmem)).2

/-- Where a local lives does not depend on other locals that are zeroed. -/
theorem Housed.zeroed {indices : List Nat} (h : f.Housed l tick s) (ho : f.Owned held)
    (hi : ∀ i ∈ indices, i < f.localTypes.length) (hl : l ∉ indices) :
    (f.zeroed indices).Housed l tick s := by
  have hm := Emit.moved_zeroed f indices
  cases s with
  | none => exact unbound_zeroed hl h
  | some n =>
    refine ⟨fun hs => ?_, fun t ht => ?_⟩
    · rw [hm.lifetimes] at hs
      obtain ⟨id, hid, hslot⟩ := h.1 hs
      obtain ⟨a, ha, -⟩ := ho.bound hid
      exact ⟨id, bound_zeroed ho hi hl hid, (hm.toLater.slotOf ha).trans hslot⟩
    · rw [hm.lifetimes] at ht
      rw [hm.ticks]
      exact h.2 t ht

theorem zeroed_append (f : Frame) (before after : List Nat) :
    f.zeroed (before ++ after) = (f.zeroed before).zeroed after := by
  induction before generalizing f with
  | nil => rfl
  | cons index rest ih => exact ih _

/-- A local that is zeroed lives where it is zeroed. -/
theorem housed_zeroOne (ho : f.Owned held) (hi : l < f.localTypes.length)
    (hf : ∀ t, (t, l) ∈ f.lifetimes.forced → t ≤ f.clock) :
    ((f.localRegister l).2.accessed l).Housed l (f.clock + 1) (some (f.home l)) := by
  have hh := (housed_localRegister ho hi hf 0).later (ho.localRegister hi).1 (later_accessed _ l)
    (Nat.zero_le _)
  rwa [((Moved.localRegister f l).trans (Moved.accessed _ l)).ticks] at hh

/-- The same with other locals zeroed before and after it. If its value is not needed later, its
register is freed at once; but then no other local is zeroed here, and with pooled slots it gets its
slot again. -/
theorem housed_zeroed_self {before after : List Nat} (ho : f.Owned held)
    (hi : ∀ i ∈ before ++ l :: after, i < f.localTypes.length) (hd : (before ++ l :: after).Nodup)
    (hu : f.Unbound l) (hf : ∀ t, (t, l) ∈ f.lifetimes.forced → t ≤ f.clock)
    (hlone : f.lifetimes.Spans l (f.clock + 1) ∨ before ++ l :: after = [l]) :
    (f.zeroed (before ++ l :: after)).Housed l (f.clock + 1) (some ((f.zeroed before).home l)) ∧
      (f.registers.strategy = .pooled ∨ f.lifetimes.Spans l (f.clock + 1) →
        (f.zeroed (before ++ l :: after)).home l = (f.zeroed before).home l) := by
  have hm := Emit.moved_zeroed f before
  have hob : (f.zeroed before).Owned held :=
    Emit.owned_zeroed ho fun i h => hi i (List.mem_append_left _ h)
  have hlt : l < (f.zeroed before).localTypes.length := by
    rw [hm.localTypes]
    exact hi l (by simp)
  have hone : (((f.zeroed before).localRegister l).2.accessed l).Housed l (f.clock + 1)
      (some ((f.zeroed before).home l)) := by
    have h := housed_zeroOne hob hlt (by rw [hm.lifetimes, hm.ticks]; exact hf)
    rwa [hm.ticks] at h
  have hall : (f.zeroed (before ++ l :: after)).Housed l (f.clock + 1)
      (some ((f.zeroed before).home l)) := by
    rw [zeroed_append]
    refine hone.zeroed ((hob.localRegister hlt).1.accessed l) (fun i h => ?_) ?_
    · rw [(hm.trans ((Moved.localRegister _ l).trans (Moved.accessed _ l))).localTypes]
      exact hi i (List.mem_append_right _ (List.mem_cons_of_mem _ h))
    · exact (List.nodup_cons.1 (List.nodup_append.1 hd).2.1).1
  refine ⟨hall, fun hs => ?_⟩
  by_cases hspan : f.lifetimes.Spans l (f.clock + 1)
  · exact hall.home (by rwa [(Emit.moved_zeroed f _).lifetimes])
  · obtain ⟨rfl, rfl⟩ : before = [] ∧ after = [] := by
      simpa [List.append_eq_singleton_iff] using hlone.resolve_left hspan
    exact home_accessed ho (hi l (by simp)) hu hspan (hs.resolve_right hspan)

/-- At the begin of an instruction, a local that is zeroed has no register yet. -/
theorem Housed.unbound_tick {t : Nat} (h : f.Housed l tick s) (ht : (t, l) ∈ f.lifetimes.forced)
    (hc : f.clock < t) : s = none ∧ f.Unbound l := by
  cases s with
  | none => exact ⟨rfl, h⟩
  | some n => exact absurd hc (Nat.not_lt.2 (h.2 t ht))

theorem nodup_forcedAt {L : Lifetimes} (hd : (L.forced.map Prod.snd).Nodup) (tick : Nat) :
    (L.forcedAt tick).Nodup :=
  hd.sublist (List.filter_sublist.map Prod.snd)

/-- A local that is zeroed here and not needed later is the only one that is zeroed here. -/
theorem forcedAt_eq_singleton {L : Lifetimes} (hd : (L.forced.map Prod.snd).Nodup)
    (hlone : L.Lone tick) (ht : (tick, l) ∈ L.forced) (hs : ¬ L.Spans l (tick + 1)) :
    L.forcedAt tick = [l] := by
  have hall : ∀ k ∈ L.forcedAt tick, k = l := fun k hk =>
    ((hlone l k ht (mem_forcedAt hk)).resolve_left hs).symm
  have hmem : l ∈ L.forcedAt tick := List.mem_map.2 ⟨_, List.mem_filter.2 ⟨ht, by simp⟩, rfl⟩
  have hr := List.eq_replicate_of_mem hall
  have hle := List.nodup_replicate.1 (hr ▸ nodup_forcedAt hd tick)
  have hpos := List.length_pos_of_mem hmem
  rw [hr, show (L.forcedAt tick).length = 1 by omega]
  rfl

/-- **The begin of an instruction.** A local that lives in a slot goes on living there. One that is
zeroed lives in the slot that is set to zero, and this is also where it is found if the instruction
asks for it. -/
theorem Housed.begun (h : f.Housed l (f.clock + 1) s) (ho : f.Owned held)
    (hd : (f.lifetimes.forced.map Prod.snd).Nodup) (hlone : f.lifetimes.Lone (f.clock + 1)) :
    ∃ s', (∀ n ∈ s, n ∈ s') ∧ f.begun.Housed l (f.begun.clock + 1) s' ∧
      (f.registers.strategy = .pooled ∨ ¬ f.lifetimes.Flits l →
        ∀ n ∈ s', f.lifetimes.Spans l f.begun.clock → f.begun.home l = n) ∧
      ∀ before after, f.lifetimes.forcedAt (f.clock + 1) = before ++ l :: after →
        (f.tick.zeroed before).home l ∈ s' := by
  have hi : ∀ i ∈ f.lifetimes.forcedAt (f.clock + 1), i < f.tick.localTypes.length :=
    fun i hi => ho.forced _ (mem_forcedAt hi)
  have htick : f.tick.Housed l (f.clock + 1) s := by
    cases s with
    | none => exact h
    | some n => exact ⟨h.1, fun t ht => Nat.le_succ_of_le (h.2 t ht)⟩
  have hnodup := nodup_forcedAt hd (f.clock + 1)
  rw [clock_begun]
  by_cases hl : l ∈ f.lifetimes.forcedAt (f.clock + 1)
  · obtain ⟨before, after, hsplit⟩ := List.append_of_mem hl
    have hmem := mem_forcedAt hl
    obtain ⟨rfl, hu⟩ := h.unbound_tick hmem (Nat.lt_succ_self _)
    rw [hsplit] at hi hnodup
    have hne : l ∉ before ∧ l ∉ after := by
      obtain ⟨-, hafter, hdisjoint⟩ := List.nodup_append'.1 hnodup
      exact ⟨fun hm => hdisjoint hm List.mem_cons_self, (List.nodup_cons.1 hafter).1⟩
    have halone : f.lifetimes.Spans l (f.clock + 2) ∨ before ++ l :: after = [l] := by
      rw [← hsplit]
      exact or_iff_not_imp_left.2 fun hs => forcedAt_eq_singleton hd hlone hmem hs
    obtain ⟨hhoused, hhome⟩ := housed_zeroed_self ho.tick hi hnodup hu
      (fun t ht => Nat.le_of_eq (forced_unique hd ht hmem)) halone
    have hbegun : f.begun = f.tick.zeroed (before ++ l :: after) := congrArg _ hsplit
    rw [hbegun]
    refine ⟨some _, nofun, hhoused, fun hstays n hn hs => ?_, fun before' after' hsplit' => ?_⟩
    · rw [← Option.some.inj hn]
      refine hhome (or_iff_not_imp_right.2 fun hlater => hstays.resolve_right (not_not.2 ?_))
      obtain ⟨last, hlast, hle⟩ := hs
      have : last = f.clock + 1 := by
        by_contra hne
        exact hlater ⟨last, hlast, show f.clock + 2 ≤ last by omega⟩
      subst this
      exact ⟨_, hmem, hlast⟩
    · rw [hsplit] at hsplit'
      obtain ⟨rfl, -⟩ := (List.append_cons_inj_of_notMem hne.1 hne.2).1 hsplit'
      rfl
  · have hbegun : f.begun.Housed l (f.clock + 1) s := htick.zeroed ho.tick hi hl
    refine ⟨s, fun n hn => hn, hbegun.mono (Nat.le_succ _), fun _ n hn hs => ?_,
      fun before after hsplit => ?_⟩
    · rw [Option.mem_def.1 hn] at hbegun
      exact hbegun.home (by rwa [(Emit.moved_begun f).lifetimes])
    · exact absurd (by rw [hsplit]; simp) hl

/-! ## Frames in the writing of a function -/

/-- What all frames in the writing of a function have in common: the strategy, the lifetimes and the
number of locals. -/
structure Grounds (strategy : Strategy) (L : Lifetimes) (count : Nat) (f : Frame) : Prop where
  strategy : f.registers.strategy = strategy
  lifetimes : f.lifetimes = L
  size : f.localTypes.length = count
  nodup : (L.forced.map Prod.snd).Nodup

/-- What holds of the frames between instructions, where `s` is what is known about the slot of the
local `l`. -/
structure Lodges (σ : Strategy) (L : Lifetimes) (count l : Nat) (s : Option Nat) (f : Frame) : Prop
    extends Grounds σ L count f where
  declared : l < count
  owned : f.Owned []
  housed : f.Housed l (f.clock + 1) s

variable {σ : Strategy} {L : Lifetimes} {count : Nat}

theorem Grounds.later (h : Grounds σ L count f) (hl : f.Later g) : Grounds σ L count g where
  strategy := hl.strategy.trans h.strategy
  lifetimes := hl.lifetimes.trans h.lifetimes
  size := by rw [hl.localTypes]; exact h.size
  nodup := h.nodup

namespace Lodges

variable (h : Lodges σ L count l s f)

include h

theorem lt : l < f.localTypes.length := by
  rw [h.size]
  exact h.declared

/-- A step that does not ask for the local. -/
theorem passes (hl : f.Later g) (ho : g.Owned []) (hu : f.Unbound l → g.Unbound l) :
    Lodges σ L count l s g := by
  refine ⟨h.toGrounds.later hl, h.declared, ho, ?_⟩
  have hh := h.housed
  cases s with
  | none => exact hu hh
  | some n => exact hh.later h.owned hl (Nat.succ_le_succ hl.clock)

theorem popped : Lodges σ L count l s f.popped :=
  h.passes f.later_popped h.owned.popped ((Sheds.popped f).unbound l)

theorem finished : Lodges σ L count l s f.finished := by
  have hk := Emit.keeps_finish f []
  exact h.passes hk.moved.toLater (hk.owned h.owned) ((Sheds.finished f).unbound l)

omit h in
theorem opening {kind : BlockKind} (h : Lodges σ L count l s f.begun) :
    Lodges σ L count l s (f.opening kind) := by
  cases kind with
  | block | loop => exact h
  | cond => exact h.popped

theorem opened (name : BlockName) (result : Option ValueType) :
    Lodges σ L count l s (f.openBlock name result).2 :=
  h.passes (f.later_openBlock name result) (h.owned.openBlock name result)
    ((Sheds.openBlock f name result).unbound l)

theorem closed {f₀ : Frame} {b : Block} (hf : Within n f₀ b f) :
    Lodges σ L count l s (f.closed b) :=
  h.passes (later_closed f b) (hf.owned_closed h.owned) ((Sheds.closed f b).unbound l)

theorem turned {f₀ : Frame} {b : Block} (hf : Within n f₀ b f) :
    Lodges σ L count l s (f.turned b) := by
  refine h.passes (later_turned f b) (hf.owned_turned h.owned) fun hu => ?_
  have hs := ((Sheds.tick f).trans (.settled f.tick b)).unbound l hu
  unfold Frame.turned inAlternative
  split <;> exact hs

/-- The begin of an instruction (`Housed.begun`). -/
theorem begun (hlone : L.Lone (f.clock + 1)) :
    ∃ s', (∀ n ∈ s, n ∈ s') ∧ Lodges σ L count l s' f.begun ∧
      (σ = .pooled ∨ ¬ L.Flits l → ∀ n ∈ s', L.Spans l f.begun.clock → f.begun.home l = n) ∧
      ∀ before after, f.lifetimes.forcedAt (f.clock + 1) = before ++ l :: after →
        (f.tick.zeroed before).home l ∈ s' := by
  have hk := Emit.keeps_begin (.leaf 0 .nop) f []
  obtain ⟨s', hle, hh, hhome, hzero⟩ := h.housed.begun h.owned (by rw [h.lifetimes]; exact h.nodup)
    (by rwa [h.lifetimes])
  rw [h.strategy, h.lifetimes] at hhome
  exact ⟨s', hle, ⟨h.toGrounds.later hk.moved.toLater, h.declared, hk.owned h.owned, hh⟩, hhome,
    hzero⟩

end Lodges

/-! ## Instructions -/

/-- A slot that the writing of an instruction, from the frame in front of it, takes for a local: the
one that is set to zero, or the one that the instruction asks for. -/
inductive Asks (f : Frame) (l : Nat) : Instr → Nat → Prop where
  | zero {i : Instr} {before after : List Nat} :
    f.lifetimes.forcedAt (f.clock + 1) = before ++ l :: after →
    Asks f l i ((f.tick.zeroed before).home l)
  | mention {offset : Nat} {o : Op} :
    o.mentions = some l → Asks f l (.leaf offset o) (f.begun.home l)

end Frame

/-- What is covered of an instruction with one body. -/
theorem Instr.Covered.enclosed {name : BlockName} {result : Option ValueType} {inner : List Instr}
    {L : Lifetimes} {count clock : Nat} (hc : i.Covered L count A clock)
    (hi : i.Encloses name result inner) :
    L.Lone (clock + 1) ∧ ∃ B, bodyCovered L count B (clock + 1) inner := by
  cases hi <;> exact ⟨hc.2.1, _, hc.2.2⟩

namespace Emit

open Moonstack.Frame Instr

variable {env : Env} {f g : Frame} {σ : Strategy} {L : Lifetimes} {count l : Nat}
  {s : Option Nat} {code : List Line}

theorem later_fetched (f : Frame) (l : Nat) : (f.localRegister l).2.Later (fetched f l) :=
  (later_pushRegister _ _).trans (later_accessed _ l)

theorem later_stored (f : Frame) (l : Nat) (keep : Bool) :
    (f.localRegister l).2.Later (stored f l keep) := by
  have hd : (f.localRegister l).2.Later (detached f l).2.popped :=
    (later_detachAliases _ _).trans (later_popped _)
  cases keep with
  | true => exact hd.trans ((later_pushRegister _ _).trans (later_accessed _ l))
  | false => exact hd.trans (later_accessed _ l)

/-! ## What is written for a local -/

/-- All that is written for the local `l` at the instruction `i`, from the frame `f` in front of it,
goes by the slot `n`. -/
structure Houses (env : Env) (f : Frame) (l n : Nat) (i : Instr) : Prop where
  /-- If the local is zeroed in front of the instruction, its line sets the slot to zero. -/
  zeroed : ∀ k : Nat, (f.lifetimes.forcedAt (f.clock + 1))[k]? = some l →
    ∃ g code, Writes (begin i) f () g code ∧
      code[k]? = some (.stmt (.assign [.slot n] ((f.localTypes[l]?).getD .i32).zero))
  /-- What a read or a `tee` of the local pushes is the slot. -/
  pushed : ∀ offset o, i = .leaf offset o → o = .localGet l ∨ o = .localTee l →
    ∃ g code id, Writes (do begin i; op env offset o) f () g code ∧
      g.stack.head? = some (.register id) ∧ g.registers.slotOf id = n
  /-- An assignment of the local ends with one of the slot. In front of it stands at most a copy of
  the slot, for the values of the local that are on the stack. -/
  assigned : ∀ offset o, i = .leaf offset o → o.assigns = some l →
    ∃ g' g front copies value, Writes (begin i) f () g' front ∧
      Writes (op env offset o) g' () g
        (copies ++ [.stmt (.assign [.slot n] (.operand value))]) ∧
      ∀ line ∈ copies, ∃ m, line = Line.stmt (.assign [.slot m] (.slot n))

theorem zeroCode_append (f : Frame) (before after : List Nat) :
    f.zeroCode (before ++ after) = f.zeroCode before ++ (f.zeroed before).zeroCode after := by
  induction before generalizing f with
  | nil => rfl
  | cons index rest ih => exact congrArg _ (ih _)

theorem length_zeroCode (f : Frame) (indices : List Nat) :
    (f.zeroCode indices).length = indices.length := by
  induction indices generalizing f with
  | nil => rfl
  | cons index rest ih => exact congrArg (· + 1) (ih _)

/-- The lines that zero locals stand in their order. -/
theorem getElem?_zeroCode (f : Frame) (before after : List Nat) :
    (f.zeroCode (before ++ l :: after))[before.length]? = some (.stmt (.assign
      [.slot ((f.zeroed before).home l)] ((f.localTypes[l]?).getD .i32).zero)) := by
  have hlen := length_zeroCode f before
  rw [zeroCode_append, List.getElem?_append_right (Nat.le_of_eq hlen), hlen, Nat.sub_self,
    ← (moved_zeroed f before).localTypes]
  rfl

/-- The line that zeroes a local in front of an instruction. -/
theorem getElem?_beginCode {before after : List Nat} (i : Instr)
    (h : f.lifetimes.forcedAt (f.clock + 1) = before ++ l :: after) :
    (f.beginCode i)[before.length]? = some (.stmt (.assign
      [.slot ((f.tick.zeroed before).home l)] ((f.localTypes[l]?).getD .i32).zero)) := by
  have hline := getElem?_zeroCode (l := l) f.tick before after
  rw [← h] at hline
  exact (List.getElem?_append_left (List.getElem?_eq_some_iff.1 hline).1).trans hline

theorem head_pushRegister (f : Frame) (id : RegisterId) :
    (f.pushRegister id).stack.head? = some (.register id) := by
  rw [pushRegister_eq]
  rfl

theorem head_fetched (f : Frame) (l : Nat) :
    (fetched f l).stack.head? = some (.register (f.localRegister l).1) := by
  rw [fetched, stack_accessed, head_pushRegister]

theorem head_stored (f : Frame) (l : Nat) :
    (stored f l true).stack.head? = some (.register (f.localRegister l).1) := by
  simp only [stored, if_true, stack_accessed, head_pushRegister]

/-- The register of a local keeps its slot. -/
theorem slotOf_localRegister (ho : f.Owned []) (hi : l < f.localTypes.length)
    (hl : (f.localRegister l).2.Later g) : g.registers.slotOf (f.localRegister l).1 = f.home l := by
  obtain ⟨hor, hb⟩ := ho.localRegister hi
  obtain ⟨a, ha, -⟩ := hor.bound hb
  exact hl.slotOf ha

/-- What has just been detached from a local is not in its slot, so an assignment of the local is
written out. -/
theorem top_ne_slot {id : RegisterId} (ho : f.Owned []) (hb : f.locals[l]? = some (some id))
    (hn : .register id ∉ f.stack) : f.top ≠ .slot (f.registers.slotOf id) := by
  obtain ⟨a, ha, hlive, -⟩ := ho.bound hb
  intro htop
  obtain ⟨j, hj, hslot⟩ := register_of_top htop
  obtain ⟨c, hc, hlive'⟩ := ho.stacked hj
  simp only [Registers.slotOf, ha, hc, Option.map_some, Option.getD_some] at hslot
  obtain rfl := ho.sound.slot_inj hc ha hlive' hlive hslot
  exact hn hj

/-- The code of a write to a local. -/
theorem storeCode_eq (ho : f.Owned []) (hi : l < f.localTypes.length) :
    ∃ copies value, storeCode f l =
      copies ++ [.stmt (.assign [.slot (f.home l)] (.operand value))] ∧
      ∀ line ∈ copies, ∃ m, line = Line.stmt (.assign [.slot m] (.slot (f.home l))) := by
  obtain ⟨hor, hb⟩ := ho.localRegister hi
  obtain ⟨hod, hn⟩ := hor.detachAliases hb
  have hlater : (f.localRegister l).2.Later (detached f l).2 := later_detachAliases _ _
  have hslot := slotOf_localRegister ho hi hlater
  have hpopped := slotOf_localRegister ho hi (hlater.trans (later_popped _))
  have hne := top_ne_slot hod (locals_detachAliases _ _ ▸ hb) hn
  refine ⟨(detached f l).1.toList.map .stmt, (detached f l).2.top, ?_, fun line hline => ?_⟩
  · rw [storeCode, hpopped, copied, if_pos (hslot ▸ hne)]
  · obtain ⟨st, hst, rfl⟩ := List.mem_map.1 hline
    by_cases hm : .register (f.localRegister l).1 ∈ (f.localRegister l).2.stack
    · obtain ⟨g, hg, -⟩ := detachAliases_of_referenced (hor.referenced hb hm)
      have hd : detached f l = _ := hg
      rw [hd] at hst hslot
      obtain rfl := List.mem_singleton.1 (hst : st ∈ [_])
      exact ⟨_, by rw [← hslot]⟩
    · have hd : detached f l = _ := detachAliases_of_not_mem hor hb hm
      rw [hd] at hst
      cases hst

/-- If the slots that are taken for a local are all one, this is where it lives. -/
theorem houses_of_asks (ho : f.Owned []) (hi : l < f.localTypes.length)
    (hn : ∀ m, f.Asks l i m → m = n) : Houses env f l n i := by
  have hk := keeps_begin i f []
  have hob := hk.owned ho
  have hib : l < f.begun.localTypes.length := by rwa [hk.moved.localTypes]
  have hfound {offset : Nat} {o : Op} (hl : o.mentions = some l) (hio : i = .leaf offset o) :
      f.begun.home l = n := by
    subst hio
    exact hn _ (.mention hl)
  refine ⟨fun k hk' => ?_, fun offset o hio ho' => ?_, fun offset o hio ho' => ?_⟩
  · obtain ⟨hlt, hget⟩ := List.getElem?_eq_some_iff.1 hk'
    have hlen : ((f.lifetimes.forcedAt (f.clock + 1)).take k).length = k :=
      List.length_take_of_le (Nat.le_of_lt hlt)
    have hsplit : f.lifetimes.forcedAt (f.clock + 1) =
        (f.lifetimes.forcedAt (f.clock + 1)).take k ++
          l :: (f.lifetimes.forcedAt (f.clock + 1)).drop (k + 1) := by
      rw [← hget]
      simp
    have hline := getElem?_beginCode i hsplit
    rw [hn _ (.zero hsplit), hlen] at hline
    exact ⟨_, _, hk.writes, hline⟩
  · rcases ho' with rfl | rfl
    · refine ⟨_, _, _, hk.writes.bind (keeps_localGet hib []).writes, head_fetched f.begun l, ?_⟩
      rw [slotOf_localRegister hob hib (later_fetched f.begun l), hfound rfl hio]
    · refine ⟨_, _, _, hk.writes.bind (keeps_localSet hib true []).writes, head_stored f.begun l, ?_⟩
      rw [slotOf_localRegister hob hib (later_stored f.begun l true), hfound rfl hio]
  · obtain ⟨copies, value, hcode, hcopies⟩ := storeCode_eq hob hib
    rw [hfound (mentions_of_assigns ho') hio] at hcode hcopies
    have hwrites : ∃ g, Writes (op env offset o) f.begun () g (storeCode f.begun l) := by
      cases o with
      | localSet k | localTee k =>
        obtain rfl : k = l := Option.some.inj ho'
        exact ⟨_, (keeps_localSet hib _ []).writes⟩
      | _ => cases ho'
    obtain ⟨g, hwrites⟩ := hwrites
    exact ⟨f.begun, g, _, copies, value, hk.writes, hcode ▸ hwrites, hcopies⟩

/-! ## Instructions and bodies -/

/-- An instruction that mentions a local asks for its register. -/
theorem later_op {o : Op} {offset : Nat} (hi : l < f.localTypes.length) (ho : o.mentions = some l)
    (hw : Writes (op env offset o) f () g code) : (f.localRegister l).2.Later g := by
  cases o with
  | localGet k =>
    obtain rfl : k = l := Option.some.inj ho
    obtain ⟨-, rfl, -⟩ := hw.unique (keeps_localGet hi []).writes
    exact later_fetched f k
  | localSet k | localTee k =>
    obtain rfl : k = l := Option.some.inj ho
    obtain ⟨-, rfl, -⟩ := hw.unique (keeps_localSet hi _ []).writes
    exact later_stored f k _
  | _ => cases ho

/-- An instruction that does not mention a local gives it no register. -/
theorem Effect.unbound {o : Op} (h : Effect o f code g) (ho : o.mentions ≠ some l)
    (hu : f.Unbound l) : g.Unbound l := by
  have hserves (hs : Serves f code g) : g.Unbound l := by
    obtain ⟨p, literals, hq, -, w, log, sites, rfl⟩ := hs
    have hsheds := (Sheds.of_quiet hq).trans (.performed _ p)
    exact (Sheds.foldl .pushLiteral literals _).unbound l (hsheds.unbound l hu)
  cases h with
  | serves _ _ hs | misses _ _ hs => exact hserves hs
  | jumps _ hh hq _ =>
    refine (Sheds.of_quiet hq).unbound l ?_
    obtain rfl | rfl := hh
    · exact hu
    · exact (Sheds.popped f).unbound l hu
  | @fetches k hk _ =>
    subst hk
    have hne : l ≠ k := fun he => ho (congrArg some he.symm)
    exact ((Sheds.pushRegister _ _).trans (.accessed _ k)).unbound l (unbound_localRegister hne hu)
  | @stores k keep hk _ =>
    have hne : l ≠ k := fun he => ho (he ▸ mentions_of_assigns hk)
    have hpopped : (detached f k).2.popped.Unbound l :=
      ((Sheds.detachAliases _ _).trans (.popped _)).unbound l (unbound_localRegister hne hu)
    refine (Sheds.accessed _ k).unbound l ?_
    cases keep with
    | false => exact hpopped
    | true => exact (Sheds.pushRegister _ _).unbound l hpopped

/-- An instruction without a body. If it asks for the local, it lives where it is found. -/
theorem lodges_op {o : Op} {offset tick : Nat}
    (hwide : o.isWide env.options.branchTableLimit = false) (h : Lodges σ L count l s f)
    (hc : (Instr.leaf offset o).Covered L count A tick) (ht : f.clock = tick + 1)
    (hw : Writes (op env offset o) f () g code) :
    ∃ s', Lodges σ L count l s' g ∧
      ((∀ n ∈ s, L.Spans l f.clock → f.home l = n) → ∀ n ∈ s, n ∈ s') ∧
      (o.mentions = some l → f.home l ∈ s') := by
  obtain ⟨_, g', code', hk⟩ := succeeds_op f [] hwide offset
  obtain ⟨-, rfl, -⟩ := hw.unique hk.writes
  by_cases ho : o.mentions = some l
  · have hi := h.lt
    have hallows : L.Allows l f.clock := by
      obtain ⟨t, hlt, hle, ha, -⟩ := allows_of_mentioned h.declared _ hc (Option.mem_toList.2 ho)
      rwa [ht, show tick + 1 = t from Nat.le_antisymm hlt hle]
    have hlater := later_op hi ho hw
    have hasked := housed_localRegister h.owned hi (by rw [h.lifetimes]; exact hallows.2) 0
    refine ⟨some (f.home l), ⟨h.toGrounds.later hk.moved.toLater, h.declared, hk.owned h.owned,
      hasked.later (h.owned.localRegister hi).1 hlater (Nat.zero_le _)⟩, fun hhome n hn => ?_,
      fun _ => rfl⟩
    rw [hhome n hn hallows.1]
    rfl
  · refine ⟨s, h.passes hk.moved.toLater (hk.owned h.owned) fun hu => ?_, fun _ n hn => hn,
      fun hm => absurd hm ho⟩
    obtain ⟨g', _, hw', he⟩ := effect_op hwide offset
    obtain ⟨-, rfl, -⟩ := hw.unique hw'
    exact he.unbound ho hu

/-- The writing that leads from the frame `f` to the frame `g` and comes to some instructions on its
way knows where the local `l` lives: what is known in front of it goes on holding, and all that is
written for the local at these instructions goes by the slot that is known behind it. If the local
flits, only the frames are known to be in order. -/
def Tracks (env : Env) (σ : Strategy) (L : Lifetimes) (count l : Nat)
    (arrives : Emission → Instr → Emission → Prop) (f g : Frame) : Prop :=
  ∀ s, Lodges σ L count l s f → ∃ s', Lodges σ L count l s' g ∧
    (σ = .pooled ∨ ¬ L.Flits l → (∀ n ∈ s, n ∈ s') ∧
      ∀ n, (∀ m ∈ s', m = n) → ∀ e j p, e.frame = f → arrives e j p → Houses env p.frame l n j)

/-- At an instruction with a body, a local can only be zeroed. -/
theorem houses_of_zeroed {s' : Option Nat} (h : Lodges σ L count l s f)
    (hi : ∀ offset o, i ≠ .leaf offset o)
    (hzero : ∀ before after, f.lifetimes.forcedAt (f.clock + 1) = before ++ l :: after →
      (f.tick.zeroed before).home l ∈ s') (hn : ∀ m ∈ s', m = n) : Houses env f l n i := by
  refine houses_of_asks h.owned h.lt fun m hm => ?_
  cases hm with
  | zero hsplit => exact hn _ (hzero _ _ hsplit)
  | mention => exact absurd rfl (hi _ _)

/-- **The home of a local is followed through a body.** -/
theorem tracks_walk : Walk
    (fun i => ∀ {f g A code}, i.hasWide env.options.branchTableLimit = false →
      i.Covered L count A f.clock → Writes (instr env i) f () g code →
      Tracks env σ L count l (Arrives env i) f g)
    (fun code => ∀ {f g A lines}, bodyHasWide env.options.branchTableLimit code = false →
      bodyCovered L count A f.clock code → Writes (body env code) f () g lines →
      Tracks env σ L count l (BodyArrives env code) f g) where
  leaf offset o f _ _ _ hwide hc hw s h := by
    obtain ⟨_, g', lines, ho⟩ := succeeds_op f.begun [] hwide offset
    obtain ⟨-, rfl, -⟩ := hw.unique (writes_leaf ho.writes)
    obtain ⟨s₁, hle₁, h₁, hhome, hzero⟩ := h.begun hc.1
    obtain ⟨s₂, h₂, hle₂, hasked⟩ := lodges_op hwide h₁ hc (clock_begun f) ho.writes
    refine ⟨s₂, h₂.finished, fun hstays => ?_⟩
    have hle := hle₂ (hhome hstays)
    refine ⟨fun n hn => hle n (hle₁ n hn), fun n hn e j p he ha => ?_⟩
    subst he
    obtain ⟨rfl, rfl⟩ := arrives_leaf.1 ha
    refine houses_of_asks h.owned h.lt fun m hm => hn m ?_
    cases hm with
    | zero hsplit => exact hle _ (hzero _ _ hsplit)
    | mention hm => exact hasked hm
  encloses {i name result inner} hi hbody f _ _ _ hwide hc hw s h := by
    rw [hi.hasWide_eq] at hwide
    obtain ⟨b, g', lines, rfl, hin, rfl, -⟩ := written_encloses hi hwide hw
    obtain ⟨m, hm⟩ := hin.within
    obtain ⟨hlone, B, hcovered⟩ := hc.enclosed hi
    rw [← clock_opened (f.opening name.kind) name result (Moved.opening f name.kind).ticks]
      at hcovered
    obtain ⟨s₁, hle₁, h₁, -, hzero⟩ := h.begun hlone
    obtain ⟨s₂, h₂, hinside⟩ :=
      hbody hwide hcovered hin.keeps.writes s₁ (h₁.opening.opened name result)
    refine ⟨s₂, (h₂.closed hm).finished, fun hstays => ?_⟩
    obtain ⟨hle₂, hinside⟩ := hinside hstays
    refine ⟨fun n hn => hle₂ n (hle₁ n hn), fun n hn e j p he ha => ?_⟩
    subst he
    rcases (arrives_encloses hi).1 ha with ⟨rfl, rfl⟩ | ⟨e', hx, ha⟩
    · exact houses_of_zeroed h hi.ne_leaf (fun _ _ hsplit => hle₂ _ (hzero _ _ hsplit)) hn
    · exact hinside n hn e' j p (frame_of_enter hi.opens_eq hx) ha
  ifElse offset result inner other hinner hother f _ _ _ hwide hc hw s h := by
    obtain ⟨hwide₁, hwide₂⟩ := Bool.or_eq_false_iff.1 hwide
    obtain ⟨b, g₁, lines₁, g₂, lines₂, rfl, hi, ho, rfl, -⟩ := written_ifElse hwide₁ hwide₂ hw
    obtain ⟨m, hm⟩ := hi.within
    obtain ⟨m', hm'⟩ := ho.within
    obtain ⟨s₁, hle₁, h₁, -, hzero⟩ := h.begun hc.2.1
    have hin := hc.2.2.1
    rw [← clock_opened f.begun.popped ⟨.cond, offset⟩ result (clock_popped f)] at hin
    obtain ⟨s₂, h₂, hinside⟩ := hinner hwide₁ hin hi.keeps.writes s₁ (h₁.popped.opened _ _)
    -- what is known behind the first arm is known in front of the second
    have hout := hc.2.2.2
    rw [← clock_turned (clock_opened f.begun.popped ⟨.cond, offset⟩ result (clock_popped f))
      hi.keeps.moved _] at hout
    obtain ⟨s₃, h₃, hother⟩ := hother hwide₂ hout ho.keeps.writes s₂ (h₂.turned hm)
    refine ⟨s₃, (h₃.closed hm').finished, fun hstays => ?_⟩
    obtain ⟨hle₂, hinside⟩ := hinside hstays
    obtain ⟨hle₃, hother⟩ := hother hstays
    refine ⟨fun n hn => hle₃ n (hle₂ n (hle₁ n hn)), fun n hn e j p he ha => ?_⟩
    rcases arrives_ifElse.1 ha with ⟨rfl, rfl⟩ | ⟨e', hx, ha⟩ | ⟨e', hx, ha⟩
    · rw [he]
      exact houses_of_zeroed h (by simp) (fun _ _ hsplit => hle₃ _ (hle₂ _ (hzero _ _ hsplit))) hn
    · have hframe := frame_of_ok
        (writes_enter (i := .ifElse offset result inner other) rfl f) he hx
      exact hinside n (fun k hk => hn k (hle₃ k hk)) _ j p hframe ha
    · obtain ⟨_, hopen⟩ := writes_untilAlternative offset result other hi
      exact hother n hn _ j p (frame_of_ok hopen he hx) ha
  nil _ _ hw s h := by
    obtain ⟨-, rfl, -⟩ := hw.unique (.pure _ ())
    exact ⟨s, h, fun _ => ⟨fun n hn => hn, fun _ _ _ _ _ _ ha => absurd ha arrives_nil⟩⟩
  cons {i rest} hhead hrest _ _ _ _ hwide hc hw s h := by
    obtain ⟨f', _, _, hi, hr, -⟩ := written_cons hwide hw
    obtain ⟨hwide₁, hwide₂⟩ := Bool.or_eq_false_iff.1 hwide
    obtain ⟨s₁, h₁, hhead⟩ := hhead hwide₁ hc.1 hi.writes s h
    have hc₂ := hc.2
    rw [← hi.moved.ticks] at hc₂
    obtain ⟨s₂, h₂, htail⟩ := hrest hwide₂ hc₂ hr.writes s₁ h₁
    refine ⟨s₂, h₂, fun hstays => ?_⟩
    obtain ⟨hle₁, hhead⟩ := hhead hstays
    obtain ⟨hle₂, htail⟩ := htail hstays
    refine ⟨fun n hn => hle₂ n (hle₁ n hn), fun n hn e j p he ha => ?_⟩
    rcases arrives_cons.1 ha with ha | ⟨e', hx, ha⟩
    · exact hhead n (fun k hk => hn k (hle₂ k hk)) e j p he ha
    · exact htail n hn e' j p (frame_of_ok hi.writes he hx) ha

/-! ## Locals that flit -/

/-- Without pooling, a local whose register has been freed at once gets another slot. -/
theorem home_accessed_ne (ho : f.Owned []) (hi : l < f.localTypes.length) (hu : f.Unbound l)
    (hs : ¬ f.lifetimes.Spans l (f.clock + 1)) (hv : f.registers.strategy = .virtual) :
    ((f.localRegister l).2.accessed l).home l ≠ f.home l := by
  obtain ⟨a, -, hr, hu'⟩ := accessed_of_unbound ho hi hu hs
  have htake (r : Registers) (h : r.strategy = .virtual) :
      r.takeSlot.1 = r.slotCount ∧ r.takeSlot.2.slotCount = r.slotCount + 1 := by
    simp only [Registers.takeSlot, h, and_self]
  have hv' : ((f.registers.create (some l) (some f.clock) (f.lifetimes.lastRef l)).2.freed
      f.registers.arena.size a).strategy = .virtual :=
    (strategy_create f.registers (some l) (some f.clock) (f.lifetimes.lastRef l)).trans hv
  rw [home_of_unbound hu', home_of_unbound hu, hr, (htake _ hv').1, (htake _ hv).1]
  change f.registers.takeSlot.2.slotCount ≠ f.registers.slotCount
  rw [(htake _ hv).2]
  exact Nat.succ_ne_self _

/-- A local that is needed at no other instruction than the one in front of which it is zeroed has no
slot where it lives: it is read from another slot than the one that is set to zero. -/
theorem not_houses {offset : Nat} (h : Lodges .virtual L count l s f)
    (ht : (f.clock + 1, l) ∈ L.forced) (hlast : L.lastRef l = some (f.clock + 1))
    (hlone : L.Lone (f.clock + 1)) : ¬ Houses env f l n (.leaf offset (.localGet l)) := by
  intro hh
  have hL := h.lifetimes
  have hi := h.lt
  have hk := keeps_begin (.leaf offset (.localGet l)) f []
  have hib : l < f.begun.localTypes.length := by rwa [hk.moved.localTypes]
  have hu := (h.housed.unbound_tick (hL ▸ ht) (Nat.lt_succ_self _)).2
  have hspans : ¬ L.Spans l (f.clock + 2) := by
    rintro ⟨last, hl, hle⟩
    rw [hlast] at hl
    have := Option.some.inj hl
    omega
  have hforced : f.lifetimes.forcedAt (f.clock + 1) = [l] := by
    rw [hL]
    exact forcedAt_eq_singleton h.nodup hlone ht hspans
  obtain ⟨g, code, hw, hline⟩ := hh.zeroed 0 (by rw [hforced]; rfl)
  obtain ⟨-, -, rfl⟩ := hw.unique hk.writes
  obtain ⟨g, code, id, hw, hhead, hslot⟩ := hh.pushed offset _ rfl (.inl rfl)
  obtain ⟨-, rfl, -⟩ := hw.unique (hk.writes.bind (keeps_localGet hib []).writes)
  rw [head_fetched] at hhead
  obtain rfl : (f.begun.localRegister l).1 = id := by simpa using hhead
  rw [slotOf_localRegister (hk.owned h.owned) hib (later_fetched f.begun l)] at hslot
  have hzero := hline.symm.trans
    (@getElem?_beginCode f l [] [] (.leaf offset (.localGet l)) hforced)
  have hn : n = f.tick.home l := by simpa [Expr.slot, Frame.zeroed] using hzero
  -- the zeroing frees the register of the local, so that the read asks for a new one
  have hbegun : f.begun = (f.tick.localRegister l).2.accessed l := by
    rw [begun, show f.tick.clock = f.clock + 1 from rfl, hforced]
    rfl
  refine home_accessed_ne h.owned.tick hi hu (hL ▸ hspans) h.strategy ?_
  rw [← hbegun, hslot, hn]

/-- What is known where the writing of a body comes to one of its instructions. -/
theorem arrives_append {before after : List Instr} {lines : List Line}
    (hwide : bodyHasWide env.options.branchTableLimit (before ++ i :: after) = false)
    (hc : bodyCovered L count A f.clock (before ++ i :: after)) (h : Lodges σ L count l s f)
    (hw : Writes (body env (before ++ i :: after)) f () g lines) :
    ∃ k s', Lodges σ L count l s' k ∧ k.clock = f.clock + bodyTicks before ∧
      (∃ B, i.Covered L count B k.clock) ∧
      ∀ e, e.frame = f → ∃ p, BodyArrives env (before ++ i :: after) e i p ∧ p.frame = k := by
  induction before generalizing f s A lines with
  | nil => exact ⟨f, s, h, rfl, ⟨A, hc.1⟩, fun e he => ⟨e, arrives_cons.2 (.inl (.self i e)), he⟩⟩
  | cons j before ih =>
    obtain ⟨f', _, _, hj, hr, -⟩ := written_cons hwide hw
    obtain ⟨hwide₁, hwide₂⟩ := Bool.or_eq_false_iff.1 hwide
    obtain ⟨s₁, h₁, -⟩ := tracks_walk.instr j hwide₁ hc.1 hj.writes s h
    have hc₂ := hc.2
    rw [← hj.moved.ticks] at hc₂
    obtain ⟨k, s', hk, hclock, hcovered, harrives⟩ := ih hwide₂ hc₂ h₁ hr.writes
    refine ⟨k, s', hk, ?_, hcovered, fun e he => ?_⟩
    · rw [hclock, hj.moved.ticks, bodyTicks, Nat.add_assoc]
    · obtain ⟨e', he', hf', -⟩ := hj.writes e he
      obtain ⟨p, hp, hpk⟩ := harrives e' hf'
      exact ⟨p, arrives_cons.2 (.inr ⟨e', he', hp⟩), hpk⟩

end Emit

section

open Moonstack.Frame Emit Instr

variable (env : Env) (id : String) (function : Function) (signature : Signature)

/-- In front of the body, a parameter lives in the slot of its name, and the other locals have no
register yet. -/
theorem lodges_entered {l : Nat} (hl : l < (signature.params ++ function.locals).length) :
    Lodges env.options.strategy (function.lifetimes signature)
      (signature.params ++ function.locals).length l
      (if l < signature.params.length then some l else none)
      (function.startFrame env id signature).entered := by
  obtain ⟨hb, -⟩ := binds_params env id function signature
  obtain ⟨hbind, -⟩ := moved_bindAll (function.startFrame env id signature)
    (List.range signature.params.length)
  obtain ⟨haccess, -, hsheds⟩ := moved_accessedAll ((function.startFrame env id signature).bindAll
      (List.range signature.params.length)) (List.range signature.params.length)
  have hground : Grounds env.options.strategy (function.lifetimes signature)
      (signature.params ++ function.locals).length (function.startFrame env id signature) :=
    ⟨rfl, rfl, rfl, nodup_forced_ofBody _ _ _⟩
  refine Lodges.passes ⟨hground.later hbind.toLater, hl, hb.owned, ?_⟩ haccess.toLater
    (hb.owned.accessedAll _) (hsheds.unbound l)
  by_cases hparam : l < signature.params.length
  · rw [if_pos hparam]
    refine ⟨fun _ => hb.bound l hparam, fun t ht => ?_⟩
    rw [hbind.lifetimes] at ht
    exact absurd (forced_ofBody ht).1 (Nat.not_le.2 hparam)
  · rw [if_neg hparam]
    exact hb.unbound l (Nat.not_lt.1 hparam)

variable {env id function} {name : String} {lowered : Lowered}

/-- **A local lives in one slot.** When a function is written, the writing comes to every instruction
of its body, and there is a slot for each of its locals by which all goes that is written for it: the
name of a parameter, the line that sets it to zero, what its reads push and what its assignments
assign. The only exception is, without pooling, a declared local that the body mentions in one read
at its top level and nowhere else: it is set to zero in one slot and read from another. -/
theorem housed_lowerFunction (h : (lowerFunction env id name function).outcome.1 = .ok lowered) :
    ∃ signature e, env.registry.types[function.type]? = some signature ∧
      Emit.params signature.params.length
        { frame := startFrame env id (some signature) function.locals function.body } =
        .ok lowered.params e ∧
      (∀ i ∈ bodySubterms function.body, ∃ p, BodyArrives env function.body e i p) ∧
      ∀ l < (signature.params ++ function.locals).length,
        ((∃ n, (l < signature.params.length → lowered.params[l]? = some (slotName n)) ∧
          ∀ i p, BodyArrives env function.body e i p → Houses env p.frame l n i) ↔
        ¬ (env.options.strategy = .virtual ∧ signature.params.length ≤ l ∧
          ReadsOnce l function.body)) := by
  obtain ⟨signature, f, g, code, hs, hover, hf, hw, -, hp, -⟩ := written_lowerFunction h
  obtain ⟨e, he, hef, -⟩ := writes_params f { frame := f } rfl
  have hcount : f.paramCount = signature.params.length := by rw [hf]; rfl
  rw [← hp, hcount, hf] at he
  rw [Options.oversized, Bool.or_eq_false_iff] at hover
  refine ⟨signature, e, hs, he, fun i hi => arrives_walk.body _ hover.2 i hi e, fun l hl => ?_⟩
  have hlodges := lodges_entered env id function signature hl
  rw [← hf, Function.lifetimes] at hlodges
  have hclock : f.entered.clock = 0 := by
    rw [hf]
    exact (moved_entered env id function signature).1.ticks
  have hcovered := covered_ofBody function.body (signature.params ++ function.locals).length
    signature.params.length
  rw [← hclock] at hcovered
  constructor
  · rintro ⟨n, -, hn⟩ ⟨hv, hparam, before, offset, after, hsplit, hbefore, hafter⟩
    -- at its one read, the local is found in another slot than the one that is set to zero
    rw [hsplit] at hover hcovered hw hlodges hn
    obtain ⟨hforced, hlast⟩ := forced_of_reads hparam hl hbefore hafter
    obtain ⟨k, s, hk, hticks, ⟨B, hc⟩, harrives⟩ := arrives_append hover.2 hcovered hlodges hw
    obtain ⟨p, hp, rfl⟩ := harrives e hef
    rw [hv] at hk
    rw [hclock, Nat.zero_add] at hticks
    rw [← hticks] at hforced hlast
    exact not_houses hk hforced hlast hc.1 (hn _ p hp)
  · intro hstays
    obtain ⟨s, -, hall⟩ := tracks_walk.body function.body hover.2 hcovered hw _ hlodges
    obtain ⟨hle, hall⟩ := hall (by
      cases hv : env.options.strategy with
      | pooled => exact .inl rfl
      | virtual =>
        exact .inr fun hflits =>
          hstays ⟨hv, (flits_iff.1 hflits).1.1, (flits_iff.1 hflits).2⟩)
    refine ⟨s.getD 0, fun hparam => ?_, fun i p ha => hall _ (fun m hm => ?_) e i p hef ha⟩
    · have hslot : s = some l := hle l (by rw [if_pos hparam]; rfl)
      have hnames := (binds_params env id function signature).2
      rw [← hf, ← hp] at hnames
      rw [hnames, hslot]
      simp [hparam]
    · rw [Option.mem_def.1 hm]
      rfl

/-- The declared local 1 is read once. The parameter and the declared local 2 are used in a loop. -/
def fleeting : Function where
  name := none
  type := 0
  locals := [.i32, .i32]
  body := [
    .leaf 0 (.localGet 1),
    .loop 2 none [
      .leaf 4 (.localGet 0), .leaf 6 (.localGet 2), .leaf 8 (.localTee 0), .leaf 10 (.localSet 2),
      .leaf 12 (.brIf 0)]]

theorem housed_lowerFunction_fleeting :
    let env : Env :=
      { options := { strategy := .virtual }, registry := { types := [⟨[.i32], [.i32]⟩] } }
    ∃ lowered e, (lowerFunction env "f" "f" fleeting).outcome.1 = .ok lowered ∧
      let Lives (l : Nat) := ∃ n, (l < 1 → lowered.params[l]? = some (slotName n)) ∧
        ∀ i p, BodyArrives env fleeting.body e i p → Houses env p.frame l n i
      Lives 0 ∧ ¬ Lives 1 ∧ Lives 2 := by
  intro env
  obtain ⟨f, g, code, lowered, -, -, -, -, -, -, hy⟩ :=
    @yields_lowerFunction env fleeting _ "f" "f" rfl (by decide)
  obtain ⟨signature, e, hs, -, -, hlives⟩ := housed_lowerFunction hy.outcome
  obtain rfl : ⟨[.i32], [.i32]⟩ = signature := Option.some.inj hs
  refine ⟨lowered, e, hy.outcome, (hlives 0 (by decide)).2 ?_, fun h => ?_,
    (hlives 2 (by decide)).2 ?_⟩
  · rintro ⟨-, h, -⟩
    exact absurd h (by decide)
  · exact (hlives 1 (by decide)).1 h ⟨rfl, by decide, [], 0, _, rfl, by decide, by decide⟩
  · rintro ⟨-, -, before, offset, after, hsplit, -⟩
    have hmem : .leaf offset (.localGet 2) ∈ fleeting.body := by simp [hsplit]
    simp [fleeting] at hmem

end

end Moonstack
