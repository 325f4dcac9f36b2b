import Moonstack.Proofs.Simulation.Match

/-!
# Locals and their slots

What the code that reads, assigns and zeroes locals does to the slots.

A local has a value at an instruction if it has been assigned or zeroed and its lifetime is not over:
then its value stands in the slot that it has when it is asked for (`Domain.Offers`). The one case
that needs care is a local that is zeroed in front of the only instruction that mentions it. Its
register is freed at once, and the instruction asks for a new one; with pooled slots this is the slot
that has just been zeroed (`Frame.home_accessed`).
-/

namespace Moonstack

variable {id : RegisterId}

namespace Frame

variable {f g : Frame} {held : List RegisterId} {index : Nat}

/-- The slot of a local when it is asked for. -/
def home (f : Frame) (index : Nat) : Nat :=
  (f.localRegister index).2.registers.slotOf (f.localRegister index).1

theorem home_of_bound (h : f.locals[index]? = some (some id)) :
    f.home index = f.registers.slotOf id := by
  rw [home, localRegister_of_bound h]

theorem get?_bind (f : Frame) (index : Nat) : (f.bind index).registers.get? f.registers.arena.size =
    some { boundTo := some index, slot := f.registers.takeSlot.1, firstRef := some f.clock,
           lastRef := f.lifetimes.lastRef index } := by
  rw [Frame.bind, Registers.createNamed, get?_create, if_pos rfl]

theorem home_of_unbound (h : f.Unbound index) : f.home index = f.registers.takeSlot.1 := by
  rw [home, localRegister_of_unbound h]
  simp only [Registers.slotOf, get?_bind, Option.map_some, Option.getD_some]

/-- The end of the first access to a local that is not needed any more: its register is freed. -/
theorem accessed_of_unbound (ho : f.Owned held) (hi : index < f.localTypes.length)
    (hu : f.Unbound index) (hs : ¬ f.lifetimes.Spans index (f.clock + 1)) :
    ∃ a, a.slot = f.registers.takeSlot.1 ∧
      ((f.localRegister index).2.accessed index).registers =
        (f.registers.create (some index) (some f.clock) (f.lifetimes.lastRef index)).2.freed
          f.registers.arena.size a ∧
      ((f.localRegister index).2.accessed index).Unbound index := by
  have hb := (ho.localRegister hi).2
  have hget := f.get?_bind index
  have hlast : f.lifetimes.lastRef index = none ∨
      ∃ last, f.lifetimes.lastRef index = some last ∧ ¬ f.clock < last := by
    cases hl : f.lifetimes.lastRef index with
    | none => exact .inl rfl
    | some last => exact .inr ⟨last, rfl, fun hc => hs ⟨last, hl, hc⟩⟩
  rw [localRegister_of_unbound hu] at hb ⊢
  simp only [accessed, hb, Option.join_some, freed]
  rw [hget]
  simp only [Bool.not_true, bne_self_eq_false, Bool.or_self, Bool.false_eq_true, if_false]
  rw [if_neg]
  · rw [surrender_eq]
    refine ⟨_, rfl, rfl, ?_⟩
    have hb' : (f.bind index).locals[index]? = some (some f.registers.arena.size) := hb
    simp only [Unbound, Option.elim_some, Array.getElem?_modify, if_true, hb', Option.map_some,
      Option.join_some]
  · simp only [outlives, Option.isSome_some, Bool.true_and, Bool.not_eq_true]
    rcases hlast with hl | ⟨last, hl, hc⟩
    · rw [hl]
      rfl
    · rw [hl]
      exact decide_eq_false hc

/-- A local whose register has been freed at once gets the same slot again, if slots are pooled. -/
theorem home_accessed (ho : f.Owned held) (hi : index < f.localTypes.length) (hu : f.Unbound index)
    (hs : ¬ f.lifetimes.Spans index (f.clock + 1)) (hp : f.registers.strategy = .pooled) :
    ((f.localRegister index).2.accessed index).home index = f.home index := by
  obtain ⟨a, ha, hr, hu'⟩ := accessed_of_unbound ho hi hu hs
  rw [home_of_unbound hu', home_of_unbound hu, hr]
  exact ho.sound.takeSlot_freed hp _ _ _ _ ha

/-- Another local keeps its register through an access to a local. -/
theorem bound_accessed (ho : f.Owned held) {l : Nat} (hb : f.locals[l]? = some (some id))
    (hne : l ≠ index) : (f.accessed index).locals[l]? = some (some id) := by
  refine accessed_cases hb fun hj => Owned.bound_freed hb ?_
  rintro rfl
  obtain ⟨a, ha, -, hbound, -⟩ := ho.bound hj
  obtain ⟨a', ha', -, hbound', -⟩ := ho.bound hb
  rw [ha] at ha'
  cases ha'
  rw [hbound] at hbound'
  exact hne (Option.some.inj hbound').symm

theorem bound_localRegister {l : Nat} (hb : f.locals[l]? = some (some id)) :
    (f.localRegister index).2.locals[l]? = some (some id) := by
  refine localRegister_cases (fun _ => hb) fun hj => ?_
  have hne : index ≠ l := by
    rintro rfl
    rw [hb] at hj
    cases hj
  simp only [Frame.bind, Array.getElem?_modify, if_neg hne]
  exact hb

end Frame

namespace Domain

open Moonstack.Frame

variable {D : Domain} {env : Env} {f g : Frame} {held : List RegisterId} {A S : Nat → Prop}
  {vals outer : List D.Value} {ls : Nat → D.Value} {σ : D.Store} {index : Nat}

/-- The locals of `S` have registers, which hold their values. -/
def Stores (D : Domain) (f : Frame) (S : Nat → Prop) (ls : Nat → D.Value) (σ : D.Store) : Prop :=
  ∀ l, S l → ∃ id, f.locals[l]? = some (some id) ∧ σ (f.registers.slotOf id) = D.cell (ls l)

/-- The locals of `A` that may be read at the current instruction can be read. -/
def Offers (D : Domain) (f : Frame) (A : Nat → Prop) (ls : Nat → D.Value) (σ : D.Store) : Prop :=
  ∀ l, A l → f.lifetimes.Spans l f.clock → σ (f.home l) = D.cell (ls l)

/-- The new register of a local is not on the stack. -/
theorem not_mem_localRegister (ho : f.Owned held) (hu : f.Unbound index) :
    .register (f.localRegister index).1 ∉ (f.localRegister index).2.stack := by
  rw [stack_localRegister, localRegister_of_unbound hu]
  intro hm
  obtain ⟨a, ha, -⟩ := ho.stacked hm
  rw [Owned.get?_size] at ha
  cases ha

/-- A local that has no register yet is zeroed. -/
theorem Match.zeroOne (h : Match D f A vals outer ls σ) (ho : f.Owned held)
    (hi : index < f.localTypes.length) (hu : f.Unbound index)
    (hf : ∀ t, (t, index) ∈ f.lifetimes.forced → t ≤ f.clock) :
    Match D ((f.localRegister index).2.accessed index) (fun l => A l ∨ l = index) vals outer ls
      (Function.update σ (f.home index) (D.cell (ls index))) := by
  obtain ⟨ho', hb⟩ := ho.localRegister hi
  have hm := Moved.localRegister f index
  have ha := (h.localRegister ho index).assign ho' hb (not_mem_localRegister ho hu)
    (by rw [hm.lifetimes, hm.ticks]; exact hf) (ls index)
  rw [Function.update_eq_self] at ha
  exact ha.accessed ho' index

/-- The other locals keep their values. -/
theorem Stores.zeroOne (h : D.Stores f S ls σ) (ho : f.Owned held)
    (hi : index < f.localTypes.length) (hu : f.Unbound index) (c : D.Cell) :
    D.Stores ((f.localRegister index).2.accessed index) S ls (Function.update σ (f.home index) c)
      := by
  intro l hl
  obtain ⟨id, hid, hσ⟩ := h l hl
  obtain ⟨a, ha, hlive, -⟩ := ho.bound hid
  have hne : l ≠ index := by
    rintro rfl
    rw [Unbound, hid] at hu
    cases hu
  have hlater := (f.later_localRegister index).trans (later_accessed _ index)
  have hslot : f.registers.slotOf id ≠ f.home index := by
    rw [home_of_unbound hu, Registers.slotOf, ha]
    exact ho.sound.takeSlot.1 ha hlive
  refine ⟨id, bound_accessed (ho.localRegister hi).1 (bound_localRegister hid) hne, ?_⟩
  rw [hlater.slotOf ha, Function.update_of_ne hslot]
  exact hσ

/-- A local that is zeroed and needed later has a register, which holds zero. -/
theorem stores_zeroOne (ho : f.Owned held) (hi : index < f.localTypes.length)
    (hs : f.lifetimes.Spans index (f.clock + 1)) :
    D.Stores ((f.localRegister index).2.accessed index) (· = index) ls
      (Function.update σ (f.home index) (D.cell (ls index))) := by
  rintro l rfl
  obtain ⟨ho', hb⟩ := ho.localRegister hi
  obtain ⟨a, ha, -, hbound, hlast⟩ := ho'.bound hb
  obtain ⟨last, hl, hle⟩ := hs
  have hm := Moved.localRegister f l
  have hlast' : a.lastRef = some last := by rw [hlast, hm.lifetimes, hl]
  refine ⟨_, (later_accessed _ l).bound hb ha hbound hlast' ?_, ?_⟩
  · rw [(Moved.accessed _ l).ticks, hm.ticks]
    omega
  · rw [(later_accessed _ l).slotOf ha]
    exact Function.update_self _ _ _

/-- Locals that have no registers yet and are needed later are zeroed. -/
theorem Match.zeroed (hD : D.Lawful env) {indices : List Nat} (h : Match D f A vals outer ls σ)
    (hS : D.Stores f S ls σ) (ho : f.Owned held)
    (hi : ∀ i ∈ indices, i < f.localTypes.length ∧ f.Unbound i ∧
      ls i = D.zero ((f.localTypes[i]?).getD .i32) ∧
      (∀ t, (t, i) ∈ f.lifetimes.forced → t ≤ f.clock) ∧ f.lifetimes.Spans i (f.clock + 1))
    (hd : indices.Nodup) :
    D.Through (fun τ => Match D (f.zeroed indices) (fun l => A l ∨ l ∈ indices) vals outer ls τ ∧
      D.Stores (f.zeroed indices) (fun l => S l ∨ l ∈ indices) ls τ) (f.zeroCode indices) σ := by
  induction indices generalizing f A S σ with
  | nil =>
    refine ⟨h.mono fun l hl => ?_, fun l hl => hS l ?_⟩
    · exact hl.resolve_right List.not_mem_nil
    · exact hl.resolve_right List.not_mem_nil
  | cons i rest ih =>
    obtain ⟨hlt, hu, hz, hf, hs⟩ := hi i List.mem_cons_self
    obtain ⟨hn, hd⟩ := List.nodup_cons.1 hd
    have hm := (Moved.localRegister f i).trans (Moved.accessed _ i)
    have hrest (l : Nat) : l ∈ i :: rest ↔ l = i ∨ l ∈ rest := List.mem_cons
    refine ⟨rfl, _, hD.exec_zero σ _ _, ?_⟩
    rw [← hz]
    have hS' : D.Stores ((f.localRegister i).2.accessed i) (fun l => S l ∨ l = i) ls
        (Function.update σ (f.home i) (D.cell (ls i))) := by
      rintro l (hl | hl)
      · exact hS.zeroOne ho hlt hu _ l hl
      · exact stores_zeroOne ho hlt hs l hl
    refine (ih (h.zeroOne ho hlt hu hf) hS' ((ho.localRegister hlt).1.accessed i) (fun j hj => ?_)
      hd).mono fun τ hτ => ?_
    · obtain ⟨hlt, hu, hz, hf, hs⟩ := hi j (List.mem_cons_of_mem _ hj)
      rw [hm.localTypes, hm.lifetimes, hm.ticks]
      refine ⟨hlt, (Sheds.accessed _ i).unbound _ (unbound_localRegister ?_ hu), hz, hf, hs⟩
      rintro rfl
      exact hn hj
    · simp only [hrest, ← or_assoc]
      exact hτ

/-- **The begin of an instruction** zeroes locals; then every local that may be read can be read. -/
theorem Match.begun (hD : D.Lawful env) {L : Lifetimes} {count : Nat}
    {outerS s : List (Option Nat)} {rest : List Entry} (h : Match D f A vals outer ls σ)
    (hf : Frame.Setting L count f) (hst : Stands outerS s rest f) (hlone : L.Lone (f.clock + 1)) :
    D.Through (fun τ => Match D f.begun (L.zeroing (f.clock + 1) A) vals outer ls τ ∧
      D.Offers f.begun (L.zeroing (f.clock + 1) A) ls τ)
      (f.tick.zeroCode (f.lifetimes.forcedAt f.tick.clock)) σ := by
  have hL := hf.lifetimes
  have hclock : f.begun.clock = f.clock + 1 := clock_begun f
  have hlife : f.begun.lifetimes = L := (hf.opening .block).lifetimes
  have htick : Match D f.tick A vals outer ls σ := h.later hst.owned f.later_tick rfl rfl
  have hmem {i : Nat} (hi : i ∈ f.lifetimes.forcedAt f.tick.clock) : (f.clock + 1, i) ∈ L.forced :=
    hL ▸ mem_forcedAt hi
  have hforced {i : Nat} (hi : (f.clock + 1, i) ∈ L.forced) :
      i ∈ f.lifetimes.forcedAt f.tick.clock := by
    rw [hL]
    exact List.mem_map.2 ⟨_, List.mem_filter.2 ⟨hi, by simp [Frame.tick]⟩, rfl⟩
  have hS : D.Stores f.tick (fun l => A l ∧ L.Spans l (f.clock + 1)) ls σ :=
    fun l hl => h.locals l hl.1 (hL ▸ hl.2)
  have hknown {i : Nat} (hi : i ∈ f.lifetimes.forcedAt f.tick.clock) :
      i < f.tick.localTypes.length ∧ f.tick.Unbound i ∧
        ls i = D.zero ((f.tick.localTypes[i]?).getD .i32) ∧
        ∀ t, (t, i) ∈ f.tick.lifetimes.forced → t ≤ f.tick.clock := by
    have hp : (f.clock + 1, i) ∈ f.lifetimes.forced := hL ▸ hmem hi
    refine ⟨hst.owned.forced _ hp, hst.fresh hp (Nat.lt_succ_self _),
      h.fresh _ _ hp (Nat.lt_succ_self _), fun t ht => Nat.le_of_eq ?_⟩
    exact forced_unique hf.nodup (hL ▸ ht) (hmem hi)
  by_cases hspan : ∀ i ∈ f.lifetimes.forcedAt f.tick.clock, L.Spans i (f.clock + 2)
  · -- all registers outlive the instruction
    have hd : (f.lifetimes.forcedAt f.tick.clock).Nodup := by
      rw [hL]
      exact hf.nodup.sublist (List.filter_sublist.map _)
    refine (htick.zeroed hD hS hst.owned.tick (fun i hi => ?_) hd).mono fun τ hτ => ⟨?_, ?_⟩
    · obtain ⟨hlt, hu, hz, hle⟩ := hknown hi
      exact ⟨hlt, hu, hz, hle, hL ▸ hspan i hi⟩
    · exact hτ.1.mono fun l hl => hl.imp_right hforced
    · intro l hl hs
      rw [hlife, hclock] at hs
      obtain ⟨id, hid, hσ⟩ := hτ.2 l (hl.elim (fun hA => .inl ⟨hA, hs⟩) fun hp => .inr (hforced hp))
      have hhome : f.begun.home l = f.begun.registers.slotOf id := home_of_bound hid
      rw [hhome]
      exact hσ
  · -- the local that does not is the only one, and its slot is taken again
    simp only [not_forall] at hspan
    obtain ⟨i, hi, hs⟩ := hspan
    have hone : f.lifetimes.forcedAt f.tick.clock = [i] := by
      have hall : ∀ j ∈ f.lifetimes.forcedAt f.tick.clock, j = i := fun j hj =>
        ((hlone i j (hmem hi) (hmem hj)).resolve_left hs).symm
      have hd : (f.lifetimes.forcedAt f.tick.clock).Nodup := by
        rw [hL]
        exact hf.nodup.sublist (List.filter_sublist.map _)
      exact List.perm_singleton.1 ((List.perm_ext_iff_of_nodup hd (List.nodup_singleton i)).2
        fun j => ⟨fun hj => List.mem_singleton.2 (hall j hj), fun hj =>
          List.mem_singleton.1 hj ▸ hi⟩)
    have hp : f.registers.strategy = .pooled :=
      hf.lasting.resolve_right fun hall => hs (hall _ (hmem hi))
    obtain ⟨hlt, hu, hz, hle⟩ := hknown hi
    have hbegun : f.begun = (f.tick.localRegister i).2.accessed i := by
      rw [Frame.begun, hone]
      rfl
    rw [hone]
    refine ⟨rfl, _, hD.exec_zero σ _ _, ?_⟩
    rw [← hz, hbegun]
    refine ⟨(htick.zeroOne hst.owned.tick hlt hu hle).mono fun l hl => hl.imp_right fun hp => ?_, ?_⟩
    · exact List.mem_singleton.1 (hone ▸ hforced hp)
    · intro l hl hsl
      rw [← hbegun, hlife, hclock] at hsl
      by_cases hli : l = i
      · subst hli
        rw [home_accessed hst.owned.tick hlt hu (hL ▸ hs) hp]
        exact Function.update_self _ _ _
      · have hA : A l := hl.resolve_right fun hp => hli (List.mem_singleton.1 (hone ▸ hforced hp))
        obtain ⟨id, hid, hσ⟩ := hS.zeroOne hst.owned.tick hlt hu _ l ⟨hA, hsl⟩
        rw [home_of_bound hid]
        exact hσ

/-- A local that can be read is pushed. -/
theorem Match.fetched (h : Match D f A vals outer ls σ) (ho : f.Owned [])
    (hi : index < f.localTypes.length) (hv : σ (f.home index) = D.cell (ls index)) :
    Match D (Emit.fetched f index) A (ls index :: vals) outer ls σ := by
  obtain ⟨ho', hb⟩ := ho.localRegister hi
  obtain ⟨a, ha, -⟩ := ho'.bound hb
  exact ((h.localRegister ho index).pushRegister ho' ha hv).accessed (ho'.pushBound hb) index

/-- The values of a local on the stack are copied. -/
theorem Match.detached (hD : D.Lawful env) (h : Match D f A vals outer ls σ) (ho : f.Owned held)
    (hb : f.locals[index]? = some (some id)) :
    D.Through (Match D (f.detachAliases id).2 A vals outer ls)
      ((f.detachAliases id).1.toList.map .stmt) σ := by
  by_cases hm : Entry.register id ∈ f.stack
  · have hl := f.later_detachAliases id
    have hlocals := f.locals_detachAliases id
    obtain ⟨g, hg, hs, hblocks, a, ha, -, hslot⟩ :=
      detachAliases_of_referenced (ho.referenced hb hm)
    rw [hg] at hl hlocals ⊢
    obtain ⟨n, hn, he⟩ := List.mem_iff_getElem.1 hm
    obtain ⟨c, hc, -⟩ := ho.bound hb
    obtain ⟨v, hv⟩ : ∃ v, σ (f.registers.slotOf id) = D.cell v := by
      have hget := (List.forall₂_iff_get.1 h.stack).2 n hn (h.stack.length_eq ▸ hn)
      rw [List.get_eq_getElem, he] at hget
      exact ⟨_, hget⟩
    have hcopy : g.registers.slotOf f.registers.arena.size = f.registers.takeSlot.1 := by
      simp only [Registers.slotOf, ha, Option.map_some, Option.getD_some, hslot]
    -- the slot of the copy belongs to no register that is in use
    have hkeep {i : RegisterId} {b : Register} (hi : f.registers.get? i = some b)
        (hlive : b.live = true) :
        Function.update σ (g.registers.slotOf f.registers.arena.size) (D.cell v)
          (g.registers.slotOf i) = σ (f.registers.slotOf i) := by
      rw [hl.slotOf hi, Function.update_of_ne]
      rw [hcopy, Registers.slotOf, hi]
      exact ho.sound.takeSlot.1 hi hlive
    have hhas : D.Has σ (.slot (g.registers.slotOf id)) v := by
      rw [hl.slotOf hc]
      exact hv
    refine ⟨rfl, _, hD.exec_copy _ hhas, ⟨?_, ?_, fun l hA hsp => ?_, h.fresh_later hl⟩⟩
    · rw [hs, List.forall₂_map_left_iff]
      refine List.forall₂_iff_zip.2 ⟨h.stack.length_eq, fun {e w} hz => ?_⟩
      have hew := (List.forall₂_iff_zip.1 h.stack).2 hz
      have hmem := (List.of_mem_zip hz).1
      by_cases hid : e = .register id
      · subst hid
        rw [redirect, if_pos rfl]
        exact (Function.update_self _ _ _).trans (hv.symm.trans hew)
      · rw [redirect, if_neg hid]
        cases e with
        | literal l => cases l <;> exact hew
        | register i =>
          obtain ⟨b, hi, hlive⟩ := ho.stacked hmem
          exact (hkeep hi hlive).trans hew
    · exact (floor_of_blocks hblocks).trans h.floor
    · rw [hl.lifetimes] at hsp
      obtain ⟨i, hi, hσ⟩ := h.locals l hA (hsp.mono (Nat.succ_le_succ hl.clock))
      obtain ⟨b, hget, hlive, -⟩ := ho.bound hi
      refine ⟨i, ?_, (hkeep hget hlive).trans hσ⟩
      rw [hlocals]
      exact hi
  · rw [detachAliases_of_not_mem ho hb hm]
    exact h

/-- The value on top of the stack goes to the register of a local that is not on the stack. -/
theorem Match.moved {v : D.Value} (hD : D.Lawful env) (h : Match D f A (v :: vals) outer ls σ)
    (ho : f.Owned held) (hb : f.locals[index]? = some (some id)) (hn : Entry.register id ∉ f.stack)
    (hf : ∀ t, (t, index) ∈ f.lifetimes.forced → t ≤ f.clock) (keep : Bool) :
    D.Through (Match D ((if keep then f.popped.pushRegister id else f.popped).accessed index)
        (fun l => A l ∨ l = index) (if keep then v :: vals else vals) outer
        (Function.update ls index v))
      (Emit.copied (f.popped.registers.slotOf id) f.top) σ := by
  have hbp := Owned.bound_popped hb hn
  have hnp : Entry.register id ∉ f.popped.stack := by
    rw [(Moved.popped_frame f).1]
    split
    · exact hn
    · exact fun hm => hn (List.mem_of_mem_tail hm)
  have hm := Moved.popped f
  obtain ⟨htop, hp⟩ := h.pop ho
  refine Through.copied hD htop ?_
  have ha := hp.assign ho.popped hbp hnp (by rw [hm.lifetimes, hm.ticks]; exact hf) v
  cases keep with
  | false => exact ha.accessed ho.popped index
  | true =>
    obtain ⟨a, hget, -⟩ := ho.popped.bound hbp
    exact (ha.pushRegister ho.popped hget (Function.update_self _ _ _)).accessed
      (ho.popped.pushBound hbp) index

/-- **The code of an assignment** puts the value on top of the stack into the register of the local.
-/
theorem Match.stored {v : D.Value} (hD : D.Lawful env) (h : Match D f A (v :: vals) outer ls σ)
    (ho : f.Owned held) (hi : index < f.localTypes.length)
    (hf : ∀ t, (t, index) ∈ f.lifetimes.forced → t ≤ f.clock) (keep : Bool) :
    D.Through (Match D (Emit.stored f index keep) (fun l => A l ∨ l = index)
        (if keep then v :: vals else vals) outer (Function.update ls index v))
      (Emit.storeCode f index) σ := by
  obtain ⟨ho', hb⟩ := ho.localRegister hi
  obtain ⟨hod, hn⟩ := ho'.detachAliases hb
  have hm := (Moved.localRegister f index).trans
    (Moved.detachAliases _ (f.localRegister index).1)
  rw [Emit.storeCode, Emit.stored, Emit.detached]
  refine Through.append (((h.localRegister ho index).detached hD ho' hb).mono fun τ hτ => ?_)
  refine hτ.moved hD hod ?_ hn (fun t ht => ?_) keep
  · rw [locals_detachAliases]
    exact hb
  · rw [hm.lifetimes] at ht
    rw [hm.ticks]
    exact hf t ht

end Domain

end Moonstack
