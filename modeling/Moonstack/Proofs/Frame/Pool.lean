import Moonstack.Proofs.Frame.Histories

/-!
# Live registers and free slots

The books that the allocator keeps. The registers in use are counted (`Balanced.count`), and under the
pooled strategy each slot that was ever given out is held by one live register or is free
(`Balanced.slots`), so a new register takes the lowest slot that is not held, and there are as many
slots as registers were ever in use at one time (`allocation_run`).
-/

namespace Moonstack.Registers

/-- The registers that have not been freed. -/
def live (r : Registers) : List Register := r.arena.toList.filter Register.live

def liveSlots (r : Registers) : List Nat := r.live.map Register.slot

/-- A register among the live ones, before and after a change to it. -/
theorem live_modify (r : Registers) (id : RegisterId) (g : Register → Register) :
    ∃ front as back, r.live = front ++ as.filter Register.live ++ back ∧
      (r.modify id g).live = front ++ (as.map g).filter Register.live ++ back ∧
      as = (r.get? id).toList := by
  unfold live Registers.modify
  rw [Array.toList_modify, get?, ← Array.getElem?_toList]
  by_cases hid : id < r.arena.toList.length
  · obtain ⟨front, a, back, ha, hlen, hm⟩ := List.exists_of_modify g hid
    refine ⟨front.filter Register.live, [a], back.filter Register.live, ?_, ?_, ?_⟩
    · rw [ha]
      simp [← List.filter_append]
    · rw [hm]
      simp [← List.filter_append]
    · rw [ha, ← hlen]
      simp
  · rw [List.modify_eq_self (Nat.le_of_not_lt hid), List.getElem?_eq_none (Nat.le_of_not_lt hid)]
    exact ⟨r.arena.toList.filter Register.live, [], [], by simp, by simp, rfl⟩

/-- A pooled slot goes back to the free ones. -/
theorem Sound.freeSlots_freed {r : Registers} (h : r.Sound) {id : RegisterId} {a : Register}
    (ha : r.get? id = some a) (hl : a.live = true) : (r.freed id a).freeSlots.Perm
      (if r.strategy = .pooled then a.slot :: r.freeSlots else r.freeSlots) := by
  have hnodup {l : List Nat} (h : l.Pairwise (· < ·)) : l.Nodup := h.imp Nat.ne_of_lt
  rw [Registers.freed]
  split
  · refine (List.perm_ext_iff_of_nodup (hnodup (pairwise_insertOnce h.free_rising))
      (List.nodup_cons.2 ⟨h.free_idle ha hl, hnodup h.free_rising⟩)).2 fun s => ?_
    rw [mem_insertOnce, List.mem_cons]
  · exact .refl _

/-- The live registers are counted, and a pooled slot is free or held by one of them. -/
structure Balanced (r : Registers) : Prop where
  count : r.liveCount = r.live.length
  slots : r.strategy = .pooled → (r.freeSlots ++ r.liveSlots).Perm (List.range r.slotCount)

namespace Balanced

variable {r : Registers}

theorem length (h : r.Balanced) (hp : r.strategy = .pooled) :
    r.freeSlots.length + r.liveCount = r.slotCount := by
  rw [h.count, ← List.length_range (n := r.slotCount), ← (h.slots hp).length_eq, List.length_append,
    liveSlots, List.length_map]

theorem create (h : r.Balanced) (boundTo firstRef lastRef : Option Nat) :
    (r.create boundTo firstRef lastRef).2.Balanced := by
  have hlive : (r.create boundTo firstRef lastRef).2.live =
      r.live ++ [{ boundTo, slot := r.takeSlot.1, firstRef, lastRef }] := by
    simp [live, Registers.create, Frame.arena_takeSlot]
  have hcount : r.takeSlot.2.liveCount = r.liveCount := by
    unfold takeSlot
    split <;> rfl
  refine ⟨?_, fun hp => ?_⟩
  · rw [hlive, List.length_append, ← h.count, ← hcount]
    rfl
  · rw [Frame.strategy_create] at hp
    have hslots := h.slots hp
    rw [liveSlots, hlive, List.map_append]
    change (r.takeSlot.2.freeSlots ++ (r.liveSlots ++ [r.takeSlot.1])).Perm
      (List.range r.takeSlot.2.slotCount)
    unfold takeSlot
    rw [hp]
    cases hfree : r.freeSlots with
    | nil =>
      rw [hfree] at hslots
      simp only
      rw [List.range_succ]
      exact hslots.append_right _
    | cons slot rest =>
      rw [hfree] at hslots
      rw [← List.append_assoc]
      exact (List.perm_append_singleton _ _).trans hslots

theorem modify (h : r.Balanced) (id : RegisterId) {g : Register → Register}
    (hg : ∀ a, (g a).slot = a.slot ∧ (g a).live = a.live) : (r.modify id g).Balanced := by
  have hheld : (r.modify id g).liveSlots = r.liveSlots := by
    obtain ⟨front, as, back, hlive, hlive', has⟩ := live_modify r id g
    rw [liveSlots, liveSlots, hlive, hlive']
    simp only [List.map_append]
    refine congrArg (_ ++ · ++ _) ?_
    cases ha : r.get? id with
    | none => simp [has, ha]
    | some a =>
      simp only [has, ha, Option.toList_some, List.map_cons, List.map_nil, List.filter_cons, (hg a).2]
      split <;> simp [(hg a).1]
  refine ⟨?_, fun hp => ?_⟩
  · have hlength := congrArg List.length hheld
    simp only [liveSlots, List.length_map] at hlength
    rw [hlength]
    exact h.count
  · rw [hheld]
    exact h.slots hp

theorem freed (h : r.Balanced) (hs : r.Sound) {id : RegisterId} {a : Register}
    (ha : r.get? id = some a) (hl : a.live = true) : (r.freed id a).Balanced := by
  have hlive : r.live.Perm (a :: (r.freed id a).live) := by
    obtain ⟨front, as, back, hlive, hlive', has⟩ :=
      live_modify r id fun a => { a with live := false }
    have hfreed : (r.freed id a).live = _ := hlive'
    rw [hlive, hfreed, has, ha]
    simp [hl]
  refine ⟨?_, fun hp => ?_⟩
  · change r.liveCount - 1 = _
    rw [h.count, hlive.length_eq]
    rfl
  · have hp : r.strategy = .pooled := hp
    have hfree := hs.freeSlots_freed ha hl
    rw [if_pos hp] at hfree
    refine (hfree.append_right _).trans ((List.perm_middle.symm.trans ?_).trans (h.slots hp))
    exact (hlive.map Register.slot).symm.append_left _

end Balanced

/-- The allocator keeps its books right after every history. -/
theorem balanced_run (strategy : Strategy) (history : List Event) :
    (run strategy history).Balanced := by
  refine (run_induction (P := fun r => r.Sound ∧ r.Balanced) strategy
    ⟨.empty strategy, rfl, fun _ => .nil⟩ (fun r event h => ⟨h.1.after event, ?_⟩) history).2
  cases event with
  | create boundTo firstRef lastRef => exact h.2.create _ _ _
  | hold id | release id | refer id count => exact h.2.modify id fun _ => ⟨rfl, rfl⟩
  | free id =>
    obtain ⟨-, he⟩ | ⟨a, ha, hl, he⟩ := r.after_free id
    · rw [he]
      exact h.2
    · rw [he]
      exact h.2.freed h.1 ha hl

/-- A new slot is given out only if none is free. -/
theorem slotCount_after (r : Registers) (event : Event) :
    (r.after event).slotCount = r.slotCount ∨
      (r.after event).slotCount = r.slotCount + 1 ∧
        (r.strategy = .pooled → (r.after event).freeSlots = []) := by
  cases event with
  | create boundTo firstRef lastRef =>
    change r.takeSlot.2.slotCount = _ ∨ r.takeSlot.2.slotCount = _ ∧
      (_ → r.takeSlot.2.freeSlots = [])
    unfold takeSlot
    split
    · exact .inl rfl
    · rename_i hnone
      refine .inr ⟨rfl, fun hp => ?_⟩
      cases hfree : r.freeSlots with
      | nil => rfl
      | cons slot rest => exact absurd hfree (hnone slot rest hp)
  | free id =>
    obtain ⟨-, he⟩ | ⟨a, -, -, he⟩ := r.after_free id
    · exact .inl (by rw [he])
    · exact .inl (by rw [he]; rfl)
  | _ => exact .inl rfl

/-- There are as many slots as registers have been live at one time. -/
theorem slotCount_run (history : List Event) :
    (∀ past, past <+: history →
      (run .pooled past).liveCount ≤ (run .pooled history).slotCount) ∧
    ∃ past, past <+: history ∧ (run .pooled past).liveCount = (run .pooled history).slotCount := by
  induction history using List.reverseRecOn with
  | nil =>
    refine ⟨fun past hp => ?_, [], List.prefix_refl _, rfl⟩
    rw [List.prefix_nil.1 hp]
    exact Nat.le_refl _
  | append_singleton history event ih =>
    obtain ⟨hle, past, hpast, hmax⟩ := ih
    have hnow := (balanced_run .pooled (history ++ [event])).length (strategy_run _ _)
    have hrun : (run .pooled history).after event = run .pooled (history ++ [event]) := by simp
    have hstep := slotCount_after (run .pooled history) event
    rw [hrun] at hstep
    refine ⟨fun past hp => ?_, ?_⟩
    · obtain rfl | hp := List.prefix_concat_iff.1 hp
      · omega
      · have := hle past hp
        omega
    · obtain hsame | ⟨-, hfree⟩ := hstep
      · exact ⟨past, hpast.trans (List.prefix_append _ _), hmax.trans hsame.symm⟩
      · rw [hfree (strategy_run _ _)] at hnow
        exact ⟨_, List.prefix_refl _, by rw [← hnow, List.length_nil, Nat.zero_add]⟩

/-- The slot of a new register is the lowest that no live register holds. -/
theorem Balanced.lowest {r : Registers} (h : r.Balanced) (hs : r.Sound)
    (hp : r.strategy = .pooled) :
    r.takeSlot.1 ∉ r.liveSlots ∧ ∀ s < r.takeSlot.1, s ∈ r.liveSlots := by
  have hslots := h.slots hp
  have hmem (s : Nat) : s ∈ r.freeSlots ∨ s ∈ r.liveSlots ↔ s < r.slotCount := by
    rw [← List.mem_append, hslots.mem_iff, List.mem_range]
  have hnodup := hslots.nodup_iff.2 List.nodup_range
  unfold takeSlot
  rw [hp]
  cases hfree : r.freeSlots with
  | nil =>
    simp only [hfree, List.not_mem_nil, false_or] at hmem
    exact ⟨fun hm => Nat.lt_irrefl _ ((hmem _).1 hm), fun s hs => (hmem s).2 hs⟩
  | cons slot rest =>
    have hrising := List.pairwise_cons.1 (hfree ▸ hs.free_rising)
    have hslot : slot ∈ r.freeSlots := hfree ▸ List.mem_cons_self
    refine ⟨fun hm => (List.nodup_append.1 hnodup).2.2 _ hslot _ hm rfl, fun s hlt => ?_⟩
    refine ((hmem s).2 (Nat.lt_trans hlt (hs.free_lt hslot))).resolve_left fun hm => ?_
    rw [hfree, List.mem_cons] at hm
    obtain rfl | hm := hm
    · exact Nat.lt_irrefl _ hlt
    · exact Nat.lt_asymm hlt (hrising.1 s hm)

/-! ## Lives -/

/-- Does an event make a register? -/
def Event.isCreate : Event → Bool
  | .create _ _ _ => true
  | _ => false

/-- The register of this number was made in the history and has not been freed since. -/
def InUse (history : List Event) (id : RegisterId) : Prop :=
  ∃ before event later, history = before ++ event :: later ∧ event.isCreate = true ∧
    before.countP Event.isCreate = id ∧ .free id ∉ later

variable {history : List Event} {event : Event} {id : RegisterId}

/-- The registers in use after one more event. -/
theorem inUse_append : InUse (history ++ [event]) id ↔
    (event.isCreate = true ∧ history.countP Event.isCreate = id) ∨
      (InUse history id ∧ event ≠ .free id) := by
  constructor
  · rintro ⟨before, e, later, hsplit, hc, hn, hfree⟩
    obtain rfl | ⟨later, last, rfl⟩ := later.eq_nil_or_concat'
    · obtain ⟨rfl, hlast⟩ := List.append_inj' hsplit rfl
      cases hlast
      exact .inl ⟨hc, hn⟩
    · rw [← List.cons_append, ← List.append_assoc] at hsplit
      obtain ⟨rfl, hlast⟩ := List.append_inj' hsplit rfl
      cases hlast
      rw [List.mem_append, List.mem_singleton, not_or] at hfree
      exact .inr ⟨⟨before, e, later, rfl, hc, hn, hfree.1⟩, Ne.symm hfree.2⟩
  · rintro (⟨hc, hn⟩ | ⟨⟨before, e, later, rfl, hc, hn, hfree⟩, hne⟩)
    · exact ⟨history, event, [], rfl, hc, hn, List.not_mem_nil⟩
    · refine ⟨before, e, later ++ [event], by simp, hc, hn, ?_⟩
      rw [List.mem_append, List.mem_singleton, not_or]
      exact ⟨hfree, hne.symm⟩

theorem alive_modify (r : Registers) (j : RegisterId) {g : Register → Register}
    (hg : ∀ a, (g a).live = a.live) : (r.modify j g).Alive id ↔ r.Alive id := by
  unfold Alive
  rw [get?_modify]
  split <;> simp [hg]

theorem alive_create (r : Registers) (boundTo firstRef lastRef : Option Nat) (id : RegisterId) :
    (r.create boundTo firstRef lastRef).2.Alive id ↔ id = r.arena.size ∨ r.Alive id := by
  unfold Alive
  rw [Frame.get?_create]
  split
  · rename_i hid
    simp [hid]
  · rename_i hid
    simp [hid]

/-- The registers are numbered as they are made. -/
theorem size_run_eq (strategy : Strategy) (history : List Event) :
    (run strategy history).arena.size = history.countP Event.isCreate := by
  induction history using List.reverseRecOn with
  | nil => rfl
  | append_singleton history event ih =>
    rw [run_append, List.countP_append, ← ih]
    cases event with
    | create => simp [after, Registers.create, Frame.arena_takeSlot, Event.isCreate]
    | hold | release | refer => simp [after, Registers.modify, Event.isCreate]
    | free j =>
      obtain ⟨-, he⟩ | ⟨a, -, -, he⟩ := (run strategy history).after_free j
      · simp [he, Event.isCreate]
      · simp [he, Registers.freed, Registers.modify, Event.isCreate]

/-- **A register is alive as long as the history says**: from its making until it is freed. -/
theorem alive_run (strategy : Strategy) (history : List Event) (id : RegisterId) :
    (run strategy history).Alive id ↔ InUse history id := by
  induction history using List.reverseRecOn with
  | nil => simp [Alive, run, get?, InUse]
  | append_singleton history event ih =>
    rw [inUse_append, run_append, ← ih, List.foldl_cons, List.foldl_nil]
    cases event with
    | create boundTo firstRef lastRef =>
      refine (alive_create ..).trans ?_
      rw [size_run_eq, eq_comm]
      simp [Event.isCreate]
    | hold j | release j | refer j count =>
      rw [after, alive_modify _ j]
      · simp [Event.isCreate]
      · exact fun _ => rfl
    | free j =>
      obtain ⟨hdead, he⟩ | ⟨a, ha, hl, he⟩ := (run strategy history).after_free j
      · rw [he]
        have hne (h : (run strategy history).Alive id) : j ≠ id := fun hj => hdead (hj ▸ h)
        simpa [Event.isCreate] using hne
      · rw [he, Alive, Frame.get?_freed]
        by_cases hj : j = id <;> simp [hj, Event.isCreate, Alive]

/-- What freeing a register does: this register is dead, the others are as before, there is one live
register less, and a pooled slot goes back to the free ones. -/
structure Frees (r : Registers) (id : RegisterId) (r' : Registers) : Prop where
  register : ∃ a, r.get? id = some a ∧ a.live = true ∧ r'.get? id = some { a with live := false } ∧
    r'.freeSlots.Perm (if r.strategy = .pooled then a.slot :: r.freeSlots else r.freeSlots)
  others : ∀ j ≠ id, r'.get? j = r.get? j
  liveCount : r'.liveCount + 1 = r.liveCount
  slotCount : r'.slotCount = r.slotCount
  strategy : r'.strategy = r.strategy

theorem frees_freed {r : Registers} (hs : r.Sound) (hb : r.Balanced) {a : Register}
    (ha : r.get? id = some a) (hl : a.live = true) : r.Frees id (r.freed id a) where
  register := ⟨a, ha, hl, by simp [Frame.get?_freed, ha], hs.freeSlots_freed ha hl⟩
  others j hj := by rw [Frame.get?_freed, if_neg hj.symm]
  liveCount := by
    have hmem : a ∈ r.live :=
      List.mem_filter.2 ⟨Array.mem_toList_iff.2 (Array.mem_of_getElem? ha), hl⟩
    have hpos : 0 < r.liveCount := hb.count ▸ List.length_pos_of_mem hmem
    exact Nat.sub_add_cancel hpos
  slotCount := rfl
  strategy := rfl

/-- **The allocator.** After every history, live registers hold different slots and are counted.
Under the pooled strategy, a slot is free or held by one live register, a new register takes the
lowest slot that none holds, and there are as many slots as registers have been live at one time.
Under the virtual strategy, the slot of a register is its number. A register is alive from its making
until it is freed. One that is not alive cannot be freed, and then nothing changes; any other can, and
then its slot can be taken again and nothing else changes. -/
theorem allocation_run (strategy : Strategy) (history : List Event) :
    let r := run strategy history
    (∀ {i j a b}, r.get? i = some a → r.get? j = some b → a.live = true → b.live = true →
      a.slot = b.slot → i = j) ∧
    r.liveCount = r.live.length ∧
    (strategy = .pooled →
      (r.freeSlots ++ r.liveSlots).Perm (List.range r.slotCount) ∧
      (∀ boundTo firstRef lastRef, ∃ a,
        (r.create boundTo firstRef lastRef).2.get? (r.create boundTo firstRef lastRef).1 = some a ∧
        a.live = true ∧ a.slot ∉ r.liveSlots ∧ ∀ s < a.slot, s ∈ r.liveSlots) ∧
      (∀ past, past <+: history → (run strategy past).liveCount ≤ r.slotCount) ∧
      ∃ past, past <+: history ∧ (run strategy past).liveCount = r.slotCount) ∧
    (strategy = .virtual → ∀ id a, r.get? id = some a → a.slot = id) ∧
    ∀ id, (r.Alive id ↔ InUse history id) ∧
      ((∃ e r', r.retire id = .error e r') ↔ r.get? id = none ∨
        ∃ a, r.get? id = some a ∧ a.live = false) ∧
      (∀ e r', r.retire id = .error e r' → r' = r) ∧
      ∀ r', r.retire id = .ok () r' → r.Frees id r' := by
  intro r
  have hs : r.Sound := sound_run strategy history
  have hb : r.Balanced := balanced_run strategy history
  have hstrategy : r.strategy = strategy := strategy_run strategy history
  refine ⟨hs.slot_inj, hb.count, ?_, fun hv id a ha => ?_, fun id => ⟨alive_run .., ?_⟩⟩
  · rintro rfl
    refine ⟨hb.slots hstrategy, fun boundTo firstRef lastRef => ?_, slotCount_run history⟩
    refine ⟨{ boundTo, slot := r.takeSlot.1, firstRef, lastRef }, ?_, rfl, hb.lowest hs hstrategy⟩
    exact (Frame.get?_create ..).trans (if_pos (congrArg Array.size (Frame.arena_takeSlot r)))
  · exact ((counted_run strategy history).virtual (hstrategy.trans hv)).2 ha
  · obtain ⟨hdead, e, he⟩ | ⟨a, ha, hl, he⟩ := r.retire_cases id
    · rw [he]
      refine ⟨iff_of_true ⟨e, r, rfl⟩ ?_, fun e' r' h => ?_, nofun⟩
      · cases ha : r.get? id with
        | none => exact .inl rfl
        | some a => exact .inr ⟨a, rfl, Bool.eq_false_iff.2 fun hl => hdead ⟨a, ha, hl⟩⟩
      · cases h
        rfl
    · rw [he]
      refine ⟨iff_of_false nofun (by simp [ha, hl]), nofun, fun r' h => ?_⟩
      cases h
      exact frees_freed hs hb ha hl

end Moonstack.Registers
