import Mathlib.Data.List.Induction
import Moonstack.Proofs.Frame.Allocator

/-!
# Histories of registers

What happens to the registers of a function, in order: an `Event` is one change, and
`Registers.run strategy history` are the registers after a list of them.

The two strategies differ in slots only. After one history the registers are the same up to slots
(`bare_run`), live ones hold different slots (`sound_run`), and pooling never takes more slots
(`slotCount_run_le`). Under the virtual strategy the slot of a register is its number
(`get?_virtual`), so a function that gives each register its pooled slot renames the one run to
the other; `Places` says that a function does this for all registers of a history.
-/

namespace Moonstack.Registers

variable {r : Registers} {id : RegisterId} {a : Register} {history : List Event}

/-- A change to the registers. -/
inductive Event where
  | create (boundTo firstRef lastRef : Option Nat)
  | hold (id : RegisterId)
  | release (id : RegisterId)
  | refer (id : RegisterId) (count : Nat)
  | free (id : RegisterId)

def after (r : Registers) : Event → Registers
  | .create boundTo firstRef lastRef => (r.create boundTo firstRef lastRef).2
  | .hold id => r.modify id fun a => { a with stackRefs := a.stackRefs + 1 }
  | .release id => r.modify id fun a => { a with stackRefs := a.stackRefs - 1 }
  | .refer id count => r.modify id fun a => { a with stackRefs := count }
  | .free id =>
    match r.retire id with
    | .ok _ r | .error _ r => r

def run (strategy : Strategy) (history : List Event) : Registers :=
  history.foldl after { strategy }

@[simp]
theorem run_append (strategy : Strategy) (history more : List Event) :
    run strategy (history ++ more) = more.foldl after (run strategy history) :=
  List.foldl_append

/-- What every event keeps, all events keep. -/
theorem run_induction {P : Registers → Prop} (strategy : Strategy) (h₀ : P { strategy })
    (hstep : ∀ r event, P r → P (r.after event)) (history : List Event) :
    P (run strategy history) := by
  induction history using List.reverseRecOn with
  | nil => exact h₀
  | append_singleton history event ih =>
    rw [run_append]
    exact hstep _ event ih

/-- There is a register of this number, and it has not been freed. -/
def Alive (r : Registers) (id : RegisterId) : Prop := ∃ a, r.get? id = some a ∧ a.live = true

/-- A register that is alive is freed; any other cannot be, and then nothing changes. -/
theorem retire_cases (r : Registers) (id : RegisterId) :
    (¬ r.Alive id ∧ ∃ e, r.retire id = .error e r) ∨
      ∃ a, r.get? id = some a ∧ a.live = true ∧ r.retire id = .ok () (r.freed id a) := by
  cases h : r.get? id with
  | none => exact .inl ⟨by simp [Alive, h], .unknown id, by simp [retire, h]⟩
  | some a =>
    cases hl : a.live with
    | false => exact .inl ⟨by simp [Alive, h, hl], .freedTwice a.slot, by simp [retire, h, hl]⟩
    | true => exact .inr ⟨a, rfl, hl, retire_eq h hl⟩

theorem after_free (r : Registers) (id : RegisterId) :
    (¬ r.Alive id ∧ r.after (.free id) = r) ∨
      ∃ a, r.get? id = some a ∧ a.live = true ∧ r.after (.free id) = r.freed id a := by
  obtain ⟨hdead, e, he⟩ | ⟨a, ha, hl, he⟩ := r.retire_cases id
  · exact .inl ⟨hdead, by rw [after, he]⟩
  · exact .inr ⟨a, ha, hl, by rw [after, he]⟩

theorem after_free_of_live (h : r.get? id = some a) (hl : a.live = true) :
    r.after (.free id) = r.freed id a := by
  rw [after, retire_eq h hl]

theorem Sound.after (h : r.Sound) (event : Event) : (r.after event).Sound := by
  cases event with
  | create boundTo firstRef lastRef => exact h.create _ _ _
  | hold id | release id | refer id count => exact h.modify id _ fun _ => ⟨rfl, rfl⟩
  | free id =>
    obtain ⟨-, he⟩ | ⟨a, ha, hl, he⟩ := r.after_free id
    · rw [he]
      exact h
    · rw [he]
      exact h.freed ha hl

/-- Live registers hold different slots after every history. -/
theorem sound_run (strategy : Strategy) (history : List Event) : (run strategy history).Sound :=
  run_induction strategy (.empty strategy) (fun _ event h => h.after event) history

/-- A register keeps its slot. -/
theorem get?_after (h : r.get? id = some a) (event : Event) :
    ∃ b, (r.after event).get? id = some b ∧ b.slot = a.slot := by
  have hmodify (j : RegisterId) {g : Register → Register} (hg : ∀ a, (g a).slot = a.slot) :
      ∃ b, (r.modify j g).get? id = some b ∧ b.slot = a.slot := by
    rw [get?_modify, h]
    split
    · exact ⟨_, rfl, hg a⟩
    · exact ⟨a, rfl, rfl⟩
  cases event with
  | create boundTo firstRef lastRef => exact ⟨a, Frame.get?_create_of_some h _ _ _, rfl⟩
  | hold j | release j | refer j count => exact hmodify j fun _ => rfl
  | free j =>
    obtain ⟨-, he⟩ | ⟨b, -, -, he⟩ := r.after_free j
    · exact ⟨a, by rw [he, h], rfl⟩
    · rw [he]
      exact hmodify j fun _ => rfl

theorem get?_run {strategy : Strategy} {later : List Event} (hp : history <+: later)
    (h : (run strategy history).get? id = some a) :
    ∃ b, (run strategy later).get? id = some b ∧ b.slot = a.slot := by
  obtain ⟨more, rfl⟩ := hp
  induction more using List.reverseRecOn with
  | nil => exact ⟨a, by rwa [List.append_nil], rfl⟩
  | append_singleton more event ih =>
    obtain ⟨b, hb, hs⟩ := ih
    obtain ⟨c, hc, hs'⟩ := get?_after hb event
    refine ⟨c, ?_, hs'.trans hs⟩
    rw [← List.append_assoc, run_append]
    exact hc

/-- There are at most as many slots as registers, and with the virtual strategy exactly as many. -/
structure Counted (r : Registers) : Prop where
  le : r.slotCount ≤ r.arena.size
  virtual : r.strategy = .virtual → r.slotCount = r.arena.size ∧
    ∀ {id a}, r.get? id = some a → a.slot = id

theorem Counted.modify (h : r.Counted) (id : RegisterId) {g : Register → Register}
    (hg : ∀ a, (g a).slot = a.slot) : (r.modify id g).Counted where
  le := by simpa [Registers.modify] using h.le
  virtual hv := by
    obtain ⟨hsize, hslot⟩ := h.virtual hv
    refine ⟨by simpa [Registers.modify] using hsize, fun {j a} ha => ?_⟩
    rw [get?_modify] at ha
    split at ha
    · obtain ⟨b, hb, rfl⟩ := Option.map_eq_some_iff.1 ha
      rw [hg]
      exact hslot hb
    · exact hslot ha

theorem Counted.create (h : r.Counted) (boundTo firstRef lastRef : Option Nat) :
    (r.create boundTo firstRef lastRef).2.Counted := by
  have hsize : (r.create boundTo firstRef lastRef).2.arena.size = r.arena.size + 1 := by
    simp [Registers.create, Frame.arena_takeSlot]
  have hcount : (r.create boundTo firstRef lastRef).2.slotCount = r.takeSlot.2.slotCount := rfl
  have hslot : r.takeSlot.2.slotCount ≤ r.slotCount + 1 := by
    unfold takeSlot
    split
    · exact Nat.le_succ _
    · exact Nat.le_refl _
  refine ⟨by rw [hsize, hcount]; have := h.le; omega, fun hv => ?_⟩
  rw [Frame.strategy_create] at hv
  obtain ⟨heq, hslots⟩ := h.virtual hv
  have htake : r.takeSlot = (r.slotCount, { r with slotCount := r.slotCount + 1 }) := by
    unfold takeSlot
    rw [hv]
  refine ⟨by rw [hsize, hcount, htake, ← heq], fun {id a} ha => ?_⟩
  rw [Frame.get?_create] at ha
  split at ha
  · rename_i hid
    cases ha
    rw [hid, ← heq, htake]
  · exact hslots ha

theorem Counted.after (h : r.Counted) (event : Event) : (r.after event).Counted := by
  cases event with
  | create boundTo firstRef lastRef => exact h.create _ _ _
  | hold id | release id | refer id count => exact h.modify id fun _ => rfl
  | free id =>
    obtain ⟨-, he⟩ | ⟨a, -, -, he⟩ := r.after_free id
    · rw [he]
      exact h
    · rw [he]
      have hm := h.modify id (g := fun a => { a with live := false }) fun _ => rfl
      exact ⟨hm.le, hm.virtual⟩

theorem counted_run (strategy : Strategy) (history : List Event) :
    (run strategy history).Counted := by
  refine run_induction strategy ⟨Nat.le_refl _, fun _ => ⟨rfl, fun h => ?_⟩⟩
    (fun _ event h => h.after event) history
  simp [get?] at h

theorem strategy_run (strategy : Strategy) (history : List Event) :
    (run strategy history).strategy = strategy := by
  refine run_induction (P := fun r => r.strategy = strategy) strategy rfl (fun r event h => ?_)
    history
  cases event with
  | create boundTo firstRef lastRef => exact (Frame.strategy_create _ _ _ _).trans h
  | free id =>
    obtain ⟨-, he⟩ | ⟨a, -, -, he⟩ := r.after_free id
    · rw [he, h]
    · rw [he]
      exact h
  | _ => exact h

/-- The registers without what depends on slots. -/
def bare (r : Registers) : Registers :=
  { strategy := .virtual
    arena := r.arena.map fun a => { a with slot := 0 }
    liveCount := r.liveCount }

theorem get?_bare (r : Registers) (id : RegisterId) :
    r.bare.get? id = (r.get? id).map fun a => { a with slot := 0 } := by
  simp [bare, get?]

theorem size_bare (r : Registers) : r.bare.arena.size = r.arena.size := by
  simp [bare]

theorem bare_modify (r : Registers) (id : RegisterId) {g : Register → Register}
    (hg : ∀ a, { g a with slot := 0 } = g { a with slot := 0 }) :
    (r.modify id g).bare = r.bare.modify id g := by
  have harena : (r.arena.modify id g).map (fun a => { a with slot := 0 }) =
      (r.arena.map fun a => { a with slot := 0 }).modify id g := by
    refine Array.ext_getElem? fun i => ?_
    simp only [Array.getElem?_map, Array.getElem?_modify]
    split
    · cases r.arena[i]? <;> simp [hg]
    · rfl
  simp only [bare, modify, harena]

/-- The registers after an event do not depend on slots. -/
theorem bare_after {s : Registers} (h : r.bare = s.bare) (event : Event) :
    (r.after event).bare = (s.after event).bare := by
  have hlive : r.liveCount = s.liveCount := (congrArg Registers.liveCount h :)
  have hmodify (id : RegisterId) {g : Register → Register}
      (hg : ∀ a, { g a with slot := 0 } = g { a with slot := 0 }) :
      (r.modify id g).bare = (s.modify id g).bare := by
    rw [bare_modify r id hg, bare_modify s id hg, h]
  cases event with
  | create boundTo firstRef lastRef =>
    have hbare (t : Registers) : (t.create boundTo firstRef lastRef).2.bare =
        { t.bare with
          arena := t.bare.arena.push { boundTo, slot := 0, firstRef, lastRef }
          liveCount := t.liveCount + 1 } := by
      have htake : t.takeSlot.2.liveCount = t.liveCount := by
        unfold takeSlot
        split <;> rfl
      simp [bare, Registers.create, Frame.arena_takeSlot, htake]
    rw [after, after, hbare, hbare, h, hlive]
  | hold id | release id | refer id count => exact hmodify id fun _ => rfl
  | free id =>
    have hget : (r.get? id).map (fun a => { a with slot := 0 }) =
        (s.get? id).map fun a => { a with slot := 0 } := by
      rw [← get?_bare, ← get?_bare, h]
    have hfreed (t : Registers) (a : Register) : (t.freed id a).bare =
        { (t.modify id fun a => { a with live := false }).bare with
          liveCount := t.liveCount - 1 } := rfl
    cases hr : r.get? id with
    | none =>
      rw [hr, Option.map_none, eq_comm, Option.map_eq_none_iff] at hget
      simp [after, Registers.retire, hr, hget, h]
    | some a =>
      rw [hr, Option.map_some, eq_comm, Option.map_eq_some_iff] at hget
      obtain ⟨b, hb, hab⟩ := hget
      have hlives : b.live = a.live := (congrArg Register.live hab :)
      cases hl : a.live with
      | false => simp [after, Registers.retire, hr, hb, hl, hlives, h]
      | true =>
        rw [after_free_of_live hr hl, after_free_of_live hb (hlives.trans hl), hfreed, hfreed,
          hmodify id fun _ => rfl, hlive]

/-- The two strategies give the same registers up to slots. -/
theorem bare_run (history : List Event) :
    (run .pooled history).bare = (run .virtual history).bare := by
  induction history using List.reverseRecOn with
  | nil => rfl
  | append_singleton history event ih =>
    rw [run_append, run_append]
    exact bare_after ih event

theorem size_run (history : List Event) :
    (run .pooled history).arena.size = (run .virtual history).arena.size := by
  rw [← size_bare, bare_run, size_bare]

/-- A register of the one run is, up to its slot, that of the other. -/
theorem get?_virtual (h : (run .pooled history).get? id = some a) :
    (run .virtual history).get? id = some { a with slot := id } := by
  have hbare := get?_bare (run .virtual history) id
  rw [← bare_run, get?_bare, h, Option.map_some, eq_comm, Option.map_eq_some_iff] at hbare
  obtain ⟨b, hb, hab⟩ := hbare
  have hslot := ((counted_run .virtual history).virtual (strategy_run _ _)).2 hb
  rw [hb]
  cases a
  cases b
  cases hab
  cases hslot
  rfl

theorem get?_virtual_none (h : (run .pooled history).get? id = none) :
    (run .virtual history).get? id = none := by
  have hbare := get?_bare (run .virtual history) id
  rw [← bare_run, get?_bare, h, Option.map_none, eq_comm, Option.map_eq_none_iff] at hbare
  exact hbare

/-- **Pooling never takes more slots.** -/
theorem slotCount_run_le (history : List Event) :
    (run .pooled history).slotCount ≤ (run .virtual history).slotCount := by
  rw [((counted_run .virtual history).virtual (strategy_run _ _)).1, ← size_run]
  exact (counted_run .pooled history).le

/-- The function gives each register of a history its pooled slot. -/
def Places (history : List Event) (ρ : Nat → Nat) : Prop :=
  ∀ id a, (run .pooled history).get? id = some a → ρ id = a.slot

theorem Places.mono {later : List Event} {ρ : Nat → Nat} (h : Places later ρ)
    (hp : history <+: later) : Places history ρ := by
  intro id a ha
  obtain ⟨b, hb, hs⟩ := get?_run hp ha
  rw [h id b hb, hs]

/-- The pooled slots themselves are such a function. -/
theorem places_slotOf (history : List Event) : Places history (run .pooled history).slotOf := by
  intro id a ha
  rw [slotOf, ha]
  rfl

/-- The slot of a register in the one run is that in the other, renamed. -/
theorem Places.slotOf {ρ : Nat → Nat} (h : Places history ρ)
    (ha : (run .pooled history).get? id = some a) :
    (run .pooled history).slotOf id = ρ ((run .virtual history).slotOf id) := by
  rw [Registers.slotOf, Registers.slotOf, ha, get?_virtual ha]
  exact (h id a ha).symm

/-- Registers that are live at one time are not placed in the same slot. -/
theorem Places.injective {later : List Event} {ρ : Nat → Nat} (h : Places later ρ)
    (hp : history <+: later) {i j : RegisterId} {b : Register}
    (hi : (run .virtual history).get? i = some a) (hj : (run .virtual history).get? j = some b)
    (ha : a.live = true) (hb : b.live = true) (hs : ρ a.slot = ρ b.slot) : i = j := by
  have hpooled {k : RegisterId} {c : Register} (hk : (run .virtual history).get? k = some c) :
      ∃ c', (run .pooled history).get? k = some c' ∧ c = { c' with slot := k } := by
    cases hc : (run .pooled history).get? k with
    | none => cases hk.symm.trans (get?_virtual_none hc)
    | some c' => exact ⟨c', rfl, Option.some.inj (hk.symm.trans (get?_virtual hc))⟩
  obtain ⟨a', hi', rfl⟩ := hpooled hi
  obtain ⟨b', hj', rfl⟩ := hpooled hj
  rw [h.mono hp i a' hi', h.mono hp j b' hj'] at hs
  exact (sound_run .pooled history).slot_inj hi' hj' ha hb hs

end Moonstack.Registers
