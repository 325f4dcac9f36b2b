import Mathlib.Data.List.Basic
import Moonstack.Proofs.Frame.Later

/-!
# The register allocator

`Registers.Sound` is what the allocator keeps true: live registers hold different slots, and a slot
that can be given out again belongs to no live register. The free slots stand in rising order, so a
slot that is given back at once is the next one to be given out (`takeSlot_freed`).
-/

namespace Moonstack

theorem mem_insertOnce {a b : Nat} {l : List Nat} : b ∈ insertOnce a l ↔ b = a ∨ b ∈ l := by
  induction l with
  | nil => simp [insertOnce]
  | cons c rest ih =>
    simp only [insertOnce]
    split
    · simp
    · split
      · rename_i h
        subst h
        simp
      · simp only [List.mem_cons, ih]
        tauto

theorem pairwise_insertOnce {a : Nat} {l : List Nat} (h : l.Pairwise (· < ·)) :
    (insertOnce a l).Pairwise (· < ·) := by
  induction l with
  | nil => simp [insertOnce]
  | cons c rest ih =>
    obtain ⟨hc, hrest⟩ := List.pairwise_cons.1 h
    simp only [insertOnce]
    split
    · rename_i hac
      refine List.pairwise_cons.2 ⟨fun b hb => ?_, h⟩
      rcases List.mem_cons.1 hb with rfl | hb
      · exact hac
      · exact Nat.lt_trans hac (hc b hb)
    · split
      · exact h
      · rename_i h₁ h₂
        refine List.pairwise_cons.2 ⟨fun b hb => ?_, ih hrest⟩
        rcases mem_insertOnce.1 hb with rfl | hb
        · omega
        · exact hc b hb

theorem insertOnce_of_lt {a : Nat} {l : List Nat} (h : ∀ b ∈ l, a < b) :
    insertOnce a l = a :: l := by
  cases l with
  | nil => rfl
  | cons c rest => rw [insertOnce, if_pos (h c (List.mem_cons_self))]

namespace Registers

/-- Live registers hold different slots, and no free slot is held by a live register. -/
structure Sound (r : Registers) : Prop where
  slot_inj : ∀ {i j a b}, r.get? i = some a → r.get? j = some b → a.live = true → b.live = true →
    a.slot = b.slot → i = j
  slot_lt : ∀ {i a}, r.get? i = some a → a.slot < r.slotCount
  free_lt : ∀ {s}, s ∈ r.freeSlots → s < r.slotCount
  free_idle : ∀ {i a}, r.get? i = some a → a.live = true → a.slot ∉ r.freeSlots
  free_rising : r.freeSlots.Pairwise (· < ·)

namespace Sound

variable {r : Registers}

theorem empty (strategy : Strategy) : ({ strategy } : Registers).Sound where
  slot_inj h := by simp [get?] at h
  slot_lt h := by simp [get?] at h
  free_lt h := by simp at h
  free_idle h := by simp [get?] at h
  free_rising := .nil

/-- The slot that is taken is held by no live register, and what is left is as good as before. -/
theorem takeSlot (h : r.Sound) :
    (∀ {i a}, r.get? i = some a → a.live = true → a.slot ≠ r.takeSlot.1) ∧
      r.takeSlot.1 < r.takeSlot.2.slotCount ∧ r.slotCount ≤ r.takeSlot.2.slotCount ∧
      (∀ {s}, s ∈ r.takeSlot.2.freeSlots → s ∈ r.freeSlots ∧ s ≠ r.takeSlot.1) ∧
      r.takeSlot.2.freeSlots.Pairwise (· < ·) := by
  unfold Registers.takeSlot
  split
  · rename_i slot rest _ hfree
    have hrise := hfree ▸ h.free_rising
    obtain ⟨hlt, hrest⟩ := List.pairwise_cons.1 hrise
    have hmem : slot ∈ r.freeSlots := hfree ▸ List.mem_cons_self
    refine ⟨fun hi ha hs => h.free_idle hi ha (hs ▸ hmem), h.free_lt hmem, Nat.le_refl _, ?_, hrest⟩
    intro s hs
    exact ⟨hfree ▸ List.mem_cons_of_mem _ hs, (Nat.ne_of_lt (hlt s hs)).symm⟩
  · refine ⟨fun hi _ hs => ?_, Nat.lt_succ_self _, Nat.le_succ _, fun hs => ⟨hs, ?_⟩, h.free_rising⟩
    · exact absurd hs (Nat.ne_of_lt (h.slot_lt hi))
    · exact Nat.ne_of_lt (h.free_lt hs)

theorem create (h : r.Sound) (b first last : Option Nat) : (r.create b first last).2.Sound := by
  obtain ⟨hnew, hlt, hle, hfree, hrise⟩ := h.takeSlot
  have hcount : (r.create b first last).2.slotCount = r.takeSlot.2.slotCount := rfl
  have hslots : (r.create b first last).2.freeSlots = r.takeSlot.2.freeSlots := rfl
  refine ⟨fun {i j x y} hi hj hx hy hs => ?_, fun {i x} hi => ?_, fun hs => ?_,
    fun {i x} hi hx hs => ?_, hslots ▸ hrise⟩
  · rw [Frame.get?_create] at hi hj
    split at hi <;> split at hj
    · rename_i hi' hj'
      exact hi'.trans hj'.symm
    · cases hi
      exact absurd hs.symm (hnew hj hy)
    · cases hj
      exact absurd hs (hnew hi hx)
    · exact h.slot_inj hi hj hx hy hs
  · rw [Frame.get?_create] at hi
    rw [hcount]
    split at hi
    · cases hi
      exact hlt
    · exact Nat.lt_of_lt_of_le (h.slot_lt hi) hle
  · rw [hslots] at hs
    exact Nat.lt_of_lt_of_le (h.free_lt (hfree hs).1) hle
  · rw [hslots] at hs
    rw [Frame.get?_create] at hi
    split at hi
    · cases hi
      exact (hfree hs).2 rfl
    · exact h.free_idle hi hx (hfree hs).1

theorem modify (h : r.Sound) (id : RegisterId) (g : Register → Register)
    (hg : ∀ a, (g a).slot = a.slot ∧ (g a).live = a.live) : (r.modify id g).Sound := by
  have back : ∀ {i a}, (r.modify id g).get? i = some a →
      ∃ a', r.get? i = some a' ∧ a.slot = a'.slot ∧ a.live = a'.live := by
    intro i a hi
    rw [get?_modify] at hi
    split at hi
    · obtain ⟨a', ha', rfl⟩ := Option.map_eq_some_iff.1 hi
      exact ⟨a', ha', hg a'⟩
    · exact ⟨a, hi, rfl, rfl⟩
  refine ⟨fun hi hj hx hy hs => ?_, fun hi => ?_, h.free_lt, fun hi hx hs => ?_, h.free_rising⟩
  · obtain ⟨a', ha', sa, la⟩ := back hi
    obtain ⟨b', hb', sb, lb⟩ := back hj
    exact h.slot_inj ha' hb' (la ▸ hx) (lb ▸ hy) (sa ▸ sb ▸ hs)
  · obtain ⟨a', ha', sa, -⟩ := back hi
    exact sa ▸ h.slot_lt ha'
  · obtain ⟨a', ha', sa, la⟩ := back hi
    exact h.free_idle ha' (la ▸ hx) (sa ▸ hs)

theorem freed (h : r.Sound) {id : RegisterId} {a : Register} (ha : r.get? id = some a)
    (hl : a.live = true) : (r.freed id a).Sound := by
  have back : ∀ {i b}, (r.freed id a).get? i = some b →
      ∃ b', r.get? i = some b' ∧ b.slot = b'.slot ∧ (b.live = true → b'.live = true ∧ i ≠ id) := by
    intro i b hi
    rw [Frame.get?_freed] at hi
    split at hi
    · obtain ⟨b', hb', rfl⟩ := Option.map_eq_some_iff.1 hi
      exact ⟨b', hb', rfl, fun hf => by cases hf⟩
    · rename_i hne
      exact ⟨b, hi, rfl, fun hb => ⟨hb, fun he => hne he.symm⟩⟩
  have hfree : ∀ {s}, s ∈ (r.freed id a).freeSlots → s = a.slot ∨ s ∈ r.freeSlots := by
    intro s hs
    simp only [Registers.freed] at hs
    split at hs
    · exact mem_insertOnce.1 hs
    · exact .inr hs
  refine ⟨fun hi hj hx hy hs => ?_, fun hi => ?_, fun hs => ?_, fun hi hx hs => ?_, ?_⟩
  · obtain ⟨a', ha', sa, la⟩ := back hi
    obtain ⟨b', hb', sb, lb⟩ := back hj
    exact h.slot_inj ha' hb' (la hx).1 (lb hy).1 (sa ▸ sb ▸ hs)
  · obtain ⟨a', ha', sa, -⟩ := back hi
    exact sa ▸ h.slot_lt ha'
  · rcases hfree hs with rfl | hs
    · exact h.slot_lt ha
    · exact h.free_lt hs
  · obtain ⟨a', ha', sa, la⟩ := back hi
    rcases hfree hs with hs | hs
    · exact (la hx).2 (h.slot_inj ha' ha (la hx).1 hl (sa ▸ hs))
    · exact h.free_idle ha' (la hx).1 (sa ▸ hs)
  · simp only [Registers.freed]
    split
    · exact pairwise_insertOnce h.free_rising
    · exact h.free_rising

/-- A pooled slot that is given back at once is the next one to be taken. -/
theorem takeSlot_freed (h : r.Sound) (hp : r.strategy = .pooled) (b first last : Option Nat)
    (id : RegisterId) {a : Register} (ha : a.slot = r.takeSlot.1) :
    ((r.create b first last).2.freed id a).takeSlot.1 = r.takeSlot.1 := by
  have hs : (r.create b first last).2.strategy = .pooled :=
    (Frame.strategy_create r b first last).trans hp
  have hlt : ∀ s ∈ r.takeSlot.2.freeSlots, r.takeSlot.1 < s := by
    unfold Registers.takeSlot
    split
    · rename_i hfree
      exact (List.pairwise_cons.1 (hfree ▸ h.free_rising)).1
    · rename_i hne
      cases hf : r.freeSlots with
      | nil => exact fun s hs => by cases hs
      | cons s rest => exact absurd hf (hne s rest hp)
  have hfree : ((r.create b first last).2.freed id a).freeSlots =
      r.takeSlot.1 :: r.takeSlot.2.freeSlots := by
    rw [← insertOnce_of_lt hlt, ← ha]
    simp only [Registers.freed, hs, if_true]
    rfl
  have hs' : ((r.create b first last).2.freed id a).strategy = .pooled := hs
  conv_lhs => rw [Registers.takeSlot]
  simp only [hs', hfree]

end Sound

end Registers

end Moonstack
