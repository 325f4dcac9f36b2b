import Moonstack.Proofs.Frame.Moved

/-!
# Locals on the operand stack

A local that is read is not copied: the entry on the stack is the register of the local itself.
`Frame.standsFor` is the local that an entry stands for in this way.

`Frame.Mirrors outer s rest f` says which entries of the stack stand for which locals: the entries
that have been pushed since the innermost block was opened are described by `s`, and below them lie
the entries `rest`, described by `outer`. An assignment to a local changes entries (it detaches them
from the local), so the entries below the block stay what they are only if none of them stands for
the local (`Mirrors.detachAliases`).
-/

namespace Moonstack.Frame

variable {id : RegisterId} {index : Nat} {e : Entry}

/-- The local that a stack entry stands for. -/
def standsFor (f : Frame) : Entry → Option Nat
  | .literal _ => none
  | .register id => (f.registers.get? id).bind Register.boundTo

/-- The description of a value once a local has been assigned: it stands for the local no more. -/
def forget (index : Nat) (a : Option Nat) : Option Nat := if a = some index then none else a

/-- The entries above `rest` are described by `s`, and those of `rest`, which lie below the floor, by
`outer`. -/
structure Mirrors (outer s : List (Option Nat)) (rest : List Entry) (f : Frame) : Prop where
  stack : ∃ near, f.stack = near ++ rest ∧ near.map f.standsFor = s
  outer : rest.map f.standsFor = outer
  floor : f.floor = rest.length + 1

variable {f g : Frame} {held : List RegisterId} {outer s : List (Option Nat)} {rest : List Entry}

theorem standsFor_of_later (ho : f.Owned held) (hl : f.Later g) (he : e ∈ f.stack) :
    g.standsFor e = f.standsFor e := by
  cases e with
  | literal l => rfl
  | register id =>
    obtain ⟨a, ha, -⟩ := ho.stacked he
    obtain ⟨a', ha', -, hb, -⟩ := hl.register ha
    simp only [standsFor, ha, ha', Option.bind_some, hb]

theorem operand_of_later (ho : f.Owned held) (hl : f.Later g) (he : e ∈ f.stack) :
    g.operand e = f.operand e := by
  cases e with
  | literal l => rfl
  | register id =>
    obtain ⟨a, ha, -⟩ := ho.stacked he
    simp only [operand, hl.slotOf ha]

/-- An entry that stands for a local is the register that the local is bound to. -/
theorem Owned.eq_of_standsFor (ho : f.Owned held) (he : e ∈ f.stack)
    (ha : f.standsFor e = some index) (hb : f.locals[index]? = some (some id)) :
    e = .register id := by
  cases e with
  | literal l => cases ha
  | register j =>
    obtain ⟨a, hj, hl⟩ := ho.stacked he
    simp only [standsFor, hj, Option.bind_some] at ha
    have hn := ho.named hj hl ha
    rw [hb] at hn
    cases hn
    rfl

theorem Owned.standsFor_bound (ho : f.Owned held) (hb : f.locals[index]? = some (some id)) :
    f.standsFor (.register id) = some index := by
  obtain ⟨a, ha, -, hbound, -⟩ := ho.bound hb
  simp only [standsFor, ha, Option.bind_some, hbound]

/-- The entry once the entries of one register have been moved to another. -/
def redirect (id copy : RegisterId) (e : Entry) : Entry :=
  if e = .register id then .register copy else e

theorem detachAliases_of_unreferenced {a : Register} (ha : f.registers.get? id = some a)
    (hz : a.stackRefs = 0) : f.detachAliases id = (none, f) := by
  unfold Frame.detachAliases
  simp only [ha, Option.map_some, Option.getD_some]
  rw [if_pos hz]

/-- The entries of a register move to a new temporary, which is copied from the register. -/
theorem detachAliases_of_referenced (hid : ∃ a, f.registers.get? id = some a ∧ a.stackRefs ≠ 0) :
    ∃ g, f.detachAliases id =
        (some (.assign [.slot (g.registers.slotOf f.registers.arena.size)]
          (.slot (g.registers.slotOf id))), g) ∧
      g.stack = f.stack.map (redirect id f.registers.arena.size) ∧ g.blocks = f.blocks ∧
      ∃ a, g.registers.get? f.registers.arena.size = some a ∧ a.boundTo = none ∧
        a.slot = f.registers.takeSlot.1 := by
  obtain ⟨a, ha, hrefs⟩ := hid
  have hne : id ≠ f.registers.arena.size := Nat.ne_of_lt (Registers.get?_lt ha)
  refine ⟨(f.detachAliases id).2, ?_⟩
  unfold Frame.detachAliases
  simp only [ha, Option.map_some, Option.getD_some, if_neg hrefs]
  have hfst : f.registers.createTemporary.1 = f.registers.arena.size := create_fst _ _ _ _
  refine ⟨by rw [hfst], by rw [hfst]; rfl, trivial, ?_⟩
  simp only [hfst, Registers.get?_modify, if_neg hne, if_true]
  rw [Registers.createTemporary, get?_create, if_pos rfl]
  exact ⟨_, rfl, rfl, rfl⟩

theorem detachAliases_of_not_mem (ho : f.Owned held) (hb : f.locals[index]? = some (some id))
    (hn : Entry.register id ∉ f.stack) : f.detachAliases id = (none, f) := by
  obtain ⟨a, ha, -⟩ := ho.bound hb
  exact detachAliases_of_unreferenced ha ((ho.refs ha).trans (List.count_eq_zero.2 hn))

/-- The register of a local with entries on the stack counts them. -/
theorem Owned.referenced (ho : f.Owned held) (hb : f.locals[index]? = some (some id))
    (hm : Entry.register id ∈ f.stack) : ∃ a, f.registers.get? id = some a ∧ a.stackRefs ≠ 0 := by
  obtain ⟨a, ha, -⟩ := ho.bound hb
  refine ⟨a, ha, fun hz => ?_⟩
  rw [ho.refs ha] at hz
  exact List.count_eq_zero.1 hz hm

namespace Mirrors

variable (h : Mirrors outer s rest f)
include h

theorem depth : f.depth = f.floor + s.length := by
  obtain ⟨near, hs, rfl⟩ := h.stack
  rw [Frame.depth, hs, h.floor, List.length_append, List.length_map]
  omega

section

variable (ho : f.Owned held)
include ho

/-- A later frame in which the entries are a part of what they were, with the same blocks. -/
theorem of_later (hl : f.Later g) (hb : g.blocks = f.blocks) {near : List Entry}
    {s' : List (Option Nat)} (hs : g.stack = near ++ rest) (hn : ∀ e ∈ near, e ∈ f.stack)
    (hm : near.map f.standsFor = s') : Mirrors outer s' rest g where
  stack := by
    refine ⟨near, hs, ?_⟩
    rw [← hm]
    exact List.map_congr_left fun e he => standsFor_of_later ho hl (hn e he)
  outer := by
    obtain ⟨_, hf, -⟩ := h.stack
    rw [← h.outer]
    refine List.map_congr_left fun e he => standsFor_of_later ho hl ?_
    rw [hf]
    exact List.mem_append_right _ he
  floor := by rw [← h.floor, Frame.floor, Frame.floor, hb]

/-- A later frame with the same entries and blocks. -/
theorem later (hl : f.Later g) (hs : g.stack = f.stack) (hb : g.blocks = f.blocks) :
    Mirrors outer s rest g := by
  obtain ⟨near, hf, hm⟩ := h.stack
  refine h.of_later ho hl hb (hs.trans hf) (fun e he => ?_) hm
  rw [hf]
  exact List.mem_append_left _ he

theorem popped : Mirrors outer s.tail rest f.popped := by
  have hd := h.depth
  obtain ⟨near, hf, hm⟩ := h.stack
  obtain ⟨hs, hb, -⟩ := Moved.popped_frame f
  cases near with
  | nil =>
    subst hm
    rw [if_pos (Nat.le_of_eq (by simpa using hd))] at hs
    exact h.later ho f.later_popped hs hb
  | cons e near =>
    subst hm
    rw [if_neg (by rw [hd]; simp), hf, List.cons_append, List.tail_cons] at hs
    refine h.of_later ho f.later_popped hb hs (fun e' he => ?_) rfl
    rw [hf]
    exact List.mem_append_left _ (List.mem_cons_of_mem _ he)

theorem poppedMany (n : Nat) : Mirrors outer (s.drop n) rest (f.poppedMany n) := by
  induction n generalizing f s with
  | zero => exact h
  | succ n ih =>
    have hp := ih (h.popped ho) ho.popped
    rwa [← List.drop_one, List.drop_drop, Nat.add_comm] at hp

/-- An entry is pushed. -/
theorem push (hl : f.Later g) (hb : g.blocks = f.blocks) (hs : g.stack = e :: f.stack) :
    Mirrors outer (g.standsFor e :: s) rest g where
  stack := by
    obtain ⟨near, hf, rfl⟩ := h.stack
    refine ⟨e :: near, by rw [hs, hf, List.cons_append], ?_⟩
    rw [List.map_cons]
    refine congrArg _ (List.map_congr_left fun e' he => standsFor_of_later ho hl ?_)
    rw [hf]
    exact List.mem_append_left _ he
  outer := by
    obtain ⟨near, hf, -⟩ := h.stack
    rw [← h.outer]
    refine List.map_congr_left fun e' he => standsFor_of_later ho hl ?_
    rw [hf]
    exact List.mem_append_right _ he
  floor := by rw [← h.floor, Frame.floor, Frame.floor, hb]

theorem pushLiteral (l : Literal) : Mirrors outer (none :: s) rest (f.pushLiteral l) := by
  have hl := f.later_pushLiteral l
  rw [pushLiteral_eq] at hl ⊢
  exact h.push ho hl rfl rfl

end

omit h in
theorem standsFor_pushRegister (f : Frame) (id : RegisterId) (e : Entry) :
    (f.pushRegister id).standsFor e = f.standsFor e := by
  cases e with
  | literal l => rfl
  | register j =>
    rw [pushRegister_eq]
    simp only [standsFor, Registers.get?_modify]
    split
    · cases f.registers.get? j <;> rfl
    · rfl

theorem pushRegister (ho : f.Owned held) (id : RegisterId) :
    Mirrors outer (f.standsFor (.register id) :: s) rest (f.pushRegister id) := by
  rw [← standsFor_pushRegister f id]
  have hl := f.later_pushRegister id
  rw [pushRegister_eq] at hl ⊢
  exact h.push ho hl rfl rfl

omit h in
theorem standsFor_held (ho : f.Owned held) (hi : id ∈ f.reserved held) :
    f.standsFor (.register id) = none := by
  obtain ⟨a, ha, -, hb, -⟩ := ho.kept hi
  simp only [standsFor, ha, Option.bind_some, hb]

/-- A register in hand stands for no local. -/
theorem pushHeld (ho : f.Owned (id :: held)) :
    Mirrors outer (none :: s) rest (f.pushRegister id) := by
  have hp := h.pushRegister ho id
  rwa [standsFor_held ho (List.mem_append_right _ List.mem_cons_self)] at hp

/-- The entries of a local are detached from it. Those below the floor stay, if none of them stands
for the local. -/
theorem detachAliases (ho : f.Owned held) (hb : f.locals[index]? = some (some id))
    (hi : some index ∉ outer) :
    Mirrors outer (s.map (forget index)) rest (f.detachAliases id).2 := by
  obtain ⟨near, hf, rfl⟩ := h.stack
  have hself := ho.standsFor_bound hb
  have hforget {e : Entry} (he : e ∈ f.stack) (hne : e ≠ .register id) :
      forget index (f.standsFor e) = f.standsFor e :=
    if_neg fun ha => hne (ho.eq_of_standsFor he ha hb)
  by_cases hm : Entry.register id ∈ f.stack
  · have hl := f.later_detachAliases id
    obtain ⟨g, hg, hs, hblocks, a, ha, hbound, -⟩ := detachAliases_of_referenced (ho.referenced hb hm)
    rw [hg] at hl ⊢
    have hrest : rest.map (redirect id f.registers.arena.size) = rest := by
      refine (List.map_congr_left fun e he => if_neg ?_).trans (List.map_id rest)
      rintro rfl
      refine hi ?_
      rw [← h.outer, ← hself]
      exact List.mem_map_of_mem he
    refine ⟨⟨near.map (redirect id f.registers.arena.size), ?_, ?_⟩, ?_, ?_⟩
    · rw [hs, hf, List.map_append, hrest]
    · rw [List.map_map, List.map_map]
      refine List.map_congr_left fun e he => ?_
      have hes : e ∈ f.stack := hf ▸ List.mem_append_left _ he
      by_cases hid : e = .register id
      · subst hid
        have hcopy : g.standsFor (.register f.registers.arena.size) = none := by
          simp only [standsFor, ha, Option.bind_some, hbound]
        simp only [Function.comp_apply, redirect, if_true, hself, forget, hcopy]
      · simp only [Function.comp_apply, redirect, if_neg hid, hforget hes hid]
        exact standsFor_of_later ho hl hes
    · rw [← h.outer]
      exact List.map_congr_left fun e he =>
        standsFor_of_later ho hl (hf ▸ List.mem_append_right _ he)
    · rw [← h.floor, Frame.floor, Frame.floor, hblocks]
  · rw [detachAliases_of_not_mem ho hb hm]
    have hsame : (near.map f.standsFor).map (forget index) = near.map f.standsFor := by
      rw [List.map_map]
      refine List.map_congr_left fun e he => ?_
      have hes : e ∈ f.stack := hf ▸ List.mem_append_left _ he
      refine hforget hes ?_
      rintro rfl
      exact hm hes
    rw [hsame]
    exact h

end Mirrors

end Moonstack.Frame
