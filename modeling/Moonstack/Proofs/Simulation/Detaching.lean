import Moonstack.Proofs.Frame.Operations
import Moonstack.Proofs.Semantics.StraightLine

/-!
# Detached values

Before a register is assigned, the stack entries that refer to it are moved to a copy. The copy
statement is the only one that is run in between, and it changes no value that the frame knows of
(`Frame.values_detachAliases`): every stack entry and every local stand for what they stood for, and
from then on the register may be assigned without a change of the stack.

The slot of the copy is one that no live register holds. That the other entries keep their values
rests on this and on the slots of live registers being different, which are facts about every frame
that operations lead to (`Frame.Orderly`).
-/

namespace Moonstack

variable {V W : Type}

/-- The value of a stack entry, where literals have the values `literal` and slots hold `σ`. -/
def Registers.value (r : Registers) (literal : Literal → V) (σ : Nat → V) : Entry → V
  | .literal l => literal l
  | .register id => σ (r.slotOf id)

theorem Interpretation.exec_copySlot (I : Interpretation V W) (d s : Nat) (run : Running V W) :
    I.exec (.assign [.slot d] (.slot s)) run =
      some ⟨Function.update run.slots d (run.slots s), run.effects⟩ := rfl

namespace Frame

variable {f g : Frame} {held : List RegisterId} {id : RegisterId} {a : Register}
  {literal : Literal → V} {σ τ : Nat → V}

/-- The slots `τ` agree with `σ` on all live registers but `id`. -/
def SparesOthers (f : Frame) (id : RegisterId) (σ τ : Nat → V) : Prop :=
  ∀ i b, f.registers.get? i = some b → b.live = true → i ≠ id →
    τ (f.registers.slotOf i) = σ (f.registers.slotOf i)

theorem slotOf_of_get? (ha : f.registers.get? id = some a) : f.registers.slotOf id = a.slot := by
  rw [Registers.slotOf, ha]
  rfl

/-- An entry of another register keeps its value. -/
theorem value_of_spares (ho : f.Owned held) (hl : f.Later g) (h : f.SparesOthers id σ τ) {e : Entry}
    (he : e ∈ f.stack) (hne : e ≠ .register id) :
    g.registers.value literal τ e = f.registers.value literal σ e := by
  cases e with
  | literal l => rfl
  | register i =>
    obtain ⟨b, hb, hlive⟩ := ho.stacked he
    change τ (g.registers.slotOf i) = σ (f.registers.slotOf i)
    rw [hl.slotOf hb]
    exact h i b hb hlive fun hi => hne (hi ▸ rfl)

/-- The entries that have been moved to the copy have the value that the register had, as long as
the slot of the copy holds it. -/
theorem value_redirect (ho : f.Owned held) (hl : f.Later g) {copy : RegisterId}
    (hcopy : τ (g.registers.slotOf copy) = σ (f.registers.slotOf id))
    (h : f.SparesOthers id σ τ) {e : Entry} (he : e ∈ f.stack) :
    g.registers.value literal τ (redirect id copy e) = f.registers.value literal σ e := by
  unfold redirect
  split
  · rename_i hid
    rw [hid]
    exact hcopy
  · rename_i hid
    exact value_of_spares ho hl h he hid

/-- A write to a slot that no live register holds spares all of them. -/
theorem update_of_idle {d : Nat} (hd : ∀ i b, f.registers.get? i = some b → b.live = true →
    b.slot ≠ d) (v : V) (i : RegisterId) (b : Register) (hi : f.registers.get? i = some b)
    (hlive : b.live = true) :
    Function.update σ d v (f.registers.slotOf i) = σ (f.registers.slotOf i) := by
  refine Function.update_of_ne ?_ _ _
  rw [slotOf_of_get? hi]
  exact hd i b hi hlive

/-- A write to the slot of a live register spares the others. -/
theorem SparesOthers.update (ho : f.Owned held) (ha : f.registers.get? id = some a)
    (hlive : a.live = true) (h : f.SparesOthers id σ τ) (v : V) :
    f.SparesOthers id σ (Function.update τ (f.registers.slotOf id) v) := by
  intro i b hi hb hne
  rw [Function.update_of_ne, h i b hi hb hne]
  rw [slotOf_of_get? hi, slotOf_of_get? ha]
  exact fun hs => hne (ho.sound.slot_inj hi ha hb hlive hs)

/-- What the copy statement leaves in the slots. -/
structure Detached (f : Frame) (id : RegisterId) (literal : Literal → V) (σ τ : Nat → V) :
    Prop where
  live : ∀ i b, f.registers.get? i = some b → b.live = true →
    τ ((f.detachAliases id).2.registers.slotOf i) = σ (f.registers.slotOf i)
  /-- entries stand for what they stood for, whatever is written to the slot of the register -/
  entries : ∀ υ,
    (υ = τ ∨ ∃ v, υ = Function.update τ ((f.detachAliases id).2.registers.slotOf id) v) →
    (f.detachAliases id).2.stack.map ((f.detachAliases id).2.registers.value literal υ) =
      f.stack.map (f.registers.value literal σ)

/-- If no entry refers to the register, nothing is copied. -/
theorem Owned.detached_of_unreferenced (ho : f.Owned held) (ha : f.registers.get? id = some a)
    (hlive : a.live = true) (hz : a.stackRefs = 0) : f.Detached id literal σ σ := by
  have hn : Entry.register id ∉ f.stack := List.count_eq_zero.1 ((ho.refs ha).symm.trans hz)
  have hself : f.SparesOthers id σ σ := fun _ _ _ _ _ => rfl
  refine ⟨fun i b hi _ => ?_, fun υ hυ => ?_⟩
  · rw [detachAliases_of_unreferenced ha hz]
  · rw [detachAliases_of_unreferenced ha hz] at hυ ⊢
    have hspares : f.SparesOthers id σ υ := by
      rcases hυ with rfl | ⟨v, rfl⟩
      · exact hself
      · exact hself.update ho ha hlive v
    refine List.map_congr_left fun e he => value_of_spares ho (.refl f) hspares he ?_
    rintro rfl
    exact hn he

/-- If there are entries, the register is copied to a slot that no live register holds. -/
theorem Owned.detached_of_referenced (ho : f.Owned held) (ha : f.registers.get? id = some a)
    (hlive : a.live = true) (hrefs : a.stackRefs ≠ 0) (literal : Literal → V) (σ : Nat → V) :
    ∃ d, (f.detachAliases id).1 = some (.assign [.slot d] (.slot (f.registers.slotOf id))) ∧
      f.Detached id literal σ (Function.update σ d (σ (f.registers.slotOf id))) := by
  have hl := f.later_detachAliases id
  obtain ⟨g, heq, hstack, -, c, hc, -, hslot⟩ :=
    detachAliases_of_referenced ⟨_, ha, hrefs⟩
  rw [heq] at hl
  have hsource : g.registers.slotOf id = f.registers.slotOf id := hl.slotOf ha
  obtain ⟨d, hd⟩ : ∃ d, g.registers.slotOf f.registers.arena.size = d := ⟨_, rfl⟩
  have hidle : ∀ i b, f.registers.get? i = some b → b.live = true → b.slot ≠ d := by
    intro i b hi hb
    rw [← hd, slotOf_of_get? hc, hslot]
    exact ho.sound.takeSlot.1 hi hb
  have hspares : f.SparesOthers id σ (Function.update σ d (σ (f.registers.slotOf id))) :=
    fun i b hi hb _ => update_of_idle hidle _ i b hi hb
  refine ⟨d, by rw [heq, hd, hsource], fun i b hi hb => ?_, fun υ hυ => ?_⟩
  · rw [heq, hl.slotOf hi]
    exact update_of_idle hidle _ i b hi hb
  · rw [heq] at hυ ⊢
    rw [hstack, List.map_map]
    have hcopied : υ d = σ (f.registers.slotOf id) ∧ f.SparesOthers id σ υ := by
      rcases hυ with rfl | ⟨v, rfl⟩
      · exact ⟨Function.update_self _ _ _, hspares⟩
      · have hne : d ≠ f.registers.slotOf id := by
          rw [slotOf_of_get? ha]
          exact (hidle id a ha hlive).symm
        rw [hsource]
        exact ⟨by rw [Function.update_of_ne hne, Function.update_self],
          hspares.update ho ha hlive v⟩
    exact List.map_congr_left fun e he =>
      value_redirect ho hl (hd.symm ▸ hcopied.1) hcopied.2 he

/-- **The copy statement** is run, if there is one. -/
theorem Owned.runs_detachAliases (ho : f.Owned held) (ha : f.registers.get? id = some a)
    (hlive : a.live = true) (I : Interpretation V W) (run : Running V W) (literal : Literal → V) :
    ∃ after, ((f.detachAliases id).1.elim (some run) fun s => I.exec s run) = some after ∧
      after.effects = run.effects ∧ f.Detached id literal run.slots after.slots := by
  by_cases hz : a.stackRefs = 0
  · refine ⟨run, ?_, rfl, ho.detached_of_unreferenced ha hlive hz⟩
    rw [detachAliases_of_unreferenced ha hz]
    rfl
  · obtain ⟨d, hcopy, hvalues⟩ := ho.detached_of_referenced ha hlive hz literal run.slots
    refine ⟨⟨Function.update run.slots d (run.slots (f.registers.slotOf id)), run.effects⟩, ?_, rfl,
      hvalues⟩
    rw [hcopy]
    exact I.exec_copySlot d _ run

/-- **Detaching keeps every value.** Take a frame that operations lead to, a live register and any
contents of the slots. Once the copy statement has been run, if there is one, every stack entry and
every local has the value it had. No entry refers to the register any more, so an assignment of the
register leaves the values on the stack as they are. Reference counts go on being the numbers of
stack entries. -/
theorem values_detachAliases (I : Interpretation V W) (name : String) (signature : Option Signature)
    (declared : List ValueType) (strategy : Strategy) (lifetimes : Lifetimes) (debug : Debug)
    {ops : List Operation} {f : Frame}
    (hops : { start name signature declared strategy with lifetimes, debug }.admitsAll ops = true)
    (hf : { start name signature declared strategy with lifetimes, debug }.performAll ops = .ok f)
    {id : RegisterId} (hid : f.isLive id = true) (run : Running V W) (literal : Literal → V) :
    let copy := (f.detachAliases id).1
    let g := (f.detachAliases id).2
    ∃ after, (copy.elim (some run) fun s => I.exec s run) = some after ∧
      after.effects = run.effects ∧
      g.stack.map (g.registers.value literal after.slots) =
        f.stack.map (f.registers.value literal run.slots) ∧
      (g.locals = f.locals ∧ ∀ (l : Nat) i, f.locals[l]? = some (some i) →
        after.slots (g.registers.slotOf i) = run.slots (f.registers.slotOf i)) ∧
      .register id ∉ g.stack ∧
      (∀ v, g.stack.map (g.registers.value literal
          (Function.update after.slots (g.registers.slotOf id) v)) =
        f.stack.map (f.registers.value literal run.slots)) ∧
      ∀ i r, g.registers.get? i = some r → r.stackRefs = g.stack.count (.register i) := by
  obtain ⟨f', hf', ho⟩ :=
    (orderly_start name signature declared strategy lifetimes debug).performAll hops
  obtain rfl : f' = f := Except.ok.inj (hf'.symm.trans hf)
  obtain ⟨a, ha, hlive⟩ := (Option.any_eq_true _ _).1 hid
  -- blocks and what they keep do not matter here
  obtain ⟨after, hrun, heffects, hvalues⟩ := ho.owned.runs_detachAliases ha hlive I run literal
  have hgone := (ho.owned.detached ha).2
  rw [← unreserved_detachAliases] at hgone
  have hframe := unreserved_detachAliases f' id
  have hcopy : (f'.unreserved.detachAliases id).1 = (f'.detachAliases id).1 := by
    unfold Frame.detachAliases
    simp only [show f'.unreserved.registers = f'.registers from rfl]
    split <;> rfl
  rw [hcopy] at hrun
  obtain ⟨hregisters, hentries⟩ := hvalues
  rw [← hframe] at hregisters hentries
  refine ⟨after, hrun, heffects, hentries _ (.inl rfl),
    ⟨f'.locals_detachAliases id, fun l i hl => ?_⟩, hgone, fun v => hentries _ (.inr ⟨v, rfl⟩),
    fun i r hr => ?_⟩
  · obtain ⟨b, hb, hb', -⟩ := ho.owned.bound hl
    exact hregisters i b hb hb'
  · exact (ho.detachAliases hid).owned.refs hr

/-- The parameter is twice on the stack, once below a block, and the block keeps a register for its
value. -/
def doubled : List Operation :=
  [.localRegister 0, .pushRegister 0, .pushLiteral (.const (.i32 7)),
    .openBlock ⟨.block, 7⟩ (some .i32), .pushRegister 0]

def doubledFrame : Frame := ((oneParameter.performAll doubled).toOption).getD oneParameter

/-- Both entries of the parameter move to the slot 2, and the parameter can be assigned. -/
theorem values_detachAliases_doubled :
    let I : Interpretation Nat Unit :=
      { const := fun _ => 7, zero := 0, longZero := 0, nil := 0, nonzero := (· != 0),
        act := fun _ _ w => ([], w) }
    let g := (doubledFrame.detachAliases 0).2
    doubledFrame.stack = [.register 0, .literal (.const (.i32 7)), .register 0] ∧
    g.stack = [.register 2, .literal (.const (.i32 7)), .register 2] ∧
    ∃ after : Running Nat Unit, I.exec (.assign [.slot 2] (.slot 0)) ⟨fun n => n + 40, ⟨(), []⟩⟩ =
        some after ∧
      g.stack.map (g.registers.value (fun _ => 7) (Function.update after.slots 0 1)) =
        [40, 7, 40] := by
  intro I g
  obtain ⟨after, hrun, -, -, -, -, hlater, -⟩ := values_detachAliases I _ _ _ _ _ _
    (show oneParameter.admitsAll doubled = true by decide)
    (show oneParameter.performAll doubled = .ok doubledFrame by rfl)
    (show doubledFrame.isLive 0 = true by decide) ⟨fun n => n + 40, ⟨(), []⟩⟩ (fun _ => 7)
  exact ⟨by decide, by decide, after, hrun, hlater 1⟩

end Frame

end Moonstack
