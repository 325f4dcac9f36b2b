import Moonstack.Proofs.Emission.Functions
import Moonstack.Proofs.Simulation.Soundness

/-!
# Runs of functions

All runs of the code of a function go well, if they do so for its body (`runs_lowerFunction`). The
code starts with the declaration of the slots that are not parameters; the parameters stand in the
first slots, in order, and the locals that have no value yet are zeroed by the body itself.

`Function.Regular` is what is asked of the function. The labels of its code are different because the
offsets of its instructions are.
-/

namespace Moonstack

/-! ## Labels -/

/-- The byte offset of the instruction that a label belongs to. -/
def Label.offset : Label → Nat
  | start b | alternative b | fin b => b.offset
  | resume offset => offset

namespace Instr

mutual

/-- The byte offsets of an instruction and of all instructions inside it. -/
def offsets : Instr → List Nat
  | leaf offset _ => [offset]
  | block offset _ body | loop offset _ body | ifThen offset _ body => offset :: bodyOffsets body
  | ifElse offset _ body other => offset :: (bodyOffsets body ++ bodyOffsets other)

/-- The byte offsets of all instructions of a body. -/
def bodyOffsets : List Instr → List Nat
  | [] => []
  | i :: rest => offsets i ++ bodyOffsets rest

end

mutual

theorem offset_of_labels {t : Label} : (i : Instr) → t ∈ i.labels → t.offset ∈ i.offsets
  | .leaf offset o, h => by
    simp only [labels, List.mem_singleton] at h
    subst h
    exact List.mem_singleton.2 rfl
  | .block offset result body, h | .ifThen offset result body, h => by
    simp only [labels, List.mem_append, List.mem_singleton] at h
    rcases h with h | rfl
    · exact List.mem_cons_of_mem _ (offset_of_bodyLabels body h)
    · exact List.mem_cons_self
  | .loop offset result body, h => by
    simp only [labels, List.mem_cons, List.mem_append, List.not_mem_nil, or_false] at h
    rcases h with rfl | h | rfl
    · exact List.mem_cons_self
    · exact List.mem_cons_of_mem _ (offset_of_bodyLabels body h)
    · exact List.mem_cons_self
  | .ifElse offset result body other, h => by
    simp only [labels, List.mem_cons, List.mem_append, List.not_mem_nil, or_false] at h
    rcases h with h | rfl | h | rfl
    · exact List.mem_cons_of_mem _ (List.mem_append_left _ (offset_of_bodyLabels body h))
    · exact List.mem_cons_self
    · exact List.mem_cons_of_mem _ (List.mem_append_right _ (offset_of_bodyLabels other h))
    · exact List.mem_cons_self

theorem offset_of_bodyLabels {t : Label} :
    (body : List Instr) → t ∈ bodyLabels body → t.offset ∈ bodyOffsets body
  | [], h => nomatch h
  | i :: rest, h => by
    rcases List.mem_append.1 h with h | h
    · exact List.mem_append_left _ (offset_of_labels i h)
    · exact List.mem_append_right _ (offset_of_bodyLabels rest h)

end

/-- A body and the label behind it. -/
theorem nodup_fin {body : List Instr} {t : Label} (h : (bodyLabels body).Nodup)
    (ht : t.offset ∉ bodyOffsets body) : (bodyLabels body ++ [t]).Nodup :=
  List.nodup_append.2 ⟨h, List.nodup_singleton _, fun a ha b hb => by
    rw [List.mem_singleton.1 hb]
    rintro rfl
    exact ht (offset_of_bodyLabels body ha)⟩

mutual

/-- Different instructions have different labels. -/
theorem nodup_labels : (i : Instr) → i.offsets.Nodup → i.labels.Nodup
  | .leaf offset o, _ => List.nodup_singleton _
  | .block offset result body, h | .ifThen offset result body, h => by
    obtain ⟨hn, h⟩ := List.nodup_cons.1 h
    exact nodup_fin (nodup_bodyLabels body h) hn
  | .loop offset result body, h => by
    obtain ⟨hn, h⟩ := List.nodup_cons.1 h
    refine List.nodup_cons.2 ⟨fun hm => ?_, nodup_fin (nodup_bodyLabels body h) hn⟩
    rcases List.mem_append.1 hm with hm | hm
    · exact hn (offset_of_bodyLabels body hm)
    · cases List.mem_singleton.1 hm
  | .ifElse offset result body other, h => by
    obtain ⟨hn, h⟩ := List.nodup_cons.1 h
    obtain ⟨hb, ho, hd⟩ := List.nodup_append.1 h
    have hnb : offset ∉ bodyOffsets body := fun hm => hn (List.mem_append_left _ hm)
    have hno : offset ∉ bodyOffsets other := fun hm => hn (List.mem_append_right _ hm)
    have hrest := nodup_fin (t := .fin ⟨.cond, offset⟩) (nodup_bodyLabels other ho) hno
    refine List.nodup_append.2 ⟨nodup_bodyLabels body hb, List.nodup_cons.2 ⟨fun hm => ?_, hrest⟩, ?_⟩
    · rcases List.mem_append.1 hm with hm | hm
      · exact hno (offset_of_bodyLabels other hm)
      · cases List.mem_singleton.1 hm
    · rintro a ha b hm rfl
      have hao := offset_of_bodyLabels body ha
      simp only [List.mem_cons, List.mem_append, List.not_mem_nil, or_false] at hm
      rcases hm with rfl | hm | rfl
      · exact hnb hao
      · exact hd _ hao _ (offset_of_bodyLabels other hm) rfl
      · exact hnb hao

theorem nodup_bodyLabels :
    (body : List Instr) → (bodyOffsets body).Nodup → (bodyLabels body).Nodup
  | [], _ => List.nodup_nil
  | i :: rest, h => by
    obtain ⟨hi, hr, hd⟩ := List.nodup_append.1 h
    refine List.nodup_append.2 ⟨nodup_labels i hi, nodup_bodyLabels rest hr, ?_⟩
    rintro a ha b hb rfl
    exact hd _ (offset_of_labels i ha) _ (offset_of_bodyLabels rest hb) rfl

end

end Instr

/-! ## Parameters -/

namespace Frame

variable {f g : Frame} {k : Nat}

/-- The first `k` locals are bound, each to the slot of its own number, and the others are not. -/
structure Binds (k : Nat) (f : Frame) : Prop where
  owned : f.Owned []
  free : f.registers.freeSlots = []
  count : f.registers.slotCount = k
  bound : ∀ l < k, ∃ id, f.locals[l]? = some (some id) ∧ f.registers.slotOf id = l
  unbound : ∀ l, k ≤ l → f.Unbound l

theorem takeSlot_of_free {r : Registers} (h : r.freeSlots = []) :
    r.takeSlot = (r.slotCount, { r with slotCount := r.slotCount + 1 }) := by
  unfold Registers.takeSlot
  split
  · rename_i h'
    rw [h] at h'
    cases h'
  · rfl

/-- One more parameter is bound. -/
theorem Binds.localRegister (h : Binds k f) (hk : k < f.localTypes.length) :
    Binds (k + 1) (f.localRegister k).2 ∧ f.home k = k := by
  have hu := h.unbound k (Nat.le_refl k)
  have hhome : f.home k = k := by rw [home_of_unbound hu, takeSlot_of_free h.free, h.count]
  obtain ⟨ho, hb⟩ := h.owned.localRegister hk
  have hregs : (f.localRegister k).2.registers.freeSlots = [] ∧
      (f.localRegister k).2.registers.slotCount = k + 1 := by
    rw [localRegister_of_unbound hu]
    simp only [Frame.bind, Registers.createNamed, Registers.create, takeSlot_of_free h.free, h.free,
      h.count, and_self]
  refine ⟨⟨ho, hregs.1, hregs.2, fun l hl => ?_, fun l hl => ?_⟩, hhome⟩
  · rcases Nat.lt_succ_iff_lt_or_eq.1 hl with hl | rfl
    · obtain ⟨id, hid, hslot⟩ := h.bound l hl
      obtain ⟨a, ha, -⟩ := h.owned.bound hid
      refine ⟨id, bound_localRegister hid, ?_⟩
      rw [(f.later_localRegister k).slotOf ha]
      exact hslot
    · exact ⟨_, hb, hhome⟩
  · exact unbound_localRegister (by omega) (h.unbound l (by omega))

/-- All parameters are bound, in order. -/
theorem Binds.bindAll {n : Nat} (h : Binds k f) (hn : k + n ≤ f.localTypes.length) :
    Binds (k + n) (f.bindAll (List.range' k n)) ∧
      f.boundNames (List.range' k n) = (List.range' k n).map slotName := by
  induction n generalizing f k with
  | zero => exact ⟨h, rfl⟩
  | succ n ih =>
    obtain ⟨h', hhome⟩ := h.localRegister (by omega)
    obtain ⟨hb, hnames⟩ := ih h' (by
      rw [(f.later_localRegister k).localTypes]
      omega)
    rw [show k + (n + 1) = k + 1 + n by omega, List.range'_succ]
    refine ⟨hb, ?_⟩
    rw [boundNames, hnames, List.map_cons]
    exact congrArg (· :: _) (congrArg slotName hhome)

theorem moved_bindAll (f : Frame) (indices : List Nat) :
    Moved 0 f (f.bindAll indices) ∧ (f.bindAll indices).stack = f.stack ∧
      (f.bindAll indices).sites = f.sites := by
  induction indices generalizing f with
  | nil => exact ⟨.refl f, rfl, rfl⟩
  | cons index rest ih =>
    obtain ⟨hm, hs, ht⟩ := ih (f.localRegister index).2
    exact ⟨(Moved.localRegister f index).trans hm, hs.trans (f.stack_localRegister index),
      ht.trans (f.fixed_localRegister index).2⟩

theorem moved_accessedAll (f : Frame) (indices : List Nat) :
    Moved 0 f (f.accessedAll indices) ∧ (f.accessedAll indices).stack = f.stack ∧
      f.Sheds (f.accessedAll indices) := by
  induction indices generalizing f with
  | nil => exact ⟨.refl f, rfl, .refl f⟩
  | cons index rest ih =>
    obtain ⟨hm, hs, ht⟩ := ih (f.accessed index)
    exact ⟨(Moved.accessed f index).trans hm, hs.trans (f.stack_accessed index),
      (Sheds.accessed f index).trans ht⟩

theorem Owned.accessedAll (h : f.Owned []) (indices : List Nat) :
    (f.accessedAll indices).Owned [] := by
  induction indices generalizing f with
  | nil => exact h
  | cons index rest ih => exact ih (h.accessed index)

end Frame

/-! ## Functions -/

/-- What is asked of a function, besides what its body does. -/
structure Function.Regular (env : Env) (signature : Signature) (function : Function) : Prop where
  /-- every instruction can be written as it is -/
  known : Instr.bodyIsKnown env (signature.params ++ function.locals).length function.body = true
  /-- no local is assigned inside a block while a value of it from outside is on the stack -/
  steady : Instr.bodyIsSteady env [] [] function.body = true
  distinct : (Instr.bodyOffsets function.body).Nodup
  /-- slots are pooled, or no local is zeroed for a single instruction -/
  lasting : env.options.strategy = .pooled ∨
    ∀ p ∈ (Lifetimes.ofBody function.body (signature.params ++ function.locals).length
      signature.params.length).forced,
      (Lifetimes.ofBody function.body (signature.params ++ function.locals).length
        signature.params.length).Spans p.2 (p.1 + 1)

theorem not_mem_declaredSlots {f : Frame} {l : Nat} (h : l < f.paramCount) :
    l ∉ declaredSlots f := by
  intro hm
  obtain ⟨n, hn, he⟩ := List.mem_iff_getElem.1 hm
  simp only [declaredSlots, List.getElem_drop, List.getElem_range] at he
  omega

/-- The lines of a function, the header first. -/
def Lowered.code (f : Lowered) : List Line := (f.header ++ f.lines).map Placed.line

/-- The values that a function returns from the stack are accepted. -/
def Post.Accepts {V : Type} (count : Nat) (final : List V → Prop) (vals : List V) : Prop :=
  count ≤ vals.length ∧ final (vals.take count).reverse

/-- What has to hold where control leaves the body of a function that returns `count` values. -/
def Post.function {V : Type} (count : Nat) (final : List V → Prop) : Post V where
  next _ vals _ := Accepts count final vals
  br
    | 0 => fun _ vals _ => Accepts count final vals
    | _ + 1 => fun _ _ _ => False
  ret := Accepts count final

open Moonstack.Frame Emit Moonstack.Flow

section

variable {env : Env} {id name : String} {function : Function} {signature : Signature}
  {lowered : Lowered}

/-- What `lowerFunction` gives, if it gives anything. -/
theorem written_lowerFunction (h : (lowerFunction env id name function).outcome.1 = .ok lowered) :
    ∃ signature f g code, env.registry.types[function.type]? = some signature ∧
      env.options.oversized function.body = false ∧
      f = function.startFrame env id signature ∧
      Writes (body env function.body) f.entered () g code ∧
      lowered.lines.map Placed.line = code ++ g.returnCode ∧
      lowered.params = f.boundNames (List.range f.paramCount) ∧ lowered.header = header g.left := by
  cases hs : env.registry.types[function.type]? with
  | none =>
    rw [(unknown_lowerFunction id name hs).outcome] at h
    cases h
  | some signature =>
    cases ho : env.options.oversized function.body with
    | true =>
      obtain ⟨r, hr⟩ := refuses_lowerFunction id name hs ho
      rw [hr.outcome] at h
      cases h
    | false =>
      obtain ⟨f, g, code, lowered', hf, hw, hl, hp, hh, -, hy⟩ :=
        yields_lowerFunction id name hs ho
      rw [hy.outcome] at h
      cases h
      exact ⟨signature, f, g, code, rfl, rfl, hf, hw, hl, hp, hh⟩

section Start

variable (env id function signature)

theorem owned_startFrame : (function.startFrame env id signature).Owned [] := by
  have h := @owned_start id (some signature) function.locals env.options.strategy
  refine { h with forced := fun p hp => ?_, bound := fun hl => ?_ }
  · exact (forced_ofBody hp).2
  · simp [startFrame, start, Array.getElem?_replicate] at hl

theorem binds_startFrame : Binds 0 (function.startFrame env id signature) where
  owned := owned_startFrame env id function signature
  free := rfl
  count := rfl
  bound l hl := absurd hl (Nat.not_lt_zero l)
  unbound l _ := by
    simp only [Unbound, startFrame, start, Array.getElem?_replicate]
    split <;> rfl

/-- In front of the body, the parameters are bound to the first slots. -/
theorem binds_params : let f := function.startFrame env id signature
    Binds signature.params.length (f.bindAll (List.range f.paramCount)) ∧
      f.boundNames (List.range f.paramCount) =
        (List.range signature.params.length).map slotName := by
  intro f
  have h := (binds_startFrame env id function signature).bindAll
    (n := signature.params.length) (by
      rw [Nat.zero_add]
      exact Nat.le_trans (Nat.le_add_right _ _) (Nat.le_of_eq List.length_append.symm))
  rwa [Nat.zero_add, ← List.range_eq_range'] at h

theorem moved_entered : let f := function.startFrame env id signature
    Moved 0 f f.entered ∧ f.entered.stack = [] ∧ f.entered.sites = #[] := by
  intro f
  obtain ⟨hm, hs, ht⟩ := moved_bindAll f (List.range f.paramCount)
  obtain ⟨hm', hs', ht'⟩ := moved_accessedAll (f.bindAll (List.range f.paramCount))
    (List.range f.paramCount)
  exact ⟨hm.trans hm', hs'.trans hs, ht'.sites.trans ht⟩

theorem stands_entered : Stands [] [] [] (function.startFrame env id signature).entered := by
  obtain ⟨hb, -⟩ := binds_params env id function signature
  obtain ⟨hm, hs, ht⟩ := moved_entered env id function signature
  obtain ⟨-, -, hsheds⟩ := moved_accessedAll ((function.startFrame env id signature).bindAll
      (List.range signature.params.length)) (List.range signature.params.length)
  refine ⟨hb.owned.accessedAll _, ⟨⟨[], hs, rfl⟩, rfl, ?_⟩, fun {t l} hp _ => ?_, ht⟩
  · simp only [Frame.floor, hm.blocks]
    rfl
  · rw [hm.lifetimes] at hp
    exact hsheds.unbound l (hb.unbound l (forced_ofBody hp).1)

end Start

/-- **How the code of a function is laid out**: slots that are not parameters are declared, the code
of the body follows, which starts from the frame with the parameters, and then the return. -/
theorem laid_lowerFunction (hl : (lowerFunction env id name function).outcome.1 = .ok lowered)
    (hs : env.registry.types[function.type]? = some signature)
    (known : Instr.bodyIsKnown env (signature.params ++ function.locals).length function.body = true)
    (steady : Instr.bodyIsSteady env [] [] function.body = true)
    (lasting : env.options.strategy = .pooled ∨ ∀ p ∈ (function.lifetimes signature).forced,
        (function.lifetimes signature).Spans p.2 (p.1 + 1)) :
    ∃ g code head,
      Frame.Setting (function.lifetimes signature) (signature.params ++ function.locals).length
        (function.startFrame env id signature).entered ∧
      Instr.BodyChecked env (function.lifetimes signature)
        (signature.params ++ function.locals).length [] [] (· < signature.params.length)
        (function.startFrame env id signature).entered.clock function.body ∧
      Keeps (Instr.bodyTicks function.body) (Instr.bodyLabels function.body)
        (body env function.body) (function.startFrame env id signature).entered [] () g [] code ∧
      g.resultTypes.length = signature.results.length ∧
      lowered.code = head ++ (code ++ g.returnCode) ∧
      (head = [] ∨ ∃ slots, head = [.declare slots] ∧ ∀ l < signature.params.length, l ∉ slots) := by
  obtain ⟨signature', f, g, code, hs', ho, rfl, hw, hlines, -, hheader⟩ :=
    written_lowerFunction hl
  rw [hs] at hs'
  cases hs'
  rw [Options.oversized, Bool.or_eq_false_iff] at ho
  obtain ⟨hmoved, -, -⟩ := moved_entered env id function signature
  have hset : Frame.Setting
      (function.lifetimes signature) (signature.params ++ function.locals).length
      (function.startFrame env id signature).entered :=
    Frame.Setting.later ⟨rfl, rfl, nodup_forced_ofBody _ _ _, lasting⟩ hmoved.toLater
  have hclock : (function.startFrame env id signature).entered.clock = 0 := hmoved.ticks
  have hchecked : Instr.BodyChecked env (function.lifetimes signature)
      (signature.params ++ function.locals).length [] [] (· < signature.params.length)
      (function.startFrame env id signature).entered.clock function.body := by
    rw [hclock]
    exact ⟨known, steady, ho.2, covered_ofBody _ _ _⟩
  obtain ⟨_, g', code', hk⟩ := succeeds_body ho.2 (function.startFrame env id signature).entered
  obtain ⟨-, rfl, rfl⟩ := hw.unique hk.writes
  have hsites : g.left.sites = #[] := by
    have hg := (stands_walk.body function.body hset (stands_entered env id function signature)
      hchecked hw).sites
    unfold Frame.left
    split
    · exact (Sheds.poppedMany g _).sites.trans hg
    · exact hg
  have hparams : g.left.paramCount = signature.params.length := by
    have hg : g.paramCount = signature.params.length :=
      hk.moved.paramCount.trans hmoved.paramCount
    unfold Frame.left
    split
    · exact (Moved.poppedMany g _).paramCount.trans hg
    · exact hg
  refine ⟨g, code, lowered.header.map Placed.line, hset, hchecked, hk, ?_, ?_, ?_⟩
  · rw [Domain.resultTypes_of_later (hmoved.toLater.trans hk.moved.toLater)]
    rfl
  · rw [Lowered.code, List.map_append, hlines]
  · rw [hheader, header, hsites]
    split
    · exact .inl rfl
    · exact .inr ⟨_, rfl, fun l hl => not_mem_declaredSlots (hparams ▸ hl)⟩

end

namespace Domain

variable {D : Domain} {env : Env} {id name : String} {function : Function} {signature : Signature}
  {lowered : Lowered} {final : List D.Value → Prop} {m : Nat} {ls : Nat → D.Value} {σ : D.Store}

/-- The arguments stand in the slots of the parameters. -/
theorem match_entered (hσ : ∀ l < signature.params.length, σ l = D.cell (ls l))
    (hz : ∀ l, signature.params.length ≤ l →
      ls l = D.zero (((signature.params ++ function.locals)[l]?).getD .i32)) :
    Match D (function.startFrame env id signature).entered
      (· < signature.params.length) [] [] ls σ := by
  obtain ⟨hb, -⟩ := binds_params env id function signature
  obtain ⟨hm, hs, -⟩ := moved_entered env id function signature
  obtain ⟨hm', -, -⟩ := moved_accessedAll ((function.startFrame env id signature).bindAll
      (List.range signature.params.length)) (List.range signature.params.length)
  have hbound : Match D ((function.startFrame env id signature).bindAll
      (List.range signature.params.length)) (· < signature.params.length) [] [] ls σ := by
    obtain ⟨hl, hs', -⟩ := moved_bindAll (function.startFrame env id signature)
      (List.range signature.params.length)
    refine ⟨?_, ?_, fun l hl _ => ?_, fun t l hp _ => ?_⟩
    · rw [hs']
      exact .nil
    · simp only [Frame.floor, hl.blocks]
      rfl
    · obtain ⟨id, hid, hslot⟩ := hb.bound l hl
      exact ⟨id, hid, hslot.symm ▸ hσ l hl⟩
    · rw [hl.lifetimes] at hp
      rw [hl.localTypes]
      exact hz l (forced_ofBody hp).1
  exact hbound.later hb.owned hm'.toLater
    (moved_accessedAll _ _).2.1 (floor_of_blocks hm'.blocks)

/-- The return at the end of the body. -/
theorem runs_return {code : List Line} {n : Nat} {f : Frame} {A : Nat → Prop}
    {vals : List D.Value} (ho : f.Owned []) (h : Match D f A vals [] ls σ)
    (hacc : Post.Accepts f.resultTypes.length final vals) (hat : At code n f.returnCode)
    (hend : code[n + f.returnCode.length]? = none) : D.Runs code final m (.line n) σ := by
  obtain ⟨hlen, hfin⟩ := hacc
  have hdepth : f.depth = vals.length + 1 := by
    rw [Frame.depth, h.stack.length_eq, List.append_nil]
  unfold Frame.returnCode at hat hend
  by_cases hr : f.returns
  · rw [if_pos hr] at hat
    have hsplit : vals = (vals.take f.resultTypes.length).reverse.reverse ++
        vals.drop f.resultTypes.length := by
      rw [List.reverse_reverse, List.take_append_drop]
    rw [hsplit] at h
    obtain ⟨htops, -⟩ := h.popMany ho
    rw [List.length_reverse, List.length_take, Nat.min_eq_left hlen] at htops
    exact .ret hat.get htops hfin
  · rw [if_neg hr] at hend
    have hzero : f.resultTypes.length = 0 := by
      by_contra hne
      exact hr ⟨hne, by omega⟩
    rw [hzero, List.take_zero] at hfin
    exact .fall hend hfin

/-- **All runs of a function go well**, if its body does. -/
theorem runs_lowerFunction (hD : D.Lawful env)
    (hl : (lowerFunction env id name function).outcome.1 = .ok lowered)
    (hs : env.registry.types[function.type]? = some signature)
    (hreg : function.Regular env signature)
    (hσ : ∀ l < signature.params.length, σ l = D.cell (ls l))
    (hz : ∀ l, signature.params.length ≤ l →
      ls l = D.zero (((signature.params ++ function.locals)[l]?).getD .i32))
    (hp : D.bodyPre env function.body (.function signature.results.length final) m [] ls) :
    D.Runs lowered.code final m (.line 0) σ := by
  obtain ⟨g, code, head, hset, hchecked, hk, hresults, hcode, hhead⟩ :=
    laid_lowerFunction hl hs hreg.known hreg.steady hreg.lasting
  obtain ⟨hmoved, -, -⟩ := moved_entered env id function signature
  have hst := stands_entered env id function signature
  have hnodup : (lowered.code.filterMap Line.label?).Nodup := by
    have hret : g.returnCode.filterMap Line.label? = [] := by
      unfold Frame.returnCode
      split <;> rfl
    have hdecl : head.filterMap Line.label? = [] := by
      rcases hhead with rfl | ⟨slots, rfl, -⟩ <;> rfl
    rw [hcode, List.filterMap_append, List.filterMap_append, hret, hdecl, List.nil_append,
      List.append_nil]
    exact (Instr.nodup_bodyLabels _ hreg.distinct).sublist hk.shape.labels
  have hblocks : (function.startFrame env id signature).entered.blocks = [] := hmoved.blocks
  have hat : At lowered.code 0 (head ++ (code ++ g.returnCode)) := hcode ▸ .all _
  have hbody {τ : D.Store} (hτ : ∀ l < signature.params.length, τ l = D.cell (ls l)) :
      D.Runs lowered.code final m (.line (0 + head.length)) τ := by
    refine (runs_walk hD hnodup).body function.body hset hst hchecked hk.writes hat.right.left ?_
      (Nat.le_refl m) (match_entered hτ hz) hp fun _ h hacc => ?_
    · refine ⟨fun k b hk => ?_, fun vals hv => ?_, fun m vals ls hv => ?_, fun k m vals ls hk => ?_⟩
      · rw [hblocks] at hk
        cases hk
      · have he := resultTypes_of_later hmoved.toLater
        rw [Returns, he]
        exact hv
      · rw [hblocks] at hv
        exact hv
      · rw [hblocks] at hk
        cases k with
        | zero => cases hk
        | succ k => exact fun h => h
    · refine runs_return (hk.owned hst.owned) h (hresults ▸ hacc) hat.right.right ?_
      rw [hcode, List.getElem?_eq_none]
      simp only [List.length_append]
      omega
  rcases hhead with rfl | ⟨slots, rfl, hslots⟩
  · exact hbody hσ
  · refine .declare hat.get (hbody fun l hl => ?_)
    rw [if_neg (hslots l hl)]
    exact hσ l hl

end Domain

end Moonstack
