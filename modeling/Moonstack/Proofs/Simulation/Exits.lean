import Moonstack.Proofs.Simulation.Locals

/-!
# Ways out of an instruction

Where control can leave the code of an instruction other than at its end: by a branch to an enclosing
block, or by a return. `Domain.Target` describes the place that a branch to a block leads to, by the
frame that the code there was written from: the one behind a `block` or an `if`, which is later than
the frame of the branch, and the one at the start of a `loop`, which is earlier. In both directions
the slots that are needed at the target are the same (`Match.arrives`).

`Domain.Exits` collects this for all enclosing blocks. From it follow the rules for branches,
conditional branches and branch tables.
-/

namespace Moonstack

namespace Domain

open Moonstack.Frame Moonstack.Flow

/-- The place that a branch to a block leads to. -/
structure Target (D : Domain) where
  register : Option RegisterId
  frame : Frame
  known : Nat → Prop
  base : List Entry
  near : List D.Value
  far : List D.Value

namespace Target

variable {D : Domain}

/-- How many values a branch takes along. -/
def arity (T : D.Target) : Nat := T.register.toList.length

/-- The target is the start of a loop, and the code from `f` to `g` stands inside the loop. -/
structure Behind (T : D.Target) (f g : Frame) : Prop where
  later : T.frame.Later f
  owned : T.frame.Owned []
  plain : T.register = none
  bound : ∀ l, T.known l → f.lifetimes.Spans l (T.frame.clock + 1) →
    ∃ id, T.frame.locals[l]? = some (some id)
  still : f.lifetimes.Still T.frame.clock g.clock

/-- The code from `f` to `g` stands inside the block, where the locals of `A` have values. -/
structure Around (T : D.Target) (f g : Frame) (A : Nat → Prop) (rest : List Entry)
    (outer : List D.Value) : Prop where
  lives : ∀ l, T.known l → f.lifetimes.Spans l (T.frame.clock + 1) →
    A l ∧ f.lifetimes.Spans l (g.clock + 1)
  way : g.Later T.frame ∨ T.Behind f g
  entries : T.base <:+ rest
  values : T.near ++ T.far <:+ outer

/-- The frame at the target is as the description says. -/
structure Fits (T : D.Target) : Prop where
  stack : T.frame.stack = T.register.toList.map .register ++ T.base
  length : T.base.length = T.near.length + T.far.length
  floor : T.frame.floor = T.far.length + 1

/-- With values that satisfy `Q`, a jump to the target goes well. -/
structure Takes (T : D.Target) (code : List Line) (final : List D.Value → Prop) (bound : Nat)
    (label : Label) (Q : Nat → List D.Value → (Nat → D.Value) → Prop) : Prop extends T.Fits where
  enough : ∀ {m vals ls}, Q m vals ls → T.arity ≤ vals.length
  lands : ∀ {m n vals ls σ}, m ≤ bound → code[n]? = some (.stmt (.goto label)) →
    Match D T.frame T.known (vals.take T.arity ++ T.near) T.far ls σ → Q m vals ls →
    D.Runs code final m (.line n) σ

variable {T : D.Target} {f g f' g' : Frame} {A B : Nat → Prop} {rest : List Entry}
  {outer : List D.Value}

theorem Behind.mono (h : T.Behind f g) (hf : f.Later f') (hg : g'.Later g) : T.Behind f' g' where
  later := h.later.trans hf
  owned := h.owned
  plain := h.plain
  bound := by rw [hf.lifetimes]; exact h.bound
  still := by
    rw [hf.lifetimes]
    exact h.still.mono (Nat.le_refl _) hg.clock

theorem Around.mono (h : T.Around f g A rest outer) (hf : f.Later f') (hg : g'.Later g)
    (hA : ∀ l, A l → f.lifetimes.Spans l (g.clock + 1) → B l) : T.Around f' g' B rest outer where
  lives l hl hs := by
    rw [hf.lifetimes] at hs ⊢
    obtain ⟨hl, hs⟩ := h.lives l hl hs
    exact ⟨hA l hl hs, hs.mono (Nat.succ_le_succ hg.clock)⟩
  way := h.way.imp hg.trans fun hb => hb.mono hf hg
  entries := h.entries
  values := h.values

/-- Inside a further block there are more entries outside. -/
theorem Around.deeper (h : T.Around f g A rest outer) {entries : List Entry} {values : List D.Value}
    (he : rest <:+ entries) (hv : outer <:+ values) : T.Around f g A entries values :=
  { h with entries := h.entries.trans he, values := h.values.trans hv }

end Target

variable {D : Domain} {env : Env} {code : List Line} {final : List D.Value → Prop}
  {bound m n : Nat} {post : Post D.Value} {f g f' g' : Frame} {A B : Nat → Prop}
  {rest : List Entry} {vals outer : List D.Value} {ls : Nat → D.Value} {σ : D.Store}

theorem forall₂_suffix {α β : Type} {R : α → β → Prop} {as as' : List α} {bs bs' : List β}
    (h : List.Forall₂ R as bs) (ha : as' <:+ as) (hb : bs' <:+ bs)
    (hl : as'.length = bs'.length) : List.Forall₂ R as' bs' := by
  rw [List.suffix_iff_eq_drop.1 ha, List.suffix_iff_eq_drop.1 hb, hl, h.length_eq]
  exact List.forall₂_drop _ h

/-- **A branch arrives**: the slots are as the frame at the target says. -/
theorem Match.arrives {T : D.Target} (h : Match D f A vals outer ls σ) (ho : f.Owned [])
    (ht : T.Fits) (ha : T.Around f f A rest outer) (hrest : rest <:+ f.stack)
    (hreg : ∀ id, T.register = some id → id ∈ f.reserved [] ∧
      ∃ v tail, vals = v :: tail ∧ σ (f.registers.slotOf id) = D.cell v) :
    Match D T.frame T.known (vals.take T.arity ++ T.near) T.far ls σ := by
  have hlife : T.frame.lifetimes = f.lifetimes :=
    ha.way.elim (fun hl => hl.lifetimes) fun hb => hb.later.lifetimes.symm
  refine ⟨?_, ht.floor, fun l hl hs => ?_, fun t l hp hc => ?_⟩
  · have hbase : List.Forall₂ (fun e v => D.Has σ (f.operand e) v) T.base (T.near ++ T.far) :=
      forall₂_suffix h.stack (ha.entries.trans hrest)
        (ha.values.trans (List.suffix_append vals outer))
        (ht.length.trans List.length_append.symm)
    have hsame : ∀ e ∈ T.base, T.frame.operand e = f.operand e := by
      intro e he
      rcases ha.way with hl | hb
      · exact operand_of_later ho hl ((ha.entries.trans hrest).subset he)
      · refine (operand_of_later hb.owned hb.later ?_).symm
        rw [ht.stack]
        exact List.mem_append_right _ he
    rw [ht.stack, List.append_assoc]
    refine List.rel_append ?_ (List.forall₂_iff_zip.2 ⟨hbase.length_eq, fun {e v} hz => ?_⟩)
    · rw [Target.arity]
      cases hr : T.register with
      | none => exact .nil
      | some id =>
        obtain ⟨hk, v, tail, rfl, hσ⟩ := hreg id hr
        obtain ⟨a, hid, -⟩ := ho.kept hk
        have hl : f.Later T.frame :=
          ha.way.resolve_right fun hb => by rw [hb.plain] at hr; cases hr
        refine .cons ?_ .nil
        rw [← hl.slotOf hid] at hσ
        exact hσ
    · rw [hsame e (List.of_mem_zip hz).1]
      exact (List.forall₂_iff_zip.1 hbase).2 hz
  · rw [hlife] at hs
    obtain ⟨hA, hs'⟩ := ha.lives l hl hs
    rcases ha.way with hlater | hb
    · exact h.locals_later ho hlater l hA (hlife ▸ hs)
    · -- the register of the loop's start is still the one of the local
      obtain ⟨id, hid, hσ⟩ := h.locals l hA hs'
      obtain ⟨id', hid'⟩ := hb.bound l hl hs
      obtain ⟨a, ha', -, hbound, hlast⟩ := hb.owned.bound hid'
      obtain ⟨last, hl', hle⟩ := hs'
      have hsame := hb.later.bound hid' ha' hbound (hlast.trans (hlife ▸ hl')) (by omega)
      rw [hid] at hsame
      cases hsame
      rw [hb.later.slotOf ha'] at hσ
      exact ⟨id, hid', hσ⟩
  · rw [hlife] at hp
    rcases ha.way with hlater | hb
    · rw [hlater.localTypes]
      exact h.fresh t l hp (Nat.lt_of_le_of_lt hlater.clock hc)
    · have hnot := hb.still _ hp
      rw [← hb.later.localTypes]
      exact h.fresh t l hp (Nat.lt_of_not_le fun hle => hnot ⟨hc, hle⟩)

/-- The function may return these values. -/
def Returns (f : Frame) (final : List D.Value → Prop) (vals : List D.Value) : Prop :=
  f.resultTypes.length ≤ vals.length ∧ final (vals.take f.resultTypes.length).reverse

/-- The ways out of the code from `f` to `g`, with at most `bound` jumps back left. -/
structure Exits (D : Domain) (code : List Line) (final : List D.Value → Prop) (bound : Nat)
    (post : Post D.Value) (f g : Frame) (A : Nat → Prop) (rest : List Entry)
    (outer : List D.Value) : Prop where
  branch : ∀ k b, f.blocks[k]? = some b → ∃ T : D.Target, T.register = b.branchRegister ∧
    T.Around f g A rest outer ∧ T.Takes code final bound b.branchLabel (post.br k)
  ret : ∀ vals, post.ret vals → D.Returns f final vals
  out : ∀ m vals ls, post.br f.blocks.length m vals ls → post.ret vals
  far : ∀ k m vals ls, f.blocks.length < k → ¬ post.br k m vals ls

theorem resultTypes_of_later (hl : f.Later g) : g.resultTypes = f.resultTypes := by
  rw [resultTypes, resultTypes, hl.signature]

/-- The ways out of a part of the code. -/
theorem Exits.mono (h : Exits D code final bound post f g A rest outer) (hf : f.Later f')
    (hb : f'.blocks = f.blocks) (hg : g'.Later g)
    (hA : ∀ l, A l → f.lifetimes.Spans l (g.clock + 1) → B l) :
    Exits D code final bound post f' g' B rest outer where
  branch k b hk := by
    obtain ⟨T, hT, ha, ht⟩ := h.branch k b (hb ▸ hk)
    exact ⟨T, hT, ha.mono hf hg hA, ht⟩
  ret vals hv := by
    rw [Returns, resultTypes_of_later hf]
    exact h.ret vals hv
  out := by rw [hb]; exact h.out
  far := by rw [hb]; exact h.far

/-- What is to hold behind the code does not matter for the ways out. -/
theorem Exits.andThen (h : Exits D code final bound post f g A rest outer)
    (next : Nat → List D.Value → (Nat → D.Value) → Prop) :
    Exits D code final bound { post with next } f g A rest outer :=
  ⟨h.branch, h.ret, h.out, h.far⟩

variable (hx : Exits D code final bound post f f A rest outer) (hD : D.Lawful env)
  (h : Match D f A vals outer ls σ) (ho : f.Owned []) (hrest : rest <:+ f.stack) (hm : m ≤ bound)
include hx hD h ho hrest hm

/-- **A branch.** -/
theorem Exits.runs_branch {depth : Nat} (hat : At code n (f.branchCode depth))
    (hp : post.br depth m vals ls) : D.Runs code final m (.line n) σ := by
  have hreturn (hat : At code n [.stmt f.returned]) (hp : post.ret vals) :
      D.Runs code final m (.line n) σ := by
    obtain ⟨hlen, hf⟩ := hx.ret vals hp
    exact .ret hat.get (h.peeks hlen) hf
  unfold branchCode at hat
  cases hb : f.blocks[depth]? with
  | none =>
    have hle := List.getElem?_eq_none_iff.1 hb
    simp only [hb] at hat
    by_cases hd : depth = f.blocks.length
    · rw [if_pos hd] at hat
      exact hreturn hat (hx.out m vals ls (hd ▸ hp))
    · exact absurd hp (hx.far depth m vals ls (by omega))
  | some b =>
    obtain ⟨T, hT, ha, ht⟩ := hx.branch depth b hb
    simp only [hb] at hat
    have henough := ht.enough hp
    cases hr : b.branchRegister with
    | none =>
      rw [hr] at hat
      refine ht.lands hm hat.get (h.arrives ho ht.toFits ha hrest fun id hid => ?_) hp
      rw [hT, hr] at hid
      cases hid
    | some id =>
      rw [hr, Option.elim_some] at hat
      rw [Target.arity, hT, hr] at henough
      obtain ⟨v, tail, rfl⟩ := List.exists_cons_of_length_pos henough
      have hk : id ∈ f.reserved [] :=
        List.mem_append_left _ (List.mem_filterMap.2 ⟨_, List.mem_of_getElem? hb, by
          rw [Block.branchRegister] at hr
          split at hr
          · cases hr
          all_goals exact hr⟩)
      have htop : D.Has σ (f.peek 0).1 v := by
        rw [peek_zero]
        exact (h.pop ho).1
      refine Runs.through (Through.copied hD htop rfl) hat.left fun τ hτ => ?_
      subst hτ
      have hw := h.writeOne ho hk (D.cell v)
      refine ht.lands hm hat.right.get (hw.arrives ho ht.toFits ha hrest fun id' hid => ?_) hp
      rw [hT, hr] at hid
      cases hid
      exact ⟨hk, v, tail, rfl, Function.update_self _ _ _⟩

/-- **A conditional branch.** -/
theorem Exits.runs_branchIf {depth : Nat} {o : Operand} {v : D.Value} (ho' : D.Shows σ o v)
    (hat : At code n (.ifThen (.binary .ne (.operand o) (.number 0)) :: f.branchCode depth ++
      [.close]))
    (hyes : D.Holds v true → post.br depth m vals ls)
    (hno : D.Holds v false →
      D.Runs code final m (.line (n + (f.branchCode depth).length + 2)) σ) :
    D.Runs code final m (.line n) σ := by
  refine .ifThen hat.get (hD.ready_zero _ ho' (.inr rfl)) (fun ht => ?_) (fun ht => ?_)
  · exact hx.runs_branch hD h ho hrest hm hat.tail.left (hyes (hD.tests_ne ho' ht))
  · have hlast : code[n + 1 + (f.branchCode depth).length]? = some .close := hat.tail.right.get
    rw [nextArm_eq (shape_branchCode f depth) rfl hat]
    refine .lastArm (.inr hlast) ?_
    have hend := hno (hD.tests_ne ho' ht)
    rwa [show n + (f.branchCode depth).length + 2 = n + 1 + (f.branchCode depth).length + 1 by
      omega] at hend

/-- **A branch table.** -/
theorem Exits.runs_table {o : Operand} {v : D.Value} {targets : List Nat} {fallback : Nat}
    (ho' : D.Shows σ o v) (hlimit : targets.length + 1 ≤ env.options.branchTableLimit)
    (hp : ∀ i, D.Selects v targets.length i → post.br ((targets[i]?).getD fallback) m vals ls)
    {limit : Option Nat} (hat : At code n (f.choiceCode o (.table limit targets fallback) false)) :
    D.Runs code final m (.line n) σ := by
  refine (Tested.choice (T := fun t b => D.Tests (t.condition o) σ b)
    (W := fun p => D.Runs code final m p σ)
    ⟨fun ht hl => .ifThen hl (hD.ready_test ho' ht hlimit),
      fun ht hl => .elseIf hl (hD.ready_test ho' ht hlimit), fun hl => .lastArm (.inl hl)⟩
    (Choice.fits_table limit targets fallback) fun hleads hat => ?_).1 hat
  obtain ⟨i, hpicks, rfl⟩ := Choice.picks_table hleads
  exact hx.runs_branch hD h ho hrest hm hat (hp i (hD.selects ho' hlimit hpicks))

end Domain

end Moonstack
