import Moonstack.Proofs.Simulation.Exits

/-!
# The code of bodies

All runs of the code of a body go well, if its precondition holds and the slots are as the frame
says. The domain is arbitrary, so one proof serves every meaning of the code.

`runs_walk` goes along the tree of instructions. For each of them, the code stands in the code of the
whole function, the ways out are known (`Domain.Exits`), and all is well behind it.
At the start of a loop, the proof is by induction on the number of jumps back that are left.
-/

namespace Moonstack

namespace Domain

open Moonstack.Frame Moonstack.Flow Emit Instr

variable {D : Domain} {env : Env} {code : List Line} {final : List D.Value → Prop}
  {bound m n : Nat} {post : Post D.Value} {f g : Frame} {A : Nat → Prop} {rest : List Entry}
  {vals outer : List D.Value} {ls : Nat → D.Value} {σ : D.Store} {L : Lifetimes} {count : Nat}
  {outerS s : List (Option Nat)}
variable {inner : List Instr}

/-! ## Begin and end of an instruction -/

theorem Runs.comment_if {p : Prop} [Decidable p] {text : String}
    (hat : At code n (if p then [.comment text] else []))
    (h : D.Runs code final m (.line (n + (if p then [Line.comment text] else []).length)) σ) :
    D.Runs code final m (.line n) σ := by
  split at hat
  · rename_i hp
    rw [if_pos hp] at h
    exact .idle hat.get rfl h
  · rename_i hp
    rw [if_neg hp] at h
    exact h

/-- The begin of an instruction. -/
theorem Match.runs_begin (hD : D.Lawful env) (h : Match D f A vals outer ls σ)
    (hf : Frame.Setting L count f) (hst : Stands outerS s rest f) (hlone : L.Lone (f.clock + 1))
    {i : Instr} (hat : At code n (f.beginCode i))
    (hk : ∀ τ, Match D f.begun (L.zeroing (f.clock + 1) A) vals outer ls τ →
      D.Offers f.begun (L.zeroing (f.clock + 1) A) ls τ →
      D.Runs code final m (.line (n + (f.beginCode i).length)) τ) :
    D.Runs code final m (.line n) σ := by
  refine .through (h.begun hD hf hst hlone) hat.left fun τ hτ => .comment_if hat.right ?_
  have hrun := hk τ hτ.1 hτ.2
  rwa [beginCode, List.length_append, ← Nat.add_assoc] at hrun

/-- The end of an instruction. -/
theorem runs_finish (hat : At code n f.finishCode)
    (h : D.Runs code final m (.line (n + f.finishCode.length)) σ) :
    D.Runs code final m (.line n) σ := by
  have hright := hat.right
  rw [List.length_map] at hright
  refine .comments hat.left (.comment_if hright ?_)
  rwa [finishCode, List.length_append, List.length_map, ← Nat.add_assoc] at h

/-! ## Instructions without a body -/

theorem suffix_stack (h : Stands outerS s rest f) : rest <:+ f.stack := by
  obtain ⟨near, hs, -⟩ := h.mirrors.stack
  exact ⟨near, hs.symm⟩

/-- **The code of an instruction without a body.** -/
theorem runs_op (hD : D.Lawful env) {o : Op} {offset tick : Nat} {lines : List Line}
    (hf : Frame.Setting L count f) (hst : Stands outerS s rest f)
    (hk : o.isKnown env count = true) (hwide : o.isWide env.options.branchTableLimit = false)
    (hc : (Instr.leaf offset o).Covered L count A tick) (ht : f.clock = tick + 1)
    (hw : Writes (op env offset o) f () g lines) (hat : At code n lines)
    (hx : Exits D code final bound post f g (L.zeroing (tick + 1) A) rest outer)
    (hm : m ≤ bound) (h : Match D f (L.zeroing (tick + 1) A) vals outer ls σ)
    (hv : D.Offers f (L.zeroing (tick + 1) A) ls σ) (hp : D.opPre env post m vals ls o)
    (hnext : ∀ {vals ls σ}, Match D g (fun l => L.zeroing (tick + 1) A l ∨ o.assigns = some l) vals
      outer ls σ → post.next m vals ls → D.Runs code final m (.line (n + lines.length)) σ) :
    D.Runs code final m (.line n) σ := by
  have hcount := hf.count
  have hpart {f' : Frame} (hl : f.Later f') (hb : f'.blocks = f.blocks) (hg : f'.Later g) :
      Exits D code final bound post f' f' (L.zeroing (tick + 1) A) rest outer :=
    hx.mono hl hb hg fun _ hA _ => hA
  have hplain {p : Plain} {args below results : List D.Value} (hpl : o.plain env = some p)
      (hperf : D.Performs o args results) (hargs : args.length = p.pops)
      (hres : results.length = p.pushes) (hvals : vals = args.reverse ++ below)
      (ha : o.assigns = none) (hpost : post.next m (results.reverse ++ below) ls) :
      D.Runs code final m (.line n) σ := by
    obtain ⟨f', hq, hw'⟩ := writes_plain hpl offset
    obtain ⟨-, rfl, rfl⟩ := hw.unique hw'
    subst hvals
    exact .through ((h.quiet hst.owned hq).performed hD (hq.owned hst.owned) hpl hperf hargs hres)
      hat fun τ hτ => hnext (hτ.unassigned ha) hpost
  cases o with
  | localGet l =>
    have hl := of_decide_eq_true hk
    obtain ⟨hz, hspan, -⟩ := hc.2 hl
    rw [← hcount] at hl
    obtain ⟨-, rfl, rfl⟩ := hw.unique (keeps_localGet hl []).writes
    refine hnext ((h.fetched hst.owned hl (hv l hz ?_)).unassigned rfl) hp
    rw [hf.lifetimes, ht]
    exact hspan
  | localSet l | localTee l =>
    have hl := of_decide_eq_true hk
    obtain ⟨-, hforced⟩ := hc.2 hl
    rw [← hcount] at hl
    obtain ⟨-, rfl, rfl⟩ := hw.unique (keeps_localSet hl _ []).writes
    obtain ⟨v, below, rfl, hpost⟩ := hp
    refine .through (h.stored hD hst.owned hl ?_ _) hat fun τ hτ => hnext (hτ.mono ?_) hpost
    · rw [hf.lifetimes, ht]
      exact hforced
    · exact fun i hi => hi.imp_right fun he => (Option.some.inj he).symm
  | const value =>
    obtain ⟨-, rfl, rfl⟩ := hw.unique (keeps_pushLiteral f [] (.const value)).writes
    obtain ⟨v, hv, hpost⟩ := hp
    exact hnext ((h.pushLiteral hst.owned hv).unassigned rfl) hpost
  | unreachable =>
    obtain ⟨-, rfl, rfl⟩ := hw.unique (writes_stmt _ f)
    exact .stop hp hat.get
  | br depth =>
    obtain ⟨g', hq, hw'⟩ := branches_branch f depth
    obtain ⟨-, rfl, rfl⟩ := hw.unique hw'
    exact (hpart (.refl f) rfl hq.moved.toLater).runs_branch hD h hst.owned (suffix_stack hst) hm
      hat hp
  | ret =>
    obtain ⟨g', hq, hw'⟩ := branches_leaveFunction f
    obtain ⟨-, rfl, rfl⟩ := hw.unique hw'
    obtain ⟨hlen, hfinal⟩ := hx.ret vals hp
    exact .ret hat.get (h.peeks hlen) hfinal
  | brIf depth =>
    obtain ⟨g', hq, hw'⟩ := writes_branchIf f depth
    obtain ⟨-, rfl, rfl⟩ := hw.unique hw'
    obtain ⟨v, below, rfl, htest, hpost⟩ := hp
    obtain ⟨htop, hpop⟩ := h.pop hst.owned
    refine (hpart f.later_popped (Moved.popped f).blocks hq.moved.toLater).runs_branchIf hD hpop
      hst.owned.popped (suffix_stack hst.popped) hm ⟨htop, htest⟩ hat (hpost true) fun hb => ?_
    have hend := hnext ((hpop.quiet hst.owned.popped hq).unassigned rfl) (hpost false hb)
    rwa [List.length_append, List.length_cons, List.length_singleton, Nat.add_assoc,
      ← Nat.add_assoc] at hend
  | brTable targets fallback =>
    simp only [Op.isWide, decide_eq_false_iff_not] at hwide
    obtain ⟨g', hq, hw', -⟩ := writes_branchTable f hwide
    obtain ⟨-, rfl, rfl⟩ := hw.unique hw'
    obtain ⟨v, below, rfl, htest, hpost⟩ := hp
    obtain ⟨htop, hpop⟩ := h.pop hst.owned
    exact (hpart f.later_popped (Moved.popped f).blocks hq.moved.toLater).runs_table hD hpop
      hst.owned.popped (suffix_stack hst.popped) hm ⟨htop, htest⟩ (Nat.le_of_not_lt hwide) hpost hat
  | _ =>
    obtain ⟨p, args, below, results, hpl, hperf, hargs, hres, hvals, hpost⟩ := hp
    exact hplain hpl hperf hargs hres hvals rfl hpost

/-! ## Ends of blocks -/

/-- The place behind a block that was opened at `f₀` and whose body ends at `g`. -/
def Target.behind (b : Block) (f₀ g : Frame) (A : Nat → Prop) (vals outer : List D.Value) :
    D.Target where
  register := b.register
  frame := g.closed b
  known := A
  base := f₀.stack
  near := vals
  far := outer

section Blocks

variable {f₀ : Frame} {b : Block} {k arity : Nat} {T : D.Target}

theorem fits_behind (hg : Within k f₀ b g) (hin : Stands outerS s f₀.stack g)
    (h : Match D f₀ A vals outer ls σ) : (Target.behind b f₀ g A vals outer).Fits where
  stack := Stands.stack_closed hg hin
  length := h.stack.length_eq.trans List.length_append
  floor := (floor_of_blocks hg.closed.blocks).trans h.floor

/-- A jump to the end of a block goes well if all is well at its label. -/
theorem takes_behind (ht : T.Fits) {label : Label} (hl : labelAt code label = some k)
    (har : T.arity = arity)
    (hk : ∀ {m vals ls σ}, m ≤ bound → Match D T.frame T.known vals T.far ls σ →
      post.next m vals ls → D.Runs code final m (.line k) σ) :
    T.Takes code final bound label ((post.block arity T.near).br 0) where
  toFits := ht
  enough h := har ▸ h.1
  lands hm hline h hq := .goto hline hl (hk hm h (har ▸ hq.2))

section

variable (hD : D.Lawful env) (h : Match D g A vals outer ls σ) (hg : Within k f₀ b g)
  (ho : g.Owned []) (ht : T.Fits) (ha : T.Around g g A rest outer) (hrest : rest <:+ g.stack)
  (hr : T.register = b.register) (hlen : vals.length = b.register.toList.length)
include hD h hg ho ht ha hrest hr hlen

/-- The end of an arm: its value goes to the register of the block. -/
theorem Match.through_yield :
    D.Through (Match D T.frame T.known (vals ++ T.near) T.far ls) (g.tick.yieldCode b) σ := by
  have htick : Match D g.tick A vals outer ls σ := h.later ho g.later_tick rfl rfl
  have htake : vals.take T.arity = vals := by
    rw [Target.arity, hr, ← hlen, List.take_length]
  unfold yieldCode
  cases hb : b.register with
  | none =>
    have hgo := h.arrives ho ht ha hrest fun id hid => by
      rw [hr, hb] at hid
      cases hid
    rwa [htake] at hgo
  | some id =>
    rw [hb] at hlen
    obtain ⟨v, rfl⟩ := List.length_eq_one_iff.1 hlen
    have hk : id ∈ g.reserved [] :=
      List.mem_append_left _ (List.mem_filterMap.2 ⟨b, by rw [hg.blocks]; exact List.mem_cons_self,
        hb⟩)
    obtain ⟨a, hid, -⟩ := ho.kept hk
    have hdepth : b.enterDepth < g.tick.depth := by
      have hfloor : g.floor = b.enterDepth := by rw [Frame.floor, hg.blocks]
      have hl := h.stack.length_eq
      rw [← hfloor, h.floor]
      change _ < g.stack.length + 1
      rw [hl, List.length_append, List.length_singleton]
      omega
    have hslot : g.tick.popped.registers.slotOf id = g.registers.slotOf id :=
      (g.later_tick.trans (later_popped _)).slotOf hid
    simp only [if_pos hdepth]
    rw [hslot]
    refine Through.copied hD (htick.pop ho.tick).1 ?_
    have hgo := (h.writeOne ho hk (D.cell v)).arrives ho ht ha hrest fun id' hid' => by
      rw [hr, hb] at hid'
      cases hid'
      exact ⟨hk, v, [], rfl, Function.update_self _ _ _⟩
    rwa [htake] at hgo

theorem Match.runs_settle (hat : At code n (g.tick.settleCode b))
    (hk : ∀ τ, Match D T.frame T.known (vals ++ T.near) T.far ls τ →
      D.Runs code final m (.line (n + (g.tick.settleCode b).length)) τ) :
    D.Runs code final m (.line n) σ := by
  refine .through (h.through_yield hD hg ho ht ha hrest hr hlen) hat.left fun τ hτ =>
    .comment_if hat.right ?_
  have hrun := hk τ hτ
  rwa [settleCode, List.length_append, ← Nat.add_assoc] at hrun

theorem Match.runs_end (hat : At code n (g.endCode b))
    (hk : ∀ τ, Match D T.frame T.known (vals ++ T.near) T.far ls τ →
      D.Runs code final m (.line (n + (g.endCode b).length)) τ) :
    D.Runs code final m (.line n) σ := by
  refine h.runs_settle hD hg ho ht ha hrest hr hlen hat.left fun τ hτ => .comment_if hat.right ?_
  have hrun := hk τ hτ
  rwa [endCode, List.length_append, ← Nat.add_assoc] at hrun

end

/-- The ways out of the body of a block: its own label, and those of the instruction. -/
theorem Exits.enter {start last : Frame} {B : Nat → Prop} {post' : Post D.Value}
    (hx : Exits D code final bound post f₀ last A rest outer)
    (hbr : ∀ k, post'.br (k + 1) = post.br k) (hret : post'.ret = post.ret)
    (hstart : f₀.Later start) (hblocks : start.blocks = b :: f₀.blocks) (hg : g.Later last)
    (hB : ∀ l, A l → f₀.lifetimes.Spans l (last.clock + 1) → B l) (hrest : rest <:+ f₀.stack)
    (hT : T.register = b.branchRegister) (ha : T.Around start g B f₀.stack (vals ++ outer))
    (ht : T.Takes code final bound b.branchLabel (post'.br 0)) :
    Exits D code final bound post' start g B f₀.stack (vals ++ outer) where
  branch k b' hk := by
    rw [hblocks] at hk
    cases k with
    | zero =>
      obtain rfl := Option.some.inj hk
      exact ⟨T, hT, ha, ht⟩
    | succ k =>
      obtain ⟨T', hT', ha', ht'⟩ := hx.branch k b' hk
      refine ⟨T', hT', (ha'.mono hstart hg hB).deeper hrest (List.suffix_append vals outer), ?_⟩
      rw [hbr]
      exact ht'
  ret vals hv := by
    rw [Returns, resultTypes_of_later hstart]
    exact hx.ret vals (hret ▸ hv)
  out m vals ls hv := by
    rw [hblocks, List.length_cons, hbr] at hv
    rw [hret]
    exact hx.out m vals ls hv
  far k m vals ls hk := by
    rw [hblocks, List.length_cons] at hk
    obtain ⟨j, rfl⟩ : ∃ j, k = j + 1 := ⟨k - 1, by omega⟩
    rw [hbr]
    exact hx.far j m vals ls (by omega)

theorem Exits.lower {bound' : Nat} (hx : Exits D code final bound post f g A rest outer)
    (h : bound' ≤ bound) : Exits D code final bound' post f g A rest outer where
  branch k b hk := by
    obtain ⟨T, hT, ha, ht⟩ := hx.branch k b hk
    exact ⟨T, hT, ha, { ht with lands := fun hm => ht.lands (Nat.le_trans hm h) }⟩
  ret := hx.ret
  out := hx.out
  far := hx.far

/-- The place behind a block, from an arm that ends at `g₁`. -/
theorem around_behind {start g₁ : Frame} {B : Nat → Prop} (hl : g₁.Later (g.closed b))
    (hB : ∀ l, A l → start.lifetimes.Spans l ((g.closed b).clock + 1) → B l) :
    (Target.behind b f₀ g A vals outer).Around start g₁ B f₀.stack (vals ++ outer) where
  lives l hA hs := ⟨hB l hA hs, hs.mono (Nat.succ_le_succ hl.clock)⟩
  way := .inl hl
  entries := List.suffix_refl _
  values := List.suffix_refl _

theorem length_register (f : Frame) (name : BlockName) (result : Option ValueType) :
    (f.openBlock name result).1.register.toList.length = result.toList.length := by
  cases result <;> rfl

end Blocks

/-! ## Instructions and bodies -/

theorem leaves_of (i : Instr) (clock l : Nat) (h : A l) : i.leaves L A clock l := by
  cases i with
  | leaf offset o => exact .inl (.inl h)
  | _ => exact .inl h

variable (D env code final L count) in
/-- What the induction shows of an instruction. -/
def InstrRuns (i : Instr) : Prop :=
  ∀ {bound m n : Nat} {post : Post D.Value} {f g : Frame} {A : Nat → Prop} {rest : List Entry}
    {vals outer : List D.Value} {ls : Nat → D.Value} {σ : D.Store}
    {outerS s : List (Option Nat)} {lines : List Line},
    Frame.Setting L count f → Stands outerS s rest f → Checked env L count outerS s A f.clock i →
    Writes (instr env i) f () g lines → At code n lines →
    Exits D code final bound post f g A rest outer → m ≤ bound → Match D f A vals outer ls σ →
    D.pre env i post m vals ls →
    (∀ {m vals ls σ}, m ≤ bound → Match D g (i.leaves L A f.clock) vals outer ls σ →
      post.next m vals ls → D.Runs code final m (.line (n + lines.length)) σ) →
    D.Runs code final m (.line n) σ

variable (D env code final L count) in
/-- What the induction shows of a body. -/
def BodyRuns (body : List Instr) : Prop :=
  ∀ {bound m n : Nat} {post : Post D.Value} {f g : Frame} {A : Nat → Prop} {rest : List Entry}
    {vals outer : List D.Value} {ls : Nat → D.Value} {σ : D.Store}
    {outerS s : List (Option Nat)} {lines : List Line},
    Frame.Setting L count f → Stands outerS s rest f →
    BodyChecked env L count outerS s A f.clock body →
    Writes (Emit.body env body) f () g lines → At code n lines →
    Exits D code final bound post f g A rest outer → m ≤ bound → Match D f A vals outer ls σ →
    D.bodyPre env body post m vals ls →
    (∀ {m vals ls σ}, m ≤ bound → Match D g A vals outer ls σ →
      post.next m vals ls → D.Runs code final m (.line (n + lines.length)) σ) →
    D.Runs code final m (.line n) σ

theorem runs_leaf (hD : D.Lawful env) (offset : Nat) (o : Op) :
    InstrRuns D env code final L count (.leaf offset o) := by
  intro bound m n post f g A rest vals outer ls σ outerS s lines hf hst hc hw hat hx hm h hp hnext
  obtain ⟨_, g', inner, ho⟩ := succeeds_op f.begun [] hc.narrow offset
  obtain ⟨-, rfl, rfl⟩ := hw.unique (writes_leaf ho.writes)
  have hb := moved_begun f
  have hfin := (keeps_finish g' []).moved
  have hst' := hst.started hf
  have hog' : g'.Owned [] := ho.owned hst'.owned
  refine h.runs_begin hD hf hst hc.covered.1 hat.left fun τ h₁ hv => ?_
  refine runs_op hD (hf.opening .block) hst' hc.known hc.narrow hc.covered (clock_begun f) ho.writes
    hat.right.left (hx.mono hb.toLater hb.blocks hfin.toLater fun _ hA _ => .inl hA) hm h₁ hv hp
    fun h₂ hpost => ?_
  refine runs_finish hat.right.right ?_
  refine (hnext hm (h₂.finished hog') hpost).cast ?_
  simp only [List.length_append]
  omega

/-! ### Blocks -/

/-- What is known at the end of a block, or of an `if`, that was opened at `f₀` and whose last arm
ends at `g`: all is well at its label, on line `k`. -/
structure Closing (D : Domain) (code : List Line) (final : List D.Value → Prop) (bound : Nat)
    (post : Post D.Value) (f₀ g : Frame) (b : Block) (A : Nat → Prop) (rest : List Entry)
    (vals outer : List D.Value) (k : Nat) : Prop where
  kind : b.name.kind ≠ .loop
  fits : (Target.behind b f₀ g A vals outer).Fits
  label : labelAt code (.fin b.name) = some k
  behind : ∀ {m vals ls σ}, m ≤ bound → Match D (g.closed b) A vals outer ls σ →
    post.next m vals ls → D.Runs code final m (.line k) σ
  exits : Exits D code final bound post f₀ (g.closed b) A rest outer
  rest : rest <:+ f₀.stack

section Arms

variable {f₀ start g₁ : Frame} {b b₁ : Block} {k p w : Nat} {inner : List Instr}
  {lines : List Line}

/-- The body of an arm, from `start` to `g₁`. -/
theorem Closing.runs_arm (hcl : Closing D code final bound post f₀ g b A rest vals outer k)
    (ih : BodyRuns D env code final L count inner) (hname : b₁.name = b.name)
    (hreg : b₁.register = b.register) (hf : Frame.Setting L count start)
    (hst : Stands outerS [] f₀.stack start)
    (hc : BodyChecked env L count outerS [] A start.clock inner)
    (hw : Writes (Emit.body env inner) start () g₁ lines) (hat : At code p lines)
    (hstart : f₀.Later start) (hblocks : start.blocks = b₁ :: f₀.blocks)
    (hl : g₁.Later (g.closed b)) (hm : m ≤ bound) (h : Match D start A [] (vals ++ outer) ls σ)
    (hp : D.bodyPre env inner (post.block b.register.toList.length vals) m [] ls)
    (hk : ∀ {m vs ls σ}, m ≤ bound → Match D g₁ A vs (vals ++ outer) ls σ →
      vs.length = b.register.toList.length → post.next m (vs ++ vals) ls →
      D.Runs code final m (.line (p + lines.length)) σ) :
    D.Runs code final m (.line p) σ := by
  have hkind : b₁.name.kind ≠ .loop := hname ▸ hcl.kind
  have htakes : (Target.behind b f₀ g A vals outer).Takes code final bound (.fin b.name)
      ((post.block b.register.toList.length vals).br 0) :=
    takes_behind hcl.fits hcl.label rfl hcl.behind
  rw [← hname, ← branchLabel_of_ne_loop hkind] at htakes
  have hx : Exits D code final bound (post.block b.register.toList.length vals) start g₁ A f₀.stack
      (vals ++ outer) :=
    hcl.exits.enter (fun _ => rfl) rfl hstart hblocks hl (fun _ hA _ => hA) hcl.rest
      (hreg.symm.trans (branchRegister_of_ne_loop hkind).symm)
      (around_behind hl fun _ hA _ => hA) htakes
  exact ih hf hst hc hw hat hx hm h hp fun hm' h' hpost => hk hm' h' hpost.1 hpost.2

/-- The end of an arm. -/
theorem Closing.runs_settle (hD : D.Lawful env)
    (hcl : Closing D code final bound post f₀ g b A rest vals outer k)
    (hreg : b₁.register = b.register) (hin : Within w f₀ b₁ g₁)
    (hst : Stands outerS s f₀.stack g₁) (hl : g₁.Later (g.closed b)) {vs : List D.Value}
    (h : Match D g₁ A vs (vals ++ outer) ls σ) (hlen : vs.length = b.register.toList.length)
    (hat : At code p (g₁.tick.settleCode b₁))
    (hk : ∀ τ, Match D (g.closed b) A (vs ++ vals) outer ls τ →
      D.Runs code final m (.line (p + (g₁.tick.settleCode b₁).length)) τ) :
    D.Runs code final m (.line p) σ :=
  h.runs_settle hD hin hst.owned hcl.fits (around_behind hl fun _ hA _ => hA) (suffix_stack hst)
    hreg.symm (hlen.trans (by rw [hreg])) hat hk

/-- The end of the last arm. -/
theorem Closing.runs_end (hD : D.Lawful env)
    (hcl : Closing D code final bound post f₀ g b A rest vals outer k) (hin : Within w f₀ b g)
    (hst : Stands outerS s f₀.stack g) {vs : List D.Value}
    (h : Match D g A vs (vals ++ outer) ls σ) (hlen : vs.length = b.register.toList.length)
    (hat : At code p (g.endCode b)) (hk : p + (g.endCode b).length = k) (hm : m ≤ bound)
    (hpost : post.next m (vs ++ vals) ls) : D.Runs code final m (.line p) σ :=
  h.runs_end hD hin hst.owned hcl.fits (around_behind (later_closed g b) fun _ hA _ => hA)
    (suffix_stack hst) rfl hlen hat fun _ hτ => (hcl.behind hm hτ hpost).cast hk.symm

/-- The end of a block is known from what is written there. -/
theorem closing_of_at (hd : (code.filterMap Line.label?).Nodup) (hkind : b.name.kind ≠ .loop)
    (hin : Within w f₀ b g) (hst : Stands outerS s f₀.stack g)
    (h : Match D f₀ A vals outer ls σ)
    (hat : At code p (g.closeCode b ++ (g.closed b).finishCode))
    (hx : Exits D code final bound post f₀ (g.closed b) A rest outer) (hrest : rest <:+ f₀.stack)
    (hnext : ∀ {m vals ls σ}, m ≤ bound → Match D (g.closed b).finished A vals outer ls σ →
      post.next m vals ls →
      D.Runs code final m (.line (p + (g.closeCode b ++ (g.closed b).finishCode).length)) σ) :
    Closing D code final bound post f₀ g b A rest vals outer (p + (g.endCode b).length) := by
  have hcode : g.closeCode b = g.endCode b ++ [.label (.fin b.name)] := by
    rw [closeCode, if_neg hkind, List.append_nil]
  rw [hcode, List.append_assoc] at hat
  refine ⟨hkind, fits_behind hin hst h, labelAt_of_nodup hd hat.right.left.get,
    fun hm h₂ hpost => ?_, hx, hrest⟩
  refine .idle hat.right.left.get rfl (runs_finish hat.right.right ?_)
  refine (hnext hm (h₂.finished (hin.owned_closed hst.owned)) hpost).cast ?_
  simp only [hcode, List.length_append, List.length_singleton]
  omega

end Arms

section

variable (hD : D.Lawful env) (hd : (code.filterMap Line.label?).Nodup)
include hD hd

/-- The code of a block runs if that of its body does. -/
theorem runs_block (offset : Nat) (result : Option ValueType)
    (ih : BodyRuns D env code final L count inner) :
    InstrRuns D env code final L count (.block offset result inner) := by
  intro bound m n post f g A rest vals outer ls σ outerS s lines hf hst hc hw hat hx hm h hp hnext
  obtain ⟨b, g', lines', hb, hi, rfl, rfl⟩ := written_block hc.narrow hw
  obtain ⟨k, hk⟩ := hi.within
  have hkind : b.name.kind ≠ .loop := by simp [← hb, name_openBlock]
  have hbegin := moved_begun f
  have hfin := (keeps_finish (g'.closed b) []).moved
  have hst₁ := hst.started hf
  have hclock := clock_opened f.begun ⟨.block, offset⟩ result (clock_begun f)
  have hin : BodyChecked env L count (s ++ outerS) [] (L.zeroing (f.clock + 1) A)
      (f.begun.openBlock ⟨.block, offset⟩ result).2.clock inner := by
    rw [hclock]
    exact hc.enclosed (.block offset result inner)
  have hend := stands_walk.body inner ((hf.opening .block).opened _ _) (hst₁.opened _ _) hin
    hi.keeps.writes
  refine h.runs_begin hD hf hst hc.covered.2.1 hat.left fun τ h₁ _ => ?_
  have hcl := closing_of_at hd hkind hk hend h₁ hat.right.right
    (hx.mono hbegin.toLater hbegin.blocks hfin.toLater fun _ hA _ => .inl hA) (suffix_stack hst₁)
    fun hm h₂ hpost => (hnext hm h₂ hpost).cast (by simp only [List.length_append]; omega)
  have hopen := Within.opened f.begun ⟨.block, offset⟩ result
  refine hcl.runs_arm ih rfl rfl ((hf.opening .block).opened _ _) (hst₁.opened _ _) hin
    hi.keeps.writes hat.right.left hopen.toLater (hb ▸ hopen.blocks) (later_closed g' b) hm
    (h₁.opened hst₁.owned _ _) ?_ fun hm' h' hlen hpost => ?_
  · rw [← hb, length_register]
    exact hp
  · have hclose := hat.right.right.left
    rw [closeCode, List.append_assoc] at hclose
    exact hcl.runs_end hD hk hend h' hlen hclose.left rfl hm' hpost

/-- The code of an `if` with one arm runs if that of the arm does. -/
theorem runs_ifThen (offset : Nat) (result : Option ValueType)
    (ih : BodyRuns D env code final L count inner) :
    InstrRuns D env code final L count (.ifThen offset result inner) := by
  intro bound m n post f g A rest vals outer ls σ outerS s lines hf hst hc hw hat hx hm h hp hnext
  obtain ⟨rfl, v, below, rfl, htest, hp⟩ := hp
  obtain ⟨b, g', lines', hb, hi, rfl, rfl⟩ := written_ifThen hc.narrow hw
  obtain ⟨k, hk⟩ := hi.within
  have hkind : b.name.kind ≠ .loop := by simp [← hb, name_openBlock]
  have hnone : b.register = none := by rw [← hb]; rfl
  have hbegin := (moved_begun f).trans (Moved.popped f.begun)
  have hfin := (keeps_finish (g'.closed b) []).moved
  have hst₁ := hst.started hf
  have hclock := clock_opened f.begun.popped ⟨.cond, offset⟩ none (clock_popped f)
  have hin : BodyChecked env L count (s.tail ++ outerS) [] (L.zeroing (f.clock + 1) A)
      (f.begun.popped.openBlock ⟨.cond, offset⟩ none).2.clock inner := by
    rw [hclock]
    exact hc.enclosed (.ifThen offset none inner)
  have hend := stands_walk.body inner ((hf.opening .cond).opened _ _) (hst₁.popped.opened _ _) hin
    hi.keeps.writes
  refine h.runs_begin hD hf hst hc.covered.2.1 hat.left fun τ h₁ _ => ?_
  obtain ⟨htop, hpop⟩ := h₁.pop hst₁.owned
  have hcl := closing_of_at hd hkind hk hend hpop hat.right.tail.right
    (hx.mono hbegin.toLater hbegin.blocks hfin.toLater fun _ hA _ => .inl hA)
    (suffix_stack hst₁.popped)
    fun hm h₂ hpost => (hnext hm h₂ hpost).cast (by
      simp only [List.length_append, List.length_cons]; omega)
  have hopen := Within.opened f.begun.popped ⟨.cond, offset⟩ none
  refine .guard hat.right.get hcl.label (hD.ready_zero _ ⟨htop, htest⟩ (.inl rfl))
    (fun ht => ?_) (fun ht => ?_)
  · -- the condition is zero: the arm is skipped
    refine hcl.behind hm (hpop.later hst₁.owned.popped hk.closed.toLater ?_
      (floor_of_blocks hk.closed.blocks)) (hp false (hD.tests_eq ⟨htop, htest⟩ ht))
    rw [Stands.stack_closed hk hend, hnone]
    rfl
  · refine hcl.runs_arm ih rfl rfl ((hf.opening .cond).opened _ _) (hst₁.popped.opened _ _) hin
      hi.keeps.writes hat.right.tail.left hopen.toLater (hb ▸ hopen.blocks) (later_closed g' b) hm
      (hpop.opened hst₁.owned.popped _ _) ?_ fun hm' h' hlen hpost => ?_
    · rw [hnone]
      exact hp true (hD.tests_eq ⟨htop, htest⟩ ht)
    · have hclose := hat.right.tail.right.left
      rw [closeCode, List.append_assoc] at hclose
      exact hcl.runs_end hD hk hend h' hlen hclose.left rfl hm' hpost

/-- The code of an `if` with two arms runs if that of the arms does. -/
theorem runs_ifElse (offset : Nat) (result : Option ValueType) {other : List Instr}
    (ih : BodyRuns D env code final L count inner) (ih' : BodyRuns D env code final L count other) :
    InstrRuns D env code final L count (.ifElse offset result inner other) := by
  intro bound m n post f g A rest vals outer ls σ outerS s lines hf hst hc hw hat hx hm h hp hnext
  have hnarrow := Bool.or_eq_false_iff.1 hc.narrow
  obtain ⟨v, below, rfl, htest, hp⟩ := hp
  obtain ⟨b, g₁, lines₁, g₂, lines₂, hb, hi, hi', rfl, rfl⟩ :=
    written_ifElse hnarrow.1 hnarrow.2 hw
  obtain ⟨k, hk⟩ := hi.within
  obtain ⟨k', hk'⟩ := hi'.within
  have hturned := hk.turned
  have hname : b.name = { b with inElse := true }.name := rfl
  have hreg : b.register = { b with inElse := true }.register := rfl
  generalize { b with inElse := true } = b' at hi' hk' hturned hname hreg hat hx hnext
  have hkind : b'.name.kind ≠ .loop := by simp [← hname, ← hb, name_openBlock]
  have harity : b'.register.toList.length = result.toList.length := by
    rw [← hreg, ← hb, length_register]
  have hbegin := (moved_begun f).trans (Moved.popped f.begun)
  have hfin := (keeps_finish (g₂.closed b') []).moved
  have hst₁ := hst.started hf
  have hf₁ := (hf.opening .cond).opened ⟨.cond, offset⟩ result
  have hf₂ := (hf₁.later hi.keeps.moved.toLater).later (later_turned g₁ b)
  have hclock := clock_opened f.begun.popped ⟨.cond, offset⟩ result (clock_popped f)
  have hin : BodyChecked env L count (s.tail ++ outerS) [] (L.zeroing (f.clock + 1) A)
      (f.begun.popped.openBlock ⟨.cond, offset⟩ result).2.clock inner := by
    rw [hclock]
    exact hc.ifElse
  have hin' : BodyChecked env L count (s.tail ++ outerS) [] (L.zeroing (f.clock + 1) A)
      (g₁.turned b).clock other := by
    rw [clock_turned hclock hi.keeps.moved]
    exact hc.alternative
  have hend := stands_walk.body inner hf₁ (hst₁.popped.opened _ _) hin hi.keeps.writes
  have hturn := Stands.turned hk hend
  have hend' := stands_walk.body other hf₂ hturn hin' hi'.keeps.writes
  have hlast : g₁.Later (g₂.closed b') :=
    (later_turned g₁ b).trans (hi'.keeps.moved.toLater.trans (later_closed g₂ _))
  refine h.runs_begin hD hf hst hc.covered.2.1 hat.left fun τ h₁ _ => ?_
  obtain ⟨htop, hpop⟩ := h₁.pop hst₁.owned
  have hopened := hpop.opened hst₁.owned.popped ⟨.cond, offset⟩ result
  have harm := hat.right.tail.right
  have hcl := closing_of_at hd hkind hk' hend' hpop harm.right.right
    (hx.mono hbegin.toLater hbegin.blocks hfin.toLater fun _ hA _ => .inl hA)
    (suffix_stack hst₁.popped)
    fun hm h₂ hpost => (hnext hm h₂ hpost).cast (by
      simp only [List.length_append, List.length_cons]; omega)
  have hopen := Within.opened f.begun.popped ⟨.cond, offset⟩ result
  -- the two lines between the arms
  have hturnCode := harm.left
  rw [turnCode] at hturnCode
  have hlabel := labelAt_of_nodup hd hturnCode.right.tail.get
  refine .guard hat.right.get hlabel (hD.ready_zero _ ⟨htop, htest⟩ (.inl rfl))
    (fun ht => ?_) (fun ht => ?_)
  · have hstart : Match D (g₁.turned b) (L.zeroing (f.clock + 1) A) [] (below ++ outer) ls τ := by
      refine hopened.later (hst₁.popped.opened _ _).owned
        (hi.keeps.moved.toLater.trans (later_turned g₁ b)) ?_ ?_
      · rw [hturn.mirrors.stack_eq, (hst₁.popped.opened _ _).mirrors.stack_eq]
      · rw [hturn.mirrors.floor, (hst₁.popped.opened _ _).mirrors.floor]
    have hat' := harm.right.left
    rw [turnCode, List.length_append] at hat'
    refine .idle hturnCode.right.tail.get rfl ?_
    refine Runs.cast (hcl.runs_arm ih' rfl rfl hf₂ hturn hin' hi'.keeps.writes hat'
      hturned.toLater hturned.blocks (later_closed g₂ b') hm hstart ?_
      fun hm' h' hlen hpost => ?_) rfl
    · exact harity ▸ hp false (hD.tests_eq ⟨htop, htest⟩ ht)
    · have hclose := harm.right.right.left
      rw [closeCode, List.append_assoc] at hclose
      refine (hcl.runs_end hD hk' hend' h' hlen hclose.left rfl hm' hpost).cast ?_
      rw [turnCode, List.length_append]
  · refine hcl.runs_arm ih hname hreg hf₁ (hst₁.popped.opened _ _) hin hi.keeps.writes
      hat.right.tail.left hopen.toLater (hb ▸ hopen.blocks) hlast hm hopened ?_
      fun hm' h' hlen hpost => ?_
    · exact harity ▸ hp true (hD.tests_eq ⟨htop, htest⟩ ht)
    · refine hcl.runs_settle hD hreg hk hend hlast h' hlen hturnCode.left fun τ' hτ => ?_
      exact .goto hturnCode.right.get (hname ▸ hcl.label) (hcl.behind hm' hτ hpost)

/-! ### Loops -/

/-- The start of a loop that was opened at `f₀`, with the frame `f` inside. -/
def Target.start (f₀ f : Frame) (A : Nat → Prop) (outer : List D.Value) : D.Target where
  register := none
  frame := f
  known := A
  base := f₀.stack
  near := []
  far := outer

section

omit hD hd

variable {f₀ start : Frame} {b : Block} {p w arity : Nat} {I : Nat → (Nat → D.Value) → Prop}
  {B : Nat → Prop} {lines : List Line}

/-- The code up to `g` stands inside a loop with the given start. -/
theorem around_start (hf : Frame.Setting L count start) (h : Match D start A [] outer ls σ)
    (ho : start.Owned []) (hspan : ∀ l, A l → L.Spans l (g.clock + 1))
    (hstill : L.Still start.clock g.clock) :
    (Target.start f₀ start A outer).Around start g A f₀.stack outer where
  lives l hl _ := ⟨hl, hf.lifetimes ▸ hspan l hl⟩
  way := .inr ⟨.refl _, ho, rfl, fun l hl hs => (h.locals l hl hs).imp fun _ => And.left,
    hf.lifetimes ▸ hstill⟩
  entries := List.suffix_refl _
  values := List.suffix_refl _

/-- A jump back goes well if the invariant makes all well at the start with one jump less. -/
theorem takes_start (h : Match D start A [] outer ls σ) (hstack : start.stack = f₀.stack)
    (hlabel : labelAt code b.branchLabel = some p)
    (hback : ∀ k < bound, ∀ ls σ, I k ls → Match D start A [] outer ls σ →
      D.Runs code final k (.line p) σ) :
    (Target.start f₀ start A outer).Takes code final bound b.branchLabel
      ((post.loop arity vals D.Unbounded I).br 0) where
  stack := hstack
  length := by
    change f₀.stack.length = 0 + outer.length
    rw [Nat.zero_add, ← hstack, h.stack.length_eq, List.nil_append]
  floor := h.floor
  enough _ := Nat.zero_le _
  lands {m' _ _ ls' σ'} hm hline h' hq := by
    cases m' with
    | zero => exact .cut hq
    | succ k => exact .back hline hlabel (hback k hm ls' σ' hq h')

/-- All is well at the start of a loop if the ways out of its body are known whenever all is well at
the start with fewer jumps back. The induction is on the number of jumps back that are left. -/
theorem runs_start {base : List Entry} {label : Label} (ih : BodyRuns D env code final L count inner)
    (hf : Frame.Setting L count start) (hst : Stands outerS [] base start)
    (hc : BodyChecked env L count outerS [] A start.clock inner)
    (hw : Writes (Emit.body env inner) start () g lines)
    (hat : At code p (.label label :: .forever :: lines))
    (hp : ∀ k ls, I k ls → D.bodyPre env inner post k [] ls)
    (hx : ∀ {k ls σ}, k ≤ bound → Match D start A [] outer ls σ →
      (∀ j < k, ∀ ls σ, I j ls → Match D start A [] outer ls σ → D.Runs code final j (.line p) σ) →
      Exits D code final k post start g A base outer)
    (hk : ∀ {m vs ls σ}, m ≤ bound → Match D g A vs outer ls σ → post.next m vs ls →
      D.Runs code final m (.line (p + 2 + lines.length)) σ)
    (hm : m ≤ bound) (hI : I m ls) (h : Match D start A [] outer ls σ) :
    D.Runs code final m (.line p) σ := by
  induction m using Nat.strongRecOn generalizing ls σ with
  | ind m ihm =>
    have hback : ∀ j < m, ∀ ls σ, I j ls → Match D start A [] outer ls σ →
        D.Runs code final j (.line p) σ := fun j hj ls σ hI h => ihm j hj (by omega) hI h
    refine .idle hat.get rfl (.idle hat.tail.get rfl ?_)
    exact ih hf hst hc hw hat.tail.tail (hx hm h hback) (Nat.le_refl m) h (hp m ls hI)
      fun hm' h' hpost => hk (Nat.le_trans hm' hm) h' hpost

/-- From the end of the body of a loop, which begins on line `p`, to the line behind the loop. -/
theorem Match.runs_leave (hD : D.Lawful env) (hkind : b.name.kind = .loop) (hin : Within w f₀ b g)
    (hst : Stands outerS s f₀.stack g) (hfits : (Target.behind b f₀ g A vals outer).Fits)
    (haround : (Target.behind b f₀ g A vals outer).Around g g B f₀.stack (vals ++ outer))
    {labels : List Label} (hshape : Shape labels lines)
    (hat : At code p (.forever :: lines ++ (g.closeCode b ++ (g.closed b).finishCode)))
    {vs : List D.Value} (h : Match D g B vs (vals ++ outer) ls σ)
    (hlen : vs.length = b.register.toList.length)
    (hk : ∀ {τ}, Match D (g.closed b).finished A (vs ++ vals) outer ls τ → D.Runs code final m
      (.line (p + 1 + lines.length + (g.closeCode b ++ (g.closed b).finishCode).length)) τ) :
    D.Runs code final m (.line (p + 1 + lines.length)) σ := by
  have hcode : g.closeCode b = g.endCode b ++ (.leave :: .close :: [.label (.fin b.name)]) := by
    rw [closeCode, if_pos hkind, List.append_assoc]
    rfl
  have hforever : At code p (.forever :: (lines ++ g.endCode b) ++
      .leave :: .close :: (.label (.fin b.name) :: (g.closed b).finishCode)) := by
    rw [hcode] at hat
    simpa only [List.cons_append, List.append_assoc, List.nil_append] using hat
  have hclose := hat.right.left
  rw [closeCode, List.append_assoc] at hclose
  refine Runs.cast (h.runs_end hD hin hst.owned hfits haround (suffix_stack hst) rfl hlen
    hclose.left fun τ hτ => ?_) (by rw [List.length_cons]; omega)
  refine Runs.cast (Runs.leave (hshape.append (shape_endCode g b)) hforever ?_)
    (by simp only [List.length_append, List.length_cons]; omega)
  have hfin := hforever.right.tail.tail
  rw [List.length_cons] at hfin
  refine Runs.cast (.idle hfin.get rfl (runs_finish hfin.tail ?_)) (by omega)
  refine (hk (hτ.finished (hin.owned_closed hst.owned))).cast ?_
  simp only [hcode, List.length_append, List.length_cons, List.length_nil]
  omega

end

theorem runs_loop (offset : Nat) (result : Option ValueType)
    (ih : BodyRuns D env code final L count inner) :
    InstrRuns D env code final L count (.loop offset result inner) := by
  intro bound m n post f g A rest vals outer ls σ outerS s lines hf hst hc hw hat hx hm h hp hnext
  obtain ⟨I, hI, hp⟩ := hp
  obtain ⟨b, g', lines', hb, hi, rfl, rfl⟩ := written_loop hc.narrow hw
  obtain ⟨k, hk⟩ := hi.within
  have hkind : b.name.kind = .loop := by rw [← hb, name_openBlock]
  have hbegin := moved_begun f
  have hfin := (keeps_finish (g'.closed b) []).moved
  have hst₁ := hst.started hf
  have hst₂ := hst₁.opened ⟨.loop, offset⟩ result
  have hf₂ : Frame.Setting L count (f.begun.openBlock ⟨.loop, offset⟩ result).2 :=
    (hf.opening .block).opened ⟨.loop, offset⟩ result
  have hopen := Within.opened f.begun ⟨.loop, offset⟩ result
  have hstack := stack_openBlock f.begun ⟨.loop, offset⟩ result
  have hclock := clock_opened f.begun ⟨.loop, offset⟩ result (clock_begun f)
  have hopened {A ls σ} (h : Match D f.begun A vals outer ls σ) :=
    h.opened hst₁.owned ⟨.loop, offset⟩ result
  generalize (f.begun.openBlock ⟨.loop, offset⟩ result).2 = start at *
  have hclock' : g'.clock = f.clock + 1 + bodyTicks inner := by
    rw [hi.keeps.moved.ticks, hclock]
  have hclosed : (g'.closed b).clock = f.clock + 2 + bodyTicks inner := by
    have h₁ := hk.closed.ticks
    have h₂ := hk.ticks
    omega
  obtain ⟨hstill, hlone, hcov⟩ := hc.covered
  generalize hA₂ : (fun l => L.zeroing (f.clock + 1) A l ∧
    L.Spans l (f.clock + 2 + bodyTicks inner)) = A₂ at hcov
  have hin : BodyChecked env L count (s ++ outerS) [] A₂ start.clock inner := by
    rw [hclock, ← hA₂]
    exact hc.enclosed (.loop offset result inner)
  have hend := stands_walk.body inner hf₂ hst₂ hin hi.keeps.writes
  refine h.runs_begin hD hf hst hlone hat.left fun τ h₁ _ => ?_
  have hright := hat.right
  generalize hn : n + (f.beginCode (.loop offset result inner)).length = p at hright ⊢
  have hx₁ : Exits D code final bound post f.begun (g'.closed b) (L.zeroing (f.clock + 1) A) rest
      outer := hx.mono hbegin.toLater hbegin.blocks hfin.toLater fun _ hA _ => .inl hA
  have hB (l : Nat) (hA : L.zeroing (f.clock + 1) A l)
      (hs : L.Spans l ((g'.closed b).clock + 1)) : A₂ l := by
    rw [← hA₂]
    exact ⟨hA, hs.mono (by omega)⟩
  have haround : (Target.behind b f.begun g' (L.zeroing (f.clock + 1) A) vals outer).Around g' g'
      A₂ f.begun.stack (vals ++ outer) := around_behind (later_closed g' b) fun l hA hs =>
    hB l hA (by rwa [(hf₂.later hi.keeps.moved.toLater).lifetimes] at hs)
  have hlabel : labelAt code b.branchLabel = some p := by
    unfold Block.branchLabel
    rw [hkind]
    exact labelAt_of_nodup hd hright.get
  have hregister : b.branchRegister = none := by
    unfold Block.branchRegister
    rw [hkind]
  have hspan (l : Nat) (hl : A₂ l) : L.Spans l (g'.clock + 1) := by
    rw [← hA₂] at hl
    exact hl.2.mono (by omega)
  have hstill' : L.Still start.clock g'.clock := hstill.mono (by omega) (by omega)
  refine runs_start ih hf₂ hst₂ hin hi.keeps.writes hright.left hp (fun hj h₂ hback => ?_)
    (fun hm' h' hpost => ?_) hm hI (hopened (h₁.mono fun l hl => ?_))
  · exact (hx₁.lower hj).enter (fun _ => rfl) rfl hopen.toLater (hb ▸ hopen.blocks)
      (later_closed g' b) (fun l hA hs => hB l hA ((hf.opening .block).lifetimes ▸ hs))
      (suffix_stack hst₁) hregister.symm (around_start hf₂ h₂ hst₂.owned hspan hstill')
      (takes_start h₂ hstack hlabel hback)
  · refine (h'.runs_leave hD hkind hk hend (fits_behind hk hend h₁) haround hi.keeps.shape hright.tail
      ?_ fun hτ => ?_).cast rfl
    · rw [hpost.1, ← hb, length_register]
    · refine (hnext hm' hτ hpost.2).cast ?_
      simp only [List.length_append, List.length_cons]
      omega
  · rw [← hA₂] at hl
    exact hl.1

end

/-! ### The induction -/

theorem runs_nil : BodyRuns D env code final L count [] := by
  intro bound m n post f g A rest vals outer ls σ outerS s lines hf hst hc hw hat hx hm h hp hnext
  obtain ⟨-, rfl, rfl⟩ := hw.unique (.pure f ())
  exact hnext hm h hp

theorem runs_cons {i : Instr} {body : List Instr} (ih : InstrRuns D env code final L count i)
    (ih' : BodyRuns D env code final L count body) :
    BodyRuns D env code final L count (i :: body) := by
  intro bound m n post f g A rest vals outer ls σ outerS s lines hf hst hc hw hat hx hm h hp hnext
  obtain ⟨f', lines₁, lines₂, hi, hr, rfl⟩ := written_cons hc.narrow hw
  have ht := hc.tail
  rw [← hi.moved.ticks] at ht
  refine ih hf hst hc.head hi.writes hat.left
    ((hx.mono (.refl f) rfl hr.moved.toLater fun _ hA _ => hA).andThen _) hm h hp
    fun hm' h' hp' => ?_
  refine ih' (hf.later hi.moved.toLater) (stands_walk.instr i hf hst hc.head hi.writes) ht hr.writes
    hat.right (hx.mono hi.moved.toLater hi.moved.blocks (.refl g) fun l hA _ => leaves_of i _ l hA)
    hm' h' hp' fun hm'' h'' hp'' => ?_
  refine (hnext hm'' (h''.mono fun l hA => leaves_of i _ l hA) hp'').cast ?_
  rw [List.length_append, Nat.add_assoc]

/-- **All runs of the code of a body go well.** -/
theorem runs_walk (hD : D.Lawful env) (hd : (code.filterMap Line.label?).Nodup) :
    Walk (InstrRuns D env code final L count) (BodyRuns D env code final L count) where
  leaf := runs_leaf hD
  encloses hi ih := by
    cases hi with
    | block => exact runs_block hD hd _ _ ih
    | loop => exact runs_loop hD hd _ _ ih
    | ifThen => exact runs_ifThen hD hd _ _ ih
  ifElse offset result _ _ ih ih' := runs_ifElse hD hd offset result ih ih'
  nil := runs_nil
  cons := runs_cons

end Domain

end Moonstack
