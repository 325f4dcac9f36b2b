import Moonstack.Proofs.Emission.Homes
import Moonstack.Proofs.Emission.Starts
import Moonstack.Proofs.Simulation.Emulation

/-!
# No live value is overwritten

The lines that are written for an instruction without a body assign slots that no live register
holds (`Frame.Idle`). There are two exceptions: the slot of the local that the instruction writes,
and the slots of the blocks to which it branches.

A register that is live in front of the instruction stays live while the locals are zeroed that have
to be zeroed there, since these have no register yet (`Frame.Awaits`), and while registers for the
results are made (`Frame.Retains`). So every slot that is taken was idle in front of the
instruction. Operands are taken off the stack only after that.
-/

namespace Moonstack

open Moonstack.Frame Instr

/-! ## Locals that are still to be zeroed -/

/-- A local is zeroed once, and has no register before. -/
structure Frame.Awaits (f : Frame) : Prop where
  nodup : (f.lifetimes.forced.map Prod.snd).Nodup
  unbound : ∀ t l, (t, l) ∈ f.lifetimes.forced → f.clock < t → f.Unbound l

namespace Emit

variable {env : Env} {e p : Emission} {i : Instr} {code : List Instr} {σ : Strategy}
  {L : Lifetimes} {count : Nat} {f g : Frame}

/-- It is known of each local where it lives. -/
structure Lodged (σ : Strategy) (L : Lifetimes) (count : Nat) (f : Frame) : Prop
    extends Grounds σ L count f where
  known : ∀ l < count, ∃ s, Lodges σ L count l s f

theorem Lodged.later (h : Lodged σ L count f) (hl : f.Later g)
    (hk : ∀ l s, Lodges σ L count l s f → ∃ s', Lodges σ L count l s' g) : Lodged σ L count g := by
  refine ⟨h.toGrounds.later hl, fun l hcount => ?_⟩
  obtain ⟨s, hs⟩ := h.known l hcount
  exact hk l s hs

theorem Lodged.opening (h : Lodged σ L count f) (hlone : L.Lone (f.clock + 1))
    (kind : BlockKind) : Lodged σ L count (f.opening kind) := by
  refine h.later (Moved.opening f kind).toLater fun l s hs => ?_
  obtain ⟨s', -, hs', -⟩ := hs.begun hlone
  exact ⟨s', hs'.opening⟩

theorem Lodged.opened (h : Lodged σ L count f) (name : BlockName) (result : Option ValueType) :
    Lodged σ L count (f.openBlock name result).2 :=
  h.later (later_openBlock f name result) fun _ s hs => ⟨s, hs.opened name result⟩

/-- A body that begins at a counter value for which the lifetimes are long enough. -/
theorem Lodged.enters {A : Nat → Prop} {clock : Nat} (h : Lodged σ L count f)
    (hclock : f.clock = clock) (hc : bodyCovered L count A clock code) :
    Lodged σ L count f ∧ ∃ A, bodyCovered L count A f.clock code :=
  ⟨h, A, hclock ▸ hc⟩

/-- Where locals live is known in front of all instructions. -/
theorem guides_lodged (env : Env) (σ : Strategy) (L : Lifetimes) (count : Nat) :
    Guides env (fun f i => Lodged σ L count f ∧ ∃ A, i.Covered L count A f.clock)
      (fun f code => Lodged σ L count f ∧ ∃ A, bodyCovered L count A f.clock code) where
  head h := by
    obtain ⟨hl, A, hc⟩ := h
    exact ⟨hl, A, hc.1⟩
  tail {f g i rest lines} h hwide hk := by
    obtain ⟨hl, A, hc⟩ := h
    refine (hl.later hk.moved.toLater fun l s hs => ?_).enters hk.moved.ticks hc.2
    obtain ⟨s', hs', -⟩ := tracks_walk.instr i hwide hc.1 hk.writes s hs
    exact ⟨s', hs'⟩
  inner {f i name result inner} hi h := by
    obtain ⟨hl, A, hc⟩ := h
    obtain ⟨hlone, B, hc⟩ := hc.enclosed hi
    exact ((hl.opening hlone _).opened _ _).enters
      (clock_opened _ _ _ (Moved.opening f name.kind).ticks) hc
  firstArm h := by
    obtain ⟨hl, A, hc⟩ := h
    exact ((hl.opening hc.2.1 .cond).opened _ _).enters (clock_opened _ _ _ (clock_popped _))
      hc.2.2.1
  secondArm {f g offset result inner other lines} h hwide hk := by
    obtain ⟨hl, A, hc⟩ := h
    have hclock := clock_opened f.begun.popped ⟨.cond, offset⟩ result (clock_popped f)
    have hopen := (hl.opening hc.2.1 .cond).opened ⟨.cond, offset⟩ result
    have hg := (Within.opened f.begun.popped ⟨.cond, offset⟩ result).moved hk.moved
    refine (hopen.later (hk.moved.toLater.trans (later_turned _ _)) fun l s hs => ?_).enters
      (clock_turned hclock hk.moved _) hc.2.2.2
    obtain ⟨s', hs', -⟩ := tracks_walk.body inner hwide (hclock ▸ hc.2.2.1) hk.writes s hs
    exact ⟨s', hs'.turned hg⟩

theorem Lodged.awaits (h : Lodged σ L count f) (ho : f.Owned []) : f.Awaits := by
  refine ⟨h.lifetimes ▸ h.nodup, fun t l ht hclock => ?_⟩
  obtain ⟨s, hs⟩ := h.known l (h.size ▸ ho.forced _ ht)
  exact (hs.housed.unbound_tick ht hclock).2

/-- Where the locals of a function live in front of its body. An initializer has no locals. -/
theorem Starts.lodged (h : Starts env code e) : ∃ σ L count,
    Lodged σ L count e.frame ∧ ∃ A, bodyCovered L count A e.frame.clock code := by
  cases h with
  | @function id function signature params e h =>
    have hframe : e.frame = _ := frame_of_ok
      (writes_params (function.startFrame env id signature)) rfl h
    have hm := (moved_entered env id function signature).1
    have hclock : e.frame.clock = 0 := by
      rw [hframe]
      exact hm.ticks
    have hground : Grounds env.options.strategy (function.lifetimes signature)
        (signature.params ++ function.locals).length (function.startFrame env id signature) :=
      ⟨rfl, rfl, rfl, nodup_forced_ofBody _ _ _⟩
    refine ⟨_, _, _, Lodged.enters ⟨hframe ▸ hground.later hm.toLater, fun l hl => ?_⟩ hclock
      (covered_ofBody function.body _ _)⟩
    rw [hframe]
    exact ⟨_, lodges_entered env id function signature hl⟩
  | @initializer id code =>
    refine ⟨_, _, 0, Lodged.enters ⟨⟨rfl, rfl, rfl, nodup_forced_ofBody _ _ _⟩, fun l hl => ?_⟩ rfl
      (covered_ofBody code 0 0)⟩
    exact absurd hl (Nat.not_lt_zero l)

/-- In front of an instruction, the locals that are still to be zeroed have no register. -/
theorem BodyArrives.awaits (ha : BodyArrives env code e i p) (h : Starts env code e) :
    p.frame.Awaits := by
  obtain ⟨σ, L, count, hl⟩ := h.lodged
  obtain ⟨hl, -⟩ := (guides_lodged env σ L count).walk.body code hl ha
  exact hl.awaits (ha.poised h).owned

end Emit

/-! ## Slots that no live register holds -/

namespace Frame

variable {f g h : Frame} {held : List RegisterId} {id : RegisterId} {n : Nat}

/-- No live register holds the slot. -/
def Idle (f : Frame) (n : Nat) : Prop := ∀ id, f.isLive id = true → f.registers.slotOf id ≠ n

/-- The registers that are live in `f` are live in `g`, in the same slots. -/
def Retains (f g : Frame) : Prop :=
  ∀ id, f.isLive id = true → g.isLive id = true ∧ g.registers.slotOf id = f.registers.slotOf id

theorem Retains.refl (f : Frame) : Retains f f := fun _ hl => ⟨hl, rfl⟩

theorem Retains.trans (hfg : Retains f g) (hgh : Retains g h) : Retains f h := fun id hl => by
  obtain ⟨hg, hs⟩ := hfg id hl
  obtain ⟨hh, hs'⟩ := hgh id hg
  exact ⟨hh, hs'.trans hs⟩

/-- The registers that are live stay as they are. -/
theorem Retains.of_get? (h : ∀ id a, f.registers.get? id = some a → a.live = true →
    g.registers.get? id = some a) : Retains f g := by
  intro id hl
  obtain ⟨a, ha, hlive⟩ := (Option.any_eq_true _ _).1 hl
  have hg := h id a ha hlive
  refine ⟨(Option.any_eq_true _ _).2 ⟨_, hg, hlive⟩, ?_⟩
  simp only [Registers.slotOf, ha, hg]

theorem Idle.of_retains (hi : g.Idle n) (hr : Retains f g) : f.Idle n := fun id hl => by
  obtain ⟨hg, hs⟩ := hr id hl
  exact hs ▸ hi id hg

theorem idle_takeSlot (hs : f.registers.Sound) : f.Idle f.registers.takeSlot.1 := by
  intro id hl
  obtain ⟨a, ha, hlive⟩ := (Option.any_eq_true _ _).1 hl
  rw [Registers.slotOf, ha]
  exact hs.takeSlot.1 ha hlive

/-! ### New registers -/

theorem retains_temporary (f : Frame) : Retains f f.temporary.2 := by
  rw [temporary_eq]
  exact .of_get? fun id a ha _ => get?_create_of_some ha _ _ _

theorem get?_temporary (f : Frame) : ∃ a,
    f.temporary.2.registers.get? f.temporary.1 = some a ∧ a.slot = f.registers.takeSlot.1 := by
  have hid : f.registers.createTemporary.1 = f.registers.arena.size := create_fst _ _ _ _
  rw [temporary_eq]
  exact ⟨_, (get?_create _ _ _ _ _).trans (if_pos hid), rfl⟩

/-- The registers that are made for results are in slots that were idle. -/
theorem idle_temporaries (ho : f.Owned held) (n : Nat) (hl : (f.temporaries n).2.Later g)
    (hid : id ∈ (f.temporaries n).1) : f.Idle (g.registers.slotOf id) := by
  induction n generalizing f held with
  | zero => cases hid
  | succ n ih =>
    rcases List.mem_cons.1 hid with rfl | hid
    · obtain ⟨a, ha, hslot⟩ := get?_temporary f
      have hsame := ((Moved.temporaries f.temporary.2 n).toLater.trans hl).slotOf ha
      rw [hsame, Registers.slotOf, ha, Option.map_some, Option.getD_some, hslot]
      exact idle_takeSlot ho.sound
    · exact (ih ho.temporary hl hid).of_retains (retains_temporary f)

theorem get?_freed_of_ne {j : RegisterId} (hne : id ≠ j) :
    (f.freed id).registers.get? j = f.registers.get? j := by
  refine freed_cases rfl (fun _ _ _ _ => rfl) fun {r} _ _ _ => ?_
  rw [surrender_eq, get?_freed, if_neg hne]

theorem retains_localRegister (f : Frame) (index : Nat) : Retains f (f.localRegister index).2 :=
  localRegister_cases (fun _ => .refl f) fun _ =>
    .of_get? fun _ _ ha _ => get?_create_of_some ha _ _ _

/-- A local that has no register is zeroed. If its register is freed at once, this frees no
other. -/
theorem retains_zeroOne (ho : f.Owned held) {index : Nat} (hi : index < f.localTypes.length)
    (hu : f.Unbound index) : Retains f ((f.localRegister index).2.accessed index) := by
  have hb := (ho.localRegister hi).2
  rw [localRegister_of_unbound hu] at hb ⊢
  refine .of_get? fun id a ha _ => ?_
  simp only [accessed, hb, Option.join_some]
  rw [get?_freed_of_ne (Nat.ne_of_gt (Registers.get?_lt ha))]
  exact get?_create_of_some ha _ _ _

theorem idle_home (ho : f.Owned held) {index : Nat} (hu : f.Unbound index) :
    f.Idle (f.home index) := by
  rw [home_of_unbound hu]
  exact idle_takeSlot ho.sound

/-- Locals that have no register are zeroed. -/
theorem idle_zeroCode {indices : List Nat} (ho : f.Owned held)
    (hi : ∀ i ∈ indices, i < f.localTypes.length) (hd : indices.Nodup)
    (hu : ∀ i ∈ indices, f.Unbound i) : Retains f (f.zeroed indices) ∧
      ∀ line ∈ f.zeroCode indices, line.operands = [] ∧ ∀ n ∈ line.assigns, f.Idle n := by
  induction indices generalizing f with
  | nil => exact ⟨.refl f, fun _ hl => absurd hl List.not_mem_nil⟩
  | cons index rest ih =>
    rw [List.forall_mem_cons] at hi hu
    obtain ⟨hnot, hd⟩ := List.nodup_cons.1 hd
    have hm := (Moved.localRegister f index).trans (Moved.accessed _ index)
    have hone := retains_zeroOne ho hi.1 hu.1
    obtain ⟨hrest, hlines⟩ := ih ((ho.localRegister hi.1).1.accessed index)
      (fun i h => by rw [hm.localTypes]; exact hi.2 i h) hd fun i h =>
        (Sheds.accessed _ index).unbound i
          (unbound_localRegister (fun he => hnot (he ▸ h)) (hu.2 i h))
    refine ⟨hone.trans hrest, fun line hl => ?_⟩
    rcases List.mem_cons.1 hl with rfl | hl
    · refine ⟨?_, fun n hn => ?_⟩
      · rw [zeroLine]
        cases (f.localTypes[index]?).getD .i32 <;> rfl
      · obtain rfl := List.mem_singleton.1 hn
        exact idle_home ho hu.1
    · exact ⟨(hlines line hl).1, fun n hn => ((hlines line hl).2 n hn).of_retains hone⟩

/-- The begin of an instruction. -/
theorem idle_beginCode (ho : f.Owned held) (h : f.Awaits) (i : Instr) : Retains f f.begun ∧
    ∀ line ∈ f.beginCode i, line.operands = [] ∧ ∀ n ∈ line.assigns, f.Idle n := by
  obtain ⟨hr, hlines⟩ := @idle_zeroCode f.tick held (f.lifetimes.forcedAt f.tick.clock) ho.tick
    (fun i hi => ho.forced _ (mem_forcedAt hi)) (nodup_forcedAt h.nodup _)
    fun i hi => h.unbound _ _ (mem_forcedAt hi) (Nat.lt_succ_self _)
  refine ⟨hr, List.forall_mem_append.2 ⟨hlines, fun line hl => ?_⟩⟩
  split at hl
  · obtain rfl := List.mem_singleton.1 hl
    exact ⟨rfl, fun _ hn => absurd hn List.not_mem_nil⟩
  · cases hl

theorem inert_finishCode (f : Frame) : ∀ line ∈ f.finishCode, line.Inert := by
  refine List.forall_mem_append.2 ⟨fun line hl => ?_, fun line hl => ?_⟩
  · obtain ⟨note, -, rfl⟩ := List.mem_map.1 hl
    exact ⟨rfl, rfl⟩
  · split at hl
    · obtain rfl := List.mem_singleton.1 hl
      exact ⟨rfl, rfl⟩
    · cases hl

/-! ## Code that spares the live values -/

/-- The slot holds an entry of the stack. -/
def OnStack (f : Frame) (n : Nat) : Prop :=
  ∃ id, .register id ∈ f.stack ∧ f.registers.slotOf id = n

/-- The slot is that of the local that the instruction writes. -/
def Receives (f : Frame) (o : Op) (n : Nat) : Prop :=
  ∃ l id, o.assigns = some l ∧ f.locals[l]? = some (some id) ∧ f.registers.slotOf id = n

/-- The lines that are written for an instruction without a body, from the frame `f` in front of it,
overwrite no live value. -/
structure Spares (f : Frame) (o : Op) (lines : List Line) : Prop where
  /-- A slot that is assigned is held by no live register, or it is that of the local that the
  instruction writes, or that of a block to which it branches. -/
  assigns : ∀ line ∈ lines, ∀ n ∈ line.assigns, f.Idle n ∨ f.Receives o n ∨ f.Aims o.depths n
  /-- Operands are read, and what the lines have made themselves. -/
  reads : o.departs = false → ∀ line ∈ lines, ∀ n, .slot n ∈ line.operands →
    f.OnStack n ∨ ∃ line' ∈ lines, n ∈ line'.assigns
  /-- No operand is in a slot that is assigned. -/
  apart : o.departs = false → o.assigns = none → ∀ line ∈ lines, ∀ n ∈ line.assigns, ¬ f.OnStack n
  /-- A write to a local does not read what it assigns. -/
  aside : o.assigns.isSome = true → ∀ line ∈ lines, ∀ n ∈ line.assigns, .slot n ∉ line.operands

variable {o : Op} {lines more : List Line}

theorem Idle.not_onStack (hi : f.Idle n) (ho : f.Owned held) : ¬ f.OnStack n := by
  rintro ⟨id, hid, hn⟩
  obtain ⟨a, ha, hlive⟩ := ho.stacked hid
  exact hi id ((Option.any_eq_true _ _).2 ⟨a, ha, hlive⟩) hn

theorem OnStack.of_later (h : g.OnStack n) (ho : f.Owned held) (hl : f.Later g)
    (hs : g.stack = f.stack) : f.OnStack n := by
  obtain ⟨id, hid, rfl⟩ := h
  rw [hs] at hid
  obtain ⟨a, ha, -⟩ := ho.stacked hid
  exact ⟨id, hid, (hl.slotOf ha).symm⟩

/-- A slot of an open block does not change. -/
theorem Aims.of_later {depths : List Nat} (h : g.Aims depths n) (ho : f.Owned held)
    (hl : f.Later g) (hb : g.blocks = f.blocks) : f.Aims depths n := by
  obtain ⟨depth, hd, target, id, ht, hid, rfl⟩ := h
  rw [hb] at ht
  have hregister : target.register = some id := by
    unfold Block.branchRegister at hid
    split at hid <;> first | exact hid | cases hid
  obtain ⟨a, ha, -⟩ := ho.kept (List.mem_append_left _
    (List.mem_filterMap.2 ⟨target, List.mem_of_getElem? ht, hregister⟩))
  exact ⟨depth, hd, target, id, ht, hid, hl.slotOf ha⟩

/-- A register of a local that is live later is that of the local, or its slot was idle. -/
theorem Receives.of_retains (h : g.Receives o n) (ho : f.Owned held) (ho' : g.Owned held)
    (hr : Retains f g) (hl : f.Later g) : f.Idle n ∨ f.Receives o n := by
  obtain ⟨l, id, hassigns, hb, rfl⟩ := h
  obtain ⟨a, ha, hlive, hbound, -⟩ := ho'.bound hb
  by_cases hf : f.isLive id = true
  · obtain ⟨c, hc, hlive'⟩ := (Option.any_eq_true _ _).1 hf
    obtain ⟨a', ha', -, hsame, -⟩ := hl.register hc
    cases ha.symm.trans ha'
    exact .inr ⟨l, id, hassigns, ho.named hc hlive' (hsame.symm.trans hbound), (hl.slotOf hc).symm⟩
  · refine .inl fun j hj hslot => ?_
    obtain ⟨hj', hsame⟩ := hr j hj
    obtain ⟨c, hc, hlive'⟩ := (Option.any_eq_true _ _).1 hj'
    refine Domain.Match.slot_ne ho' hc ha hlive' hlive ?_ (hsame.trans hslot)
    rintro rfl
    exact hf hj

namespace Spares

/-- Registers have been made in front of the lines. -/
theorem of_retains (h : g.Spares o lines) (ho : f.Owned held) (ho' : g.Owned held)
    (hr : Retains f g) (hl : f.Later g) (hs : g.stack = f.stack) (hb : g.blocks = f.blocks) :
    f.Spares o lines where
  assigns line hline n hn := by
    rcases h.assigns line hline n hn with hi | hreceives | haims
    · exact .inl (hi.of_retains hr)
    · exact (hreceives.of_retains ho ho' hr hl).imp_right .inl
    · exact .inr (.inr (haims.of_later ho hl hb))
  reads hd line hline n hn :=
    (h.reads hd line hline n hn).imp_left fun hstack => hstack.of_later ho hl hs
  apart hd ha line hline n hn := by
    rintro ⟨id, hid, rfl⟩
    obtain ⟨a, hget, -⟩ := ho.stacked hid
    exact h.apart hd ha line hline _ hn ⟨id, hs ▸ hid, hl.slotOf hget⟩
  aside := h.aside

theorem append (h : f.Spares o lines) (h' : f.Spares o more) : f.Spares o (lines ++ more) where
  assigns := List.forall_mem_append.2 ⟨h.assigns, h'.assigns⟩
  reads hd := by
    refine List.forall_mem_append.2 ⟨fun line hl n hn => ?_, fun line hl n hn => ?_⟩
    · exact (h.reads hd line hl n hn).imp_right fun ⟨l, hm, ha⟩ =>
        ⟨l, List.mem_append_left _ hm, ha⟩
    · exact (h'.reads hd line hl n hn).imp_right fun ⟨l, hm, ha⟩ =>
        ⟨l, List.mem_append_right _ hm, ha⟩
  apart hd ha := List.forall_mem_append.2 ⟨h.apart hd ha, h'.apart hd ha⟩
  aside ha := List.forall_mem_append.2 ⟨h.aside ha, h'.aside ha⟩

/-- Lines that read nothing and assign idle slots. -/
theorem of_idle (ho : f.Owned held)
    (h : ∀ line ∈ lines, line.operands = [] ∧ ∀ n ∈ line.assigns, f.Idle n) : f.Spares o lines where
  assigns line hl n hn := .inl ((h line hl).2 n hn)
  reads _ line hl n hn := by
    rw [(h line hl).1] at hn
    cases hn
  apart _ _ line hl n hn := ((h line hl).2 n hn).not_onStack ho
  aside _ line hl n hn hm := by
    rw [(h line hl).1] at hm
    cases hm

theorem of_inert (ho : f.Owned held) (h : ∀ line ∈ lines, line.Inert) : f.Spares o lines :=
  of_idle ho fun line hl => ⟨(h line hl).2, fun n hn => by rw [(h line hl).1] at hn; cases hn⟩

theorem nil (ho : f.Owned held) : f.Spares o [] :=
  of_inert ho fun _ hl => absurd hl List.not_mem_nil

/-- One more line of a write to a local. -/
theorem assign {value : Operand} {d l : Nat} (h : f.Spares o lines) (ha : o.assigns = some l)
    (hd : f.Idle d ∨ f.Receives o d) (hne : value ≠ .slot d)
    (hv : ∀ n, value = .slot n → f.OnStack n ∨ ∃ line ∈ lines, n ∈ line.assigns) :
    f.Spares o (lines ++ [.stmt (.assign [.slot d] (.operand value))]) where
  assigns := by
    refine List.forall_mem_append.2 ⟨h.assigns, List.forall_mem_singleton.2 fun n hn => ?_⟩
    obtain rfl := List.mem_singleton.1 hn
    exact hd.imp_right .inl
  reads hdeparts := by
    refine List.forall_mem_append.2
      ⟨fun line hl n hn => ?_, List.forall_mem_singleton.2 fun n hn => ?_⟩
    · exact (h.reads hdeparts line hl n hn).imp_right fun ⟨l, hm, ha⟩ =>
        ⟨l, List.mem_append_left _ hm, ha⟩
    · exact (hv n (List.mem_singleton.1 hn).symm).imp_right fun ⟨l, hm, ha⟩ =>
        ⟨l, List.mem_append_left _ hm, ha⟩
  apart _ hnone := by
    rw [ha] at hnone
    cases hnone
  aside hsome := by
    refine List.forall_mem_append.2 ⟨h.aside hsome, List.forall_mem_singleton.2 fun n hn hm => ?_⟩
    obtain rfl := List.mem_singleton.1 hn
    exact hne (List.mem_singleton.1 hm).symm

end Spares

theorem onStack_of_top (h : f.top = .slot n) : f.OnStack n := register_of_top h

/-- An instruction that works on the top of the stack: its results are in slots that were idle while
its operands were still on the stack. -/
theorem Serves.spares {code : List Line} (h : Serves f code g) (ho : f.Owned held)
    (ha : o.assigns = none) : f.Spares o code := by
  cases h with
  | @intro f₁ g p literals hq hc _ =>
    obtain ⟨w, l, rfl⟩ := hq
    have ho₁ : Frame.Owned { f with warnings := w, log := l } held :=
      ho.congr rfl rfl rfl rfl rfl rfl rfl
    generalize hf₁ : ({ f with warnings := w, log := l } : Frame) = f₁ at hc ho₁
    -- warnings are all in which `f₁` differs from `f`
    have hidle {line : Line} (hl : line ∈ f₁.plainCode p) {n : Nat} (hn : n ∈ line.assigns) :
        f₁.Idle n := by
      obtain ⟨id, hid, rfl⟩ := List.mem_map.1 (hc.assigns line hl n hn)
      exact idle_temporaries ho₁ p.pushes (Moved.poppedMany _ p.pops).toLater hid
    have hspares : f₁.Spares o (f₁.plainCode p) :=
      { assigns := fun line hl n hn => .inl (hidle hl hn)
        reads := fun _ line hl n hn => by
          refine (hc.reads line hl n hn).imp_left fun hx => ?_
          exact OnStack.of_later (register_of_mem_tops (ho₁.temporaries p.pushes) hx) ho₁
            (Moved.temporaries f₁ p.pushes).toLater (f₁.stack_temporaries p.pushes)
        apart := fun _ _ line hl n hn => (hidle hl hn).not_onStack ho₁
        aside := fun hsome => by
          rw [ha] at hsome
          cases hsome }
    subst hf₁
    exact ⟨hspares.assigns, hspares.reads, hspares.apart, hspares.aside⟩

/-- What a write to a local leaves of the stack is in the slots where it was, or in that of the
copy. -/
theorem OnStack.of_detachAliases {copy : RegisterId} (h : g.OnStack n) (ho : f.Owned held)
    (hl : f.Later g) (hs : g.stack = f.stack.map (redirect id copy)) :
    f.OnStack n ∨ n = g.registers.slotOf copy := by
  obtain ⟨j, hj, rfl⟩ := h
  rw [hs] at hj
  obtain ⟨e, he, heq⟩ := List.mem_map.1 hj
  rw [redirect] at heq
  split at heq
  · cases heq
    exact .inr rfl
  · subst heq
    obtain ⟨a, ha, -⟩ := ho.stacked he
    exact .inl ⟨j, he, (hl.slotOf ha).symm⟩

end Frame

namespace Emit

variable {env : Env} {f g : Frame} {l : Nat} {id : RegisterId} {o : Op}

/-- A write to a local that has a register. -/
theorem spares_store (ho : f.Owned []) (ha : o.assigns = some l)
    (hb : f.locals[l]? = some (some id)) :
    f.Spares o ((f.detachAliases id).1.toList.map .stmt ++
      copied (f.registers.slotOf id) (f.detachAliases id).2.top) := by
  obtain ⟨a, hget, hlive, -⟩ := ho.bound hb
  have hlater := f.later_detachAliases id
  obtain ⟨hod, hn⟩ := ho.detachAliases hb
  have hreceives : f.Receives o (f.registers.slotOf id) := ⟨l, id, ha, hb, rfl⟩
  have hne : (f.detachAliases id).2.top ≠ .slot (f.registers.slotOf id) := by
    rw [← hlater.slotOf hget]
    exact top_ne_slot hod (locals_detachAliases f id ▸ hb) hn
  rw [copied, if_pos hne]
  by_cases hm : Entry.register id ∈ f.stack
  · obtain ⟨g, hg, hs, -, c, hc, -, hslot⟩ :=
      detachAliases_of_referenced (ho.referenced hb hm)
    rw [hg] at hlater hne ⊢
    have hcopy : g.registers.slotOf f.registers.arena.size = f.registers.takeSlot.1 := by
      rw [Registers.slotOf, hc]
      exact hslot
    have hidle : f.Idle (g.registers.slotOf f.registers.arena.size) := by
      rw [hcopy]
      exact idle_takeSlot ho.sound
    have hfront : f.Spares o [.stmt (.assign [.slot (g.registers.slotOf f.registers.arena.size)]
        (.operand (.slot (g.registers.slotOf id))))] := by
      refine (Spares.nil ho).assign ha (.inl hidle) ?_ fun n hn => .inl ⟨id, hm, ?_⟩
      · rw [hlater.slotOf hget]
        exact fun h => hidle id ((Option.any_eq_true _ _).2 ⟨_, hget, hlive⟩) (Operand.slot.inj h)
      · rw [← hlater.slotOf hget]
        exact Operand.slot.inj hn
    refine hfront.assign ha (.inr hreceives) hne fun n hn => ?_
    refine ((onStack_of_top hn).of_detachAliases ho hlater hs).imp_right fun h => ?_
    exact ⟨_, List.mem_singleton_self _, h ▸ List.mem_singleton_self _⟩
  · rw [detachAliases_of_not_mem ho hb hm] at hne ⊢
    exact (Spares.nil ho).assign ha (.inr hreceives) hne fun n hn => .inl (onStack_of_top hn)

/-- What an instruction without a body writes spares the live values. -/
theorem Effect.spares {code : List Line} (h : Effect o f code g) (ho : f.Owned []) :
    f.Spares o code := by
  cases h with
  | serves _ hm hs =>
    refine hs.spares ho (Option.eq_none_iff_forall_ne_some.2 fun l ha => ?_)
    rw [mentions_of_assigns ha] at hm
    cases hm
  | misses _ hi _ => exact .of_inert ho hi
  | @jumps _ _ h hd hh hq haim =>
    have hlater : f.Later h ∧ h.blocks = f.blocks := by
      obtain rfl | rfl := hh
      · exact ⟨.refl h, rfl⟩
      · exact ⟨later_popped f, (Moved.popped f).blocks⟩
    refine ⟨fun line hl n hn => ?_, fun hn => ?_, fun hn => ?_, fun hs => ?_⟩
    · exact .inr (.inr ((haim line hl n hn).of_later ho hlater.1 hlater.2))
    · cases hd.symm.trans hn
    · cases hd.symm.trans hn
    · rw [Op.assigns_of_departs hd] at hs
      cases hs
  | fetches _ _ => exact .nil ho
  | @stores l keep ha hi =>
    obtain ⟨hor, hb⟩ := ho.localRegister hi
    have hm := Moved.localRegister f l
    have hslot : (detached f l).2.popped.registers.slotOf (f.localRegister l).1 =
        (f.localRegister l).2.registers.slotOf (f.localRegister l).1 :=
      slotOf_localRegister ho hi ((later_detachAliases _ _).trans (later_popped _))
    rw [storeCode, hslot]
    exact (spares_store hor ha hb).of_retains ho hor (retains_localRegister f l) hm.toLater
      (f.stack_localRegister l) hm.blocks

/-- **No live value is overwritten.** Let the writing of a body come to an instruction without a
body, and let it succeed. The lines that it adds, those that zero locals and those that copy the
value of a local among them, spare the values that are live in front of it. -/
theorem spares_instr {code : List Instr} {e p p' : Emission} {offset : Nat}
    (hs : Starts env code e) (ha : BodyArrives env code e (.leaf offset o) p)
    (hok : instr env (.leaf offset o) p = .ok () p') :
    ∃ lines, p'.code = p.code ++ lines ∧ p.frame.Spares o lines := by
  obtain ⟨hwide, -⟩ := keeps_of_ok hok
  have ho := (ha.poised hs).owned
  have hk := keeps_begin (.leaf offset o) p.frame []
  have hob := hk.owned ho
  obtain ⟨hretains, hbegin⟩ := idle_beginCode ho (ha.awaits hs) (.leaf offset o)
  obtain ⟨g, lines, hw, heffect⟩ := effect_op hwide offset
  obtain ⟨q, hq, -, hcode⟩ := writes_leaf hw p rfl
  cases hok.symm.trans hq
  refine ⟨_, hcode, (Spares.of_idle ho hbegin).append (Spares.append ?_ ?_)⟩
  · exact (heffect.spares hob).of_retains ho hob hretains hk.moved.toLater
      (stack_begun p.frame) hk.moved.blocks
  · exact .of_inert ho (inert_finishCode g)

theorem spares_instr_reassigned :
    let env : Env := { options := {}, registry := { types := [⟨[.i32], [.i32]⟩] } }
    ∃ e p p' lines, Starts env reassigned.body e ∧
      BodyArrives env reassigned.body e (.leaf 6 (.localTee 0)) p ∧
      instr env (.leaf 6 (.localTee 0)) p = .ok () p' ∧ p'.code = p.code ++ lines ∧
      p.frame.Spares (.localTee 0) lines := by
  intro env
  obtain ⟨e, hs⟩ := exists_starts env "f" reassigned ⟨[.i32], [.i32]⟩
  obtain ⟨p, hp⟩ : ∃ p, BodyArrives env reassigned.body e (.leaf 6 (.localTee 0)) p :=
    arrives_walk.body reassigned.body rfl _ (by simp [reassigned, bodySubterms, subterms]) e
  obtain ⟨_, g, lines, hk⟩ : Succeeds _ _ (instr env (.leaf 6 (.localTee 0))) p.frame [] [] :=
    succeeds_walk.instr _ rfl p.frame
  obtain ⟨p', hok, -⟩ := hk.writes p rfl
  obtain ⟨lines, hcode, hspares⟩ := spares_instr hs hp hok
  exact ⟨e, p, p', lines, hs, hp, hok, hcode, hspares⟩

end Emit

end Moonstack
