import Moonstack.Proofs.Assignment.Domain
import Moonstack.Proofs.Simulation.Functions

/-!
# Assigned slots along paths

Along every path of control through the code of a well-typed function, a slot is read only after it
has been assigned, or if it is that of a parameter (`assigned_lowerFunction`). A path follows every
jump and may take either way at every condition.

A body that is well typed satisfies its precondition in the domain of assigned slots
(`Instr.BodyHasType.pre`), so that all runs of the code of the function go well in it. A run of this
domain takes both ways at every condition, and the slots that it knows as assigned have been assigned
on the path that it took (`Flow.Path.runs`).
-/

namespace Moonstack

open Domain

variable {m : Nat} {p : Place} {σ : assigned.Store}

/-- What has to hold behind an instruction follows from the number of values on the stack. -/
structure Post.Fits (C : TypeContext) (behind : List ValueType) (post : Post assigned.Value) : Prop where
  next : ∀ {m vals ls}, vals.length = behind.length → post.next m vals ls
  br : ∀ {depth types m vals ls}, C.labels[depth]? = some types → types.length ≤ vals.length →
    post.br depth m vals ls
  ret : ∀ {vals}, C.results.length ≤ vals.length → post.ret vals

namespace Post.Fits

variable {C : TypeContext} {result : Option ValueType} {base : List ValueType}
  {post : Post assigned.Value} {vals : List assigned.Value}

/-- Inside a block. -/
theorem block (h : post.Fits C (result.toList ++ base)) (hv : vals.length = base.length) :
    (post.block result.toList.length vals).Fits (C.enter result.toList) result.toList where
  next hl := ⟨hl, h.next (by rw [List.length_append, List.length_append, hl, hv])⟩
  br {depth} types m vs ls hd hl := by
    cases depth with
    | zero =>
      cases hd
      refine ⟨hl, h.next ?_⟩
      rw [List.length_append, List.length_take_of_le hl, List.length_append, hv]
    | succ depth => exact h.br hd hl
  ret hl := h.ret hl

/-- Inside a loop, whatever holds at its start. -/
theorem loop (h : post.Fits C (result.toList ++ base)) (hv : vals.length = base.length) :
    (post.loop result.toList.length vals True fun _ _ => True).Fits (C.enter []) result.toList where
  next hl := ⟨hl, h.next (by rw [List.length_append, List.length_append, hl, hv])⟩
  br {depth} types m vs ls hd hl := by
    cases depth with
    | zero => cases m <;> exact trivial
    | succ depth => exact h.br hd hl
  ret hl := h.ret hl

/-- In front of the rest of a body. -/
theorem before {behind between : List ValueType} (h : post.Fits C behind)
    {next : Nat → List assigned.Value → (Nat → assigned.Value) → Prop}
    (hn : ∀ {m vals ls}, vals.length = between.length → next m vals ls) :
    Post.Fits C between { post with next := next } where
  next := hn
  br := h.br
  ret := h.ret

end Post.Fits

variable {env : Env}

/-- A plain instruction finds its operands. -/
theorem pre_plain {o : Op} {p : Plain} {kept : Nat} {vals : List assigned.Value}
    {ls : Nat → assigned.Value} {before behind : Nat}
    {next : Nat → List assigned.Value → (Nat → assigned.Value) → Prop} (hp : o.plain env = some p)
    (hv : vals.length = p.pops + kept + before) (hb : p.pushes + kept + before = behind)
    (hn : ∀ vals : List assigned.Value, vals.length = behind → next m vals ls) :
    ∃ p args rest results, o.plain env = some p ∧ assigned.Performs o args results ∧
      args.length = p.pops ∧ results.length = p.pushes ∧ vals = args.reverse ++ rest ∧
      next m (results.reverse ++ rest) ls := by
  refine ⟨p, (vals.take p.pops).reverse, vals.drop p.pops, List.replicate p.pushes (assigned.zero .i32),
    hp, trivial, ?_, List.length_replicate, ?_, hn _ ?_⟩
  · rw [List.length_reverse, List.length_take_of_le (by omega)]
  · rw [List.reverse_reverse, List.take_append_drop]
  · rw [List.length_append, List.length_reverse, List.length_replicate, List.length_drop]
    omega

/-- An instruction without a body that goes on behind itself. -/
theorem Op.HasType.pre {C : TypeContext} {o : Op} {params results base : List ValueType}
    {post : Post assigned.Value} {vals : List assigned.Value} {ls : Nat → assigned.Value}
    (h : o.HasType C params results) (hr : C.registry = env.registry)
    (hj : o.jumps env.registry = false) (hpost : post.Fits C (results.reverse ++ base))
    (hv : vals.length = (params.reverse ++ base).length) : assigned.opPre env post m vals ls o := by
  have hplain := h.plain hr hj
  rw [List.length_append, List.length_reverse] at hv
  have hnext {vals : List assigned.Value} {ls : Nat → assigned.Value}
      (hl : vals.length = results.length + base.length) : post.next m vals ls :=
    hpost.next (by rw [hl, List.length_append, List.length_reverse])
  cases h with
  | localGet => exact hnext (by grind)
  | localSet =>
    cases vals with
    | nil => grind
    | cons v rest => exact ⟨v, rest, rfl, hnext (by grind)⟩
  | localTee =>
    cases vals with
    | nil => grind
    | cons v rest => exact ⟨v, rest, rfl, hnext hv⟩
  | const => exact ⟨(), rfl, hnext (by grind)⟩
  | _ =>
    obtain ⟨p, kept, hp, hpops, hpushes⟩ := hplain (by simp) (by simp)
    exact pre_plain hp (hpops ▸ hv) (hpushes ▸ rfl) fun _ hl => hnext hl

namespace Instr

mutual

theorem HasType.pre {C : TypeContext} {before behind : List ValueType}
    {post : Post assigned.Value} {m : Nat} {vals : List assigned.Value}
    {ls : Nat → assigned.Value} (hr : C.registry = env.registry) :
    (i : Instr) → HasType C i before behind → i.allOps (!·.jumps env.registry) = true →
      post.Fits C behind → vals.length = before.length → assigned.pre env i post m vals ls
  | .leaf _ o, h, hj, hpost, hv => by
    cases h with
    | plain typed => exact typed.pre hr (by simpa [allOps] using hj) hpost hv
    | unreachable => exact trivial
    | br label => exact hpost.br label (by simp [hv])
    | brIf label =>
      cases vals with
      | nil => cases hv
      | cons v rest =>
        refine ⟨v, rest, rfl, trivial, fun b _ => ?_⟩
        have hrest := Nat.succ.inj hv
        cases b with
        | true => exact hpost.br label (by simp [hrest])
        | false => exact hpost.next hrest
    | brTable labels =>
      cases vals with
      | nil => cases hv
      | cons v rest =>
        refine ⟨v, rest, rfl, trivial, fun i _ => hpost.br (labels _ ?_) ?_⟩
        · cases hi : (_ : List Nat)[i]? with
          | none => exact List.mem_cons_self
          | some depth => exact List.mem_cons_of_mem _ (List.mem_of_getElem? hi)
        · simp [Nat.succ.inj hv]
    | ret => exact hpost.ret (by simp [hv])
  | .block _ result body, h, hj, hpost, hv => by
    cases h with
    | block typed => exact BodyHasType.pre (C := C.enter _) hr body typed hj (hpost.block hv) rfl
  | .loop _ result body, h, hj, hpost, hv => by
    cases h with
    | loop typed =>
      exact ⟨fun _ _ => True, trivial, fun m ls _ =>
        BodyHasType.pre (C := C.enter _) hr body typed hj (hpost.loop hv) rfl⟩
  | .ifThen _ result body, h, hj, hpost, hv => by
    cases h with
    | ifThen typed =>
      cases vals with
      | nil => cases hv
      | cons v rest =>
        refine ⟨rfl, v, rest, rfl, trivial, fun b _ => ?_⟩
        have hrest := Nat.succ.inj hv
        cases b with
        | true =>
          have hb := @Post.Fits.block C none _ post rest hpost hrest
          exact BodyHasType.pre (C := C.enter _) hr body typed hj hb rfl
        | false => exact hpost.next hrest
  | .ifElse _ result body other, h, hj, hpost, hv => by
    cases h with
    | ifElse first second =>
      obtain ⟨hjb, hjo⟩ := Bool.and_eq_true_iff.1 hj
      cases vals with
      | nil => cases hv
      | cons v rest =>
        refine ⟨v, rest, rfl, trivial, fun b _ => ?_⟩
        have hb := hpost.block (Nat.succ.inj hv)
        cases b with
        | true => exact BodyHasType.pre (C := C.enter _) hr body first hjb hb rfl
        | false => exact BodyHasType.pre (C := C.enter _) hr other second hjo hb rfl

/-- The precondition of a well-typed body. -/
theorem BodyHasType.pre {C : TypeContext} {before behind : List ValueType} {post : Post assigned.Value}
    {m : Nat} {vals : List assigned.Value} {ls : Nat → assigned.Value} (hr : C.registry = env.registry) :
    (body : List Instr) → BodyHasType C body before behind →
      bodyAllOps (!·.jumps env.registry) body = true → post.Fits C behind →
      vals.length = before.length → assigned.bodyPre env body post m vals ls
  | [], h, _, hpost, hv => by
    cases h
    exact hpost.next hv
  | i :: rest, h, hj, hpost, hv => by
    obtain ⟨hi, hrest⟩ := Bool.and_eq_true_iff.1 hj
    cases h with
    | cons first second =>
      exact HasType.pre hr i first hi
        (hpost.before fun hl => BodyHasType.pre hr rest second hrest hpost hl) hv

end

end Instr

/-- What has to hold where control leaves a function that returns values of the given types. -/
theorem Post.fits_function (C : TypeContext) (h : C.labels = [C.results]) :
    (Post.function C.results.length fun _ : List assigned.Value => True).Fits C
      C.results.reverse where
  next hl := ⟨Nat.le_of_eq (hl.trans List.length_reverse).symm, trivial⟩
  br {depth} types m vals ls hd hl := by
    rw [h] at hd
    cases depth with
    | zero =>
      cases hd
      exact ⟨hl, trivial⟩
    | succ depth => cases hd
  ret hl := ⟨hl, trivial⟩

namespace Flow

variable {code : List Line}
variable {final : List assigned.Value → Prop}

/-- A path of control from the first line, as the places that it leaves with the outcomes of their
conditions, and the place that it comes to. -/
inductive Path (code : List Line) : List (Place × Bool) → Place → Prop
  | start : Path code [] (.line 0)
  | step {trace : List (Place × Bool)} {p q : Place} {b : Bool} (path : Path code trace p)
      (goes : next code p b = some q) : Path code (trace ++ [(p, b)]) q

/-- Follows the path with the given outcomes from a place. -/
def walk (code : List Line) (p : Place) : List Bool → Option (List (Place × Bool) × Place)
  | [] => some ([], p)
  | b :: rest => do
    let q ← next code p b
    let (trace, last) ← walk code q rest
    some ((p, b) :: trace, last)

theorem Path.walk {trace more : List (Place × Bool)} {q : Place} {outcomes : List Bool}
    (h : Path code trace p) (hw : Flow.walk code p outcomes = some (more, q)) :
    Path code (trace ++ more) q := by
  induction outcomes generalizing trace more p with
  | nil =>
    cases hw
    rwa [List.append_nil]
  | cons b rest ih =>
    simp only [Flow.walk, Option.bind_eq_bind, Option.bind_eq_some_iff] at hw
    obtain ⟨p', hp', ⟨trace', last⟩, hw, he⟩ := hw
    cases he
    rw [List.append_cons]
    exact ih (h.step hp') hw

/-- The slots that are read at a place, by the outcome of its condition. -/
def reads (code : List Line) (p : Place) (b : Bool) : List Nat :=
  ((test code p).elim [] Expr.slots) ++ ((action code p b).elim [] Stmt.reads)

/-- The slots that are assigned at a place, by the outcome of its condition. -/
def assigns (code : List Line) (p : Place) (b : Bool) : List Nat :=
  (action code p b).elim [] Stmt.assigns

/-- The slot is that of one of the first `count` parameters, or has been assigned on the path. -/
def AssignedOn (code : List Line) (count : Nat) (trace : List (Place × Bool)) (n : Nat) : Prop :=
  n < count ∨ ∃ q ∈ trace, n ∈ assigns code q.1 q.2

theorem exec_eq_some {s : Stmt} {τ : assigned.Store} (h : assigned.exec s σ = some τ) :
    (∀ n ∈ s.reads, σ n = true) ∧ ∀ n, τ n = true → σ n = true ∨ n ∈ s.assigns := by
  obtain ⟨hs, hτ⟩ := Option.ite_none_right_eq_some.1 h
  cases hτ
  refine ⟨List.all_eq_true.1 (Bool.and_eq_true_iff.1 hs).2, fun n hn => ?_⟩
  rcases Bool.or_eq_true_iff.1 hn with hn | hn
  · exact .inl hn
  · exact .inr (List.contains_iff_mem.1 hn)

/-- What a place does to the slots: the statement there has read what has been assigned, and nothing
else is assigned behind it. -/
theorem act_eq_some {b : Bool} {τ : assigned.Store} (h : assigned.act code p b σ = some τ) :
    (∀ n ∈ (action code p b).elim [] Stmt.reads, σ n = true) ∧
      ∀ n, τ n = true → σ n = true ∨ n ∈ assigns code p b := by
  have hidle (ha : action code p b = none) (hτ : ∀ n, τ n = true → σ n = true) :
      (∀ n ∈ (action code p b).elim [] Stmt.reads, σ n = true) ∧
        ∀ n, τ n = true → σ n = true ∨ n ∈ assigns code p b := by
    rw [ha]
    exact ⟨by simp, fun n hn => .inl (hτ n hn)⟩
  cases p with
  | arm n =>
    cases h
    exact hidle rfl fun _ hn => hn
  | line n =>
    simp only [act] at h
    split at h
    · rename_i slots hline
      cases h
      refine hidle (by simp only [action, hline]) fun k hk => ?_
      by_cases hs : k ∈ slots
      · exact absurd ((if_pos hs).symm.trans hk) Bool.false_ne_true
      · exact (if_neg hs).symm.trans hk
    · split at h
      · rename_i ha
        cases h
        exact hidle ha fun _ hn => hn
      · rename_i ha
        cases h
        rw [ha]
        exact ⟨fun _ hn => absurd hn List.not_mem_nil, fun n hn => .inl hn⟩
      · rename_i s _ ha
        simp only [assigns, ha]
        exact exec_eq_some h

/-- A step of a run, along a given way. -/
theorem runs_next {q : Place} {b : Bool} (h : assigned.Runs code final (m + 1) p σ)
    (hq : next code p b = some q) :
    ∃ k τ, m ≤ k ∧ assigned.Runs code final k q τ ∧
      ∀ n, τ n = true → σ n = true ∨ n ∈ assigns code p b := by
  cases h with
  | step q' τ ready acts runs =>
    obtain ⟨hact, hnext⟩ := acts b fun _ _ => trivial
    cases hnext.symm.trans hq
    exact ⟨m + 1, τ b, Nat.le_succ m, runs b fun _ _ => trivial, (act_eq_some hact).2⟩
  | back line label runs =>
    simp only [next, line, follow, label, Option.map_some] at hq
    cases hq
    exact ⟨m, σ, Nat.le_refl m, runs, fun n hn => .inl hn⟩
  | ret line =>
    simp [next, line, follow, Stmt.goesOn] at hq
  | fall line =>
    simp [next, line] at hq
  | stop _ line =>
    simp [next, line, follow, Stmt.goesOn, Expr.stops, Expr.error] at hq

/-- What is read at a place that a run comes to has been assigned. -/
theorem reads_of_runs (h : assigned.Runs code final (m + 1) p σ) (b : Bool) :
    ∀ n ∈ reads code p b, σ n = true := by
  cases h with
  | step q' τ ready acts runs =>
    refine List.forall_mem_append.2 ⟨?_, (act_eq_some (acts b fun _ _ => trivial).1).1⟩
    cases hc : test code p with
    | none => exact nofun
    | some c => exact ready c hc
  | back line => simp [reads, test, action, line, Stmt.reads]
  | ret line has =>
    simp only [reads, test, action, line, Option.elim_none, Option.elim_some, Stmt.reads,
      List.nil_append, List.mem_flatMap]
    rintro n ⟨o, ho, hn⟩
    exact assigned_operands has o ho n (by rwa [Expr.slots_operand])
  | fall line => simp [reads, test, action, line]
  | stop _ line =>
    simp [reads, test, action, line, Stmt.reads, Expr.error, Expr.slots, Expr.operands,
      Expr.allOperands]

/-- A run takes every path; what it knows as assigned has been assigned on the path. -/
theorem Path.runs {count : Nat} {trace : List (Place × Bool)} (h : Path code trace p)
    (hrun : assigned.Runs code final (trace.length + m) (.line 0) σ)
    (hσ : ∀ n, σ n = true → n < count) :
    ∃ k τ, m ≤ k ∧ assigned.Runs code final k p τ ∧
      ∀ n, τ n = true → AssignedOn code count trace n := by
  induction h generalizing m with
  | start => exact ⟨m, σ, Nat.le_refl m, Nat.zero_add m ▸ hrun, fun n hn => .inl (hσ n hn)⟩
  | @step trace p q b path goes ih =>
    rw [List.length_append, List.length_singleton, Nat.add_assoc, Nat.add_comm 1 m] at hrun
    obtain ⟨k, τ, hk, hr, hτ⟩ := ih hrun
    obtain ⟨k, rfl⟩ : ∃ l, k = l + 1 := ⟨k - 1, by omega⟩
    obtain ⟨l, τ', hl, hr', hτ'⟩ := runs_next hr goes
    refine ⟨l, τ', by omega, hr', fun n hn => ?_⟩
    rcases hτ' n hn with hn | hn
    · rcases hτ n hn with hn | ⟨x, hx, hn⟩
      · exact .inl hn
      · exact .inr ⟨x, List.mem_append_left _ hx, hn⟩
    · exact .inr ⟨(p, b), List.mem_append_right _ (List.mem_singleton.2 rfl), hn⟩

end Flow

open Moonstack.Flow

/-- What is asked of a function so that its slots are assigned before they are read. -/
structure Function.Ordinary (env : Env) (global : Nat → ValueType × Bool) (signature : Signature)
    (function : Function) : Prop where
  typed : function.HasType env.registry global signature
  jumpless : Instr.bodyAllOps (!·.jumps env.registry) function.body = true
  distinct : (Instr.bodyOffsets function.body).Nodup
  steady : Instr.bodyIsSteady env [] [] function.body = true
  lasting : env.options.strategy = .pooled ∨
    ∀ p ∈ (Lifetimes.ofBody function.body (signature.params ++ function.locals).length
      signature.params.length).forced,
      (Lifetimes.ofBody function.body (signature.params ++ function.locals).length
        signature.params.length).Spans p.2 (p.1 + 1)

variable {id name : String} {function : Function} {signature : Signature} {lowered : Lowered}
  {global : Nat → ValueType × Bool}

theorem Function.Ordinary.regular (h : function.Ordinary env global signature) :
    function.Regular env signature where
  known := Instr.BodyHasType.isKnown rfl function.body h.typed h.jumpless
  steady := h.steady
  distinct := h.distinct
  lasting := h.lasting

/-- All runs of an ordinary function go well, as far as they are followed. -/
theorem runs_assigned (hl : (lowerFunction env id name function).outcome.1 = .ok lowered)
    (hs : env.registry.types[function.type]? = some signature)
    (h : function.Ordinary env global signature) (m : Nat) :
    assigned.Runs lowered.code (fun _ => True) m (.line 0)
      fun n => decide (n < signature.params.length) := by
  have hpre : assigned.bodyPre env function.body
      (.function signature.results.length fun _ => True) m [] fun _ => assigned.zero .i32 :=
    Instr.BodyHasType.pre rfl function.body h.typed h.jumpless (Post.fits_function _ rfl) rfl
  exact runs_lowerFunction (lawful_assigned env) hl hs h.regular (fun l hl => decide_eq_true hl)
    (fun _ _ => rfl) hpre

/-- Along every path through the code of an ordinary function, what is read has been assigned. -/
theorem assigned_lowerFunction (hl : (lowerFunction env id name function).outcome.1 = .ok lowered)
    (hs : env.registry.types[function.type]? = some signature)
    (h : function.Ordinary env global signature) {trace : List (Flow.Place × Bool)} {p : Flow.Place}
    (path : Path lowered.code trace p) (b : Bool) :
    ∀ n ∈ reads lowered.code p b, AssignedOn lowered.code signature.params.length trace n := by
  intro n hn
  obtain ⟨k, τ, hk, hr, hτ⟩ := path.runs (m := 1) (runs_assigned hl hs h _)
    fun n hn => of_decide_eq_true hn
  obtain ⟨k, rfl⟩ : ∃ l, k = l + 1 := ⟨k - 1, by omega⟩
  exact hτ n (reads_of_runs hr b n hn)

/-- Adds up the numbers from the argument down to one, and gives seven if there is nothing to add. -/
def countdown : Function where
  name := none
  type := 0
  locals := [.i32]
  body := [
    .loop 0 none [
      .leaf 2 (.localGet 1), .leaf 4 (.localGet 0), .leaf 6 (.binary .i32 .add),
      .leaf 7 (.localSet 1), .leaf 9 (.localGet 0), .leaf 11 (.const (.i32 1)),
      .leaf 13 (.binary .i32 .sub), .leaf 14 (.localTee 0), .leaf 16 (.brIf 0)],
    .leaf 19 (.localGet 1),
    .ifElse 21 (some .i32) [.leaf 23 (.localGet 1)] [.leaf 26 (.const (.i32 7))]]

theorem hasType_countdown (registry : Registry) (global : Nat → ValueType × Bool) :
    countdown.HasType registry global ⟨[.i32], [.i32]⟩ := by
  refine .cons (.loop ?_) (.cons (.leaf [] (.localGet rfl)) (.cons (.ifElse ?_ ?_) .nil))
  · exact .cons (.leaf [] (.localGet rfl)) (.cons (.leaf [.i32] (.localGet rfl))
      (.cons (.leaf [] (.binary rfl)) (.cons (.leaf [] (.localSet rfl))
      (.cons (.leaf [] (.localGet rfl)) (.cons (.leaf [.i32] (.const (.i32 1)))
      (.cons (.leaf [] (.binary rfl)) (.cons (.leaf [] (.localTee rfl))
      (.cons (@Instr.HasType.brIf _ _ _ [] [] rfl) .nil))))))))
  · exact .cons (.leaf [] (.localGet rfl)) .nil
  · exact .cons (.leaf [] (.const (.i32 7))) .nil

/-- Room for the function, with a register of its own for every value. -/
def countdownEnv : Env where
  options := { strategy := .virtual }
  registry := { types := [⟨[.i32], [.i32]⟩] }

theorem ordinary_countdown :
    countdown.Ordinary countdownEnv (fun _ => (.i32, false)) ⟨[.i32], [.i32]⟩ :=
  ⟨hasType_countdown _ _, rfl, by decide, by decide, .inr (by decide +kernel)⟩

theorem assigned_lowerFunction_countdown :
    countdown.Ordinary countdownEnv (fun _ => (.i32, false)) ⟨[.i32], [.i32]⟩ ∧
      ∃ lowered, (lowerFunction countdownEnv "f" "f" countdown).outcome.1 = .ok lowered ∧
        -- through the loop twice, past the first arm, and to the return
        ∃ trace p, Path lowered.code trace p ∧ reads lowered.code p false = [4] ∧
          AssignedOn lowered.code 1 trace 4 := by
  let outcomes : List Bool := List.replicate 8 false ++ [true] ++ List.replicate 11 false ++
    [true, false, false, false]
  have hrun : ((lowerFunction countdownEnv "f" "f" countdown).outcome.1.toOption.any fun lowered =>
      (walk lowered.code (.line 0) outcomes).any fun r => reads lowered.code r.2 false == [4]) =
      true := by
    decide +kernel
  cases hl : (lowerFunction countdownEnv "f" "f" countdown).outcome.1 with
  | error failure =>
    rw [hl] at hrun
    cases hrun
  | ok lowered =>
    rw [hl] at hrun
    obtain ⟨⟨trace, p⟩, hw, hreads⟩ : ∃ r, walk lowered.code (.line 0) outcomes = some r ∧
        (reads lowered.code r.2 false == [4]) = true := (Option.any_eq_true _ _).1 hrun
    have hpath : Path lowered.code trace p := Path.start.walk hw
    have h4 : reads lowered.code p false = [4] := eq_of_beq hreads
    have hassigned :=
      assigned_lowerFunction hl rfl ordinary_countdown hpath false 4 (h4 ▸ List.mem_cons_self)
    exact ⟨ordinary_countdown, lowered, rfl, trace, p, hpath, h4, hassigned⟩

end Moonstack
