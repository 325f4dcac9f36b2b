import Moonstack.Proofs.Assignment.Paths
import Moonstack.Proofs.Emission.Texts
import Moonstack.Proofs.Semantics.Laws

/-!
# Preservation of results

The code of a function returns what the function does (`preserved_lowerFunction`), for bodies that
work with 32-bit integers.

A body that evaluates to an outcome satisfies its precondition, if what has to hold at that outcome
does (`Instr.pre_of_evalBody`). The precondition counts jumps back to the start of a loop; as many are
allowed as the evaluation makes. For a loop, the invariant is that the remaining rounds lead to the
outcome (`Rounds`).
-/

namespace Moonstack

open Domain

namespace Outcome

/-- What has to hold at the outcome. -/
def Meets (post : Post Value) (m : Nat) : Outcome → Prop
  | next vals ls => post.next m vals ls
  | branch depth vals ls => post.br depth m vals ls
  | ret vals => post.ret vals

variable {o o' : Outcome} {post : Post Value} {arity m : Nat} {vals : List Value}

theorem meets_block (h : o.leave arity vals = some o') (hm : o'.Meets post m) :
    o.Meets (post.block arity vals) m := by
  cases o with
  | next vs ls =>
    obtain ⟨hlen, he⟩ := Option.ite_none_right_eq_some.1 h
    cases he
    exact ⟨hlen, hm⟩
  | ret vs =>
    cases h
    exact hm
  | branch depth vs ls =>
    cases depth with
    | zero =>
      obtain ⟨hlen, he⟩ := Option.ite_none_right_eq_some.1 h
      cases he
      exact ⟨hlen, hm⟩
    | succ depth =>
      cases h
      exact hm

/-- Unless control goes back to its start, a loop is left like a block. -/
theorem meets_loop {u : Prop} {I : Nat → (Nat → Value) → Prop}
    (hback : ∀ vs ls, o ≠ .branch 0 vs ls) (h : o.Meets (post.block arity vals) m) :
    o.Meets (post.loop arity vals u I) m := by
  cases o with
  | next | ret => exact h
  | branch depth vs ls =>
    cases depth with
    | zero => exact absurd rfl (hback vs ls)
    | succ depth => exact h

end Outcome

variable {env : Env}

theorem plain_of_results {o : Op} {args results : List Value} (h : o.results args = some results) :
    ∃ p, o.plain env = some p ∧ args.length = p.pops ∧ results.length = p.pushes := by
  unfold Op.results at h
  split at h
  · cases h
    exact ⟨_, rfl, rfl, rfl⟩
  · cases h
    exact ⟨_, rfl, rfl, rfl⟩
  · cases h
    exact ⟨_, rfl, rfl, rfl⟩
  · cases h
    exact ⟨_, rfl, rfl, rfl⟩
  · rename_i op x y
    obtain ⟨f, hf, rfl⟩ := Option.map_eq_some_iff.1 h
    obtain ⟨p, hp, hpops, hpushes⟩ : ∃ p, Plain.binary (op.lower .i32) = some p ∧ p.pops = 2 ∧
        p.pushes = 1 :=
      Plain.binary_of_isSome (Comparison.isSome_lower (by cases op <;> first | rfl | cases hf) _ _)
    exact ⟨p, hp, hpops.symm, hpushes.symm⟩
  · rename_i op x y
    obtain ⟨f, hf, rfl⟩ := Option.map_eq_some_iff.1 h
    obtain ⟨p, hp, hpops, hpushes⟩ : ∃ p, Plain.binary (op.lower env.options.correctMultiply .i32) =
        some p ∧ p.pops = 2 ∧ p.pushes = 1 :=
      Plain.binary_of_isSome (BinaryOp.isSome_lower (by cases op <;> first | rfl | cases hf) _ _ _)
    exact ⟨p, hp, hpops.symm, hpushes.symm⟩
  · cases h

/-- An instruction that makes results of its operands. -/
theorem Op.pre_of_perform {o : Op} {vals : List Value} {ls : Nat → Value} {outcome : Outcome}
    (h : o.perform vals ls = some outcome) {post : Post Value} {m : Nat}
    (hm : outcome.Meets post m) :
    ∃ (p : Plain) (args rest results : List Value), o.plain env = some p ∧
      lua.Performs o args results ∧ args.length = p.pops ∧ results.length = p.pushes ∧
      vals = args.reverse ++ rest ∧ post.next m (results.reverse ++ rest) ls := by
  obtain ⟨results, hr, rfl⟩ := Option.map_eq_some_iff.1 h
  obtain ⟨p, hp, hpops, hpushes⟩ := plain_of_results hr
  refine ⟨p, _, _, results, hp, hr, hpops, hpushes, ?_, hm⟩
  rw [List.reverse_reverse, List.take_append_drop]

theorem getElem?_min_length {α : Type} (xs : List α) (n : Nat) : xs[min n xs.length]? = xs[n]? := by
  rcases Nat.le_total n xs.length with h | h
  · rw [Nat.min_eq_left h]
  · rw [Nat.min_eq_right h, List.getElem?_eq_none (Nat.le_refl _), List.getElem?_eq_none h]

/-- Whether a word counts as true. -/
theorem of_holds {c : Int32} {b : Bool} (h : lua.Holds (.word c) b) : b = decide (c ≠ 0) := by
  obtain rfl : b = decide (Value.word c ≠ .word 0) := h
  simp only [ne_eq, Value.word.injEq]

/-- An instruction that evaluates meets its precondition. -/
theorem Op.pre_of_eval {o : Op} {vals : List Value} {ls : Nat → Value} {outcome : Outcome}
    (h : o.eval vals ls = some outcome) {post : Post Value} {m : Nat} (hm : outcome.Meets post m) :
    lua.opPre env post m vals ls o := by
  cases o with
  | br | ret | localGet =>
    cases h
    exact hm
  | localSet | localTee =>
    cases vals with
    | nil => cases h
    | cons v rest =>
      cases h
      exact ⟨v, rest, rfl, hm⟩
  | brIf depth =>
    cases vals with
    | nil => cases h
    | cons v rest =>
      cases v with
      | word n =>
        cases h
        refine ⟨.word n, rest, rfl, ⟨n, rfl⟩, fun b hb => ?_⟩
        by_cases hn : n = 0
        · rw [if_pos hn] at hm
          rw [if_neg (by simp [of_holds hb, hn])]
          exact hm
        · rw [if_neg hn] at hm
          rw [if_pos (by simp [of_holds hb, hn])]
          exact hm
      | _ => cases h
  | brTable targets fallback =>
    cases vals with
    | nil => cases h
    | cons v rest =>
      cases v with
      | word n =>
        cases h
        refine ⟨.word n, rest, rfl, ⟨n, rfl⟩, fun i hi => ?_⟩
        obtain ⟨n', hn, rfl⟩ := hi
        cases hn
        rwa [getElem?_min_length]
      | _ => cases h
  | const c =>
    cases c with
    | i32 n =>
      cases h
      exact ⟨.word n, rfl, hm⟩
    | _ => cases h
  | unreachable => cases h
  | _ => exact pre_of_perform h hm

/-- The body leads to the outcome with `k` jumps back. -/
def Costs (env : Env) (body : List Instr) (ls : Nat → Value) (outcome : Outcome) (k : Nat) : Prop :=
  ∀ {post m}, outcome.Meets post m → lua.bodyPre env body post (m + k) [] ls

/-- The rounds of a loop from the given locals on lead out of it to the outcome, with `m₀` of the
jumps back left over. -/
inductive Rounds (env : Env) (body : List Instr) (arity : Nat) (vals : List Value)
    (outcome : Outcome) (m₀ : Nat) : Nat → (Nat → Value) → Prop
  | last {ls : Nat → Value} {k : Nat} {o : Outcome} (costs : Costs env body ls o k)
      (out : ∀ vs ls, o ≠ .branch 0 vs ls) (leaves : o.leave arity vals = some outcome) :
      Rounds env body arity vals outcome m₀ (m₀ + k) ls
  | again {ls ls' : Nat → Value} {vs : List Value} {k m : Nat}
      (costs : Costs env body ls (.branch 0 vs ls') k)
      (rest : Rounds env body arity vals outcome m₀ m ls') :
      Rounds env body arity vals outcome m₀ (m + 1 + k) ls

section

variable {body : List Instr} {arity : Nat} {vals : List Value} {outcome : Outcome}
  {eval : (Nat → Value) → Option Outcome}

theorem rounds_of_iterate (hbody : ∀ {ls o}, eval ls = some o → ∃ k, Costs env body ls o k)
    {fuel : Nat} {ls : Nat → Value} (h : iterate eval arity vals fuel ls = some outcome) :
    ∃ k, ∀ m₀, Rounds env body arity vals outcome m₀ (m₀ + k) ls := by
  induction fuel generalizing ls with
  | zero => cases h
  | succ fuel ih =>
    simp only [iterate] at h
    split at h
    · rename_i vs ls' hls
      obtain ⟨k, hk⟩ := hbody hls
      obtain ⟨k', hk'⟩ := ih h
      refine ⟨k' + 1 + k, fun m₀ => ?_⟩
      have hr := Rounds.again hk (hk' m₀)
      rwa [Nat.add_assoc, Nat.add_assoc, ← Nat.add_assoc k'] at hr
    · rename_i o hout hls
      obtain ⟨k, hk⟩ := hbody hls
      exact ⟨k, fun m₀ => .last hk (fun vs ls he => hout vs ls he) h⟩
    · cases h

/-- The rounds that are left are an invariant of the loop. -/
theorem Rounds.bodyPre {post : Post Value} {m₀ m : Nat} {ls : Nat → Value}
    (h : Rounds env body arity vals outcome m₀ m ls) (hm : outcome.Meets post m₀) :
    lua.bodyPre env body (post.loop arity vals lua.Unbounded
      (Rounds env body arity vals outcome m₀)) m [] ls := by
  cases h with
  | last costs out leaves => exact costs (Outcome.meets_loop out (Outcome.meets_block leaves hm))
  | again costs rest => exact costs rest

end

namespace Instr

mutual

theorem pre_of_eval {fuel : Nat} : (i : Instr) → {vals : List Value} → {ls : Nat → Value} →
    {outcome : Outcome} → i.eval fuel vals ls = some outcome →
    ∃ k, ∀ {post m}, outcome.Meets post m → lua.pre env i post (m + k) vals ls
  | .leaf _ o, vals, ls, outcome, h => ⟨0, fun hm => o.pre_of_eval h hm⟩
  | .block _ result body, vals, ls, outcome, h => by
    obtain ⟨o, ho, hl⟩ := Option.bind_eq_some_iff.1 h
    obtain ⟨k, hk⟩ := pre_of_evalBody body ho
    exact ⟨k, fun hm => hk (Outcome.meets_block hl hm)⟩
  | .loop _ result body, vals, ls, outcome, h => by
    obtain ⟨k, hk⟩ := rounds_of_iterate (fun hls => pre_of_evalBody body hls) h
    exact ⟨k, fun {post m} hm => ⟨_, hk m, fun _ _ hr => hr.bodyPre hm⟩⟩
  | .ifThen offset result body, vals, ls, outcome, h => by
    match result, vals, h with
    | none, .word c :: rest, h =>
      rw [eval] at h
      by_cases hc : c = 0
      · rw [if_pos hc] at h
        cases h
        refine ⟨0, fun hm => ⟨rfl, .word c, rest, rfl, ⟨c, rfl⟩, fun b hb => ?_⟩⟩
        rw [if_neg (by simp [of_holds hb, hc])]
        exact hm
      · rw [if_neg hc] at h
        obtain ⟨o, ho, hl⟩ := Option.bind_eq_some_iff.1 h
        obtain ⟨k, hk⟩ := pre_of_evalBody body ho
        refine ⟨k, fun hm => ⟨rfl, .word c, rest, rfl, ⟨c, rfl⟩, fun b hb => ?_⟩⟩
        rw [if_pos (by simp [of_holds hb, hc])]
        exact hk (Outcome.meets_block hl hm)
  | .ifElse offset result body other, vals, ls, outcome, h => by
    match vals, h with
    | .word c :: rest, h =>
      rw [eval] at h
      by_cases hc : c = 0
      · rw [if_pos hc] at h
        obtain ⟨o, ho, hl⟩ := Option.bind_eq_some_iff.1 h
        obtain ⟨k, hk⟩ := pre_of_evalBody other ho
        refine ⟨k, fun hm => ⟨.word c, rest, rfl, ⟨c, rfl⟩, fun b hb => ?_⟩⟩
        rw [if_neg (by simp [of_holds hb, hc])]
        exact hk (Outcome.meets_block hl hm)
      · rw [if_neg hc] at h
        obtain ⟨o, ho, hl⟩ := Option.bind_eq_some_iff.1 h
        obtain ⟨k, hk⟩ := pre_of_evalBody body ho
        refine ⟨k, fun hm => ⟨.word c, rest, rfl, ⟨c, rfl⟩, fun b hb => ?_⟩⟩
        rw [if_pos (by simp [of_holds hb, hc])]
        exact hk (Outcome.meets_block hl hm)

/-- A body that evaluates to an outcome satisfies its precondition. -/
theorem pre_of_evalBody {fuel : Nat} : (body : List Instr) → {vals : List Value} →
    {ls : Nat → Value} → {outcome : Outcome} → evalBody fuel body vals ls = some outcome →
    ∃ k, ∀ {post m}, outcome.Meets post m → lua.bodyPre env body post (m + k) vals ls
  | [], vals, ls, outcome, h => by
    cases h
    exact ⟨0, fun hm => hm⟩
  | i :: rest, vals, ls, outcome, h => by
    simp only [evalBody] at h
    split at h
    · -- the rest of the body follows
      rename_i vals' ls' hi
      obtain ⟨k, hk⟩ := pre_of_eval i hi
      obtain ⟨k', hk'⟩ := pre_of_evalBody rest h
      refine ⟨k' + k, fun {post m} hm => ?_⟩
      rw [← Nat.add_assoc]
      exact hk (hk' hm)
    · -- control has left the body
      rename_i hout
      obtain ⟨k, hk⟩ := pre_of_eval i h
      refine ⟨k, fun {post m} hm => hk ?_⟩
      cases outcome with
      | next vals' ls' => exact absurd h (hout vals' ls')
      | branch | ret => exact hm

end

end Instr

open Moonstack.Flow

/-- The slots at the start of a function: the parameters hold the arguments. -/
def argumentSlots (args : List Int32) (n : Nat) : LuaValue :=
  match args[n]? with
  | some x => .number x.toInt
  | none => .nil

/-- What is returned is what has to hold at the end of the function. -/
theorem Outcome.meets_function {o : Outcome} {count m : Nat} {results : List Value}
    (h : o.returned count = some results) : o.Meets (Post.function count (· = results)) m := by
  have hreturn {vals : List Value}
      (h : (if count ≤ vals.length then some (vals.take count).reverse else none) = some results) :
      Post.Accepts count (· = results) vals := by
    obtain ⟨hlen, he⟩ := Option.ite_none_right_eq_some.1 h
    exact ⟨hlen, Option.some.inj he⟩
  cases o with
  | next | ret => exact hreturn h
  | branch depth vals ls =>
    cases depth with
    | zero => exact hreturn h
    | succ depth => cases h

section

variable {id name : String} {function : Function} {signature : Signature} {lowered : Lowered}
  {global : Nat → ValueType × Bool} {args : List Int32} {fuel : Nat} {results : List Value}

theorem params_lowerFunction (hl : (lowerFunction env id name function).outcome.1 = .ok lowered)
    (hs : env.registry.types[function.type]? = some signature) :
    lowered.params = (List.range signature.params.length).map slotName := by
  obtain ⟨signature', f, g, code, hs', -, rfl, -, -, hp, -⟩ := written_lowerFunction hl
  cases hs.symm.trans hs'
  rw [hp]
  exact (binds_params env id function signature).2

/-- All runs of the code of a function end with its results. -/
theorem runs_lua (hl : (lowerFunction env id name function).outcome.1 = .ok lowered)
    (hs : env.registry.types[function.type]? = some signature) (h : function.Regular env signature)
    (hlimit : env.options.branchTableLimit ≤ 2 ^ 31) (hargs : args.length = signature.params.length)
    (hcall : function.call fuel signature args = some results) :
    ∃ m, lua.Runs lowered.code (· = results) m (.line 0) (argumentSlots args) := by
  obtain ⟨outcome, heval, hret⟩ := Option.bind_eq_some_iff.1 hcall
  obtain ⟨k, hk⟩ := Instr.pre_of_evalBody function.body heval
  refine ⟨0 + k, runs_lowerFunction (lawful_lua hlimit) hl hs h (fun l hl => ?_) (fun l hl => ?_)
    (hk (Outcome.meets_function hret))⟩
  · obtain ⟨x, hx⟩ : ∃ x, args[l]? = some x := ⟨_, List.getElem?_eq_getElem (hargs ▸ hl)⟩
    simp only [argumentSlots, Function.initial, hx]
    rfl
  · simp only [Function.initial, List.getElem?_eq_none (hargs ▸ hl)]
    rfl

/-- **The code of a function returns what the function does.** -/
theorem preserved_lowerFunction
    (hl : (lowerFunction env id name function).outcome.1 = .ok lowered)
    (hs : env.registry.types[function.type]? = some signature)
    (h : function.Ordinary env global signature)
    (hlimit : env.options.branchTableLimit ≤ 2 ^ 31)
    (hargs : args.length = signature.params.length)
    (hcall : function.call fuel signature args = some results) :
    (∃ steps, run lowered.code steps (.line 0) (argumentSlots args) =
        some (results.map Value.lua)) ∧
      lowered.params = (List.range signature.params.length).map slotName ∧
      lowered.text = joinLines ((lowered.header ++ lowered.lines).map Placed.row) := by
  obtain ⟨m, hr⟩ := runs_lua hl hs h.regular hlimit hargs hcall
  obtain ⟨steps, values, hrun, rfl⟩ := terminates_of_runs hr
  exact ⟨⟨steps, hrun⟩, params_lowerFunction hl hs, lowered.text_eq⟩

end

theorem preserved_lowerFunction_countdown :
    countdown.Ordinary countdownEnv (fun _ => (.i32, false)) ⟨[.i32], [.i32]⟩ ∧
      countdown.call 3 ⟨[.i32], [.i32]⟩ [3] = some [.word 6] ∧
      ∃ lowered, (lowerFunction countdownEnv "f" "f" countdown).outcome.1 = .ok lowered ∧
        lowered.params = ["reg0"] ∧
        ∃ steps, run lowered.code steps (.line 0) (argumentSlots [3]) = some [.number 6] := by
  have hcall : countdown.call 3 ⟨[.i32], [.i32]⟩ [3] = some [.word 6] := by decide +kernel
  obtain ⟨f, g, code, lowered, -, -, -, -, -, -, hy⟩ :=
    @yields_lowerFunction countdownEnv countdown ⟨[.i32], [.i32]⟩ "f" "f" rfl (by decide)
  obtain ⟨hrun, hparams, -⟩ :=
    preserved_lowerFunction hy.outcome rfl ordinary_countdown (by decide) rfl hcall
  exact ⟨ordinary_countdown, hcall, lowered, hy.outcome, hparams.trans (by decide), hrun⟩

end Moonstack
