import Moonstack.Function.Lowered
import Moonstack.Proofs.Emission.Bodies

/-!
# Functions and initializers

What `lowerFunction` and `lowerInitializer` come to. Their result does not depend on the log they
start with, which `Logged.Yields` says.
-/

namespace Moonstack

namespace Logged

variable {α β : Type}

/-- Whatever was logged before, the computation comes to this result. -/
def Yields (x : Logged α) (r : Except Failure α) : Prop :=
  ∀ log, ∃ log', x log = match r with
    | .ok a => .ok a log'
    | .error e => .error e log'

namespace Yields

variable {x : Logged α} {k : α → Logged β} {a : α} {e : Failure} {r : Except Failure β}

theorem pure (a : α) : Yields (Pure.pure a) (.ok a) := fun log => ⟨log, rfl⟩

theorem throw (e : Failure) : Yields (MonadExcept.throw e : Logged α) (.error e) :=
  fun log => ⟨log, rfl⟩

theorem bind (hx : Yields x (.ok a)) (hk : Yields (k a) r) : Yields (x >>= k) r := by
  intro log
  obtain ⟨log₁, h₁⟩ := hx log
  obtain ⟨log₂, h₂⟩ := hk log₁
  refine ⟨log₂, ?_⟩
  change EStateM.bind x k log = _
  simp only [EStateM.bind, h₁, h₂]

theorem bind_error (hx : Yields x (.error e)) : Yields (x >>= k) (.error e) := by
  intro log
  obtain ⟨log₁, h₁⟩ := hx log
  refine ⟨log₁, ?_⟩
  change EStateM.bind x k log = _
  simp only [EStateM.bind, h₁]

/-- One step after another. -/
theorem andThen {s : Except Failure α} {t : α → Except Failure β} (hx : Yields x s)
    (hk : ∀ a, Yields (k a) (t a)) : Yields (x >>= k) (s >>= t) := by
  cases s with
  | ok a => exact hx.bind (hk a)
  | error e => exact hx.bind_error

theorem ofExcept (s : Except Failure α) : Yields (Logged.ofExcept s) s := by
  cases s with
  | ok a => exact .pure a
  | error e => exact .throw e

theorem record (level : Level) (message : String) : Yields (Logged.record level message) (.ok ()) :=
  fun _ => ⟨_, rfl⟩

theorem within {r : Except Failure α} (c : Context) (hx : Yields x r) :
    Yields (Logged.within c x) (r.mapError (Failure.within c)) := by
  intro log
  obtain ⟨log₁, h₁⟩ := hx log
  refine ⟨log₁, ?_⟩
  unfold Logged.within
  rw [h₁]
  cases r <;> rfl

theorem attempt {r : Except Failure α} (hx : Yields x r) : Yields (Logged.attempt x) (.ok r) := by
  intro log
  obtain ⟨log₁, h₁⟩ := hx log
  refine ⟨log₁, ?_⟩
  unfold Logged.attempt
  rw [h₁]
  cases r <;> rfl

theorem outcome {r : Except Failure α} (hx : Yields x r) : x.outcome.1 = r := by
  obtain ⟨log, h⟩ := hx #[]
  unfold Logged.outcome EStateM.run
  rw [h]
  cases r <;> rfl

end Yields

end Logged

namespace Frame

/-- The frame after locals have been given registers. -/
def bindAll (f : Frame) : List Nat → Frame
  | [] => f
  | index :: rest => (f.localRegister index).2.bindAll rest

/-- The Lua locals that the locals are bound to. -/
def boundNames (f : Frame) : List Nat → List String
  | [] => []
  | index :: rest =>
    (f.localRegister index).2.nameOf (f.localRegister index).1 ::
      (f.localRegister index).2.boundNames rest

/-- The frame after accesses to locals have ended. -/
def accessedAll (f : Frame) : List Nat → Frame
  | [] => f
  | index :: rest => (f.accessed index).accessedAll rest

/-- The frame in front of the first instruction of a body. -/
def entered (f : Frame) : Frame :=
  (f.bindAll (List.range f.paramCount)).accessedAll (List.range f.paramCount)

/-- Is there anything to return at the end of the body? -/
def returns (f : Frame) : Prop := f.resultTypes.length ≠ 0 ∧ f.depth ≠ 1

instance (f : Frame) : Decidable f.returns := inferInstanceAs (Decidable (_ ∧ _))

/-- The code of the return at the end of the body. -/
def returnCode (f : Frame) : List Line :=
  if f.returns then [.stmt (.ret (f.tops f.resultTypes.length))] else []

/-- The frame behind the return at the end of the body. -/
def left (f : Frame) : Frame := if f.returns then f.poppedMany f.resultTypes.length else f

end Frame

namespace Emit

open Moonstack.Frame

theorem writes_bindAll (f : Frame) (indices : List Nat) :
    Writes (indices.mapM fun index => do
      let id ← step fun f => f.localRegister index
      return (← frame).nameOf id) f (f.boundNames indices) (f.bindAll indices) [] := by
  induction indices generalizing f with
  | nil =>
    rw [List.mapM_nil]
    exact .pure _ _
  | cons index rest ih =>
    rw [List.mapM_cons]
    have hone : Writes (do
        let r ← step fun f => f.localRegister index
        return (← frame).nameOf r) f
        ((f.localRegister index).2.nameOf (f.localRegister index).1) (f.localRegister index).2 [] :=
      (writes_step _ f).silent ((writes_frame _).silent (.pure _ _))
    exact hone.silent ((ih _).silent (.pure _ _))

theorem writes_accessedAll (f : Frame) (indices : List Nat) :
    Writes (indices.forM fun index => attempt' fun f => f.afterLocalAccess index) f ()
      (f.accessedAll indices) [] := by
  induction indices generalizing f with
  | nil => exact .pure _ _
  | cons index rest ih =>
    exact (writes_attempt' (afterLocalAccess_eq f index)).silent (ih _)

theorem writes_params (f : Frame) :
    Writes (params f.paramCount) f (f.boundNames (List.range f.paramCount)) f.entered [] :=
  (writes_bindAll f _).silent ((writes_accessedAll _ _).silent (.pure _ _))

theorem writes_finishFunction (f : Frame) : Writes finishFunction f () f.left f.returnCode := by
  refine (writes_frame f).silent ?_
  by_cases h : f.returns
  · rw [left, returnCode, if_pos h, if_pos h, if_pos (by exact h)]
    exact (writes_popMany f _).silent (writes_stmt _ _)
  · rw [left, returnCode, if_neg h, if_neg h, if_neg (by exact h)]
    exact .pure _ _

theorem ok_of_except {α β : Type} {s : Except Failure α} {t : α → Except Failure β} {b : β}
    (h : s >>= t = .ok b) : ∃ a, s = .ok a ∧ t a = .ok b := by
  cases s with
  | ok a => exact ⟨a, rfl, h⟩
  | error e => cases h

/-- What a run comes to, without its log. -/
def result {α : Type} (x : Emit α) (f : Frame) : Except Failure (α × Emission) :=
  match x { frame := f } with
  | .ok a e => .ok (a, e)
  | .error failure _ => .error failure

section

variable {α : Type} {x : Emit α} {f g : Frame} {a : α}

theorem result_of_writes {code : List Line} (hx : Writes x f a g code) :
    ∃ e, e.frame = g ∧ e.code = code ∧ x.result f = .ok (a, e) := by
  obtain ⟨e, he, hg, hc⟩ := hx { frame := f } rfl
  exact ⟨e, hg, hc, by rw [result, he]⟩

theorem result_of_fails {c : Cause} (hx : Fails x f c) : x.result f = .error (.of c) := by
  obtain ⟨e, he⟩ := hx { frame := f } rfl
  rw [result, he]

theorem ok_of_result {e : Emission} (h : x.result f = .ok (a, e)) : x { frame := f } = .ok a e := by
  unfold result at h
  split at h
  · rename_i hx
    cases h
    exact hx
  · cases h

theorem yields_runLogged (x : Emit α) (f : Frame) : Logged.Yields (runLogged x f) (x.result f) := by
  intro log
  unfold runLogged result
  cases x { frame := f } with
  | ok | error => exact ⟨_, rfl⟩

end

/-- The computation that writes a function with the given number of parameters. -/
def function (env : Env) (count : Nat) (code : List Instr) : Emit (List String) := do
  let params ← params count
  body env code
  finishFunction
  change recordLocals
  change fun f => f.record .debug s!"{f.clock} instructions, {f.registers.slotCount} registers"
  return params

/-- The computation that writes an initializer and gives its value. -/
def initializer (env : Env) (code : List Instr) : Emit Operand := do
  body env code
  let value ← pop
  change recordLocals
  return value

end Emit

/-- The function that the computation has written. -/
def Lowered.ofEmission (signature : Signature) (params : List String) (e : Emission) : Lowered where
  params
  header := Moonstack.header e.frame
  lines := e.lines.toList
  resultCount := signature.results.length
  usesSetjmp := !e.frame.sites.isEmpty
  value := none
  declared := declaredSlots e.frame
  warnings := e.frame.warnings

/-- The initializer that the computation has written. -/
def Lowered.ofInitializer (value : Operand) (e : Emission) : Lowered where
  params := []
  header := Moonstack.header e.frame
  lines := e.lines.toList
  resultCount := 1
  usesSetjmp := false
  value := some value
  declared := declaredSlots e.frame
  warnings := e.frame.warnings

open Moonstack.Frame Emit Logged

/-- The end of the writing of a function: what is logged about it. -/
def Frame.reported (f : Frame) : Frame :=
  (recordLocals f).record .debug
    s!"{(recordLocals f).clock} instructions, {(recordLocals f).registers.slotCount} registers"

theorem Frame.recordLocals_eq (f : Frame) : ∃ log, recordLocals f = { f with log } := by
  unfold recordLocals
  simp only
  generalize f.paramCount + (declaredSlots f).length + (if f.sites.isEmpty then 0 else 2) = total
  split
  · exact ⟨_, rfl⟩
  · split
    · exact ⟨_, rfl⟩
    · exact ⟨f.log, rfl⟩

theorem Frame.reported_eq (f : Frame) : ∃ log, f.reported = { f with log } := by
  obtain ⟨log, h⟩ := f.recordLocals_eq
  unfold Frame.reported
  rw [h]
  exact ⟨_, rfl⟩

section

variable {env : Env} {function : Function} {signature : Signature} (id name : String)
  (hs : env.registry.types[function.type]? = some signature)

/-- The frame that the writing of a function starts from. -/
abbrev Function.startFrame (function : Function) (env : Env) (id : String) (signature : Signature) :
    Frame :=
  Moonstack.startFrame env id (some signature) function.locals function.body

abbrev Function.lifetimes (function : Function) (signature : Signature) : Lifetimes :=
  .ofBody function.body (signature.params ++ function.locals).length signature.params.length

theorem checkSize_eq (env : Env) (id : String) (signature : Option Signature)
    (locals : List ValueType) (code : List Instr) :
    checkSize env (startFrame env id signature locals code) =
      if env.options.functionLimit < Instr.bodyTicks code then
        .error (.of (.rejected (.tooLong (Instr.bodyTicks code) env.options.functionLimit)))
      else .ok () := by
  unfold checkSize
  rw [show (startFrame env id signature locals code).lifetimes.ticks = Instr.bodyTicks code from
    ticks_ofBody _ _ _]

include hs

/-- What a function comes to, if its signature is known. -/
theorem yields_function :
    Yields (lowerFunction env id name function) (do
      let f := function.startFrame env id signature
      checkSize env f
      let r ← (Emit.function env signature.params.length function.body).result f
      return .ofEmission signature r.1 r.2) := by
  unfold lowerFunction
  rw [hs]
  exact (Yields.ofExcept _).andThen fun _ => (yields_runLogged _ _).andThen fun _ => .pure _

/-- **A function that is not oversized is written**: its lines are those of its body, from the frame
in which the parameters are bound, and of the return at the end. -/
theorem yields_lowerFunction (ho : env.options.oversized function.body = false) :
    ∃ f g code lowered, f = function.startFrame env id signature ∧
      Writes (body env function.body) f.entered () g code ∧
      lowered.lines.map Placed.line = code ++ g.returnCode ∧
      lowered.params = f.boundNames (List.range f.paramCount) ∧
      lowered.header = header g.left ∧ lowered.usesSetjmp = !g.left.sites.isEmpty ∧
      Yields (lowerFunction env id name function) (.ok lowered) := by
  rw [Options.oversized, Bool.or_eq_false_iff, decide_eq_false_iff_not] at ho
  have hy := yields_function id name hs
  simp only [checkSize_eq, if_neg ho.1] at hy
  obtain ⟨f, hf⟩ : ∃ f, f = function.startFrame env id signature :=
    ⟨_, rfl⟩
  have hcount : signature.params.length = f.paramCount := by rw [hf]; rfl
  obtain ⟨_, g, code, hb⟩ := succeeds_body ho.2 f.entered
  have hall : Writes (Emit.function env f.paramCount function.body) f
      (f.boundNames (List.range f.paramCount)) g.left.reported (code ++ (g.returnCode ++ [])) :=
    (writes_params f).silent (hb.writes.bind ((writes_finishFunction g).bind
      ((writes_change _ _).silent ((writes_change _ _).silent (.pure _ _)))))
  obtain ⟨e, he, hc, hr⟩ := result_of_writes hall
  rw [List.append_nil] at hc
  obtain ⟨log, hlog⟩ := g.left.reported_eq
  rw [hlog] at he
  rw [← hf, hcount, hr] at hy
  exact ⟨f, g, code, .ofEmission signature _ e, hf, hb.writes, hc, rfl,
    (congrArg header he).trans rfl,
    (congrArg (fun f => !Array.isEmpty (Frame.sites f)) he).trans rfl, hy⟩

/-- **A function that is oversized is refused.** -/
theorem refuses_lowerFunction (ho : env.options.oversized function.body = true) :
    ∃ r, Yields (lowerFunction env id name function) (.error (.of (.rejected r))) := by
  have hy := yields_function id name hs
  simp only [checkSize_eq] at hy
  by_cases ht : env.options.functionLimit < Instr.bodyTicks function.body
  · rw [if_pos ht] at hy
    exact ⟨_, hy⟩
  · rw [Options.oversized, Bool.or_eq_true_iff, decide_eq_true_eq] at ho
    obtain ⟨count, hb⟩ := fails_walk.body function.body (ho.resolve_left ht)
      (function.startFrame env id signature).entered
    rw [if_neg ht, show (Emit.function env signature.params.length function.body).result _ = _ from
      result_of_fails (.after (writes_params _) hb.bind)] at hy
    exact ⟨_, hy⟩

omit hs

theorem unknown_lowerFunction (hs : env.registry.types[function.type]? = none) :
    Yields (lowerFunction env id name function) (.error (.of (.signature name function.type))) := by
  unfold lowerFunction
  rw [hs]
  exact .throw _

/-- What an initializer comes to. -/
theorem yields_initializer (env : Env) (id : String) (code : List Instr) :
    Yields (lowerInitializer env id code) (do
      let f := startFrame env id none [] code
      checkSize env f
      let r ← (initializer env code).result f
      return .ofInitializer r.1 r.2) :=
  (Yields.ofExcept _).andThen fun _ => (yields_runLogged _ _).andThen fun _ => .pure _

theorem yields_lowerInitializer {code : List Instr}
    (ho : env.options.oversized code = false) :
    ∃ lowered, Yields (lowerInitializer env id code) (.ok lowered) := by
  rw [Options.oversized, Bool.or_eq_false_iff, decide_eq_false_iff_not] at ho
  obtain ⟨_, g, lines, hb⟩ := succeeds_body ho.2 (startFrame env id none [] code)
  have hall : Writes (initializer env code) (startFrame env id none [] code) g.top
      (recordLocals g.popped) (lines ++ []) :=
    hb.writes.bind ((writes_pop g).silent ((writes_change _ _).silent (.pure _ _)))
  obtain ⟨e, -, -, hr⟩ := result_of_writes hall
  have hy := yields_initializer env id code
  simp only [checkSize_eq, if_neg ho.1, hr] at hy
  exact ⟨_, hy⟩

theorem refuses_lowerInitializer {code : List Instr}
    (ho : env.options.oversized code = true) :
    ∃ r, Yields (lowerInitializer env id code) (.error (.of (.rejected r))) := by
  have hy := yields_initializer env id code
  simp only [checkSize_eq] at hy
  by_cases ht : env.options.functionLimit < Instr.bodyTicks code
  · rw [if_pos ht] at hy
    exact ⟨_, hy⟩
  · rw [Options.oversized, Bool.or_eq_true_iff, decide_eq_true_eq] at ho
    obtain ⟨count, hb⟩ := fails_walk.body code (ho.resolve_left ht) (startFrame env id none [] code)
    rw [if_neg ht, show (initializer env code).result _ = _ from result_of_fails hb.bind] at hy
    exact ⟨_, hy⟩

end

end Moonstack
