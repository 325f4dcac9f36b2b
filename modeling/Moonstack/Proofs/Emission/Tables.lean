import Moonstack.Proofs.Emission.Branches
import Moonstack.Proofs.Flow.Step

/-!
# What branch tables select

A branch table is written as a chain of tests or as a search tree. `selects_branchTable` says that
both send control to the same branch, whatever integer the operand is, and that they warn equally
often.
-/

namespace Moonstack

/-- A comparison of integers. -/
def InfixOp.compares : InfixOp → Int → Int → Option Bool
  | eq, a, b => some (a == b)
  | ne, a, b => some (a != b)
  | lt, a, b => some (decide (a < b))
  | gt, a, b => some (decide (b < a))
  | le, a, b => some (decide (a ≤ b))
  | ge, a, b => some (decide (b ≤ a))
  | _, _, _ => none

namespace Expr

/-- The value of a number or of the operand `o`, if this is `i`. -/
def valueAt (o : Operand) (i : Int) : Expr → Option Int
  | operand o' => if o' = o then some i else none
  | number n => some n
  | _ => none

/-- Does a test of the operand `o` hold, if this is `i`? -/
def holdsAt (o : Operand) (i : Int) : Expr → Option Bool
  | binary .and a b => do return (← a.holdsAt o i) && (← b.holdsAt o i)
  | binary .or a b => do return (← a.holdsAt o i) || (← b.holdsAt o i)
  | binary op a b => do op.compares (← a.valueAt o i) (← b.valueAt o i)
  | _ => none

end Expr

/-- The target that a number selects; all that point past the table select the fallback. -/
def tableTarget (targets : List Nat) (fallback : Nat) (i : Int) : Nat :=
  if 0 ≤ i then (targets[i.toNat]?).getD fallback else fallback

namespace Flow

/-- The line that control visits at a place, if it is more than an opening or a close. -/
def visited (code : List Line) : Place → List Line
  | .line n => ((code[n]?).filter Line.isFlat).toList
  | .arm _ => []

/-- From a place, control visits the given lines and then leaves the code. Conditions come out as
`holds` says. -/
inductive Visits (code : List Line) (holds : Expr → Option Bool) : Place → List Line → Prop
  | leave {p : Place} {b : Bool} (hb : ∀ c, test code p = some c → holds c = some b)
      (hn : next code p b = none) : Visits code holds p (visited code p)
  | step {p q : Place} {b : Bool} {lines : List Line}
      (hb : ∀ c, test code p = some c → holds c = some b) (hn : next code p b = some q)
      (h : Visits code holds q lines) : Visits code holds p (visited code p ++ lines)

variable {code part rest lines : List Line} {holds : Expr → Option Bool} {p : Place} {n : Nat}
  {b b' : Bool} {c : Expr} {s : Stmt}

/-- Without a condition there is one way to go on. -/
theorem next_of_test_eq_none (h : test code p = none) (b b' : Bool) :
    next code p b = next code p b' := by
  cases p with
  | line n | arm n =>
    cases hl : code[n]? with
    | none => simp only [next, hl]
    | some l => cases l <;> simp_all [test, next]

theorem next_unique (hb : ∀ c, test code p = some c → holds c = some b)
    (hb' : ∀ c, test code p = some c → holds c = some b') : next code p b = next code p b' := by
  cases ht : test code p with
  | none => exact next_of_test_eq_none ht b b'
  | some c =>
    have hbb : some b = some b' := (hb c ht).symm.trans (hb' c ht)
    rw [Option.some.inj hbb]

/-- Control visits the same lines whenever it starts at a place. -/
theorem Visits.unique {lines' : List Line} (h : Visits code holds p lines)
    (h' : Visits code holds p lines') : lines = lines' := by
  induction h generalizing lines' with
  | leave hb hn =>
    cases h' with
    | leave hb' hn' => rfl
    | step hb' hn' h' =>
      rw [next_unique hb hb', hn'] at hn
      cases hn
  | step hb hn h ih =>
    cases h' with
    | leave hb' hn' =>
      rw [next_unique hb hb', hn'] at hn
      cases hn
    | step hb' hn' h' =>
      rw [next_unique hb hb', hn'] at hn
      obtain rfl := Option.some.inj hn
      rw [ih h']

theorem visited_line {l : Line} (h : code[n]? = some l) :
    visited code (.line n) = if l.isFlat then [l] else [] := by
  rw [visited, h, Option.filter_some]
  split <;> rfl

theorem Visits.stmt (hl : code[n]? = some (.stmt s)) (hs : s.goesOn = true)
    (h : Visits code holds (.line (n + 1)) lines) :
    Visits code holds (.line n) (.stmt s :: lines) := by
  have hstep := Visits.step (p := .line n) (b := true) (by simp [test, hl])
    (by simp only [next, hl]; exact follow_of_goesOn hs) h
  rwa [visited_line hl] at hstep

theorem Visits.comment {text : String} (hl : code[n]? = some (.comment text))
    (h : Visits code holds (.line (n + 1)) lines) :
    Visits code holds (.line n) (.comment text :: lines) := by
  have hstep := Visits.step (p := .line n) (b := true) (by simp [test, hl])
    (by simp only [next, hl]) h
  rwa [visited_line hl] at hstep

/-- A statement after which control leaves the code. -/
theorem Visits.exit (hl : code[n]? = some (.stmt s)) (hs : follow code n s = none) :
    Visits code holds (.line n) [.stmt s] := by
  have hleave : Visits code holds (.line n) (visited code (.line n)) :=
    .leave (b := true) (by simp [test, hl]) (by simp only [next, hl, hs])
  rwa [visited_line hl] at hleave

/-- The first arm of an `if`, or what follows it. -/
theorem Visits.ifThen (hl : code[n]? = some (.ifThen c)) (hc : holds c = some b)
    (h : Visits code holds (if b then .line (n + 1) else nextArm code n) lines) :
    Visits code holds (.line n) lines := by
  have hstep := Visits.step (p := .line n) (b := b) (by simp [test, hl, hc])
    (by simp only [next, hl]) h
  rwa [visited_line hl] at hstep

/-- A further arm of an `if`, or what follows it. -/
theorem Visits.elseIf (hl : code[n]? = some (.elseIf c)) (hc : holds c = some b)
    (h : Visits code holds (if b then .line (n + 1) else nextArm code n) lines) :
    Visits code holds (.arm n) lines :=
  .step (p := .arm n) (b := b) (by simp [test, hl, hc]) (by simp only [next, hl]) h

/-- The last arm of an `if`. -/
theorem Visits.otherwise (hl : code[n]? = some .otherwise)
    (h : Visits code holds (.line (n + 1)) lines) : Visits code holds (.arm n) lines :=
  .step (p := .arm n) (b := true) (by simp [test, hl]) (by simp only [next, hl]) h

/-- There is no line of a label in code without labels. -/
theorem labelAt_eq_none (h : Shape [] code) (l : Label) : labelAt code l = none := by
  have hnone : code.filterMap Line.label? = [] := List.sublist_nil.1 h.labels
  rw [List.filterMap_eq_nil_iff] at hnone
  refine List.findIdx?_eq_none_iff.2 fun line hline => ?_
  rw [hnone line hline]
  rfl

end Flow

/-- The test occurs in a table with the given number of targets. -/
def TableTest.Fits (count : Nat) : TableTest → Prop
  | equals n => n < count
  | below n => n ≤ count
  | outside n => n = count

/-- What a test says, if the operand is `i`. -/
def TableTest.outcome (i : Int) : TableTest → Bool
  | equals n => decide (i = n)
  | below n => decide (i < n)
  | outside count => decide (i < 0 ∨ count ≤ i)

namespace Choice

/-- All tests of the choice occur in a table with the given number of targets. -/
def Fits (count : Nat) : Choice → Prop
  | go _ => True
  | test _ t yes no => t.Fits count ∧ yes.Fits count ∧ no.Fits count

/-- The outcomes of the tests lead to the branch of the given depth. `T` says which outcomes there
are. -/
inductive Leads (T : TableTest → Bool → Prop) : Choice → Nat → Prop
  | go (depth : Nat) : Leads T (go depth) depth
  | yes {joins : Bool} {t : TableTest} {yes no : Choice} {depth : Nat} :
    T t true → Leads T yes depth → Leads T (test joins t yes no) depth
  | no {joins : Bool} {t : TableTest} {yes no : Choice} {depth : Nat} :
    T t false → Leads T no depth → Leads T (test joins t yes no) depth

/-- The outcomes of tests that lead to the arm of number `i`; the number of targets itself stands for
the fallback. -/
inductive Picks (T : TableTest → Bool → Prop) (count : Nat) : Nat → Prop
  | chain {i : Nat} (hi : i ≤ count) (hno : ∀ j < i, T (.equals j) false)
      (hyes : i < count → T (.equals i) true) : Picks T count i
  | outside (h : T (.outside count) true) : Picks T count count
  | inside {i : Nat} (hi : i < count) (hin : T (.outside count) false)
      (hlow : 0 < i → T (.below i) false) (hhigh : i + 1 < count → T (.below (i + 1)) true) :
      Picks T count i

end Choice

namespace Flow

open Moonstack.Frame

/-- A property of places that holds in front of a test of a table if it holds wherever the test leads
to. -/
structure Tested (code : List Line) (T : TableTest → Bool → Prop) (o : Operand) (count : Nat)
    (W : Place → Prop) : Prop where
  ifThen : ∀ {n t}, t.Fits count → code[n]? = some (.ifThen (t.condition o)) →
    (T t true → W (.line (n + 1))) → (T t false → W (nextArm code n)) → W (.line n)
  elseIf : ∀ {n t}, t.Fits count → code[n]? = some (.elseIf (t.condition o)) →
    (T t true → W (.line (n + 1))) → (T t false → W (nextArm code n)) → W (.arm n)
  otherwise : ∀ {n}, code[n]? = some .otherwise → W (.line (n + 1)) → W (.arm n)

namespace Tested

variable {f : Frame} {code : List Line} {T : TableTest → Bool → Prop} {o : Operand} {count : Nat}
  {W : Place → Prop}

/-- Behind an arm, a choice begins with a further arm. -/
theorem choiceCode_behind (f : Frame) (o : Operand) (c : Choice) :
    ∃ l rest, l.endsArm = true ∧ f.choiceCode o c true = l :: rest := by
  cases c with
  | go depth => exact ⟨_, _, rfl, rfl⟩
  | test joins t yes no =>
    rw [choiceCode, if_neg (by decide)]
    cases joins with
    | false => exact ⟨.otherwise, _, rfl, rfl⟩
    | true => exact ⟨.elseIf (t.condition o), _, rfl, rfl⟩

/-- **A choice leads to the branches that the outcomes of its tests lead to.** -/
theorem choice (hw : Tested code T o count W) {c : Choice} (hfits : c.Fits count)
    (hgo : ∀ {n depth}, c.Leads T depth → At code n (f.branchCode depth) → W (.line n)) {n : Nat} :
    (At code n (f.choiceCode o c false) → W (.line n)) ∧
      ∀ {rest}, At code n (f.choiceCode o c true ++ rest) → W (.arm n) := by
  induction c generalizing n with
  | go depth =>
    exact ⟨hgo (.go depth), fun hat => hw.otherwise hat.get (hgo (.go depth) hat.tail.left)⟩
  | test joins t yes no ihyes ihno =>
    obtain ⟨ht, hyes, hno⟩ := hfits
    -- from the line of the test on: its first arm, and the line of the next one
    have harms {n : Nat} {first : Line} {rest : List Line}
        (hat : At code n (first :: (f.choiceCode o yes false ++ (f.choiceCode o no true ++ rest)))) :
        (T t true → W (.line (n + 1))) ∧ (T t false → W (nextArm code n)) := by
      refine ⟨fun htrue => (ihyes hyes fun hl => hgo (.yes htrue hl)).1 hat.tail.left,
        fun hfalse => ?_⟩
      have hnext : nextArm code n = .arm (n + 1 + (f.choiceCode o yes false).length) := by
        obtain ⟨l, more, hl, hcode⟩ := choiceCode_behind f o no
        rw [hcode] at hat
        exact nextArm_eq (f.shape_choiceCode o yes).1 hl hat
      rw [hnext]
      exact (ihno hno fun hl => hgo (.no hfalse hl)).2 hat.tail.right
    have hwhole {n : Nat} {rest : List Line} (hat : At code n (.ifThen (t.condition o) ::
        (f.choiceCode o yes false ++ (f.choiceCode o no true ++ .close :: rest)))) : W (.line n) :=
      hw.ifThen ht hat.get (harms hat).1 (harms hat).2
    refine ⟨fun hat => ?_, fun hat => ?_⟩
    · rw [choiceCode, if_pos rfl, List.cons_append, List.append_assoc] at hat
      exact hwhole hat
    · rw [choiceCode, if_neg (by decide)] at hat
      split at hat
      · rw [List.cons_append, List.append_assoc] at hat
        exact hw.elseIf ht hat.get (harms hat).1 (harms hat).2
      · simp only [List.cons_append, List.append_assoc] at hat
        exact hw.otherwise hat.get (hwhole hat.tail)

end Tested

end Flow

namespace Choice

variable {T : TableTest → Bool → Prop} {targets : List Nat} {fallback depth count i : Nat}

theorem Picks.mono {T' : TableTest → Bool → Prop} (h : Picks T count i)
    (hT : ∀ {t b}, t.Fits count → T t b → T' t b) : Picks T' count i := by
  cases h with
  | chain hi hno hyes =>
    exact .chain hi (fun j hj => hT (t := .equals j) (Nat.lt_of_lt_of_le hj hi) (hno j hj))
      fun hlt => hT (t := .equals i) hlt (hyes hlt)
  | outside h => exact .outside (hT (t := .outside count) rfl h)
  | inside hi hin hlow hhigh =>
    exact .inside hi (hT (t := .outside count) rfl hin)
      (fun hpos => hT (t := .below i) (Nat.le_of_lt hi) (hlow hpos))
      fun hlt => hT (t := .below (i + 1)) hi (hhigh hlt)

/-- The tests of an integer pick the arm of its number, or the fallback. -/
theorem Picks.outcome {n : Int} (h : Picks (fun t b => t.outcome n = b) count i) :
    (i : Int) = if 0 ≤ n ∧ n < count then n else count := by
  cases h with
  | chain hi hno hyes =>
    simp only [TableTest.outcome, decide_eq_true_eq, decide_eq_false_iff_not] at hno hyes
    split
    · by_contra hne
      by_cases hlt : i < count
      · exact hne (hyes hlt).symm
      · exact hno n.toNat (by omega) (by omega)
    · by_contra hne
      have := hyes (by omega)
      omega
  | outside hout =>
    simp only [TableTest.outcome, decide_eq_true_eq] at hout
    rw [if_neg (by omega)]
  | inside hi hin hlow hhigh =>
    simp only [TableTest.outcome, decide_eq_true_eq, decide_eq_false_iff_not] at hin hlow hhigh
    rw [if_pos (by omega)]
    omega

theorem fits_chain {first : Nat} {arms : List Nat} (h : first + arms.length ≤ count) :
    (chain fallback first arms).Fits count := by
  induction arms generalizing first with
  | nil => trivial
  | cons target rest ih =>
    rw [List.length_cons] at h
    exact ⟨show first < count by omega, trivial, ih (by omega)⟩

theorem fits_search {target : Nat → Nat} {first size : Nat} (h : first + size ≤ count) :
    (search target first size).Fits count := by
  fun_induction search target first size with
  | case1 => trivial
  | case2 first size hle ihlow ihhigh =>
    exact ⟨show first + size / 2 ≤ count by omega, ihlow (by omega), ihhigh (by omega)⟩

theorem fits_table (limit : Option Nat) (targets : List Nat) (fallback : Nat) :
    (table limit targets fallback).Fits targets.length := by
  unfold table
  split
  · exact ⟨rfl, trivial, fits_search (Nat.le_of_eq (Nat.zero_add _))⟩
  · exact fits_chain (Nat.le_of_eq (Nat.zero_add _))

/-- A chain of tests from the arm of number `first` on, after the tests before it have failed. -/
theorem picks_chain {first : Nat} {arms : List Nat} (harms : arms = targets.drop first)
    (hfirst : first ≤ targets.length) (hfalse : ∀ j < first, T (.equals j) false)
    (h : (chain fallback first arms).Leads T depth) :
    ∃ i, Picks T targets.length i ∧ (targets[i]?).getD fallback = depth := by
  induction arms generalizing first with
  | nil =>
    cases h
    have hend : targets.length ≤ first := List.drop_eq_nil_iff.1 harms.symm
    exact ⟨first, .chain hfirst hfalse fun hlt => absurd hlt (Nat.not_lt.2 hend), by
      rw [List.getElem?_eq_none hend, Option.getD_none]⟩
  | cons target rest ih =>
    have hlt : first < targets.length := by
      by_contra hge
      rw [List.drop_eq_nil_of_le (Nat.not_lt.1 hge)] at harms
      cases harms
    rw [List.drop_eq_getElem_cons hlt] at harms
    obtain ⟨rfl, htail⟩ := List.cons.inj harms
    cases h with
    | yes ht hgo =>
      cases hgo
      exact ⟨first, .chain hfirst hfalse fun _ => ht, by
        rw [List.getElem?_eq_getElem hlt, Option.getD_some]⟩
    | no ht hrest =>
      refine ih htail hlt (fun j hj => ?_) hrest
      rcases Nat.lt_succ_iff_lt_or_eq.1 hj with hj | rfl
      · exact hfalse j hj
      · exact ht

/-- A search tree over the arms from number `first` on, after tests have shown that the operand lies
there. -/
theorem picks_search {target : Nat → Nat} {first size : Nat}
    (hin : T (.outside count) false) (hsize : 0 < size) (hroom : first + size ≤ count)
    (hlow : 0 < first → T (.below first) false)
    (hhigh : first + size < count → T (.below (first + size)) true)
    (h : (search target first size).Leads T depth) : ∃ i, Picks T count i ∧ target i = depth := by
  fun_induction search target first size with
  | case1 first size hle =>
    obtain rfl : size = 1 := by omega
    cases h
    exact ⟨first, .inside hroom hin hlow hhigh, rfl⟩
  | case2 first size hle ihlow ihhigh =>
    cases h with
    | yes ht h => exact ihlow (by omega) (by omega) hlow (fun _ => ht) h
    | no ht h =>
      have hsum : first + size / 2 + (size - size / 2) = first + size := by omega
      refine ihhigh (by omega) (by omega) (fun _ => ht) (fun hlt => ?_) h
      rw [hsum] at hlt ⊢
      exact hhigh hlt

/-- **A table leads to the arms that its tests pick**, in both forms. -/
theorem picks_table {limit : Option Nat} (h : (table limit targets fallback).Leads T depth) :
    ∃ i, Picks T targets.length i ∧ (targets[i]?).getD fallback = depth := by
  unfold table at h
  split at h
  · rename_i hlimit
    obtain ⟨n, -, hn⟩ := (Option.any_eq_true _ _).1 hlimit
    have hpos : 0 < targets.length := Nat.lt_of_le_of_lt (Nat.zero_le n) (of_decide_eq_true hn)
    cases h with
    | yes ht h =>
      cases h
      exact ⟨_, .outside ht, by rw [List.getElem?_eq_none (Nat.le_refl _), Option.getD_none]⟩
    | no ht h =>
      exact picks_search ht hpos (Nat.le_of_eq (Nat.zero_add _)) nofun
        (fun hlt => absurd hlt (by omega)) h
  · exact picks_chain rfl (Nat.zero_le _) nofun h

end Choice

namespace Frame

open Moonstack.Flow

variable {f : Frame} {code : List Line} {holds : Expr → Option Bool} {n fallback : Nat}
  {o : Operand} {i : Int}

/-- A branch leaves the code, whatever the tests are. -/
theorem visits_branchCode (hcode : Shape [] code) {depth : Nat}
    (hat : At code n (f.branchCode depth)) : Visits code holds (.line n) (f.branchCode depth) := by
  have hgoto (n : Nat) (l : Label) : follow code n (.goto l) = none := by
    simp [follow, labelAt_eq_none hcode]
  unfold branchCode at hat ⊢
  cases hb : f.blocks[depth]? with
  | none =>
    simp only [hb] at hat ⊢
    by_cases hd : depth = f.blocks.length
    · rw [if_pos hd] at hat ⊢
      exact .exit hat.get rfl
    · rw [if_neg hd] at hat ⊢
      exact .comment hat.get (.exit hat.tail.get rfl)
  | some target =>
    simp only [hb] at hat ⊢
    cases hr : target.branchRegister with
    | none =>
      rw [hr] at hat
      exact .exit hat.get (hgoto _ _)
    | some id =>
      rw [hr] at hat
      simp only [Option.elim_some, Emit.copied] at hat ⊢
      by_cases hv : (f.peek 0).1 ≠ .slot (f.registers.slotOf id)
      · rw [if_pos hv] at hat ⊢
        exact .stmt hat.get rfl (.exit hat.tail.get (hgoto _ _))
      · rw [if_neg hv] at hat ⊢
        exact .exit hat.get (hgoto _ _)

/-- A test holds or fails, if the operand is `i`. -/
theorem holdsAt_condition (o : Operand) (i : Int) (t : TableTest) :
    (t.condition o).holdsAt o i = some (t.outcome i) := by
  cases t <;> simp [TableTest.condition, TableTest.outcome, Expr.holdsAt, Expr.valueAt,
    InfixOp.compares, beq_eq_decide, Bool.decide_or]

/-- The arm that the tests lead to is the one that the operand selects. -/
theorem tableTarget_of_picks {targets : List Nat} {k : Nat}
    (h : Choice.Picks (fun t b => t.outcome i = b) targets.length k) :
    tableTarget targets fallback i = (targets[k]?).getD fallback := by
  have hk := h.outcome
  unfold tableTarget
  split at hk
  · rw [if_pos (by omega), show i.toNat = k by omega]
  · rw [List.getElem?_eq_none (i := k) (by omega)]
    split
    · rw [List.getElem?_eq_none (by omega)]
    · rfl

/-- Both forms of a table send control to the branch that the operand selects. -/
theorem visits_table (f : Frame) (limit : Option Nat) (o : Operand) (targets : List Nat)
    (fallback : Nat) (i : Int) :
    Visits (f.choiceCode o (.table limit targets fallback) false) (Expr.holdsAt o i) (.line 0)
      (f.branchCode (tableTarget targets fallback i)) := by
  have hcode := (f.shape_choiceCode o (.table limit targets fallback)).1
  have harm {code lines : List Line} {t : TableTest} {p q : Flow.Place}
      (hyes : t.outcome i = true → Visits code (Expr.holdsAt o i) p lines)
      (hno : t.outcome i = false → Visits code (Expr.holdsAt o i) q lines) :
      Visits code (Expr.holdsAt o i) (if t.outcome i then p else q) lines := by
    cases h : t.outcome i with
    | true => exact hyes h
    | false => exact hno h
  refine (Tested.choice (T := fun t b => t.outcome i = b)
    (W := fun p => Visits _ (Expr.holdsAt o i) p (f.branchCode (tableTarget targets fallback i)))
    ⟨fun _ hl hyes hno => .ifThen hl (holdsAt_condition o i _) (harm hyes hno),
      fun _ hl hyes hno => .elseIf hl (holdsAt_condition o i _) (harm hyes hno), Visits.otherwise⟩
    (Choice.fits_table limit targets fallback) fun hl hat => ?_).1 (At.all _)
  obtain ⟨k, hp, rfl⟩ := Choice.picks_table hl
  rw [tableTarget_of_picks hp]
  exact visits_branchCode hcode hat

end Frame

/-- **Branch tables select.** For every integer that the operand may be, control visits from the
start of the table exactly the lines of the branch that the integer selects. How the table is written
does not matter, neither for the lines that are visited nor for the number of warnings. -/
theorem selects_branchTable {env : Env} {targets : List Nat} (fallback : Nat)
    (hlimit : targets.length + 1 ≤ env.options.branchTableLimit) (f : Frame) :
    ∃ g code, Emit.Writes (Emit.branchTable env targets fallback) f () g code ∧
      (∀ i : Int, ∃ h taken,
        Emit.Writes (Emit.branch (tableTarget targets fallback i)) f.popped () h taken ∧
        ∀ lines, Flow.Visits code (Expr.holdsAt f.top i) (.line 0) lines ↔ lines = taken) ∧
      ∀ env' : Env, targets.length + 1 ≤ env'.options.branchTableLimit →
        ∃ g' code', Emit.Writes (Emit.branchTable env' targets fallback) f () g' code' ∧
          g'.warnings = g.warnings ∧
          ∀ (i : Int) (lines : List Line), Flow.Visits code' (Expr.holdsAt f.top i) (.line 0) lines ↔
            Flow.Visits code (Expr.holdsAt f.top i) (.line 0) lines := by
  have hvisits (limit : Option Nat) (i : Int) (lines : List Line) :
      Flow.Visits (f.popped.choiceCode f.top (.table limit targets fallback) false)
        (Expr.holdsAt f.top i) (.line 0) lines ↔
          lines = f.popped.branchCode (tableTarget targets fallback i) := by
    have hp := f.popped.visits_table limit f.top targets fallback i
    exact ⟨fun h => h.unique hp, fun h => h ▸ hp⟩
  obtain ⟨g, -, hw, hg⟩ := Emit.writes_branchTable f (Nat.not_lt.2 hlimit)
  refine ⟨g, _, hw, fun i => ?_, fun env' hlimit' => ?_⟩
  · obtain ⟨h, -, hb⟩ := Emit.branches_branch f.popped (tableTarget targets fallback i)
    exact ⟨h, _, hb, hvisits _ i⟩
  · obtain ⟨g', -, hw', hg'⟩ := Emit.writes_branchTable f (Nat.not_lt.2 hlimit')
    refine ⟨g', _, hw', hg'.trans hg.symm, fun i lines => ?_⟩
    rw [hvisits, hvisits]

/-- The number one in a search tree over two targets, with two blocks open. -/
theorem selects_branchTable_tree :
    let env : Env := { options := { bisectAbove := some 1 }, registry := {} }
    let f : Frame := { Frame.start "f" none [] .pooled with
      stack := [.literal (.const (.i32 1))]
      blocks := [⟨⟨.loop, 4⟩, 1, none, none, false⟩, ⟨⟨.block, 2⟩, 1, none, none, false⟩] }
    ∃ g code, Emit.Writes (Emit.branchTable env [0, 1] 2) f () g code ∧
      ∃ h taken, Emit.Writes (Emit.branch 1) f.popped () h taken ∧
        ∀ lines, Flow.Visits code (Expr.holdsAt f.top 1) (.line 0) lines ↔ lines = taken := by
  intro env f
  obtain ⟨g, code, hw, hselects, -⟩ :=
    @selects_branchTable env [0, 1] 2 (by decide) f
  exact ⟨g, code, hw, hselects 1⟩

end Moonstack
