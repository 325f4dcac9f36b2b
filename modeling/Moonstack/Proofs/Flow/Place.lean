import Moonstack.Code.Line

/-!
# Places in generated code

Where control can be in a list of lines, and where lines send it. A place is the number of a line,
or the number of a line at which control looks for the next arm of an `if`.

`Shape labels code` says that `code` opens and closes in pairs and holds at most the given labels:
control can be sent past it, and the same structures are open behind it. `Inner labels code` says so
of code between an opening and its close, which may begin new arms.
-/

namespace Moonstack

namespace Line

def label? : Line → Option Label
  | label l => some l
  | _ => none

def endsArm : Line → Bool
  | elseIf _ | otherwise | close => true
  | _ => false

def isClose : Line → Bool
  | close => true
  | _ => false

/-- The level of nesting behind a line, from the level in front of it. -/
def level (l : Line) (depth : Nat) : Nat :=
  match l with
  | ifThen _ | forever => depth + 1
  | close => depth - 1
  | _ => depth

/-- The open structures behind the line of the given number, from those in front of it, the
innermost first. An endless loop is known by its line. -/
def opening (l : Line) (n : Nat) (outer : List (Option Nat)) : List (Option Nat) :=
  match l with
  | ifThen _ => none :: outer
  | forever => some n :: outer
  | close => outer.tail
  | _ => outer

/-- Does the line take no part in the nesting? -/
def isFlat : Line → Bool
  | ifThen _ | elseIf _ | otherwise | forever | close | arm _ _ _ => false
  | _ => true

end Line

namespace Flow

/-- Where control is. -/
inductive Place where
  | line (n : Nat)
  /-- at the line of a number, after the tests of the arms before it have failed -/
  | arm (n : Nat)

/-- The number of the line of a label. -/
def labelAt (code : List Line) (l : Label) : Option Nat :=
  code.findIdx? fun line => line.label? == some l

/-- The number of lines in front of the first one on level zero that `stop` accepts. -/
def seek (stop : Line → Bool) : Nat → List Line → Nat
  | _, [] => 0
  | depth, l :: rest =>
    if depth = 0 ∧ stop l = true then 0 else seek stop (l.level depth) rest + 1

/-- The structures that are open behind lines, the first of which has the given number. -/
def opened : Nat → List (Option Nat) → List Line → List (Option Nat)
  | _, outer, [] => outer
  | n, outer, l :: rest => opened (n + 1) (l.opening n outer) rest

theorem opened_append (n : Nat) (outer : List (Option Nat)) (code more : List Line) :
    opened n outer (code ++ more) = opened (n + code.length) (opened n outer code) more := by
  induction code generalizing n outer with
  | nil => rfl
  | cons l rest ih =>
    rw [List.cons_append, opened, ih, opened, List.length_cons, Nat.add_assoc, Nat.add_comm 1]

/-- Code that never goes below the level `floor` and ends on the level it started on, with at most
the given labels. -/
structure Nested (floor : Nat) (labels : List Label) (code : List Line) : Prop where
  seeks : ∀ stop : Line → Bool, (∀ l, stop l = true → l.endsArm = true) → ∀ depth, floor ≤ depth →
    ∀ rest, seek stop depth (code ++ rest) = seek stop depth rest + code.length
  opens : ∀ n outer, opened n outer code = outer
  labels : (code.filterMap Line.label?).Sublist labels

/-- Code that opens and closes in pairs. -/
abbrev Shape := Nested 0

/-- Code inside an arm. -/
abbrev Inner := Nested 1

namespace Nested

variable {floor : Nat} {labels more : List Label} {code rest : List Line}

theorem inner (h : Shape labels code) : Inner labels code :=
  { h with seeks := fun stop hs depth _ => h.seeks stop hs depth (Nat.zero_le _) }

theorem nil : Nested floor [] [] where
  seeks _ _ _ _ _ := rfl
  opens _ _ := rfl
  labels := .slnil

theorem append (h : Nested floor labels code) (h' : Nested floor more rest) :
    Nested floor (labels ++ more) (code ++ rest) where
  seeks stop hs depth hd tail := by
    rw [List.append_assoc, h.seeks stop hs depth hd, h'.seeks stop hs depth hd, List.length_append]
    omega
  opens n outer := by rw [opened_append, h.opens, h'.opens]
  labels := by
    rw [List.filterMap_append]
    exact h.labels.append h'.labels

/-- A line between two arms stays inside. -/
theorem between {l : Line} (h : ∀ depth, l.level depth = depth)
    (h' : ∀ n outer, l.opening n outer = outer) (hl : l.label? = none) : Inner [] [l] where
  seeks stop _ depth hd rest := by
    have hne : depth ≠ 0 := by omega
    simp only [List.singleton_append, seek, hne, false_and, if_false, h, List.length_singleton]
  opens n outer := by simp only [opened, h']
  labels := (List.filterMap_cons_none hl).symm ▸ .slnil

theorem elseIf (c : Expr) : Inner [] [.elseIf c] := between (fun _ => rfl) (fun _ _ => rfl) rfl

theorem otherwise : Inner [] [.otherwise] := between (fun _ => rfl) (fun _ _ => rfl) rfl

theorem weaken (h : Nested floor labels code) (hl : labels.Sublist more) : Nested floor more code :=
  { h with labels := h.labels.trans hl }

theorem flat {l : Line} (h : l.isFlat = true) : Nested floor l.label?.toList [l] where
  seeks stop hs depth _ rest := by
    have hn : stop l = false := by
      cases hsl : stop l with
      | false => rfl
      | true =>
        have he := hs l hsl
        cases l <;> simp [Line.isFlat, Line.endsArm] at h he
    have hl : l.level depth = depth := by cases l <;> simp [Line.isFlat] at h <;> rfl
    simp only [List.singleton_append, seek, hn, Bool.false_eq_true, and_false, if_false, hl,
      List.length_singleton]
  opens n outer := by cases l <;> simp [Line.isFlat] at h <;> rfl
  labels := by cases l <;> simp [Line.label?]

theorem stmt (s : Stmt) : Nested floor [] [.stmt s] := flat (l := .stmt s) rfl

theorem comment (text : String) : Nested floor [] [.comment text] :=
  flat (l := .comment text) rfl

theorem label (l : Label) : Nested floor [l] [.label l] := flat (l := .label l) rfl

theorem leave : Nested floor [] [.leave] := flat (l := .leave) rfl

/-- What is opened and closed again around inner code. -/
theorem enclose {l : Line} (h : Inner labels code) (hn : ∀ depth, l.level depth = depth + 1)
    (ho : ∀ n outer, (l.opening n outer).tail = outer) (hs : l.endsArm = false)
    (hl : l.label? = none) : Shape labels (l :: code ++ [.close]) where
  seeks stop hstop depth _ rest := by
    have hstart : stop l = false := by
      cases hsl : stop l with
      | false => rfl
      | true => exact absurd (hstop _ hsl) (by simp [hs])
    simp only [List.cons_append, List.append_assoc, seek, hstart, Bool.false_eq_true, and_false,
      if_false, hn, h.seeks stop hstop _ (Nat.le_add_left 1 _), List.nil_append,
      Nat.add_eq_zero_iff, Nat.one_ne_zero, and_false, false_and, List.length_cons,
      List.length_append, List.length_nil]
    simp only [Line.level, Nat.add_sub_cancel]
    omega
  opens n outer := by
    rw [List.cons_append, opened, opened_append, h.opens, opened, opened]
    exact ho n outer
  labels := by
    rw [List.cons_append, List.filterMap_cons_none hl, List.filterMap_append,
      show [Line.close].filterMap Line.label? = [] from rfl, List.append_nil]
    exact h.labels

theorem ifThen (h : Inner labels code) (c : Expr) : Shape labels (.ifThen c :: code ++ [.close]) :=
  enclose h (fun _ => rfl) (fun _ _ => rfl) rfl rfl

theorem forever (h : Inner labels code) : Shape labels (.forever :: code ++ [.close]) :=
  enclose h (fun _ => rfl) (fun _ _ => rfl) rfl rfl

end Nested

end Flow

end Moonstack
