import Moonstack.Proofs.Flow.Place

/-!
# Steps of control

How control goes through a list of lines, whatever the statements compute. At a place, the condition
`test` is looked at, if there is one; by its outcome the statement `action` is run, and control goes
on at `next`, or nowhere: a `return` and a call of `error` end the run, and so does the end of the
code.

`At code n part` says that the lines `part` stand in the code from line `n` on. The lemmas about
`next` say where control goes in code of a known shape.
-/

namespace Moonstack

/-- Is it the call that stops the program with a message? -/
def Expr.stops : Expr → Bool
  | call (name "error") [string _] => true
  | _ => false

/-- Does control go on at the next line after the statement? -/
def Stmt.goesOn : Stmt → Bool
  | goto _ | ret _ => false
  | run e => !e.stops
  | assign _ _ | capture _ _ _ => true

namespace Flow

section Definitions

variable (code : List Line)

/-- The condition that is looked at. -/
def test : Place → Option Expr
  | .line n =>
    match code[n]? with
    | some (.guard c _) | some (.choice c _ _) | some (.ifThen c) => some c
    | _ => none
  | .arm n =>
    match code[n]? with
    | some (.elseIf c) => some c
    | _ => none

/-- The statement that is run, by the outcome of the condition. -/
def action : Place → Bool → Option Stmt
  | .line n, b =>
    match code[n]? with
    | some (.stmt s) => some s
    | some (.guard _ s) => if b then some s else none
    | some (.choice _ s t) => some (if b then s else t)
    | _ => none
  | .arm _, _ => none

/-- Where control goes after a statement on the line of the given number. -/
def follow (n : Nat) : Stmt → Option Place
  | .goto target => (labelAt code target).map .line
  | s => if s.goesOn then some (.line (n + 1)) else none

/-- The next arm or close behind the line of the given number. -/
def nextArm (n : Nat) : Place := .arm (n + 1 + seek Line.endsArm 0 (code.drop (n + 1)))

/-- The place behind the close that is `depth` levels further out than the line of the given number.
-/
def behindClose (n depth : Nat) : Place :=
  .line (n + 1 + seek Line.isClose depth (code.drop (n + 1)) + 1)

/-- The structures that are open in front of the line of the given number. -/
def openAt (n : Nat) : List (Option Nat) := opened 0 [] (code.take n)

/-- Where control goes, by the outcome of the condition. The arms of the head that resumes a function
are not followed. -/
def next : Place → Bool → Option Place
  | .line n, b =>
    match code[n]? with
    | some (.stmt s) => follow code n s
    | some (.guard _ s) => if b then follow code n s else some (.line (n + 1))
    | some (.choice _ s t) => follow code n (if b then s else t)
    | some (.ifThen _) => some (if b then .line (n + 1) else nextArm code n)
    | some (.elseIf _) | some .otherwise => some (behindClose code n 0)
    | some .leave =>
      -- the ifs between here and the innermost loop close first
      if (openAt code n).any Option.isSome then
        some (behindClose code n ((openAt code n).takeWhile Option.isNone).length)
      else none
    | some .close =>
      match openAt code n with
      | some start :: _ => some (.line start)
      | _ => some (.line (n + 1))
    | some .forever | some (.label _) | some (.declare _) | some (.comment _) =>
      some (.line (n + 1))
    | some (.arm _ _ _) | none => none
  | .arm n, b =>
    match code[n]? with
    | some (.elseIf _) => some (if b then .line (n + 1) else nextArm code n)
    | some .otherwise | some .close => some (.line (n + 1))
    | _ => none

/-- The lines `part` stand in the code from the line of the given number on. -/
def At (n : Nat) (part : List Line) : Prop := ∃ rest, code.drop n = part ++ rest

end Definitions

variable {code part more : List Line} {n : Nat} {l : Line}

namespace At

theorem left (h : At code n (part ++ more)) : At code n part := by
  obtain ⟨rest, hr⟩ := h
  exact ⟨more ++ rest, by rw [hr, List.append_assoc]⟩

theorem right (h : At code n (part ++ more)) : At code (n + part.length) more := by
  obtain ⟨rest, hr⟩ := h
  refine ⟨rest, ?_⟩
  rw [← List.drop_drop, hr, List.append_assoc, List.drop_left]

theorem tail (h : At code n (l :: part)) : At code (n + 1) part :=
  right (show At code n ([l] ++ part) from h)

theorem get (h : At code n (l :: part)) : code[n]? = some l := by
  obtain ⟨rest, hr⟩ := h
  have hz : (code.drop n)[0]? = some l := by rw [hr]; rfl
  rwa [List.getElem?_drop] at hz

theorem all (code : List Line) : At code 0 code := ⟨[], by simp⟩

/-- A line that stands behind other lines. -/
theorem get_after (h : At code n (part ++ l :: more)) : code[n + part.length]? = some l :=
  h.right.get

/-- The lines behind a line. -/
theorem drop_succ (h : At code n (l :: part)) : ∃ rest, code.drop (n + 1) = part ++ rest := h.tail

end At

/-- The structures that are open behind a part. -/
theorem openAt_after (h : At code n part) :
    openAt code (n + part.length) = opened n (openAt code n) part := by
  obtain ⟨rest, hr⟩ := h
  have htake : code.take (n + part.length) = code.take n ++ part := by
    rw [List.take_add, hr, List.take_left]
  rw [openAt, htake, opened_append, ← openAt, Nat.zero_add]
  by_cases hn : n ≤ code.length
  · rw [List.length_take, Nat.min_eq_left hn]
  · -- past the end of the code there is no part
    have hpart : part = [] := by
      rw [List.drop_eq_nil_of_le (by omega)] at hr
      exact (List.append_eq_nil_iff.1 hr.symm).1
    subst hpart
    rfl

/-- The line of a label that the code holds once. -/
theorem labelAt_of_nodup {target : Label} (hd : (code.filterMap Line.label?).Nodup)
    (h : code[n]? = some (.label target)) : labelAt code target = some n := by
  unfold labelAt
  induction code generalizing n with
  | nil => simp at h
  | cons a rest ih =>
    rw [List.findIdx?_cons]
    cases n with
    | zero =>
      simp only [List.getElem?_cons_zero, Option.some.injEq] at h
      subst h
      simp [Line.label?]
    | succ n =>
      rw [List.getElem?_cons_succ] at h
      have hmem : target ∈ rest.filterMap Line.label? :=
        List.mem_filterMap.2 ⟨_, List.mem_of_getElem? h, rfl⟩
      have hrest : (rest.filterMap Line.label?).Nodup := by
        cases ha : a.label? with
        | none => rwa [List.filterMap_cons_none ha] at hd
        | some t =>
          rw [List.filterMap_cons_some ha] at hd
          exact (List.nodup_cons.1 hd).2
      have hne : (a.label? == some target) = false := by
        cases ha : a.label? with
        | none => rfl
        | some t =>
          rw [List.filterMap_cons_some ha] at hd
          simp only [Option.some_beq_some, beq_eq_false_iff_ne]
          rintro rfl
          exact (List.nodup_cons.1 hd).1 hmem
      rw [hne, ih hrest h]
      rfl

section Next

variable {s t : Stmt} {c : Expr} {target : Label} {b : Bool} {labels : List Label} {rest : List Line}

theorem follow_of_goesOn (h : s.goesOn = true) : follow code n s = some (.line (n + 1)) := by
  cases s with
  | goto target => cases h
  | _ => simp only [follow, h, if_true]

theorem seek_part {stop : Line → Bool} (hstop : ∀ l, stop l = true → l.endsArm = true)
    (hs : Shape labels part) (hl : stop l = true) (h : At code n (part ++ l :: rest)) :
    seek stop 0 (code.drop n) = part.length := by
  obtain ⟨tail, ht⟩ := h
  rw [ht, List.append_assoc, hs.seeks stop hstop 0 (Nat.le_refl _), List.cons_append, seek,
    if_pos ⟨rfl, hl⟩, Nat.zero_add]

theorem nextArm_eq {first : Line} (hs : Shape labels part) (hl : l.endsArm = true)
    (h : At code n (first :: part ++ l :: rest)) : nextArm code n = .arm (n + 1 + part.length) := by
  rw [nextArm, seek_part (fun _ h => h) hs hl h.tail]

/-- A loop that is left at its end. -/
theorem next_leave (hs : Shape labels part)
    (h : At code n (.forever :: part ++ .leave :: .close :: rest)) :
    next code (.line (n + 1 + part.length)) b = some (.line (n + 1 + part.length + 2)) := by
  have hline : code[n + 1 + part.length]? = some .leave := h.tail.get_after
  have hopen : openAt code (n + 1 + part.length) = some n :: openAt code n := by
    have ho := openAt_after (show At code n (.forever :: part) from h.left)
    rw [List.length_cons, Nat.add_comm part.length, ← Nat.add_assoc] at ho
    rw [ho, opened, hs.opens]
    rfl
  have hseek : seek Line.isClose 0 (code.drop (n + 1 + part.length + 1)) = 0 := by
    obtain ⟨tail, ht⟩ := h.tail.right.drop_succ
    rw [ht]
    rfl
  simp only [next, hline, hopen, List.any_cons, Option.isSome_some, Bool.true_or, if_true,
    List.takeWhile_cons, Option.isNone_some, Bool.false_eq_true, if_false, List.length_nil,
    behindClose, hseek]

end Next

end Flow

end Moonstack
