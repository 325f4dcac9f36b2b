import Moonstack.Proofs.Flow.Place

/-!
# Scopes of labels

Lua nests its blocks, and a `goto` reaches a label of the block it is in or of a block around it.

* `scopes` are the blocks that are open behind lines. An `else` line replaces an arm of an `if`, so
  it needs one that is open and not the last; an `end` closes what is open, and a `break` needs a
  loop. It has no value if a line is out of place.
* `Nests code` says that `code` can stand anywhere and leaves open what was open before it.
* `Closed outside code` adds that every `goto` in it goes to a label of `outside`, or to one in
  `code` that is visible from there. `Exposed t code` says that the label is in no block of `code`.
-/

namespace Moonstack

/-- The label that a statement jumps to. -/
def Stmt.target? : Stmt → Option Label
  | goto t => some t
  | _ => none

namespace Flow

/-- What opens a block of Lua. -/
inductive Scope.Kind where
  | arm
  | lastArm
  | loop
deriving DecidableEq

/-- An open block, known by the line that opened it. -/
structure Scope where
  line : Nat
  kind : Scope.Kind
deriving DecidableEq

end Flow

namespace Line

def targets : Line → List Label
  | stmt s | guard _ s | arm _ _ s => s.target?.toList
  | choice _ s t => s.target?.toList ++ t.target?.toList
  | label _ | ifThen _ | elseIf _ | otherwise | forever | leave | close | declare _ | comment _ => []

/-- The open blocks behind the line of the given number, from those in front of it, the innermost
first. -/
def scope (l : Line) (n : Nat) (outer : List Flow.Scope) : Option (List Flow.Scope) :=
  match l with
  | ifThen _ | arm true _ _ => some (⟨n, .arm⟩ :: outer)
  | elseIf _ | arm false _ _ =>
    match outer with
    | ⟨_, .arm⟩ :: rest => some (⟨n, .arm⟩ :: rest)
    | _ => none
  | otherwise =>
    match outer with
    | ⟨_, .arm⟩ :: rest => some (⟨n, .lastArm⟩ :: rest)
    | _ => none
  | forever => some (⟨n, .loop⟩ :: outer)
  | leave => if outer.any fun s => s.kind = .loop then some outer else none
  | close =>
    match outer with
    | _ :: rest => some rest
    | [] => none
  | stmt _ | label _ | guard _ _ | choice _ _ _ | declare _ | comment _ => some outer

end Line

namespace Flow

/-- The open blocks behind lines, the first of which has the given number. -/
def scopes : Nat → List Scope → List Line → Option (List Scope)
  | _, outer, [] => some outer
  | n, outer, l :: rest => (l.scope n outer).bind fun inner => scopes (n + 1) inner rest

theorem scopes_append (n : Nat) (outer : List Scope) (code more : List Line) :
    scopes n outer (code ++ more) =
      (scopes n outer code).bind fun inner => scopes (n + code.length) inner more := by
  induction code generalizing n outer with
  | nil => rfl
  | cons l rest ih =>
    simp only [List.cons_append, scopes, ih, List.length_cons, Option.bind_assoc]
    congr 1
    funext inner
    rw [Nat.add_assoc, Nat.add_comm 1]

/-- From the open blocks `outer`, the lines lead to `inner`, and never close one of `base`. -/
structure Spans (base : List Scope) (n : Nat) (outer : List Scope) (code : List Line)
    (inner : List Scope) : Prop where
  ends : scopes n outer code = some inner
  above : ∀ k, ∃ own, scopes n outer (code.take k) = some (own ++ base)

namespace Spans

variable {base outer mid inner own : List Scope} {n : Nat} {l : Line} {code more : List Line}

theorem nil (n : Nat) (own base : List Scope) : Spans base n (own ++ base) [] (own ++ base) :=
  ⟨rfl, fun _ => ⟨own, by simp [scopes]⟩⟩

theorem append (h : Spans base n outer code mid) (h' : Spans base (n + code.length) mid more inner) :
    Spans base n outer (code ++ more) inner where
  ends := by rw [scopes_append, h.ends]; exact h'.ends
  above k := by
    by_cases hk : k ≤ code.length
    · rw [List.take_append_of_le_length hk]
      exact h.above k
    · obtain ⟨j, rfl⟩ : ∃ j, k = code.length + j := ⟨k - code.length, by omega⟩
      rw [List.take_length_add_append, scopes_append, h.ends]
      exact h'.above j

theorem single (before after : List Scope)
    (hl : l.scope n (before ++ base) = some (after ++ base)) :
    Spans base n (before ++ base) [l] (after ++ base) where
  ends := by rw [scopes, hl]; rfl
  above k := by
    cases k with
    | zero => exact ⟨before, rfl⟩
    | succ k => exact ⟨after, by simp [scopes, hl]⟩

/-- To stay inside more blocks is to stay inside fewer. -/
theorem mono (h : Spans (own ++ base) n outer code inner) : Spans base n outer code inner where
  ends := h.ends
  above k := by
    obtain ⟨own', hk⟩ := h.above k
    exact ⟨own' ++ own, by rw [hk, List.append_assoc]⟩

end Spans

/-- Code that opens and closes blocks in pairs. -/
def Nests (code : List Line) : Prop := ∀ n outer, Spans outer n outer code outer

/-- Code that ends an `if` from behind one of its arms. -/
def Ends (code : List Line) : Prop :=
  ∀ n outer line, Spans outer n (⟨line, .arm⟩ :: outer) code outer

section

variable {code more : List Line} {l : Line}

theorem nests_nil : Nests [] := fun n outer => .nil n [] outer

/-- Lines that open and close nothing. -/
theorem nests_of_still (h : ∀ l ∈ code, ∀ n outer, l.scope n outer = some outer) : Nests code := by
  induction code with
  | nil => exact nests_nil
  | cons l rest ih =>
    intro n outer
    have hl : Spans outer n outer [l] outer := .single [] [] (h l (by simp) n outer)
    exact hl.append (ih (fun m hm => h m (by simp [hm])) (n + 1) outer)

theorem Nests.append (h : Nests code) (h' : Nests more) : Nests (code ++ more) :=
  fun n outer => (h n outer).append (h' _ outer)

theorem Nests.loop (h : Nests code) : Nests (.forever :: (code ++ [.leave, .close])) := by
  intro n outer
  have hopen : Spans outer n outer [.forever] ([⟨n, .loop⟩] ++ outer) :=
    .single [] [⟨n, .loop⟩] rfl
  have hleave : ∀ m, Spans outer m ([⟨n, .loop⟩] ++ outer) [.leave] ([⟨n, .loop⟩] ++ outer) :=
    fun m => .single [⟨n, .loop⟩] [⟨n, .loop⟩] (by simp [Line.scope])
  have hclose : ∀ m, Spans outer m ([⟨n, .loop⟩] ++ outer) [.close] outer :=
    fun m => .single [⟨n, .loop⟩] [] rfl
  have hbody : Spans outer (n + 1) ([⟨n, .loop⟩] ++ outer) code ([⟨n, .loop⟩] ++ outer) :=
    (h (n + 1) _).mono
  exact hopen.append (hbody.append ((hleave _).append (hclose _)))

/-- An arm that one of `more` ends. -/
theorem Spans.arm {n : Nat} {outer : List Scope} (before : List Scope)
    (hl : l.scope n (before ++ outer) = some (⟨n, .arm⟩ :: outer)) (h : Nests code)
    (h' : Ends more) : Spans outer n (before ++ outer) (l :: (code ++ more)) outer := by
  have hopen : Spans outer n (before ++ outer) [l] ([⟨n, .arm⟩] ++ outer) :=
    .single before [⟨n, .arm⟩] hl
  have hbody : Spans outer (n + 1) ([⟨n, .arm⟩] ++ outer) code ([⟨n, .arm⟩] ++ outer) :=
    (h (n + 1) _).mono
  exact hopen.append (hbody.append (h' _ outer n))

theorem Nests.ifThen (c : Expr) (h : Nests code) (h' : Ends more) :
    Nests (.ifThen c :: (code ++ more)) :=
  fun _ _ => Spans.arm [] rfl h h'

theorem Nests.arm (c : Expr) (s : Stmt) (h : Ends code) : Nests (.arm true c s :: code) :=
  fun _ _ => Spans.arm [] rfl nests_nil h

theorem ends_close : Ends [.close] :=
  fun _ _ line => .single [⟨line, .arm⟩] [] rfl

theorem Ends.elseIf (c : Expr) (h : Nests code) (h' : Ends more) :
    Ends (.elseIf c :: (code ++ more)) :=
  fun _ _ line => Spans.arm [⟨line, .arm⟩] rfl h h'

theorem Ends.arm (c : Expr) (s : Stmt) (h : Ends code) : Ends (.arm false c s :: code) :=
  fun _ _ line => Spans.arm [⟨line, .arm⟩] rfl nests_nil h

theorem ends_otherwise (h : Nests code) : Ends (.otherwise :: (code ++ [.close])) := by
  intro n outer line
  have hopen : Spans outer n ([⟨line, .arm⟩] ++ outer) [.otherwise] ([⟨n, .lastArm⟩] ++ outer) :=
    .single [⟨line, .arm⟩] [⟨n, .lastArm⟩] rfl
  have hclose : ∀ m, Spans outer m ([⟨n, .lastArm⟩] ++ outer) [.close] outer :=
    fun m => .single [⟨n, .lastArm⟩] [] rfl
  have hbody : Spans outer (n + 1) ([⟨n, .lastArm⟩] ++ outer) code ([⟨n, .lastArm⟩] ++ outer) :=
    (h (n + 1) _).mono
  exact hopen.append (hbody.append (hclose _))

end

/-- From line `i` the label can be reached: the block it is in is open there. -/
def Sees (code : List Line) (i : Nat) (t : Label) : Prop :=
  ∃ j, code[j]? = some (.label t) ∧ ∀ n outer, ∃ around own,
    scopes n outer (code.take j) = some around ∧
    scopes n outer (code.take (i + 1)) = some (own ++ around)

def Exposed (t : Label) (code : List Line) : Prop :=
  ∃ j, code[j]? = some (.label t) ∧ ∀ n outer, scopes n outer (code.take j) = some outer

/-- Code that can stand anywhere, with every `goto` to a label outside or to one it can reach. -/
structure Closed (outside : List Label) (code : List Line) : Prop where
  nests : Nests code
  reach : ∀ i l, code[i]? = some l → ∀ t ∈ l.targets, t ∈ outside ∨ Sees code i t

section

variable {outside : List Label} {code more : List Line} {t : Label} {i : Nat}

theorem exposed_label (t : Label) : Exposed t [.label t] := ⟨0, rfl, fun _ _ => rfl⟩

theorem Exposed.left (h : Exposed t code) (more : List Line) : Exposed t (code ++ more) := by
  obtain ⟨j, hj, hs⟩ := h
  have hlt : j < code.length := (List.getElem?_eq_some_iff.1 hj).1
  refine ⟨j, by rw [List.getElem?_append_left hlt, hj], fun n outer => ?_⟩
  rw [List.take_append_of_le_length (Nat.le_of_lt hlt)]
  exact hs n outer

theorem Exposed.right (h : Exposed t more) (hc : Nests code) : Exposed t (code ++ more) := by
  obtain ⟨j, hj, hs⟩ := h
  have hat : (code ++ more)[code.length + j]? = some (.label t) := by
    rw [List.getElem?_append_right (Nat.le_add_right _ _), Nat.add_sub_cancel_left, hj]
  refine ⟨code.length + j, hat, fun n outer => ?_⟩
  rw [List.take_length_add_append, scopes_append, (hc n outer).ends]
  exact hs _ outer

theorem Sees.left (h : Sees code i t) (hi : i < code.length) (more : List Line) :
    Sees (code ++ more) i t := by
  obtain ⟨j, hj, hs⟩ := h
  have hlt : j < code.length := (List.getElem?_eq_some_iff.1 hj).1
  refine ⟨j, by rw [List.getElem?_append_left hlt, hj], fun n outer => ?_⟩
  rw [List.take_append_of_le_length (Nat.le_of_lt hlt), List.take_append_of_le_length hi]
  exact hs n outer

theorem Sees.right (h : Sees more i t) (hc : Nests code) :
    Sees (code ++ more) (code.length + i) t := by
  obtain ⟨j, hj, hs⟩ := h
  have hat : (code ++ more)[code.length + j]? = some (.label t) := by
    rw [List.getElem?_append_right (Nat.le_add_right _ _), Nat.add_sub_cancel_left, hj]
  refine ⟨code.length + j, hat, fun n outer => ?_⟩
  rw [List.take_length_add_append, Nat.add_assoc, List.take_length_add_append, scopes_append,
    scopes_append, (hc n outer).ends]
  exact hs _ outer

/-- A label in no block can be reached from everywhere in the code. -/
theorem Exposed.sees (h : Exposed t code) (hc : Nests code) (i : Nat) : Sees code i t := by
  obtain ⟨j, hj, hs⟩ := h
  refine ⟨j, hj, fun n outer => ?_⟩
  obtain ⟨own, ho⟩ := (hc n outer).above (i + 1)
  exact ⟨outer, own, hs n outer, ho⟩

/-- What is visible inside a loop is visible when the loop is part of more code. -/
theorem Sees.loop (h : Sees code i t) (hi : i < code.length) :
    Sees (.forever :: (code ++ [.leave, .close])) (i + 1) t := by
  obtain ⟨j, hj, hs⟩ := h.left hi [.leave, .close]
  refine ⟨j + 1, hj, fun n outer => ?_⟩
  simp only [List.take_succ_cons, scopes, Line.scope, Option.bind_some]
  exact hs (n + 1) _

namespace Closed

/-- Lines that jump nowhere and open nothing. -/
theorem of_still (h : ∀ l ∈ code, (∀ n outer, l.scope n outer = some outer) ∧ l.targets = []) :
    Closed outside code where
  nests := nests_of_still fun l hl => (h l hl).1
  reach i l hl t ht := by
    rw [(h l (List.mem_of_getElem? hl)).2] at ht
    cases ht

/-- Code that only jumps out. -/
theorem of_outside (hc : Nests code) (h : ∀ l ∈ code, ∀ t ∈ l.targets, t ∈ outside) :
    Closed outside code where
  nests := hc
  reach _ l hl t ht := .inl (h l (List.mem_of_getElem? hl) t ht)

theorem nil : Closed outside [] := of_still (by simp)

theorem append (h : Closed outside code) (h' : Closed outside more) :
    Closed outside (code ++ more) where
  nests := h.nests.append h'.nests
  reach i l hl t ht := by
    by_cases hi : i < code.length
    · rw [List.getElem?_append_left hi] at hl
      exact (h.reach i l hl t ht).imp_right fun hs => hs.left hi more
    · obtain ⟨k, rfl⟩ : ∃ k, i = code.length + k := ⟨i - code.length, by omega⟩
      rw [List.getElem?_append_right (by omega), Nat.add_sub_cancel_left] at hl
      exact (h'.reach k l hl t ht).imp_right fun hs => hs.right h.nests

/-- A line that opens nothing and jumps to labels outside. -/
theorem cons {l : Line} (hl : ∀ n outer, l.scope n outer = some outer)
    (ht : ∀ t ∈ l.targets, t ∈ outside) (h : Closed outside code) : Closed outside (l :: code) := by
  have hone : Closed outside [l] :=
    .of_outside (nests_of_still (List.forall_mem_singleton.2 hl)) (List.forall_mem_singleton.2 ht)
  exact hone.append h

/-- A label of the code itself need not be one outside. -/
theorem resolve (h : Closed (t :: outside) code) (ht : Exposed t code) : Closed outside code where
  nests := h.nests
  reach i l hl u hu := by
    obtain hout | hs := h.reach i l hl u hu
    · obtain rfl | hout := List.mem_cons.1 hout
      · exact .inr (ht.sees h.nests i)
      · exact .inl hout
    · exact .inr hs

/-- Labels that all of the code can reach need not be outside. -/
theorem resolveAll (h : Closed outside code) (ht : ∀ t ∈ outside, Exposed t code) :
    Closed [] code := by
  induction outside with
  | nil => exact h
  | cons t rest ih =>
    exact ih (h.resolve (ht t List.mem_cons_self)) fun u hu => ht u (List.mem_cons_of_mem _ hu)

theorem weaken (h : Closed outside code) {wider : List Label} (hw : ∀ t ∈ outside, t ∈ wider) :
    Closed wider code where
  nests := h.nests
  reach i l hl t ht := (h.reach i l hl t ht).imp_left (hw t)

theorem loop (h : Closed outside code) :
    Closed outside (.forever :: (code ++ [.leave, .close])) where
  nests := h.nests.loop
  reach i l hl t ht := by
    cases i with
    | zero =>
      cases hl
      cases ht
    | succ i =>
      rw [List.getElem?_cons_succ] at hl
      by_cases hi : i < code.length
      · rw [List.getElem?_append_left hi] at hl
        exact (h.reach i l hl t ht).imp_right fun hs => hs.loop hi
      · -- the `break` and the `end` jump nowhere
        rw [List.getElem?_append_right (by omega)] at hl
        have hmem := List.mem_of_getElem? hl
        simp only [List.mem_cons, List.not_mem_nil, or_false] at hmem
        obtain rfl | rfl := hmem <;> cases ht

end Closed

end

end Flow

end Moonstack
