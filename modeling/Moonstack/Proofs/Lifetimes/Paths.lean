import Mathlib.Data.List.Chain
import Moonstack.Proofs.Lifetimes.Covered

/-!
# Lifetimes along paths

The control flow of a body as a graph, and the soundness of lifetimes on it: on every path from an
assignment of a local to a read of it, with no assignment in between, the register of the local is
allocated all the way (`lifetime_of_path`).

A branch to a loop goes to its start, one to another block goes to its close, one past all blocks
leaves the function. `Instr.Has` are the points of an instruction at which a local has a value.
Going back along an edge, this is lost at an assignment only (`carries_instr`).
-/

namespace Moonstack

/-! ## The graph of a body -/

/-- A point of a body. -/
inductive Point where
  | front (tick : Nat)
  /-- the instruction, `else` or close at a counter value; zero is the entry of the function -/
  | node (tick : Nat)
deriving DecidableEq

/-- The counter value of a point. -/
@[grind =]
def Point.tick : Point → Nat
  | front tick | node tick => tick

/-- A node of the graph of a body. -/
structure Node where
  point : Point
  op : Option Op := none
  next : List Point
deriving DecidableEq

/-- The nodes at a counter value: the front, and what stands there. -/
def Node.pair (tick : Nat) (op : Option Op) (next : List Point) : List Node :=
  [{ point := .front tick, next := [.node tick] }, { point := .node tick, op, next }]

/-- Where a branch goes, if the enclosing blocks, the innermost first, are entered by branches at the
given counter values. A branch past all blocks leaves the function. -/
def branchTarget (labels : List Nat) (depth : Nat) : List Point := (labels[depth]?.map .node).toList

/-- Where the control goes from an instruction without a body. -/
def Op.successors (labels : List Nat) (tick : Nat) : Op → List Point
  | br depth => branchTarget labels depth
  | brIf depth => .front (tick + 1) :: branchTarget labels depth
  | brTable targets fallback => (fallback :: targets).flatMap (branchTarget labels)
  | ret | unreachable => []
  | _ => [.front (tick + 1)]

variable {tick : Nat} {labels : List Nat}

namespace Instr

mutual

/-- The nodes of an instruction that begins after the given counter value. -/
def nodes (labels : List Nat) (clock : Nat) : Instr → List Node
  | leaf _ op => Node.pair (clock + 1) op (op.successors labels (clock + 1))
  | block _ _ body =>
    let close := clock + 2 + bodyTicks body
    Node.pair (clock + 1) none [.front (clock + 2)] ++ bodyNodes (close :: labels) (clock + 1) body ++
      Node.pair close none [.front (close + 1)]
  | loop _ _ body =>
    let close := clock + 2 + bodyTicks body
    Node.pair (clock + 1) none [.front (clock + 2)] ++
      bodyNodes ((clock + 1) :: labels) (clock + 1) body ++
      Node.pair close none [.front (close + 1)]
  | ifThen _ _ body =>
    let close := clock + 2 + bodyTicks body
    Node.pair (clock + 1) none [.front (clock + 2), .node close] ++
      bodyNodes (close :: labels) (clock + 1) body ++
      Node.pair close none [.front (close + 1)]
  | ifElse _ _ body other =>
    let turn := clock + 2 + bodyTicks body
    let close := turn + bodyTicks other + 1
    Node.pair (clock + 1) none [.front (clock + 2), .front (turn + 1)] ++
      bodyNodes (close :: labels) (clock + 1) body ++ Node.pair turn none [.node close] ++
      bodyNodes (close :: labels) turn other ++ Node.pair close none [.front (close + 1)]

/-- The nodes of a body that begins after the given counter value. -/
def bodyNodes (labels : List Nat) (clock : Nat) : List Instr → List Node
  | [] => []
  | i :: rest => nodes labels clock i ++ bodyNodes labels (clock + ticks i) rest

end

/-- The graph of the body of a function. -/
def graph (code : List Instr) : List Node :=
  { point := .node 0, next := [.front 1] } :: bodyNodes [] 0 code

end Instr

/-- The control can go from one point to the other. -/
def Edge (g : List Node) (p q : Point) : Prop := ∃ n ∈ g, n.point = p ∧ q ∈ n.next

instance (g : List Node) : DecidableRel (Edge g) := fun p q =>
  inferInstanceAs (Decidable (∃ n ∈ g, n.point = p ∧ q ∈ n.next))

/-- The local that an instruction reads or assigns. -/
def Op.mentions : Op → Option Nat
  | localGet l | localSet l | localTee l => some l
  | _ => none

/-- A local is assigned at a point: it is a parameter and the function is entered, it is zeroed, or
an instruction assigns it. -/
def Assigns (L : Lifetimes) (paramCount : Nat) (g : List Node) (l : Nat) (p : Point) : Prop :=
  (p = .node 0 ∧ l < paramCount) ∨ (p = .front p.tick ∧ (p.tick, l) ∈ L.forced) ∨
    ∃ n ∈ g, n.point = p ∧ n.op.bind Op.assigns = some l

instance (L : Lifetimes) (paramCount : Nat) (g : List Node) (l : Nat) :
    DecidablePred (Assigns L paramCount g l) := fun _ => inferInstanceAs (Decidable (_ ∨ _ ∨ _))

def Reads (g : List Node) (l : Nat) (p : Point) : Prop :=
  ∃ n ∈ g, n.point = p ∧ n.op = some (.localGet l)

instance (g : List Node) (l : Nat) : DecidablePred (Reads g l) := fun p =>
  inferInstanceAs (Decidable (∃ n ∈ g, n.point = p ∧ n.op = some (.localGet l)))

/-- The counter values at which a local is bound to a register: zero if it is a parameter, where it
is zeroed, and where it is mentioned. The register is allocated from the least of them on. -/
def bindings (L : Lifetimes) (paramCount : Nat) (g : List Node) (l : Nat) : List Nat :=
  (if l < paramCount then [0] else []) ++
    (L.forced.filter fun p => p.2 == l).map Prod.fst ++
    (g.filter fun n => n.op.bind Op.mentions == some l).map fun n => n.point.tick

/-! ## Where a local has a value -/

namespace Instr

variable {A : Nat → Prop} {clock : Nat}

mutual

/-- The points of an instruction at which the local `l` has a value, if in front of it the locals of
`A` do. -/
def Has (L : Lifetimes) (l : Nat) (A : Nat → Prop) (clock : Nat) : Instr → Point → Prop
  | leaf _ _, p => (p = .front (clock + 1) ∧ A l) ∨ (p = .node (clock + 1) ∧ L.zeroing (clock + 1) A l)
  | block _ _ body, p | ifThen _ _ body, p =>
    (p = .front (clock + 1) ∧ A l) ∨ (p = .node (clock + 1) ∧ L.zeroing (clock + 1) A l) ∨
      bodyHas L l (L.zeroing (clock + 1) A) (clock + 1) body p ∨
      (p.tick = clock + 2 + bodyTicks body ∧ L.zeroing (clock + 1) A l)
  | loop _ _ body, p =>
    let inside := fun l => L.zeroing (clock + 1) A l ∧ L.Spans l (clock + 2 + bodyTicks body)
    (p = .front (clock + 1) ∧ A l) ∨ (p = .node (clock + 1) ∧ inside l) ∨
      bodyHas L l inside (clock + 1) body p ∨
      (p.tick = clock + 2 + bodyTicks body ∧ L.zeroing (clock + 1) A l)
  | ifElse _ _ body other, p =>
    (p = .front (clock + 1) ∧ A l) ∨ (p = .node (clock + 1) ∧ L.zeroing (clock + 1) A l) ∨
      bodyHas L l (L.zeroing (clock + 1) A) (clock + 1) body p ∨
      (p.tick = clock + 2 + bodyTicks body ∧ L.zeroing (clock + 1) A l) ∨
      bodyHas L l (L.zeroing (clock + 1) A) (clock + 2 + bodyTicks body) other p ∨
      (p.tick = clock + 3 + bodyTicks body + bodyTicks other ∧ L.zeroing (clock + 1) A l)

/-- The points of a body at which a local has a value. -/
def bodyHas (L : Lifetimes) (l : Nat) (A : Nat → Prop) (clock : Nat) : List Instr → Point → Prop
  | [], _ => False
  | i :: rest, p => Has L l A clock i p ∨ bodyHas L l (leaves L A clock i) (clock + ticks i) rest p

end

variable {L : Lifetimes} {l : Nat}

mutual

theorem tick_of_has {A : Nat → Prop} {clock : Nat} {p : Point} : (i : Instr) →
    i.Has L l A clock p → clock < p.tick ∧ p.tick ≤ clock + i.ticks
  | leaf _ _, h => by
    rw [ticks]
    rcases h with ⟨rfl, -⟩ | ⟨rfl, -⟩ <;> grind
  | block _ _ body, h | ifThen _ _ body, h | loop _ _ body, h => by
    rw [ticks]
    rcases h with ⟨rfl, -⟩ | ⟨rfl, -⟩ | h | ⟨h, -⟩
    · grind
    · grind
    · have := tick_of_bodyHas body h
      omega
    · omega
  | ifElse _ _ body other, h => by
    rw [ticks]
    rcases h with ⟨rfl, -⟩ | ⟨rfl, -⟩ | h | ⟨h, -⟩ | h | ⟨h, -⟩
    · grind
    · grind
    · have := tick_of_bodyHas body h
      omega
    · omega
    · have := tick_of_bodyHas other h
      omega
    · omega

theorem tick_of_bodyHas {A : Nat → Prop} {clock : Nat} {p : Point} : (code : List Instr) →
    bodyHas L l A clock code p → clock < p.tick ∧ p.tick ≤ clock + bodyTicks code
  | [], h => h.elim
  | i :: rest, h => by
    have hpos := i.ticks_pos
    rw [bodyTicks]
    rcases h with h | h
    · have := tick_of_has i h
      omega
    · have := tick_of_bodyHas rest h
      omega

end

/-- The locals that have a value behind a body. -/
def bodyLeaves (L : Lifetimes) (A : Nat → Prop) (clock : Nat) : List Instr → Nat → Prop
  | [] => A
  | i :: rest => bodyLeaves L (leaves L A clock i) (clock + ticks i) rest

theorem leaves_of_zeroing (i : Instr) (h : L.zeroing (clock + 1) A l) : leaves L A clock i l := by
  cases i with
  | leaf offset op => exact .inl h
  | block | loop | ifThen | ifElse => exact h

theorem bodyLeaves_of {code : List Instr} (h : A l) : bodyLeaves L A clock code l := by
  induction code generalizing A clock with
  | nil => exact h
  | cons i rest ih => exact ih (leaves_of_zeroing i (.inl h))

theorem of_has_front (i : Instr) (h : i.Has L l A clock (.front (clock + 1))) : A l := by
  cases i with
  | leaf offset op =>
    rcases h with ⟨-, h⟩ | ⟨h, -⟩
    · exact h
    · cases h
  | block _ _ body | ifThen _ _ body | loop _ _ body =>
    rcases h with ⟨-, h⟩ | ⟨h, -⟩ | h | ⟨h, -⟩
    · exact h
    · cases h
    · exact absurd (tick_of_bodyHas body h).1 (Nat.lt_irrefl _)
    · grind
  | ifElse _ _ body other =>
    rcases h with ⟨-, h⟩ | ⟨h, -⟩ | h | ⟨h, -⟩ | h | ⟨h, -⟩
    · exact h
    · cases h
    · exact absurd (tick_of_bodyHas body h).1 (Nat.lt_irrefl _)
    · grind
    · have := (tick_of_bodyHas other h).1
      grind
    · grind

theorem of_bodyHas_front (code : List Instr) (h : bodyHas L l A clock code (.front (clock + 1))) :
    A l := by
  cases code with
  | nil => exact h.elim
  | cons i rest =>
    rcases h with h | h
    · exact of_has_front i h
    · have := (tick_of_bodyHas rest h).1
      have := i.ticks_pos
      grind

end Instr

/-! ## Back along an edge -/

namespace Node

def Assigns (L : Lifetimes) (l : Nat) (n : Node) : Prop :=
  (n.point = .front n.point.tick ∧ (n.point.tick, l) ∈ L.forced) ∨ n.op.bind Op.assigns = some l

/-- If the local has a value at a successor and is needed there, then it has one at the node and is
needed there too, or it is assigned at the node. -/
def Carries (L : Lifetimes) (l : Nat) (S has : Point → Prop) (n : Node) : Prop :=
  ∀ q ∈ n.next, S q → L.Spans l q.tick →
    L.Spans l n.point.tick ∧ (has n.point ∨ n.Assigns L l)

variable {L : Lifetimes} {l : Nat} {S has has' : Point → Prop}

theorem Carries.mono {n : Node} (h : n.Carries L l S has) (hm : has n.point → has' n.point) :
    n.Carries L l S has' :=
  fun q hq hS hspan => (h q hq hS hspan).imp_right fun ho => ho.imp_left hm

theorem carries_pair {op : Option Op} {next : List Point}
    (hfront : S (.node tick) → has (.front tick) ∨ (tick, l) ∈ L.forced)
    (hnode : ∀ q ∈ next, S q → L.Spans l q.tick →
      L.Spans l tick ∧ (has (.node tick) ∨ op.bind Op.assigns = some l)) :
    ∀ n ∈ pair tick op next, n.Carries L l S has := by
  refine List.forall_mem_cons.2 ⟨?_, List.forall_mem_singleton.2 ?_⟩
  · intro q hq hS hspan
    rw [List.mem_singleton.1 hq] at hS hspan
    exact ⟨hspan, (hfront hS).imp_right fun h => .inl ⟨rfl, h⟩⟩
  · intro q hq hS hspan
    exact (hnode q hq hS hspan).imp_right fun h => h.imp_right .inr

end Node

namespace Instr

variable {L : Lifetimes} {l : Nat} {S : Point → Prop}
variable {A : Nat → Prop} {clock size : Nat} {q : Point} {has : Point → Prop}

/-- What the surroundings of a part of a body, between two counter values, say about the points
outside: where branches go, the local had a value in front of the part, and it is needed up to the
end of the part. -/
def Branches (L : Lifetimes) (l : Nat) (S : Point → Prop) (A : Nat → Prop) (labels : List Nat)
    (last : Nat) : Prop :=
  ∀ tick ∈ labels, S (.node tick) → L.Spans l tick → A l ∧ L.Spans l last

theorem Branches.mono {B : Nat → Prop} {last last' : Nat} (h : Branches L l S A labels last)
    (hAB : A l → L.Spans l last → B l) (hle : last' ≤ last) : Branches L l S B labels last' :=
  fun tick ht hS hspan => (h tick ht hS hspan).imp (fun ha => hAB ha (h tick ht hS hspan).2)
    fun hs => hs.mono hle

theorem Branches.cons {A : Nat → Prop} {labels : List Nat} {tick last : Nat}
    (h : Branches L l S A labels last)
    (hnew : S (.node tick) → L.Spans l tick → A l ∧ L.Spans l last) :
    Branches L l S A (tick :: labels) last :=
  List.forall_mem_cons.2 ⟨hnew, h⟩

theorem of_branchTarget {last depth : Nat} (h : Branches L l S A labels last)
    (hq : q ∈ branchTarget labels depth) (hS : S q) (hspan : L.Spans l q.tick) :
    A l ∧ L.Spans l last := by
  unfold branchTarget at hq
  rw [Option.mem_toList, Option.map_eq_some_iff] at hq
  obtain ⟨tick, ht, rfl⟩ := hq
  exact h tick (List.mem_of_getElem? ht) hS hspan

theorem carries_leaf {offset : Nat} {op : Op}
    (hin : ∀ q, q.tick = clock + 1 → S q → (leaf offset op).Has L l A clock q)
    (hbr : Branches L l S A labels (clock + 1))
    (hnext : S (.front (clock + 2)) → L.Spans l (clock + 2) → (leaf offset op).leaves L A clock l) :
    ∀ n ∈ (leaf offset op).nodes labels clock, n.Carries L l S ((leaf offset op).Has L l A clock) := by
  refine Node.carries_pair (fun hS => ?_) fun q hq hS hspan => ?_
  · rcases hin _ rfl hS with ⟨h, -⟩ | ⟨-, h⟩
    · cases h
    · exact h.imp_left fun ha => .inl ⟨rfl, ha⟩
  · -- the control goes on behind the instruction, or to the target of a branch
    have htarget : (∃ depth, q ∈ branchTarget labels depth) ∨ q = .front (clock + 2) := by
      cases op with
      | br depth => exact .inl ⟨depth, hq⟩
      | brIf depth => exact (List.mem_cons.1 hq).elim .inr fun h => .inl ⟨depth, h⟩
      | brTable targets fallback =>
        obtain ⟨depth, -, h⟩ := List.mem_flatMap.1 hq
        exact .inl ⟨depth, h⟩
      | ret | unreachable => cases hq
      | _ => exact .inr (List.mem_singleton.1 hq)
    rcases htarget with ⟨depth, h⟩ | rfl
    · obtain ⟨ha, hs⟩ := of_branchTarget hbr h hS hspan
      exact ⟨hs, .inl (.inr ⟨rfl, .inl ha⟩)⟩
    · refine ⟨hspan.mono (Nat.le_succ _), ?_⟩
      exact (hnext hS hspan).imp_left fun ha => .inr ⟨rfl, ha⟩

/-- The points of a block with one arm at which the local has a value, if `inside` says whether it has
one at the start of the block, and `has` at which points of its body. -/
def Enclosed (L : Lifetimes) (l : Nat) (A : Nat → Prop) (clock size : Nat) (inside : Prop)
    (has : Point → Prop) (p : Point) : Prop :=
  (p = .front (clock + 1) ∧ A l) ∨ (p = .node (clock + 1) ∧ inside) ∨ has p ∨
    (p.tick = clock + 2 + size ∧ L.zeroing (clock + 1) A l)

/-- Which part of a block a point belongs to follows from its counter value. -/
theorem of_enclosed {inside : Prop} (h : Enclosed L l A clock size inside has q)
    (hrange : ∀ p, has p → clock + 1 < p.tick ∧ p.tick < clock + 2 + size) :
    (q.tick = clock + 2 + size → L.zeroing (clock + 1) A l) ∧
      (clock + 1 < q.tick → q.tick < clock + 2 + size → has q) ∧ (q = .node (clock + 1) → inside) := by
  rcases h with ⟨rfl, -⟩ | ⟨rfl, h⟩ | h | ⟨hq, h⟩
  · grind
  · grind
  · have := hrange q h
    grind
  · grind

theorem range_of_bodyHas (body : List Instr) (p : Point) (h : bodyHas L l A (clock + 1) body p) :
    clock + 1 < p.tick ∧ p.tick < clock + 2 + bodyTicks body := by
  have := tick_of_bodyHas body h
  omega

/-- Which part of an `if` a point belongs to follows from its counter value. -/
theorem of_ifElse {offset : Nat} {result : Option ValueType} {body other : List Instr}
    (h : (ifElse offset result body other).Has L l A clock q) :
    (q = .node (clock + 1) ∨ q.tick = clock + 2 + bodyTicks body ∨
      q.tick = clock + 2 + bodyTicks body + bodyTicks other + 1 → L.zeroing (clock + 1) A l) ∧
    (clock + 1 < q.tick → q.tick < clock + 2 + bodyTicks body →
      bodyHas L l (L.zeroing (clock + 1) A) (clock + 1) body q) ∧
    (clock + 2 + bodyTicks body < q.tick →
      q.tick < clock + 2 + bodyTicks body + bodyTicks other + 1 →
      bodyHas L l (L.zeroing (clock + 1) A) (clock + 2 + bodyTicks body) other q) := by
  rcases h with ⟨rfl, -⟩ | ⟨rfl, h⟩ | h | ⟨hq, h⟩ | h | ⟨hq, h⟩
  · grind
  · grind
  · have := tick_of_bodyHas body h
    grind
  · grind
  · have := tick_of_bodyHas other h
    grind
  · grind

/-- Where a body is entered, a local that has a value there has one in front of the body. -/
theorem of_front {code : List Instr}
    (hin : ∀ q, clock < q.tick → q.tick ≤ clock + bodyTicks code → S q → bodyHas L l A clock code q)
    (hnil : code = [] → A l) (hS : S (.front (clock + 1))) : A l := by
  cases code with
  | nil => exact hnil rfl
  | cons j more =>
    have hpos := j.ticks_pos
    exact of_bodyHas_front _ (hin _ (Nat.lt_succ_self _) (by grind [bodyTicks]) hS)

/-- The nodes of a block with one arm: `inside` says whether the local has a value at its start. -/
theorem carries_enclosed (inside : Prop) {opening : List Point}
    {inner : List Node}
    (hin : ∀ q, clock < q.tick → q.tick ≤ clock + 2 + size → S q →
      Enclosed L l A clock size inside has q)
    (hinside : inside → L.zeroing (clock + 1) A l)
    (hback : L.zeroing (clock + 1) A l → L.Spans l (clock + 2 + size) → inside)
    (hopening : ∀ q ∈ opening, q = .front (clock + 2) ∨ q = .node (clock + 2 + size))
    (hfirst : has (.front (clock + 2)) → inside)
    (hrange : ∀ p, has p → clock + 1 < p.tick ∧ p.tick < clock + 2 + size)
    (hnext : S (.front (clock + 2 + size + 1)) → L.Spans l (clock + 2 + size + 1) →
      L.zeroing (clock + 1) A l)
    (hinner : ∀ n ∈ inner, n.Carries L l S has) :
    ∀ n ∈ Node.pair (clock + 1) none opening ++ inner ++
        Node.pair (clock + 2 + size) none [.front (clock + 2 + size + 1)],
      n.Carries L l S (Enclosed L l A clock size inside has) := by
  have hclose : ∀ q, q.tick = clock + 2 + size → S q → L.zeroing (clock + 1) A l :=
    fun q hq hS => (of_enclosed (hin q (by omega) (by omega) hS) hrange).1 hq
  refine List.forall_mem_append.2 ⟨List.forall_mem_append.2 ⟨?_, ?_⟩, ?_⟩
  · refine Node.carries_pair (fun hS => ?_) fun q hq hS hspan => ?_
    · have hstart := (of_enclosed (hin _ (by grind) (by grind) hS) hrange).2.2 rfl
      exact (hinside hstart).imp_left fun ha => .inl ⟨rfl, ha⟩
    · have hend : q.tick = clock + 2 + size → inside := fun hq =>
        hback (hclose q hq hS) (hq ▸ hspan)
      rcases hopening q hq with rfl | rfl
      · refine ⟨hspan.mono (Nat.le_succ _), .inl (.inr (.inl ⟨rfl, ?_⟩))⟩
        rcases hin _ (by grind) (by grind) hS with
          ⟨h, -⟩ | ⟨h, -⟩ | h | ⟨h, -⟩
        · simp at h
        · cases h
        · exact hfirst h
        · exact hend h
      · exact ⟨hspan.mono (by grind), .inl (.inr (.inl ⟨rfl, hend rfl⟩))⟩
  · exact fun n hn => (hinner n hn).mono fun h => .inr (.inr (.inl h))
  · refine Node.carries_pair (fun hS => ?_) fun q hq hS hspan => ?_
    · exact .inl (.inr (.inr (.inr ⟨rfl, hclose _ rfl hS⟩)))
    · rw [List.mem_singleton.1 hq] at hS hspan
      exact ⟨hspan.mono (Nat.le_succ _), .inl (.inr (.inr (.inr ⟨rfl, hnext hS hspan⟩)))⟩

mutual

/-- Back along the edges of an instruction, a value of the local is lost at an assignment only. -/
theorem carries_instr {A : Nat → Prop} {labels : List Nat} {clock : Nat} : (i : Instr) →
    (∀ q, clock < q.tick → q.tick ≤ clock + i.ticks → S q → i.Has L l A clock q) →
    Branches L l S A labels (clock + i.ticks) →
    (S (.front (clock + i.ticks + 1)) → L.Spans l (clock + i.ticks + 1) → i.leaves L A clock l) →
    ∀ n ∈ i.nodes labels clock, n.Carries L l S (i.Has L l A clock)
  | leaf _ _, hin, hbr, hnext => by
    rw [ticks] at hin hbr hnext
    exact carries_leaf (fun q hq => hin q (by omega) (by omega)) hbr hnext
  | block _ _ body, hin, hbr, hnext | ifThen _ _ body, hin, hbr, hnext => by
    rw [ticks, show clock + (2 + bodyTicks body) = clock + 2 + bodyTicks body by omega]
      at hin hbr hnext
    have hpart := fun q hlo hhi hS => of_enclosed (hin q hlo hhi hS) (range_of_bodyHas body)
    rw [nodes]
    refine carries_enclosed (L.zeroing (clock + 1) A l) hin (fun h => h) (fun h _ => h) (by simp)
      (of_bodyHas_front body) (range_of_bodyHas body) hnext (carries_body body ?_ ?_ ?_)
    · exact fun q hlo hhi hS => (hpart q (by omega) (by omega) hS).2.1 hlo (by omega)
    · refine (hbr.mono (fun h _ => .inl h) (by omega)).cons fun hS hspan => ?_
      exact ⟨(hpart _ (by grind) (by grind) hS).1 rfl, hspan.mono (by omega)⟩
    · rw [show clock + 1 + bodyTicks body + 1 = clock + 2 + bodyTicks body by omega]
      exact fun hS _ => bodyLeaves_of ((hpart _ (by grind) (by grind) hS).1 rfl)
  | loop _ _ body, hin, hbr, hnext => by
    rw [ticks, show clock + (2 + bodyTicks body) = clock + 2 + bodyTicks body by omega]
      at hin hbr hnext
    have hpart := fun q hlo hhi hS => of_enclosed (hin q hlo hhi hS) (range_of_bodyHas body)
    rw [nodes]
    refine carries_enclosed _ hin And.left And.intro
      (fun q hq => .inl (List.mem_singleton.1 hq)) (of_bodyHas_front body) (range_of_bodyHas body)
      hnext (carries_body body ?_ ?_ ?_)
    · exact fun q hlo hhi hS => (hpart q (by omega) (by omega) hS).2.1 hlo (by omega)
    · refine (hbr.mono (fun h hs => ⟨.inl h, hs⟩) (by omega)).cons fun hS _ => ?_
      have hstart := (hpart _ (by grind) (by grind) hS).2.2 rfl
      exact ⟨hstart, hstart.2.mono (by omega)⟩
    · rw [show clock + 1 + bodyTicks body + 1 = clock + 2 + bodyTicks body by omega]
      exact fun hS hspan => bodyLeaves_of ⟨(hpart _ (by grind) (by grind) hS).1 rfl, hspan⟩
  | ifElse offset result body other, hin, hbr, hnext => by
    rw [ticks, show clock + (3 + bodyTicks body + bodyTicks other) =
      clock + 2 + bodyTicks body + bodyTicks other + 1 by omega] at hin hbr hnext
    have hturn : ∀ q, q.tick = clock + 2 + bodyTicks body → S q → L.zeroing (clock + 1) A l :=
      fun q hq hS => (of_ifElse (hin q (by omega) (by omega) hS)).1 (.inr (.inl hq))
    have hclose : ∀ q, q.tick = clock + 2 + bodyTicks body + bodyTicks other + 1 → S q →
        L.zeroing (clock + 1) A l :=
      fun q hq hS => (of_ifElse (hin q (by omega) (by omega) hS)).1 (.inr (.inr hq))
    have hbr' : Branches L l S (L.zeroing (clock + 1) A)
        ((clock + 2 + bodyTicks body + bodyTicks other + 1) :: labels)
        (clock + 2 + bodyTicks body + bodyTicks other) :=
      (hbr.mono (fun h _ => .inl h) (by omega)).cons fun hS hspan =>
        ⟨hclose _ rfl hS, hspan.mono (by omega)⟩
    have hfirst := fun q hlo (hhi : q.tick ≤ clock + 1 + bodyTicks body) hS =>
      (of_ifElse (hin q (by omega) (by omega) hS)).2.1 hlo (by omega)
    have hsecond := fun q hlo (hhi : q.tick ≤ clock + 2 + bodyTicks body + bodyTicks other) hS =>
      (of_ifElse (hin q (by omega) (by omega) hS)).2.2 hlo (by omega)
    rw [nodes]
    refine List.forall_mem_append.2 ⟨List.forall_mem_append.2 ⟨List.forall_mem_append.2
      ⟨List.forall_mem_append.2 ⟨?_, fun n hn => ?_⟩, ?_⟩, fun n hn => ?_⟩, ?_⟩
    · refine Node.carries_pair (fun hS => ?_) fun q hq hS hspan => ?_
      · have hstart := (of_ifElse (hin _ (by grind) (by grind)
          hS)).1 (.inl rfl)
        exact hstart.imp_left fun ha => .inl ⟨rfl, ha⟩
      · rcases List.mem_cons.1 hq with rfl | hq
        · refine ⟨hspan.mono (by grind), .inl (.inr (.inl ⟨rfl, of_front hfirst ?_ hS⟩))⟩
          exact fun h => hturn _ (by rw [h]; rfl) hS
        · rw [List.mem_singleton.1 hq] at hS hspan
          refine ⟨hspan.mono (by grind), .inl (.inr (.inl ⟨rfl, of_front hsecond ?_ hS⟩))⟩
          exact fun h => hclose _ (by rw [h]; rfl) hS
    · refine (carries_body body hfirst (hbr'.mono (fun h _ => h) (by omega)) ?_ n hn).mono
        fun h => .inr (.inr (.inl h))
      rw [show clock + 1 + bodyTicks body + 1 = clock + 2 + bodyTicks body by omega]
      exact fun hS _ => bodyLeaves_of (hturn _ rfl hS)
    · refine Node.carries_pair (fun hS => ?_) fun q hq hS hspan => ?_
      · exact .inl (.inr (.inr (.inr (.inl ⟨rfl, hturn _ rfl hS⟩))))
      · rw [List.mem_singleton.1 hq] at hS hspan
        refine ⟨hspan.mono (by grind), ?_⟩
        exact .inl (.inr (.inr (.inr (.inl ⟨rfl, hclose _ rfl hS⟩))))
    · refine (carries_body other hsecond hbr' ?_ n hn).mono
        fun h => .inr (.inr (.inr (.inr (.inl h))))
      exact fun hS _ => bodyLeaves_of (hclose _ rfl hS)
    · have hend : ∀ {p : Point}, p.tick = clock + 2 + bodyTicks body + bodyTicks other + 1 →
          L.zeroing (clock + 1) A l → (ifElse offset result body other).Has L l A clock p := fun hp h =>
        .inr (.inr (.inr (.inr (.inr ⟨by omega, h⟩))))
      refine Node.carries_pair (fun hS => ?_) fun q hq hS hspan => ?_
      · exact .inl (hend rfl (hclose _ rfl hS))
      · rw [List.mem_singleton.1 hq] at hS hspan
        exact ⟨hspan.mono (Nat.le_succ _), .inl (hend rfl (hnext hS hspan))⟩

theorem carries_body {A : Nat → Prop} {labels : List Nat} {clock : Nat} : (code : List Instr) →
    (∀ q, clock < q.tick → q.tick ≤ clock + bodyTicks code → S q → bodyHas L l A clock code q) →
    Branches L l S A labels (clock + bodyTicks code) →
    (S (.front (clock + bodyTicks code + 1)) → L.Spans l (clock + bodyTicks code + 1) →
      bodyLeaves L A clock code l) →
    ∀ n ∈ bodyNodes labels clock code, n.Carries L l S (bodyHas L l A clock code)
  | [], _, _, _ => nofun
  | i :: rest, hin, hbr, hnext => by
    rw [bodyTicks, ← Nat.add_assoc] at hin hbr hnext
    have hrest : ∀ q, clock + i.ticks < q.tick → q.tick ≤ clock + i.ticks + bodyTicks rest → S q →
        bodyHas L l (i.leaves L A clock) (clock + i.ticks) rest q := by
      intro q hlo hhi hS
      refine (hin q (by omega) hhi hS).resolve_left fun h => ?_
      have := (tick_of_has i h).2
      omega
    refine List.forall_mem_append.2 ⟨fun n hn => ?_, fun n hn => ?_⟩
    · refine (carries_instr i ?_ (hbr.mono (fun h _ => h) (by omega)) ?_ n hn).mono .inl
      · intro q hlo hhi hS
        refine (hin q hlo (by omega) hS).resolve_right fun h => ?_
        have := (tick_of_bodyHas rest h).1
        omega
      · intro hS hspan
        refine of_front hrest (fun h => ?_) hS
        subst h
        exact hnext hS hspan
    · exact (carries_body rest hrest
        (hbr.mono (fun h _ => leaves_of_zeroing i (.inl h)) (Nat.le_refl _)) hnext n hn).mono .inr

end

/-! ## Reads and bindings -/

theorem not_mem_pair {next : List Point} {n : Node} {op : Op} (hop : n.op = some op) :
    n ∉ Node.pair tick none next := by
  rintro h
  rcases List.mem_cons.1 h with rfl | h
  · cases hop
  · rw [List.mem_singleton.1 h] at hop
    cases hop

/-- The node is that of an instruction without a body, for which the lifetimes are long enough. The
locals that have a value there after the zeroing are among the given ones. -/
def StandsAt (L : Lifetimes) (count : Nat) (op : Op) (n : Node) (has : Nat → Prop) : Prop :=
  ∃ offset B tick, (leaf offset op).Covered L count B tick ∧ n.point = .node (tick + 1) ∧
    ∀ l, L.zeroing (tick + 1) B l → has l

theorem StandsAt.mono {count : Nat} {op : Op} {n : Node} {has has' : Nat → Prop}
    (h : StandsAt L count op n has) (hle : ∀ l, has l → has' l) : StandsAt L count op n has' := by
  obtain ⟨offset, B, tick, hleaf, hpoint, hhas⟩ := h
  exact ⟨offset, B, tick, hleaf, hpoint, fun l hl => hle l (hhas l hl)⟩

mutual

theorem standsAt_of_mem_nodes {A : Nat → Prop} {labels : List Nat} {clock count : Nat} {n : Node}
    {op : Op} (hop : n.op = some op) : (i : Instr) → i.Covered L count A clock →
    n ∈ i.nodes labels clock → StandsAt L count op n fun l => i.Has L l A clock n.point
  | leaf offset op', hcov, hn => by
    rcases List.mem_cons.1 hn with rfl | hn
    · cases hop
    · rw [List.mem_singleton.1 hn] at hop ⊢
      obtain rfl : op' = op := Option.some.inj hop
      exact ⟨offset, A, clock, hcov, rfl, fun l h => .inr ⟨rfl, h⟩⟩
  | block _ _ body, hcov, hn | ifThen _ _ body, hcov, hn | loop _ _ body, hcov, hn => by
    simp only [nodes, List.mem_append, not_mem_pair hop, false_or, or_false] at hn
    exact (standsAt_of_mem_bodyNodes hop body hcov.2.2 hn).mono fun _ h => .inr (.inr (.inl h))
  | ifElse _ _ body other, hcov, hn => by
    simp only [nodes, List.mem_append, not_mem_pair hop, false_or, or_false] at hn
    rcases hn with hn | hn
    · exact (standsAt_of_mem_bodyNodes hop body hcov.2.2.1 hn).mono fun _ h => .inr (.inr (.inl h))
    · exact (standsAt_of_mem_bodyNodes hop other hcov.2.2.2 hn).mono fun _ h =>
        .inr (.inr (.inr (.inr (.inl h))))

theorem standsAt_of_mem_bodyNodes {A : Nat → Prop} {labels : List Nat} {clock count : Nat}
    {n : Node} {op : Op} (hop : n.op = some op) : (code : List Instr) →
    bodyCovered L count A clock code → n ∈ bodyNodes labels clock code →
    StandsAt L count op n fun l => bodyHas L l A clock code n.point
  | [], _, hn => nomatch hn
  | i :: rest, hcov, hn => by
    rcases List.mem_append.1 hn with hn | hn
    · exact (standsAt_of_mem_nodes hop i hcov.1 hn).mono fun _ => .inl
    · exact (standsAt_of_mem_bodyNodes hop rest hcov.2 hn).mono fun _ => .inr

end

/-- Where a local is read, it has a value and is needed. -/
theorem bodyHas_of_reads {count : Nat} (hl : l < count) {code : List Instr}
    (hcov : bodyCovered L count A clock code) {n : Node} (hn : n ∈ bodyNodes labels clock code)
    (hop : n.op = some (.localGet l)) :
    bodyHas L l A clock code n.point ∧ L.Spans l n.point.tick := by
  obtain ⟨offset, B, tick, hleaf, hpoint, h⟩ := standsAt_of_mem_bodyNodes hop code hcov hn
  obtain ⟨hzero, hspan, -⟩ := hleaf.2 hl
  exact ⟨h l hzero, hpoint ▸ hspan⟩

/-- A local is mentioned inside its lifetime and not before it is zeroed. -/
theorem Covered.allows {count offset : Nat} {op : Op}
    (hc : (leaf offset op).Covered L count A clock) (hl : l < count) (hop : op.mentions = some l) :
    L.Allows l (clock + 1) := by
  cases op with
  | localGet k =>
    obtain rfl : k = l := Option.some.inj hop
    exact (hc.2 hl).2
  | localSet k | localTee k =>
    obtain rfl : k = l := Option.some.inj hop
    exact hc.2 hl
  | _ => cases hop

/-- The local is bound to a register at the counter value or before. -/
def Bound (L : Lifetimes) (l : Nat) (g : List Node) (tick : Nat) : Prop :=
  (∃ t ≤ tick, (t, l) ∈ L.forced) ∨
    ∃ n ∈ g, n.op.bind Op.mentions = some l ∧ n.point.tick ≤ tick

theorem Bound.mono {g g' : List Node} (h : Bound L l g tick) (hg : ∀ n ∈ g, n ∈ g') :
    Bound L l g' tick :=
  h.imp_right fun ⟨n, hn, hop⟩ => ⟨n, hg n hn, hop⟩

theorem bound_of_zeroing {g : List Node} {t : Nat} (h : L.zeroing t A l) (hle : t ≤ tick) :
    A l ∨ Bound L l g tick :=
  h.imp_right fun hf => .inl ⟨t, hle, hf⟩

theorem mentions_of_assigns {op : Op} (h : op.assigns = some l) : op.mentions = some l := by
  cases op <;> simp_all [Op.assigns, Op.mentions]

theorem bound_of_leaves (i : Instr) (h : i.leaves L A clock l) (hle : clock + 1 ≤ tick) :
    A l ∨ Bound L l (i.nodes labels clock) tick := by
  cases i with
  | leaf offset op =>
    rcases h with h | h
    · exact bound_of_zeroing h hle
    · refine .inr (.inr ⟨_, List.mem_cons_of_mem _ (List.mem_singleton.2 rfl), ?_, hle⟩)
      exact mentions_of_assigns h
  | block | loop | ifThen | ifElse => exact bound_of_zeroing h hle

theorem bound_of_enclosed {inside : Prop} {p : Point} {front inner back : List Node}
    (hle : clock < p.tick) (h : Enclosed L l A clock size inside has p)
    (hinside : inside → L.zeroing (clock + 1) A l)
    (hinner : has p → inside ∨ Bound L l inner p.tick) :
    A l ∨ Bound L l (front ++ inner ++ back) p.tick := by
  rcases h with ⟨rfl, h⟩ | ⟨rfl, h⟩ | h | ⟨-, h⟩
  · exact .inl h
  · exact bound_of_zeroing (hinside h) (Nat.le_refl _)
  · rcases hinner h with h | h
    · exact bound_of_zeroing (hinside h) hle
    · exact .inr (h.mono fun n hn => List.mem_append_left _ (List.mem_append_right _ hn))
  · exact bound_of_zeroing h hle

mutual

/-- Where a local has a value, it has been bound to a register. -/
theorem bound_of_has {A : Nat → Prop} {labels : List Nat} {clock : Nat} {p : Point} :
    (i : Instr) → i.Has L l A clock p → A l ∨ Bound L l (i.nodes labels clock) p.tick
  | leaf _ op, h => by
    rcases h with ⟨rfl, h⟩ | ⟨rfl, h⟩
    · exact .inl h
    · exact bound_of_zeroing h (Nat.le_refl _)
  | block _ _ body, h | ifThen _ _ body, h =>
    bound_of_enclosed (tick_of_has _ h).1 h (fun h => h) (bound_of_bodyHas body)
  | loop _ _ body, h =>
    bound_of_enclosed (tick_of_has _ h).1 h And.left (bound_of_bodyHas body)
  | ifElse _ _ body other, h => by
    have hle := (tick_of_has _ h).1
    rcases h with ⟨rfl, h⟩ | ⟨rfl, h⟩ | h | ⟨-, h⟩ | h | ⟨-, h⟩
    · exact .inl h
    · exact bound_of_zeroing h (Nat.le_refl _)
    · rcases bound_of_bodyHas body h with h | h
      · exact bound_of_zeroing h hle
      · exact .inr (h.mono fun n hn => List.mem_append_left _ (List.mem_append_left _
          (List.mem_append_left _ (List.mem_append_right _ hn))))
    · exact bound_of_zeroing h hle
    · rcases bound_of_bodyHas other h with h | h
      · exact bound_of_zeroing h hle
      · exact .inr (h.mono fun n hn => List.mem_append_left _ (List.mem_append_right _ hn))
    · exact bound_of_zeroing h hle

theorem bound_of_bodyHas {A : Nat → Prop} {labels : List Nat} {clock : Nat} {p : Point} :
    (code : List Instr) → bodyHas L l A clock code p →
    A l ∨ Bound L l (bodyNodes labels clock code) p.tick
  | [], h => h.elim
  | i :: rest, h => by
    rcases h with h | h
    · exact (bound_of_has i h).imp_right fun hb => hb.mono fun n hn => List.mem_append_left _ hn
    · rcases bound_of_bodyHas rest h with hleft | hb
      · have hle := (tick_of_bodyHas rest h).1
        have hpos := i.ticks_pos
        exact (bound_of_leaves i hleft (by omega)).imp_right fun hb =>
          hb.mono fun n hn => List.mem_append_left _ hn
      · exact .inr (hb.mono fun n hn => List.mem_append_right _ hn)

end

end Instr

/-! ## Paths -/

section

variable {code : List Instr} {L : Lifetimes} {paramCount l : Nat} {p q : Point}

theorem assigns_of_node {n : Node} (hn : n ∈ Instr.graph code) (h : n.Assigns L l) :
    Assigns L paramCount (Instr.graph code) l n.point :=
  .inr (h.imp_right fun hop => ⟨n, hn, rfl, hop⟩)

/-- Back along an edge of the graph. -/
theorem has_of_edge (he : Edge (Instr.graph code) p q)
    (hq : Instr.bodyHas L l (· < paramCount) 0 code q) (hspan : L.Spans l q.tick) :
    L.Spans l p.tick ∧ (Instr.bodyHas L l (· < paramCount) 0 code p ∨
      Assigns L paramCount (Instr.graph code) l p) := by
  obtain ⟨n, hn, rfl, hnext⟩ := he
  rcases List.mem_cons.1 hn with rfl | hmem
  · rw [List.mem_singleton.1 hnext] at hq hspan
    have hparam : l < paramCount := Instr.of_bodyHas_front (A := (· < paramCount)) code hq
    exact ⟨hspan.mono (Nat.zero_le _), .inr (.inl ⟨rfl, hparam⟩)⟩
  · have hbr : Instr.Branches L l (Instr.bodyHas L l (· < paramCount) 0 code) (· < paramCount) []
        (0 + Instr.bodyTicks code) := nofun
    have hcarry := Instr.carries_body code (fun _ _ _ h => h) hbr
      (fun h => absurd (Instr.tick_of_bodyHas code h).2 (by grind)) n hmem q hnext hq hspan
    exact hcarry.imp_right fun h => h.imp_right (assigns_of_node hn)

/-- Back along a path on which the local is not assigned. -/
theorem has_of_path (path : List Point)
    (hpath : List.IsChain (Edge (Instr.graph code)) (p :: path ++ [q]))
    (hfree : ∀ x ∈ path, ¬ Assigns L paramCount (Instr.graph code) l x)
    (hq : Instr.bodyHas L l (· < paramCount) 0 code q) (hspan : L.Spans l q.tick) :
    (∀ x ∈ path ++ [q], Instr.bodyHas L l (· < paramCount) 0 code x ∧ L.Spans l x.tick) ∧
      L.Spans l p.tick ∧ (Instr.bodyHas L l (· < paramCount) 0 code p ∨
        Assigns L paramCount (Instr.graph code) l p) := by
  induction path generalizing p with
  | nil =>
    refine ⟨List.forall_mem_singleton.2 ⟨hq, hspan⟩, has_of_edge ?_ hq hspan⟩
    simpa using hpath
  | cons x rest ih =>
    obtain ⟨hedge, hrest⟩ := List.isChain_cons_cons.1 hpath
    obtain ⟨hall, hx, hx'⟩ := ih hrest fun y hy => hfree y (List.mem_cons_of_mem _ hy)
    have hhas := hx'.resolve_right (hfree x List.mem_cons_self)
    exact ⟨List.forall_mem_cons.2 ⟨⟨hhas, hx⟩, hall⟩, has_of_edge hedge hhas hx⟩

theorem mem_bindings {g : List Node} {t : Nat} : t ∈ bindings L paramCount g l ↔
    (t = 0 ∧ l < paramCount) ∨ (t, l) ∈ L.forced ∨
      ∃ n ∈ g, n.op.bind Op.mentions = some l ∧ n.point.tick = t := by
  simp [bindings, and_comm, and_assoc]

theorem mem_bindings_of_assigns (h : Assigns L paramCount (Instr.graph code) l p) :
    p.tick ∈ bindings L paramCount (Instr.graph code) l := by
  rw [mem_bindings]
  rcases h with ⟨rfl, h⟩ | ⟨-, h⟩ | ⟨n, hn, rfl, hop⟩
  · exact .inl ⟨rfl, h⟩
  · exact .inr (.inl h)
  · obtain ⟨op, hsome, hop⟩ := Option.bind_eq_some_iff.1 hop
    exact .inr (.inr ⟨n, hn, by rw [hsome]; exact Instr.mentions_of_assigns hop, rfl⟩)

theorem bindings_of_has (h : Instr.bodyHas L l (· < paramCount) 0 code p) :
    ∃ t ∈ bindings L paramCount (Instr.graph code) l, t ≤ p.tick := by
  have hbound : l < paramCount ∨ Instr.Bound L l (Instr.bodyNodes [] 0 code) p.tick :=
    Instr.bound_of_bodyHas code h
  rcases hbound with hparam | ⟨t, hle, hf⟩ | ⟨n, hn, hop, hle⟩
  · exact ⟨0, mem_bindings.2 (.inl ⟨rfl, hparam⟩), Nat.zero_le _⟩
  · exact ⟨t, mem_bindings.2 (.inr (.inl hf)), hle⟩
  · exact ⟨_, mem_bindings.2 (.inr (.inr ⟨n, List.mem_cons_of_mem _ hn, hop, rfl⟩)), hle⟩

end

/-- **Lifetimes are sound.** On a path of a body from an assignment of a local to a read of it, with
no assignment of it in between, all counter values lie between the first at which the local is bound
to a register and the last at which its value is needed. -/
theorem lifetime_of_path {code : List Instr} {localCount paramCount l : Nat} (hl : l < localCount)
    {p q : Point} (path : List Point)
    (hpath : List.IsChain (Edge (Instr.graph code)) (p :: path ++ [q]))
    (hp : Assigns (.ofBody code localCount paramCount) paramCount (Instr.graph code) l p)
    (hfree : ∀ x ∈ path,
      ¬ Assigns (.ofBody code localCount paramCount) paramCount (Instr.graph code) l x)
    (hq : Reads (Instr.graph code) l q) :
    ∃ first last,
      (bindings (.ofBody code localCount paramCount) paramCount (Instr.graph code) l).min? =
        some first ∧
      (Lifetimes.ofBody code localCount paramCount).lastRef l = some last ∧
      ∀ x ∈ p :: path ++ [q], first ≤ x.tick ∧ x.tick ≤ last := by
  obtain ⟨n, hn, rfl, hop⟩ := hq
  have hmem : n ∈ Instr.bodyNodes [] 0 code := by
    rcases List.mem_cons.1 hn with rfl | hn
    · cases hop
    · exact hn
  obtain ⟨hhas, hspan⟩ := Instr.bodyHas_of_reads hl (covered_ofBody code localCount paramCount)
    hmem hop
  obtain ⟨hall, hpspan, -⟩ := has_of_path path hpath hfree hhas hspan
  obtain ⟨first, hfirst⟩ := Option.isSome_iff_exists.1 (List.isSome_min?_of_mem
    (mem_bindings_of_assigns hp))
  obtain ⟨last, hlast, -⟩ := hspan
  have hleast := (List.min?_eq_some_iff.1 hfirst).2
  refine ⟨first, last, hfirst, hlast, List.forall_mem_cons.2 ⟨⟨?_, ?_⟩, fun x hx => ?_⟩⟩
  · exact hleast _ (mem_bindings_of_assigns hp)
  · obtain ⟨last', hlast', hle⟩ := hpspan
    rw [hlast] at hlast'
    exact Option.some.inj hlast' ▸ hle
  · obtain ⟨hx, last', hlast', hle⟩ := hall x hx
    obtain ⟨t, ht, htle⟩ := bindings_of_has hx
    rw [hlast] at hlast'
    exact ⟨Nat.le_trans (hleast t ht) htle, Option.some.inj hlast' ▸ hle⟩

/-- A loop in a loop, where the inner one reads what the outer one assigns at its end. -/
def twoLoops : List Instr :=
  [.loop 0 none [
    .loop 2 none [.leaf 4 (.localGet 0), .leaf 6 (.brIf 0)],
    .leaf 8 (.const (.i32 1)), .leaf 10 (.localSet 0), .leaf 12 (.br 0)]]

/-- The path that goes around the outer loop. -/
theorem lifetime_of_path_twoLoops : ∃ first last,
    (bindings (.ofBody twoLoops 1 0) 0 (Instr.graph twoLoops) 0).min? = some first ∧
    (Lifetimes.ofBody twoLoops 1 0).lastRef 0 = some last ∧
    ∀ x ∈ [Point.node 7, .front 8, .node 8, .node 1, .front 2, .node 2, .front 3, .node 3],
      first ≤ x.tick ∧ x.tick ≤ last :=
  lifetime_of_path (by decide) [.front 8, .node 8, .node 1, .front 2, .node 2, .front 3]
    (by decide) (by decide +kernel) (by decide +kernel) (by decide)

end Moonstack
