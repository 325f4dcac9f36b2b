import Moonstack.Proofs.Lifetimes.Paths

/-!
# Which locals are zeroed, and where

A local that a path from the entry of the function reads before it assigns it has to be zeroed.
`zeroes_ofBody` says that the lifetimes of a body do this in time and once: in front of the
top-level instruction that holds the read or of an earlier one, and before the local is mentioned at
all.
-/

namespace Moonstack

variable {clock t : Nat} {n : Node}

namespace Instr

theorem bodyTicks_append (code rest : List Instr) :
    bodyTicks (code ++ rest) = bodyTicks code + bodyTicks rest := by
  induction code with
  | nil => simp [bodyTicks]
  | cons i code ih => rw [List.cons_append, bodyTicks, bodyTicks, ih, Nat.add_assoc]

/-- The counter values of the instructions of a list that begins after the given counter value. -/
def starts (clock : Nat) : List Instr → List Nat
  | [] => []
  | i :: rest => (clock + 1) :: starts (clock + i.ticks) rest

theorem lt_of_mem_starts {code : List Instr} (h : t ∈ starts clock code) : clock < t := by
  induction code generalizing clock with
  | nil => cases h
  | cons i rest ih =>
    rcases List.mem_cons.1 h with rfl | h
    · exact Nat.lt_succ_self _
    · have := ih h
      omega

/-- An instruction of a list begins before the end of a part of the list only if it belongs to this
part. -/
theorem mem_starts_append {code rest : List Instr} (h : t ∈ starts clock (code ++ rest))
    (hle : t ≤ clock + bodyTicks code) : t ∈ starts clock code := by
  induction code generalizing clock with
  | nil =>
    have hlt := lt_of_mem_starts h
    rw [bodyTicks] at hle
    omega
  | cons i code ih =>
    rw [List.cons_append, starts] at h
    rw [bodyTicks] at hle
    rcases List.mem_cons.1 h with rfl | h
    · exact List.mem_cons_self
    · exact List.mem_cons_of_mem _ (ih h (by omega))

/-- Every node of a list of instructions is a node of one of them. -/
theorem exists_of_mem_bodyNodes {labels : List Nat} {code : List Instr}
    (h : n ∈ bodyNodes labels clock code) :
    ∃ before i after, code = before ++ i :: after ∧ n ∈ i.nodes labels (clock + bodyTicks before) := by
  induction code generalizing clock with
  | nil => cases h
  | cons i rest ih =>
    rcases List.mem_append.1 h with h | h
    · exact ⟨[], i, rest, rfl, h⟩
    · obtain ⟨before, j, after, rfl, hj⟩ := ih h
      refine ⟨i :: before, j, after, rfl, ?_⟩
      rwa [bodyTicks, ← Nat.add_assoc]

theorem tick_of_mem_pair {tick : Nat} {op : Option Op} {next : List Point}
    (h : n ∈ Node.pair tick op next) : n.point.tick = tick := by
  rcases List.mem_cons.1 h with rfl | h
  · rfl
  · rw [List.mem_singleton.1 h]
    rfl

mutual

theorem tick_of_mem_nodes {labels : List Nat} {clock : Nat} {n : Node} : (i : Instr) →
    n ∈ i.nodes labels clock → clock < n.point.tick ∧ n.point.tick ≤ clock + i.ticks
  | leaf _ op, h => by
    rw [tick_of_mem_pair h, ticks]
    omega
  | block _ _ body, h | ifThen _ _ body, h | loop _ _ body, h => by
    rw [ticks]
    simp only [nodes, List.mem_append] at h
    rcases h with (h | h) | h
    · have := tick_of_mem_pair h
      omega
    · have := tick_of_mem_bodyNodes body h
      omega
    · have := tick_of_mem_pair h
      omega
  | ifElse _ _ body other, h => by
    rw [ticks]
    simp only [nodes, List.mem_append] at h
    rcases h with (((h | h) | h) | h) | h
    · have := tick_of_mem_pair h
      omega
    · have := tick_of_mem_bodyNodes body h
      omega
    · have := tick_of_mem_pair h
      omega
    · have := tick_of_mem_bodyNodes other h
      omega
    · have := tick_of_mem_pair h
      omega

theorem tick_of_mem_bodyNodes {labels : List Nat} {clock : Nat} {n : Node} : (code : List Instr) →
    n ∈ bodyNodes labels clock code →
    clock < n.point.tick ∧ n.point.tick ≤ clock + bodyTicks code
  | [], h => nomatch h
  | i :: rest, h => by
    have hpos := i.ticks_pos
    rw [bodyTicks]
    rcases List.mem_append.1 h with h | h
    · have := tick_of_mem_nodes i h
      omega
    · have := tick_of_mem_bodyNodes rest h
      omega

end

variable {L : Lifetimes} {l count : Nat}

theorem allows_of_mentions {A : Nat → Prop} {code : List Instr}
    (hcov : bodyCovered L count A clock code) {labels : List Nat}
    (hn : n ∈ bodyNodes labels clock code) (hl : l < count) (hop : n.op.bind Op.mentions = some l) :
    L.Allows l n.point.tick := by
  obtain ⟨op, hop, hmention⟩ := Option.bind_eq_some_iff.1 hop
  obtain ⟨offset, B, tick, hleaf, hpoint, -⟩ := standsAt_of_mem_bodyNodes hop code hcov hn
  exact hpoint ▸ hleaf.allows hl hmention

end Instr

namespace Survey

/-- What is first mentioned later is first mentioned in a later top-level instruction. -/
theorem firstTop_top {paramCount l x : Nat} {s : Survey} (hs : Sound paramCount s)
    (hn : s.scopes.length = 1) (code : List Instr)
    (hx : ((s.body code).known l).firstTop = some x) :
    (s.known l).firstTop = some x ∨ x ∈ Instr.starts s.clock code := by
  induction code generalizing s with
  | nil => exact .inl hx
  | cons i rest ih =>
    obtain ⟨hw, hs₁⟩ := walks_instr hs i
    rcases ih hs₁ ((length_instr hs i).trans hn) hx with hx | hx
    · rcases (hw.locals l).first hx with hx | ⟨rfl, -⟩
      · exact .inl hx
      · refine .inr (List.mem_cons.2 (.inl ?_))
        simp [advance, hn]
    · rw [clock_instr] at hx
      exact .inr (List.mem_cons_of_mem _ hx)

end Survey

/-- What is asked of the zeroing of the locals of a body, the first `paramCount` of which are
parameters. -/
structure Lifetimes.Zeroes (L : Lifetimes) (code : List Instr) (localCount paramCount : Nat) :
    Prop where
  /-- A path from the entry of the function to a read of a local, with no assignment of it, reads a
  zero: the local is zeroed in front of the top-level instruction that holds the read, or of an
  earlier one. -/
  reads : ∀ {l q} (path : List Point), paramCount ≤ l → l < localCount →
    List.IsChain (Edge (Instr.graph code)) (.node 0 :: path ++ [q]) →
    (∀ n ∈ Instr.graph code, n.point ∈ path → n.op.bind Op.assigns ≠ some l) →
    Reads (Instr.graph code) l q →
    ∃ before i after, code = before ++ i :: after ∧
      Reads (i.nodes [] (Instr.bodyTicks before)) l q ∧
      ∃ t ∈ Instr.starts 0 (before ++ [i]), (t, l) ∈ L.forced
  top : ∀ {t l}, (t, l) ∈ L.forced → t ∈ Instr.starts 0 code
  first : ∀ {t l}, (t, l) ∈ L.forced → ∀ n ∈ Instr.graph code,
    n.op.bind Op.mentions = some l → t ≤ n.point.tick
  once : (L.forced.map Prod.snd).Nodup
  declared : ∀ {t l}, (t, l) ∈ L.forced → paramCount ≤ l ∧ l < localCount

section

variable {code : List Instr} {localCount paramCount l : Nat}

theorem mem_bodyNodes_of_op {op : Op} (hn : n ∈ Instr.graph code) (hop : n.op = some op) :
    n ∈ Instr.bodyNodes [] 0 code := by
  rcases List.mem_cons.1 hn with rfl | hn
  · cases hop
  · exact hn

theorem starts_of_forced (h : (t, l) ∈ (Lifetimes.ofBody code localCount paramCount).forced) :
    t ∈ Instr.starts 0 code := by
  have hs := Survey.sound_start localCount paramCount
  obtain ⟨he, -⟩ := Survey.leads_top hs rfl code 0
  refine (Survey.firstTop_top hs rfl code (he.forced h).2.2.1).resolve_left fun hx => ?_
  rw [Survey.known_start] at hx
  cases hx

theorem le_of_forced (h : (t, l) ∈ (Lifetimes.ofBody code localCount paramCount).forced)
    (hn : n ∈ Instr.graph code) (hop : n.op.bind Op.mentions = some l) : t ≤ n.point.tick := by
  obtain ⟨op, hsome, -⟩ := Option.bind_eq_some_iff.1 hop
  have hcov := covered_ofBody code localCount paramCount
  have hallows := Instr.allows_of_mentions hcov (mem_bodyNodes_of_op hn hsome) (forced_ofBody h).2 hop
  exact hallows.2 t h

/-- A local that a path from the entry reads and does not assign is zeroed. -/
theorem forced_of_path {q : Point} (path : List Point) (hparam : paramCount ≤ l)
    (hl : l < localCount) (hpath : List.IsChain (Edge (Instr.graph code)) (.node 0 :: path ++ [q]))
    (hfree : ∀ n ∈ Instr.graph code, n.point ∈ path → n.op.bind Op.assigns ≠ some l)
    (hq : Reads (Instr.graph code) l q) :
    ∃ t, (t, l) ∈ (Lifetimes.ofBody code localCount paramCount).forced := by
  by_contra hnone
  obtain ⟨n, hn, rfl, hop⟩ := hq
  obtain ⟨hhas, hspan⟩ := Instr.bodyHas_of_reads hl (covered_ofBody code localCount paramCount)
    (mem_bodyNodes_of_op hn hop) hop
  -- as it is not zeroed either, the local has a value at the entry, where only parameters do
  obtain ⟨-, -, hentry⟩ := has_of_path path hpath (fun x hx hassign => by
    rcases hassign with ⟨-, hlt⟩ | ⟨-, hf⟩ | ⟨m, hm, rfl, hassign⟩
    · omega
    · exact hnone ⟨_, hf⟩
    · exact hfree m hm hx hassign) hhas hspan
  rcases hentry with hentry | ⟨-, hlt⟩ | ⟨-, hf⟩ | ⟨m, hm, hpoint, hassign⟩
  · exact absurd (Instr.tick_of_bodyHas code hentry).1 (Nat.lt_irrefl 0)
  · omega
  · exact hnone ⟨_, hf⟩
  · obtain ⟨op, hsome, -⟩ := Option.bind_eq_some_iff.1 hassign
    have htick := (Instr.tick_of_mem_bodyNodes code (mem_bodyNodes_of_op hm hsome)).1
    rw [hpoint] at htick
    exact absurd htick (Nat.lt_irrefl 0)

end

/-- **Locals are zeroed where they have to be.** -/
theorem zeroes_ofBody (code : List Instr) (localCount paramCount : Nat) :
    (Lifetimes.ofBody code localCount paramCount).Zeroes code localCount paramCount where
  reads {l q} path hparam hl hpath hfree hq := by
    obtain ⟨t, ht⟩ := forced_of_path path hparam hl hpath hfree hq
    obtain ⟨n, hn, rfl, hop⟩ := hq
    have hle : t ≤ n.point.tick := le_of_forced ht hn (by rw [hop]; rfl)
    obtain ⟨before, i, after, rfl, hmem⟩ := Instr.exists_of_mem_bodyNodes (mem_bodyNodes_of_op hn hop)
    rw [Nat.zero_add] at hmem
    refine ⟨before, i, after, rfl, ⟨n, hmem, rfl, hop⟩, t, ?_, ht⟩
    -- the zeroing stands at the top level and not behind the instruction that holds the read
    have htop := starts_of_forced ht
    rw [List.append_cons] at htop
    refine Instr.mem_starts_append htop ?_
    have hend := (Instr.tick_of_mem_nodes i hmem).2
    simp only [Instr.bodyTicks_append, Instr.bodyTicks]
    omega
  top := starts_of_forced
  first ht n hn hop := le_of_forced ht hn hop
  once := nodup_forced_ofBody code localCount paramCount
  declared := forced_ofBody

/-- One arm assigns the local that is read behind the `if`. -/
def oneArm : List Instr :=
  [.leaf 0 (.const (.i32 0)), .ifThen 2 none [.leaf 4 (.const (.i32 1)), .leaf 6 (.localSet 0)],
    .leaf 8 (.localGet 0)]

/-- The path past the arm. -/
theorem zeroes_ofBody_oneArm : ∃ before i after, oneArm = before ++ i :: after ∧
    Reads (i.nodes [] (Instr.bodyTicks before)) 0 (.node 6) ∧
    ∃ t ∈ Instr.starts 0 (before ++ [i]), (t, 0) ∈ (Lifetimes.ofBody oneArm 1 0).forced :=
  (zeroes_ofBody oneArm 1 0).reads [.front 1, .node 1, .front 2, .node 2, .node 5, .front 6]
    (by decide) (by decide) (by decide) (by decide) (by decide)

end Moonstack
