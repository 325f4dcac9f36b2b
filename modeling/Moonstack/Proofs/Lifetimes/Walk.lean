import Moonstack.Proofs.Emission.Size

/-!
# The walk that finds lifetimes

What a part of a walk does to the state of the walk. `Survey.Walks s s'` says what is known of the
walk over an instruction or a nested body: what is recorded about a local only grows, and of the
enclosing scopes only the outermost is changed, by locals that are zeroed.
-/

namespace Moonstack

variable {index : Nat} {outer : List Scope}

/-! ## Scopes -/

namespace Scope

/-- Is the scope of the given depth a loop? The outermost scope has depth zero. -/
def LoopAt (depth : Nat) : List Scope → Prop
  | [] => False
  | s :: outer => (depth = outer.length ∧ s.isLoop = true) ∨ LoopAt depth outer

theorem LoopAt.lt_length {depth : Nat} {scopes : List Scope} (h : LoopAt depth scopes) :
    depth < scopes.length := by
  induction scopes with
  | nil => exact h.elim
  | cons s outer ih =>
    rcases h with ⟨rfl, -⟩ | h
    · exact Nat.lt_succ_self _
    · exact Nat.lt_succ_of_lt (ih h)

/-- The locals that the outermost scope has assigned. -/
def outermost : List Scope → List Nat
  | [] => []
  | [s] => s.assigned
  | _ :: outer => outermost outer

theorem assignedDepth_ne_none {scopes : List Scope} (h : index ∈ outermost scopes) :
    assignedDepth index scopes ≠ none := by
  fun_induction outermost scopes with
  | case1 => cases h
  | case2 s => simp [assignedDepth, h]
  | case3 s outer _ ih =>
    rw [assignedDepth]
    split
    · exact Option.some_ne_none _
    · exact ih h

/-- The scopes after locals have been marked as assigned in the outermost one. -/
def widened (scopes : List Scope) (indices : List Nat) : List Scope :=
  indices.foldr assignOutermost scopes

theorem length_assignOutermost (index : Nat) (scopes : List Scope) :
    (assignOutermost index scopes).length = scopes.length := by
  fun_induction assignOutermost index scopes with
  | case1 | case2 => rfl
  | case3 s outer _ ih => rw [List.length_cons, ih, List.length_cons]

theorem loopAt_assignOutermost (index depth : Nat) (scopes : List Scope) :
    LoopAt depth (assignOutermost index scopes) ↔ LoopAt depth scopes := by
  fun_induction assignOutermost index scopes with
  | case1 | case2 => rfl
  | case3 s outer _ ih => rw [LoopAt, LoopAt, ih, length_assignOutermost]

theorem outermost_assignOutermost (index : Nat) (scopes : List Scope) :
    ∀ l ∈ outermost scopes, l ∈ outermost (assignOutermost index scopes) := by
  fun_induction assignOutermost index scopes with
  | case1 => exact fun _ h => h
  | case2 s => exact fun _ h => List.mem_cons_of_mem _ h
  | case3 s outer hne ih =>
    intro l hl
    cases outer with
    | nil => exact absurd rfl hne
    | cons t rest =>
      have hlen := length_assignOutermost index (t :: rest)
      cases h : assignOutermost index (t :: rest) with
      | nil => rw [h] at hlen; cases hlen
      | cons u more =>
        have hu := ih l hl
        rw [h] at hu
        exact hu

theorem length_widened (scopes : List Scope) (indices : List Nat) :
    (widened scopes indices).length = scopes.length := by
  induction indices with
  | nil => rfl
  | cons i rest ih => exact (length_assignOutermost i _).trans ih

theorem loopAt_widened (depth : Nat) (scopes : List Scope) (indices : List Nat) :
    LoopAt depth (widened scopes indices) ↔ LoopAt depth scopes := by
  induction indices with
  | nil => rfl
  | cons i rest ih => exact (loopAt_assignOutermost i depth _).trans ih

theorem loopAt_of_loopInside {depth loop : Nat} {scopes : List Scope}
    (h : loopInside depth scopes = some loop) : LoopAt loop scopes := by
  induction scopes with
  | nil => cases h
  | cons s outer ih =>
    rw [loopInside] at h
    split at h
    · cases h
    · rcases Option.or_eq_some_iff.1 h with h | ⟨-, h⟩
      · exact .inr (ih h)
      · split at h
        · rename_i hs
          exact .inl ⟨(Option.some.inj h).symm, hs⟩
        · cases h

/-- The scopes at a later time of the walk over a body: the innermost has changed, and of the others
the outermost, by locals with `P`. -/
def Follows (P : Nat → Prop) (scopes scopes' : List Scope) : Prop :=
  ∃ inner inner' outer indices, scopes = inner :: outer ∧ scopes' = inner' :: widened outer indices ∧
    inner'.isLoop = inner.isLoop ∧ (∀ k ∈ indices, P k) ∧
    ∀ l ∈ outermost scopes, l ∈ outermost scopes'

namespace Follows

variable {P Q : Nat → Prop} {scopes scopes' scopes'' : List Scope}

theorem refl (h : scopes ≠ []) : Follows P scopes scopes := by
  cases scopes with
  | nil => exact absurd rfl h
  | cons s outer => exact ⟨s, s, outer, [], rfl, rfl, rfl, nofun, fun _ h => h⟩

section

variable (h : Follows P scopes scopes')
include h

theorem mono (hPQ : ∀ k, P k → Q k) : Follows Q scopes scopes' := by
  obtain ⟨inner, inner', outer, indices, h₁, h₂, h₃, h₄, h₅⟩ := h
  exact ⟨inner, inner', outer, indices, h₁, h₂, h₃, fun k hk => hPQ k (h₄ k hk), h₅⟩

theorem trans (h' : Follows P scopes' scopes'') : Follows P scopes scopes'' := by
  obtain ⟨a, b, outer, xs, rfl, rfl, hab, hx, ho⟩ := h
  obtain ⟨b', c, outer', ys, heq, rfl, hbc, hy, ho'⟩ := h'
  obtain ⟨rfl, rfl⟩ := List.cons.inj heq
  refine ⟨a, c, outer, ys ++ xs, rfl, ?_, hbc.trans hab, ?_, fun l hl => ho' l (ho l hl)⟩
  · rw [widened, widened, widened, List.foldr_append]
  · exact List.forall_mem_append.2 ⟨hy, hx⟩

theorem ne_nil : scopes' ≠ [] := by
  obtain ⟨_, _, _, _, -, rfl, -⟩ := h
  exact List.cons_ne_nil _ _

theorem length : scopes'.length = scopes.length := by
  obtain ⟨_, _, outer, xs, rfl, rfl, -⟩ := h
  rw [List.length_cons, List.length_cons, length_widened]

theorem loopAt (depth : Nat) : LoopAt depth scopes' ↔ LoopAt depth scopes := by
  obtain ⟨_, _, outer, xs, rfl, rfl, hl, -⟩ := h
  rw [LoopAt, LoopAt, length_widened, loopAt_widened, hl]

end

theorem assignOutermost (h : scopes ≠ []) (hi : P index) :
    Follows P scopes (assignOutermost index scopes) := by
  have ho := outermost_assignOutermost index scopes
  cases scopes with
  | nil => exact absurd rfl h
  | cons s outer =>
    cases outer with
    | nil => exact ⟨s, _, [], [], rfl, rfl, rfl, nofun, ho⟩
    | cons t rest =>
      exact ⟨s, s, t :: rest, [index], rfl, rfl, rfl, List.forall_mem_singleton.2 hi, ho⟩

theorem widened {indices : List Nat} (h : scopes ≠ []) (hi : ∀ k ∈ indices, P k) :
    Follows P scopes (widened scopes indices) := by
  induction indices with
  | nil => exact refl h
  | cons k rest ih =>
    have hrest := ih fun j hj => hi j (List.mem_cons_of_mem _ hj)
    exact hrest.trans (assignOutermost hrest.ne_nil (hi k List.mem_cons_self))

end Follows

theorem outermost_cons (s : Scope) (h : outer ≠ []) : outermost (s :: outer) = outermost outer := by
  cases outer with
  | nil => exact absurd rfl h
  | cons t rest => rfl

end Scope

/-! ## Single locals -/

namespace LocalSurvey

/-- What is known about a local after a mention of it. -/
def touched (k : LocalSurvey) (clock top : Nat) : LocalSurvey :=
  { k.reach clock with firstTop := k.firstTop.or (some top) }

/-- What is known about a local after its lifetime has been made to reach to the close of a loop. -/
def extended (k : LocalSurvey) : Option Nat → LocalSurvey
  | none => k
  | some loop => { k with extendTo := some (k.extendTo.elim loop (min loop)) }

/-- What is known about a local when the scope of the given depth, a loop, closes. -/
def closed (k : LocalSurvey) (depth clock : Nat) : LocalSurvey :=
  if k.extendTo = some depth then { k.reach clock with extendTo := none } else k

/-- What is known about a local at a later time, if the mentions in between stand at `tick` or later,
in the top-level instruction at `top`. -/
structure Grows (tick top : Nat) (k k' : LocalSurvey) : Prop where
  lastRef : ∀ {r}, k.lastRef = some r → ∃ r', k'.lastRef = some r' ∧ r ≤ r'
  extendTo : ∀ {m}, k.extendTo = some m → ∃ m', k'.extendTo = some m' ∧ m' ≤ m
  firstTop : ∀ {x}, k.firstTop = some x → k'.firstTop = some x
  first : ∀ {x}, k'.firstTop = some x →
    k.firstTop = some x ∨ (x = top ∧ ∃ r, k'.lastRef = some r ∧ tick ≤ r)
  forced : k.forced = true → k'.forced = true

namespace Grows

variable {tick top : Nat} {k k' k'' : LocalSurvey}

theorem refl (k : LocalSurvey) : Grows tick top k k :=
  ⟨fun h => ⟨_, h, Nat.le_refl _⟩, fun h => ⟨_, h, Nat.le_refl _⟩, fun h => h, .inl, fun h => h⟩

theorem trans (h : Grows tick top k k') (h' : Grows tick top k' k'') : Grows tick top k k'' where
  lastRef hr := by
    obtain ⟨r', hr', hle⟩ := h.lastRef hr
    obtain ⟨r'', hr'', hle'⟩ := h'.lastRef hr'
    exact ⟨r'', hr'', Nat.le_trans hle hle'⟩
  extendTo hm := by
    obtain ⟨m', hm', hle⟩ := h.extendTo hm
    obtain ⟨m'', hm'', hle'⟩ := h'.extendTo hm'
    exact ⟨m'', hm'', Nat.le_trans hle' hle⟩
  firstTop hx := h'.firstTop (h.firstTop hx)
  first hx := by
    rcases h'.first hx with hx | hx
    · rcases h.first hx with hx | ⟨hx, r, hr, hle⟩
      · exact .inl hx
      · obtain ⟨r', hr', hle'⟩ := h'.lastRef hr
        exact .inr ⟨hx, r', hr', Nat.le_trans hle hle'⟩
    · exact .inr hx
  forced hf := h'.forced (h.forced hf)

theorem weaken {tick' : Nat} (h : Grows tick top k k') (hle : tick' ≤ tick) :
    Grows tick' top k k' :=
  ⟨h.lastRef, h.extendTo, h.firstTop, fun hx => (h.first hx).imp_right fun ⟨hx, r, hr, hr'⟩ =>
    ⟨hx, r, hr, Nat.le_trans hle hr'⟩, h.forced⟩

theorem touched (k : LocalSurvey) : Grows tick top k (k.touched tick top) where
  lastRef {r} hr := ⟨max tick r, by simp [LocalSurvey.touched, reach, hr], Nat.le_max_right _ _⟩
  extendTo hm := ⟨_, hm, Nat.le_refl _⟩
  firstTop hx := by simp [LocalSurvey.touched, hx]
  first {x} hx := by
    cases hf : k.firstTop with
    | none =>
      have hx' : some top = some x := by simpa [LocalSurvey.touched, hf] using hx
      refine .inr ⟨(Option.some.inj hx').symm, _, rfl, ?_⟩
      cases k.lastRef with
      | none => exact Nat.le_refl _
      | some r => exact Nat.le_max_left _ _
    | some y => exact .inl (by simpa [LocalSurvey.touched, hf] using hx)
  forced hf := hf

theorem extended (k : LocalSurvey) (loop : Option Nat) : Grows tick top k (k.extended loop) := by
  cases loop with
  | none => exact refl k
  | some loop =>
    refine ⟨fun h => ⟨_, h, Nat.le_refl _⟩, fun {m} h => ⟨min loop m, ?_, Nat.min_le_right _ _⟩,
      fun h => h, .inl, fun h => h⟩
    simp [LocalSurvey.extended, h]

theorem flagged (k : LocalSurvey) : Grows tick top k { k with forced := true } :=
  ⟨fun h => ⟨_, h, Nat.le_refl _⟩, fun h => ⟨_, h, Nat.le_refl _⟩, fun h => h, .inl, fun _ => rfl⟩

/-- The close of a scope leaves a lifetime that reaches to a loop further out. -/
theorem closed (h : Grows tick top k k') {depth clock : Nat}
    (hd : ∀ {m}, k.extendTo = some m → m < depth) : Grows tick top k (k'.closed depth clock) := by
  unfold LocalSurvey.closed
  split
  · rename_i he
    have hreach : ∀ {r}, k'.lastRef = some r →
        ∃ r', (k'.reach clock).lastRef = some r' ∧ r ≤ r' := fun {r} hr =>
      ⟨max clock r, by simp [reach, hr], Nat.le_max_right _ _⟩
    refine ⟨fun hr => ?_, fun hm => ?_, fun hx => h.firstTop hx, fun hx => ?_,
      fun hf => h.forced hf⟩
    · obtain ⟨r', hr', hle⟩ := h.lastRef hr
      obtain ⟨r'', hr'', hle'⟩ := hreach hr'
      exact ⟨r'', hr'', Nat.le_trans hle hle'⟩
    · obtain ⟨m', hm', hle⟩ := h.extendTo hm
      have := hd hm
      rw [he] at hm'
      have := Option.some.inj hm'
      omega
    · rcases h.first hx with hx | ⟨hx, r, hr, hle⟩
      · exact .inl hx
      · obtain ⟨r', hr', hle'⟩ := hreach hr
        exact .inr ⟨hx, r', hr', Nat.le_trans hle hle'⟩
  · exact h

end Grows

end LocalSurvey

namespace Survey

variable {tick : Nat} {inner : Scope} {s' : Survey}

/-- What the walk knows about a local. -/
def known (s : Survey) (l : Nat) : LocalSurvey := (s.locals[l]?).getD {}

theorem getD_modify {locals : Array LocalSurvey} (h : index < locals.size) (l : Nat)
    (g : LocalSurvey → LocalSurvey) :
    ((locals.modify index g)[l]?).getD {} =
      if l = index then g ((locals[l]?).getD {}) else (locals[l]?).getD {} := by
  rw [Array.getElem?_modify]
  by_cases hl : l = index
  · subst hl
    rw [if_pos rfl, if_pos rfl, Array.getElem?_eq_getElem h]
    rfl
  · rw [if_neg (Ne.symm hl), if_neg hl]

theorem known_touch (s : Survey) (h : index < s.locals.size) (l : Nat) :
    (s.touch index).known l =
      if l = index then (s.known l).touched s.clock s.topStart else s.known l :=
  getD_modify h l _

theorem known_force (s : Survey) (h : index < s.locals.size) (l : Nat) :
    (s.force index).known l =
      if l = index then { s.known l with forced := true } else s.known l :=
  getD_modify h l _

theorem known_extend (s : Survey) (h : index < s.locals.size) (depth l : Nat) :
    (s.extend index depth).known l =
      if l = index then (s.known l).extended (Scope.loopInside depth s.scopes) else s.known l := by
  unfold extend
  cases Scope.loopInside depth s.scopes with
  | none => rw [LocalSurvey.extended, ite_self]
  | some loop => exact getD_modify h l _

theorem known_exit {s : Survey} (h : s.scopes = inner :: outer) (l : Nat) :
    s.exit.known l =
      if inner.isLoop then (s.known l).closed outer.length (s.clock + 1) else s.known l := by
  unfold exit
  rw [h]
  simp only [known]
  split
  · rw [Array.getElem?_map]
    cases s.locals[l]? <;> rfl
  · rfl

/-! ## Parts of a walk -/

/-- What a part of a walk does that stays inside the current scope and mentions locals at `tick` or
later. -/
structure Walks (tick : Nat) (s s' : Survey) : Prop where
  size : s'.locals.size = s.locals.size
  topStart : s'.topStart = s.topStart
  forced : ∀ p ∈ s.forced, p ∈ s'.forced
  locals : ∀ l, (s.known l).Grows tick s.topStart (s'.known l)
  scopes : Scope.Follows (fun k => ∃ t ≤ s.topStart, (t, k) ∈ s'.forced) s.scopes s'.scopes

theorem Walks.refl {s : Survey} (h : s.scopes ≠ []) : Walks tick s s :=
  ⟨rfl, rfl, fun _ h => h, fun _ => .refl _, .refl h⟩

theorem Walks.trans {s s'' : Survey} (h : Walks tick s s') (h' : Walks tick s' s'') :
    Walks tick s s'' where
  size := h'.size.trans h.size
  topStart := h'.topStart.trans h.topStart
  forced p hp := h'.forced p (h.forced p hp)
  locals l := (h.locals l).trans (h.topStart ▸ h'.locals l)
  scopes := by
    refine (h.scopes.mono ?_).trans (h.topStart ▸ h'.scopes)
    rintro k ⟨t, ht, hk⟩
    exact ⟨t, ht, h'.forced _ hk⟩

theorem Walks.weaken {tick' : Nat} {s : Survey} (h : Walks tick s s') (hle : tick' ≤ tick) :
    Walks tick' s s' :=
  ⟨h.size, h.topStart, h.forced, fun l => (h.locals l).weaken hle, h.scopes⟩

/-- The invariant of a walk over a body with the given number of parameters. -/
structure Sound (paramCount : Nat) (s : Survey) : Prop where
  scopes : s.scopes ≠ []
  outermost : ¬ Scope.LoopAt 0 s.scopes
  params : ∀ l < paramCount, l ∈ Scope.outermost s.scopes
  topStart : s.topStart ≤ s.clock
  extendTo : ∀ {l m}, (s.known l).extendTo = some m → Scope.LoopAt m s.scopes
  firstTop : ∀ {l x}, (s.known l).firstTop = some x → x ≤ s.topStart
  flagged : ∀ {l}, (s.known l).forced = true → ∃ t, (t, l) ∈ s.forced
  forced : ∀ {t l}, (t, l) ∈ s.forced →
    l < s.locals.size ∧ paramCount ≤ l ∧ (s.known l).firstTop = some t ∧ (s.known l).forced = true
  nodup : (s.forced.map Prod.snd).Nodup

/-! ## Mentions of locals -/

/-- What a read of a local does if a scope has assigned it. -/
structure ReadsAssigned (index depth : Nat) (s s' : Survey) : Prop where
  assigned : Scope.assignedDepth index s.scopes = some depth
  scopes : s'.scopes = s.scopes
  forced : s'.forced = s.forced
  known : ∀ l, s'.known l = if l = index then
      ((s.known l).touched s.clock s.topStart).extended (Scope.loopInside depth s.scopes)
    else s.known l

/-- What a read of a local does if no scope has assigned it. -/
structure ReadsForced (index : Nat) (s s' : Survey) : Prop where
  unassigned : Scope.assignedDepth index s.scopes = none
  scopes : s'.scopes = Scope.assignOutermost index s.scopes
  forced : s'.forced = s.forced ++ if (s.known index).forced then [] else
    [((s.known index).firstTop.getD s.topStart, index)]
  known : ∀ l, s'.known l = if l = index then
      { (s.known l).touched s.clock s.topStart with forced := true }.extended
        (Scope.loopInside 0 (Scope.assignOutermost index s.scopes))
    else s.known l

theorem size_extend (s : Survey) (index depth : Nat) :
    (s.extend index depth).locals.size = s.locals.size := by
  unfold extend
  split
  · rfl
  · exact Array.size_modify

theorem extend_scopes (s : Survey) (index depth : Nat) :
    (s.extend index depth).scopes = s.scopes ∧ (s.extend index depth).forced = s.forced ∧
      (s.extend index depth).topStart = s.topStart := by
  unfold extend
  split <;> exact ⟨rfl, rfl, rfl⟩

/-- A local that is read is assigned in a scope, or it is zeroed. -/
theorem read_cases (s : Survey) (h : index < s.locals.size) :
    (∃ depth, ReadsAssigned index depth s (s.read index)) ∨ ReadsForced index s (s.read index) := by
  have ht : index < (s.touch index).locals.size := by
    rw [touch, Array.size_modify]
    exact h
  have hf : index < ((s.touch index).force index).locals.size := by
    rw [force, Array.size_modify]
    exact ht
  unfold read
  rw [if_pos h]
  simp only
  cases hd : Scope.assignedDepth index (s.touch index).scopes with
  | some depth =>
    obtain ⟨hs, hforced, -⟩ := (s.touch index).extend_scopes index depth
    refine .inl ⟨depth, hd, hs, hforced, fun l => ?_⟩
    simp only
    rw [known_extend _ ht, known_touch s h]
    split <;> rfl
  | none =>
    obtain ⟨hs, hforced, -⟩ := ((s.touch index).force index).extend_scopes index 0
    refine .inr ⟨hd, hs, hforced.trans ?_, fun l => ?_⟩
    · have hk := known_touch s h index
      rw [if_pos rfl] at hk
      change s.forced ++ (if ((s.touch index).known index).forced then [] else
        [(((s.touch index).known index).firstTop.getD s.topStart, index)]) = _
      rw [hk]
      cases hx : (s.known index).firstTop with
      | none | some => simp [LocalSurvey.touched, LocalSurvey.reach, hx]
    · simp only
      rw [known_extend _ hf, known_force _ ht, known_touch s h]
      split <;> rfl

theorem size_read (s : Survey) (index : Nat) : (s.read index).locals.size = s.locals.size := by
  unfold read
  split
  · simp only
    split
    · rw [size_extend, touch, Array.size_modify]
    · rw [size_extend, force, Array.size_modify, touch, Array.size_modify]
  · rfl

theorem topStart_read (s : Survey) (index : Nat) : (s.read index).topStart = s.topStart := by
  unfold read
  split
  · simp only
    split
    · exact ((s.touch index).extend_scopes index _).2.2
    · exact (((s.touch index).force index).extend_scopes index 0).2.2
  · rfl

variable {paramCount : Nat} {s : Survey}

theorem Sound.advance (h : Sound paramCount s) : Sound paramCount s.advance where
  scopes := h.scopes
  outermost := h.outermost
  params := h.params
  topStart := by
    have := h.topStart
    unfold Survey.advance
    simp only
    split <;> omega
  extendTo := h.extendTo
  firstTop {l x} hx := by
    have hle : x ≤ s.topStart := h.firstTop hx
    have := h.topStart
    unfold Survey.advance
    simp only
    split <;> omega
  flagged := h.flagged
  forced := h.forced
  nodup := h.nodup

theorem touched_firstTop (k : LocalSurvey) (clock top : Nat) :
    (k.touched clock top).firstTop = some (k.firstTop.getD top) := by
  unfold LocalSurvey.touched
  cases k.firstTop <;> rfl

/-- A local that is mentioned reaches to the close of an open loop. -/
theorem loopAt_of_extended {k : LocalSurvey} {loop : Option Nat} {scopes : List Scope} {m : Nat}
    (hk : ∀ {m}, k.extendTo = some m → Scope.LoopAt m scopes)
    (hl : ∀ {m}, loop = some m → Scope.LoopAt m scopes)
    (h : (k.extended loop).extendTo = some m) : Scope.LoopAt m scopes := by
  cases loop with
  | none => exact hk h
  | some loop =>
    have hm : k.extendTo.elim loop (min loop) = m := Option.some.inj h
    cases he : k.extendTo with
    | none =>
      rw [he] at hm
      exact hm ▸ hl rfl
    | some m' =>
      rw [he] at hm
      rcases Nat.le_total loop m' with hle | hle
      · rw [← hm, Option.elim, Nat.min_eq_left hle]
        exact hl rfl
      · rw [← hm, Option.elim, Nat.min_eq_right hle]
        exact hk he

theorem extended_firstTop (k : LocalSurvey) (loop : Option Nat) :
    (k.extended loop).firstTop = k.firstTop ∧ (k.extended loop).forced = k.forced := by
  cases loop <;> exact ⟨rfl, rfl⟩

theorem closed_firstTop (k : LocalSurvey) (depth clock : Nat) :
    (k.closed depth clock).firstTop = k.firstTop ∧ (k.closed depth clock).forced = k.forced := by
  unfold LocalSurvey.closed
  split <;> exact ⟨rfl, rfl⟩

theorem write_eq (s : Survey) (h : index < s.locals.size) (hs : s.scopes = inner :: outer) :
    s.write index = { s.touch index with
      scopes := { inner with assigned := index :: inner.assigned } :: outer } := by
  have ht : (s.touch index).scopes = inner :: outer := hs
  unfold write
  rw [if_pos h]
  simp only
  rw [ht]

theorem walks_alternative (tick : Nat) (hn : 1 < s.scopes.length) : Walks tick s s.alternative := by
  unfold alternative
  match hs : s.scopes, hn with
  | inner :: t :: rest, _ =>
    refine ⟨rfl, rfl, fun _ h => h, fun l => .refl _, ?_⟩
    rw [hs]
    exact ⟨inner, _, t :: rest, [], rfl, rfl, rfl, nofun, fun l hl => hl⟩

theorem alternative_eq (s : Survey) : s.alternative.forced = s.forced ∧
    (∀ l, s.alternative.known l = s.known l) := by
  unfold alternative
  split <;> exact ⟨rfl, fun _ => rfl⟩

theorem exit_eq {s₁ : Survey} (h : s₁.scopes = inner :: outer) :
    s₁.exit.scopes = outer ∧ s₁.exit.forced = s₁.forced ∧
      s₁.exit.topStart = s₁.topStart ∧ s₁.exit.locals.size = s₁.locals.size := by
  unfold exit
  rw [h]
  simp only
  refine ⟨trivial, trivial, trivial, ?_⟩
  split
  · exact Array.size_map
  · rfl

section

variable (hs : Sound paramCount s)
include hs

theorem Sound.getD_firstTop_le (l : Nat) : (s.known l).firstTop.getD s.topStart ≤ s.topStart := by
  cases hx : (s.known l).firstTop with
  | none => exact Nat.le_refl _
  | some x => exact hs.firstTop hx

/-- A local that is read and that no scope has assigned is zeroed, now or before. -/
theorem ReadsForced.zeroed (hr : ReadsForced index s s') :
    ∃ t ≤ s.topStart, (t, index) ∈ s'.forced := by
  rw [hr.forced]
  cases hf : (s.known index).forced with
  | true =>
    obtain ⟨t, ht⟩ := hs.flagged hf
    exact ⟨t, hs.firstTop (hs.forced ht).2.2.1, List.mem_append_left _ ht⟩
  | false =>
    exact ⟨_, hs.getD_firstTop_le index, List.mem_append_right _ (List.mem_singleton.2 rfl)⟩

theorem walks_read (index : Nat) : Walks s.clock s (s.read index) := by
  by_cases h : index < s.locals.size
  · have hsize := s.size_read index
    have htop := s.topStart_read index
    rcases s.read_cases h with ⟨depth, hr⟩ | hr
    · refine ⟨hsize, htop, fun p hp => hr.forced ▸ hp, fun l => ?_, ?_⟩
      · rw [hr.known]
        split
        · exact (LocalSurvey.Grows.touched _).trans (.extended _ _)
        · exact .refl _
      · rw [hr.scopes]
        exact .refl hs.scopes
    · refine ⟨hsize, htop, fun p hp => hr.forced ▸ List.mem_append_left _ hp, fun l => ?_, ?_⟩
      · rw [hr.known]
        split
        · exact (LocalSurvey.Grows.touched _).trans ((LocalSurvey.Grows.flagged _).trans
            (.extended _ _))
        · exact .refl _
      · rw [hr.scopes]
        exact .assignOutermost hs.scopes (hr.zeroed hs)
  · rw [read, if_neg h]
    exact .refl hs.scopes

/-- What is known about a local that has been zeroed stays known. -/
theorem Sound.kept (hw : Walks tick s s') {t l : Nat}
    (h : (t, l) ∈ s.forced) : l < s'.locals.size ∧ paramCount ≤ l ∧
      (s'.known l).firstTop = some t ∧ (s'.known l).forced = true := by
  obtain ⟨hsize, hparam, hfirst, hflag⟩ := hs.forced h
  exact ⟨hw.size ▸ hsize, hparam, (hw.locals l).firstTop hfirst, (hw.locals l).forced hflag⟩

/-- A part of a walk keeps the invariant if it keeps what it says about single locals. -/
theorem Sound.walks (hw : Walks tick s s')
    (hclock : s.clock ≤ s'.clock)
    (hextend : ∀ {l m}, (s'.known l).extendTo = some m → Scope.LoopAt m s'.scopes)
    (hflag : ∀ {l}, (s'.known l).forced = true → ∃ t, (t, l) ∈ s'.forced)
    (hforced : ∀ {t l}, (t, l) ∈ s'.forced → l < s'.locals.size ∧ paramCount ≤ l ∧
      (s'.known l).firstTop = some t ∧ (s'.known l).forced = true)
    (hnodup : (s'.forced.map Prod.snd).Nodup) : Sound paramCount s' where
  scopes := hw.scopes.ne_nil
  outermost h := hs.outermost ((hw.scopes.loopAt 0).1 h)
  params l hl := by
    obtain ⟨_, _, _, _, -, -, -, -, ho⟩ := hw.scopes
    exact ho l (hs.params l hl)
  topStart := by
    rw [hw.topStart]
    exact Nat.le_trans hs.topStart hclock
  extendTo := hextend
  firstTop {l x} hx := by
    rw [hw.topStart]
    rcases (hw.locals l).first hx with h | h
    · exact hs.firstTop h
    · exact Nat.le_of_eq h.1
  flagged := hflag
  forced := hforced
  nodup := hnodup

/-- A part of a walk keeps the invariant if it zeroes no local. -/
theorem Sound.unforced (hw : Walks tick s s') (hclock : s.clock ≤ s'.clock)
    (hforced : s'.forced = s.forced)
    (hextend : ∀ {l m}, (s'.known l).extendTo = some m → Scope.LoopAt m s'.scopes)
    (hflag : ∀ l, (s'.known l).forced = (s.known l).forced) : Sound paramCount s' :=
  hs.walks hw hclock hextend (fun hl => hforced ▸ hs.flagged (hflag _ ▸ hl))
    (fun hl => hs.kept hw (hforced ▸ hl)) (hforced ▸ hs.nodup)

/-- A read keeps the invariant of a walk. -/
theorem sound_read (index : Nat) : Sound paramCount (s.read index) := by
  by_cases h : index < s.locals.size
  · have hw := walks_read hs index
    have hclock : s.clock ≤ (s.read index).clock := Nat.le_of_eq (s.clock_read index).symm
    rcases s.read_cases h with ⟨depth, hr⟩ | hr
    · refine hs.unforced hw hclock hr.forced (fun {l m} hm => ?_) fun l => ?_
      · rw [hr.known] at hm
        rw [hr.scopes]
        split at hm
        · refine loopAt_of_extended (fun hk => ?_) Scope.loopAt_of_loopInside hm
          exact hs.extendTo (l := l) hk
        · exact hs.extendTo hm
      · rw [hr.known]
        split
        · exact (extended_firstTop _ _).2
        · rfl
    · refine hs.walks hw hclock ?_ ?_ ?_ ?_
      · intro l m hm
        rw [hr.known] at hm
        rw [hr.scopes]
        split at hm
        · refine loopAt_of_extended (fun hk => ?_) Scope.loopAt_of_loopInside hm
          exact (Scope.loopAt_assignOutermost _ _ _).2 (hs.extendTo (l := l) hk)
        · exact (Scope.loopAt_assignOutermost _ _ _).2 (hs.extendTo hm)
      · intro l hl
        by_cases hli : l = index
        · obtain ⟨t, -, ht⟩ := hr.zeroed hs
          exact ⟨t, hli ▸ ht⟩
        · rw [hr.known, if_neg hli] at hl
          obtain ⟨t, ht⟩ := hs.flagged hl
          exact ⟨t, hw.forced _ ht⟩
      · intro t l hl
        rw [hr.forced] at hl
        rcases List.mem_append.1 hl with hl | hl
        · exact hs.kept hw hl
        · split at hl
          · cases hl
          · obtain ⟨rfl, rfl⟩ := Prod.mk.inj (List.mem_singleton.1 hl)
            refine ⟨hw.size ▸ h, ?_, ?_⟩
            · refine Nat.le_of_not_lt fun hlt => ?_
              exact Scope.assignedDepth_ne_none (hs.params l hlt) hr.unassigned
            · rw [hr.known, if_pos rfl, (extended_firstTop _ _).1, (extended_firstTop _ _).2]
              exact ⟨touched_firstTop _ s.clock _, rfl⟩
      · rw [hr.forced, List.map_append]
        refine List.nodup_append.2 ⟨hs.nodup, ?_, ?_⟩
        · split
          · exact List.nodup_nil
          · exact List.nodup_cons.2 ⟨List.not_mem_nil, List.nodup_nil⟩
        · intro a ha b hb hab
          split at hb
          · cases hb
          · rename_i hf
            obtain ⟨⟨t, l⟩, hp, rfl⟩ := List.mem_map.1 ha
            have hli : l = index := hab.trans (List.mem_singleton.1 hb)
            exact hf (hli ▸ (hs.forced hp).2.2.2)
  · rwa [read, if_neg h]

theorem known_write (h : index < s.locals.size) (l : Nat) :
    (s.write index).known l =
      if l = index then (s.known l).touched s.clock s.topStart else s.known l := by
  obtain ⟨inner, outer, hsc⟩ := List.exists_cons_of_ne_nil hs.scopes
  rw [← known_touch s h l, s.write_eq h hsc]
  rfl

theorem walks_write (index : Nat) : Walks s.clock s (s.write index) := by
  by_cases h : index < s.locals.size
  · obtain ⟨inner, outer, hsc⟩ := List.exists_cons_of_ne_nil hs.scopes
    rw [s.write_eq h hsc]
    refine ⟨Array.size_modify, rfl, fun _ hp => hp, fun l => ?_, ?_⟩
    · have hk := known_touch s h l
      refine (?_ : (s.known l).Grows s.clock s.topStart ((s.touch index).known l))
      rw [hk]
      split
      · exact .touched _
      · exact .refl _
    · refine ⟨inner, _, outer, [], hsc, rfl, rfl, nofun, fun l hl => ?_⟩
      rw [hsc] at hl
      cases outer with
      | nil => exact List.mem_cons_of_mem _ hl
      | cons t rest => exact hl
  · rw [write, if_neg h]
    exact .refl hs.scopes

theorem sound_write (index : Nat) : Sound paramCount (s.write index) := by
  by_cases h : index < s.locals.size
  · have hw := walks_write hs index
    obtain ⟨inner, outer, hsc⟩ := List.exists_cons_of_ne_nil hs.scopes
    refine hs.unforced hw (Nat.le_of_eq (s.clock_write index).symm) (by rw [s.write_eq h hsc]; rfl)
      (fun {l m} hm => ?_) fun l => ?_
    · refine (hw.scopes.loopAt m).2 (hs.extendTo (l := l) ?_)
      rw [known_write hs h] at hm
      split at hm <;> exact hm
    · rw [known_write hs h]
      split <;> rfl
  · rwa [write, if_neg h]

/-! ## Blocks -/

theorem sound_enter (isLoop : Bool) : Sound paramCount (s.enter isLoop) where
  scopes := List.cons_ne_nil _ _
  outermost := by
    rintro (⟨h, -⟩ | h)
    · exact hs.scopes (List.length_eq_zero_iff.1 h.symm)
    · exact hs.outermost h
  params l hl := by
    rw [enter, Scope.outermost_cons _ hs.scopes]
    exact hs.params l hl
  topStart := hs.topStart
  extendTo hm := .inr (hs.extendTo hm)
  firstTop := hs.firstTop
  flagged := hs.flagged
  forced := hs.forced
  nodup := hs.nodup

theorem sound_alternative (hn : 1 < s.scopes.length) : Sound paramCount s.alternative := by
  have hw := walks_alternative 0 hn
  obtain ⟨hforced, hknown⟩ := s.alternative_eq
  refine hs.unforced hw ?_ hforced (fun {l m} hm => ?_) fun l => by rw [hknown]
  · rw [s.clock_alternative]
    omega
  · rw [hknown] at hm
    exact (hw.scopes.loopAt m).2 (hs.extendTo hm)

/-- The walk through a block, from what the walk over its body does. -/
theorem walks_exit {isLoop : Bool} {s₁ : Survey} (hw : Walks tick (s.enter isLoop) s₁)
    (hs₁ : Sound paramCount s₁) (hclock : s.clock ≤ s₁.clock) :
    Walks tick s s₁.exit ∧ Sound paramCount s₁.exit := by
  obtain ⟨inner, inner', outer, indices, hin, hout, hloop, hi, -⟩ := hw.scopes
  obtain ⟨rfl, rfl⟩ := List.cons.inj hin
  obtain ⟨hsc, hforced, htop, hsize⟩ := exit_eq hout
  have hknown := known_exit hout
  rw [Scope.length_widened] at hknown
  have hwalks : Walks tick s s₁.exit := by
    refine ⟨hsize.trans hw.size, htop.trans hw.topStart, ?_, fun l => ?_, ?_⟩
    · rw [hforced]
      exact hw.forced
    · rw [hknown]
      have hg : (s.known l).Grows tick s.topStart (s₁.known l) := hw.locals l
      split
      · exact hg.closed fun hm => (hs.extendTo hm).lt_length
      · exact hg
    · rw [hsc, hforced]
      exact .widened hs.scopes hi
  refine ⟨hwalks, hs.walks hwalks ?_ ?_ ?_ ?_ (hforced ▸ hs₁.nodup)⟩
  · rw [clock_exit]
    omega
  · intro l m hm
    -- the lifetime reaches to a loop that stays open: the one that closes was taken off
    have hopen : (s₁.known l).extendTo = some m ∧ (inner'.isLoop = true → m ≠ s.scopes.length) := by
      rw [hknown] at hm
      split at hm
      · unfold LocalSurvey.closed at hm
        split at hm
        · cases hm
        · rename_i hne
          refine ⟨hm, fun _ hlen => ?_⟩
          rw [hm, hlen] at hne
          exact hne rfl
      · rename_i hl
        exact ⟨hm, fun h => absurd h hl⟩
    have hat := hs₁.extendTo hopen.1
    rw [hout] at hat
    rw [hsc]
    rcases hat with ⟨hlen, hl⟩ | hat
    · rw [Scope.length_widened] at hlen
      exact absurd hlen (hopen.2 hl)
    · exact hat
  · intro l hl
    rw [hforced]
    refine hs₁.flagged ?_
    rw [hknown] at hl
    split at hl
    · rwa [(closed_firstTop _ _ _).2] at hl
    · exact hl
  · intro t l hl
    rw [hforced] at hl
    obtain ⟨hsz, hparam, hfirst, hflag⟩ := hs₁.forced hl
    refine ⟨hsize ▸ hsz, hparam, ?_⟩
    rw [hknown]
    split
    · rw [(closed_firstTop _ _ _).1, (closed_firstTop _ _ _).2]
      exact ⟨hfirst, hflag⟩
    · exact ⟨hfirst, hflag⟩

/-! ## Instructions and bodies -/

/-- The first counter value at which an instruction that begins after the given one can mention a
local. -/
def mentionTick (clock : Nat) : Instr → Nat
  | .leaf _ _ => clock + 1
  | _ => clock + 2

theorem walks_advance (hn : 1 < s.scopes.length) : Walks tick s s.advance := by
  refine ⟨rfl, ?_, fun _ h => h, fun _ => .refl _, .refl hs.scopes⟩
  unfold advance
  simp only
  rw [if_neg (by omega)]

theorem length_enter (isLoop : Bool) : 1 < (s.enter isLoop).scopes.length := by
  have hpos := List.length_pos_iff.2 hs.scopes
  rw [enter, List.length_cons]
  omega

end

theorem le_mentionTick (clock : Nat) (i : Instr) : clock + 1 ≤ mentionTick clock i := by
  cases i <;> simp [mentionTick]

mutual

/-- **The walk over an instruction** keeps the invariant. -/
theorem walks_instr {s : Survey} (hs : Sound paramCount s) : (i : Instr) →
    Walks (mentionTick s.clock i) s.advance (s.instr i) ∧ Sound paramCount (s.instr i)
  | .leaf _ op => by
    unfold instr
    split
    all_goals rename_i h; cases h
    · exact ⟨walks_read hs.advance _, sound_read hs.advance _⟩
    · exact ⟨walks_write hs.advance _, sound_write hs.advance _⟩
    · exact ⟨walks_write hs.advance _, sound_write hs.advance _⟩
    · exact ⟨.refl hs.scopes, hs.advance⟩
  | .block _ _ inner | .ifThen _ _ inner | .loop _ _ inner => by
    have hadv := hs.advance
    have hbody := fun isLoop =>
      walks_body (sound_enter hadv isLoop) (length_enter hadv isLoop) inner
    rw [instr]
    refine walks_exit hadv (hbody _).1 (hbody _).2 ?_
    rw [clock_body]
    exact Nat.le_add_right _ _
  | .ifElse _ _ inner other => by
    have hadv := hs.advance
    have hbody := walks_body (sound_enter hadv false) (length_enter hadv false) inner
    have hn : 1 < ((s.advance.enter false).body inner).scopes.length := by
      rw [hbody.1.scopes.length]
      exact length_enter hadv false
    have halt := walks_alternative (s.clock + 2) hn
    have hother := walks_body (sound_alternative hbody.2 hn) (by rw [halt.scopes.length]; exact hn)
      other
    have hlater : s.clock + 2 ≤ ((s.advance.enter false).body inner).alternative.clock + 1 := by
      rw [clock_alternative, clock_body]
      change s.clock + 2 ≤ s.clock + 1 + _ + 1 + 1
      omega
    rw [instr]
    refine walks_exit hadv (hbody.1.trans (halt.trans (hother.1.weaken hlater))) hother.2 ?_
    rw [clock_body, clock_alternative, clock_body]
    change s.advance.clock ≤ s.advance.clock + _ + _ + _
    omega

/-- **The walk over a nested body** keeps the invariant. -/
theorem walks_body {s : Survey} (hs : Sound paramCount s) (hn : 1 < s.scopes.length) :
    (code : List Instr) →
    Walks (s.clock + 1) s (s.body code) ∧ Sound paramCount (s.body code)
  | [] => ⟨.refl hs.scopes, hs⟩
  | i :: rest => by
    have hi := walks_instr hs i
    have hfirst := (walks_advance hs hn).trans (hi.1.weaken (le_mentionTick _ i))
    have hrest := walks_body hi.2 (by rw [hfirst.scopes.length]; exact hn) rest
    refine ⟨hfirst.trans (hrest.1.weaken ?_), hrest.2⟩
    rw [clock_instr]
    omega

end

end Survey

end Moonstack
