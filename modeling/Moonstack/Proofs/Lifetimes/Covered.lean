import Moonstack.Proofs.Lifetimes.Walk

/-!
# Lifetimes cover a body

`Instr.Covered` says, instruction by instruction, that the lifetimes of a body are long enough. It
follows the set of the locals that have a value: the parameters at first, then what is zeroed in
front of an instruction and what is assigned. An assignment inside a block does not count behind it,
and inside a loop only those locals count whose lifetime reaches to the close of the loop.

* Every local that is read has a value, and every local that is mentioned is inside its lifetime.
* Locals are zeroed in front of top-level instructions only, before they are mentioned.

The lifetimes of `Lifetimes.ofBody` cover the body (`covered_ofBody`). The proof goes along the walk:
a lifetime that is to reach to the close of a loop does so in the end (`Survey.Leads`), and what the
scopes of the walk have assigned has a value (`Scope.Reaches`).
-/

namespace Moonstack

variable {tick : Nat}

/-- Every instruction takes a counter step. -/
theorem Instr.ticks_pos (i : Instr) : 1 ≤ i.ticks := by
  cases i <;> simp only [Instr.ticks] <;> omega

/-! ## Covered bodies -/

namespace Lifetimes

/-- The value of a local is needed at the counter value or later. -/
def Spans (L : Lifetimes) (l tick : Nat) : Prop := ∃ last, L.lastRef l = some last ∧ tick ≤ last

instance (L : Lifetimes) (l tick : Nat) : Decidable (L.Spans l tick) :=
  decidable_of_iff ((L.lastRef l).any fun last => decide (tick ≤ last)) (by
    simp [Spans, Option.any_eq_true])

theorem Spans.mono {L : Lifetimes} {l tick' : Nat} (h : L.Spans l tick) (hle : tick' ≤ tick) :
    L.Spans l tick' := by
  obtain ⟨last, hlast, hl⟩ := h
  exact ⟨last, hlast, Nat.le_trans hle hl⟩

/-- The locals that have a value after the zeroing at a counter value. -/
def zeroing (L : Lifetimes) (tick : Nat) (A : Nat → Prop) (l : Nat) : Prop :=
  A l ∨ (tick, l) ∈ L.forced

/-- No local is zeroed later than the first counter value and up to the second. -/
def Still (L : Lifetimes) (first last : Nat) : Prop := ∀ p ∈ L.forced, ¬ (first < p.1 ∧ p.1 ≤ last)

/-- A local that is zeroed here and not needed later is the only one that is zeroed here. -/
def Lone (L : Lifetimes) (tick : Nat) : Prop :=
  ∀ l l', (tick, l) ∈ L.forced → (tick, l') ∈ L.forced → L.Spans l (tick + 1) ∨ l = l'

/-- A local is mentioned inside its lifetime and not before it is zeroed. -/
def Allows (L : Lifetimes) (l tick : Nat) : Prop :=
  L.Spans l tick ∧ ∀ t, (t, l) ∈ L.forced → t ≤ tick

theorem Still.mono {L : Lifetimes} {first last first' last' : Nat} (h : L.Still first last)
    (hf : first ≤ first') (hl : last' ≤ last) : L.Still first' last' :=
  fun p hp hr => h p hp ⟨Nat.lt_of_le_of_lt hf hr.1, Nat.le_trans hr.2 hl⟩

end Lifetimes

def Op.assigns : Op → Option Nat
  | localSet l | localTee l => some l
  | _ => none

namespace Instr

/-- The locals that have a value behind an instruction that begins after the given counter value. -/
def leaves (L : Lifetimes) (A : Nat → Prop) (clock : Nat) : Instr → Nat → Prop
  | leaf _ op => fun l => L.zeroing (clock + 1) A l ∨ op.assigns = some l
  | _ => L.zeroing (clock + 1) A

mutual

/-- The lifetimes are long enough for an instruction, of a function with `count` locals, that begins
after the counter value `clock`, where the locals of `A` have a value. -/
def Covered (L : Lifetimes) (count : Nat) (A : Nat → Prop) (clock : Nat) : Instr → Prop
  | leaf _ op => L.Lone (clock + 1) ∧
    match op with
    | .localGet l => l < count → L.zeroing (clock + 1) A l ∧ L.Allows l (clock + 1)
    | .localSet l | .localTee l => l < count → L.Allows l (clock + 1)
    | _ => True
  | block _ _ body | ifThen _ _ body =>
    L.Still (clock + 1) (clock + 2 + bodyTicks body) ∧ L.Lone (clock + 1) ∧
      bodyCovered L count (L.zeroing (clock + 1) A) (clock + 1) body
  | loop _ _ body =>
    L.Still (clock + 1) (clock + 2 + bodyTicks body) ∧ L.Lone (clock + 1) ∧
      bodyCovered L count
        (fun l => L.zeroing (clock + 1) A l ∧ L.Spans l (clock + 2 + bodyTicks body))
        (clock + 1) body
  | ifElse _ _ body other =>
    L.Still (clock + 1) (clock + 3 + bodyTicks body + bodyTicks other) ∧ L.Lone (clock + 1) ∧
      bodyCovered L count (L.zeroing (clock + 1) A) (clock + 1) body ∧
      bodyCovered L count (L.zeroing (clock + 1) A) (clock + 2 + bodyTicks body) other

/-- The lifetimes are long enough for a body. -/
def bodyCovered (L : Lifetimes) (count : Nat) (A : Nat → Prop) (clock : Nat) : List Instr → Prop
  | [] => True
  | i :: rest =>
    Covered L count A clock i ∧
      bodyCovered L count (leaves L A clock i) (clock + ticks i) rest

end

end Instr

/-! ## What the scopes have assigned -/

namespace Scope

/-- A local has a value: a scope has assigned it, and its lifetime reaches to the close of the loops
inside this scope. Outside all scopes, the locals of `P` have one. -/
def Reaches (L : Lifetimes) (close : Nat → Nat) (P : Nat → Prop) (l : Nat) : List Scope → Prop
  | [] => P l
  | s :: outer => l ∈ s.assigned ∨
    ((s.isLoop = true → L.Spans l (close outer.length)) ∧ Reaches L close P l outer)

variable {L : Lifetimes} {close : Nat → Nat} {P Q : Nat → Prop} {l : Nat} {scopes : List Scope}

theorem Reaches.mono (h : Reaches L close P l scopes) (hPQ : P l → Q l) :
    Reaches L close Q l scopes := by
  induction scopes with
  | nil => exact hPQ h
  | cons s outer ih => exact h.imp_right fun ⟨hs, ho⟩ => ⟨hs, ih ho⟩

theorem Reaches.congr {close' : Nat → Nat} (h : Reaches L close P l scopes)
    (hc : ∀ m < scopes.length, close m = close' m) : Reaches L close' P l scopes := by
  induction scopes with
  | nil => exact h
  | cons s outer ih =>
    refine h.imp_right fun ⟨hs, ho⟩ => ⟨?_, ih ho fun m hm => hc m (Nat.lt_succ_of_lt hm)⟩
    rw [← hc _ (Nat.lt_succ_self _)]
    exact hs

theorem reaches_of_assignOutermost {index : Nat} (ho : ¬ LoopAt 0 scopes) (hP : P index)
    (h : Reaches L close P l (assignOutermost index scopes)) : Reaches L close P l scopes := by
  fun_induction assignOutermost index scopes with
  | case1 => exact h
  | case2 s =>
    rcases h with h | h
    · rcases List.mem_cons.1 h with rfl | h
      · exact .inr ⟨fun hs => absurd (.inl ⟨rfl, hs⟩) ho, hP⟩
      · exact .inl h
    · exact .inr h
  | case3 s outer _ ih =>
    rcases h with h | ⟨hs, h⟩
    · exact .inl h
    · rw [length_assignOutermost] at hs
      exact .inr ⟨hs, ih (fun h => ho (.inr h)) h⟩

theorem reaches_of_widened {indices : List Nat} (ho : ¬ LoopAt 0 scopes) (hP : ∀ k ∈ indices, P k)
    (h : Reaches L close P l (widened scopes indices)) : Reaches L close P l scopes := by
  induction indices with
  | nil => exact h
  | cons k rest ih =>
    refine ih (fun j hj => hP j (List.mem_cons_of_mem _ hj)) ?_
    refine reaches_of_assignOutermost ?_ (hP k List.mem_cons_self) h
    exact fun hl => ho ((loopAt_widened 0 scopes rest).1 hl)

theorem assignedDepth_lt {depth : Nat} (h : assignedDepth l scopes = some depth) :
    depth < scopes.length := by
  induction scopes with
  | nil => cases h
  | cons s outer ih =>
    rw [assignedDepth] at h
    split at h
    · rw [← Option.some.inj h]
      exact Nat.lt_succ_self _
    · exact Nat.lt_succ_of_lt (ih h)

theorem assignedDepth_assignOutermost (hne : scopes ≠ []) (h : assignedDepth l scopes = none) :
    assignedDepth l (assignOutermost l scopes) = some 0 := by
  fun_induction assignOutermost l scopes with
  | case1 => exact absurd rfl hne
  | case2 s => simp [assignedDepth]
  | case3 s outer hs ih =>
    rw [assignedDepth] at h ⊢
    split at h
    · cases h
    · rename_i hl
      rw [if_neg hl]
      exact ih (fun ho => hs ho) h

/-- A local that a scope has assigned has a value, if its lifetime reaches to the close of the
outermost loop inside this scope. -/
theorem reaches_of_assignedDepth {depth : Nat} (hd : assignedDepth l scopes = some depth)
    (hclose : ∀ m n, m ≤ n → n < scopes.length → close n ≤ close m)
    (hspan : ∀ {m}, loopInside depth scopes = some m → L.Spans l (close m)) :
    Reaches L close P l scopes := by
  induction scopes with
  | nil => cases hd
  | cons s outer ih =>
    rw [assignedDepth] at hd
    split at hd
    · rename_i hs
      exact .inl (List.contains_iff_mem.1 hs)
    · have hlt : depth < outer.length := assignedDepth_lt hd
      rw [loopInside, if_neg (Nat.not_le.2 hlt)] at hspan
      refine .inr ⟨fun hs => ?_, ih hd (fun m n hmn hn => hclose m n hmn (Nat.lt_succ_of_lt hn)) ?_⟩
      · cases hin : loopInside depth outer with
        | none => exact hspan (by rw [hin, if_pos hs]; rfl)
        | some m =>
          refine (hspan (by rw [hin]; rfl)).mono ?_
          exact hclose m _ (Nat.le_of_lt (loopAt_of_loopInside hin).lt_length) (Nat.lt_succ_self _)
      · intro m hm
        exact hspan (by rw [hm]; rfl)

end Scope

/-! ## The walk -/

namespace Survey

variable {l : Nat} {isLoop : Bool} {s₁ : Survey}

/-- The lifetimes that a walk has found. -/
def lifetimes (s : Survey) : Lifetimes :=
  { lastRefs := s.locals.map LocalSurvey.lastRef, forced := s.forced, ticks := s.clock }

theorem lastRef_lifetimes (s : Survey) (l : Nat) : s.lifetimes.lastRef l = (s.known l).lastRef := by
  rw [lifetimes, Lifetimes.lastRef, Array.getElem?_map, known]
  cases s.locals[l]? <;> rfl

/-- At its end `e`, the walk knows what it knows at `s`, and lifetimes that are to reach to the close
of a loop do so. The scope of depth `m` closes at the counter value `close m`. -/
structure Leads (close : Nat → Nat) (s e : Survey) : Prop where
  lastRef : ∀ {l r}, (s.known l).lastRef = some r → e.lifetimes.Spans l r
  extendTo : ∀ {l m}, (s.known l).extendTo = some m → e.lifetimes.Spans l (close m)
  firstTop : ∀ {l x}, (s.known l).firstTop = some x → (e.known l).firstTop = some x
  forced : ∀ p ∈ s.forced, p ∈ e.forced

/-- The scopes inside close first. -/
def Closes (close : Nat → Nat) (s : Survey) : Prop :=
  ∀ m n, m ≤ n → n < s.scopes.length → close n ≤ close m

/-- The locals that are zeroed up to a counter value. -/
def Due (e : Survey) (clock l : Nat) : Prop := ∃ t ≤ clock, (t, l) ∈ e.forced

/-- All that the scopes have assigned has a value. -/
def Gives (e : Survey) (close : Nat → Nat) (A : Nat → Prop) (s : Survey) : Prop :=
  ∀ l, Scope.Reaches e.lifetimes close (e.Due s.clock) l s.scopes → A l

variable {paramCount : Nat} {e s s' : Survey} {close : Nat → Nat} {A : Nat → Prop}

theorem Leads.of_walks (hl : Leads close s' e) (hw : Walks tick s s') (hs : Sound paramCount s)
    (hc : Closes close s) : Leads close s e where
  lastRef {l r} hr := by
    obtain ⟨r', hr', hle⟩ := (hw.locals l).lastRef hr
    exact (hl.lastRef hr').mono hle
  extendTo {l m} hm := by
    obtain ⟨m', hm', hle⟩ := (hw.locals l).extendTo hm
    exact (hl.extendTo hm').mono (hc m' m hle (hs.extendTo hm).lt_length)
  firstTop {l x} hx := hl.firstTop ((hw.locals l).firstTop hx)
  forced p hp := hl.forced p (hw.forced p hp)

/-- The times at which scopes close, with one more scope. -/
def closing (close : Nat → Nat) (depth tick : Nat) (m : Nat) : Nat :=
  if m = depth then tick else close m

theorem closing_of_lt {depth m : Nat} (h : m < depth) : closing close depth tick m = close m :=
  if_neg (Nat.ne_of_lt h)

theorem closing_self (close : Nat → Nat) (depth tick : Nat) : closing close depth tick depth = tick :=
  if_pos rfl

theorem Closes.enter (hc : Closes close s) (isLoop : Bool)
    (ht : ∀ m < s.scopes.length, tick ≤ close m) :
    Closes (closing close s.scopes.length tick) (s.enter isLoop) := by
  intro m n hmn hn
  have hn' : n < s.scopes.length + 1 := hn
  by_cases hns : n = s.scopes.length
  · subst hns
    rw [closing_self]
    by_cases hms : m = s.scopes.length
    · exact Nat.le_of_eq (by rw [hms, closing_self])
    · rw [closing_of_lt (by omega)]
      exact ht m (by omega)
  · rw [closing_of_lt (by omega), closing_of_lt (by omega)]
    exact hc m n hmn (by omega)

/-- What leads from the close of a block to the end leads from the body to the end. -/
theorem leads_exit {inner : Scope} {outer : List Scope} (hs : Sound paramCount s)
    (hsc : s.scopes = inner :: outer) (hl : Leads close s.exit e) :
    Leads (closing close outer.length (s.clock + 1)) s e where
  lastRef {l r} hr := by
    have hk := known_exit hsc l
    split at hk
    · unfold LocalSurvey.closed at hk
      split at hk
      · have hx : (s.exit.known l).lastRef = some (max (s.clock + 1) r) := by
          rw [hk]
          simp [LocalSurvey.reach, hr]
        exact (hl.lastRef hx).mono (Nat.le_max_right _ _)
      · exact hl.lastRef (hk ▸ hr)
    · exact hl.lastRef (hk ▸ hr)
  extendTo {l m} hm := by
    have hat := hs.extendTo hm
    rw [hsc] at hat
    have hk := known_exit hsc l
    rcases hat with ⟨rfl, hloop⟩ | hat
    · rw [closing_self]
      rw [if_pos hloop, LocalSurvey.closed, if_pos hm] at hk
      cases hr : (s.known l).lastRef with
      | none => exact hl.lastRef (by rw [hk]; simp [LocalSurvey.reach, hr])
      | some r =>
        have hx : (s.exit.known l).lastRef = some (max (s.clock + 1) r) := by
          rw [hk]
          simp [LocalSurvey.reach, hr]
        exact (hl.lastRef hx).mono (Nat.le_max_left _ _)
    · rw [closing_of_lt hat.lt_length]
      have hne : (s.known l).extendTo ≠ some outer.length := by
        rw [hm]
        exact fun h => absurd (Option.some.inj h) (Nat.ne_of_lt hat.lt_length)
      rw [LocalSurvey.closed, if_neg hne, ite_self] at hk
      exact hl.extendTo (hk ▸ hm)
  firstTop {l x} hx := by
    refine hl.firstTop ?_
    rw [known_exit hsc]
    split
    · rw [(closed_firstTop _ _ _).1]
      exact hx
    · exact hx
  forced p hp := hl.forced p (by rw [(exit_eq hsc).2.1]; exact hp)

/-! ## Mentions -/

theorem touched_lastRef (k : LocalSurvey) (tick top : Nat) :
    ∃ r, (k.touched tick top).lastRef = some r ∧ tick ≤ r := by
  cases hk : k.lastRef with
  | none => exact ⟨tick, by simp [LocalSurvey.touched, LocalSurvey.reach, hk], Nat.le_refl _⟩
  | some r =>
    exact ⟨max tick r, by simp [LocalSurvey.touched, LocalSurvey.reach, hk], Nat.le_max_left _ _⟩

/-- The local has just been mentioned. -/
def Mentions (s : Survey) (l : Nat) (s' : Survey) : Prop :=
  (∃ r, (s'.known l).lastRef = some r ∧ s.clock ≤ r) ∧
    ∃ x, (s'.known l).firstTop = some x ∧ x ≤ s.clock

theorem extended_lastRef (k : LocalSurvey) (loop : Option Nat) :
    (k.extended loop).lastRef = k.lastRef := by
  cases loop <;> rfl

theorem allows_of_mentions (he : Sound paramCount e) (hl : Leads close s' e)
    (hm : Mentions s l s') : e.lifetimes.Allows l s.clock := by
  obtain ⟨⟨r, hr, hle⟩, x, hx, hxle⟩ := hm
  refine ⟨(hl.lastRef hr).mono hle, fun t ht => ?_⟩
  have hfirst := hl.firstTop hx
  rw [(he.forced ht).2.2.1] at hfirst
  rw [Option.some.inj hfirst]
  exact hxle

section

variable (hs : Sound paramCount s) (hA : Gives e close A s)
include hs

theorem mentions_of_touched
    (hr : (s'.known l).lastRef = ((s.known l).touched s.clock s.topStart).lastRef)
    (hf : (s'.known l).firstTop = ((s.known l).touched s.clock s.topStart).firstTop) :
    Mentions s l s' := by
  obtain ⟨r, hlast, hle⟩ := touched_lastRef (s.known l) s.clock s.topStart
  exact ⟨⟨r, hr.trans hlast, hle⟩, _, hf.trans (touched_firstTop _ _ _),
    Nat.le_trans (hs.getD_firstTop_le l) hs.topStart⟩

theorem mentions_read (h : l < s.locals.size) : Mentions s l (s.read l) := by
  rcases s.read_cases h with ⟨depth, hr⟩ | hr
  all_goals
    refine mentions_of_touched hs ?_ ?_
    · rw [hr.known, if_pos rfl, extended_lastRef]
    · rw [hr.known, if_pos rfl, (extended_firstTop _ _).1]

theorem mentions_write (h : l < s.locals.size) : Mentions s l (s.write l) := by
  refine mentions_of_touched hs ?_ ?_
  · rw [known_write hs h, if_pos rfl]
  · rw [known_write hs h, if_pos rfl]

theorem ReadsForced.due (hr : ReadsForced l s s') (hl : Leads close s' e) : e.Due s.clock l := by
  obtain ⟨t, hle, ht⟩ := hr.zeroed hs
  exact ⟨t, Nat.le_trans hle hs.topStart, hl.forced _ ht⟩

include hA

/-- A local that is read has a value. -/
theorem gives_of_read (hc : Closes close s)
    (hl : Leads close (s.read l) e) (h : l < s.locals.size) : A l := by
  -- the lifetime reaches to the close of the loop that the read has found
  have hspan : ∀ {k : LocalSurvey} {loop : Option Nat} {m : Nat},
      (s.read l).known l = k.extended loop →
      (∀ {n}, k.extendTo = some n → n < s.scopes.length) → (∀ {n}, loop = some n → n < s.scopes.length) →
      loop = some m → e.lifetimes.Spans l (close m) := by
    rintro k loop m hk hopen hin rfl
    have hext : ((s.read l).known l).extendTo = some (k.extendTo.elim m (min m)) := by rw [hk]; rfl
    refine (hl.extendTo hext).mono (hc _ _ ?_ (hin rfl))
    cases k.extendTo with
    | none => exact Nat.le_refl _
    | some n => exact Nat.min_le_left _ _
  have hopen : ∀ {n}, (s.known l).extendTo = some n → n < s.scopes.length :=
    fun h => (hs.extendTo h).lt_length
  refine hA l ?_
  rcases s.read_cases h with ⟨depth, hr⟩ | hr
  · have hk := hr.known l
    rw [if_pos rfl] at hk
    refine Scope.reaches_of_assignedDepth hr.assigned hc fun hm => ?_
    exact hspan hk hopen (fun h => (Scope.loopAt_of_loopInside h).lt_length) hm
  · have hk := hr.known l
    rw [if_pos rfl] at hk
    -- after the zeroing, the outermost scope has assigned the local
    have hdepth := Scope.assignedDepth_assignOutermost hs.scopes hr.unassigned
    have hlen := Scope.length_assignOutermost l s.scopes
    refine Scope.reaches_of_assignOutermost hs.outermost (hr.due hs hl) ?_
    refine Scope.reaches_of_assignedDepth hdepth ?_ fun hm => ?_
    · rw [hlen]
      exact hc
    · refine hspan hk hopen (fun h => ?_) hm
      rw [← hlen]
      exact (Scope.loopAt_of_loopInside h).lt_length

/-! ## Instructions -/

omit hs in
theorem gives_advance : Gives e close (e.lifetimes.zeroing (s.clock + 1) A) s.advance := by
  intro l hl
  by_cases hf : (s.clock + 1, l) ∈ e.forced
  · exact .inr hf
  · refine .inl (hA l (Scope.Reaches.mono hl ?_))
    rintro ⟨t, ht, hp⟩
    have hle : t ≤ s.clock + 1 := ht
    refine ⟨t, ?_, hp⟩
    rcases Nat.lt_or_eq_of_le hle with h | h
    · exact Nat.le_of_lt_succ h
    · exact absurd (h ▸ hp) hf

theorem gives_read (hl : Leads close (s.read l) e) : Gives e close A (s.read l) := by
  intro k hk
  rw [clock_read] at hk
  refine hA k ?_
  by_cases h : l < s.locals.size
  · rcases s.read_cases h with ⟨depth, hr⟩ | hr
    · rwa [hr.scopes] at hk
    · rw [hr.scopes] at hk
      exact Scope.reaches_of_assignOutermost hs.outermost (hr.due hs hl) hk
  · rwa [read, if_neg h] at hk

theorem gives_write : Gives e close (fun k => A k ∨ some l = some k) (s.write l) := by
  intro k hk
  rw [clock_write] at hk
  by_cases h : l < s.locals.size
  · obtain ⟨inner, outer, hsc⟩ := List.exists_cons_of_ne_nil hs.scopes
    rw [s.write_eq h hsc] at hk
    have hin : k ∈ inner.assigned → A k := fun hm => hA k (by rw [hsc]; exact .inl hm)
    rcases hk with hk | hk
    · rcases List.mem_cons.1 hk with rfl | hk
      · exact .inr rfl
      · exact .inl (hin hk)
    · exact .inl (hA k (by rw [hsc]; exact .inr hk))
  · rw [write, if_neg h] at hk
    exact .inl (hA k hk)

omit hs in
/-- What has a value inside a block that opens here and closes at `tick`. -/
theorem gives_enter :
    Gives e (closing close s.scopes.length tick)
      (fun l => A l ∧ (isLoop = true → e.lifetimes.Spans l tick)) (s.enter isLoop) := by
  rintro l (hl | ⟨hloop, hl⟩)
  · cases hl
  · refine ⟨hA l (hl.congr fun m hm => closing_of_lt hm), fun h => ?_⟩
    have hspan := hloop h
    rwa [closing_self] at hspan

/-- What has a value behind a block. -/
theorem gives_exit (hw : Walks tick (s.enter isLoop) s₁) (hf : ∀ p ∈ s₁.forced, p ∈ e.forced)
    (hstill : e.lifetimes.Still s.clock (s₁.clock + 1)) : Gives e close A s₁.exit := by
  intro l hl
  obtain ⟨inner, inner', outer, indices, hin, hout, -, hi, -⟩ := hw.scopes
  obtain ⟨rfl, rfl⟩ := List.cons.inj hin
  rw [(exit_eq hout).1, clock_exit] at hl
  have hdue : ∀ k, e.Due (s₁.clock + 1) k → e.Due s.clock k := by
    rintro k ⟨t, ht, hp⟩
    refine ⟨t, Nat.le_of_not_lt fun hlt => hstill _ hp ⟨hlt, ht⟩, hp⟩
  refine hA l (Scope.reaches_of_widened hs.outermost (fun k hk => ?_) (hl.mono (hdue l)))
  obtain ⟨t, ht, hp⟩ := hi k hk
  exact ⟨t, Nat.le_trans ht hs.topStart, hf _ hp⟩

/-- What has a value at the start of an alternative is what had one at the start of the block. -/
theorem gives_alternative (close' : Nat → Nat) (hw : Walks tick (s.enter false) s₁)
    (hf : ∀ p ∈ s₁.forced, p ∈ e.forced) (hstill : e.lifetimes.Still s.clock (s₁.clock + 1))
    (hc : ∀ m < s.scopes.length, close' m = close m) : Gives e close' A s₁.alternative := by
  intro l hl
  obtain ⟨inner, inner', outer, indices, hin, hout, hloop, -⟩ := hw.scopes
  obtain ⟨rfl, rfl⟩ := List.cons.inj hin
  refine gives_exit hs hA hw hf hstill l ?_
  rw [clock_alternative, alternative, hout] at hl
  rw [(exit_eq hout).1, clock_exit]
  rcases hl with hl | ⟨-, hl⟩
  · cases hl
  · refine hl.congr fun m hm => hc m ?_
    rwa [Scope.length_widened] at hm

omit hs in
theorem Gives.mono {B : Nat → Prop} (hAB : ∀ l, A l → B l) : Gives e close B s :=
  fun l hl => hAB l (hA l hl)

end

theorem Closes.congr (h : Closes close s) (hlen : s'.scopes.length = s.scopes.length) :
    Closes close s' := by
  unfold Closes
  rw [hlen]
  exact h

/-- What is known at the end of the body of a block. -/
theorem leads_body (hw : Walks tick (s.enter isLoop) s₁) (hs₁ : Sound paramCount s₁)
    (hl : Leads close s₁.exit e) : Leads (closing close s.scopes.length (s₁.clock + 1)) s₁ e := by
  obtain ⟨inner, inner', outer, indices, hin, hout, -⟩ := hw.scopes
  obtain ⟨rfl, rfl⟩ := List.cons.inj hin
  have h := leads_exit hs₁ hout hl
  rwa [Scope.length_widened] at h

theorem clock_enter_body (s : Survey) (isLoop : Bool) (inner : List Instr) :
    ((s.enter isLoop).body inner).clock = s.clock + Instr.bodyTicks inner :=
  clock_body _ _

theorem lt_closing {n : Nat} (h : n < tick) (hclose : ∀ m < s.scopes.length, n < close m) :
    ∀ m < s.scopes.length + 1, n < closing close s.scopes.length tick m := by
  intro m hm
  by_cases hms : m = s.scopes.length
  · rw [hms, closing_self]
    exact h
  · rw [closing_of_lt (by omega)]
    exact hclose m (by omega)

/-- The walk stands in front of code that takes `n` counter steps: no scope closes before its end, and
the locals of `A` have a value. -/
structure Before (paramCount : Nat) (e : Survey) (close : Nat → Nat) (A : Nat → Prop) (n : Nat)
    (s : Survey) : Prop where
  sound : Sound paramCount s
  closes : Closes close s
  gives : Gives e close A s
  later : ∀ m < s.scopes.length, s.clock + n < close m

/-- The lifetimes at the end `e` of a walk are long enough for an instruction, wherever the walk comes
to it. -/
def Covers (paramCount : Nat) (e : Survey) (i : Instr) : Prop :=
  ∀ ⦃s : Survey⦄ ⦃close : Nat → Nat⦄ ⦃A : Nat → Prop⦄, Before paramCount e close A i.ticks s →
    Leads close (s.instr i) e → e.lifetimes.Still (s.clock + 1) (s.clock + i.ticks) →
    e.lifetimes.Lone (s.clock + 1) →
    i.Covered e.lifetimes s.locals.size A s.clock ∧
      Gives e close (i.leaves e.lifetimes A s.clock) (s.instr i)

/-- The lifetimes are long enough for the body of a block. -/
def CoversBody (paramCount : Nat) (e : Survey) (code : List Instr) : Prop :=
  ∀ ⦃s : Survey⦄ ⦃close : Nat → Nat⦄ ⦃A : Nat → Prop⦄,
    Before paramCount e close A (Instr.bodyTicks code) s → 1 < s.scopes.length →
    Leads close (s.body code) e → e.lifetimes.Still s.clock (s.clock + Instr.bodyTicks code) →
    Instr.bodyCovered e.lifetimes s.locals.size A s.clock code

section

variable {n k : Nat} {inner other : List Instr} (h : Before paramCount e close A n s)
include h

theorem Before.advance (hk : k + 1 ≤ n) :
    Before paramCount e close (e.lifetimes.zeroing (s.clock + 1) A) k s.advance where
  sound := h.sound.advance
  closes := h.closes
  gives := gives_advance h.gives
  later m hm := by
    have := h.later m hm
    change s.clock + 1 + k < _
    omega

/-- In front of the body of a block that closes at `tick`. -/
theorem Before.enter {B : Nat → Prop} (hB : ∀ l, A l → (isLoop = true → e.lifetimes.Spans l tick) → B l)
    (hk : s.clock + k < tick) (ht : tick ≤ s.clock + n) :
    Before paramCount e (closing close s.scopes.length tick) B k (s.enter isLoop) where
  sound := sound_enter h.sound isLoop
  closes := h.closes.enter isLoop fun m hm => Nat.le_trans ht (Nat.le_of_lt (h.later m hm))
  gives := (gives_enter h.gives).mono fun l hl => hB l hl.1 hl.2
  later := lt_closing hk fun m hm => by
    have := h.later m hm
    change s.clock + k < _
    omega

/-- In front of the alternative of an `if` that closes at `tick`. -/
theorem Before.alternative {t : Nat} (hw : Walks t (s.enter false) s₁) (hs₁ : Sound paramCount s₁)
    (hf : ∀ p ∈ s₁.forced, p ∈ e.forced) (hstill : e.lifetimes.Still s.clock (s₁.clock + 1))
    (hk : s₁.clock + 1 + k < tick) (ht : tick ≤ s.clock + n) :
    Before paramCount e (closing close s.scopes.length tick) A k s₁.alternative := by
  have hn₁ : 1 < s₁.scopes.length := hw.scopes.length ▸ length_enter h.sound false
  have hlen := (walks_alternative 0 hn₁).scopes.length.trans hw.scopes.length
  have hend : ∀ m < s.scopes.length, tick ≤ close m :=
    fun m hm => Nat.le_trans ht (Nat.le_of_lt (h.later m hm))
  refine ⟨sound_alternative hs₁ hn₁, (h.closes.enter false hend).congr hlen, ?_, ?_⟩
  · exact gives_alternative h.sound h.gives _ hw hf hstill fun m hm => closing_of_lt hm
  · rw [hlen, clock_alternative]
    exact lt_closing hk fun m hm => Nat.lt_of_lt_of_le hk (hend m hm)

/-- A block with one body, behind its counter step. -/
theorem covered_block {B : Nat → Prop} (ih : CoversBody paramCount e inner)
    (hk : Instr.bodyTicks inner + 1 ≤ n)
    (hB : ∀ l, A l → (isLoop = true → e.lifetimes.Spans l (s.clock + Instr.bodyTicks inner + 1)) → B l)
    (hl : Leads close ((s.enter isLoop).body inner).exit e)
    (hstill : e.lifetimes.Still s.clock (s.clock + Instr.bodyTicks inner + 1)) :
    Instr.bodyCovered e.lifetimes s.locals.size B s.clock inner ∧
      Gives e close A ((s.enter isLoop).body inner).exit := by
  have hn := length_enter h.sound isLoop
  obtain ⟨hw, hs₁⟩ := walks_body (sound_enter h.sound isLoop) hn inner
  have hclock := s.clock_enter_body isLoop inner
  have hin := leads_body hw hs₁ hl
  rw [hclock] at hin
  have hbefore := h.enter hB (k := Instr.bodyTicks inner) (Nat.lt_succ_self _)
    (Nat.add_le_add_left hk s.clock)
  have hcov := ih hbefore hn hin (hstill.mono (Nat.le_refl _) (Nat.le_succ _))
  exact ⟨hcov, gives_exit h.sound h.gives hw hin.forced (hclock ▸ hstill)⟩

/-- Both arms of an `if`, behind its counter step. -/
theorem covered_arms (ih : CoversBody paramCount e inner) (ih' : CoversBody paramCount e other)
    (hk : Instr.bodyTicks inner + Instr.bodyTicks other + 2 ≤ n)
    (hl : Leads close (((s.enter false).body inner).alternative.body other).exit e)
    (hstill : e.lifetimes.Still s.clock
      (s.clock + Instr.bodyTicks inner + 1 + Instr.bodyTicks other + 1)) :
    Instr.bodyCovered e.lifetimes s.locals.size A s.clock inner ∧
      Instr.bodyCovered e.lifetimes s.locals.size A (s.clock + Instr.bodyTicks inner + 1) other ∧
      Gives e close A (((s.enter false).body inner).alternative.body other).exit := by
  have hn := length_enter h.sound false
  obtain ⟨hw₁, hs₁⟩ := walks_body (sound_enter h.sound false) hn inner
  have hclock₁ := s.clock_enter_body false inner
  obtain ⟨s₁, hs₁eq⟩ : ∃ s₁, s₁ = (s.enter false).body inner := ⟨_, rfl⟩
  rw [← hs₁eq] at hw₁ hs₁ hclock₁ hl ⊢
  have hn₁ : 1 < s₁.scopes.length := hw₁.scopes.length ▸ hn
  have halt := walks_alternative 0 hn₁
  have hs₂ := sound_alternative hs₁ hn₁
  have hn₂ : 1 < s₁.alternative.scopes.length := halt.scopes.length ▸ hn₁
  obtain ⟨hw₂, hs₃⟩ := walks_body hs₂ hn₂ other
  have hclock₂ : s₁.alternative.clock = s.clock + Instr.bodyTicks inner + 1 := by
    rw [clock_alternative, hclock₁]
  have hclock₃ : (s₁.alternative.body other).clock =
      s.clock + Instr.bodyTicks inner + 1 + Instr.bodyTicks other := by
    rw [clock_body, hclock₂]
  have hw := (hw₁.weaken (Nat.zero_le _)).trans (halt.trans (hw₂.weaken (Nat.zero_le _)))
  -- what is known in the end is known at the end of each arm
  have hin := leads_body hw hs₃ hl
  have hfirst : Before paramCount e _ A (Instr.bodyTicks inner) (s.enter false) :=
    h.enter (fun l hA _ => hA) (show _ < (s₁.alternative.body other).clock + 1 by omega) (by omega)
  have hc₁ := hfirst.closes.congr hw₁.scopes.length
  have hbetween := (hin.of_walks hw₂ hs₂ (hc₁.congr halt.scopes.length)).of_walks halt hs₁ hc₁
  have hsecond := h.alternative hw₁ hs₁ hbetween.forced
    (hstill.mono (Nat.le_refl _) (by omega)) (k := Instr.bodyTicks other)
    (show _ < (s₁.alternative.body other).clock + 1 by omega) (by omega)
  have hcov := ih hfirst hn (hs₁eq ▸ hbetween)
    (hstill.mono (Nat.le_refl _) (by change s.clock + _ ≤ _; omega))
  have hcov' := ih' hsecond hn₂ hin (hstill.mono (by omega) (by omega))
  rw [hclock₂, halt.size, hw₁.size] at hcov'
  exact ⟨hcov, hcov', gives_exit h.sound h.gives hw hin.forced (hclock₃ ▸ hstill)⟩

end

theorem covers_leaf (he : Sound paramCount e) (offset : Nat) (op : Op) :
    Covers paramCount e (.leaf offset op) := by
  intro s close A h hl _ hlone
  have hadv := h.sound.advance
  have hA' := gives_advance h.gives
  unfold Instr.Covered
  unfold instr at hl ⊢
  split at hl
  all_goals rename_i h'; cases h'
  · rename_i l
    refine ⟨⟨hlone, fun hlt => ⟨?_, ?_⟩⟩, fun k hk => .inl (gives_read hadv hA' hl k hk)⟩
    · exact gives_of_read hadv hA' h.closes hl hlt
    · exact allows_of_mentions he hl (mentions_read hadv hlt)
  · refine ⟨⟨hlone, fun hlt => ?_⟩, fun k hk => gives_write hadv hA' k hk⟩
    exact allows_of_mentions he hl (mentions_write hadv hlt)
  · refine ⟨⟨hlone, fun hlt => ?_⟩, fun k hk => gives_write hadv hA' k hk⟩
    exact allows_of_mentions he hl (mentions_write hadv hlt)
  · rename_i hget hset htee
    refine ⟨⟨hlone, ?_⟩, fun k hk => .inl (hA' k hk)⟩
    split
    · exact (hget _ rfl).elim
    · exact (hset _ rfl).elim
    · exact (htee _ rfl).elim
    · trivial

theorem covers_cons {i : Instr} {rest : List Instr} (hi : Covers paramCount e i)
    (hrest : CoversBody paramCount e rest) : CoversBody paramCount e (i :: rest) := by
  intro s close A h hn hl hstill
  have hclose := h.later
  rw [Instr.bodyTicks] at hclose hstill
  obtain ⟨hw, hs₁⟩ := walks_instr h.sound i
  have hfirst := (walks_advance h.sound hn).trans (hw.weaken (le_mentionTick _ i))
  have hlen := hfirst.scopes.length
  have hn₁ : 1 < (s.instr i).scopes.length := hlen ▸ hn
  have hc₁ := h.closes.congr hlen
  have hl₁ := hl.of_walks (walks_body hs₁ hn₁ rest).1 hs₁ hc₁
  have hpos := i.ticks_pos
  have hbefore : Before paramCount e close A i.ticks s :=
    ⟨h.sound, h.closes, h.gives, fun m hm => by have := hclose m hm; omega⟩
  obtain ⟨hcov, hgives⟩ := hi hbefore hl₁ (hstill.mono (by omega) (by omega))
    fun l l' hf => absurd ⟨by simp, by simp; omega⟩ (hstill _ hf)
  have hcode := hrest
    ⟨hs₁, hc₁, hgives, fun m hm => by rw [hlen] at hm; rw [clock_instr]; have := hclose m hm; omega⟩
    hn₁ hl (hstill.mono (by rw [clock_instr]; omega) (by rw [clock_instr]; omega))
  rw [clock_instr, hfirst.size] at hcode
  exact ⟨hcov, hcode⟩

mutual

/-- **The lifetimes at the end of a walk cover an instruction on the way.** -/
theorem covers_instr (he : Sound paramCount e) : (i : Instr) → Covers paramCount e i
  | .leaf offset op => covers_leaf he offset op
  | .block _ _ inner | .ifThen _ _ inner | .loop _ _ inner => by
    intro s close A h hl hstill hlone
    rw [Instr.ticks] at h hstill
    rw [instr] at hl ⊢
    have hadv := h.advance (k := 1 + Instr.bodyTicks inner) (by omega)
    refine (covered_block hadv (covers_body he inner) (by omega) (fun l hA hspan => ?_) hl
      (hstill.mono (Nat.le_refl _) (by change s.clock + 1 + _ + 1 ≤ _; omega))).imp_left
        fun hcov => ⟨hstill.mono (Nat.le_refl _) (by omega), hlone, hcov⟩
    -- a local has to be needed up to the close if the block is a loop
    first
      | exact hA
      | exact ⟨hA, (hspan rfl).mono (by change _ ≤ s.clock + 1 + _ + 1; omega)⟩
  | .ifElse _ _ inner other => by
    intro s close A h hl hstill hlone
    rw [Instr.ticks] at h hstill
    rw [instr] at hl ⊢
    have hadv := h.advance (k := 2 + Instr.bodyTicks inner + Instr.bodyTicks other) (by omega)
    obtain ⟨hcov, hcov', hgives⟩ := covered_arms hadv (covers_body he inner) (covers_body he other)
      (by omega) hl (hstill.mono (Nat.le_refl _) (by change s.clock + 1 + _ + 1 + _ + 1 ≤ _; omega))
    rw [show s.advance.clock + Instr.bodyTicks inner + 1 = s.clock + 2 + Instr.bodyTicks inner by
      change s.clock + 1 + _ + 1 = _; omega] at hcov'
    exact ⟨⟨hstill.mono (Nat.le_refl _) (by omega), hlone, hcov, hcov'⟩, hgives⟩

theorem covers_body (he : Sound paramCount e) : (code : List Instr) → CoversBody paramCount e code
  | [] => fun _ _ _ _ _ _ _ => trivial
  | i :: rest => covers_cons (covers_instr he i) (covers_body he rest)

end

/-! ## Whole bodies -/

theorem Leads.refl (he : Sound paramCount e) (hn : e.scopes.length = 1) : Leads close e e where
  lastRef {l r} hr := ⟨r, (lastRef_lifetimes e l).trans hr, Nat.le_refl _⟩
  extendTo {l m} hm := by
    have hat := he.extendTo hm
    have hlt := hat.lt_length
    rw [show m = 0 by omega] at hat
    exact absurd hat he.outermost
  firstTop hx := hx
  forced _ hp := hp

section

variable (hs : Sound paramCount s)
include hs

theorem length_instr (i : Instr) : (s.instr i).scopes.length = s.scopes.length :=
  (walks_instr hs i).1.scopes.length

/-- What is known at the top level is known in the end, and what is first mentioned later is first
mentioned in a later top-level instruction. -/
theorem leads_top (hn : s.scopes.length = 1) (code : List Instr) (tick : Nat) :
    Sound paramCount (s.body code) ∧ Leads (fun _ => tick) s (s.body code) ∧
      ∀ {l x}, ((s.body code).known l).firstTop = some x →
        (s.known l).firstTop = some x ∨ s.clock < x := by
  induction code generalizing s with
  | nil => exact ⟨hs, .refl hs hn, fun hx => .inl hx⟩
  | cons i rest ih =>
    obtain ⟨hw, hs₁⟩ := walks_instr hs i
    have hlen := length_instr hs i
    obtain ⟨he, hl, hfresh⟩ := ih hs₁ (hlen.trans hn)
    refine ⟨he, ?_, fun {l x} hx => ?_⟩
    · have hadv := hl.of_walks hw hs.advance fun _ _ _ _ => Nat.le_refl _
      exact ⟨hadv.lastRef, hadv.extendTo, hadv.firstTop, hadv.forced⟩
    · rcases hfresh hx with hx | hx
      · rcases (hw.locals l).first hx with hx | ⟨hx, -⟩
        · exact .inl hx
        · have htop : s.advance.topStart = s.clock + 1 := by simp [advance, hn]
          exact .inr (by omega)
      · rw [clock_instr] at hx
        exact .inr (by omega)

theorem size_body (code : List Instr) : (s.body code).locals.size = s.locals.size := by
  induction code generalizing s with
  | nil => rfl
  | cons i rest ih =>
    obtain ⟨hw, hs₁⟩ := walks_instr hs i
    exact (ih hs₁).trans hw.size

theorem known_write_of_ne {index : Nat} (hl : l ≠ index) : (s.write index).known l = s.known l := by
  by_cases h : index < s.locals.size
  · rw [known_write hs h, if_neg hl]
  · rw [write, if_neg h]

/-- An instruction without a body mentions one local at most. -/
theorem known_leaf (offset : Nat) (op : Op) :
    ∃ index, ∀ l, l ≠ index → (s.instr (.leaf offset op)).known l = s.known l := by
  unfold instr
  split
  all_goals rename_i h; cases h
  · rename_i index
    refine ⟨index, fun l hl => ?_⟩
    by_cases h : index < s.advance.locals.size
    · rcases s.advance.read_cases h with ⟨depth, hr⟩ | hr
      all_goals
        rw [hr.known, if_neg hl]
        rfl
    · rw [read, if_neg h]
      rfl
  · exact ⟨_, fun l hl => known_write_of_ne hs.advance hl⟩
  · exact ⟨_, fun l hl => known_write_of_ne hs.advance hl⟩
  · exact ⟨0, fun _ _ => rfl⟩

/-- Locals are zeroed in front of top-level instructions only. -/
theorem still_top (hn : s.scopes.length = 1) (i : Instr) (rest : List Instr) :
    ((s.instr i).body rest).lifetimes.Still (s.clock + 1) (s.clock + i.ticks) := by
  rintro ⟨t, l⟩ hp ⟨hlo, hhi⟩
  have hs₁ := (walks_instr hs i).2
  have hn₁ := (length_instr hs i).trans hn
  obtain ⟨he, -, hfresh⟩ := leads_top hs₁ hn₁ rest 0
  rcases hfresh (he.forced hp).2.2.1 with hx | hx
  · have hle := hs₁.firstTop hx
    rw [(walks_instr hs i).1.topStart] at hle
    have htop : s.advance.topStart = s.clock + 1 := by simp [advance, hn]
    simp only at hlo
    omega
  · rw [clock_instr] at hx
    simp only at hhi
    omega

/-- A local that is zeroed in front of an instruction and not needed behind it is the only one that
is zeroed there: it is the local that the instruction reads. -/
theorem lone_top (hn : s.scopes.length = 1) (i : Instr) (rest : List Instr) :
    ((s.instr i).body rest).lifetimes.Lone (s.clock + 1) := by
  intro l l' hp hp'
  obtain ⟨hw, hs₁⟩ := walks_instr hs i
  have hn₁ := (length_instr hs i).trans hn
  obtain ⟨he, hl, hfresh⟩ := leads_top hs₁ hn₁ rest 0
  -- both are first mentioned in this instruction
  have hnew : ∀ {l}, (s.clock + 1, l) ∈ ((s.instr i).body rest).forced →
      (s.known l).firstTop ≠ some (s.clock + 1) ∧
        ((s.instr i).known l).firstTop = some (s.clock + 1) := by
    intro l hp
    have hlater : ¬ (s.instr i).clock < s.clock + 1 := by
      rw [clock_instr]
      have := i.ticks_pos
      omega
    refine ⟨fun h => ?_, (hfresh (he.forced hp).2.2.1).resolve_right hlater⟩
    have := hs.firstTop h
    have := hs.topStart
    omega
  have hlate : mentionTick s.clock i = s.clock + 2 →
      ((s.instr i).body rest).lifetimes.Spans l (s.clock + 2) := by
    intro hm
    obtain ⟨hold, hmention⟩ := hnew hp
    obtain ⟨-, r, hr, hle⟩ := ((hw.locals l).first hmention).resolve_left hold
    exact (hl.lastRef hr).mono (hm ▸ hle)
  cases i with
  | leaf offset op =>
    obtain ⟨index, hone⟩ := known_leaf hs offset op
    have hindex : ∀ {l}, (s.clock + 1, l) ∈ ((s.instr (.leaf offset op)).body rest).forced →
        l = index := by
      intro l hp
      obtain ⟨hold, hmention⟩ := hnew hp
      by_cases h : l = index
      · exact h
      · exact absurd (hone l h ▸ hmention) hold
    exact .inr ((hindex hp).trans (hindex hp').symm)
  | block | loop | ifThen | ifElse => exact .inl (hlate rfl)

end

theorem covered_top (tick : Nat) (hs : Sound paramCount s) (hn : s.scopes.length = 1)
    (code : List Instr) (ht : s.clock + Instr.bodyTicks code < tick)
    (hA : Gives (s.body code) (fun _ => tick) A s) :
    Instr.bodyCovered (s.body code).lifetimes s.locals.size A s.clock code := by
  induction code generalizing s A with
  | nil => trivial
  | cons i rest ih =>
    obtain ⟨hw, hs₁⟩ := walks_instr hs i
    have hn₁ := (length_instr hs i).trans hn
    obtain ⟨he, hl, -⟩ := leads_top hs₁ hn₁ rest tick
    rw [Instr.bodyTicks] at ht
    obtain ⟨hcov, hgives⟩ := covers_instr he i
      ⟨hs, fun _ _ _ _ => Nat.le_refl _, hA, fun _ _ => by omega⟩ hl (still_top hs hn i rest)
      (lone_top hs hn i rest)
    have hrest := ih hs₁ hn₁ (by rw [clock_instr]; omega) hgives
    rw [clock_instr, hw.size] at hrest
    exact ⟨hcov, hrest⟩

theorem known_start (localCount paramCount l : Nat) :
    (start localCount paramCount).known l = {} := by
  rw [known, start, Array.getElem?_replicate]
  split <;> rfl

theorem sound_start (localCount paramCount : Nat) : Sound paramCount (start localCount paramCount) where
  scopes := List.cons_ne_nil _ _
  outermost := by
    rintro (⟨-, h⟩ | h)
    · cases h
    · exact h
  params l hl := List.mem_range.2 hl
  topStart := Nat.le_refl _
  extendTo {l m} h := by
    rw [known_start] at h
    cases h
  firstTop {l x} h := by
    rw [known_start] at h
    cases h
  flagged {l} h := by
    rw [known_start] at h
    cases h
  forced h := nomatch h
  nodup := List.nodup_nil

end Survey

/-- **The lifetimes that are found for a body cover it.** -/
theorem covered_ofBody (code : List Instr) (localCount paramCount : Nat) :
    Instr.bodyCovered (Lifetimes.ofBody code localCount paramCount) localCount (· < paramCount) 0
      code := by
  have hs := Survey.sound_start localCount paramCount
  obtain ⟨he, -, hfresh⟩ := Survey.leads_top hs rfl code 0
  have h := Survey.covered_top (A := (· < paramCount)) (Instr.bodyTicks code + 1) hs rfl code
    (by change 0 + _ < _; omega) fun l hl => ?_
  · rwa [show (Survey.start localCount paramCount).locals.size = localCount from
      Array.size_replicate] at h
  · rcases hl with hl | ⟨-, t, ht, hp⟩
    · exact List.mem_range.1 hl
    · rcases hfresh (he.forced hp).2.2.1 with hx | hx
      · rw [Survey.known_start] at hx
        cases hx
      · exact absurd hx (Nat.not_lt.2 ht)

/-- Only declared locals are zeroed. -/
theorem forced_ofBody {code : List Instr} {localCount paramCount t l : Nat}
    (h : (t, l) ∈ (Lifetimes.ofBody code localCount paramCount).forced) :
    paramCount ≤ l ∧ l < localCount := by
  have hs := Survey.sound_start localCount paramCount
  obtain ⟨he, -⟩ := Survey.leads_top hs rfl code 0
  have hsize : ((Survey.start localCount paramCount).body code).locals.size = localCount :=
    (Survey.size_body hs code).trans Array.size_replicate
  exact ⟨(he.forced h).2.1, hsize ▸ (he.forced h).1⟩

/-- Every local is zeroed at one place at most. -/
theorem nodup_forced_ofBody (code : List Instr) (localCount paramCount : Nat) :
    ((Lifetimes.ofBody code localCount paramCount).forced.map Prod.snd).Nodup :=
  (Survey.leads_top (Survey.sound_start localCount paramCount) rfl code 0).1.nodup

end Moonstack
