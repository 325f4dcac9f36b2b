import Moonstack.Proofs.Lifetimes.Zeroing

/-!
# Locals that are read once

The walk over a body learns about a local only where the local is mentioned (`Survey.ignores_body`).
From this it follows which locals are needed at no other instruction than the one in front of which
they are zeroed: the declared locals whose only mention is a read at the top level (`flits_iff`).
-/

namespace Moonstack

namespace Instr

mutual

/-- The locals that an instruction mentions. -/
def mentioned : Instr → List Nat
  | leaf _ op => op.mentions.toList
  | block _ _ body | loop _ _ body | ifThen _ _ body => bodyMentioned body
  | ifElse _ _ body other => bodyMentioned body ++ bodyMentioned other

/-- The locals that a body mentions. -/
def bodyMentioned : List Instr → List Nat
  | [] => []
  | i :: rest => mentioned i ++ bodyMentioned rest

end

/-- The only mention of the local is a read at the top level. -/
def ReadsOnce (l : Nat) (code : List Instr) : Prop :=
  ∃ before offset after, code = before ++ leaf offset (.localGet l) :: after ∧
    l ∉ bodyMentioned before ∧ l ∉ bodyMentioned after

/-- The first top-level instruction that mentions a local. -/
theorem exists_of_mem_bodyMentioned {l : Nat} {code : List Instr} (h : l ∈ bodyMentioned code) :
    ∃ before i after, code = before ++ i :: after ∧ l ∉ bodyMentioned before ∧ l ∈ i.mentioned := by
  induction code with
  | nil => cases h
  | cons i rest ih =>
    by_cases hi : l ∈ i.mentioned
    · exact ⟨[], i, rest, rfl, List.not_mem_nil, hi⟩
    · obtain ⟨before, j, after, rfl, hbefore, hj⟩ := ih ((List.mem_append.1 h).resolve_left hi)
      exact ⟨i :: before, j, after, rfl, fun hm => (List.mem_append.1 hm).elim hi hbefore, hj⟩

theorem starts_append (clock : Nat) (code rest : List Instr) :
    starts clock (code ++ rest) = starts clock code ++ starts (clock + bodyTicks code) rest := by
  induction code generalizing clock with
  | nil => rfl
  | cons i code ih =>
    rw [List.cons_append, starts, starts, ih, bodyTicks, ← Nat.add_assoc]
    rfl

theorem le_of_mem_starts {clock t : Nat} {code : List Instr} (h : t ∈ starts clock code) :
    t ≤ clock + bodyTicks code := by
  induction code generalizing clock with
  | nil => cases h
  | cons i rest ih =>
    have hpos := i.ticks_pos
    rw [bodyTicks]
    rcases List.mem_cons.1 h with rfl | h
    · omega
    · have := ih h
      omega

/-- A top-level instruction that begins at a counter value of `i` is `i`. -/
theorem eq_of_mem_starts {t : Nat} {before after : List Instr} {i : Instr}
    (h : t ∈ starts 0 (before ++ i :: after)) (hlt : bodyTicks before < t)
    (hle : t ≤ bodyTicks before + i.ticks) : t = bodyTicks before + 1 := by
  rw [starts_append, Nat.zero_add, List.mem_append] at h
  rcases h with h | h
  · have := le_of_mem_starts h
    omega
  · rcases List.mem_cons.1 h with h | h
    · exact h
    · have := lt_of_mem_starts h
      omega

variable {L : Lifetimes} {l count : Nat}

theorem bodyCovered_append {A : Nat → Prop} {clock : Nat} {i : Instr} {after : List Instr} :
    (before : List Instr) → bodyCovered L count A clock (before ++ i :: after) →
    ∃ B, i.Covered L count B (clock + bodyTicks before) ∧
      ∃ C, bodyCovered L count C (clock + bodyTicks before + i.ticks) after
  | [], h => ⟨A, h.1, _, h.2⟩
  | j :: before, h => by
    rw [bodyTicks, ← Nat.add_assoc]
    exact bodyCovered_append before h.2

mutual

/-- A local is mentioned inside its lifetime, and at the first counter value of an instruction only
if the instruction has no body. -/
theorem allows_of_mentioned {A : Nat → Prop} {clock : Nat} (hl : l < count) : (i : Instr) →
    i.Covered L count A clock → l ∈ i.mentioned → ∃ t, clock < t ∧ t ≤ clock + i.ticks ∧
      L.Allows l t ∧ (t = clock + 1 → ∃ offset op, i = leaf offset op)
  | leaf offset op, hc, hm => by
    have hop : op.mentions = some l := Option.mem_toList.1 hm
    exact ⟨clock + 1, Nat.lt_succ_self _, Nat.le_refl _, hc.allows hl hop,
      fun _ => ⟨offset, op, rfl⟩⟩
  | block _ _ body, hc, hm | ifThen _ _ body, hc, hm | loop _ _ body, hc, hm => by
    obtain ⟨t, hlt, hle, ha⟩ := allows_of_bodyMentioned hl body hc.2.2 hm
    rw [ticks]
    exact ⟨t, by omega, by omega, ha, fun h => absurd h (by omega)⟩
  | ifElse _ _ body other, hc, hm => by
    rw [ticks]
    rcases List.mem_append.1 hm with hm | hm
    · obtain ⟨t, hlt, hle, ha⟩ := allows_of_bodyMentioned hl body hc.2.2.1 hm
      exact ⟨t, by omega, by omega, ha, fun h => absurd h (by omega)⟩
    · obtain ⟨t, hlt, hle, ha⟩ := allows_of_bodyMentioned hl other hc.2.2.2 hm
      exact ⟨t, by omega, by omega, ha, fun h => absurd h (by omega)⟩

theorem allows_of_bodyMentioned {A : Nat → Prop} {clock : Nat} (hl : l < count) :
    (code : List Instr) → bodyCovered L count A clock code → l ∈ bodyMentioned code →
    ∃ t, clock < t ∧ t ≤ clock + bodyTicks code ∧ L.Allows l t
  | [], _, hm => nomatch hm
  | i :: rest, hc, hm => by
    rw [bodyTicks]
    rcases List.mem_append.1 hm with hm | hm
    · obtain ⟨t, hlt, hle, ha, -⟩ := allows_of_mentioned hl i hc.1 hm
      exact ⟨t, hlt, by omega, ha⟩
    · obtain ⟨t, hlt, hle, ha⟩ := allows_of_bodyMentioned hl rest hc.2 hm
      exact ⟨t, by omega, by omega, ha⟩

end

end Instr

theorem Scope.assignedDepth_assignOutermost_of_ne {l index : Nat} (h : l ≠ index)
    (scopes : List Scope) :
    assignedDepth l (assignOutermost index scopes) = assignedDepth l scopes := by
  fun_induction assignOutermost index scopes with
  | case1 => rfl
  | case2 s => simp [assignedDepth, h]
  | case3 s outer hs ih => rw [assignedDepth, assignedDepth, length_assignOutermost, ih]

namespace Survey

/-- Between two states of the walk nothing is learnt about the local. -/
structure Ignores (l : Nat) (s s' : Survey) : Prop where
  length : s'.scopes.length = s.scopes.length
  known : s'.known l = s.known l
  assigned : Scope.assignedDepth l s'.scopes = Scope.assignedDepth l s.scopes

namespace Ignores

variable {l : Nat} {s s' s'' : Survey}

theorem trans (h : Ignores l s s') (h' : Ignores l s' s'') : Ignores l s s'' :=
  ⟨h'.length.trans h.length, h'.known.trans h.known, h'.assigned.trans h.assigned⟩

theorem advance (s : Survey) : Ignores l s s.advance := ⟨rfl, rfl, rfl⟩

theorem read {index : Nat} (hne : l ≠ index) (s : Survey) : Ignores l s (s.read index) := by
  by_cases hi : index < s.locals.size
  · rcases s.read_cases hi with ⟨depth, hr⟩ | hr
    · exact ⟨by rw [hr.scopes], by rw [hr.known, if_neg hne], by rw [hr.scopes]⟩
    · refine ⟨?_, by rw [hr.known, if_neg hne], ?_⟩
      · rw [hr.scopes, Scope.length_assignOutermost]
      · rw [hr.scopes, Scope.assignedDepth_assignOutermost_of_ne hne]
  · rw [Survey.read, if_neg hi]
    exact ⟨rfl, rfl, rfl⟩

theorem write {index : Nat} (hne : l ≠ index) (s : Survey) : Ignores l s (s.write index) := by
  by_cases hi : index < s.locals.size
  · have hk : (s.touch index).known l = s.known l := by rw [known_touch s hi, if_neg hne]
    cases hs : s.scopes with
    | nil =>
      have hw : s.write index = s.touch index := by
        unfold Survey.write
        rw [if_pos hi]
        simp only
        rw [show (s.touch index).scopes = [] from hs]
      rw [hw]
      exact ⟨rfl, hk, rfl⟩
    | cons inner outer =>
      rw [s.write_eq hi hs]
      exact ⟨by rw [hs]; rfl, hk, by simp [hs, Scope.assignedDepth, hne]⟩
  · rw [Survey.write, if_neg hi]
    exact ⟨rfl, rfl, rfl⟩

/-- Inside a block that does not mention the local, the block itself does not assign it. -/
theorem outer {isLoop : Bool} (h : Ignores l (s.enter isLoop) s') :
    ∃ inner outer, s'.scopes = inner :: outer ∧ outer.length = s.scopes.length ∧
      Scope.assignedDepth l outer = Scope.assignedDepth l s.scopes := by
  have hlen : s'.scopes.length = s.scopes.length + 1 := h.length
  have hassigned : Scope.assignedDepth l s'.scopes = Scope.assignedDepth l s.scopes :=
    h.assigned.trans (if_neg (by simp))
  cases hs : s'.scopes with
  | nil =>
    rw [hs] at hlen
    cases hlen
  | cons inner outer =>
    rw [hs] at hlen hassigned
    refine ⟨inner, outer, rfl, Nat.succ.inj hlen, ?_⟩
    by_cases hin : inner.assigned.contains l = true
    · rw [Scope.assignedDepth, if_pos hin] at hassigned
      have := Scope.assignedDepth_lt hassigned.symm
      have := Nat.succ.inj hlen
      omega
    · rwa [Scope.assignedDepth, if_neg hin] at hassigned

theorem alternative {isLoop : Bool} (h : Ignores l (s.enter isLoop) s') :
    Ignores l (s.enter isLoop) s'.alternative := by
  obtain ⟨inner, outer, hs, hlen, hassigned⟩ := h.outer
  have hk := h.known
  unfold Survey.alternative
  rw [hs]
  refine ⟨?_, hk, ?_⟩
  · simpa [enter] using hlen
  · simpa [enter, Scope.assignedDepth] using hassigned

theorem exit {isLoop : Bool} (h : Ignores l (s.enter isLoop) s')
    (he : (s.known l).extendTo = none) : Ignores l s s'.exit := by
  obtain ⟨inner, outer, hs, hlen, hassigned⟩ := h.outer
  have hk : s'.known l = s.known l := h.known
  refine ⟨by rw [(exit_eq hs).1, hlen], ?_, by rw [(exit_eq hs).1, hassigned]⟩
  rw [known_exit hs, hk]
  split
  · rw [LocalSurvey.closed, if_neg (by simp [he])]
  · rfl

end Ignores

mutual

theorem ignores_instr {l : Nat} {s : Survey} (he : (s.known l).extendTo = none) : (i : Instr) →
    l ∉ i.mentioned → Ignores l s (s.instr i)
  | .leaf _ op, hm => by
    have hop : op.mentions ≠ some l := fun h => hm (Option.mem_toList.2 h)
    have hadv : Ignores l s s.advance := .advance s
    cases op with
    | localGet k => exact hadv.trans (.read (fun h => hop (congrArg some h.symm)) _)
    | localSet k | localTee k => exact hadv.trans (.write (fun h => hop (congrArg some h.symm)) _)
    | _ => exact hadv
  | .block _ _ inner, hm | .ifThen _ _ inner, hm | .loop _ _ inner, hm => by
    rw [instr]
    exact (Ignores.advance s).trans ((ignores_body (s := s.advance.enter _) he inner hm).exit he)
  | .ifElse _ _ inner other, hm => by
    have hinner := ignores_body (s := s.advance.enter false) he inner
      fun h => hm (List.mem_append_left _ h)
    have halt := hinner.alternative
    have hother := ignores_body (s := ((s.advance.enter false).body inner).alternative)
      (by rw [halt.known]; exact he) other fun h => hm (List.mem_append_right _ h)
    rw [instr]
    exact (Ignores.advance s).trans ((halt.trans hother).exit he)

/-- **The walk over a body learns nothing about a local that the body does not mention.** -/
theorem ignores_body {l : Nat} {s : Survey} (he : (s.known l).extendTo = none) :
    (code : List Instr) → l ∉ Instr.bodyMentioned code → Ignores l s (s.body code)
  | [], _ => ⟨rfl, rfl, rfl⟩
  | i :: rest, hm => by
    have hi := ignores_instr he i fun h => hm (List.mem_append_left _ h)
    refine hi.trans (ignores_body (by rw [hi.known]; exact he) rest ?_)
    exact fun h => hm (List.mem_append_right _ h)

end

theorem body_append (s : Survey) (code rest : List Instr) :
    s.body (code ++ rest) = (s.body code).body rest := by
  induction code generalizing s with
  | nil => rfl
  | cons i code ih => exact ih (s.instr i)

/-- What is known about a local when it is read for the first time, at the top level. -/
theorem known_read {s : Survey} {l : Nat} (offset : Nat) (hl : l < s.locals.size)
    (hn : s.scopes.length = 1) (hk : s.known l = {}) (ha : Scope.assignedDepth l s.scopes = none) :
    (s.instr (.leaf offset (.localGet l))).known l =
        { lastRef := some (s.clock + 1), firstTop := some (s.clock + 1), forced := true } ∧
      (s.clock + 1, l) ∈ (s.instr (.leaf offset (.localGet l))).forced := by
  have htop : s.advance.topStart = s.clock + 1 := by simp [advance, hn]
  have hk' : s.advance.known l = {} := hk
  obtain ⟨inner, hs⟩ := List.length_eq_one_iff.1 hn
  have hs' : s.advance.scopes = [inner] := hs
  rw [instr]
  rcases s.advance.read_cases hl with ⟨depth, hr⟩ | hr
  · exact absurd (hr.assigned.symm.trans ha) nofun
  · refine ⟨?_, ?_⟩
    · rw [hr.known, if_pos rfl, hk', hs', htop]
      rfl
    · rw [hr.forced, hk', htop]
      simp

/-- What is known about a local when it is assigned. -/
theorem known_assign {s : Survey} {l : Nat} {op : Op} (offset : Nat) (hl : l < s.advance.locals.size)
    (ha : op.assigns = some l) : (s.instr (.leaf offset op)).known l =
      (s.known l).touched s.advance.clock s.advance.topStart := by
  have hwrite : (s.advance.write l).known l =
      (s.advance.known l).touched s.advance.clock s.advance.topStart := by
    have hk := known_touch s.advance hl l
    rw [if_pos rfl] at hk
    unfold write
    rw [if_pos hl]
    simp only
    split <;> exact hk
  cases op with
  | localSet k | localTee k =>
    obtain rfl : k = l := Option.some.inj ha
    exact hwrite
  | _ => cases ha

end Survey

/-- The value of a local is needed at that instruction only in front of which it is zeroed. -/
def Lifetimes.Flits (L : Lifetimes) (l : Nat) : Prop :=
  ∃ t, (t, l) ∈ L.forced ∧ L.lastRef l = some t

section

open Survey Instr

variable {code : List Instr} {localCount paramCount l : Nat}

/-- A declared local that is read once is needed at its read only, in front of which it is zeroed. -/
theorem forced_of_reads {before after : List Instr} {offset : Nat} (hparam : paramCount ≤ l)
    (hl : l < localCount) (hbefore : l ∉ bodyMentioned before) (hafter : l ∉ bodyMentioned after) :
    let L := Lifetimes.ofBody (before ++ .leaf offset (.localGet l) :: after) localCount paramCount
    (bodyTicks before + 1, l) ∈ L.forced ∧ L.lastRef l = some (bodyTicks before + 1) := by
  intro L
  have hs := sound_start localCount paramCount
  have hstart : ((start localCount paramCount).known l) = {} := known_start _ _ _
  have hfront := ignores_body (by rw [hstart]) before hbefore
  obtain ⟨hs₁, -, -⟩ := leads_top hs rfl before 0
  have hclock : ((start localCount paramCount).body before).clock = bodyTicks before := by
    rw [clock_body]
    exact Nat.zero_add _
  obtain ⟨hknown, hforced⟩ := known_read (s := (start localCount paramCount).body before) offset
    (by rw [size_body hs]; simpa [start] using hl) hfront.length (hfront.known.trans hstart)
    (hfront.assigned.trans (by simp [start, Scope.assignedDepth, hparam]))
  obtain ⟨hw, hs₂⟩ := walks_instr hs₁ (.leaf offset (.localGet l))
  obtain ⟨-, hlead, -⟩ := leads_top hs₂ ((length_instr hs₁ _).trans hfront.length) after 0
  have hbehind := ignores_body (by rw [hknown]) after hafter
  rw [hclock] at hknown hforced
  have hend : (start localCount paramCount).body (before ++ .leaf offset (.localGet l) :: after) =
      (((start localCount paramCount).body before).instr (.leaf offset (.localGet l))).body after :=
    body_append _ _ _
  refine ⟨?_, ?_⟩
  · change _ ∈ ((start localCount paramCount).body _).forced
    rw [hend]
    exact hlead.forced _ hforced
  · change ((start localCount paramCount).body _).lifetimes.lastRef l = _
    rw [lastRef_lifetimes, hend, hbehind.known, hknown]

/-- A local whose only mention is an assignment at the top level is not zeroed. -/
theorem not_forced_of_assigns {before after : List Instr} {offset : Nat} {op : Op}
    (hl : l < localCount) (hassigns : op.assigns = some l) (hbefore : l ∉ bodyMentioned before)
    (hafter : l ∉ bodyMentioned after) (t : Nat) :
    (t, l) ∉ (Lifetimes.ofBody (before ++ .leaf offset op :: after) localCount paramCount).forced := by
  intro ht
  have hs := sound_start localCount paramCount
  have hstart : ((start localCount paramCount).known l) = {} := known_start _ _ _
  have hfront := ignores_body (by rw [hstart]) before hbefore
  have hi : l < ((start localCount paramCount).body before).advance.locals.size := by
    change l < ((start localCount paramCount).body before).locals.size
    rw [size_body hs]
    simpa [start] using hl
  have hk := known_assign offset hi hassigns
  rw [hfront.known, hstart] at hk
  have hbehind := ignores_body (by rw [hk]; rfl) after hafter
  -- a local that is zeroed has its flag set at the end of the walk
  obtain ⟨he, -⟩ := leads_top hs rfl (before ++ .leaf offset op :: after) 0
  have hflag := (he.forced ht).2.2.2
  rw [body_append] at hflag
  change (((((start localCount paramCount).body before).instr (.leaf offset op)).body after).known
    l).forced = true at hflag
  rw [hbehind.known, hk] at hflag
  cases hflag

/-- A local that is needed at no other instruction than the one in front of which it is zeroed is
read there and mentioned nowhere else. -/
theorem readsOnce_of_flits (h : (Lifetimes.ofBody code localCount paramCount).Flits l) :
    ReadsOnce l code := by
  obtain ⟨t, ht, hlast⟩ := h
  have hl := (forced_ofBody ht).2
  have hcov := covered_ofBody code localCount paramCount
  have hs := sound_start localCount paramCount
  have hstart : ((start localCount paramCount).known l) = {} := known_start _ _ _
  -- the value is needed at the place of every mention, so that all mentions stand at `t`
  have hat {t' : Nat} (ha : (Lifetimes.ofBody code localCount paramCount).Allows l t') : t' = t := by
    obtain ⟨⟨last, hlast', hle⟩, hforced⟩ := ha
    have := hforced t ht
    rw [hlast] at hlast'
    have := Option.some.inj hlast'
    omega
  have hmention : l ∈ bodyMentioned code := by
    by_contra hm
    have hk := (ignores_body (by rw [hstart]) code hm).known
    change ((start localCount paramCount).body code).lifetimes.lastRef l = _ at hlast
    rw [lastRef_lifetimes, hk, hstart] at hlast
    cases hlast
  obtain ⟨before, i, after, rfl, hbefore, hi⟩ := exists_of_mem_bodyMentioned hmention
  obtain ⟨B, hci, C, hcafter⟩ := bodyCovered_append before hcov
  rw [Nat.zero_add] at hci hcafter
  obtain ⟨t', hlt, hle, ha, hleaf⟩ := allows_of_mentioned hl i hci hi
  obtain rfl := hat ha
  have htop := eq_of_mem_starts (starts_of_forced ht) hlt hle
  obtain ⟨offset, op, rfl⟩ := hleaf htop
  have hafter : l ∉ bodyMentioned after := fun hm => by
    obtain ⟨t₂, hlt₂, -, ha₂⟩ := allows_of_bodyMentioned hl after hcafter hm
    have := hat ha₂
    omega
  refine ⟨before, offset, after, ?_, hbefore, hafter⟩
  have hop : op.mentions = some l := Option.mem_toList.1 hi
  have hwrite : ¬ op.assigns = some l := fun hassign =>
    not_forced_of_assigns hl hassign hbefore hafter _ ht
  cases op with
  | localGet k =>
    obtain rfl : k = l := Option.some.inj hop
    rfl
  | localSet k | localTee k => exact absurd hop hwrite
  | _ => cases hop

/-- **The locals that are needed at no other instruction than the one in front of which they are
zeroed** are the declared locals whose only mention is a read at the top level. -/
theorem flits_iff : (Lifetimes.ofBody code localCount paramCount).Flits l ↔
    (paramCount ≤ l ∧ l < localCount) ∧ ReadsOnce l code := by
  constructor
  · rintro ⟨t, ht, hlast⟩
    exact ⟨forced_ofBody ht, readsOnce_of_flits ⟨t, ht, hlast⟩⟩
  · rintro ⟨⟨hparam, hl⟩, before, offset, after, rfl, hbefore, hafter⟩
    exact ⟨_, forced_of_reads hparam hl hbefore hafter⟩

end

end Moonstack
