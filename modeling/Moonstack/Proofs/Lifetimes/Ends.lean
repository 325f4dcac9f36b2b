import Moonstack.Proofs.Lifetimes.Covered

/-!
# Ends of lifetimes

No lifetime reaches past the body: the greatest counter value that a walk has recorded for a local is
at most the value its clock has reached.
-/

namespace Moonstack

namespace Survey

/-- What has been recorded has been reached. -/
def Timely (s : Survey) : Prop := ∀ l t, (s.known l).lastRef = some t → t ≤ s.clock

variable {s : Survey}

theorem le_of_reach {k : LocalSurvey} {clock t : Nat} (h : ∀ t, k.lastRef = some t → t ≤ clock)
    (ht : (k.reach clock).lastRef = some t) : t ≤ clock := by
  simp only [LocalSurvey.reach, Option.some.injEq] at ht
  subst ht
  cases hk : k.lastRef with
  | none => exact Nat.le_refl _
  | some r => exact Nat.max_le.2 ⟨Nat.le_refl _, h r hk⟩

/-- A step that mentions one local at the current time keeps what is recorded timely. -/
theorem Timely.mention (h : s.Timely) (index : Nat) {s' : Survey} (hc : s'.clock = s.clock)
    (hk : ∀ l, (s'.known l).lastRef =
      if l = index then ((s.known l).reach s.clock).lastRef else (s.known l).lastRef) :
    s'.Timely := by
  intro l t ht
  rw [hk] at ht
  rw [hc]
  split at ht
  · exact le_of_reach (h l) ht
  · exact h l t ht

theorem Timely.advance (h : s.Timely) : s.advance.Timely :=
  fun l t ht => Nat.le_succ_of_le (h l t ht)

theorem Timely.read (h : s.Timely) (index : Nat) : (s.read index).Timely := by
  by_cases hi : index < s.locals.size
  · refine h.mention index (s.clock_read index) fun l => ?_
    rcases s.read_cases hi with ⟨depth, hr⟩ | hr
    all_goals
      rw [hr.known]
      split
      · rw [extended_lastRef]
        rfl
      · rfl
  · rwa [Survey.read, if_neg hi]

theorem Timely.write (h : s.Timely) (index : Nat) : (s.write index).Timely := by
  unfold Survey.write
  split
  · rename_i hi
    have ht : (s.touch index).Timely := h.mention index rfl fun l => by
      rw [known_touch s hi]
      split <;> rfl
    simp only
    split <;> exact ht
  · exact h

theorem Timely.enter (h : s.Timely) (isLoop : Bool) : (s.enter isLoop).Timely := h

theorem Timely.alternative (h : s.Timely) : s.alternative.Timely := by
  intro l t ht
  rw [s.alternative_eq.2] at ht
  rw [clock_alternative]
  exact Nat.le_succ_of_le (h l t ht)

theorem Timely.exit (h : s.Timely) : s.exit.Timely := by
  intro l t ht
  rw [clock_exit]
  cases hs : s.scopes with
  | nil =>
    rw [Survey.exit, hs] at ht
    exact Nat.le_succ_of_le (h l t ht)
  | cons inner outer =>
    rw [known_exit hs] at ht
    split at ht
    · unfold LocalSurvey.closed at ht
      split at ht
      · exact le_of_reach (fun t ht => Nat.le_succ_of_le (h l t ht)) ht
      · exact Nat.le_succ_of_le (h l t ht)
    · exact Nat.le_succ_of_le (h l t ht)

mutual

theorem timely_instr {s : Survey} (h : s.Timely) : (i : Instr) → (s.instr i).Timely
  | .leaf _ op => by
    unfold instr
    split
    · exact h.advance.read _
    · exact h.advance.write _
    · exact h.advance.write _
    · exact h.advance
    all_goals rename_i hi; cases hi
  | .block _ _ inner | .ifThen _ _ inner | .loop _ _ inner => by
    rw [instr]
    exact (timely_body (h.advance.enter _) inner).exit
  | .ifElse _ _ inner other => by
    rw [instr]
    exact (timely_body (timely_body (h.advance.enter _) inner).alternative other).exit

theorem timely_body {s : Survey} (h : s.Timely) : (code : List Instr) → (s.body code).Timely
  | [] => h
  | i :: rest => timely_body (timely_instr h i) rest

end

end Survey

open Survey in
/-- No value is needed after the last counter step of the body. -/
theorem Lifetimes.lastRef_le {code : List Instr} {localCount paramCount l t : Nat}
    (h : (ofBody code localCount paramCount).lastRef l = some t) : t ≤ Instr.bodyTicks code := by
  have hs : (start localCount paramCount).Timely := by
    intro l t ht
    rw [known_start] at ht
    cases ht
  have ht := timely_body hs code l t
  rw [← lastRef_lifetimes, clock_body] at ht
  have := ht h
  simpa [start] using this

end Moonstack
