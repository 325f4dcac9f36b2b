import Moonstack.Proofs.Chunk.PreludeNames
import Moonstack.Proofs.Text.Lexical

/-!
# Safe names

What `Identifier.sanitize` makes of any text is safe, and a safe name it leaves as it is
(`sanitize_sanitize`). The identifiers that a registry gives out, call after call, are valid, and none
is given out twice (`gives_uniqueIds`).

That a name with an underscore in front is not taken again is `Identifier.isTaken_cons`. Neither
the index nor the underscores behind a name can make it a keyword, since no keyword holds an
underscore.
-/

namespace Moonstack

namespace Identifier

/-- The names of the locals of the generated code: registers, memories and what belongs to a
table. -/
inductive Generated : List Char → Prop
  | register {digits : List Char} (hne : digits ≠ []) (hd : ∀ c ∈ digits, c.isDigit = true) :
      Generated ("reg".toList ++ digits)
  | memory {digits : List Char} (hne : digits ≠ []) (hd : ∀ c ∈ digits, c.isDigit = true) :
      Generated ("mem_".toList ++ digits)
  | table (rest : List Char) : Generated ("__TABLE_".toList ++ rest)

theorem isNumbered_iff {stem name : List Char} : isNumbered stem name = true ↔
    ∃ digits ≠ [], (∀ c ∈ digits, c.isDigit = true) ∧ stem ++ digits = name := by
  simp only [isNumbered, Bool.and_eq_true, List.isPrefixOf_iff_prefix, Bool.not_eq_true',
    List.isEmpty_eq_false_iff, List.all_eq_true]
  constructor
  · rintro ⟨⟨⟨digits, rfl⟩, hne⟩, hd⟩
    rw [List.drop_left] at hne hd
    exact ⟨digits, hne, hd, rfl⟩
  · rintro ⟨digits, hne, hd, rfl⟩
    rw [List.drop_left]
    exact ⟨⟨List.prefix_append _ _, hne⟩, hd⟩

theorem isGenerated_iff {name : List Char} : isGenerated name = true ↔ Generated name := by
  simp only [isGenerated, Bool.or_eq_true, List.isPrefixOf_iff_prefix, isNumbered_iff]
  constructor
  · rintro ((⟨rest, rfl⟩ | ⟨digits, hne, hd, rfl⟩) | ⟨digits, hne, hd, rfl⟩)
    · exact .table rest
    · exact .register hne hd
    · exact .memory hne hd
  · intro h
    cases h with
    | register hne hd => exact .inl (.inr ⟨_, hne, hd, rfl⟩)
    | memory hne hd => exact .inr ⟨_, hne, hd, rfl⟩
    | table rest => exact .inl (.inl ⟨rest, rfl⟩)

/-- A name that a function of the generated code can have: an identifier without a meaning of its
own. -/
structure Safe (name : String) : Prop where
  valid : isValid name = true
  keyword : name ∉ keywords
  reserved : name ∉ reserved
  helper : name ∉ Helper.all.map Helper.name
  generated : ¬ Generated name.toList

theorem isTaken_eq_false_iff {name : String} : isTaken name.toList = false ↔
    name ∉ keywords ∧ name ∉ reserved ∧ name ∉ Helper.all.map Helper.name ∧
      ¬ Generated name.toList := by
  simp only [isTaken, String.ofList_toList, Bool.or_eq_false_iff, List.contains_eq_mem,
    decide_eq_false_iff_not, and_assoc, ← isGenerated_iff, Bool.not_eq_true]

theorem isStart_iff {c : Char} : isStart c = true ↔ isPart c = true ∧ c.isDigit = false := by
  have hdisjoint : c.isAlpha = true → c.isDigit = false := by
    delta Char.isAlpha Char.isUpper Char.isLower Char.isDigit
    grind
  have hunderscore : c = '_' → c.isDigit = false := fun h => h ▸ rfl
  simp only [isStart, isPart, Char.isAlphanum, Bool.or_eq_true, beq_iff_eq]
  grind

theorem withStart_eq_self_iff {cs : List Char} :
    withStart cs = cs ↔ ∃ c rest, cs = c :: rest ∧ c.isDigit = false := by
  cases cs with
  | nil => simp [withStart]
  | cons c rest => by_cases h : c.isDigit = true <;> simp [withStart, h]

theorem withStart_withStart (cs : List Char) : withStart (withStart cs) = withStart cs := by
  cases cs with
  | nil => rfl
  | cons c rest => by_cases h : c.isDigit = true <;> simp [withStart, h]

theorem withStart_append {cs : List Char} (h : withStart cs = cs) (ds : List Char) :
    withStart (cs ++ ds) = cs ++ ds := by
  obtain ⟨c, rest, rfl, hc⟩ := withStart_eq_self_iff.1 h
  exact withStart_eq_self_iff.2 ⟨c, rest ++ ds, rfl, hc⟩

theorem isValid_iff {name : String} : isValid name = true ↔
    withStart name.toList = name.toList ∧ (∀ c ∈ name.toList, isPart c = true) ∧
      name ∉ keywords := by
  unfold isValid
  cases name.toList with
  | nil => simp [withStart]
  | cons c rest =>
    simp only [Bool.and_eq_true, isStart_iff, List.all_eq_true, Bool.not_eq_true',
      List.contains_eq_mem, decide_eq_false_iff_not, List.forall_mem_cons]
    have hstart : withStart (c :: rest) = c :: rest ↔ c.isDigit = false := by
      simp [withStart_eq_self_iff]
    rw [hstart]
    tauto

theorem withStart_sanitize (name : String) :
    withStart (sanitize name).toList = (sanitize name).toList := by
  rw [sanitize, String.toList_ofList]
  unfold untaken
  split
  · rfl
  · exact withStart_withStart _

theorem safe_iff {name : String} : Safe name ↔ withStart name.toList = name.toList ∧
    (∀ c ∈ name.toList, isPart c = true) ∧ isTaken name.toList = false := by
  rw [isTaken_eq_false_iff]
  constructor
  · intro h
    obtain ⟨hstart, hparts, -⟩ := isValid_iff.1 h.valid
    exact ⟨hstart, hparts, h.keyword, h.reserved, h.helper, h.generated⟩
  · rintro ⟨hstart, hparts, hkeyword, hreserved, hhelper, hgenerated⟩
    exact ⟨isValid_iff.2 ⟨hstart, hparts, hkeyword⟩, hkeyword, hreserved, hhelper, hgenerated⟩

theorem Safe.sanitize_eq {name : String} (h : Safe name) : sanitize name = name := by
  obtain ⟨hstart, hparts, htaken⟩ := safe_iff.1 h
  rw [sanitize, flatMap_character hparts, hstart, untaken, htaken]
  exact String.ofList_toList

theorem safe_sanitize (name : String) : Safe (sanitize name) :=
  safe_iff.2 ⟨withStart_sanitize name, isPart_sanitize name, isTaken_sanitize name⟩

/-- **Sanitized names are safe.** What any text becomes is an identifier, and neither a keyword nor
a global, a helper or a local of the generated code; so it stays as it is when it is sanitized once
more. -/
theorem sanitize_sanitize (name : String) :
    Safe (sanitize name) ∧ sanitize (sanitize name) = sanitize name :=
  ⟨safe_sanitize name, (safe_sanitize name).sanitize_eq⟩

end Identifier

namespace Registry

open Identifier (isValid isValid_iff isPart)

/-- The identifiers that a registry gives to functions of the given names and indices. -/
def uniqueIds (r : Registry) : List (String × Nat) → List String
  | [] => []
  | (name, index) :: calls =>
    (r.uniqueId name index).1 :: (r.uniqueId name index).2.uniqueIds calls

/-- Each call gives a valid identifier that is not used and is used from then on: the name itself,
or else the first of the candidates with its index. -/
inductive Gives : List String → List (String × Nat) → List String → Prop
  | nil (used : List String) : Gives used [] []
  | cons {used ids : List String} {name id : String} {index : Nat} {calls : List (String × Nat)}
      (hchosen : Chosen used name index id) (hvalid : isValid id = true) (hfree : id ∉ used)
      (hrest : Gives (id :: used) calls ids) : Gives used ((name, index) :: calls) (id :: ids)

theorem Chosen.isValid {used : List String} {name id : String} {index : Nat}
    (h : Chosen used name index id) : isValid id = true := by
  cases h with
  | own => exact (Identifier.safe_sanitize name).valid
  | suffixed hused hbefore hfree =>
    rename_i k
    have hchars : (underscored (numbered name index) k).toList = (Identifier.sanitize name).toList ++
        ('_' :: (Nat.toDigits 10 index ++ List.replicate k '_')) := by
      change (underscored (Identifier.sanitize name ++ "_" ++ toString index) k).toList = _
      simp [underscored]
    have hkeywords : ∀ s ∈ Identifier.keywords, '_' ∉ s.toList := by decide +kernel
    refine isValid_iff.2 ⟨?_, ?_, fun hk => ?_⟩
    · rw [hchars]
      exact Identifier.withStart_append (Identifier.withStart_sanitize name) _
    · have hdigits : ∀ c ∈ Nat.toDigits 10 index, isPart c = true := by
        intro c hc
        have hdigit := Nat.isDigit_of_mem_toDigits (by decide) (by decide) hc
        simp [isPart, Char.isAlphanum, hdigit]
      rw [hchars]
      simp only [List.forall_mem_append, List.forall_mem_cons]
      refine ⟨Identifier.isPart_sanitize name, rfl, hdigits, fun c hc => ?_⟩
      rw [List.eq_of_mem_replicate hc]
      rfl
    · exact hkeywords _ hk (by simp [hchars])

theorem Gives.not_mem {used ids : List String} {calls : List (String × Nat)}
    (h : Gives used calls ids) : ∀ id ∈ ids, id ∉ used := by
  induction h with
  | nil => simp
  | cons _ _ hfree _ ih =>
    rw [List.forall_mem_cons]
    exact ⟨hfree, fun id hid hused => ih id hid (List.mem_cons_of_mem _ hused)⟩

theorem Gives.nodup {used ids : List String} {calls : List (String × Nat)}
    (h : Gives used calls ids) : ids.Nodup := by
  induction h with
  | nil => exact List.nodup_nil
  | cons _ _ _ hrest ih =>
    exact List.nodup_cons.2 ⟨fun hid => hrest.not_mem _ hid List.mem_cons_self, ih⟩

/-- **No identifier is given out twice.** Whatever was given out before, each call of a sequence
finds a valid identifier that is not used, and all of them are different. -/
theorem gives_uniqueIds (r : Registry) (calls : List (String × Nat)) :
    Gives r.usedIds calls (r.uniqueIds calls) ∧ (r.uniqueIds calls).Nodup := by
  have hgives : Gives r.usedIds calls (r.uniqueIds calls) := by
    induction calls generalizing r with
    | nil => exact .nil _
    | cons call calls ih =>
      obtain ⟨name, index⟩ := call
      have hchosen := chosen_uniqueId r name index
      exact .cons hchosen hchosen.isValid hchosen.not_mem (ih (r.uniqueId name index).2)
  exact ⟨hgives, hgives.nodup⟩

end Registry

end Moonstack
