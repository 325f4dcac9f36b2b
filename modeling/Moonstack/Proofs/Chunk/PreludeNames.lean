import Mathlib.Data.List.Infix
import Moonstack.Proofs.Chunk.Identifiers

/-!
# Names of the prelude

The prelude stands in front of the module in the same chunk, so a function whose identifier is a
name that the prelude binds there takes the place of something the prelude needs. Which functions do
is said by `idOf_mem_names_iff`:

* one that is called like a local of the prelude, unless that is `bit`, which is the only local that
  identifiers keep away from;
* one that is called like the start of the name of a memory access and whose index is the width of
  that access, if functions in front of it have the name and both candidates with fewer underscores.
-/

namespace Moonstack

namespace Prelude

/-- The characters of a text in ASCII, read from its bytes. -/
def characters (text : String) : List Char :=
  text.toByteArray.data.toList.map fun b => Char.ofNat b.toNat

/-- What stands behind the given words at the start of a line. -/
def after? (words : String) (line : List Char) : Option (List Char) :=
  if (characters words).isPrefixOf line then some (line.drop (characters words).length) else none

/-- The name that a line binds at the level of the chunk: a local, or a global that is no field of a
table. -/
def boundName? (line : List Char) : Option (List Char) :=
  match (after? "local function " line).or (after? "local " line) with
  | some rest => some (rest.takeWhile Identifier.isPart)
  | none =>
    match after? "function " line with
    | some rest =>
      if (after? "(" (rest.dropWhile Identifier.isPart)).isSome then
        some (rest.takeWhile Identifier.isPart)
      else none
    | none =>
      if (after? " = " (line.dropWhile Identifier.isPart)).isSome then
        some (line.takeWhile Identifier.isPart)
      else none

/-- The names that the prelude binds at the level of the chunk. -/
def names : List String :=
  lines.filterMap fun line => (boundName? (characters line)).map String.ofList

/-- The names among them that identifiers do not keep away from: all locals but `bit`. -/
def unguarded : List String :=
  ["long_int", "long_int_mt", "from_unsigned_double", "to_unsigned_double", "unsigned_divmod",
    "shift_left", "shift_right_u", "shift_right_s", "less_s", "less_u", "round_even", "encode_f32",
    "decode_f32", "encode_f64", "decode_f64", "PAGE_SIZE", "check_bounds"]

/-- The names among them that identifiers keep away from: `bit` and all globals. -/
def guarded : List String := "bit" :: (Helper.all.filter (· ≠ .exports)).map Helper.name

theorem mem_names {s : String} : s ∈ names ↔ s ∈ unguarded ∨ s ∈ guarded := by
  have hperm : names.Perm (unguarded ++ guarded) := by decide +kernel
  rw [hperm.mem_iff, List.mem_append]

/-- The starts of the names of memory accesses that have a plain number, with these numbers. -/
def accesses : List (String × Nat) :=
  [("__MEMORY_READ", 8), ("__MEMORY_READ", 16), ("__MEMORY_READ", 32),
    ("__MEMORY_WRITE", 8), ("__MEMORY_WRITE", 16), ("__MEMORY_WRITE", 32)]

end Prelude

namespace Identifier

/-- How the spelling of a character that cannot stand in an identifier starts. -/
def spellingStart : List Char := "__IDENT_CHAR_".toList

theorem spellingStart_infix {cs : List Char} {c : Char} (hc : c ∈ cs) (hpart : isPart c = false) :
    spellingStart <:+: cs.flatMap character := by
  have hone : spellingStart <+: character c := by
    rw [character, if_neg (by simp [hpart]), String.toList_append, String.toList_append,
      List.append_assoc]
    exact List.prefix_append _ _
  obtain ⟨before, after, rfl⟩ := List.append_of_mem hc
  rw [List.flatMap_append, List.flatMap_cons]
  exact (hone.isInfix.trans (List.prefix_append _ _).isInfix).trans
    (List.suffix_append _ _).isInfix

theorem flatMap_character {cs : List Char} (h : ∀ c ∈ cs, isPart c = true) :
    cs.flatMap character = cs := by
  induction cs with
  | nil => rfl
  | cons c rest ih =>
    rw [List.forall_mem_cons] at h
    rw [List.flatMap_cons, ih h.2, character, if_pos h.1, List.singleton_append]

/-- A name that is the identifier of itself and of no other name: it holds no spelling of a
character, and what stands behind an underscore at its front would need none. -/
def isFaithful (name : String) : Bool :=
  sanitize name == name && !decide (spellingStart <:+: name.toList) &&
    match name.toList with
    | '_' :: rest => withStart rest == rest && !isTaken rest
    | _ => true

/-- Only a faithful name itself is mapped to it. -/
theorem sanitize_eq_iff {name s : String} (h : isFaithful s = true) :
    sanitize name = s ↔ name = s := by
  unfold isFaithful at h
  simp only [Bool.and_eq_true, beq_iff_eq, Bool.not_eq_true', decide_eq_false_iff_not] at h
  obtain ⟨⟨hself, hspelling⟩, hfront⟩ := h
  constructor
  · intro hs
    have hchars := congrArg String.toList hs
    rw [sanitize, String.toList_ofList] at hchars
    -- no underscore was put in front, for either reason
    have huntaken : withStart (name.toList.flatMap character) = s.toList := by
      unfold untaken at hchars
      split at hchars
      · rename_i htaken
        rw [← hchars] at hfront
        simp [htaken] at hfront
      · exact hchars
    have hstart : name.toList.flatMap character = s.toList := by
      unfold withStart at huntaken
      split at huntaken
      · rw [← huntaken] at hfront
        simp [withStart] at hfront
      · rename_i c rest hflat
        split at huntaken
        · rename_i hdigit
          rw [← huntaken] at hfront
          simp [withStart, hdigit] at hfront
        · rw [hflat]
          exact huntaken
    have hparts : ∀ c ∈ name.toList, isPart c = true := by
      intro c hc
      cases hpart : isPart c with
      | true => rfl
      | false => exact absurd (hstart ▸ spellingStart_infix hc hpart) hspelling
    rw [flatMap_character hparts] at hstart
    exact String.toList_injective hstart
  · rintro rfl
    exact hself

/-- An underscore in front of a name that has a meaning of its own gives one that has none. -/
theorem isTaken_cons {cs : List Char} (h : isTaken cs = true) : isTaken ('_' :: cs) = false := by
  have hwords : ∀ s ∈ keywords ++ (reserved ++ Helper.all.map Helper.name),
      (s.toList.head? = some '_' → isTaken s.toList.tail = false) ∧
        "_TABLE_".toList.isPrefixOf s.toList = false := by
    decide +kernel
  have hcases (cs : List Char) : isTaken cs = true ↔
      String.ofList cs ∈ keywords ++ (reserved ++ Helper.all.map Helper.name) ∨
        isGenerated cs = true := by
    simp only [isTaken, Bool.or_eq_true, List.contains_iff_mem, List.mem_append, or_assoc]
  rw [Bool.eq_false_iff, Ne, hcases]
  rintro (hmem | hgenerated)
  · have htail := (hwords _ hmem).1
    rw [String.toList_ofList, List.head?_cons, List.tail_cons, h] at htail
    cases htail rfl
  · have htable : "_TABLE_".toList.isPrefixOf cs = true := by
      simpa [isGenerated, isNumbered] using hgenerated
    obtain hmem | hgenerated := (hcases cs).1 h
    · have hnone : "_TABLE_".toList.isPrefixOf cs = false := by simpa using (hwords _ hmem).2
      cases htable.symm.trans hnone
    · obtain ⟨rest, rfl⟩ := List.isPrefixOf_iff_prefix.1 htable
      cases hgenerated

/-- **An identifier of a function has no meaning of its own.** -/
theorem isTaken_sanitize (name : String) : isTaken (sanitize name).toList = false := by
  rw [sanitize, String.toList_ofList]
  unfold untaken
  split
  · rename_i h
    exact isTaken_cons h
  · rename_i h
    exact Bool.eq_false_iff.2 h

end Identifier

namespace Registry

/-- The text, the number and the number of underscores that a name is made of, if it is a text, an
underscore, a number and underscores. -/
def parts? (name : List Char) : Option (List Char × Nat × Nat) :=
  let rest := name.reverse.dropWhile (· == '_')
  let digits := rest.takeWhile Char.isDigit
  match rest.dropWhile Char.isDigit with
  | '_' :: text =>
    if digits.isEmpty then none
    else some (text.reverse, Nat.ofDigitChars 10 digits.reverse 0, name.length - rest.length)
  | _ => none

theorem parts?_append {text digits : List Char} (hne : digits ≠ [])
    (hdigits : ∀ c ∈ digits, c.isDigit = true) (k : Nat) :
    parts? (text ++ '_' :: digits ++ List.replicate k '_') =
      some (text, Nat.ofDigitChars 10 digits 0, k) := by
  have hrev : (text ++ '_' :: digits ++ List.replicate k '_').reverse =
      List.replicate k '_' ++ (digits.reverse ++ '_' :: text.reverse) := by simp
  have hline : (List.replicate k '_').dropWhile (· == '_') = [] := by simp
  have hfirst : (digits.reverse ++ '_' :: text.reverse).dropWhile (· == '_') =
      digits.reverse ++ '_' :: text.reverse := by
    obtain ⟨c, rest, hrest⟩ := List.exists_cons_of_ne_nil (mt List.reverse_eq_nil_iff.1 hne)
    have hc : c.isDigit = true := hdigits c (by rw [← List.mem_reverse, hrest]; simp)
    have hne' : (c == '_') = false := by
      refine beq_false_of_ne ?_
      rintro rfl
      exact absurd hc (by decide)
    rw [hrest, List.cons_append, List.dropWhile_cons_of_neg (by simp [hne'])]
  have hall : ∀ c ∈ digits.reverse, c.isDigit = true := fun c hc => hdigits c (List.mem_reverse.1 hc)
  unfold parts?
  simp only [hrev, List.dropWhile_append, hline, List.isEmpty_nil, if_true, hfirst,
    List.takeWhile_append_of_pos hall, List.dropWhile_append_of_pos hall]
  rw [List.takeWhile_cons_of_neg (by decide), List.dropWhile_cons_of_neg (by decide)]
  have hlength : (text ++ '_' :: digits ++ List.replicate k '_').length -
      (digits.reverse ++ '_' :: text.reverse).length = k := by
    simp only [List.length_append, List.length_cons, List.length_replicate, List.length_reverse]
    omega
  simp only [List.append_nil, List.isEmpty_iff, List.reverse_eq_nil_iff, hne, if_false,
    List.reverse_reverse, hlength]

theorem parts?_text (text : String) (index k : Nat) :
    parts? (underscored (text ++ "_" ++ toString index) k).toList = some (text.toList, index, k) := by
  have htext : (underscored (text ++ "_" ++ toString index) k).toList =
      text.toList ++ '_' :: Nat.toDigits 10 index ++ List.replicate k '_' := by
    simp [underscored]
  rw [htext, parts?_append Nat.toDigits_ne_nil
    (fun c hc => Nat.isDigit_of_mem_toDigits (by decide) (by decide) hc),
    Nat.ofDigitChars_ten_toDigits]

theorem parts?_underscored (name : String) (index k : Nat) :
    parts? (underscored (numbered name index) k).toList =
      some ((Identifier.sanitize name).toList, index, k) :=
  parts?_text _ index k

end Registry

open Registry Prelude

theorem isFaithful_unguarded : ∀ s ∈ unguarded, Identifier.isFaithful s = true := by decide +kernel

theorem isFaithful_access {stem : String} {width : Nat} (h : (stem, width) ∈ accesses) :
    Identifier.isFaithful stem = true := by
  have hall : ∀ a ∈ accesses, Identifier.isFaithful a.1 = true := by decide +kernel
  exact hall (stem, width) h

theorem isTaken_guarded : ∀ s ∈ guarded, Identifier.isTaken s.toList = true := by decide +kernel

/-- Where a name of the prelude has a number of its own, it is that of a memory access. -/
theorem mem_accesses_of_parts {s text : String} {n k : Nat} (hs : s ∈ names)
    (h : parts? s.toList = some (text.toList, n, k)) : (text, n) ∈ accesses ∧ k = 2 := by
  have hall : (unguarded ++ guarded).all (fun s => (parts? s.toList).all fun parts =>
      accesses.any fun a => parts == (a.1.toList, a.2, 2)) = true := by decide +kernel
  have hone := List.all_eq_true.1 hall s (List.mem_append.2 (mem_names.1 hs))
  rw [h, Option.all_some] at hone
  obtain ⟨⟨stem, width⟩, ha, heq⟩ := List.any_eq_true.1 hone
  simp only [beq_iff_eq, Prod.mk.injEq] at heq
  obtain ⟨htext, rfl, rfl⟩ := heq
  rw [String.toList_injective htext]
  exact ⟨ha, rfl⟩

theorem access_mem_guarded {stem : String} {width : Nat} (h : (stem, width) ∈ accesses) :
    underscored (numbered stem width) 2 ∈ guarded := by
  have hall : ∀ a ∈ accesses, underscored (numbered a.1 a.2) 2 ∈ guarded := by decide +kernel
  exact hall (stem, width) h

theorem numbered_of_isFaithful {name : String} (h : Identifier.isFaithful name = true) (index : Nat) :
    numbered name index = s!"{name}_{index}" := by
  rw [numbered, (Identifier.sanitize_eq_iff h).2 rfl]

/-- A function whose identifier is a name of the prelude has it by its own name, or as the name of a
memory access. -/
theorem Registry.Chosen.origin {used : List String} {name id : String} {index : Nat}
    (h : Chosen used name index id) (hid : id ∈ names) : (name ∈ unguarded ∧ id = name) ∨
      ((name, index) ∈ accesses ∧ id = underscored s!"{name}_{index}" 2 ∧ name ∈ used ∧
        ∀ j < 2, underscored s!"{name}_{index}" j ∈ used) := by
  cases h with
  | own hfree =>
    obtain hs | hs := mem_names.1 hid
    · have hname : name = Identifier.sanitize name :=
        (Identifier.sanitize_eq_iff (isFaithful_unguarded _ hs)).1 rfl
      rw [← hname] at hs ⊢
      exact .inl ⟨hs, rfl⟩
    · cases (isTaken_guarded _ hs).symm.trans (Identifier.isTaken_sanitize name)
  | suffixed hused hbefore hfree =>
    obtain ⟨ha, rfl⟩ := mem_accesses_of_parts hid (parts?_underscored _ _ _)
    have hfaithful := isFaithful_access ha
    have hname : name = Identifier.sanitize name := (Identifier.sanitize_eq_iff hfaithful).1 rfl
    simp only [← hname] at ha hused hfaithful
    rw [numbered_of_isFaithful hfaithful] at hbefore ⊢
    exact .inr ⟨ha, rfl, hused, hbefore⟩

/-- Only the function of that index can have a name with a meaning of its own that ends in a
number. -/
theorem Registry.Chosen.index_eq {used : List String} {name stem : String} {index number k : Nat}
    (htaken : Identifier.isTaken (underscored (numbered stem number) k).toList = true)
    (h : Chosen used name index (underscored (numbered stem number) k)) : index = number := by
  generalize hid : underscored (numbered stem number) k = id at h
  cases h with
  | own hfree => cases (hid ▸ htaken).symm.trans (Identifier.isTaken_sanitize name)
  | suffixed hused hbefore hfree =>
    have hparts := congrArg (fun s => parts? s.toList) hid
    simp only [parts?_underscored, Option.some.injEq, Prod.mk.injEq] at hparts
    exact hparts.2.1.symm

/-- **Which functions take names of the prelude.** The identifier of a function is a name that the
prelude binds exactly if the function is the first with its name and the name is that of an
unguarded local, or if it is called like the start of the name of a memory access, its index is the
width, and functions in front of it have that name and the candidates with none and one underscore.
-/
theorem idOf_mem_names_iff {m : Module} {p : Function × Nat} (hp : p ∈ m.indexed) :
    m.idOf p ∈ names ↔
      (m.functionName p.2 p.1 ∈ unguarded ∧ ¬ m.GivenBefore p (m.functionName p.2 p.1)) ∨
      ((m.functionName p.2 p.1, p.2) ∈ accesses ∧ m.GivenBefore p (m.functionName p.2 p.1) ∧
        m.GivenBefore p s!"{m.functionName p.2 p.1}_{p.2}" ∧
        m.GivenBefore p s!"{m.functionName p.2 p.1}_{p.2}_") := by
  obtain ⟨used, hchosen, hused⟩ := exists_chosen_idOf hp
  generalize hname : m.functionName p.2 p.1 = name at hchosen
  constructor
  · intro h
    obtain ⟨hs, hid⟩ | ⟨ha, -, hown, hbefore⟩ := hchosen.origin h
    · refine .inl ⟨hs, ?_⟩
      rw [← hused, ← hid]
      exact hchosen.not_mem
    · have hnone := hbefore 0 (by omega)
      rw [underscored_zero] at hnone
      exact .inr ⟨ha, (hused _).1 hown, (hused _).1 hnone, (hused _).1 (hbefore 1 (by omega))⟩
  · rintro (⟨hs, hfirst⟩ | ⟨ha, hown, hnone, hone⟩)
    · have hself := (Identifier.sanitize_eq_iff (isFaithful_unguarded _ hs)).2 rfl
      rw [← hused] at hfirst
      generalize m.idOf p = id at hchosen
      cases hchosen with
      | own _ =>
        rw [hself]
        exact mem_names.2 (.inl hs)
      | suffixed hsuffix _ _ => exact absurd (hself ▸ hsuffix) hfirst
    · have hfaithful : Identifier.isFaithful name = true := isFaithful_access ha
      have hself := (Identifier.sanitize_eq_iff hfaithful).2 rfl
      have hnumbered := numbered_of_isFaithful hfaithful p.2
      -- the name of the access is free, since a function that has it has the same index
      have hfree : underscored (numbered name p.2) 2 ∉ used := by
        intro hmem
        obtain ⟨q, hq, hlt, hid⟩ := (hused _).1 hmem
        obtain ⟨_, hchosen', -⟩ := exists_chosen_idOf hq
        rw [hid] at hchosen'
        have hindex := hchosen'.index_eq (isTaken_guarded _ (access_mem_guarded ha))
        omega
      rw [← hused] at hown hnone hone
      generalize m.idOf p = id at hchosen
      cases hchosen with
      | own hunused =>
        rw [hself] at hunused
        exact absurd hown hunused
      | @suffixed k _ hbefore hunused =>
        have hk : k = 2 := by
          rcases Nat.lt_trichotomy k 2 with hlt | heq | hgt
          · rw [hnumbered] at hunused
            obtain rfl | rfl : k = 0 ∨ k = 1 := by omega
            · rw [underscored_zero] at hunused
              exact absurd hnone hunused
            · exact absurd hone hunused
          · exact heq
          · exact absurd (hbefore 2 hgt) hfree
        subst hk
        exact mem_names.2 (.inr (access_mem_guarded ha))

/-- A function that is called like a local of the prelude. -/
def shiftLeft : Module where
  types := [{}]
  fields := [.function ⟨some "shift_left", 0, [], []⟩]

theorem idOf_mem_names_shiftLeft : ∃ p ∈ shiftLeft.indexed, shiftLeft.idOf p ∈ names := by
  have hp : (⟨some "shift_left", 0, [], []⟩, 0) ∈ shiftLeft.indexed := List.mem_singleton.2 rfl
  refine ⟨_, hp, (idOf_mem_names_iff hp).2 (.inl ⟨by decide, ?_⟩)⟩
  rintro ⟨q, -, hlt, -⟩
  exact Nat.not_lt_zero _ hlt

end Moonstack
