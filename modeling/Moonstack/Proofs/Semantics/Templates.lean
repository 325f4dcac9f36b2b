import Mathlib.Data.List.Forall2
import Moonstack.Proofs.Emission.Natural
import Moonstack.Proofs.Semantics.StraightLine

/-!
# The code of operations and their templates

The code of an instruction is its template with operands in the place of the first slots and the
slots of the results in the place of the others (`Op.realizes_plain`). So it does to the world what
the template does, and leaves the same values (`Interpretation.lines_realized`): the shape of a
statement does not change when operands are put in, a slot that is read has been written before or
is an operand, and no result stands in the slot of an operand.
-/

namespace Moonstack

/-! ## Shapes and operands after a substitution -/

namespace Expr

variable (θ : Nat → Operand)

theorem shape_subst (e : Expr) : (e.subst θ).shape = e.shape := mapOperands_mapOperands _ _ e

theorem allShapes_substAll (es : List Expr) : allShapes (substAll θ es) = allShapes es :=
  mapAll_mapAll _ _ es

theorem operands_subst (e : Expr) : (e.subst θ).operands = e.operands.map (Operand.subst θ) :=
  operands_mapOperands _ e

theorem allOperands_substAll (es : List Expr) :
    allOperands (substAll θ es) = (allOperands es).map (Operand.subst θ) :=
  allOperands_mapAll _ es

theorem stops_subst (e : Expr) : (e.subst θ).stops = e.stops := by
  cases e with
  | call function args =>
    cases function with
    | name t =>
      rcases args with _ | ⟨_ | _, _ | ⟨b, rest⟩⟩ <;> simp [subst, mapOperands, mapAll, stops]
    | _ => rfl
  | _ => rfl

end Expr

namespace Stmt

theorem shape_subst (θ : Nat → Operand) {s : Stmt} (ha : s.acts = true) :
    (s.subst θ).shape = s.shape := by
  cases s with
  | assign targets value =>
    exact congrArg₂ assign (Expr.allShapes_substAll θ targets) (Expr.shape_subst θ value)
  | run e => exact congrArg run (Expr.shape_subst θ e)
  | _ => cases ha

theorem acts_subst (θ : Nat → Operand) (s : Stmt) : (s.subst θ).acts = s.acts := by
  cases s <;> rfl

theorem goesOn_subst (θ : Nat → Operand) (s : Stmt) : (s.subst θ).goesOn = s.goesOn := by
  cases s with
  | run e => exact congrArg (!·) (e.stops_subst θ)
  | _ => rfl

end Stmt

/-! ### Slots that are changed -/

section Changes

variable {θ : Nat → Operand} {d : Nat → Nat}

theorem Expr.target_subst {e : Expr} (h : ∀ n, e.target = some n → θ n = .slot (d n)) :
    (e.subst θ).target = e.target.map d := by
  cases e with
  | operand o =>
    cases o with
    | slot n => exact congrArg (fun o => (Expr.operand o).target) (h n rfl)
    | _ => rfl
  | _ => rfl

theorem Expr.targets_subst {es : List Expr} (h : ∀ n ∈ es.filterMap target, θ n = .slot (d n)) :
    (substAll θ es).filterMap target = (es.filterMap target).map d ∧
      (substAll θ es).filter (·.target.isNone) = substAll θ (es.filter (·.target.isNone)) := by
  induction es with
  | nil => exact ⟨rfl, rfl⟩
  | cons e rest ih =>
    have he : (e.subst θ).target = e.target.map d :=
      target_subst fun n hn => h n (List.mem_filterMap.2 ⟨e, List.mem_cons_self, hn⟩)
    obtain ⟨htargets, hplaces⟩ := ih fun n hn => h n (by
      obtain ⟨e', hm, hn⟩ := List.mem_filterMap.1 hn
      exact List.mem_filterMap.2 ⟨e', List.mem_cons_of_mem _ hm, hn⟩)
    cases ht : e.target with
    | none =>
      simp only [substAll_cons, List.filterMap_cons, List.filter_cons, he, ht, Option.map_none,
        Option.isNone_none, if_true, htargets, hplaces, and_self]
    | some n =>
      simp only [substAll_cons, List.filterMap_cons, List.filter_cons, he, ht, Option.map_some,
        Option.isNone_some, Bool.false_eq_true, if_false, htargets, hplaces, List.map_cons, and_self]

namespace Stmt

variable {s : Stmt}

theorem changes_subst (h : ∀ n ∈ s.changes, θ n = .slot (d n)) :
    (s.subst θ).changes = s.changes.map d := by
  cases s with
  | assign targets value => exact (Expr.targets_subst h).1
  | run e =>
    cases e with
    | method receiver key args =>
      cases receiver with
      | operand o =>
        cases o with
        | slot n =>
          have hn : θ n = .slot (d n) := h n List.mem_cons_self
          simp only [subst, Expr.subst, Expr.mapOperands, Operand.subst, hn, changes, List.map_cons,
            List.map_nil]
        | _ => rfl
      | _ => rfl
    | _ => rfl
  | _ => rfl

theorem assigns_subst (h : ∀ n ∈ s.changes, θ n = .slot (d n)) :
    (s.subst θ).assigns = s.assigns.map d := by
  cases s with
  | assign targets value => exact (Expr.targets_subst h).1
  | _ => rfl

/-- What is changed and not assigned has been read. -/
theorem assigns_of_changes {m : Nat} (h : m ∈ s.changes) :
    m ∈ s.assigns ∨ .slot m ∈ s.operands := by
  cases s with
  | run e =>
    cases e with
    | method receiver key args =>
      cases receiver with
      | operand o =>
        cases o with
        | slot n =>
          obtain rfl := List.mem_singleton.1 h
          exact .inr List.mem_cons_self
        | _ => cases h
      | _ => cases h
    | _ => cases h
  | _ => exact .inl h

theorem assigns_subset_changes {m : Nat} (h : m ∈ s.assigns) : m ∈ s.changes := by
  cases s with
  | assign targets value => exact h
  | _ => cases h

theorem operands_subst (ha : s.acts = true) (h : ∀ n ∈ s.changes, θ n = .slot (d n)) :
    (s.subst θ).operands = s.operands.map (Operand.subst θ) := by
  cases s with
  | assign targets value =>
    simp only [subst, operands, (Expr.targets_subst h).2, Expr.allOperands_substAll,
      Expr.operands_subst, List.map_append]
  | run e => exact Expr.operands_subst θ e
  | _ => cases ha

end Stmt

end Changes

/-! ## Templates with operands in them -/

/-- Does a statement read only the slots `S`, and change only slots from `k` up to `n`? -/
def Stmt.fits (k n : Nat) (S : List Nat) (s : Stmt) : Bool :=
  s.acts && s.operands.all (fun o => o.slots.any S.contains) &&
    s.changes.all fun m => decide (k ≤ m) && decide (m < n)

/-- Do statements read only the slots `S` and those that have been changed before? And are all slots
from `k` up to `n` changed in the end, and no others? -/
def Stmt.allFit (k n : Nat) : List Nat → List Stmt → Bool
  | S, [] => (List.range' k (n - k)).all S.contains
  | S, s :: rest => s.fits k n S && allFit k n (S ++ s.changes) rest

/-- Slots from `k` up to `n` become the slots that `d` gives, which stand for nothing else below
`n`. -/
structure Places (θ : Nat → Operand) (d : Nat → Nat) (k n : Nat) : Prop where
  slot : ∀ {m}, k ≤ m → m < n → θ m = .slot (d m)
  apart : ∀ {l m}, l < n → k ≤ m → m < n → θ l = .slot (d m) → l = m

namespace Interpretation

variable {V W : Type} {I : Interpretation V W} {σ τ : Nat → V} {θ : Nat → Operand} {d : Nat → Nat}
  {k n : Nat} {S : List Nat}

variable (I) in
/-- What is written for the slots of `S` has the values that these have. -/
def Ties (θ : Nat → Operand) (S : List Nat) (τ σ : Nat → V) : Prop :=
  ∀ m ∈ S, I.operand σ (θ m) = some (τ m)

theorem assignAll_of_not_mem {nil : V} {slots : List Nat} {e : Nat} (he : e ∉ slots)
    (vs : List V) (σ : Nat → V) : assignAll nil slots vs σ e = σ e := by
  induction slots generalizing vs σ with
  | nil => rfl
  | cons m rest ih =>
    rw [assignAll, ih (List.not_mem_of_not_mem_cons he), Function.update_of_ne]
    exact List.ne_of_not_mem_cons he

theorem operand_update {o : Operand} {e : Nat} (h : o ≠ .slot e) (v : V) :
    I.operand (Function.update σ e v) o = I.operand σ o := by
  cases o with
  | slot m => exact congrArg some (Function.update_of_ne (fun he => h (congrArg _ he)) _ _)
  | literal l => cases l <;> rfl
  | missing => rfl

variable (h : I.Ties θ S τ σ)
include h

/-- One slot is changed, on both sides. -/
theorem Ties.update (hθ : Places θ d k n) (hS : ∀ m ∈ S, m < n) {m : Nat} (hk : k ≤ m) (hn : m < n)
    (v : V) : I.Ties θ (S ++ [m]) (Function.update τ m v) (Function.update σ (d m) v) := by
  intro l hl
  by_cases hlm : l = m
  · subst hlm
    rw [hθ.slot hk hn, Function.update_self, operand, Function.update_self]
  · have hl' : l ∈ S := (List.mem_append.1 hl).resolve_right fun h => hlm (List.mem_singleton.1 h)
    rw [Function.update_of_ne hlm, operand_update fun ho => hlm (hθ.apart (hS l hl') hk hn ho)]
    exact h l hl'

theorem Ties.assignAll (hθ : Places θ d k n) (hS : ∀ m ∈ S, m < n) {slots : List Nat}
    (hs : ∀ m ∈ slots, k ≤ m ∧ m < n) (nil : V) (vs : List V) :
    I.Ties θ (S ++ slots) (assignAll nil slots vs τ) (assignAll nil (slots.map d) vs σ) := by
  induction slots generalizing S τ σ vs with
  | nil => rwa [List.append_nil]
  | cons m rest ih =>
    obtain ⟨⟨hk, hn⟩, hrest⟩ := List.forall_mem_cons.1 hs
    have hS' : ∀ l ∈ S ++ [m], l < n := fun l hl =>
      (List.mem_append.1 hl).elim (hS l) fun hl => List.mem_singleton.1 hl ▸ hn
    rw [← List.singleton_append, ← List.append_assoc]
    exact ih (h.update hθ hS hk hn _) hS' hrest _

/-- The operands of a statement have the same values on both sides. -/
theorem Ties.operands {os : List Operand} (hos : os.all (fun o => o.slots.any S.contains) = true) :
    ∃ vs, os.mapM (I.operand τ) = some vs ∧
      (os.map (Operand.subst θ)).mapM (I.operand σ) = some vs := by
  induction os with
  | nil => exact ⟨[], rfl, rfl⟩
  | cons o rest ih =>
    obtain ⟨ho, hrest⟩ := Bool.and_eq_true_iff.1 hos
    obtain ⟨vs, hτ, hσ⟩ := ih hrest
    cases o with
    | slot m =>
      have hm : m ∈ S := by simpa [Operand.slots] using ho
      refine ⟨τ m :: vs, ?_, ?_⟩
      · rw [List.mapM_cons, hτ]
        rfl
      · rw [List.map_cons, List.mapM_cons, hσ, Operand.subst, h m hm]
        rfl
    | _ => cases ho

/-- **A statement and its template** act alike. -/
theorem exec_subst (hθ : Places θ d k n) (hS : ∀ m ∈ S, m < n) {s : Stmt} (hs : s.fits k n S = true)
    (x : Effects V W) :
    ∃ τ' σ' y, I.exec s ⟨τ, x⟩ = some ⟨τ', y⟩ ∧ I.exec (s.subst θ) ⟨σ, x⟩ = some ⟨σ', y⟩ ∧
      I.Ties θ (S ++ s.changes) τ' σ' ∧
      ∀ e, (∀ m, k ≤ m → m < n → d m ≠ e) → σ' e = σ e := by
  simp only [Stmt.fits, Bool.and_eq_true, List.all_eq_true, decide_eq_true_eq] at hs
  obtain ⟨⟨hacts, hreads⟩, hchanges⟩ := hs
  have hslots : ∀ m ∈ s.changes, θ m = .slot (d m) := fun m hm =>
    hθ.slot (hchanges m hm).1 (hchanges m hm).2
  obtain ⟨vs, hτ, hσ⟩ := h.operands (List.all_eq_true.2 hreads)
  refine ⟨_, _, (I.apply s.shape vs x).2, ?_, ?_,
    h.assignAll hθ hS hchanges I.nil (I.apply s.shape vs x).1, fun e he => ?_⟩
  · rw [exec, if_pos hacts, hτ]
    rfl
  · rw [exec, if_pos (by rwa [Stmt.acts_subst]), Stmt.operands_subst hacts hslots, hσ,
      Stmt.shape_subst θ hacts, Stmt.changes_subst hslots]
    rfl
  · refine assignAll_of_not_mem (fun hm => ?_) _ _
    obtain ⟨m, hmem, rfl⟩ := List.mem_map.1 hm
    exact he m (hchanges m hmem).1 (hchanges m hmem).2 rfl

/-- **The code of a template** leaves the same results wherever its slots are. -/
theorem lines_subst {code : List Stmt} (hθ : Places θ d k n) (hS : ∀ m ∈ S, m < n)
    (hc : Stmt.allFit k n S code = true) (x : Effects V W) :
    ∃ τ' σ' y, I.lines (code.map .stmt) ⟨τ, x⟩ = some ⟨τ', y⟩ ∧
      I.lines ((code.map (Stmt.subst θ)).map .stmt) ⟨σ, x⟩ = some ⟨σ', y⟩ ∧
      (∀ m, k ≤ m → m < n → σ' (d m) = τ' m) ∧
      ∀ e, (∀ m, k ≤ m → m < n → d m ≠ e) → σ' e = σ e := by
  induction code generalizing S τ σ x with
  | nil =>
    refine ⟨τ, σ, x, rfl, rfl, fun m hk hn => ?_, fun _ _ => rfl⟩
    have hm : m ∈ S := by
      simp only [Stmt.allFit, List.all_eq_true, List.mem_range'_1] at hc
      exact List.contains_iff_mem.1 (hc m ⟨hk, by omega⟩)
    have htie := h m hm
    rw [hθ.slot hk hn] at htie
    exact Option.some.inj htie
  | cons s rest ih =>
    obtain ⟨hs, hrest⟩ := Bool.and_eq_true_iff.1 hc
    obtain ⟨τ₁, σ₁, y, hτ, hσ, hties, hframe⟩ := exec_subst h hθ hS hs x
    have hS' : ∀ m ∈ S ++ s.changes, m < n := by
      simp only [Stmt.fits, Bool.and_eq_true, List.all_eq_true, decide_eq_true_eq] at hs
      exact fun m hm => (List.mem_append.1 hm).elim (hS m) fun hm => (hs.2 m hm).2
    obtain ⟨τ₂, σ₂, z, hτ', hσ', hres, hframe'⟩ := ih hties hS' hrest y
    refine ⟨τ₂, σ₂, z, ?_, ?_, hres, fun e he => (hframe' e he).trans (hframe e he)⟩
    · rw [List.map_cons, lines, line, hτ, Option.bind_some, hτ']
    · rw [List.map_cons, List.map_cons, lines, line, hσ, Option.bind_some, hσ']

end Interpretation

/-- Operands in the place of the first slots, and slots in the place of those behind them. -/
def placing (xs : List Operand) (ds : List Nat) (n : Nat) : Operand :=
  ((xs ++ ds.map .slot)[n]?).getD .missing

section

variable {xs : List Operand} {ds : List Nat}

theorem placing_of_lt {m : Nat} (h : m < xs.length) : placing xs ds m = xs[m] := by
  rw [placing, List.getElem?_append_left h, List.getElem?_eq_getElem h, Option.getD_some]

theorem placing_of_le {m : Nat} (hk : xs.length ≤ m) (hn : m < xs.length + ds.length) :
    placing xs ds m = .slot ((ds[m - xs.length]?).getD 0) := by
  have hm : m - xs.length < ds.length := by omega
  rw [placing, List.getElem?_append_right hk, List.getElem?_map, List.getElem?_eq_getElem hm]
  rfl

theorem places_placing (hds : ds.Nodup) (hxs : ∀ d ∈ ds, .slot d ∉ xs) : Places (placing xs ds)
    (fun m => (ds[m - xs.length]?).getD 0) xs.length (xs.length + ds.length) := by
  refine ⟨placing_of_le, fun {l m} hl hk hn he => ?_⟩
  have hm : m - xs.length < ds.length := by omega
  rw [List.getElem?_eq_getElem hm, Option.getD_some] at he
  by_cases hx : l < xs.length
  · rw [placing_of_lt hx] at he
    exact absurd (he ▸ List.getElem_mem hx) (hxs _ (List.getElem_mem hm))
  · rw [placing_of_le (Nat.le_of_not_lt hx) hl, List.getElem?_eq_getElem (by omega),
      Option.getD_some] at he
    have := (hds.getElem_inj_iff).1 (Operand.slot.inj he)
    omega

end

/-- Does the template go on to its end, read only its operands and what it has computed itself, and
leave all its results? -/
def Template.fits (t : Template) : Bool :=
  t.code.all Stmt.goesOn && Stmt.allFit t.params (t.params + t.results) (List.range t.params) t.code

/-- The code of a plain instruction is that of a template. -/
structure Plain.Realizes (p : Plain) (t : Template) : Prop where
  pops : p.pops = t.params
  pushes : p.pushes = t.results
  fits : t.fits = true
  code : ∀ {xs ds}, xs.length = t.params → ds.length = t.results →
    p.code xs ds = (t.code.map (Stmt.subst (placing xs ds))).map .stmt

/-- Code that is made for any operands is that of a template if it is so for slots. -/
theorem Plain.Natural.realizes {p : Plain} {t : Template} (h : p.Natural) (hpops : p.pops = t.params)
    (hpushes : p.pushes = t.results) (hfits : t.fits = true)
    (hcode : p.code ((List.range t.params).map .slot) (List.range' t.params t.results) =
      t.code.map .stmt) : p.Realizes t := by
  refine ⟨hpops, hpushes, hfits, fun {xs ds} hxs hds => ?_⟩
  have hfirst : ((List.range t.params).map Operand.slot).map (Operand.subst (placing xs ds)) =
      xs := by
    rw [← hxs, List.map_map]
    refine List.ext_getElem (by simp) fun i _ hi => ?_
    rw [List.getElem_map, List.getElem_range]
    exact placing_of_lt hi
  have hlast : (List.range' t.params t.results).map (fun m => (ds[m - xs.length]?).getD 0) = ds := by
    rw [← hxs, ← hds]
    refine List.ext_getElem (by simp) fun i _ hi => ?_
    simp [hi]
  rw [subst_stmts, ← hcode, ← h _ (fun m => (ds[m - xs.length]?).getD 0), hfirst, hlast]
  intro d hd
  rw [List.mem_range'_1] at hd
  exact placing_of_le (by omega) (by omega)

/-- **What a realized template does.** -/
theorem Interpretation.lines_realized {V W : Type} {I : Interpretation V W} {σ : Nat → V}
    {p : Plain} {t : Template} (h : p.Realizes t) {xs : List Operand} {ds : List Nat}
    {args : List V} (hargs : List.Forall₂ (fun o v => I.operand σ o = some v) xs args)
    (hxs : xs.length = p.pops) (hlen : ds.length = p.pushes) (hds : ds.Nodup)
    (hne : ∀ d ∈ ds, .slot d ∉ xs) (x : Effects V W) :
    ∃ results y σ', t.run I args x = some (results, y) ∧ results.length = p.pushes ∧
      I.lines (p.code xs ds) ⟨σ, x⟩ = some ⟨σ', y⟩ ∧
      List.Forall₂ (fun d v => σ' d = v) ds results ∧ ∀ d, d ∉ ds → σ' d = σ d := by
  have hties : I.Ties (placing xs ds) (List.range xs.length) (fun n => (args[n]?).getD I.nil) σ := by
    intro m hm
    rw [List.mem_range] at hm
    have hv := (List.forall₂_iff_get.1 hargs).2 m hm (hargs.length_eq ▸ hm)
    rw [placing_of_lt hm]
    simp only [List.getElem?_eq_getElem (hargs.length_eq ▸ hm), Option.getD_some]
    exact hv
  have hfits := (Bool.and_eq_true_iff.1 h.fits).2
  rw [h.pops] at hxs
  rw [h.pushes] at hlen
  rw [← hxs, ← hlen] at hfits
  obtain ⟨τ', σ', y, hτ, hσ, hres, hframe⟩ := lines_subst hties (places_placing hds hne)
    (fun m hm => Nat.lt_add_right _ (List.mem_range.1 hm)) hfits x
  refine ⟨(List.range' t.params t.results).map τ', y, σ', ?_, ?_, ?_, ?_, fun d hd => ?_⟩
  · rw [Template.run, hτ]
    rfl
  · rw [List.length_map, List.length_range', h.pushes]
  · rw [h.code hxs hlen]
    exact hσ
  · refine List.forall₂_iff_get.2 ⟨by simp [hlen], fun i hi hi' => ?_⟩
    have hr := hres (xs.length + i) (Nat.le_add_right _ _) (by omega)
    rw [Nat.add_sub_cancel_left, List.getElem?_eq_getElem hi, Option.getD_some] at hr
    simpa [hxs] using hr
  · refine hframe d fun m hk hn he => hd ?_
    rw [List.getElem?_eq_getElem (by omega), Option.getD_some] at he
    exact he ▸ List.getElem_mem _

/-! ## Spellings -/

/-- Are the operands of an expression slots below `k`? -/
def Expr.inside (k : Nat) (e : Expr) : Bool :=
  e.operands.all fun o => o.slots.any (List.range k).contains

theorem BinaryOp.inside_lower (op : BinaryOp) (exact : Bool) (type : ValueType) :
    (op.lower exact type (.slot 0) (.slot 1)).all (Expr.inside 2) = true := by
  cases type <;> cases op <;> cases exact <;> rfl

theorem Comparison.inside_lower (op : Comparison) (type : ValueType) :
    (op.lower type (.slot 0) (.slot 1)).all (Expr.inside 2) = true := by
  cases type <;> cases op <;> rfl

theorem inside_lowerEqz (type : ValueType) :
    (lowerEqz type (.slot 0)).all (Expr.inside 1) = true := by
  cases type <;> rfl

theorem UnaryOp.inside_lower (op : UnaryOp) (type : ValueType) :
    (op.lower type (.slot 0)).all (Expr.inside 1) = true := by
  cases type <;> cases op <;> rfl

theorem Conversion.inside_lower (op : Conversion) :
    (op.lower (.slot 0)).all (Expr.inside 1) = true := by
  cases op with
  | truncS target source | truncU target source => cases target <;> rfl
  | convertS target source | convertU target source => cases source <;> rfl
  | reinterpret target => cases target <;> rfl
  | _ => rfl

theorem fits_lowerLoad (type : ValueType) (width : Width) (signed : Bool) (handle : String)
    (offset : Nat) :
    (lowerLoad (.slot 1) type width signed (.name handle) (addressOf (.slot 0) offset)).all
      (fun code => Template.fits ⟨1, 1, code⟩) = true := by
  cases offset <;> cases type <;> cases width <;> cases signed <;> rfl

theorem fits_lowerStore (type : ValueType) (width : Width) (handle : String) (offset : Nat) :
    (lowerStore type width (.name handle) (addressOf (.slot 0) offset) (.slot 1)).all
      (fun s => Template.fits ⟨2, 0, [s]⟩) = true := by
  cases offset <;> cases type <;> cases width <;> rfl

/-! ## Plain instructions -/

namespace Plain

variable {p : Plain}

/-- An expression in the operands. -/
theorem fits_value {k : Nat} {e : Expr} (he : e.inside k = true) :
    (Template.value k e).fits = true := by
  have hops : (Stmt.assign [.slot k] e).operands = e.operands := rfl
  simp only [Template.fits, Template.value, Stmt.allFit, Stmt.fits, hops, Bool.and_eq_true]
  refine ⟨rfl, ⟨⟨rfl, he⟩, ?_⟩, ?_⟩ <;> simp [Stmt.changes, Stmt.assigns, Expr.slot, Expr.target]

theorem realizes_unary {lower : Expr → Option Expr} (hp : unary lower = some p)
    (hs : ∀ x y, (lower x).isSome = (lower y).isSome) (hn : p.Natural)
    (hin : (lower (.slot 0)).all (Expr.inside 1) = true) :
    ∃ t, (lower (.slot 0)).map (Template.value 1) = some t ∧ p.Realizes t := by
  obtain ⟨e, he, hcode⟩ := code_unary hp hs (.slot 0) 1
  obtain ⟨hpops, hpushes⟩ := size_unary hp
  rw [Expr.slot, he] at hin ⊢
  exact ⟨_, rfl, hn.realizes hpops hpushes (fits_value hin) hcode⟩

theorem realizes_binary {lower : Expr → Expr → Option Expr} (hp : binary lower = some p)
    (hs : ∀ x y x' y', (lower x y).isSome = (lower x' y').isSome) (hn : p.Natural)
    (hin : (lower (.slot 0) (.slot 1)).all (Expr.inside 2) = true) :
    ∃ t, (lower (.slot 0) (.slot 1)).map (Template.value 2) = some t ∧ p.Realizes t := by
  obtain ⟨e, he, hcode⟩ := code_binary hp hs (.slot 0) (.slot 1) 2
  obtain ⟨hpops, hpushes⟩ := size_binary hp
  rw [Expr.slot, Expr.slot, he] at hin ⊢
  exact ⟨_, rfl, hn.realizes hpops hpushes (fits_value hin) hcode⟩

theorem realizes_load {type : ValueType} {width : Width} {signed : Bool} {handle : String}
    {offset : Nat} (hp : load type width signed handle offset = some p) :
    ∃ code, lowerLoad (.slot 1) type width signed (.name handle) (addressOf (.slot 0) offset) =
      some code ∧ p.Realizes ⟨1, 1, code⟩ := by
  have hn := natural_load hp
  obtain ⟨c₀, hc₀, rfl⟩ := Option.map_eq_some_iff.1 hp
  obtain ⟨code, hcode⟩ : ∃ code, lowerLoad (.slot 1) type width signed (.name handle)
      (addressOf (.slot 0) offset) = some code :=
    Option.isSome_iff_exists.1 (by rw [lowerLoad_isSome _ (.slot 0) _ _ (.number 0), hc₀]; rfl)
  have hfits := fits_lowerLoad type width signed handle offset
  rw [hcode] at hfits
  exact ⟨code, hcode, hn.realizes rfl rfl hfits
    (congrArg (fun c => (Option.getD c []).map Line.stmt) hcode)⟩

theorem realizes_store {type : ValueType} {width : Width} {handle : String} {offset : Nat}
    (hp : store type width handle offset = some p) :
    ∃ s, lowerStore type width (.name handle) (addressOf (.slot 0) offset) (.slot 1) = some s ∧
      p.Realizes ⟨2, 0, [s]⟩ := by
  have hn := natural_store hp
  obtain ⟨s₀, hs₀, rfl⟩ := Option.map_eq_some_iff.1 hp
  obtain ⟨s, hs⟩ : ∃ s, lowerStore type width (.name handle) (addressOf (.slot 0) offset)
      (.slot 1) = some s :=
    Option.isSome_iff_exists.1
      (by rw [lowerStore_isSome _ _ _ _ _ (.number 0) (.number 0), hs₀]; rfl)
  have hfits := fits_lowerStore type width handle offset
  rw [hs] at hfits
  exact ⟨s, hs, hn.realizes rfl rfl hfits
    (congrArg (fun c => (Option.toList c).map Line.stmt) hs)⟩

/-! ### Calls -/

theorem allOperands_slots (ns : List Nat) : Expr.allOperands (ns.map .slot) = ns.map .slot := by
  induction ns with
  | nil => rfl
  | cons n rest ih => exact congrArg (Operand.slot n :: ·) ih

theorem operands_assign_slots (slots : List Nat) (e : Expr) :
    (Stmt.assign (slots.map .slot) e).operands = e.operands := by
  have hnone : (slots.map Expr.slot).filter (fun place => place.target.isNone) = [] := by
    simp [List.filter_map, Function.comp_def, Expr.slot, Expr.target]
  rw [Stmt.operands, hnone]
  rfl

theorem stops_call (function : Expr) (slots : List Nat) :
    (Expr.call function (slots.map .slot)).stops = false := by
  unfold Expr.stops
  split
  · rename_i h
    injection h with _ h
    rcases slots with _ | ⟨n, _ | _⟩ <;> cases h
  · rfl

theorem realizes_invoke {signature : Signature} {taken : Nat} {callee : List Operand → Expr}
    {target : Expr} (hin : target.inside (signature.params.length + taken) = true)
    (hn : (invoke signature taken callee).Natural)
    (hcallee : callee (((List.range (signature.params.length + taken)).map .slot).drop
      signature.params.length) = target) :
    (invoke signature taken callee).Realizes (.invoke signature taken target) := by
  refine hn.realizes rfl rfl ?_ ?_
  · have hcall : (Expr.call target ((List.range signature.params.length).map .slot)).inside
        (signature.params.length + taken) = true := by
      rw [Expr.inside, Expr.operands, allOperands_slots, List.all_append, Bool.and_eq_true]
      refine ⟨hin, List.all_eq_true.2 fun o ho => ?_⟩
      obtain ⟨n, hn, rfl⟩ := List.mem_map.1 ho
      have := List.mem_range.1 hn
      simp [Operand.slots]
      omega
    unfold Template.fits Template.invoke
    by_cases hr : signature.results.isEmpty = true
    · simp only [if_pos hr, Stmt.allFit, Stmt.fits, Bool.and_eq_true]
      refine ⟨by simp [Stmt.goesOn, stops_call], ⟨⟨rfl, hcall⟩, rfl⟩, ?_⟩
      simp [List.isEmpty_iff.1 hr]
    · simp only [if_neg hr, Stmt.allFit, Stmt.fits, Bool.and_eq_true, operands_assign_slots,
        Stmt.changes, Stmt.assigns_slots]
      refine ⟨rfl, ⟨⟨rfl, hcall⟩, by simp⟩, ?_⟩
      simp only [Nat.add_sub_cancel_left, List.all_eq_true, List.contains_iff_mem, List.mem_append]
      exact fun n hn => .inr hn
  · have hargs : (((List.range (signature.params.length + taken)).map Operand.slot).take
        signature.params.length).map Expr.operand =
          (List.range signature.params.length).map .slot := by
      rw [← List.map_take, List.take_range, Nat.min_eq_left (Nat.le_add_right _ _), List.map_map]
      rfl
    have hempty : (List.range' (signature.params.length + taken)
        signature.results.length).isEmpty = signature.results.isEmpty := by
      cases signature.results <;> rfl
    simp only [invoke, Template.invoke, hargs, hcallee, hempty]
    split <;> rfl

end Plain

/-- **The code of an operation is its template**, with the operands and the slots of the results in
it. -/
theorem Op.realizes_plain {env : Env} {o : Op} {p : Plain} (hp : o.plain env = some p)
    (h : o ≠ .nop ∧ o ≠ .drop ∧ o ≠ .select)
    (hc : ∀ c : Conversion, o = .convert c → c.lower (.slot 0) ≠ none) :
    ∃ t, o.template env = some t ∧ p.Realizes t := by
  have hn := natural_plain hp
  cases o with
  | nop => exact absurd rfl h.1
  | drop => exact absurd rfl h.2.1
  | select => exact absurd rfl h.2.2
  | call index =>
    simp only [Op.plain, Option.bind_eq_bind, Option.bind_eq_some_iff] at hp
    obtain ⟨callee, hcallee, hp⟩ := hp
    split at hp
    · cases hp
    · cases hp
      refine ⟨_, by rw [template, hcallee]; rfl, Plain.realizes_invoke rfl hn rfl⟩
  | callIndirect type table =>
    simp only [Op.plain, Option.bind_eq_bind, Option.bind_eq_some_iff] at hp
    obtain ⟨signature, hs, handle, ht, hp⟩ := hp
    cases hp
    refine ⟨_, by rw [template, hs, ht]; rfl, Plain.realizes_invoke ?_ hn ?_⟩
    · simp [Expr.inside, Expr.operands, Expr.slot, Operand.slots]
    · simp [Expr.slot]
  | globalGet | globalSet | memorySize =>
    obtain ⟨_, hs, rfl⟩ := Option.map_eq_some_iff.1 hp
    exact ⟨_, by rw [template, hs]; rfl, hn.realizes rfl rfl rfl rfl⟩
  | load type width signed arg =>
    obtain ⟨handle, hm, hp⟩ := Option.bind_eq_some_iff.1 hp
    obtain ⟨code, hcode, hr⟩ := Plain.realizes_load hp
    exact ⟨_, by rw [template, hm, Option.bind_eq_bind, Option.bind_some, hcode]; rfl, hr⟩
  | store type width arg =>
    obtain ⟨handle, hm, hp⟩ := Option.bind_eq_some_iff.1 hp
    obtain ⟨s, hs, hr⟩ := Plain.realizes_store hp
    exact ⟨_, by rw [template, hm, Option.bind_eq_bind, Option.bind_some, hs]; rfl, hr⟩
  | memoryGrow index =>
    obtain ⟨handle, hm, hp⟩ := Option.bind_eq_some_iff.1 hp
    obtain ⟨t, ht, hr⟩ := Plain.realizes_unary hp (fun _ _ => rfl) hn rfl
    exact ⟨t, by rw [template, hm]; exact ht, hr⟩
  | eqz type =>
    exact Plain.realizes_unary hp (lowerEqz_isSome type) hn (inside_lowerEqz type)
  | compare type c =>
    exact Plain.realizes_binary hp (c.lower_isSome type) hn (c.inside_lower type)
  | unary type u =>
    exact Plain.realizes_unary hp (u.lower_isSome type) hn (u.inside_lower type)
  | binary type b =>
    exact Plain.realizes_binary hp (b.lower_isSome _ type) hn (b.inside_lower _ type)
  | convert c =>
    obtain ⟨q, hq⟩ := Option.ne_none_iff_exists'.1
      (mt (Plain.unary_eq_none c.lower_isSome (.slot 0)).1 (hc c rfl))
    rw [Op.plain, Plain.conversion, hq] at hp
    cases hp
    exact Plain.realizes_unary hq c.lower_isSome hn c.inside_lower
  | _ => cases hp

/-- A plain instruction without a template drops operands or selects one. -/
theorem Op.plain_cases {env : Env} {o : Op} {p : Plain} (hp : o.plain env = some p) :
    (∃ pops, p = .discard pops) ∨ p = .select ∨ ∃ t, p.Realizes t := by
  cases o with
  | nop | drop => exact .inl ⟨_, (Option.some.inj hp).symm⟩
  | select => exact .inr (.inl (Option.some.inj hp).symm)
  | convert c =>
    by_cases hnone : c.lower (.slot 0) = none
    · rw [Op.plain, Plain.conversion, (Plain.unary_eq_none c.lower_isSome _).2 hnone] at hp
      exact .inl ⟨_, (Option.some.inj hp).symm⟩
    · obtain ⟨t, -, ht⟩ := Op.realizes_plain hp (by simp) fun c' hc => by cases hc; exact hnone
      exact .inr (.inr ⟨t, ht⟩)
  | _ =>
    obtain ⟨t, -, ht⟩ := Op.realizes_plain hp (by simp) (by simp)
    exact .inr (.inr ⟨t, ht⟩)

end Moonstack
