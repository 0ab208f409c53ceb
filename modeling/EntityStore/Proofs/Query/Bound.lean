import EntityStore.Mapping.Plan
import EntityStore.Proofs.Mapping.Meaning
import EntityStore.Proofs.Query.Compiled

/-!
Binding the parameters of a compiled query gives every level what it asks for: each operand has a
value, which is a list after `in`, and each limit and page has a number.
-/

set_option autoImplicit false

namespace EntityStore.Query

open EntityStore.Language (Bound Comparator)

/-! ### What notes tell -/

namespace Findings

theorem add_errors {f : Findings} {n : Note} (h : (f.add n).errors = []) :
    f.errors = [] ∧ f.parameters ⊆ (f.add n).parameters := by
  cases n with
  | error e => simp [add] at h
  | access k => exact ⟨h, List.Subset.refl _⟩
  | parameter p =>
    unfold add at h ⊢
    by_cases hany : f.parameters.any fun q ↦ q.name == p.name
    · simp [hany] at h
    · simp only [hany, Bool.false_eq_true, ↓reduceIte] at h ⊢
      exact ⟨h, List.subset_append_left _ _⟩

theorem add_parameter {f : Findings} {p : Parameter} (h : (f.add (.parameter p)).errors = []) :
    (f.add (.parameter p)).parameters = f.parameters ++ [p] ∧
      p.name ∉ f.parameters.map Parameter.name := by
  unfold add at h ⊢
  by_cases hany : f.parameters.any fun q ↦ q.name == p.name
  · simp [hany] at h
  · refine ⟨by simp [hany], ?_⟩
    simpa using hany

theorem add_nodup {f : Findings} {n : Note} (h : (f.add n).errors = [])
    (hnodup : (f.parameters.map Parameter.name).Nodup) :
    ((f.add n).parameters.map Parameter.name).Nodup := by
  cases n with
  | error e => exact hnodup
  | access k => exact hnodup
  | parameter p =>
    obtain ⟨heq, hnew⟩ := add_parameter h
    rw [heq, List.map_append, List.nodup_append]
    refine ⟨hnodup, by simp, ?_⟩
    rintro name hname _ hp rfl
    exact hnew (by simpa [List.mem_singleton.mp hp] using hname)

theorem foldl_add_errors {notes : List Note} {f : Findings} (h : (notes.foldl add f).errors = []) :
    f.errors = [] := by
  induction notes generalizing f with
  | nil => exact h
  | cons n notes ih => exact (add_errors (ih h)).1

/-- Without errors the parameters have different names, and each one noted is among them. -/
theorem foldl_add_parameters {notes : List Note} {f : Findings}
    (h : (notes.foldl add f).errors = []) (hnodup : (f.parameters.map Parameter.name).Nodup) :
    f.parameters ⊆ (notes.foldl add f).parameters ∧
      ((notes.foldl add f).parameters.map Parameter.name).Nodup ∧
      ∀ p, .parameter p ∈ notes → p ∈ (notes.foldl add f).parameters := by
  induction notes generalizing f with
  | nil => exact ⟨List.Subset.refl _, hnodup, nofun⟩
  | cons n notes ih =>
    have hadd : (f.add n).errors = [] := foldl_add_errors h
    obtain ⟨hsub, hnodup', hall⟩ := ih h (add_nodup hadd hnodup)
    refine ⟨List.Subset.trans (add_errors hadd).2 hsub, hnodup', fun p hp ↦ ?_⟩
    rcases List.mem_cons.mp hp with rfl | hp
    · exact hsub (by simp [(add_parameter hadd).1])
    · exact hall p hp

end Findings

variable {s : Schema} {form : Language.QueryForm Value Int64} {q : Compiled}
  {slots : Slots} {args : Args} {bindings : Bindings}

/-- A query compiles to its top level and to what its notes tell if none of them is an error. -/
theorem compileQuery_ok_iff : s.compileQuery form = .ok q ↔
    ∃ e, s.get? form.entity = some e ∧ (Findings.ofNotes (top s e form.body).notes).errors = [] ∧
      q = ⟨(top s e form.body).result, (Findings.ofNotes (top s e form.body).notes).parameters,
        (Findings.ofNotes (top s e form.body).notes).accessed⟩ := by
  unfold Schema.compileQuery
  cases s.get? form.entity with
  | none => exact iff_of_false nofun nofun
  | some e =>
    dsimp only
    constructor
    · intro h
      split at h
      · next herrors =>
        cases h
        exact ⟨e, rfl, List.isEmpty_iff.mp herrors, rfl⟩
      · cases h
    · rintro ⟨_, ⟨⟩, herrors, rfl⟩
      rw [if_pos (List.isEmpty_iff.mpr herrors)]

/-- A compiled query keeps what its levels were told, and its parameters have different names. -/
theorem compileQuery_sound (h : s.WellFormed) (hq : s.compileQuery form = .ok q) :
    (q.parameters.map Parameter.name).Nodup ∧
      ∃ notes, q.tree.Everywhere s notes ∧ ∀ p, .parameter p ∈ notes → p ∈ q.parameters := by
  obtain ⟨e, he, herrors, rfl⟩ := compileQuery_ok_iff.mp hq
  obtain ⟨hmem, -⟩ := (Schema.get?_eq_some_iff h).mp he
  obtain ⟨-, hnodup, hall⟩ := Findings.foldl_add_parameters herrors (by simp [Findings.none])
  exact ⟨hnodup, _, top_sound h hmem form.body, hall⟩

/-! ### What binding gives -/

theorem lookup_of_forall₂ {R : Parameter → Value → Prop} {parameters : List Parameter}
    (h : List.Forall₂ (fun p b ↦ b.1 = p.name ∧ R p b.2) parameters bindings)
    (hnodup : (parameters.map Parameter.name).Nodup) {p : Parameter} (hp : p ∈ parameters) :
    ∃ v, bindings.lookup p.name = some v ∧ R p v := by
  induction h with
  | nil => simp at hp
  | @cons q b parameters bindings hhead _ ih =>
    obtain ⟨name, v⟩ := b
    obtain ⟨rfl, hv⟩ := hhead
    rw [List.map_cons, List.nodup_cons] at hnodup
    rcases List.mem_cons.mp hp with rfl | hp
    · exact ⟨v, by simp, hv⟩
    · have hne : p.name ≠ q.name := fun heq ↦ hnodup.1 (heq ▸ List.mem_map_of_mem hp)
      obtain ⟨w, hw, hR⟩ := ih hnodup.2 hp
      exact ⟨w, by simpa [List.lookup_cons, beq_eq_false_iff_ne.mpr hne] using hw, hR⟩

/-- Every parameter is bound to what its check made of an argument. -/
theorem bind_lookup {parameters : List Parameter} (hb : bind parameters slots args = .ok bindings)
    (hnodup : (parameters.map Parameter.name).Nodup) {p : Parameter} (hp : p ∈ parameters) :
    ∃ v w, bindings.lookup p.name = some v ∧ p.check w = .ok v := by
  have hall := Except.mapM_eq_ok.mp hb
  have hall : List.Forall₂ (fun p b ↦ b.1 = p.name ∧ ∃ w, p.check w = .ok b.2)
      parameters bindings := by
    refine hall.imp fun p b hpb ↦ ?_
    obtain ⟨w, -, hw⟩ := Except.bind_eq_ok.mp hpb
    obtain ⟨v, hv, heq⟩ := Except.bind_eq_ok.mp hw
    cases heq
    exact ⟨rfl, w, hv⟩
  obtain ⟨v, hv, w, hw⟩ := lookup_of_forall₂ (R := fun p v ↦ ∃ w, p.check w = .ok v) hall hnodup hp
  exact ⟨v, w, hv, hw⟩

/-- The argument of a list is a list. -/
theorem check_list {name : String} {type : FieldType} {v w : Value}
    (h : Parameter.check ⟨name, type, .list⟩ w = .ok v) : ∃ items, v = .list items := by
  unfold Parameter.check at h
  split at h
  · contradiction
  · obtain ⟨items, -, rfl⟩ := Except.map_eq_ok.mp h
    exact ⟨items, rfl⟩
  · contradiction
  · contradiction

/-- The argument of a limit or page is a number that counts from one. -/
theorem check_bound {name : String} {type : FieldType} {v w : Value}
    (h : Parameter.check ⟨name, type, .bound⟩ w = .ok v) : ∃ n, v = .long n ∧ 1 ≤ n := by
  simp only [Parameter.check, boundValue] at h
  split at h
  · split at h
    · next n hn =>
      cases h
      exact ⟨_, rfl, hn⟩
    · contradiction
  · contradiction

def Operand.Bound (bindings : Bindings) : Operand → Prop
  | .param name => (bindings.lookup name).isSome
  | _ => True

/-- The operand has a value, and that is a list where a list is asked for. -/
structure Predicate.Bound (bindings : Bindings) (p : Predicate) : Prop where
  operand : p.operand.Bound bindings
  list : p.comparator = .isIn → ∃ items, p.operand.meaning bindings = .list items

def Filter.Bound (bindings : Bindings) : Filter → Prop
  | .and l r | .or l r => l.Bound bindings ∧ r.Bound bindings
  | .predicate p => p.Bound bindings

/-- What the topmost level of a tree asks of the arguments. -/
structure Tree.Bound (bindings : Bindings) (t : Tree) : Prop where
  filter : ∀ f, t.level.filter = some f → f.Bound bindings
  limit : ∃ n, Mapping.boundValue bindings t.level.limit = .ok n
  page : ∃ n, Mapping.boundValue bindings t.level.page = .ok n

section

variable {e : Entity} {notes : List Note}
  (hlookup : ∀ p, .parameter p ∈ notes → ∃ v w, bindings.lookup p.name = some v ∧ p.check w = .ok v)

include hlookup

theorem Predicate.Sound.bound {p : Predicate} (h : p.Sound s notes e) : p.Bound bindings := by
  cases ho : p.operand with
  | value v =>
    have hfits := h.fits
    rw [ho] at hfits
    exact ⟨by rw [ho]; trivial, fun hin ↦ absurd hin hfits⟩
  | list vs => exact ⟨by rw [ho]; trivial, fun _ ↦ ⟨vs, by rw [ho]; rfl⟩⟩
  | param name =>
    obtain ⟨v, w, hv, hw⟩ := hlookup _ (h.noted name ho)
    refine ⟨?_, fun hin ↦ ?_⟩
    · rw [ho]
      simp [Operand.Bound, hv]
    · rw [if_pos hin] at hw
      obtain ⟨items, rfl⟩ := check_list hw
      exact ⟨items, by rw [ho]; simp [Operand.meaning, hv]⟩

theorem Filter.Sound.bound {f : Filter} (h : f.Sound s notes e) : f.Bound bindings := by
  induction f with
  | and l r ihl ihr => exact ⟨ihl h.1, ihr h.2⟩
  | or l r ihl ihr => exact ⟨ihl h.1, ihr h.2⟩
  | predicate p => exact Predicate.Sound.bound hlookup h

theorem boundNoted_bound {b : Option (Bound Int64)} (h : ∀ b', b = some b' → boundNoted notes b') :
    ∃ n, Mapping.boundValue bindings b = .ok n := by
  match b with
  | none => exact ⟨none, rfl⟩
  | some (.literal n) => exact ⟨some n, rfl⟩
  | some (.param name) =>
    obtain ⟨v, w, hv, hw⟩ := hlookup _ (h _ rfl)
    obtain ⟨n, rfl, -⟩ := check_bound hw
    exact ⟨some n, by simp [Mapping.boundValue, hv, Value.asLong?]⟩

end

/-- Every level of a compiled query finds what it asks for among valid arguments. -/
theorem compileQuery_bound (h : s.WellFormed) (hq : s.compileQuery form = .ok q)
    (hb : bind q.parameters slots args = .ok bindings) : ∀ t ∈ q.tree.nodes, t.Bound bindings := by
  intro t ht
  obtain ⟨hnodup, notes, hsound, hnoted⟩ := compileQuery_sound h hq
  obtain ⟨e, -, ht⟩ := hsound t ht
  have hlookup : ∀ p, .parameter p ∈ notes → ∃ v w, bindings.lookup p.name = some v ∧
      p.check w = .ok v :=
    fun p hp ↦ bind_lookup hb hnodup (hnoted p hp)
  exact ⟨fun f hf ↦ (ht.filter f hf).bound hlookup, boundNoted_bound hlookup ht.limit,
    boundNoted_bound hlookup ht.page⟩

end EntityStore.Query
