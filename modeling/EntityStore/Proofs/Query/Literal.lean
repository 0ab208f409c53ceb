import EntityStore.Database.Basic
import EntityStore.Proofs.Language.Queries
import EntityStore.Proofs.Lookup
import EntityStore.Proofs.Mapping.Condition
import EntityStore.Proofs.Query.Standing

/-!
Parameters mean what the literals in their place mean. A text with a literal compiles if and only if
the text with a parameter in its place compiles and the parameter can be bound to the value of the
literal, and then both read the same rows (`Schema.query_filled`). An ordering is the exception:
null is refused as its literal and taken as its argument (`Schema.null_ordered`).
-/

set_option autoImplicit false

namespace EntityStore

namespace Query

variable {name : String} {v : Value} {ps : List Parameter} {slots : Slots} {args : Args}

/-- Every parameter is bound to what its check makes of its argument. -/
theorem bind_eq_ok {b : Bindings} : bind ps slots args = .ok b ↔
    List.Forall₂ (fun p x ↦ x.1 = p.name ∧ ∃ v, argument slots args p.name = .ok v ∧
      p.check v = .ok x.2) ps b := by
  unfold bind
  rw [Except.mapM_eq_ok]
  simp only [Except.bind_eq_ok]
  refine iff_of_eq (congrArg (List.Forall₂ · ps b) (funext₂ fun p x ↦ propext ⟨?_, ?_⟩))
  · rintro ⟨v, hv, w, hw, ⟨⟩⟩
    exact ⟨rfl, v, hv, hw⟩
  · obtain ⟨key, w⟩ := x
    rintro ⟨rfl, v, hv, hw⟩
    exact ⟨v, hv, w, hw, rfl⟩

/-- Binding succeeds if every parameter has an argument that passes its check. -/
theorem exists_bind : (∃ b, bind ps slots args = .ok b) ↔
    ∀ p ∈ ps, ∃ v w, argument slots args p.name = .ok v ∧ p.check v = .ok w := by
  constructor
  · rintro ⟨b, hb⟩ p hp
    obtain ⟨x, -, -, v, hv, hw⟩ := List.forall₂_exists_left (bind_eq_ok.mp hb) p hp
    exact ⟨v, x.2, hv, hw⟩
  · intro h
    obtain ⟨b, hb⟩ := List.exists_forall₂ fun p hp ↦ by
      obtain ⟨v, w, hv, hw⟩ := h p hp
      exact (⟨(p.name, w), rfl, v, hv, hw⟩ : ∃ x : String × Value, x.1 = p.name ∧
        ∃ v, argument slots args p.name = .ok v ∧ p.check v = .ok x.2)
    exact ⟨b, bind_eq_ok.mpr hb⟩

/-- The argument of a parameter that is given besides others. -/
theorem argument_given : argument slots ((name, .value v) :: args) name = .ok v := by
  simp [argument]

theorem argument_other {other : String} (hother : other ≠ name) :
    argument slots ((name, .value v) :: args) other = argument slots args other := by
  simp [argument, List.lookup_cons, beq_eq_false_iff_ne.mpr hother]

/-- With a further argument the other parameters are bound as they are without. -/
theorem exists_bind_given : (∃ b', bind ps slots ((name, .value v) :: args) = .ok b') ↔
    (∃ b, bind (ps.filter fun p ↦ p.name != name) slots args = .ok b) ∧
      ∀ p ∈ ps, p.name = name → (p.check v).isOk := by
  rw [exists_bind, exists_bind]
  constructor
  · intro h
    refine ⟨fun p hp ↦ ?_, fun p hp hname ↦ ?_⟩
    · obtain ⟨hp, hname⟩ := List.mem_filter.mp hp
      have hp := h p hp
      rwa [argument_other (bne_iff_ne.mp hname)] at hp
    · obtain ⟨u, w, hu, hw⟩ := h p hp
      rw [hname, argument_given] at hu
      cases hu
      exact Except.isOk_iff.mpr ⟨w, hw⟩
  · rintro ⟨hothers, hgiven⟩ p hp
    by_cases hname : p.name = name
    · obtain ⟨w, hw⟩ := Except.isOk_iff.mp (hgiven p hp hname)
      exact ⟨v, w, hname ▸ argument_given, hw⟩
    · rw [argument_other hname]
      exact hothers p (List.mem_filter.mpr ⟨hp, bne_iff_ne.mpr hname⟩)

theorem lookup_filter_ne {b : Bindings} {other : String} (hother : other ≠ name) :
    (b.filter fun x ↦ x.1 != name).lookup other = b.lookup other := by
  induction b with
  | nil => rfl
  | cons x b ih =>
    obtain ⟨key, w⟩ := x
    by_cases hkey : key = name
    · rw [List.filter_cons_of_neg (by simp [hkey]), ih, List.lookup_cons, hkey,
        beq_eq_false_iff_ne.mpr hother]
    · rw [List.filter_cons_of_pos (by simp [hkey]), List.lookup_cons, List.lookup_cons, ih]

/-- What the other parameters are bound to does not depend on the further argument. -/
theorem lookup_other {b b' : Bindings}
    (hb : bind (ps.filter fun p ↦ p.name != name) slots args = .ok b)
    (hb' : bind ps slots ((name, .value v) :: args) = .ok b') {other : String}
    (hother : other ≠ name) :
    b'.lookup other = b.lookup other := by
  have hsame : bind (ps.filter fun p ↦ p.name != name) slots args =
      .ok (b'.filter fun x ↦ x.1 != name) := by
    have hkept := List.rel_filter (p := fun p : Parameter ↦ p.name != name) (q :=
        fun x : String × Value ↦ x.1 != name)
      (fun p x h ↦ by dsimp only; rw [h.1]) (bind_eq_ok.mp hb')
    have hne : ∀ p ∈ ps.filter fun p ↦ p.name != name, p.name ≠ name := fun p hp ↦
      bne_iff_ne.mp (List.mem_filter.mp hp).2
    refine bind_eq_ok.mpr (((List.forall₂_and_left _ _).mpr ⟨hne, hkept⟩).imp fun p x ⟨hp, h⟩ ↦ ?_)
    rwa [argument_other hp] at h
  cases hb.symm.trans hsame
  exact (lookup_filter_ne hother).symm

/-- The parameter is bound to what its check makes of the further argument. -/
theorem lookup_given {b' : Bindings} (hb' : bind ps slots ((name, .value v) :: args) = .ok b')
    (hnodup : (ps.map Parameter.name).Nodup) {p : Parameter} (hp : p ∈ ps)
    (hname : p.name = name) {w : Value} (hw : p.check v = .ok w) : b'.lookup name = some w := by
  obtain ⟨x, hx, u, hu, hcheck⟩ := lookup_of_forall₂ (R := fun p x ↦
    ∃ u, argument slots ((name, .value v) :: args) p.name = .ok u ∧ p.check u = .ok x)
      (bind_eq_ok.mp hb') hnodup hp
  rw [hname, argument_given] at hu
  cases hu
  cases hw.symm.trans hcheck
  rw [← hname]
  exact hx

end Query

namespace Schema

open EntityStore.Language (QueryForm readQuery)

variable {s : Schema}

theorem query_eq_ok {text : String} {form : QueryForm Value Int64}
    (htext : readQuery text = .ok form) {q : Query.Compiled} :
    s.query text = .ok q ↔ s.compileQuery form = .ok q := by
  unfold query
  rw [htext]
  exact Except.mapError_eq_ok

/-- A text with a literal, as an operand, a limit or a page, and a text with a parameter of its own
in that place: the first compiles if and only if the second does and the parameter takes the value
of the literal; with further arguments for the parameters that both have, the one can be bound if
the other can; and then both read the same from every store. -/
theorem query_filled (h : s.Reachable) {text text' : String} {form form' : QueryForm Value Int64}
    (htext : readQuery text = .ok form) (htext' : readQuery text' = .ok form')
    {name : String} {v : Value} (hfills : form.Fills name v form')
    (honce : form'.body.parameterNames.count name ≤ 1) :
    ((s.query text).isOk ↔
      ∃ q', s.query text' = .ok q' ∧ ∀ p ∈ q'.parameters, p.name = name → (p.check v).isOk) ∧
    ∀ slots args,
      ((∃ q b, s.query text = .ok q ∧ Query.bind q.parameters slots args = .ok b) ↔
        ∃ q' b', s.query text' = .ok q' ∧
        Query.bind q'.parameters slots ((name, .value v) :: args) = .ok b') ∧
      ∀ q b q' b', s.query text = .ok q → Query.bind q.parameters slots args = .ok b →
        s.query text' = .ok q' →
          Query.bind q'.parameters slots ((name, .value v) :: args) = .ok b' →
          ∀ store, Mapping.read store b' q'.tree = Mapping.read store b q.tree := by
  obtain ⟨hcompiles, hsame⟩ := Query.compileQuery_fills h.wellFormed hfills honce
  rw [Except.isOk_iff]
  simp only [query_eq_ok htext, query_eq_ok htext']
  refine ⟨hcompiles, fun slots args ↦ ⟨⟨?_, ?_⟩, ?_⟩⟩
  · rintro ⟨q, b, hq, hb⟩
    obtain ⟨q', hq', hcheck⟩ := hcompiles.mp ⟨q, hq⟩
    rw [(hsame q q' hq hq').1] at hb
    obtain ⟨b', hb'⟩ := Query.exists_bind_given.mpr ⟨⟨b, hb⟩, hcheck⟩
    exact ⟨q', b', hq', hb'⟩
  · rintro ⟨q', b', hq', hb'⟩
    obtain ⟨⟨b, hb⟩, hcheck⟩ := Query.exists_bind_given.mp ⟨b', hb'⟩
    obtain ⟨q, hq⟩ := hcompiles.mpr ⟨q', hq', hcheck⟩
    rw [← (hsame q q' hq hq').1] at hb
    exact ⟨q, b, hq, hb⟩
  · intro q b q' b' hq hb hq' hb' store
    obtain ⟨hparameters, hasks⟩ := hsame q q' hq hq'
    rw [hparameters] at hb
    have hnodup := (Query.compileQuery_sound h.wellFormed hq').1
    exact Mapping.read_same store
      (hasks b b' (fun p hp hname w ↦ Query.lookup_given hb' hnodup hp hname)
      fun other hother ↦ Query.lookup_other hb hb' hother)

/-- The persons of which a field compares with an operand. -/
def personsForm (field : String) (c : Language.Comparator) (operand : Language.Node Value) :
    QueryForm Value Int64 :=
  ⟨"Person", some (.predicate [field] c operand), none, none, [.field "name" none]⟩

theorem query_filled_of_friends : ∃ q b q' b',
    (Schema.empty.after Mapping.friendsCalls).query "Person | @id > 1 | \x7b name \x7d" = .ok q ∧
      Query.bind q.parameters .empty [] = .ok b ∧
      (Schema.empty.after Mapping.friendsCalls).query "Person | @id > ?least | \x7b name \x7d" =
        .ok q' ∧
      Query.bind q'.parameters .empty [("least", .value (.long 1))] = .ok b' ∧
      Mapping.read Mapping.friendsStore b' q'.tree = Mapping.read Mapping.friendsStore b q.tree ∧
      (Mapping.read Mapping.friendsStore b q.tree).1.toOption.any
        (fun rows ↦ rows.length == 1) := by
  have htext : readQuery "Person | @id > 1 | \x7b name \x7d" =
      .ok (personsForm "@id" (.compare .gt) (.literal (.long 1))) := by
    refine Language.QueryForm.read rfl ⟨[], _, .nil, ?_, rfl⟩
    exact .blank (.plain rfl) <| .blank (.plain rfl) <| .blank (.plain rfl) <|
      .blank (.plain rfl) <| .blank (.literal (.long 1)) <| .blank (.plain rfl) <|
        .blank (.plain rfl) <|
      .blank (.plain rfl) <| .last (.plain rfl)
  have htext' : readQuery "Person | @id > ?least | \x7b name \x7d" =
      .ok (personsForm "@id" (.compare .gt) (.param "least")) := by
    refine Language.QueryForm.read rfl ⟨[], _, .nil, ?_, rfl⟩
    exact .blank (.plain rfl) <| .blank (.plain rfl) <| .blank (.plain rfl) <|
      .blank (.plain rfl) <| .blank (.plain rfl) <| .blank (.plain rfl) <| .blank (.plain rfl) <|
        .blank (.plain rfl) <| .last (.plain rfl)
  have hfills : (personsForm "@id" (.compare .gt) (.literal (.long 1))).Fills "least" (.long 1)
      (personsForm "@id" (.compare .gt) (.param "least")) :=
    ⟨rfl, .some (.filled (.literal (by rintro _ ⟨⟩; nofun)) nofun), .none, .none, .cons .field .nil⟩
  have hok :
      ((Schema.empty.after Mapping.friendsCalls).query
        "Person | @id > 1 | \x7b name \x7d").toOption.any fun q ↦
      (Query.bind q.parameters .empty []).toOption.any fun b ↦
        (Mapping.read Mapping.friendsStore b q.tree).1.toOption.any fun rows ↦
            rows.length == 1 := by
    decide +kernel
  obtain ⟨q, hq, hok⟩ := (Option.any_eq_true _ _).mp hok
  obtain ⟨b, hb, hrows⟩ := (Option.any_eq_true _ _).mp hok
  have hq := Except.toOption_eq_some_iff.mp hq
  have hb := Except.toOption_eq_some_iff.mp hb
  obtain ⟨-, hbound⟩ := query_filled ⟨Mapping.friendsCalls, rfl⟩ htext htext' hfills (by decide)
  obtain ⟨hiff, hread⟩ := hbound .empty []
  obtain ⟨q', b', hq', hb'⟩ := hiff.mp ⟨q, b, hq, hb⟩
  exact ⟨q, b, q', b', hq, hb, hq', hb', hread q b q' b' hq hb hq' hb' _, hrows⟩

/-- An ordering is not asked of the literal null, but of a parameter that is bound to null. -/
theorem null_ordered :
    readQuery "Person | name < null | \x7b name \x7d" =
      .ok (personsForm "name" (.compare .lt) (.literal .null)) ∧
    readQuery "Person | name < ?p | \x7b name \x7d" =
      .ok (personsForm "name" (.compare .lt) (.param "p")) ∧
    ¬((Schema.empty.after Mapping.friendsCalls).query
      "Person | name < null | \x7b name \x7d").isOk ∧
    ∃ q b, (Schema.empty.after Mapping.friendsCalls).query "Person | name < ?p | \x7b name \x7d" =
      .ok q ∧ Query.bind q.parameters .empty [("p", .value .null)] = .ok b := by
  refine ⟨?_, ?_, by decide +kernel, ?_⟩
  · refine Language.QueryForm.read rfl ⟨[], _, .nil, ?_, rfl⟩
    exact .blank (.plain rfl) <| .blank (.plain rfl) <| .blank (.plain rfl) <|
      .blank (.plain rfl) <| .blank (.literal .null) <| .blank (.plain rfl) <|
        .blank (.plain rfl) <| .blank (.plain rfl) <| .last (.plain rfl)
  · refine Language.QueryForm.read rfl ⟨[], _, .nil, ?_, rfl⟩
    exact .blank (.plain rfl) <| .blank (.plain rfl) <| .blank (.plain rfl) <|
      .blank (.plain rfl) <| .blank (.plain rfl) <| .blank (.plain rfl) <| .blank (.plain rfl) <|
        .blank (.plain rfl) <| .last (.plain rfl)
  · have hok :
        ((Schema.empty.after Mapping.friendsCalls).query
          "Person | name < ?p | \x7b name \x7d").toOption.any fun q ↦
        (Query.bind q.parameters .empty [("p", .value .null)]).toOption.isSome := by decide +kernel
    obtain ⟨q, hq, hok⟩ := (Option.any_eq_true _ _).mp hok
    obtain ⟨b, hb⟩ := Option.isSome_iff_exists.mp hok
    exact ⟨q, b, Except.toOption_eq_some_iff.mp hq, Except.toOption_eq_some_iff.mp hb⟩

end Schema

end EntityStore
