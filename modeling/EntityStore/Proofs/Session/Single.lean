import EntityStore.Proofs.Language.Queries
import EntityStore.Proofs.Mapping.Pages
import EntityStore.Proofs.Mapping.ReadBack
import EntityStore.Proofs.Query.Literal
import EntityStore.Proofs.Query.Wanted
import EntityStore.Proofs.Session.Database

/-!
The row of a number: what is looked up by an entity and a number is what the text of a query for
that number asks for, and it is answered as that query is (`Database.row_eq_answer`).
-/

set_option autoImplicit false

namespace EntityStore

open EntityStore.Language (Lexeme Laid Stands)

/-! ### The text of the query -/

/-- The text that asks for all fields of the row of a number. -/
def rowText (entity : String) (id : Int64) : String :=
  entity ++ " | @id == " ++ String.ofList (intDigits id.toInt) ++ " | \x7b * \x7d"

/-- The names of entities are names of the language. -/
theorem language_isName {name : String} (h : isName name) : Language.isName name := by
  unfold isName at h
  unfold Language.isName
  split at h
  · cases h
  · next c cs hcs =>
    rw [hcs]
    exact h

theorem readQuery_rowText {entity : String} (h : isName entity) (id : Int64) :
    Language.readQuery (rowText entity id) = .ok (Query.Wanted.form entity id []) := by
  have hname := language_isName h
  have hwritable : (Query.Wanted.form entity id []).isWritable :=
    Bool.and_eq_true_iff.mpr ⟨hname, rfl⟩
  obtain ⟨cs, hspelled⟩ := Language.isSpelled_name hname
  obtain rfl : cs = entity.toList := by
    generalize hlexeme : Lexeme.mark entity = l at hspelled
    cases hspelled with
    | literal h => cases hlexeme
    | plain h => exact (Lexeme.plain.inj hlexeme).symm
  have hlaid : Laid (Query.Wanted.form entity id []).lexemes
      (entity.toList ++ ' ' :: ("|".toList ++ ' ' :: ("@id".toList ++ ' ' :: ("==".toList ++ ' ' ::
        (intDigits id.toInt ++
          ' ' :: ("|".toList ++ ' ' :: ("\x7b".toList ++ ' ' :: ("*".toList ++ ' ' ::
          "\x7d".toList)))))))) :=
    .blank hspelled <| .blank (.plain rfl) <| .blank (.plain rfl) <| .blank (.plain rfl) <|
      .blank (.literal (.long id)) <| .blank (.plain rfl) <| .blank (.plain rfl) <|
        .blank (.plain rfl) <|
      .last (.plain rfl)
  refine Language.QueryForm.read hwritable ⟨[], _, .nil, hlaid, ?_⟩
  simp [rowText]

/-! ### What it compiles to -/

namespace Entity

variable {e : Entity}

/-- The row number is the first field. -/
theorem WellFormed.fields_eq (h : e.WellFormed) :
    e.fields = (idName, { Field.ofType .long with unique := true }) :: e.userFields := by
  obtain ⟨rest, hrest⟩ := List.head?_eq_some_iff.mp h.first
  have hfields : e.fields = (idName, { Field.ofType .long with unique := true }) ::
      rest.filterMap fun p ↦ p.field?.map (p.name, ·) := by
    rw [fields, hrest]
    rfl
  have hnodup := h.indexed.nodup
  rw [hrest, List.map_cons, List.nodup_cons] at hnodup
  have hothers : ∀ x ∈ rest.filterMap fun p ↦ p.field?.map (p.name, ·), (x.1 != idName) = true := by
    intro x hx
    obtain ⟨p, hp, hfield⟩ := List.mem_filterMap.mp hx
    obtain ⟨f, -, rfl⟩ := Option.map_eq_some_iff.mp hfield
    exact bne_iff_ne.mpr fun heq ↦ hnodup.1 (List.mem_map.mpr ⟨p, hp, heq⟩)
  rw [userFields, hfields, List.filter_cons_of_neg (by simp), List.filter_eq_self.mpr hothers]

end Entity

namespace Query

variable {s : Schema} {e : Entity}

/-- Of properties that are noted one after the other the names are collected. -/
theorem Findings.accessed_ofNotes (entity : String) (names : List String) :
    (ofNotes (names.map fun name ↦ .access ⟨entity, name⟩)).accessed = .ofNames entity names := by
  have hfoldl (f : Findings) :
      ((names.map fun name ↦ Note.access ⟨entity, name⟩).foldl add f).accessed =
      names.foldl (fun keys name ↦ .insert ⟨entity, name⟩ keys) f.accessed := by
    induction names generalizing f with
    | nil => rfl
    | cons name names ih => exact ih (f.add (.access ⟨entity, name⟩))
  exact hfoldl .none

/-- The query for the row of a number notes the row number twice, and then the declared fields. -/
theorem notes_form (h : s.WellFormed) (he : e ∈ s.entities) (id : Int64) :
    (top s e (Wanted.form e.name id []).body).notes =
      (idName :: idName :: e.userFields.map Prod.fst).map fun name ↦ .access ⟨e.name, name⟩ := by
  have hfilter : (filter s e (.predicate [idName] (.compare .eq) (.literal (.long id)))).notes =
      [.access ⟨e.name, idName⟩] := by
    unfold filter predicate place lastPlace
    rw [get?_id h he]
    rfl
  have hall : (selectAll e .start).notes = e.userFields.map fun f ↦ .access ⟨e.name, f.1⟩ := by
    unfold selectAll
    dsimp only
    rw [userFields_start]
  unfold top Wanted.form levelStart selectItems selectItem
  have hnone (sel : Selection) : (selectItems s e sel (Wanted.items [])).notes = [] := rfl
  simp [optionally, Noted.bind_notes, Noted.bind_result, hfilter, hall, hnone]

/-- The query for the row of a number compiles to what looks the row up. -/
theorem compileQuery_ofRow (h : s.WellFormed) (he : e ∈ s.entities) (id : Int64) :
    s.compileQuery (Wanted.form e.name id []) = .ok (ofRow e id) := by
  obtain ⟨q, hq, hparameters, htree⟩ := compileQuery_form h he .nil id
  have haccessed : q.accessed = .ofNames e.name
      (idName :: idName :: e.userFields.map Prod.fst) := by
    obtain ⟨d, hget, -, rfl⟩ := compileQuery_ok_iff.mp hq
    cases hget.symm.trans ((Schema.get?_eq_some_iff h).mpr ⟨he, rfl⟩)
    rw [notes_form h he, Findings.accessed_ofNotes]
  obtain ⟨tree, parameters, accessed⟩ := q
  obtain rfl : parameters = [] := hparameters
  obtain rfl : tree = _ := htree
  obtain rfl : accessed = _ := haccessed
  have htwice (k : PropertyKey) :
      Accessed.insert k (Accessed.insert k []) = Accessed.insert k [] := by
    simp [Accessed.insert]
  have haccessed : Accessed.ofNames e.name (idName :: idName :: e.userFields.map Prod.fst) =
      .ofNames e.name (idName :: e.userFields.map Prod.fst) :=
    congrArg (List.foldl _ · _) (htwice ⟨e.name, idName⟩)
  rw [hq, haccessed, ofRow, (h.entity e he).fields_eq]
  rfl

end Query

namespace Database

variable {db : Database} {e : Entity}

theorem run_row (hs : db.schema.Reachable) (he : e ∈ db.schema.entities) (id : Int64) :
    db.row e.name id = match db.answer (Query.ofRow e id) [] with
      | (.ok rows, after) => (.ok rows.head?, after)
      | (.error err, after) => (.error err, after) := by
  unfold row answer perform
  rw [(Schema.find_eq_ok_iff hs.wellFormed).mpr ⟨he, rfl⟩]
  have hrun := Run.run_bind (Run.answer db.authorizer (Query.ofRow e id) [])
    (fun rows ↦ pure rows.head?) db.session
  refine (congrArg (fun r ↦ (r.1, { db with session := r.2 })) hrun).trans ?_
  generalize (Run.answer db.authorizer (Query.ofRow e id) []).run db.session = answered
  obtain ⟨_ | _, after⟩ := answered <;> rfl

/-- In a store of the schema a number has one row at most. -/
theorem answer_ofRow (hs : db.schema.Reachable) (he : e ∈ db.schema.entities)
    (hstore : db.session.store.Models db.schema) {id : Int64} {rows : List Row}
    (h : (db.answer (Query.ofRow e id) []).1 = .ok rows) :
    rows = [] ∨ ∃ row, rows = [row] := by
  have hwf := hs.wellFormed
  have hread : (Mapping.read db.session.store [] (Query.ofRow e id).tree).1 = .ok rows := by
    change ((Run.answer db.authorizer (Query.ofRow e id) []).run db.session).1 = .ok rows at h
    rw [Run.run_answer] at h
    split at h
    · cases h
    · cases h
    · next bindings _ hbind =>
      obtain rfl : [] = bindings := Except.ok.inj hbind
      rwa [Run.run_rows] at h
  have hq := Query.compileQuery_ofRow hwf he id
  have hnames : ∀ u ∈ (Query.ofRow e id).tree.nodes, (u.relations.map fun x ↦ x.1.name).Nodup :=
    List.forall_mem_singleton.mpr List.nodup_nil
  have hfillable : Mapping.Fillable [] (Query.ofRow e id).tree :=
    Mapping.compileQuery_fillable hs hq hnames (show Query.bind _ db.session.slots [] = .ok [] from
      rfl)
  obtain ⟨-, notes, hroot, -⟩ := Query.compileQuery_sound hwf hq
  obtain ⟨children, hchildren, rfl⟩ := (Mapping.read_eq_ok hfillable.bound).mp hread
  have hrows :=
    Except.mapM_eq_ok.mp (Mapping.readLevel_rows hstore hwf he rfl hroot hfillable rfl hchildren)
  cases hhits : Mapping.hits db.session.store [] (Query.ofRow e id).tree none with
  | nil =>
    rw [hhits] at hrows
    cases hrows
    exact .inl rfl
  | cons f others =>
    have hin := (Mapping.mem_hits hstore he rfl f).mp (hhits ▸ List.mem_cons_self)
    obtain rfl := (Mapping.passes_ofId hstore he hin.record).mp hin.passes
    have hone : Mapping.hits db.session.store [] (Query.ofRow e f.record.row.id).tree none =
        [⟨f.record, none⟩] :=
      Mapping.hits_ofId hstore he hin.record
    rw [hone] at hrows
    cases hrows with
    | cons _ hrest =>
      cases hrest
      exact .inr ⟨_, rfl⟩

/-- Looking up a row is asking the text for it: that compiles to the tree and the properties which
looking up makes by hand, and the row looked up is the first that the query answers, or the error is
the same. In a store of the schema there is no other row. -/
theorem row_eq_answer (hs : db.schema.Reachable) (he : e ∈ db.schema.entities) (id : Int64) :
    ∃ q, db.schema.query (rowText e.name id) = .ok q ∧ q = Query.ofRow e id ∧
      (db.row e.name id = match db.answer q [] with
        | (.ok rows, after) => (.ok rows.head?, after)
        | (.error err, after) => (.error err, after)) ∧
      (db.session.store.Models db.schema → ∀ rows, (db.answer q []).1 = .ok rows → rows = [] ∨
        ∃ row, rows = [row]) :=
  ⟨_, (Schema.query_eq_ok (readQuery_rowText (hs.named e he) id)).mpr
    (Query.compileQuery_ofRow hs.wellFormed he id),
    rfl, run_row hs he id, fun hstore _ hrows ↦ answer_ofRow hs he hstore hrows⟩

/-- The first person of the friends, of whom the text asks as well. -/
theorem row_eq_answer_of_friends : ∃ (db : Database) (q : Query.Compiled) (row : Row),
    db.schema = Schema.empty.after Mapping.friendsCalls ∧
      db.schema.query "Person | @id == 1 | \x7b * \x7d" = .ok q ∧ (db.answer q []).1 = .ok [row] ∧
      (db.row "Person" 1).1 = .ok (some row) := by
  let db : Database :=
    ⟨Schema.empty.after Mapping.friendsCalls, .allowAll, ⟨Mapping.friendsStore, .empty, []⟩⟩
  have hs : db.schema.Reachable := ⟨Mapping.friendsCalls, rfl⟩
  have hstore : db.session.store.Models db.schema := by decide +kernel
  have hperson : (db.schema.get? "Person").isSome := by decide +kernel
  obtain ⟨e, he⟩ := Option.isSome_iff_exists.mp hperson
  obtain ⟨he, hname⟩ := (Schema.get?_eq_some_iff hs.wellFormed).mp he
  obtain ⟨q, hq, -, hrow, hone⟩ := row_eq_answer hs he 1
  have hq : db.schema.query "Person | @id == 1 | \x7b * \x7d" = .ok q := by
    rw [← hq, hname]
    rfl
  have hsome : (db.schema.query "Person | @id == 1 | \x7b * \x7d").toOption.any fun q ↦
      (db.answer q []).1.toOption.any fun rows ↦ rows.length == 1 := by decide +kernel
  rw [hq] at hsome
  obtain ⟨_, ⟨⟩, hsome⟩ := (Option.any_eq_true _ _).mp hsome
  obtain ⟨rows, hrows, hlength⟩ := (Option.any_eq_true _ _).mp hsome
  have hrows := Except.toOption_eq_some_iff.mp hrows
  obtain rfl | ⟨row, rfl⟩ := hone hstore rows hrows
  · cases hlength
  · refine ⟨db, q, row, rfl, hq, hrows, ?_⟩
    rw [← hname, hrow]
    generalize db.answer q [] = answered at hrows
    obtain ⟨outcome, after⟩ := answered
    obtain rfl : outcome = .ok [row] := hrows
    rfl

end Database

end EntityStore
