import EntityStore.Proofs.Mapping.Answer
import EntityStore.Proofs.Mapping.Decoding
import EntityStore.Proofs.Session.Database

/-!
Queries on a store whose rows can be read answer. Reading a row that a level finds succeeds, and so
does all that reading a query does, unless a table hides the function that lists scopes
(`read_failsOnly_unlisted`); so after batches that give lists and maps only what these can hold no
query fails for a cell, and neither does the request for a row (`Store.ArisesBy.answers`).
-/

set_option autoImplicit false

namespace EntityStore

open Query (HasField Leads Tree)

namespace Mapping

variable {store : Store} {bindings : Query.Bindings} {s : Schema} {e : Entity} {t root : Tree}
  {scope : Option Scope} {notes : List Query.Note}

/-! ### Rows -/

theorem entryOf_ok (hdecodes : store.Decodes s) (he : e ∈ s.entities) {a : Record}
    (ha : a ∈ store.records e.name) {f : Query.SelectedField} (hf : HasField e f.name f.type) :
    ∃ x, entryOf a f = .ok x := by
  obtain ⟨p, hp, g, hname, hkind, htype⟩ := hf
  obtain ⟨v, hv⟩ := hdecodes e he a ha p hp g hkind
  rw [hname, htype] at hv
  exact ⟨_, Except.bind_eq_ok.mpr ⟨v, hv, rfl⟩⟩

/-- What a query asks for of a row can be read. -/
theorem rowOf_ok (h : store.Models s) (hdecodes : store.Decodes s) (ht : t.Everywhere s notes)
    (below : String → Query.Relation → Tree → Record → List Row) :
    ∀ a ∈ store.records t.level.entity, ∃ row, rowOf store bindings below t a = .ok row := by
  induction t using Tree.induction with
  | node level relations ih =>
    obtain ⟨e, he, hsound⟩ := ht _ (Tree.mem_nodes_self _)
    have hentity : level.entity = e.name := hsound.entity
    have hbelow : ∀ r t, (r, t) ∈ relations → Leads s e r t.level.entity ∧
        ∀ a ∈ store.records t.level.entity, ∃ row, rowOf store bindings below t a = .ok row :=
      fun r t hmem ↦ ⟨hsound.relation r t hmem, ih r t hmem fun u hu ↦
        ht u (Tree.mem_nodes.mpr (.inr ⟨r, t, hmem, hu⟩))⟩
    intro a ha
    change a ∈ store.records level.entity at ha
    rw [hentity] at ha
    obtain ⟨own, hown⟩ : ∃ own, (Plan.ownFields level).mapM (entryOf a) = .ok own :=
      Except.exists_mapM_ok.mpr fun f hf ↦ entryOf_ok hdecodes he ha
        (hsound.field f (List.mem_filter.mp hf).1)
    obtain ⟨related, hrelated⟩ : ∃ related, relatedOf store bindings below e.name relations
        a = .ok related := by
      clear ih hsound ht
      induction relations with
      | nil => exact ⟨[], rfl⟩
      | cons x rest ihrest =>
        obtain ⟨r, t⟩ := x
        obtain ⟨others, hothers⟩ :=
          ihrest fun r' t' hmem ↦ hbelow r' t' (List.mem_cons_of_mem _ hmem)
        obtain ⟨hleads, hrows⟩ := hbelow r t List.mem_cons_self
        by_cases hmany : r.many
        · exact ⟨_, relatedOf_cons_ok.mpr ⟨others, hothers, .many hmany⟩⟩
        · cases hpartner : partner store bindings e.name r t.level a with
          | none => exact ⟨_, relatedOf_cons_ok.mpr ⟨others, hothers, .none hmany hpartner⟩⟩
          | some c =>
            obtain ⟨hc, -⟩ := (partner_eq_some_iff h he hleads hmany ha).mp hpartner
            obtain ⟨row, hrow⟩ := hrows c hc
            exact ⟨_, relatedOf_cons_ok.mpr ⟨others, hothers, .one hmany hpartner hrow⟩⟩
    unfold rowOf
    rw [hentity]
    exact ⟨_, Except.bind_eq_ok.mpr ⟨own, hown, Except.bind_eq_ok.mpr ⟨related, hrelated, rfl⟩⟩⟩

/-- The rows of a level can be read, whatever page of them is asked for. -/
theorem levelRows_ok (h : store.Models s) (hs : s.WellFormed) (hdecodes : store.Decodes s)
    (ht : t.Everywhere s notes) (scope : Option Scope) (page : Option PageBounds) :
    ∃ rows, levelRows store bindings t scope page = .ok rows := by
  obtain ⟨e, he, hsound⟩ := ht t t.mem_nodes_self
  have hrecords : ∀ f ∈ shown store bindings t scope page, ∃ row, record t
      (f.cells scope) = .ok row := by
    intro f hf
    have hmem : f ∈ (found store bindings t scope).mergeSort fun a b ↦ a.order b != .gt :=
      List.mem_mergeSort.mpr (mem_shown hf)
    rw [found_sorted h hs ht] at hmem
    obtain ⟨g, hg, rfl⟩ := List.mem_map.mp hmem
    have hrecord := ((mem_hits h he hsound.entity g).mp hg).record
    rw [record_found h hs ht hrecord]
    obtain ⟨row, hrow⟩ := rowOf_ok h hdecodes ht unread g.record hrecord
    exact ⟨_, congrArg (Except.map _) hrow⟩
  obtain ⟨rows, hrows⟩ := Except.exists_mapM_ok.mpr hrecords
  exact ⟨_, Except.bind_eq_ok.mpr ⟨rows, hrows, rfl⟩⟩

/-! ### Levels -/

/-- The faults of a store in which a table hides the function that lists scopes. -/
def Unlisted (store : Store) (e : Error) : Prop :=
  ¬store.ListsScopes ∧ ∃ fault, e = .persistence (.store fault)

section

variable (h : store.Models s) (hs : s.WellFormed) (hdecodes : store.Decodes s)
  (hroot : root.Everywhere s notes) (hbound : ∀ u ∈ root.nodes, u.Bound bindings)

include h hs hdecodes hroot hbound

/-- Where all rows can be read, a level fails only within a scope that cannot be listed. -/
theorem runLevel_failsOnly_unlisted (ht : t ∈ root.nodes) (hscope : ScopedIn root t scope) :
    (runLevel store bindings t scope).FailsOnly fun e ↦ scope.isSome ∧ Unlisted store e := by
  intro p e hfails
  have hbelow : ∀ u ∈ t.nodes, u ∈ root.nodes := fun u hu ↦ Tree.mem_nodes_trans ht hu
  have htbound : ∀ u ∈ t.nodes, u.Bound bindings := fun u hu ↦ hbound u (hbelow u hu)
  obtain ⟨page, hpage⟩ := pageBounds_ok (htbound t t.mem_nodes_self)
  obtain ⟨rows, hrows⟩ := levelRows_ok h hs hdecodes (fun u hu ↦ hroot u (hbelow u hu)) scope page
  rcases runLevel_run store scope htbound hpage p with
    ⟨-, hrun⟩ | ⟨hnot, fault, hrun⟩ <;> rw [hrun] at hfails
  · rw [hrows] at hfails
    cases hfails
  · cases hfails
    have hhidden : ¬(scope.isSome → store.ListsScopes) := fun hlists ↦
      hnot (levelServed h.serves hs hroot ht hscope hlists bindings)
    obtain ⟨hsome, hhidden⟩ := Classical.not_imp.mp hhidden
    exact ⟨hsome, hhidden, fault, rfl⟩

/-- Where all rows can be read, a query fails only if it asks for related rows and scopes cannot be
listed. -/
theorem read_failsOnly_unlisted {e : Error} (hfails : (read store bindings root).1 = .error e) :
    root.relations ≠ [] ∧ Unlisted store e := by
  have hself := root.mem_nodes_self
  have hrun : (runLevel store bindings root none).FailsOnly fun e ↦ root.relations ≠ [] ∧
      Unlisted store e := by
    intro p e hfails
    exact absurd (runLevel_failsOnly_unlisted h hs hdecodes hroot hbound hself
      (show ScopedIn root root none from trivial) p e hfails).1 Bool.false_ne_true
  have hfill (rows : List OwnedRow) :
      (fill store bindings root.level.entity [] root.relations rows).FailsOnly
      fun e ↦ root.relations ≠ [] ∧ Unlisted store e := by
    refine fill_closed (Reading.FailsOnly.closed _)
      (fun u hu r v hmem hmany ids p e hfails ↦ ?_) [] rows
    have hv := Tree.mem_nodes_trans hu (Tree.mem_nodes_relation hmem)
    have hscope : ScopedIn root v (some ⟨u.level.entity, r, ids⟩) := ⟨u, hu, hmem, hmany, rfl⟩
    refine ⟨fun hnil ↦ ?_,
      (runLevel_failsOnly_unlisted h hs hdecodes hroot hbound hv hscope p e hfails).2⟩
    rcases Tree.mem_nodes.mp hu with rfl | ⟨r', v', hmem', -⟩
    · exact absurd (hnil ▸ hmem) List.not_mem_nil
    · exact absurd (hnil ▸ hmem') List.not_mem_nil
  exact ((hrun.bind hfill).bind fun rows ↦ .pure _) ⟨0, []⟩ e hfails

end

/-- The query for a row is well made. -/
theorem ofRow_sound (hs : s.WellFormed) (he : e ∈ s.entities) (id : Int64) :
    (Query.ofRow e id).tree.Everywhere s [] ∧ ∀ u ∈ (Query.ofRow e id).tree.nodes, u.Bound [] := by
  have hnodes : (Query.ofRow e id).tree.nodes = [(Query.ofRow e id).tree] := rfl
  have hid : HasField e idName .long := ⟨_, (hs.entity e he).id_mem, _, rfl, rfl, rfl⟩
  rw [Tree.Everywhere, hnodes, List.forall_mem_singleton, List.forall_mem_singleton]
  refine ⟨⟨e, he, rfl, ?_, nofun, nofun, fun f hf ↦ ?_, nofun⟩, ?_, ⟨_, rfl⟩, ⟨_, rfl⟩⟩
  · rintro f ⟨⟩
    exact ⟨⟨e, he, .here e, hid⟩, nofun, nofun, nofun⟩
  · obtain ⟨x, hx, rfl⟩ := List.mem_map.mp hf
    obtain ⟨p, hp, hfield⟩ := List.mem_filterMap.mp hx
    obtain ⟨g, hg, rfl⟩ := Option.map_eq_some_iff.mp hfield
    exact ⟨p, hp, g, rfl, Property.field?_eq_some_iff.mp hg, rfl⟩
  · rintro f ⟨⟩
    exact ⟨trivial, nofun⟩

end Mapping

namespace Run

variable {s : Schema} {store : Store} {q : Query.Compiled} {t : Session}

/-- Where all rows can be read, a query that is well made fails for the store only if it asks for
related rows and scopes cannot be listed. -/
theorem run_answer_unlisted (h : store.Models s) (hs : s.WellFormed) (hdecodes : store.Decodes s)
    {notes : List Query.Note} (hroot : q.tree.Everywhere s notes)
    (hbound : ∀ slots args bindings, Query.bind q.parameters slots args = .ok bindings →
      ∀ u ∈ q.tree.nodes, u.Bound bindings)
    (hstore : t.store = store) {a : Authorizer}
    (ha : ∀ e, (a .query q.accessed).1 ≠ .error (.persistence e))
    {args : Args} {e : PersistenceError}
    (hfails : ((answer a q args).run t).1 = .error (.persistence e)) :
    q.tree.relations ≠ [] ∧ Mapping.Unlisted store (.persistence e) := by
  rw [run_answer] at hfails
  cases hallows : (a .query q.accessed).1 with
  | error error =>
    rw [hallows] at hfails
    cases hfails
    exact absurd hallows (ha e)
  | ok _ =>
    cases hbind : Query.bind q.parameters t.slots args with
    | error error =>
      rw [hallows, hbind] at hfails
      cases hfails
    | ok bindings =>
      rw [hallows, hbind] at hfails
      dsimp only at hfails
      rw [run_rows, hstore] at hfails
      exact Mapping.read_failsOnly_unlisted h hs hdecodes hroot (hbound _ _ _ hbind) hfails

end Run

namespace Store

variable {s : Schema} {enforced : Bool} {given : List (String × Int64)} {store : Store}

open Mapping (Unlisted bootstrap execute read)

/-- What batches have stored is read: where these give lists and maps only values that they can
hold, all fields of all rows can be read, and a query that compiles fails for the store only if a
table hides the function that lists scopes, never for a cell. The request for a row does not fail
for what is stored at all. -/
theorem ArisesBy.answers (hs : s.Reachable) (hdistinct : s.Distinct)
    (h : store.ArisesBy (·.Storable s) s enforced given) :
    store.Decodes s ∧
      (∀ form q slots args bindings, s.compileQuery form = .ok q →
        Query.bind q.parameters slots args = .ok bindings →
        ∀ e, (read store bindings q.tree).1 = .error e → Unlisted store e) ∧
      ∀ db : Database, db.schema = s → db.session.store = store →
        (∀ kind accessed e, (db.authorizer kind accessed).1 ≠ .error (.persistence e)) →
        (∀ form q args e, s.compileQuery form = .ok q →
          (db.answer q args).1 = .error (.persistence e) → Unlisted store (.persistence e)) ∧
          ∀ entity id e, (db.row entity id).1 ≠ .error (.persistence e) := by
  have hwell := hs.wellFormed
  have hmodels := h.arises.models hwell hdistinct
  have hdecodes := h.decodes hwell hdistinct
  refine ⟨hdecodes, fun form q slots args bindings hq hb e hfails ↦ ?_,
      fun db hschema hstore hallows ↦
    ⟨fun form q args e hq hfails ↦ ?_, fun entity id e ↦ ?_⟩⟩
  · obtain ⟨-, notes, hroot, -⟩ := Query.compileQuery_sound hwell hq
    exact (Mapping.read_failsOnly_unlisted hmodels hwell hdecodes hroot
      (Query.compileQuery_bound hwell hq hb) hfails).2
  · obtain ⟨-, notes, hroot, -⟩ := Query.compileQuery_sound hwell hq
    exact (Run.run_answer_unlisted hmodels hwell hdecodes hroot
      (fun _ _ _ hb ↦ Query.compileQuery_bound hwell hq hb) hstore (hallows _ _) hfails).2
  · change ((Run.orFail .schema (db.schema.find entity) >>= fun e ↦
      Run.answer db.authorizer (Query.ofRow e id) [] >>=
        fun rows ↦ pure rows.head?).run db.session).1 ≠ _
    rw [hschema, Run.run_bind]
    unfold Schema.find
    cases hfind : s.get? entity with
    | none => exact nofun
    | some found =>
      obtain ⟨hroot, hbound⟩ :=
        Mapping.ofRow_sound hwell ((Schema.get?_eq_some_iff hwell).mp hfind).1 id
      have hread : ((Run.answer db.authorizer (Query.ofRow found id) []).run db.session).1 ≠
          .error (.persistence e) := fun hfails ↦
        (Run.run_answer_unlisted hmodels hwell hdecodes hroot
          (fun slots args bindings hb ↦ by cases hb; exact hbound)
          hstore (hallows _ _) hfails).1 rfl
      change ((Run.answer db.authorizer (Query.ofRow found id) [] >>=
          fun rows ↦ pure rows.head?).run
        db.session).1 ≠ _
      rw [Run.run_bind]
      cases hrun : (Run.answer db.authorizer (Query.ofRow found id) []).run db.session with
      | mk outcome t =>
        rw [hrun] at hread
        cases outcome with
        | ok rows => exact nofun
        | error error => exact fun heq ↦ hread (by cases heq; rfl)

/-- Games with the scores of their rounds. -/
def gamesCalls : List Schema.Call :=
  [.addEntity "Game" .master, .addProperty "Game" (.field "scores" (.ofType .list)), .commit]

def gamesForm : Language.QueryForm Value Int64 :=
  ⟨"Game", none, none, none, [.field "scores" none]⟩

theorem answers_of_games : ∃ t form c u q bindings rows,
    (bootstrap (Schema.empty.after gamesCalls)).run (.start true) = (.ok (), t) ∧
      Language.readCreate "Game \x7b scores: [1.5, [2.0e300, \"two\"]] \x7d" = .ok form ∧
      (Schema.empty.after gamesCalls).compileCreate form [] .empty = .ok c ∧
      (execute (Schema.empty.after gamesCalls) c.instructions).run ⟨t.store, c.slots,
        t.log⟩ = (.ok (), u) ∧
      u.store.Decodes (Schema.empty.after gamesCalls) ∧
      (Schema.empty.after gamesCalls).compileQuery gamesForm = .ok q ∧
      Query.bind q.parameters u.slots [] = .ok bindings ∧
      (read u.store bindings q.tree).1 = .ok rows := by
  have hs : (Schema.empty.after gamesCalls).Reachable := ⟨gamesCalls, rfl⟩
  have hdistinct : (Schema.empty.after gamesCalls).Distinct := by decide +kernel
  have hboot : ((bootstrap (Schema.empty.after gamesCalls)).run (.start true)).1.isOk := by
    decide +kernel
  have hok :
      ((Language.readCreate
        "Game \x7b scores: [1.5, [2.0e300, \"two\"]] \x7d").toOption.any fun form ↦
      ((Schema.empty.after gamesCalls).compileCreate form [] .empty).toOption.any fun c ↦
        have t := ((bootstrap (Schema.empty.after gamesCalls)).run (.start true)).2
        have r :=
          (execute (Schema.empty.after gamesCalls) c.instructions).run ⟨t.store, c.slots, t.log⟩
        r.1.isOk && (decide (∀ i ∈ c.instructions, i.Storable (Schema.empty.after gamesCalls)) &&
          (decide r.2.store.ListsScopes &&
            ((Schema.empty.after gamesCalls).compileQuery gamesForm).toOption.any fun q ↦
            (Query.bind q.parameters r.2.slots []).isOk))) := by decide +kernel
  generalize Schema.empty.after gamesCalls = s at hs hdistinct hboot hok ⊢
  obtain ⟨form, hform, hok⟩ := (Option.any_eq_true _ _).mp hok
  obtain ⟨c, hc, hok⟩ := (Option.any_eq_true _ _).mp hok
  obtain ⟨hrun, hok⟩ := Bool.and_eq_true_iff.mp hok
  obtain ⟨hstorable, hok⟩ := Bool.and_eq_true_iff.mp hok
  obtain ⟨hlists, hok⟩ := Bool.and_eq_true_iff.mp hok
  have hlists := of_decide_eq_true hlists
  obtain ⟨q, hq, hbind⟩ := (Option.any_eq_true _ _).mp hok
  obtain ⟨⟨⟩, hboot⟩ := Except.isOk_iff.mp hboot
  obtain ⟨⟨⟩, hrun⟩ := Except.isOk_iff.mp hrun
  obtain ⟨bindings, hbind⟩ := Except.isOk_iff.mp hbind
  have hc := Except.toOption_eq_some_iff.mp hc
  have hq := Except.toOption_eq_some_iff.mp hq
  have hnew : Store.ArisesBy (·.Storable s) s true [] _ := .new rfl (Run.run_eq_ok hboot)
  have harises :=
    hnew.committed (t := ⟨_, c.slots, _⟩) (fun i hi ↦ .create hc hi) (of_decide_eq_true hstorable)
    (Run.run_eq_ok hrun)
  obtain ⟨hdecodes, hanswers, -⟩ := harises.answers hs hdistinct
  obtain ⟨rows, hrows⟩ := Except.exists_eq_ok fun e hfails ↦
    (hanswers gamesForm q _ [] bindings hq hbind e hfails).1 hlists
  exact ⟨_, form, c, _, q, bindings, rows, Run.run_eq_ok hboot,
    Except.toOption_eq_some_iff.mp hform, hc, Run.run_eq_ok hrun, hdecodes, hq, hbind, hrows⟩

/-! ### Numbers that are too large -/

/-- A row that a committed batch leaves cannot be read: the number in its list is too large, and is
stored as null. -/
theorem scores_unreadable : ∃ t c u q e, (Schema.empty.after gamesCalls).Distinct ∧
    (bootstrap (Schema.empty.after gamesCalls)).run (.start true) = (.ok (), t) ∧
      (Transaction.start (Schema.empty.after gamesCalls) .empty).create
        "Game \x7b scores: [1.0e999] \x7d" [] = .ok c ∧
      (execute (Schema.empty.after gamesCalls) c.1.instructions).run ⟨t.store, c.1.slots,
        t.log⟩ = (.ok (), u) ∧
      (Schema.empty.after gamesCalls).query "Game \x7b * \x7d" = .ok q ∧
      (read u.store [] q.tree).1 = .error (.persistence (.column e)) := by
  have hdistinct : (Schema.empty.after gamesCalls).Distinct := by decide +kernel
  have hboot : ((bootstrap (Schema.empty.after gamesCalls)).run (.start true)).1.isOk := by
    decide +kernel
  have hok : (((Transaction.start (Schema.empty.after gamesCalls) .empty).create
      "Game \x7b scores: [1.0e999] \x7d" []).toOption.any fun c ↦
        have t := ((bootstrap (Schema.empty.after gamesCalls)).run (.start true)).2
        have r :=
          (execute (Schema.empty.after gamesCalls) c.1.instructions).run ⟨t.store, c.1.slots, t.log⟩
        r.1.isOk && ((Schema.empty.after gamesCalls).query "Game \x7b * \x7d").toOption.any fun q ↦
          match (read r.2.store [] q.tree).1 with
          | .error (.persistence (.column _)) => true
          | _ => false) := by decide +kernel
  generalize Schema.empty.after gamesCalls = s at hdistinct hboot hok ⊢
  obtain ⟨c, hc, hok⟩ := (Option.any_eq_true _ _).mp hok
  obtain ⟨hrun, hok⟩ := Bool.and_eq_true_iff.mp hok
  obtain ⟨q, hq, hok⟩ := (Option.any_eq_true _ _).mp hok
  obtain ⟨⟨⟩, hboot⟩ := Except.isOk_iff.mp hboot
  obtain ⟨⟨⟩, hrun⟩ := Except.isOk_iff.mp hrun
  split at hok
  · next e he =>
    exact ⟨_, c, _, q, e, hdistinct, Run.run_eq_ok hboot,
      Except.toOption_eq_some_iff.mp hc, Run.run_eq_ok hrun, Except.toOption_eq_some_iff.mp hq, he⟩
  · cases hok

end Store

end EntityStore
