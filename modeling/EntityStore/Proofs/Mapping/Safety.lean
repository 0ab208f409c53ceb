import EntityStore.Database.Basic
import EntityStore.Proofs.Mapping.Batch
import EntityStore.Proofs.Mapping.Named

/-!
Well typed queries do not go wrong. Reading fails with no error of its own, whatever store it reads,
and runs no statement that names what the schema does not declare.
-/

set_option autoImplicit false

namespace EntityStore

namespace Mapping

open Query (Tree)

/-! ### Safe actions -/

namespace Reading

variable {α β : Type} {P : Select → Prop} {x : Reading α} {f : α → Reading β}

/-- An action fails with no error of the executor's own and runs only statements with a property. -/
def Safe (P : Select → Prop) (x : Reading α) : Prop :=
  ∀ p, (∀ q ∈ p.statements, P q) →
    (∀ e, (x.run p).1 ≠ .error (.execution e)) ∧ ∀ q ∈ (x.run p).2.statements, P q

theorem Safe.pure (a : α) : Safe P (pure a) :=
  fun _ hp ↦ ⟨nofun, hp⟩

theorem Safe.throw {e : Error} (h : ∀ e', e ≠ .execution e') : Safe P (throw e : Reading α) := by
  intro p hp
  refine ⟨fun e' heq ↦ h e' ?_, hp⟩
  injection heq

theorem Safe.bind (hx : x.Safe P) (hf : ∀ a, (f a).Safe P) : Safe P (x >>= f) := by
  intro p hp
  obtain ⟨herror, hstatements⟩ := hx p hp
  rw [run_bind]
  rcases hrun : x.run p with ⟨e | a, q⟩ <;> rw [hrun] at herror hstatements
  · refine ⟨fun e' heq ↦ herror e' ?_, hstatements⟩
    injection heq with heq
    rw [heq]
  · exact hf a q hstatements

/-- What is done with a statement that was made. -/
theorem Safe.planned {y : Planning α} (hsucceeds : y.Succeeds)
    (h : ∀ n a m, y.run n = .ok (a, m) → (f a).Safe P) : Safe P (Mapping.planned y >>= f) := by
  intro p hp
  obtain ⟨a, m, hrun⟩ := hsucceeds p.names
  rw [run_bind, planned_run hrun]
  exact h p.names a m hrun { p with names := m } hp

theorem Safe.ran {q : Select} (hq : P q) :
    Safe P (modify fun s ↦ { s with statements := q :: s.statements } : Reading PUnit) :=
  fun _ hp ↦ ⟨nofun, List.forall_mem_cons.mpr ⟨hq, hp⟩⟩

end Reading

/-! ### Reading a tree -/

variable {s : Schema} {store : Store} {bindings : Query.Bindings} {root t : Tree}

theorem paged_safe {scope : Option Scope} {page : Option PageBounds} (rows : List OwnedRow) :
    Reading.Safe (Select.NamedBy s) (match scope, page with
      | some _, some b => pure (pagePerOwner b [] rows)
      | _, _ => pure rows) := by
  split <;> exact .pure _

theorem records_safe {scope : Option Scope} {page : Option PageBounds}
    (records : List (List Cell)) :
    Reading.Safe (Select.NamedBy s) (do
      let rows ← match records.mapM (record t) with
        | .ok rows => pure (rows.filterMap id)
        | .error e => throw (.persistence (.column e))
      match scope, page with
      | some _, some b => pure (pagePerOwner b [] rows)
      | _, _ => pure rows) := by
  cases records.mapM (record t) with
  | error e => exact .bind (.throw (by rintro _ ⟨⟩)) paged_safe
  | ok rows => exact .bind (.pure _) paged_safe

/-- Running the statement of a level of a well typed query. -/
theorem runLevel_safe (h : s.WellFormed) (hroot : TypedBelow s root) (ht : t ∈ root.nodes)
    (hbound : ∀ u ∈ t.nodes, u.Bound bindings) {scope : Option Scope}
    (hscope : ScopedIn root t scope) :
    (runLevel store bindings t scope).Safe (Select.NamedBy s) := by
  refine .planned (levelSelect_succeeds hbound scope) fun n x m hrun ↦ ?_
  obtain ⟨select, page⟩ := x
  refine .bind (.ran (levelSelect_named h hroot ht hscope hrun)) fun _ ↦ ?_
  cases select.run store with
  | error e => exact .bind (.throw (by rintro _ ⟨⟩)) records_safe
  | ok records => exact .bind (.pure _) records_safe

/-- Filling the rows of a level of a well typed query. -/
theorem fill_safe (h : s.WellFormed) (hroot : TypedBelow s root)
    (hbound : ∀ u ∈ root.nodes, u.Bound bindings) (ht : t ∈ root.nodes) (path : List String)
    (rows : List OwnedRow) :
    (fill store bindings t.level.entity path t.relations rows).Safe (Select.NamedBy s) := by
  refine fill_closed (P := Reading.Safe (Select.NamedBy s)) ⟨.pure, .bind⟩
    (fun u hu r v hmem hmany ids ↦ ?_) path rows
  have hu := Tree.mem_nodes_trans ht hu
  have hv := Tree.mem_nodes_trans hu (Tree.mem_nodes_relation hmem)
  exact runLevel_safe h hroot hv (fun w hw ↦ hbound w (Tree.mem_nodes_trans hv hw))
    ⟨_, hu, hmem, hmany, rfl⟩

theorem readTop_safe (h : s.WellFormed) (store : Store) (hroot : TypedBelow s root)
    (hbound : ∀ u ∈ root.nodes, u.Bound bindings) :
    (readTop store bindings root).Safe (Select.NamedBy s) := by
  have hself := root.mem_nodes_self
  have hrun : (runLevel store bindings root none).Safe (Select.NamedBy s) :=
    runLevel_safe h hroot hself hbound trivial
  exact (hrun.bind (fill_safe h hroot hbound hself [])).bind fun rows ↦ .pure _

/-! ### Queries -/

theorem query_typed (hs : s.WellFormed) {text : String} {q : Query.Compiled}
    (hq : s.query text = .ok q) :
    q.Typed s ∧ ∃ form, s.compileQuery form = .ok q := by
  obtain ⟨form, hread, hcompile⟩ := Except.bind_eq_ok.mp hq
  have hcompile := Except.mapError_eq_ok.mp hcompile
  have hpath := Language.readQuery_pathed (Except.mapError_eq_ok.mp hread)
  exact ⟨Query.compileQuery_typed hs hpath hcompile, form, hcompile⟩

/-- A query whose text compiles is well typed. Binding gives each of its parameters what it accepts;
then, in whatever store it is run, the executor misses no argument and no list, and its statements
name only tables and columns that the schema declares. -/
theorem query_safe {s : Schema} (hs : s.Reachable) {text : String} {q : Query.Compiled}
    (hq : s.query text = .ok q) :
    q.Typed s ∧ ∀ {slots : Slots} {args : Args} {bindings : Query.Bindings},
      Query.bind q.parameters slots args = .ok bindings →
        List.Forall₂ (fun p b ↦ b.1 = p.name ∧ p.Accepts b.2) q.parameters bindings ∧
        ∀ store, (∀ e, (read store bindings q.tree).1 ≠ .error (.execution e)) ∧
          ∀ select ∈ (read store bindings q.tree).2, select.NamedBy s := by
  obtain ⟨htyped, form, hcompile⟩ := query_typed hs.wellFormed hq
  refine ⟨htyped, fun hb ↦ ⟨Query.bind_accepts htyped hb, fun store ↦ ?_⟩⟩
  have hbound := Query.compileQuery_bound hs.wellFormed hcompile hb
  obtain ⟨herror, hnamed⟩ := readTop_safe hs.wellFormed store htyped.levels hbound ⟨0, []⟩
    (List.forall_mem_nil _)
  exact ⟨herror, fun select hselect ↦ hnamed select (List.mem_reverse.mp hselect)⟩

theorem query_safe_of_friends :
    ∃ q bindings, (Schema.empty.after friendsCalls).query
        "Person | friend.name == ?friend and notes.text in [\"tea\"] | limit ?most \x7b name \x7d" =
          .ok q ∧
      Query.bind q.parameters .empty [("friend", .value (.text "Bob")),
        ("most", .value (.int 5))] = .ok bindings ∧
      q.Typed (Schema.empty.after friendsCalls) ∧
      (∀ e, (read friendsStore bindings q.tree).1 ≠ .error (.execution e)) ∧
      ∀ select ∈ (read friendsStore bindings q.tree).2, select.NamedBy
        (Schema.empty.after friendsCalls) := by
  have hok : (match (Schema.empty.after friendsCalls).query
      "Person | friend.name == ?friend and notes.text in [\"tea\"] | limit ?most \x7b name \x7d"
      with
    | .ok q =>
      (Query.bind q.parameters .empty [("friend", .value (.text "Bob")),
        ("most", .value (.int 5))]).isOk
    | .error _ => false) = true := by decide +kernel
  split at hok
  · next q hq =>
    obtain ⟨bindings, hb⟩ := Except.isOk_iff.mp hok
    obtain ⟨htyped, hsafe⟩ := query_safe ⟨friendsCalls, rfl⟩ hq
    obtain ⟨-, hread⟩ := hsafe hb
    exact ⟨q, bindings, hq, hb, htyped, hread friendsStore⟩
  · cases hok

end Mapping

end EntityStore
