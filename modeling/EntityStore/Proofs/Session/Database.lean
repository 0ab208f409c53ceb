import EntityStore.Database.Basic
import EntityStore.Proofs.Session.Run

/-!
How the actions of a database run: what the authorizer refuses fails, a query that it allows reads
the store with the bindings of its arguments. A policy refuses what it denies, and nothing else.
-/

set_option autoImplicit false

namespace EntityStore

namespace Policy

variable {p : Policy} {kind : AccessKind} {accessed : Accessed} {key : PropertyKey} {e : Error}

theorem denied?_eq_none_iff : p.denied? kind accessed = none ↔
    ∀ k ∈ accessed, (kind, k) ∉ p.denied := by
  simp [denied?]

theorem mem_of_denied?_eq_some (h : p.denied? kind accessed = some key) :
    (kind, key) ∈ p.denied := by
  simpa using List.find?_some h

/-- A policy allows an access in which nothing is denied. -/
theorem authorizer_eq_ok : (p.authorizer kind accessed).1 = .ok () ↔
    ∀ k ∈ accessed, (kind, k) ∉ p.denied := by
  rw [← denied?_eq_none_iff, authorizer]
  cases p.denied? kind accessed <;> simp

/-- Else it tells a property that it denies. -/
theorem authorizer_eq_error (h : (p.authorizer kind accessed).1 = .error e) :
    ∃ key, (kind, key) ∈ p.denied ∧ e = .unauthorized kind key := by
  unfold authorizer at h
  split at h
  · next key hdenied => exact ⟨key, mem_of_denied?_eq_some hdenied, (Except.error.inj h).symm⟩
  · cases h

end Policy

namespace Run

theorem run_forM_log {α : Type} (f : α → Event) (xs : List α) (u : Session) :
    (xs.forM fun x ↦ log (f x)).run u =
      (.ok (), { u with log := (xs.map f).reverse ++ u.log }) := by
  induction xs generalizing u with
  | nil => rfl
  | cons x xs ih =>
    have hstep : ((x :: xs).forM fun x ↦ log (f x)).run u =
        (log (f x) >>= fun _ ↦ xs.forM fun x ↦ log (f x)).run u := rfl
    have hlog : (log (f x)).run u = (.ok (), { u with log := f x :: u.log }) := rfl
    rw [hstep, run_bind, hlog]
    dsimp only
    rw [ih]
    simp

/-! ### Authorizing -/

theorem run_authorize (a : Authorizer) (kind : AccessKind) (accessed : Accessed) (u : Session) :
    (authorize a kind accessed).run u =
      ((a kind accessed).1, { u with log := (a kind accessed).2.reverse ++ u.log }) := by
  unfold authorize
  generalize a kind accessed = answered
  obtain ⟨outcome, events⟩ := answered
  have hlog : (events.forM log).run u = (.ok (), { u with log := events.reverse ++ u.log }) :=
    (run_forM_log id events u).trans (by rw [List.map_id])
  dsimp only
  rw [run_bind, hlog]
  cases outcome <;> rfl

/-- Either all instructions of a batch are allowed, or the first that is not is refused. -/
theorem run_authorizeAll (a : Authorizer) (batch : List Instruction) (u : Session) : ∃ log,
    (∀ i ∈ batch, (a i.action.kind i.accessed).1 = .ok ()) ∧
        (batch.forM fun i ↦ authorize a i.action.kind i.accessed).run u =
          (.ok (), { u with log := log }) ∨
      ∃ i ∈ batch, ∃ e, (a i.action.kind i.accessed).1 = .error e ∧
        (batch.forM fun i ↦ authorize a i.action.kind i.accessed).run u =
          (.error e, { u with log := log }) := by
  induction batch generalizing u with
  | nil => exact ⟨u.log, .inl ⟨List.forall_mem_nil _, rfl⟩⟩
  | cons i batch ih =>
    have hrun : ((i :: batch).forM fun i ↦ authorize a i.action.kind i.accessed).run u =
        (authorize a i.action.kind i.accessed >>= fun _ ↦
          batch.forM fun i ↦ authorize a i.action.kind i.accessed).run u := rfl
    rw [hrun, run_bind, run_authorize]
    cases hallows : (a i.action.kind i.accessed).1 with
    | error e => exact ⟨_, .inr ⟨i, List.mem_cons_self, e, hallows, rfl⟩⟩
    | ok _ =>
      obtain ⟨log, h⟩ := ih { u with log := (a i.action.kind i.accessed).2.reverse ++ u.log }
      refine ⟨log, h.imp (And.imp_left fun hall ↦ List.forall_mem_cons.mpr ⟨hallows, hall⟩) ?_⟩
      rintro ⟨j, hj, e, h⟩
      exact ⟨j, List.mem_cons_of_mem _ hj, e, h⟩

/-- A batch is executed if all of it is allowed, and fails with what the authorizer says
otherwise. -/
theorem run_apply (s : Schema) (a : Authorizer) (batch : List Instruction) (u : Session) : ∃ log,
    (∀ i ∈ batch, (a i.action.kind i.accessed).1 = .ok ()) ∧
        (apply s a batch).run u = (Mapping.execute s batch).run { u with log := log } ∨
      ∃ i ∈ batch, ∃ e, (a i.action.kind i.accessed).1 = .error e ∧
        (apply s a batch).run u = (.error e, { u with log := log }) := by
  obtain ⟨log, h⟩ := run_authorizeAll a batch u
  unfold apply
  rw [run_bind]
  rcases h with ⟨hall, heq⟩ | ⟨i, hi, e, hrefused, heq⟩ <;> rw [heq]
  · exact ⟨log, .inl ⟨hall, rfl⟩⟩
  · exact ⟨log, .inr ⟨i, hi, e, hrefused, rfl⟩⟩

/-! ### Answers -/

theorem run_rows (bindings : Query.Bindings) (t : Query.Tree) (u : Session) :
    (rows bindings t).run u = ((Mapping.read u.store bindings t).1, { u with
      log := ((Mapping.read u.store bindings t).2.map Event.selected).reverse ++ u.log }) := by
  have hget : (get : Run Session).run u = (.ok u, u) := rfl
  unfold rows
  rw [run_bind, hget]
  dsimp only
  generalize Mapping.read u.store bindings t = answered
  obtain ⟨outcome, statements⟩ := answered
  dsimp only
  rw [run_bind, run_forM_log]
  cases outcome <;> rfl

theorem run_answer (a : Authorizer) (q : Query.Compiled) (args : Args) (u : Session) :
    (answer a q args).run u =
      have v : Session := { u with log := (a .query q.accessed).2.reverse ++ u.log }
      match (a .query q.accessed).1, Query.bind q.parameters u.slots args with
      | .error e, _ => (.error e, v)
      | .ok _, .error e => (.error (.execution e), v)
      | .ok _, .ok bindings => (rows bindings q.tree).run v := by
  unfold answer
  rw [run_bind, run_authorize]
  cases (a .query q.accessed).1 with
  | error e => rfl
  | ok _ =>
    dsimp only
    generalize (a .query q.accessed).2.reverse ++ u.log = log
    have hget : (get : Run Session).run { u with log := log } = (.ok { u with log := log },
      { u with log := log }) := rfl
    rw [run_bind, hget]
    dsimp only
    rw [run_bind]
    cases Query.bind q.parameters u.slots args <;> rfl

end Run

end EntityStore
