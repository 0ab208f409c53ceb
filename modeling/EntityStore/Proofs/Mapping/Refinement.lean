import EntityStore.Proofs.Mapping.Bootstrap
import EntityStore.Proofs.Mapping.Condition

/-!
Stores that batches of compiled instructions lead to from a new store. What a batch does to such a
store is told by its content: the batch makes the steps of its instructions, or it changes nothing.
-/

set_option autoImplicit false

namespace EntityStore

open Mapping

/-- The stores that batches lead to from a new store, and the numbers that committed batches gave to
rows. -/
inductive Store.Arises (s : Schema) (enforced : Bool) : List (String × Int64) → Store → Prop where
  | new {t t' : Session} (hempty : t.store = .empty enforced)
      (hrun : (bootstrap s).run t = (.ok (), t')) :
      Arises s enforced [] t'.store
  | committed {given : List (String × Int64)} {batch : List Instruction} {t t' : Session}
      (h : Arises s enforced given t.store) (hbatch : ∀ i ∈ batch, s.Compiles i)
      (hrun : (execute s batch).run t = (.ok (), t')) :
      Arises s enforced (given ++ batch.flatMap (·.numbered t'.slots)) t'.store
  | failed {given : List (String × Int64)} {batch : List Instruction}
      {t t' : Session} {error : Error} (h : Arises s enforced given t.store)
      (hbatch : ∀ i ∈ batch, s.Compiles i) (hrun : (execute s batch).run t = (.error error, t')) :
      Arises s enforced given t'.store

/-- The content that steps of compiled instructions lead to from none. -/
inductive Content.Arises (s : Schema) : List (String × Int64) → Content → Prop where
  | empty : Arises s [] .empty
  | steps {given : List (String × Int64)} {batch : List Instruction} {c c' : Content}
      {slots slots' : Slots} (h : Arises s given c) (hbatch : ∀ i ∈ batch, s.Compiles i)
      (hsteps : c.Steps s given batch slots c' slots') :
      Arises s (given ++ batch.flatMap (·.numbered slots')) c'

variable {s : Schema} {enforced : Bool} {given : List (String × Int64)} {store : Store}
  {batch : List Instruction}

/-- What holds of new stores and is kept by statements holds of the stores that batches lead to. -/
theorem Store.Arises.kept {P : Store → Prop} (hkept : KeptByStatements P) (hs : s.WellFormed)
    (hnew : ∀ t t' : Session, t.store = .empty enforced →
      (bootstrap s).run t = (.ok (), t') → P t'.store)
    (h : store.Arises s enforced given) : P store := by
  induction h with
  | new hempty hrun => exact hnew _ _ hempty hrun
  | @committed given batch t t' _ hbatch hrun ih =>
    have hafter := hkept.execute hs (fun i hi ↦ ((hbatch i hi).shaped hs).plain) t ih
    rw [hrun] at hafter
    exact hafter.1
  | failed _ _ hrun ih =>
    rw [execute_error hrun]
    exact ih

/-- A new store shows no rows. -/
theorem Store.shows_bootstrap (hs : s.WellFormed) (hdistinct : s.Distinct) {t t' : Session}
    (hempty : t.store = .empty enforced) (hrun : (bootstrap s).run t = (.ok (), t')) :
    t'.store.Shows s .empty fun _ ↦ 0 := by
  have hkeyed : t'.store.Keyed := by
    have hkept :=
      keyed_keptByDefinitions.bootstrap hs t (show t.store.Keyed by rw [hempty]; exact nofun)
    rw [hrun] at hkept
    exact hkept.1
  exact (bootstrap_ok hdistinct (by rw [hempty]; rfl) hrun).shows hs hdistinct hkeyed

/-- What is known of a store that batches lead to. -/
theorem Store.Arises.shows (hs : s.WellFormed) (hdistinct : s.Distinct)
    (h : store.Arises s enforced given) :
    ∃ c top, c.Arises s given ∧ store.Shows s c top ∧ c.Given given top := by
  induction h with
  | new hempty hrun =>
    exact ⟨_, _, .empty, shows_bootstrap hs hdistinct hempty hrun, Content.given_empty⟩
  | committed _ hbatch hrun ih =>
    obtain ⟨c, top, harises, hshows, hgiven⟩ := ih
    obtain ⟨c', top', hsteps, hshows', hgiven'⟩ :=
      execute_ok hs (fun i hi ↦ (hbatch i hi).shaped hs) hshows hgiven hrun
    exact ⟨c', top', harises.steps hbatch hsteps, hshows', hgiven'⟩
  | failed _ _ hrun ih =>
    rw [execute_error hrun]
    exact ih

/-- No row is linked twice. -/
theorem Store.Shaped.links_nodup (hs : s.WellFormed) (h : store.Shaped s)
    (entity relation : String) (owner : Int64) :
    ((store.content s).links entity relation owner).Nodup := by
  by_cases hlinked : (s.get? entity).any (·.links relation)
  · obtain ⟨e, hget, hlinks⟩ := (Option.any_eq_true _ _).mp hlinked
    obtain ⟨he, rfl⟩ := (Schema.get?_eq_some_iff hs).mp hget
    obtain ⟨p, hp, rfl, hp'⟩ := (Entity.links_eq_true_iff (hs.entity e he)).mp hlinks
    obtain ⟨spec, t, hspec, -, ht, hshapes, hkeyed⟩ := h.linkTable? he hp hp'
    rw [content_links hs he hp hp' ht]
    exact hkeyed.targets_nodup hspec hshapes owner
  · rw [content_links_eq_nil hlinked]
    exact List.nodup_nil

namespace Mapping

/-- A batch of compiled instructions on a store that such batches lead to makes their steps on the
content of the store, which these steps lead to as well and where no row is linked twice; a batch
that fails changes nothing. -/
theorem execute_refines (hs : s.Reachable) (hdistinct : s.Distinct)
    (hstore : store.Arises s enforced given) (hbatch : ∀ i ∈ batch, s.Compiles i) (slots : Slots)
    (log : List Event) :
    (store.content s).Arises s given ∧ (∀ d r o, ((store.content s).links d r o).Nodup) ∧
      match (execute s batch).run ⟨store, slots, log⟩ with
      | (.ok (), t) => (store.content s).Steps s given batch slots (t.store.content s) t.slots
      | (.error _, t) => t.store = store := by
  have hwf := hs.wellFormed
  obtain ⟨c, top, harises, hshows, hgiven⟩ := hstore.shows hwf hdistinct
  rw [hshows.content]
  refine ⟨harises, fun d r o ↦ hshows.content ▸ hshows.shaped.links_nodup hwf d r o, ?_⟩
  rcases hrun : (execute s batch).run ⟨store, slots, log⟩ with ⟨_ | ⟨⟨⟩⟩, t⟩
  · exact execute_error hrun
  · obtain ⟨c', top', hsteps, hshows', -⟩ :=
      execute_ok hwf (fun i hi ↦ (hbatch i hi).shaped hwf) (t :=
        ⟨store, slots, log⟩) hshows hgiven hrun
    dsimp only
    rwa [hshows'.content]

/-- A person with a note. -/
def annForm : Language.CreateForm Value :=
  ⟨"Person",
    [("name", .literal (.text "Ann")),
      ("notes", .list [.object [("text", .literal (.text "tea"))]])]⟩

/-- The first person becomes her own friend. -/
def annFriendForm : Language.UpdateForm Value Int64 :=
  ⟨"Person", .id 1, [("friend", .link .add (.literal (.long 1)))]⟩

theorem execute_refines_of_friends : ∃ t c i t',
    (bootstrap (Schema.empty.after friendsCalls)).run (.start true) = (.ok (), t) ∧
      (Schema.empty.after friendsCalls).compileCreate annForm [] .empty = .ok c ∧
      (Schema.empty.after friendsCalls).compileUpdate annFriendForm [] = .ok i ∧
      (execute (Schema.empty.after friendsCalls) (c.instructions ++ [i])).run ⟨t.store, c.slots,
        t.log⟩ = (.ok (), t') ∧
      (t.store.content (Schema.empty.after friendsCalls)).Steps (Schema.empty.after friendsCalls) []
        (c.instructions ++ [i]) c.slots
          (t'.store.content (Schema.empty.after friendsCalls)) t'.slots ∧
      (t'.store.content (Schema.empty.after friendsCalls)).links "Person" "friend" 1 = [1] := by
  have hboot : ((bootstrap (Schema.empty.after friendsCalls)).run (.start true)).1.isOk := by
    decide +kernel
  have hok :
      (((Schema.empty.after friendsCalls).compileCreate annForm [] .empty).toOption.any fun c ↦
      ((Schema.empty.after friendsCalls).compileUpdate annFriendForm []).toOption.any fun i ↦
        have t := ((bootstrap (Schema.empty.after friendsCalls)).run (.start true)).2
        have r := (execute (Schema.empty.after friendsCalls) (c.instructions ++ [i])).run
          ⟨t.store, c.slots, t.log⟩
        r.1.isOk &&
            (r.2.store.content (Schema.empty.after friendsCalls)).links "Person"
              "friend" 1 == [1]) := by
    decide +kernel
  obtain ⟨c, hc, hok⟩ := (Option.any_eq_true _ _).mp hok
  obtain ⟨i, hi, hok⟩ := (Option.any_eq_true _ _).mp hok
  obtain ⟨hrun, hlinks⟩ := Bool.and_eq_true_iff.mp hok
  obtain ⟨⟨⟩, hboot⟩ := Except.isOk_iff.mp hboot
  obtain ⟨⟨⟩, hrun⟩ := Except.isOk_iff.mp hrun
  have hc := Except.toOption_eq_some_iff.mp hc
  have hi := Except.toOption_eq_some_iff.mp hi
  have hbatch : ∀ j ∈ c.instructions ++ [i], (Schema.empty.after friendsCalls).Compiles j := by
    intro j hj
    rcases List.mem_append.mp hj with hj | hj
    · exact .create hc hj
    · rw [List.mem_singleton.mp hj]
      exact .update hi
  have hnew : Store.Arises (Schema.empty.after friendsCalls) true [] _ :=
    .new rfl (Run.run_eq_ok hboot)
  obtain ⟨-, -, hsteps⟩ :=
    execute_refines ⟨friendsCalls, rfl⟩ (by decide +kernel) hnew hbatch c.slots
    ((bootstrap (Schema.empty.after friendsCalls)).run (.start true)).2.log
  rw [Run.run_eq_ok hrun] at hsteps
  exact ⟨_, c, i, _, Run.run_eq_ok hboot, hc, hi, Run.run_eq_ok hrun, hsteps, eq_of_beq hlinks⟩

end Mapping

end EntityStore
