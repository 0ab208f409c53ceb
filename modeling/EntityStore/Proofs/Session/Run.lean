import EntityStore.Session.Basic
import Mathlib.Data.List.Forall2

/-!
How actions on a session end: what is true of the session after an action and of its answer, if it
succeeds, and what is true if it fails. A property of the store that every statement keeps is kept
by every action (`Keeps`).
-/

set_option autoImplicit false

namespace EntityStore.Run

variable {α β γ : Type} {x : Run α} {f : α → Run β} {p p' : Session → Prop}
  {q q' : α → Session → Prop} {q₂ : β → Session → Prop} {r r' : Session → Prop}

/-- From a session as `p` says an action succeeds with an answer and a session as `q` says, or fails
with a session as `r` says. -/
def Ends (p : Session → Prop) (x : Run α) (q : α → Session → Prop) (r : Session → Prop) : Prop :=
  ∀ s, p s → match x.run s with
    | (.ok a, s') => q a s'
    | (.error _, s') => r s'

theorem run_bind (x : Run α) (f : α → Run β) (s : Session) :
    (x >>= f).run s = match x.run s with
      | (.ok a, s') => (f a).run s'
      | (.error e, s') => (.error e, s') := by
  change (ExceptT.bindCont f (x.run s).1 : StateM Session _) (x.run s).2 = _
  rcases x.run s with ⟨_ | _, _⟩ <;> rfl

theorem run_tryCatch (x : Run α) (f : Error → Run α) (s : Session) :
    (tryCatch x f).run s = match x.run s with
      | (.ok a, s') => (.ok a, s')
      | (.error e, s') => (f e).run s' := by
  simp only [tryCatch, tryCatchThe, MonadExceptOf.tryCatch, ExceptT.tryCatch,
    ExceptT.run, ExceptT.mk, bind, StateT.bind]
  rcases x s with ⟨_ | _, _⟩ <;> rfl

theorem Ends.pure {a : α} (h : ∀ s, p s → q a s) : Ends p (pure a) q r :=
  h

theorem Ends.throw {e : Error} (h : ∀ s, p s → r s) : Ends p (throw e : Run α) q r :=
  h

theorem Ends.bind (hx : Ends p x q r) (hf : ∀ a, Ends (q a) (f a) q₂ r) :
    Ends p (x >>= f) q₂ r := by
  intro s hs
  have hx := hx s hs
  rw [run_bind]
  rcases hrun : x.run s with ⟨_ | a, s'⟩ <;> rw [hrun] at hx
  · exact hx
  · exact hf a s' hx

theorem Ends.weaken (h : Ends p x q r) (hp : ∀ s, p' s → p s) (hq : ∀ a s, q a s → q' a s)
    (hr : ∀ s, r s → r' s) :
    Ends p' x q' r' := by
  intro s hs
  have hx := h s (hp s hs)
  rcases hrun : x.run s with ⟨_ | a, s'⟩ <;> rw [hrun] at hx
  · exact hr s' hx
  · exact hq a s' hx

theorem Ends.and_left {P : Prop} (h : P → Ends p x q r) : Ends (fun s ↦ p s ∧ P) x q r :=
  fun s hs ↦ h hs.2 s hs.1

theorem Ends.tryCatch {f : Error → Run α} (hx : Ends p x q r) (hf : ∀ e, Ends r (f e) q r') :
    Ends p (tryCatch x f) q r' := by
  intro s hs
  have hx := hx s hs
  rw [run_tryCatch]
  rcases hrun : x.run s with ⟨e | a, s'⟩ <;> rw [hrun] at hx
  · exact hf e s' hx
  · exact hx

theorem Ends.get {q : Session → Session → Prop} (h : ∀ s, p s → q s s) :
    Ends p (get : Run Session) q r :=
  h

theorem Ends.modify {g : Session → Session} {q : PUnit → Session → Prop}
    (h : ∀ s, p s → q ⟨⟩ (g s)) :
    Ends p (modify g : Run PUnit) q r :=
  h

/-- What every step of a loop keeps is true after the loop. -/
theorem Ends.forM {xs : List γ} {g : γ → Run PUnit} (h : ∀ c ∈ xs, Ends p (g c) (fun _ ↦ p) r) :
    Ends p (xs.forM g) (fun _ ↦ p) r := by
  induction xs with
  | nil => exact .pure fun _ hs ↦ hs
  | cons c xs ih =>
    exact .bind (h c List.mem_cons_self) fun _ ↦ ih fun d hd ↦ h d (List.mem_cons_of_mem _ hd)

theorem Ends.mapM {xs : List γ} {g : γ → Run α} {P : α → Prop}
    (h : ∀ c ∈ xs, Ends p (g c) (fun a s ↦ p s ∧ P a) r) :
    Ends p (xs.mapM g) (fun as s ↦ p s ∧ ∀ a ∈ as, P a) r := by
  induction xs with
  | nil => exact .pure fun _ hs ↦ ⟨hs, nofun⟩
  | cons c xs ih =>
    rw [List.mapM_cons]
    have hrest := ih fun d hd ↦ h d (List.mem_cons_of_mem _ hd)
    refine .bind (h c List.mem_cons_self) fun a ↦ .and_left fun ha ↦ .bind hrest
      fun as ↦ .and_left fun has ↦ ?_
    exact .pure fun s hs ↦ ⟨hs, List.forall_mem_cons.mpr ⟨ha, has⟩⟩

/-! ### The actions of a session -/

theorem run_define (d : Definition) (s : Session) :
    (define d).run s = match s.store.define d with
      | .ok store => (.ok (), { s with store := store, log := .defined d :: s.log })
      | .error e => (.error (storeError e), { s with log := .defined d :: s.log }) := by
  change ((orFail storeError (s.store.define d) >>= fun store ↦ _ : Run Unit).run _) = _
  cases s.store.define d <;> rfl

theorem run_statement (statement : Statement) (s : Session) :
    (Run.statement statement).run s = match s.store.run statement with
      | .ok effect =>
        (.ok effect, { s with store := effect.store, log := .executed statement :: s.log })
      | .error e => (.error (storeError e), { s with log := .executed statement :: s.log }) := by
  change ((orFail storeError (s.store.run statement) >>= fun effect ↦ _ : Run Effect).run _) = _
  cases s.store.run statement <;> rfl

theorem run_rowOf (row : RowRef) (what : RowUse) (s : Session) :
    (rowOf row what).run s = match s.slots.id? row with
      | some id => (.ok id, s)
      | none => (.error (.execution (.noRow what)), s) := by
  change ((match s.slots.id? row with
    | some id => pure id
    | none => throw (.execution (.noRow what)) : Run Int64).run s) = _
  cases s.slots.id? row <;> rfl

/-- An action that fails leaves the store as it was. -/
theorem run_atomically (x : Run α) (s : Session) :
    (atomically x).run s = match x.run s with
      | (.ok a, s') => (.ok a, s')
      | (.error e, s') => (.error e, { s' with store := s.store }) := by
  change ((tryCatch x fun e ↦ _ : Run α).run s) = _
  rw [run_tryCatch]
  rcases x.run s with ⟨_ | _, _⟩ <;> rfl

/-! ### Actions that succeed -/

theorem run_eq_ok {a : α} {s : Session} (h : (x.run s).1 = .ok a) :
    x.run s = (.ok a, (x.run s).2) :=
  Prod.ext h rfl

theorem run_bind_ok {b : β} {s s' : Session} :
    (x >>= f).run s = (.ok b, s') ↔ ∃ a t, x.run s = (.ok a, t) ∧ (f a).run t = (.ok b, s') := by
  rw [run_bind]
  constructor
  · rcases x.run s with ⟨e | a, t⟩
    · exact nofun
    · exact fun h ↦ ⟨a, t, rfl, h⟩
  · rintro ⟨a, t, hx, hf⟩
    rw [hx]
    exact hf

theorem run_pure_ok {a b : α} {s s' : Session} : (pure a : Run α).run s = (.ok b, s') ↔
    a = b ∧ s = s' := by
  constructor
  · rintro ⟨⟩
    exact ⟨rfl, rfl⟩
  · rintro ⟨rfl, rfl⟩
    rfl

theorem run_throw_ne_ok {e : Error} {a : α} {s s' : Session} :
    (throw e : Run α).run s ≠ (.ok a, s') :=
  nofun

theorem run_get_ok {a s s' : Session} (h : (get : Run Session).run s = (.ok a, s')) :
    a = s ∧ s' = s := by
  cases h
  exact ⟨rfl, rfl⟩

theorem run_modify_ok {g : Session → Session} {u : PUnit} {s s' : Session}
    (h : (modify g : Run PUnit).run s = (.ok u, s')) : s' = g s := by
  cases h
  rfl

theorem run_statement_ok {statement : Statement} {effect : Effect} {s s' : Session}
    (h : (Run.statement statement).run s = (.ok effect, s')) : s.store.run statement = .ok effect ∧
      s'.store = effect.store ∧ s'.slots = s.slots := by
  rw [run_statement] at h
  cases hrun : s.store.run statement with
  | error e =>
    rw [hrun] at h
    cases h
  | ok effect =>
    rw [hrun] at h
    cases h
    exact ⟨rfl, rfl, rfl⟩

theorem run_rowOf_ok {row : RowRef} {what : RowUse} {id : Int64} {s s' : Session}
    (h : (rowOf row what).run s = (.ok id, s')) : s.slots.id? row = some id ∧ s' = s := by
  rw [run_rowOf] at h
  cases hid : s.slots.id? row with
  | none =>
    rw [hid] at h
    cases h
  | some n =>
    rw [hid] at h
    cases h
    exact ⟨rfl, rfl⟩

theorem run_single_ok {change : RowChange} {affected : Nat} {s s' : Session}
    (h : (single change affected).run s = (.ok (), s')) : affected = 1 ∧ s' = s := by
  unfold single at h
  split at h
  · next hone => exact ⟨hone, (run_pure_ok.mp h).2.symm⟩
  · exact absurd h run_throw_ne_ok

/-- What every step of a loop carries on from those before it is true of all steps after the
loop. -/
theorem run_forM_ok {xs : List γ} {g : γ → Run PUnit} {P : List γ → Session → Prop} {s s' : Session}
    (hrun : (xs.forM g).run s = (.ok ⟨⟩, s')) (hs : P [] s)
    (hstep : ∀ before c after t t', xs = before ++ c :: after → P before t →
      (g c).run t = (.ok ⟨⟩, t') → P (before ++ [c]) t') : P xs s' := by
  suffices h : ∀ after before s, xs = before ++ after → P before s →
      (after.forM g).run s = (.ok ⟨⟩, s') → P xs s' from
    h xs [] s rfl hs hrun
  intro after
  induction after with
  | nil =>
    intro before s hxs hs hrun
    obtain ⟨-, rfl⟩ := run_pure_ok.mp hrun
    rwa [hxs, List.append_nil]
  | cons c after ih =>
    intro before s hxs hs hrun
    obtain ⟨⟨⟩, t, hfirst, hrest⟩ :=
      run_bind_ok.mp (show (g c >>= fun _ ↦ after.forM g).run s = _ from hrun)
    exact ih (before ++ [c]) t (by simpa using hxs) (hstep before c after s t hxs hs hfirst) hrest

theorem run_mapM_ok {xs : List γ} {g : γ → Run α} {as : List α} {s s' : Session} {R : γ → α → Prop}
    (hrun : (xs.mapM g).run s = (.ok as, s'))
    (hstep : ∀ c a t, c ∈ xs → (g c).run s = (.ok a, t) → t = s ∧ R c a) :
    s' = s ∧ List.Forall₂ R xs as := by
  induction xs generalizing as s' with
  | nil =>
    obtain ⟨rfl, rfl⟩ := run_pure_ok.mp hrun
    exact ⟨rfl, .nil⟩
  | cons c xs ih =>
    rw [List.mapM_cons] at hrun
    obtain ⟨a, t, hfirst, hothers⟩ := run_bind_ok.mp hrun
    obtain ⟨rfl, ha⟩ := hstep c a t List.mem_cons_self hfirst
    obtain ⟨rest, t', hrest, hlast⟩ := run_bind_ok.mp hothers
    obtain ⟨rfl, hall⟩ := ih hrest fun d a t hd ↦ hstep d a t (List.mem_cons_of_mem _ hd)
    obtain ⟨rfl, rfl⟩ := run_pure_ok.mp hlast
    exact ⟨rfl, .cons ha hall⟩

/-! ### What every action keeps -/

/-- An action keeps what is true of the store, and answers as `Q` says. -/
def Keeps (P : Store → Prop) (x : Run α) (Q : α → Prop) : Prop :=
  Ends (fun s ↦ P s.store) x (fun a s ↦ P s.store ∧ Q a) fun s ↦ P s.store

section

variable {P : Store → Prop} {Q : α → Prop} {R : β → Prop}

theorem Keeps.pure {a : α} (h : Q a) : Keeps P (pure a) Q :=
  Ends.pure fun _ hs ↦ ⟨hs, h⟩

theorem Keeps.throw (e : Error) : Keeps P (throw e : Run α) Q :=
  Ends.throw fun _ hs ↦ hs

theorem Keeps.bind (hx : Keeps P x Q) (hf : ∀ a, Q a → Keeps P (f a) R) : Keeps P (x >>= f) R :=
  Ends.bind hx fun a ↦ .and_left (hf a)

theorem Keeps.weaken {Q' : α → Prop} (h : Keeps P x Q) (hq : ∀ a, Q a → Q' a) : Keeps P x Q' :=
  Ends.weaken h (fun _ hs ↦ hs) (fun a _ hs ↦ ⟨hs.1, hq a hs.2⟩) fun _ hs ↦ hs

theorem Keeps.forM {xs : List γ} {g : γ → Run PUnit} (h : ∀ c ∈ xs, Keeps P (g c) fun _ ↦ True) :
    Keeps P (xs.forM g) fun _ ↦ True := by
  have hloop : Ends (fun s ↦ P s.store) (xs.forM g) (fun _ s ↦ P s.store) fun s ↦ P s.store :=
    .forM fun c hc ↦ Ends.weaken (h c hc) (fun _ hs ↦ hs) (fun _ _ hs ↦ hs.1) fun _ hs ↦ hs
  exact hloop.weaken (fun _ hs ↦ hs) (fun _ _ hs ↦ ⟨hs, trivial⟩) fun _ hs ↦ hs

theorem Keeps.mapM {xs : List γ} {g : γ → Run α} (h : ∀ c ∈ xs, Keeps P (g c) Q) :
    Keeps P (xs.mapM g) fun as ↦ ∀ a ∈ as, Q a :=
  Ends.mapM h

theorem Keeps.tryCatch {g : Error → Run α} (hx : Keeps P x Q) (hg : ∀ e, Keeps P (g e) Q) :
    Keeps P (tryCatch x g) Q :=
  Ends.tryCatch hx hg

theorem Keeps.get : Keeps P (get : Run Session) fun s ↦ P s.store :=
  Ends.get fun _ hs ↦ ⟨hs, hs⟩

theorem Keeps.modify {g : Session → Session} (h : ∀ s, (g s).store = s.store) :
    Keeps P (modify g : Run PUnit) fun _ ↦ True :=
  Ends.modify fun s hs ↦ ⟨(h s).symm ▸ hs, trivial⟩

theorem Keeps.log (e : Event) : Keeps P (log e) fun _ ↦ True :=
  .modify fun _ ↦ rfl

theorem Keeps.orFail {ε : Type} {g : ε → Error} {o : Except ε α} (h : ∀ a, o = .ok a → Q a) :
    Keeps P (orFail g o) Q := by
  cases o with
  | ok a => exact .pure (h a rfl)
  | error e => exact .throw _

theorem Keeps.single (change : RowChange) (affected : Nat) :
    Keeps P (single change affected) fun _ ↦ True := by
  unfold Run.single
  split
  · exact .pure trivial
  · exact .throw _

theorem Keeps.rowOf (row : RowRef) (what : RowUse) : Keeps P (rowOf row what) fun _ ↦ True := by
  intro s hs
  rw [run_rowOf]
  cases s.slots.id? row with
  | none => exact hs
  | some id => exact ⟨hs, trivial⟩

theorem Keeps.define {d : Definition}
    (h : ∀ store store', P store → store.define d = .ok store' → P store') :
    Keeps P (define d) fun _ ↦ True := by
  intro s hs
  rw [run_define]
  cases hdefine : s.store.define d with
  | error e => exact hs
  | ok store => exact ⟨h _ _ hs hdefine, trivial⟩

theorem Keeps.statement {statement : Statement}
    (h : ∀ store effect, P store → store.run statement = .ok effect → P effect.store) :
    Keeps P (Run.statement statement) fun _ ↦ True := by
  intro s hs
  rw [run_statement]
  cases hrun : s.store.run statement with
  | error e => exact hs
  | ok effect => exact ⟨h _ _ hs hrun, trivial⟩

/-- What is known of the effect of a statement besides. -/
theorem Keeps.effect {statement : Statement} {Q : Effect → Prop}
    (h : ∀ store effect, P store → store.run statement = .ok effect → P effect.store ∧ Q effect) :
    Keeps P (Run.statement statement) Q := by
  intro s hs
  rw [run_statement]
  cases hrun : s.store.run statement with
  | error e => exact hs
  | ok effect => exact h _ _ hs hrun

theorem Keeps.and {Q' : α → Prop} (h : Keeps P x Q) (h' : Keeps P x Q') :
    Keeps P x fun a ↦ Q a ∧ Q' a := by
  intro s hs
  have h := h s hs
  have h' := h' s hs
  rcases hrun : x.run s with ⟨_ | a, s'⟩ <;> rw [hrun] at h h'
  · exact h
  · exact ⟨h.1, h.2, h'.2⟩

theorem Keeps.atomically (hx : Keeps P x Q) : Keeps P (atomically x) Q := by
  intro s hs
  have hx := hx s hs
  rw [run_atomically]
  rcases hrun : x.run s with ⟨e | a, s'⟩ <;> rw [hrun] at hx
  · exact hs
  · exact hx

end

end EntityStore.Run
