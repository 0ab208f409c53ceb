import EntityStore.Proofs.Query.Typed

/-!
Queries that leave a property alone. A query that compiles without touching a property compiles to
the same against the schema that lacks it (`compileQuery_without`).
-/

set_option autoImplicit false

namespace EntityStore

open EntityStore.Language (Bound Comparator Expr Item Node)

/-- An entity and what is left of it if the property of a key is taken away. -/
structure Entity.Lacks (k : PropertyKey) (e e' : Entity) : Prop where
  name : e'.name = e.name
  get : ∀ name, (⟨e.name, name⟩ : PropertyKey) ≠ k → e'.get? name = e.get? name
  fields : e'.userFields = e.userFields.filter fun x ↦ (⟨e.name, x.1⟩ : PropertyKey) ≠ k

/-- A schema and what is left of it if the property of a key is taken away. -/
def Schema.Lacks (k : PropertyKey) (s s' : Schema) : Prop :=
  ∀ name, Option.Rel (Entity.Lacks k) (s.get? name) (s'.get? name)

namespace Query

namespace Noted

variable {α β : Type} {k j : PropertyKey}

/-- No error is noted, and not the access to a property. -/
def Quiet (k : PropertyKey) (x : Noted α) : Prop :=
  ∀ n ∈ x.notes, n ≠ .access k ∧ ∀ e, n ≠ .error e

@[simp] theorem quiet_pure (a : α) : Quiet k (pure a) :=
  List.forall_mem_nil _

@[simp] theorem quiet_bind {x : Noted α} {f : α → Noted β} :
    Quiet k (x >>= f) ↔ x.Quiet k ∧ (f x.result).Quiet k :=
  List.forall_mem_append

@[simp] theorem quiet_access : Quiet k (note (.access j)) ↔ j ≠ k := by
  simp [Quiet]

@[simp] theorem quiet_error {e : CompileError} : ¬Quiet k (note (.error e)) :=
  fun h ↦ (h _ (List.mem_singleton_self _)).2 e rfl

@[simp] theorem quiet_fail {e : CompileError} : ¬Quiet k (fail e : Noted (Option α)) :=
  fun h ↦ (h _ (List.mem_singleton_self _)).2 e rfl

theorem bind_eq {γ : Type} {x : Noted α} {x' : Noted γ} {f : α → Noted β} {f' : γ → Noted β}
    (hnotes : x'.notes = x.notes) (hf : f' x'.result = f x.result) : x' >>= f' = x >>= f := by
  change Noted.mk _ _ = Noted.mk _ _
  rw [hf, hnotes]

theorem bind_congr {x x' : Noted α} {f f' : α → Noted β} (hx : x' = x)
    (hf : f' x.result = f x.result) :
    x' >>= f' = x >>= f := by
  subst hx
  exact bind_eq rfl hf

end Noted

variable {k : PropertyKey} {s s' : Schema} {e e' : Entity}

theorem lastPlace_lacks (he : e.Lacks k e') {full : List String} {name : String}
    (hq : (lastPlace s full e name).Quiet k) :
    lastPlace s' full e' name = lastPlace s full e name := by
  by_cases hk : (⟨e.name, name⟩ : PropertyKey) = k
  · unfold lastPlace at hq
    split at hq
    · exact absurd hq Noted.quiet_fail
    · split at hq
      · exact absurd hk (Noted.quiet_access.mp (Noted.quiet_bind.mp hq).1)
      · exact absurd hq Noted.quiet_fail
      · exact absurd hq Noted.quiet_fail
  · unfold lastPlace at hq ⊢
    rw [he.get name hk, he.name]
    split
    · rfl
    · split
      · rfl
      · simp_all
      · rfl

theorem place_lacks (hs : s.Lacks k s') (he : e.Lacks k e') {full path : List String}
    (hq : (place s full e path).Quiet k) : place s' full e' path = place s full e path := by
  induction path generalizing e e' with
  | nil => rfl
  | cons name rest ih =>
    cases rest with
    | nil => exact lastPlace_lacks he hq
    | cons name' rest =>
      unfold place at hq ⊢
      by_cases hk : (⟨e.name, name⟩ : PropertyKey) = k
      · split at hq
        · exact absurd hq Noted.quiet_fail
        · split at hq
          · exact absurd hq Noted.quiet_fail
          · exact absurd hk (Noted.quiet_access.mp (Noted.quiet_bind.mp hq).1)
      · rw [he.get name hk, he.name]
        cases hget : e.get? name with
        | none => rfl
        | some p =>
          simp only [hget] at hq ⊢
          cases hrelation : p.relation? with
          | none =>
            simp only [hrelation] at hq
            exact absurd hq Noted.quiet_fail
          | some r =>
            obtain ⟨target, kind⟩ := r
            simp only [hrelation] at hq ⊢
            refine Noted.bind_congr rfl ?_
            obtain ⟨-, hq⟩ := Noted.quiet_bind.mp hq
            have hnext := hs target
            generalize s.get? target = next?, s'.get? target = next'? at hnext hq ⊢
            cases hnext with
            | none => rfl
            | some hnext =>
              obtain ⟨hq, -⟩ := Noted.quiet_bind.mp hq
              refine Noted.bind_congr (ih hnext hq) ?_
              rw [hnext.name]

theorem predicate_lacks (hs : s.Lacks k s') (he : e.Lacks k e') {path : List String}
    {c : Comparator} {n : Node Value} (hq : (predicate s e path c n).Quiet k) :
    predicate s' e' path c n = predicate s e path c n :=
  Noted.bind_congr (place_lacks hs he (Noted.quiet_bind.mp hq).1) rfl

theorem filter_lacks (hs : s.Lacks k s') (he : e.Lacks k e') {x : Expr Value}
    (hq : (filter s e x).Quiet k) :
    filter s' e' x = filter s e x := by
  induction x with
  | and l r ihl ihr | or l r ihl ihr =>
    obtain ⟨hl, hq⟩ := Noted.quiet_bind.mp hq
    exact Noted.bind_congr (ihl hl) (Noted.bind_congr (ihr (Noted.quiet_bind.mp hq).1) rfl)
  | predicate path c n =>
    exact Noted.bind_congr (predicate_lacks hs he (Noted.quiet_bind.mp hq).1) rfl

theorem bound_lacks (he : e.Lacks k e') (paged : Bool) (clause : PageClause) :
    bound e' paged clause = bound e paged clause := by
  funext b
  unfold bound
  rw [he.name]

theorem levelStart_lacks (hs : s.Lacks k s') (he : e.Lacks k e') {paged : Bool}
    {x : Option (Expr Value)} {limit page : Option (Bound Int64)}
    (hq : (levelStart s e paged x limit page).Quiet k) :
    levelStart s' e' paged x limit page = levelStart s e paged x limit page := by
  unfold levelStart at hq ⊢
  rw [he.name, bound_lacks he, bound_lacks he]
  refine Noted.bind_congr rfl (Noted.bind_congr ?_ rfl)
  obtain ⟨hq, -⟩ := Noted.quiet_bind.mp (Noted.quiet_bind.mp hq).2
  cases x with
  | none => rfl
  | some x => exact filter_lacks hs he hq

theorem selectAll_lacks (he : e.Lacks k e') {sel : Selection} (hq : (selectAll e sel).Quiet k) :
    selectAll e' sel = selectAll e sel := by
  have hadded : (e'.userFields.filter fun x ↦ !sel.hasField x.1) = e.userFields.filter fun x ↦
      !sel.hasField x.1 := by
    rw [he.fields, List.filter_filter]
    refine List.filter_congr fun x hx ↦ ?_
    cases hfield : sel.hasField x.1 with
    | true => rfl
    | false =>
      have hadded : x ∈ e.userFields.filter fun x ↦ !sel.hasField x.1 :=
        List.mem_filter.mpr ⟨hx, by rw [hfield]; rfl⟩
      have hne : (⟨e.name, x.1⟩ : PropertyKey) ≠ k := fun hk ↦
        (hq _ (List.mem_map.mpr ⟨x, hadded, rfl⟩)).1 (congrArg Note.access hk)
      simp [hne]
  unfold selectAll
  dsimp only
  rw [hadded, he.name]

theorem sorting_lacks (he : e.Lacks k e') (name : String) (ranks : List Int64)
    (sort : Option (Direction × Int64)) :
    sorting e' name ranks sort = sorting e name ranks sort := by
  unfold sorting
  rw [he.name]

theorem selectField_lacks (he : e.Lacks k e') {sel : Selection} {name : String}
    {sort : Option (Direction × Int64)} (hq : (selectField e sel name sort).Quiet k) :
    selectField e' sel name sort = selectField e sel name sort := by
  unfold selectField at hq ⊢
  by_cases hk : (⟨e.name, name⟩ : PropertyKey) = k
  · split at hq
    · exact absurd (Noted.quiet_bind.mp hq).1 Noted.quiet_error
    · split at hq
      · exact absurd (Noted.quiet_bind.mp hq).1 Noted.quiet_error
      · exact absurd hk (Noted.quiet_access.mp (Noted.quiet_bind.mp (Noted.quiet_bind.mp hq).2).1)
  · simp only [he.get name hk, he.name, sorting_lacks he]

/-- A relation leads to the same entity, but for the property. -/
theorem related_lacks (hs : s.Lacks k s') (he : e.Lacks k e') {name : String}
    (hq : (related s e name).Quiet k) :
    (related s' e' name).notes = (related s e name).notes ∧
      Option.Rel (fun x y ↦ y.1 = x.1 ∧ Entity.Lacks k x.2 y.2) (related s e name).result
        (related s' e' name).result := by
  unfold related at hq ⊢
  by_cases hk : (⟨e.name, name⟩ : PropertyKey) = k
  · split at hq
    · exact absurd hq Noted.quiet_fail
    · split at hq
      · exact absurd hq Noted.quiet_fail
      · split at hq
        · exact absurd hq Noted.quiet_fail
        · exact absurd hk (Noted.quiet_access.mp (Noted.quiet_bind.mp hq).1)
  · rw [he.get name hk, he.name]
    cases hget : e.get? name with
    | none => exact ⟨rfl, .none⟩
    | some p =>
      dsimp only
      cases hrelation : p.relation? with
      | none => exact ⟨rfl, .none⟩
      | some r =>
        obtain ⟨target, kind⟩ := r
        have hchild := hs target
        dsimp only
        generalize s.get? target = child?, s'.get? target = child'? at hchild ⊢
        cases hchild with
        | none => exact ⟨rfl, .none⟩
        | some hchild => exact ⟨rfl, .some ⟨rfl, hchild⟩⟩

mutual

theorem selectItem_lacks (hs : s.Lacks k s') {e e' : Entity} (he : e.Lacks k e') (sel : Selection)
    (i : Item Value Int64) (hq : (selectItem s e sel i).Quiet k) :
    selectItem s' e' sel i = selectItem s e sel i := by
  cases i with
  | all => exact selectAll_lacks he hq
  | field name sort => exact selectField_lacks he hq
  | relation name x limit page inner =>
    unfold selectItem at hq ⊢
    obtain ⟨hrelated, hq⟩ := Noted.quiet_bind.mp hq
    obtain ⟨hnotes, hresult⟩ := related_lacks hs he hrelated
    refine Noted.bind_eq hnotes ?_
    generalize (related s e name).result = found,
      (related s' e' name).result = found' at hresult hq ⊢
    cases hresult with
    | none => rfl
    | @some x' y' hfound =>
      obtain ⟨relation, child⟩ := x'
      obtain ⟨relation', child'⟩ := y'
      obtain ⟨rfl, hchild⟩ := hfound
      obtain ⟨hlevel, hq⟩ := Noted.quiet_bind.mp hq
      obtain ⟨hchosen, -⟩ := Noted.quiet_bind.mp hq
      exact Noted.bind_congr (levelStart_lacks hs hchild hlevel)
        (Noted.bind_congr (selectItems_lacks hs hchild .start inner hchosen) rfl)

theorem selectItems_lacks (hs : s.Lacks k s') {e e' : Entity} (he : e.Lacks k e') (sel : Selection)
    (is : List (Item Value Int64)) (hq : (selectItems s e sel is).Quiet k) :
    selectItems s' e' sel is = selectItems s e sel is := by
  cases is with
  | nil => rfl
  | cons i is =>
    unfold selectItems at hq ⊢
    obtain ⟨hitem, hrest⟩ := Noted.quiet_bind.mp hq
    exact Noted.bind_congr (selectItem_lacks hs he sel i hitem) (selectItems_lacks hs he _ is hrest)

end

theorem top_lacks (hs : s.Lacks k s') (he : e.Lacks k e') {body : Language.Level Value Int64}
    (hq : (top s e body).Quiet k) : top s' e' body = top s e body := by
  unfold top at hq ⊢
  obtain ⟨hlevel, hq⟩ := Noted.quiet_bind.mp hq
  obtain ⟨hchosen, -⟩ := Noted.quiet_bind.mp hq
  exact Noted.bind_congr (levelStart_lacks hs he hlevel)
    (Noted.bind_congr (selectItems_lacks hs he .start body.items hchosen) rfl)

namespace Findings

theorem accessed_add {f : Findings} {n : Note} :
    k ∈ (f.add n).accessed ↔ k ∈ f.accessed ∨ n = .access k := by
  cases n with
  | error e => simp [add]
  | access j => simp [add, Accessed.mem_insert, or_comm, eq_comm]
  | parameter p =>
    unfold add
    dsimp only
    split <;> simp

/-- The properties found are those whose access was noted. -/
theorem accessed_foldl {notes : List Note} {f : Findings} :
    k ∈ (notes.foldl add f).accessed ↔ k ∈ f.accessed ∨ .access k ∈ notes := by
  induction notes generalizing f with
  | nil => simp
  | cons n notes ih =>
    rw [List.foldl_cons, ih, accessed_add, List.mem_cons, or_assoc, eq_comm (a := n)]

/-- Notes are quiet if nothing is found against them. -/
theorem quiet {α : Type} {x : Noted α} (herrors : (ofNotes x.notes).errors = [])
    (hk : k ∉ (ofNotes x.notes).accessed) :
    x.Quiet k := by
  obtain ⟨hclean, -⟩ := foldl_add_eq (f := none) herrors
  exact fun n hn ↦ ⟨fun heq ↦ hk (accessed_foldl.mpr (.inr (heq ▸ hn))),
    fun e heq ↦ hclean e (heq ▸ hn)⟩

end Findings

/-- A query that does not touch a property compiles to the same without it. -/
theorem compileQuery_without (hs : s.Lacks k s')
    {form : Language.QueryForm Value Int64} {q : Compiled} (hq : s.compileQuery form = .ok q)
    (hk : k ∉ q.accessed) : s'.compileQuery form = .ok q := by
  obtain ⟨e, hget, herrors, rfl⟩ := compileQuery_ok_iff.mp hq
  have hentity := hs form.entity
  rw [hget] at hentity
  generalize hget' : s'.get? form.entity = e'? at hentity
  cases hentity with
  | @some _ e' he =>
    have htop := top_lacks hs he (Findings.quiet herrors hk)
    exact compileQuery_ok_iff.mpr ⟨e', hget', by rw [htop]; exact herrors, by rw [htop]⟩

end Query

end EntityStore
