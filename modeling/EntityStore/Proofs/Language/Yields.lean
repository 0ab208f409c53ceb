import EntityStore.Language.Reader
import EntityStore.Proofs.Outcome

/-!
What holds of everything that a parser reads. No filter of a query that was read has an empty path.
-/

set_option autoImplicit false

namespace EntityStore.Language

/-! ### Parsers -/

namespace Parser

variable {α β : Type} {p : Parser α} {P : α → Prop} {Q : β → Prop}

/-- Whatever a parser reads has a property. -/
def Yields (p : Parser α) (P : α → Prop) : Prop :=
  ∀ m c a x c' a', p m c a = (some (x, c'), a') → P x

theorem yields_true (p : Parser α) : p.Yields fun _ ↦ True :=
  fun _ _ _ _ _ _ _ ↦ trivial

theorem yields_fail : (fail : Parser α).Yields P := by
  intro m c a x c' a' hrun
  cases hrun

theorem yields_pure {x : α} (h : P x) : (pure x : Parser α).Yields P := by
  intro m c a x' c' a' hrun
  cases hrun
  exact h

theorem Yields.bind {f : α → Parser β} (h : p.Yields P) (hf : ∀ x, P x → (f x).Yields Q) :
    (p >>= f).Yields Q := by
  intro m c a y c' a' hrun
  change p.andThen f m c a = (some (y, c'), a') at hrun
  unfold andThen at hrun
  split at hrun
  · next x c₁ a₁ hp => exact hf x (h m c a x c₁ a₁ hp) m c₁ a₁ y c' a' hrun
  · cases hrun

/-- What the rest of a sequence reads does not depend on the part before it. -/
theorem yields_bind {f : α → Parser β} (hf : ∀ x, (f x).Yields Q) : (p >>= f).Yields Q :=
  (yields_true p).bind fun x _ ↦ hf x

theorem Yields.map {f : α → β} (h : p.Yields P) (hf : ∀ x, P x → Q (f x)) : (f <$> p).Yields Q :=
  h.bind fun x hx ↦ yields_pure (hf x hx)

theorem Yields.orElse {q : Parser α} (hp : p.Yields P) (hq : q.Yields P) : (p <|> q).Yields P := by
  intro m c a x c' a' hrun
  change p.orElse (fun _ ↦ q) m c a = (some (x, c'), a') at hrun
  unfold Parser.orElse at hrun
  split at hrun
  · next r a₁ hp' =>
    cases hrun
    exact hp m c a x c' _ hp'
  · next a₁ _ => exact hq m c a₁ x c' a' hrun

theorem Yields.optional (h : p.Yields P) : p.optional.Yields fun x ↦ ∀ y ∈ x, P y := by
  refine (h.map (f := some) fun x hx ↦ ?_).orElse (yields_pure fun y hy ↦ ?_)
  · rintro y ⟨⟩
    exact hx
  · cases hy

theorem Yields.repeated (h : p.Yields P) (n : Nat) :
    (p.repeated n).Yields fun xs ↦ ∀ x ∈ xs, P x := by
  induction n with
  | zero => exact yields_pure (List.forall_mem_nil P)
  | succ n ih =>
    refine Yields.orElse (h.bind fun x hx ↦ ih.bind fun xs hxs ↦ yields_pure ?_)
      (yields_pure (List.forall_mem_nil P))
    exact List.forall_mem_cons.mpr ⟨hx, hxs⟩

theorem Yields.many (h : p.Yields P) : p.many.Yields fun xs ↦ ∀ x ∈ xs, P x :=
  fun m c a ↦ h.repeated (c.rest.length + 1) m c a

theorem Yields.star (h : p.Yields P) : p.star.Yields fun xs ↦ ∀ x ∈ xs, P x := by
  have hspaced : (do skip; p).Yields P := yields_bind fun _ ↦ h
  refine Yields.orElse (h.bind fun x hx ↦ hspaced.many.bind fun xs hxs ↦ yields_pure ?_)
    (yields_pure (List.forall_mem_nil P))
  exact List.forall_mem_cons.mpr ⟨hx, hxs⟩

theorem Yields.ruleIn {inner : Mode → Mode} {rule : Rule} (h : p.Yields P) :
    (p.ruleIn inner rule).Yields P := by
  intro m c a x c' a' hrun
  unfold Parser.ruleIn at hrun
  split at hrun
  · next r a₁ hp =>
    cases hrun
    exact h (inner m) c a x c' _ hp
  · cases hrun

theorem run_ok {text : List Char} {x : α} (h : p.Yields P) (hrun : p.run text = .ok x) : P x := by
  unfold run at hrun
  split at hrun
  · next y c a hp =>
    cases hrun
    exact h _ _ _ _ _ _ hp
  · cases hrun

end Parser

/-! ### Paths that are not empty -/

section Pathed

variable {α ι : Type}

/-- Every path in an expression has a name. -/
def Expr.Pathed : Expr α → Prop
  | .and l r | .or l r => l.Pathed ∧ r.Pathed
  | .predicate path _ _ => path ≠ []

mutual

/-- Every path in the filters of an item and below it has a name. -/
def Item.Pathed : Item α ι → Prop
  | .relation _ filter _ _ items => (∀ x ∈ filter, x.Pathed) ∧ Item.AllPathed items
  | _ => True

def Item.AllPathed : List (Item α ι) → Prop
  | [] => True
  | i :: is => i.Pathed ∧ Item.AllPathed is

end

structure Level.Pathed (l : Level α ι) : Prop where
  filter : ∀ x ∈ l.filter, x.Pathed
  items : Item.AllPathed l.items

theorem Item.allPathed_of_forall {is : List (Item α ι)} (h : ∀ i ∈ is, i.Pathed) :
    Item.AllPathed is := by
  induction is with
  | nil => trivial
  | cons i is ih =>
    obtain ⟨hi, his⟩ := List.forall_mem_cons.mp h
    exact ⟨hi, ih his⟩

theorem Expr.foldl_pathed {op : Expr α → Expr α → Expr α}
    (hop : ∀ l r : Expr α, l.Pathed → r.Pathed → (op l r).Pathed) {first : Expr α}
    {more : List (Expr α)} (hfirst : first.Pathed) (hmore : ∀ x ∈ more, x.Pathed) :
    (more.foldl op first).Pathed := by
  induction more generalizing first with
  | nil => exact hfirst
  | cons x more ih =>
    obtain ⟨hx, hmore⟩ := List.forall_mem_cons.mp hmore
    exact ih (hop first x hfirst hx) hmore

end Pathed

namespace Grammar

open EntityStore.Language.Parser

theorem enclosed_yields {α : Type} {opening closing : String} {item : Parser α} {P : α → Prop}
    (h : item.Yields P) : (enclosed opening closing item).Yields fun xs ↦ ∀ x ∈ xs, P x := by
  have hcomma : (do word ","; skip; item).Yields P := yields_bind fun _ ↦ yields_bind fun _ ↦ h
  have hitems : Parser.Yields (do
      let x ← item
      skip
      let xs ← star (do word ","; skip; item)
      pure (x :: xs)) fun xs ↦ ∀ x ∈ xs, P x :=
    h.bind fun x hx ↦ yields_bind fun _ ↦ hcomma.star.bind fun xs hxs ↦
      yields_pure (List.forall_mem_cons.mpr ⟨hx, hxs⟩)
  refine yields_bind fun _ ↦ yields_bind fun _ ↦ hitems.optional.bind fun items hitems ↦ ?_
  refine yields_bind fun _ ↦ yields_bind fun _ ↦ yields_bind fun _ ↦ yields_bind
    fun _ ↦ yields_pure ?_
  cases items with
  | none => exact nofun
  | some xs => exact hitems xs rfl

theorem path_yields : path.Yields fun names ↦ names ≠ [] := by
  refine Yields.ruleIn (yields_bind fun first ↦ yields_bind fun more ↦ yields_pure ?_)
  simp

theorem predicate_yields (depth : Nat) : (predicate depth).Yields Expr.Pathed :=
  Yields.ruleIn
      (path_yields.bind fun _ hpath ↦ yields_bind fun _ ↦ yields_bind fun _ ↦ yields_bind fun _ ↦
    yields_bind fun _ ↦ yields_pure hpath)

theorem andExpr_yields {term : Parser (Expr Token)} (h : term.Yields Expr.Pathed) :
    (andExpr term).Yields Expr.Pathed := by
  have hmore : (do andOp; skip; term).Yields Expr.Pathed :=
    yields_bind fun _ ↦ yields_bind fun _ ↦ h
  refine Yields.ruleIn (h.bind fun first hfirst ↦ yields_bind fun _ ↦ hmore.star.bind
    fun more hmore ↦ yields_pure ?_)
  exact Expr.foldl_pathed (fun _ _ ↦ And.intro) hfirst hmore

theorem expr_yields (depth : Nat) : (expr depth).Yields Expr.Pathed := by
  induction depth with
  | zero => exact yields_fail
  | succ depth ih =>
    have hnested : Parser.Yields
        (do word "("; skip; let e ← expr depth; skip; word ")"; pure e) Expr.Pathed :=
      yields_bind fun _ ↦ yields_bind fun _ ↦ ih.bind fun e he ↦
          yields_bind fun _ ↦ yields_bind fun _ ↦
        yields_pure he
    have hterm := andExpr_yields (hnested.orElse (predicate_yields depth))
    have hmore := (yields_bind (p := orOp) fun _ ↦ yields_bind (p := skip) fun _ ↦ hterm).star
    refine Yields.ruleIn
        (hterm.bind fun first hfirst ↦ yields_bind fun _ ↦ hmore.bind fun more hmore ↦
      yields_pure ?_)
    exact Expr.foldl_pathed (fun _ _ ↦ And.intro) hfirst hmore

theorem filter_yields (depth : Nat) : (filter depth).Yields Expr.Pathed :=
  Yields.ruleIn (yields_bind fun _ ↦ yields_bind fun _ ↦ (expr_yields depth).bind fun _ he ↦
    yields_bind fun _ ↦ yields_bind fun _ ↦ yields_pure he)

theorem level_yields {depth : Nat} {selection : Parser (List (Item Token Token))}
    (h : selection.Yields fun items ↦ ∀ i ∈ items, i.Pathed) :
    (level depth selection).Yields Level.Pathed :=
  (filter_yields depth).optional.bind fun _ hfilter ↦ yields_bind fun _ ↦ yields_bind fun _ ↦
    yields_bind fun _ ↦ yields_bind fun _ ↦ yields_bind fun _ ↦ h.bind fun _ hitems ↦
      yields_pure ⟨hfilter, Item.allPathed_of_forall hitems⟩

theorem item_yields {depth : Nat} {selection : Parser (List (Item Token Token))}
    (h : selection.Yields fun items ↦ ∀ i ∈ items, i.Pathed) :
    (item depth selection).Yields Item.Pathed := by
  have hall : all.Yields Item.Pathed := Yields.ruleIn (yields_bind fun _ ↦ yields_pure trivial)
  have hfield : fieldItem.Yields Item.Pathed :=
    Yields.ruleIn (yields_bind fun _ ↦ yields_bind fun _ ↦ yields_bind fun _ ↦ yields_pure trivial)
  have hrelation : (relation depth selection).Yields Item.Pathed :=
    Yields.ruleIn (yields_bind fun _ ↦ yields_bind fun _ ↦ (level_yields h).bind fun _ hbody ↦
      yields_pure ⟨hbody.filter, hbody.items⟩)
  exact Yields.ruleIn (hall.orElse (hrelation.orElse hfield))

theorem selection_yields (depth more : Nat) :
    (selection depth more).Yields fun items ↦ ∀ i ∈ items, i.Pathed := by
  induction more with
  | zero => exact yields_fail
  | succ more ih => exact Yields.ruleIn (enclosed_yields (item_yields ih))

theorem query_yields (depth : Nat) : (query depth).Yields fun form ↦ form.body.Pathed :=
  Yields.ruleIn (yields_bind fun _ ↦ yields_bind fun _ ↦ yields_bind fun _ ↦
    (level_yields (selection_yields depth depth)).bind fun _ hbody ↦ yields_bind fun _ ↦
      yields_bind fun _ ↦ yields_pure hbody)

end Grammar

/-! ### Reading -/

section Resolve

variable {α β ι κ ε : Type} {f : α → Except ε β} {g : ι → Except ε κ}

theorem resolveOption_ok {γ δ : Type} {h : γ → Except ε δ} {x : Option γ} {y : Option δ}
    (hx : resolveOption h x = .ok y) : ∀ d ∈ y, ∃ c ∈ x, h c = .ok d := by
  rintro d rfl
  cases x with
  | none => cases hx
  | some c =>
    obtain ⟨d', hd, heq⟩ := Except.map_eq_ok.mp hx
    exact ⟨c, rfl, Option.some.inj heq ▸ hd⟩

theorem Expr.resolve_pathed {x : Expr α} {y : Expr β} (h : x.resolve f = .ok y) (hx : x.Pathed) :
    y.Pathed := by
  induction x generalizing y with
  | and l r ihl ihr | or l r ihl ihr =>
    obtain ⟨l', hl, hrest⟩ := Except.bind_eq_ok.mp h
    obtain ⟨r', hr, hpure⟩ := Except.bind_eq_ok.mp hrest
    cases hpure
    exact ⟨ihl hl hx.1, ihr hr hx.2⟩
  | predicate path c n =>
    obtain ⟨n', -, rfl⟩ := Except.map_eq_ok.mp h
    exact hx

theorem Expr.resolveOption_pathed {x : Option (Expr α)} {y : Option (Expr β)}
    (h : resolveOption (Expr.resolve f) x = .ok y) (hx : ∀ e ∈ x, e.Pathed) :
    ∀ e ∈ y, e.Pathed := by
  intro e he
  obtain ⟨e', he', hresolve⟩ := resolveOption_ok h e he
  exact resolve_pathed hresolve (hx e' he')

mutual

theorem Item.resolve_pathed {i : Item α ι} {j : Item β κ}
    (h : i.resolve f g = .ok j) (hi : i.Pathed) :
    j.Pathed := by
  match i with
  | .all =>
    cases h
    trivial
  | .field name none =>
    cases h
    trivial
  | .field name (some (direction, n)) =>
    obtain ⟨m, -, hpure⟩ := Except.bind_eq_ok.mp h
    cases hpure
    trivial
  | .relation name filter limit page items =>
    obtain ⟨filter', hfilter, h₁⟩ := Except.bind_eq_ok.mp h
    obtain ⟨limit', -, h₂⟩ := Except.bind_eq_ok.mp h₁
    obtain ⟨page', -, h₃⟩ := Except.bind_eq_ok.mp h₂
    obtain ⟨items', hitems, hpure⟩ := Except.bind_eq_ok.mp h₃
    cases hpure
    exact ⟨Expr.resolveOption_pathed hfilter hi.1, Item.resolveItems_pathed hitems hi.2⟩

theorem Item.resolveItems_pathed {is : List (Item α ι)} {js : List (Item β κ)}
    (h : Item.resolveItems f g is = .ok js) (his : Item.AllPathed is) : Item.AllPathed js := by
  match is with
  | [] =>
    cases h
    trivial
  | i :: is =>
    obtain ⟨j, hj, hrest⟩ := Except.bind_eq_ok.mp h
    obtain ⟨js', hjs, hpure⟩ := Except.bind_eq_ok.mp hrest
    cases hpure
    exact ⟨Item.resolve_pathed hj his.1, Item.resolveItems_pathed hjs his.2⟩

end

theorem Level.resolve_pathed {l : Level α ι} {l' : Level β κ} (h : l.resolve f g = .ok l')
    (hl : l.Pathed) : l'.Pathed := by
  obtain ⟨filter', hfilter, h₁⟩ := Except.bind_eq_ok.mp h
  obtain ⟨limit', -, h₂⟩ := Except.bind_eq_ok.mp h₁
  obtain ⟨page', -, h₃⟩ := Except.bind_eq_ok.mp h₂
  obtain ⟨items', hitems, hpure⟩ := Except.bind_eq_ok.mp h₃
  cases hpure
  exact ⟨Expr.resolveOption_pathed hfilter hl.filter, Item.resolveItems_pathed hitems hl.items⟩

end Resolve

/-- No filter of a query that was read has an empty path. -/
theorem readQuery_pathed {text : String} {form : QueryForm Value Int64}
    (h : readQuery text = .ok form) :
    form.body.Pathed := by
  obtain ⟨tokens, hparse, hrest⟩ := Except.bind_eq_ok.mp h
  obtain ⟨body, hbody, hpure⟩ := Except.bind_eq_ok.mp hrest
  cases hpure
  refine Level.resolve_pathed hbody ?_
  unfold parse at hparse
  split at hparse
  · next x hrun =>
    cases hparse
    exact Parser.run_ok (P := fun form ↦ form.body.Pathed) (Grammar.query_yields _) hrun
  · cases hparse

end EntityStore.Language
