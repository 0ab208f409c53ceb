import EntityStore.Proofs.Mapping.Answer
import EntityStore.Proofs.Mapping.Entries
import EntityStore.Proofs.Query.Unpaged

/-!
Pages of one level. The statement of a level without a scope leaves out rows in front and behind by
counters of 64 bits, and so does the reader for each owner of a scope; either leaves the rows that
whole numbers count (`paged_cut`, `filter_onPages_cut`). A level with its limit and page answers
what is left so of its answer without them (`readLevel_whole`).
-/

set_option autoImplicit false

namespace EntityStore

open Query (Tree unpagedRelations)

namespace Query

/-- The rows on the page of a level: as many as its limit, behind those of the pages before it. -/
def Level.cut {α : Type} (b : Bindings) (l : Level) (rows : List α) : List α :=
  match Mapping.boundValue b l.limit, Mapping.boundValue b l.page with
  | .ok (some limit), .ok page =>
    (rows.drop (((page.getD 1).toInt - 1) * limit.toInt).toNat).take limit.toInt.toNat
  | _, _ => rows

/-- Limit and page of a level count from one. -/
structure Level.Counts (b : Bindings) (l : Level) : Prop where
  limit : ∀ n, Mapping.boundValue b l.limit = .ok (some n) → 1 ≤ n
  page : ∀ n, Mapping.boundValue b l.page = .ok (some n) → 1 ≤ n

theorem Level.cut_map {α β : Type} (b : Bindings) (l : Level) (f : α → β) (rows : List α) :
    l.cut b (rows.map f) = (l.cut b rows).map f := by
  unfold cut
  split
  · rw [← List.map_drop, ← List.map_take]
  · rfl

end Query

namespace Mapping

/-! ### Counters of 64 bits -/

theorem toInt_int64Nearest (n : Int) : (int64Nearest n).toInt = max (-2 ^ 63)
    (min n (2 ^ 63 - 1)) := by
  unfold int64Nearest
  rw [Int64.toInt_minValue, Int64.toInt_maxValue, Int64.toInt_ofInt_of_le (by omega) (by omega)]

variable {α : Type} {b : Query.Bindings} {l : Query.Level}
  {page : Option PageBounds} {p : PageBounds}

/-- The bounds of a page: the offset counts the rows in front of it, as far as 64 bits count. -/
theorem pageBounds_some (hcounts : l.Counts b) (hp : pageBounds b l = .ok (some p)) :
    ∃ before : Nat, 0 ≤ p.limit.toInt ∧ p.offset.toInt = min (before : Int) (2 ^ 63 - 1) ∧
      ∀ rows : List α, l.cut b rows = (rows.drop before).take p.limit.toInt.toNat := by
  obtain ⟨limit, hlimit, hp⟩ := Except.bind_eq_ok.mp hp
  obtain ⟨page, hpage, hp⟩ := Except.bind_eq_ok.mp hp
  cases limit with
  | none => cases hp
  | some n =>
    cases hp
    have hone : (1 : Int64).toInt = 1 := rfl
    have hn := hcounts.limit n hlimit
    have hm : 1 ≤ page.getD 1 := by
      cases page with
      | none => exact Int64.le_refl _
      | some m => exact hcounts.page m hpage
    rw [Int64.le_iff_toInt_le, hone] at hn hm
    have hpositive : 0 ≤ ((page.getD 1).toInt - 1) * n.toInt := Int.mul_nonneg (by omega) (by omega)
    refine ⟨(((page.getD 1).toInt - 1) * n.toInt).toNat, by dsimp only; omega, ?_,
      fun rows ↦ by rw [Query.Level.cut, hlimit, hpage]⟩
    have hsmall := Int64.toInt_lt (page.getD 1)
    have hbefore : (int64Nearest ((page.getD 1).toInt - 1)).toInt = (page.getD 1).toInt - 1 := by
      rw [toInt_int64Nearest]
      omega
    dsimp only
    rw [hbefore, toInt_int64Nearest]
    omega

/-- What a statement leaves out of fewer rows than 64 bits count is what lies outside of the
page. -/
theorem paged_cut (hcounts : l.Counts b) (hpage : pageBounds b l = .ok page) {rows : List α}
    (hlength : rows.length < 2 ^ 63) :
    Select.paged (page.map fun p ↦ (p.limit, p.offset)) rows = l.cut b rows := by
  cases page with
  | none =>
    obtain ⟨limit, hlimit, hpage⟩ := Except.bind_eq_ok.mp hpage
    obtain ⟨page, -, hpage⟩ := Except.bind_eq_ok.mp hpage
    obtain rfl : limit = none := Option.map_eq_none_iff.mp (Except.ok.inj hpage)
    unfold Query.Level.cut
    rw [hlimit]
    rfl
  | some p =>
    obtain ⟨before, hlimit, hoffset, hcut⟩ := pageBounds_some (α := α) hcounts hpage
    have hlimited : ¬p.limit < 0 := by
      rw [Int64.lt_iff_toInt_lt]
      exact Int.not_lt.mpr hlimit
    change (if p.limit < 0 then _ else _) = _
    rw [if_neg hlimited, hcut, hoffset]
    by_cases hall : (before : Int) ≤ 2 ^ 63 - 1
    · rw [min_eq_left hall, Int.toNat_natCast]
    · -- there are not as many rows as the counter counts
      rw [List.drop_eq_nil_of_le (by omega), List.drop_eq_nil_of_le (by omega)]

theorem onPage_iff (hoffset : 0 ≤ p.offset.toInt) {position : Nat} (h : position < 2 ^ 63) :
    onPage p position ↔ p.offset.toInt.toNat ≤ position ∧
    position < p.offset.toInt.toNat + p.limit.toInt.toNat := by
  have hposition : (Int64.ofNat position).toInt = position := Int64.toInt_ofNat_of_lt h
  unfold onPage
  rw [Bool.and_eq_true, decide_eq_true_iff, decide_eq_true_iff, Int64.le_iff_toInt_le,
    Int64.lt_iff_toInt_lt, Int64.toInt_sub, hposition]
  constructor
  · rintro ⟨hfrom, hto⟩
    rw [Int.bmod_eq_of_le (by omega) (by omega)] at hto
    omega
  · rintro ⟨hfrom, hto⟩
    rw [Int.bmod_eq_of_le (by omega) (by omega)]
    omega

/-- Of rows that all have one owner, of whom some stand before them, those on the page are left. -/
theorem pagePerOwner_one (hoffset : 0 ≤ p.offset.toInt) {id : Int64} {rows : List OwnedRow}
    (howner : ∀ c ∈ rows, c.1 = id) (before : List Int64)
    (hlength : before.count id + rows.length < 2 ^ 63) :
    pagePerOwner p before rows =
      (rows.take (p.offset.toInt.toNat + p.limit.toInt.toNat - before.count id)).drop
        (p.offset.toInt.toNat - before.count id) := by
  induction rows generalizing before with
  | nil => simp [pagePerOwner]
  | cons c rows ih =>
    obtain ⟨owner, row⟩ := c
    obtain ⟨hfirst, howners⟩ := List.forall_mem_cons.mp howner
    obtain rfl : owner = id := hfirst
    rw [List.length_cons] at hlength
    have hbelow : before.count owner < 2 ^ 63 := by omega
    have hpage := onPage_iff hoffset hbelow
    have hrest := ih howners (owner :: before) (by rw [List.count_cons_self]; omega)
    rw [List.count_cons_self] at hrest
    unfold pagePerOwner
    dsimp only
    rw [hrest]
    generalize before.count owner = k at hpage
    generalize p.offset.toInt.toNat = offset at hpage ⊢
    generalize p.limit.toInt.toNat = limit at hpage ⊢
    by_cases hin : onPage p k
    · obtain ⟨hfrom, hto⟩ := hpage.mp hin
      rw [if_pos hin, Nat.sub_eq_zero_of_le hfrom, Nat.sub_eq_zero_of_le (by omega),
        List.drop_zero, List.drop_zero, show offset + limit - k = (offset + limit - (k + 1)) + 1 by
          omega, List.take_succ_cons]
    · rw [if_neg hin]
      rcases Nat.lt_or_ge k offset with hless | hmore
      · rw [show offset + limit - k = (offset + limit - (k + 1)) + 1 by omega, List.take_succ_cons,
          show offset - k = (offset - (k + 1)) + 1 by omega, List.drop_succ_cons]
      · have hafter : ¬k < offset + limit := fun hto ↦ hin (hpage.mpr ⟨hmore, hto⟩)
        rw [Nat.sub_eq_zero_of_le (by omega : offset + limit ≤ k),
          Nat.sub_eq_zero_of_le (by omega : offset + limit ≤ k + 1), List.take_zero,
          List.take_zero, List.drop_nil, List.drop_nil]

/-- What the reader leaves out of the rows of one owner is what a statement leaves out of them. -/
theorem onPages_cut (hcounts : l.Counts b) (hpage : pageBounds b l = .ok page)
    {s : Scope} {id : Int64} {rows : List OwnedRow} (howner : ∀ c ∈ rows, c.1 = id)
    (hlength : rows.length < 2 ^ 63) :
    onPages (some s) page rows = l.cut b rows := by
  rw [← paged_cut hcounts hpage hlength]
  cases page with
  | none => rfl
  | some p =>
    obtain ⟨before, hlimit, hoffset, -⟩ := pageBounds_some (α := OwnedRow) hcounts hpage
    have hlimited : ¬p.limit < 0 := by
      rw [Int64.lt_iff_toInt_lt]
      exact Int.not_lt.mpr hlimit
    have hone := pagePerOwner_one (p := p) (by omega) howner [] (by simpa using hlength)
    change pagePerOwner p [] rows = if p.limit < 0 then _ else _
    rw [if_neg hlimited, hone, List.count_nil, Nat.sub_zero, Nat.sub_zero, List.drop_take,
      Nat.add_sub_cancel_left]

/-- What the reader leaves to an owner of rows of several owners, standing in whatever order, is the
page among those of the owner. -/
theorem filter_onPages_cut (hcounts : l.Counts b) (hpage : pageBounds b l = .ok page)
    {s : Scope} (id : Int64) {rows : List OwnedRow}
    (hlength : (rows.filter fun c ↦ c.1 == id).length < 2 ^ 63) :
    (onPages (some s) page rows).filter (fun c ↦ c.1 == id) = l.cut b
      (rows.filter fun c ↦ c.1 == id) := by
  have hfilter : (onPages (some s) page rows).filter (fun c ↦ c.1 == id) =
      onPages (some (s.for [id])) page (rows.filter fun c ↦ c.1 == id) := filter_onPages (· == id)
  rw [hfilter]
  exact onPages_cut hcounts hpage (fun c hc ↦ beq_iff_eq.mp (List.mem_filter.mp hc).2) hlength

/-! ### What limits and pages do not matter to -/

section

variable {store : Store} {bindings : Query.Bindings}

mutual

theorem width_unpaged (t : Tree) : width t.unpaged = width t := by
  cases t with
  | node level relations =>
    unfold Tree.unpaged width
    rw [relationsWidth_unpaged]
    rfl

theorem relationsWidth_unpaged (relations : List (Query.Relation × Tree)) :
    relationsWidth (unpagedRelations relations) = relationsWidth relations := by
  cases relations with
  | nil => rfl
  | cons x rest =>
    cases x with
    | mk r t =>
      unfold unpagedRelations relationsWidth
      rw [width_unpaged, relationsWidth_unpaged]

end

mutual

theorem views_unpaged (t : Tree) (depth : Nat) (a : Option Record) :
    views store bindings depth t.unpaged a = views store bindings depth t a := by
  cases t with
  | node level relations =>
    unfold Tree.unpaged views
    exact congrArg (List.map _) (relationViews_unpaged relations depth level.entity a)

theorem relationViews_unpaged (relations : List (Query.Relation × Tree))
    (depth : Nat) (entity : String) (a : Option Record) :
      relationViews store bindings depth entity (unpagedRelations relations) a =
      relationViews store bindings depth entity relations a := by
  cases relations with
  | nil => rfl
  | cons x rest =>
    cases x with
    | mk r t =>
      unfold unpagedRelations relationViews
      simp only [views_unpaged t, relationViews_unpaged rest, Tree.level_unpaged]
      rfl

end

mutual

theorem assemble_unpaged (t : Tree) (cells : List Cell) :
    assemble t.unpaged cells = assemble t cells := by
  cases t with
  | node level relations =>
    cases cells with
    | nil => rfl
    | cons c cells =>
      cases c with
      | integer id =>
        unfold Tree.unpaged assemble
        dsimp only
        rw [assembleRelations_unpaged relations]
        rfl
      | null | real | text | blob => rfl

theorem assembleRelations_unpaged (relations : List (Query.Relation × Tree)) (cells : List Cell) :
    assembleRelations (unpagedRelations relations) cells = assembleRelations relations cells := by
  cases relations with
  | nil => rfl
  | cons x rest =>
    cases x with
    | mk r t =>
      unfold unpagedRelations assembleRelations
      simp only [assemble_unpaged t, assembleRelations_unpaged rest, width_unpaged]

end

mutual

theorem served_unpaged (t : Tree) : t.unpaged.Served store bindings ↔ t.Served store bindings := by
  cases t with
  | node level relations =>
    unfold Tree.unpaged Query.Tree.Served
    exact and_congr_right fun _ ↦ relationsServed_unpaged relations level.entity

theorem relationsServed_unpaged (relations : List (Query.Relation × Tree)) (entity : String) :
    Query.RelationsServed store bindings entity (unpagedRelations relations) ↔
      Query.RelationsServed store bindings entity relations := by
  cases relations with
  | nil => exact Iff.rfl
  | cons x rest =>
    cases x with
    | mk r t =>
      unfold unpagedRelations Query.RelationsServed
      rw [served_unpaged t, relationsServed_unpaged rest, Tree.level_unpaged]
      exact Iff.rfl

end

theorem found_unpaged (t : Tree) (scope : Option Scope) :
    found store bindings t.unpaged scope = found store bindings t scope := by
  unfold found
  simp only [views_unpaged, Tree.level_unpaged]
  rfl

theorem record_unpaged (t : Tree) (cells : List Cell) :
    record t.unpaged cells = record t cells := by
  unfold record
  rw [assemble_unpaged, width_unpaged]

theorem levelServed_unpaged (t : Tree) (scope : Option Scope) :
    LevelServed store bindings t.unpaged scope ↔ LevelServed store bindings t scope := by
  constructor
  · rintro ⟨htree, hfilter, hscope⟩
    rw [Tree.level_unpaged] at hfilter hscope
    exact ⟨(served_unpaged t).mp htree, hfilter, hscope⟩
  · rintro ⟨htree, hfilter, hscope⟩
    refine ⟨(served_unpaged t).mpr htree, ?_, ?_⟩ <;> rw [Tree.level_unpaged]
    · exact hfilter
    · exact hscope

/-! ### Levels with and without their page -/

/-- The rows on a page; of a scope, those on the page of their owner. -/
def pageIn (scope : Option Scope) (page : Option PageBounds) (rows : List OwnedRow) :
    List OwnedRow :=
  if scope.isNone then Select.paged (page.map fun p ↦ (p.limit, p.offset)) rows else
    onPages scope page rows

theorem paged_forall₂ {α β : Type} {R : α → β → Prop} {xs : List α} {ys : List β}
    (h : List.Forall₂ R xs ys) (page : Option (Int64 × Int64)) :
    List.Forall₂ R (Select.paged page xs) (Select.paged page ys) := by
  unfold Select.paged
  split
  · split
    · exact List.forall₂_drop _ h
    · exact List.forall₂_take _ (List.forall₂_drop _ h)
  · exact h

theorem pageIn_subset (scope : Option Scope) (page : Option PageBounds) (rows : List OwnedRow) :
    pageIn scope page rows ⊆ rows := by
  intro c hc
  unfold pageIn at hc
  split at hc
  · unfold Select.paged at hc
    split at hc
    · split at hc
      · exact List.mem_of_mem_drop hc
      · exact List.mem_of_mem_drop (List.mem_of_mem_take hc)
    · exact hc
  · exact mem_onPages hc

variable {t u : Tree} {scope : Option Scope} {all : List OwnedRow}

theorem shown_none (store : Store) (bindings : Query.Bindings) (t : Tree) (scope : Option Scope) :
    shown store bindings t scope none = (found store bindings t scope).mergeSort fun a b ↦
      a.order b != .gt := by
  unfold shown
  split <;> rfl

theorem onPages_none (scope : Option Scope) (rows : List OwnedRow) :
    onPages scope none rows = rows := by
  cases scope <;> rfl

/-- A level answers the rows on the page of what a level that differs in limits and pages answers
without a page; these are as many as its statement meets. -/
theorem levelRows_page (hstore : store.Keyed) (hhas : store.Has t.level.entity idName)
    (hsame : u.unpaged = t.unpaged) (hall : levelRows store bindings u scope none = .ok all)
    (page : Option PageBounds) :
    levelRows store bindings t scope page = .ok (pageIn scope page all) ∧
      all.length = (found store bindings t scope).length := by
  have hfound : found store bindings u scope = found store bindings t scope := by
    rw [← found_unpaged, hsame, found_unpaged]
  have hrecord : record u = record t := by
    funext cells
    rw [← record_unpaged, hsame, record_unpaged]
  have hentity : u.level.entity = t.level.entity := by
    have hlevel := congrArg (fun t : Tree ↦ t.level.entity) hsame
    simp only [Tree.level_unpaged] at hlevel
    exact hlevel
  obtain ⟨rows, hrows, hshown⟩ := levelRows_shown hstore (hentity ▸ hhas) hall
  rw [onPages_none] at hrows
  obtain rfl := hrows
  rw [shown_none, hfound, hrecord] at hshown
  refine ⟨?_, by rw [← hshown.length_eq, List.length_mergeSort]⟩
  have hrecords : List.Forall₂ (fun f c ↦ record t (f.cells scope) = .ok (some c))
      ((found store bindings t scope).mergeSort fun a b ↦ a.order b != .gt) all :=
        hshown.imp fun _ _ h ↦ h.2
  have hmapped {fs : List Found} {rows : List OwnedRow}
      (h : List.Forall₂ (fun f c ↦ record t (f.cells scope) = .ok (some c)) fs rows) :
      fs.mapM (fun f ↦ record t (f.cells scope)) = .ok (rows.map some) :=
    Except.mapM_eq_ok.mpr (List.forall₂_map_right_iff.mpr h)
  have hkept (rows : List OwnedRow) : (rows.map some).filterMap id = rows := by
    rw [List.filterMap_map]
    exact List.filterMap_some
  cases scope with
  | none =>
    refine Except.bind_eq_ok.mpr ⟨_, hmapped (paged_forall₂ hrecords _), ?_⟩
    rw [hkept]
    rfl
  | some s =>
    refine Except.bind_eq_ok.mpr ⟨_, hmapped hrecords, ?_⟩
    rw [hkept]
    rfl

/-- The statement of a level meets fewer rows than 64 bits count; in a scope, fewer of each
owner. -/
def Few (store : Store) (bindings : Query.Bindings) (t : Tree) : Option Scope → Prop
  | none => (found store bindings t none).length < 2 ^ 63
  | some s => ∀ id, (found store bindings t (some (s.for [id]))).length < 2 ^ 63

/-- Of some rows those are left that stand on the page of a level; of a scope, on the page of their
owner. -/
def CutTo (b : Query.Bindings) (l : Query.Level) (scope : Option Scope) (all rows : List OwnedRow) :
    Prop :=
  match scope with
  | none => rows = l.cut b all
  | some _ => ∀ id, (rows.filter fun c ↦ c.1 == id) = l.cut b (all.filter fun c ↦ c.1 == id)

theorem CutTo.changed {b : Query.Bindings} {l : Query.Level} {rows : List OwnedRow}
    (h : CutTo b l scope all rows) (f : Row → Row) :
    CutTo b l scope (changedAt [] f all) (changedAt [] f rows) := by
  unfold changedAt
  cases scope with
  | none =>
    obtain rfl : rows = l.cut b all := h
    exact (l.cut_map b _ all).symm
  | some s =>
    intro id
    rw [List.filter_map, List.filter_map, l.cut_map]
    exact congrArg (List.map _) (h id)

/-- In a scope every row that running the statement answers belongs to an owner, and there are few
of each. -/
theorem filter_owner_length (hstore : store.Keyed) (hhas : store.Has t.level.entity idName)
    (hsame : u.unpaged = t.unpaged) (hu : ∀ v ∈ u.nodes, v.Bound bindings) {s : Scope}
    (hall : levelRows store bindings u (some s) none = .ok all)
    (hfew : Few store bindings t (some s)) (id : Int64) :
    (all.filter fun c ↦ c.1 == id).length < 2 ^ 63 := by
  by_cases hid : id ∈ s.owners
  · have hone := levelRows_for hstore hu (List.cons_subset.mpr ⟨hid, List.nil_subset _⟩) hall
    have hfilter : (all.filter fun c ↦ [id].contains c.1) = all.filter fun c ↦ c.1 == id :=
      List.filter_congr fun c _ ↦ Bool.eq_iff_iff.mpr (by simp)
    rw [hfilter] at hone
    rw [(levelRows_page hstore hhas hsame hone none).2]
    exact hfew id
  · have hnone : (all.filter fun c ↦ c.1 == id) = [] := by
      refine List.filter_eq_nil_iff.mpr fun c hc howner ↦ hid ?_
      obtain ⟨f, hf, hrecord⟩ := levelRows_mem hall hc
      obtain ⟨n, hn, -, hown⟩ := record_owner hstore hf
      rwa [← beq_iff_eq.mp howner, hown c hrecord]
    rw [hnone]
    exact Nat.two_pow_pos 63

/-- Running the statement of a level answers the rows on the page of what it answers without a
page. -/
theorem runLevel_page (hstore : store.Keyed) (hsame : u.unpaged = t.unpaged)
    (hlimit : u.level.limit = none) (hu : ∀ v ∈ u.nodes, v.Bound bindings)
    (ht : ∀ v ∈ t.nodes, v.Bound bindings) (hcounts : t.level.Counts bindings)
    (hfew : Few store bindings t scope) (hall : (runLevel store bindings u scope).Returns all) :
    ∃ rows, rows ⊆ all ∧ (runLevel store bindings t scope).Returns rows ∧
    CutTo bindings t.level scope all rows := by
  obtain ⟨hserved, page, hpage, hrows⟩ := (runLevel_returns hu).mp hall
  obtain rfl := pageBounds_none hlimit hpage
  have hserved : LevelServed store bindings t scope := by
    rwa [← levelServed_unpaged, ← hsame, levelServed_unpaged]
  have hhas : store.Has t.level.entity idName := by
    cases t
    exact hserved.tree.1.1
  obtain ⟨page, hpage⟩ := pageBounds_ok (ht t t.mem_nodes_self)
  obtain ⟨hpaged, hlength⟩ := levelRows_page hstore hhas hsame hrows page
  refine ⟨_, pageIn_subset scope page all, (runLevel_returns ht).mpr ⟨hserved, page, hpage, hpaged⟩,
    ?_⟩
  cases scope with
  | none => exact paged_cut hcounts hpage (hlength ▸ hfew)
  | some s =>
    exact fun id ↦ filter_onPages_cut hcounts hpage id
      (filter_owner_length hstore hhas hsame hu hrows hfew id)

/-- A tree stays suited with another limit and page of its topmost level, when these are bound
too. -/
theorem Suited.relevel {level level' : Query.Level} {relations : List (Query.Relation × Tree)}
    (h : Suited bindings (.node level relations))
    (hlevel : (Query.Tree.node level' relations).Bound bindings) :
    Suited bindings (.node level' relations) := by
  constructor
  · intro u hu
    rcases Tree.mem_nodes.mp hu with rfl | hbelow
    · exact hlevel
    · exact h.bound u (Tree.mem_nodes.mpr (.inr hbelow))
  · intro u hu
    rcases Tree.mem_nodes.mp hu with rfl | hbelow
    · exact h.other (.node level relations) (Tree.mem_nodes_self _)
    · exact h.other u (Tree.mem_nodes.mpr (.inr hbelow))

theorem Suited.whole (h : Suited bindings t) : Suited bindings t.whole := by
  cases t
  exact h.relevel ⟨(h.bound _ (Tree.mem_nodes_self _)).filter, ⟨none, rfl⟩, ⟨none, rfl⟩⟩

/-- The rows that reading a level answers are those of its statement with what is below them. -/
theorem readLevel_own (hstore : store.Keyed) (h : Suited bindings t)
    (hall : (readLevel store bindings t scope).Returns all) :
    ∃ own, (runLevel store bindings t scope).Returns own ∧ (∀ c ∈ own, c.2.Numbered) ∧
      (fill store bindings t.level.entity [] t.relations own).Returns all ∧
        all = changedAt [] (completed store bindings t.level.entity t.relations) own := by
  obtain ⟨own, page, hserved, hpage, hrows, hnumbered, hfill, hchanged⟩ :=
    readLevel_returns hstore h (fills hstore h) hall
  exact ⟨own, (runLevel_returns h.bound).mpr ⟨hserved, page, hpage, hrows⟩,
    hnumbered, hfill, hchanged⟩

/-- Reading a level with everything below it answers the rows on the page of what it answers without
limit and page. -/
theorem readLevel_whole (hstore : store.Keyed) (h : Suited bindings t)
    (hcounts : t.level.Counts bindings) (hfew : Few store bindings t scope)
    (hall : (readLevel store bindings t.whole scope).Returns all) :
    ∃ rows, (readLevel store bindings t scope).Returns rows ∧
    CutTo bindings t.level scope all rows := by
  have hbelow : t.whole.relations = t.relations ∧ t.whole.level.entity = t.level.entity ∧
      t.whole.level.limit = none := by
    cases t
    exact ⟨rfl, rfl, rfl⟩
  obtain ⟨hrelations, hentity, hlimit⟩ := hbelow
  obtain ⟨own, hown, hnumbered, hfill, rfl⟩ := readLevel_own hstore h.whole hall
  rw [hrelations, hentity] at hfill ⊢
  obtain ⟨rows, hsub, hrun, hcut⟩ :=
    runLevel_page hstore t.unpaged_whole hlimit h.whole.bound h.bound hcounts hfew hown
  exact ⟨_, hrun.bind (fills hstore h hnumbered hfill hsub), hcut.changed _⟩

end

end Mapping

end EntityStore
