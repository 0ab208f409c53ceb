import EntityStore.Proofs.Mapping.Cut
import EntityStore.Proofs.Mapping.Safety
import Mathlib.Data.Int.Interval

/-!
Pages divide what a query answers: the rows of the topmost level, and those of every owner of a
relation to many rows, are as many of what the query without limit and page answers as its limit
tells, behind those of the pages before; all pages one after the other are all rows (`query_paged`).
-/

set_option autoImplicit false

namespace EntityStore

open Query (Tree)

namespace Query

/-! ### All pages one after the other -/

def Level.onPage (l : Level) (n : Int64) : Level := { l with page := some (.literal n) }

/-- A tree with another page of its topmost level. -/
def Tree.onPage (n : Int64) : Tree → Tree
  | .node level relations => .node (level.onPage n) relations

@[simp] theorem Tree.level_onPage (n : Int64) (t : Tree) :
    (t.onPage n).level = t.level.onPage n := by
  cases t
  rfl

@[simp] theorem Tree.whole_onPage (n : Int64) (t : Tree) : (t.onPage n).whole = t.whole := by
  cases t
  rfl

variable {α : Type} {b : Bindings} {l : Level} {n : Int64}

theorem Level.cut_onPage (hlimit : Mapping.boundValue b l.limit = .ok (some n)) {k : Nat}
    (hk : k + 1 < 2 ^ 63) (rows : List α) : (l.onPage (.ofNat (k + 1))).cut b rows =
      (rows.drop (k * n.toInt.toNat)).take n.toInt.toNat := by
  have hpage : (Int64.ofNat (k + 1)).toInt = k + 1 := by
    rw [Int64.toInt_ofNat_of_lt hk]
    exact Int.natCast_succ k
  have hbefore : (((Int64.ofNat (k + 1)).toInt - 1) * n.toInt).toNat = k * n.toInt.toNat := by
    rw [hpage, Int.add_sub_cancel]
    rcases Int.le_total 0 n.toInt with hn | hn
    · rw [Int.toNat_mul (Int.natCast_nonneg k) hn, Int.toNat_natCast]
    · rw [Int.toNat_of_nonpos hn,
        Int.toNat_of_nonpos (Int.mul_nonpos_of_nonneg_of_nonpos (Int.natCast_nonneg k) hn),
        Nat.mul_zero]
  unfold cut onPage
  dsimp only
  rw [hlimit, ← hbefore]
  rfl

theorem flatten_pages (size count : Nat) (rows : List α) :
    ((List.range count).map fun k ↦ (rows.drop (k * size)).take size).flatten = rows.take
      (count * size) := by
  induction count with
  | zero => simp
  | succ count ih =>
    rw [List.range_succ, List.map_append, List.flatten_append, ih, Nat.succ_mul, List.take_add]
    simp

/-- The pages of a level, as many as hold all rows, are the rows. -/
theorem Level.flatten_cut (hlimit : Mapping.boundValue b l.limit = .ok (some n))
    {rows : List α} {count : Nat} (hcount : count < 2 ^ 63)
    (hall : rows.length ≤ count * n.toInt.toNat) :
    ((List.range count).map fun k ↦ (l.onPage (.ofNat (k + 1))).cut b rows).flatten = rows := by
  have hpages : ∀ k ∈ List.range count, (l.onPage (.ofNat (k + 1))).cut b rows =
      (rows.drop (k * n.toInt.toNat)).take n.toInt.toNat := fun k hk ↦
    Level.cut_onPage hlimit (Nat.lt_of_le_of_lt (List.mem_range.mp hk) hcount) rows
  rw [List.map_congr_left hpages, flatten_pages, List.take_of_length_le hall]

end Query

namespace Mapping

variable {store : Store} {s : Schema} {b : Query.Bindings} {t : Tree}

/-! ### Trees with and without limit and page -/

/-- What is answered for a tree is the page of what is answered for it without limit and page; and
if it has a limit, its pages, as many as hold all rows, are these rows. -/
structure PagedAs (b : Query.Bindings) (answers : Tree → List Row → Prop) (t : Tree) : Prop where
  page : ∀ all, answers t.whole all → answers t (t.level.cut b all)
  pages : ∀ all, answers t.whole all → ∀ n, boundValue b t.level.limit = .ok (some n) →
    ∀ count : Nat, count < 2 ^ 63 → all.length ≤ count * n.toInt.toNat → ∃ pages,
      List.Forall₂ (fun k ↦ answers (t.onPage (.ofNat (k + 1)))) (List.range count) pages ∧
      pages.flatten = all

theorem Suited.onPage (h : Suited b t) (n : Int64) : Suited b (t.onPage n) := by
  obtain ⟨level, relations⟩ := t
  have hself := h.bound _ (Tree.mem_nodes_self (.node level relations))
  exact h.relevel ⟨hself.filter, hself.limit, ⟨some n, rfl⟩⟩

theorem PagedAs.intro {answers : Tree → List Row → Prop} (ht : Suited b t)
    (hcounts : t.level.Counts b)
    (h : ∀ u : Tree, u.whole = t.whole → Suited b u → u.level.Counts b →
    ∀ all, answers u.whole all → answers u (u.level.cut b all)) : PagedAs b answers t where
  page := h t rfl ht hcounts
  pages all hall n hlimit count hcount hlength := by
    refine ⟨_, List.forall₂_map_right_iff.mpr (List.forall₂_same.mpr fun k hk ↦ ?_),
      Query.Level.flatten_cut hlimit hcount hlength⟩
    have hk : k + 1 < 2 ^ 63 := Nat.lt_of_le_of_lt (List.mem_range.mp hk) hcount
    rw [← Tree.level_onPage]
    refine h _ (Tree.whole_onPage _ t) (ht.onPage _) ?_ all (by rwa [Tree.whole_onPage])
    rw [Tree.level_onPage]
    refine ⟨hcounts.limit, fun m hm ↦ ?_⟩
    cases hm
    rw [Int64.le_iff_toInt_le, Int64.toInt_ofNat_of_lt hk]
    exact Int.ofNat_le.mpr (Nat.le_add_left 1 k)

/-! ### How many rows there are -/

/-- The statement of the topmost level of a tree meets fewer rows than 64 bits count, and those of
the levels of relations to many rows meet fewer for each owner. -/
structure Counted (store : Store) (b : Query.Bindings) (t : Tree) : Prop where
  top : (found store b t none).length < 2 ^ 63
  owner : ∀ u ∈ t.nodes, ∀ r v, (r, v) ∈ u.relations → r.many → ∀ n,
    (found store b v (some ⟨u.level.entity, r, [n]⟩)).length < 2 ^ 63

theorem length_lt_of_nodup {xs : List Int64} (h : xs.Nodup) (hpositive : ∀ x ∈ xs, 0 < x) :
    xs.length < 2 ^ 63 := by
  have hnodup : (xs.map Int64.toInt).Nodup := h.map fun _ _ ↦ Int64.toInt_inj.mp
  have hsub : (xs.map Int64.toInt).toFinset ⊆ Finset.Ioo 0 (2 ^ 63) := by
    intro n hn
    obtain ⟨x, hx, rfl⟩ := List.mem_map.mp (List.mem_toFinset.mp hn)
    exact Finset.mem_Ioo.mpr ⟨Int64.lt_iff_toInt_lt.mp (hpositive x hx), Int64.toInt_lt x⟩
  have hcard := Finset.card_le_card hsub
  rw [List.toFinset_card_of_nodup hnodup, List.length_map, Int.card_Ioo] at hcard
  omega

/-- Rows of a scope with one owner belong to it. -/
theorem Hit.owner_eq {scope : Scope} {n : Int64} (hscope : scope.owners = [n]) {f : Hit}
    (h : f.In store b t (some scope)) : f.owner (some scope) = n := by
  have hreached := h.reached
  unfold Hit.Reached at hreached
  cases hkind : scope.relation.kind with
  | owned =>
    simp only [hkind, hscope, List.mem_singleton, exists_eq_left] at hreached
    simp [Hit.owner, ownerCell?, hkind, hreached.2]
  | linked =>
    simp only [hkind, hscope, List.mem_singleton, exists_eq_left] at hreached
    obtain ⟨l, -, hlink, -, howner⟩ := hreached
    simp [Hit.owner, ownerCell?, hkind, hlink, Record.cell?, howner]

/-- In a store of its schema a level meets every row once at most for an owner, and rows have
different numbers. -/
theorem found_length_lt (h : store.Models s) (hs : s.WellFormed)
    {notes : List Query.Note} {root : Tree} (hroot : root.Everywhere s notes) (ht : t ∈ root.nodes)
    {scope : Option Scope} (hscope : ScopedIn root t scope)
    (hone : ∀ s, scope = some s → ∃ n, s.owners = [n]) :
    (found store b t scope).length < 2 ^ 63 := by
  obtain ⟨e, he, hsound⟩ := hroot t ht
  have hin (f : Hit) : f ∈ hits store b t scope ↔ f.In store b t scope :=
    mem_hits h he hsound.entity f
  have hlength : (found store b t scope |>.mergeSort fun x y ↦ x.order y != .gt).length =
      ((hits store b t scope).map (Hit.found store b t)).length :=
    congrArg List.length (found_sorted h hs fun u hu ↦ hroot u (Tree.mem_nodes_trans ht hu))
  rw [List.length_mergeSort, List.length_map] at hlength
  have hnodup : ((hits store b t scope).map fun f ↦ f.record.row.id).Nodup := by
    refine List.Nodup.map_on (fun f hf g hg hid ↦ ?_) (nodup_hits h.keyed)
    have hf := (hin f).mp hf
    have hg := (hin g).mp hg
    refine Hit.eq_of_owner_eq h hs hroot hscope hf hg
      (h.keyed.record_ext hf.record hg.record hid) ?_
    cases scope with
    | none => rfl
    | some s =>
      obtain ⟨n, hn⟩ := hone s rfl
      rw [Hit.owner_eq hn hf, Hit.owner_eq hn hg]
  have hpositive : ∀ n ∈ (hits store b t scope).map fun f ↦ f.record.row.id, 0 < n := by
    intro n hn
    obtain ⟨f, hf, rfl⟩ := List.mem_map.mp hn
    have hrecord := ((hin f).mp hf).record
    have hid := h.cell_id he (hsound.entity ▸ hrecord)
    rcases (h.keyed.record hrecord).cell_id with hnull | hnumber
    · cases hid.symm.trans hnull
    · exact hnumber.2
  have hcount := length_lt_of_nodup hnodup hpositive
  rwa [List.length_map, ← hlength] at hcount

/-- A compiled query meets few enough rows in a store of its schema. -/
theorem Counted.of_models (h : store.Models s) (hs : s.WellFormed) {notes : List Query.Note}
    (ht : t.Everywhere s notes) : Counted store b t where
  top := found_length_lt h hs ht t.mem_nodes_self trivial nofun
  owner u hu r v hmem hmany n := by
    refine found_length_lt h hs ht (Tree.mem_nodes_trans hu (Tree.mem_nodes_relation hmem)) ⟨u, hu,
      hmem, hmany, rfl⟩ ?_
    rintro s ⟨⟩
    exact ⟨n, rfl⟩

/-! ### What limits and pages hold -/

theorem relationParameters_subset {relations : List (Query.Relation × Tree)} {r : Query.Relation}
    (h : (r, t) ∈ relations) : t.parameters ⊆ Query.relationParameters relations := by
  induction relations with
  | nil => contradiction
  | cons x rest ih =>
    rcases List.mem_cons.mp h with rfl | h
    · exact List.subset_append_left _ _
    · exact List.Subset.trans (ih h) (List.subset_append_right _ _)

theorem parameters_subset {u : Tree} (hu : u ∈ t.nodes) : u.level.parameters ⊆ t.parameters := by
  induction t using Tree.induction with
  | node level relations ih =>
    unfold Tree.parameters
    rcases Tree.mem_nodes.mp hu with rfl | ⟨r, v, hmem, hu⟩
    · exact List.subset_append_left _ _
    · have hbelow := List.Subset.trans (ih r v hmem hu) (relationParameters_subset hmem)
      exact List.Subset.trans hbelow (List.subset_append_right _ _)

/-- A limit or page counts from one, whether it stands in the query or is bound. -/
theorem one_le_boundValue {q : Query.Compiled} (h : q.Typed s) {slots : Slots} {args : Args}
    (hb : Query.bind q.parameters slots args = .ok b) {x : Option (Language.Bound Int64)}
    (hliteral : ∀ n, x = some (.literal n) → 1 ≤ n)
    (hparameter : x.toList.flatMap Query.boundParameters ⊆ q.parameters)
    {n : Int64} (hn : boundValue b x = .ok (some n)) : 1 ≤ n := by
  cases x with
  | none => cases hn
  | some x =>
    cases x with
    | literal m =>
      cases hn
      exact hliteral n rfl
    | param name =>
      have hin : ⟨name, .long, .bound⟩ ∈ q.parameters := hparameter (List.mem_singleton.mpr rfl)
      obtain ⟨v, hlookup, haccepts⟩ :=
        Query.lookup_of_forall₂ (Query.bind_accepts h hb) h.unique hin
      obtain ⟨m, rfl, hm⟩ : ∃ m, v = .long m ∧ 1 ≤ m := haccepts
      have hlookup : b.lookup name = some (.long m) := hlookup
      rw [boundValue, hlookup] at hn
      cases hn
      exact hm

theorem counts_of_typed {q : Query.Compiled} (h : q.Typed s) {slots : Slots} {args : Args}
    (hb : Query.bind q.parameters slots args = .ok b) {u : Tree} (hu : u ∈ q.tree.nodes) :
    u.level.Counts b := by
  obtain ⟨e, -, htyped⟩ := h.levels u hu
  have hin : u.level.parameters ⊆ q.parameters := h.declared ▸ parameters_subset hu
  unfold Query.Level.parameters at hin
  obtain ⟨hbefore, hpage⟩ := List.append_subset.mp hin
  obtain ⟨-, hlimit⟩ := List.append_subset.mp hbefore
  exact ⟨fun _ ↦ one_le_boundValue h hb htyped.paged.limit hlimit,
    fun _ ↦ one_le_boundValue h hb htyped.paged.page hpage⟩

/-! ### Queries -/

theorem read_eq_ok (h : ∀ u ∈ t.nodes, u.Bound b) {rows : List Row} :
    (read store b t).1 = .ok rows ↔ ∃ children, (readLevel store b t none).Returns children ∧
    children.map Prod.snd = rows := by
  constructor
  · intro hread
    obtain ⟨children, progress, hchildren, hrows⟩ := Reading.run_bind_ok hread
    exact ⟨children, readLevel_settled h none _ _ (congrArg Prod.fst hchildren),
      Except.ok.inj hrows⟩
  · rintro ⟨children, hchildren, rfl⟩
    have hread : (readTop store b t).Returns (children.map Prod.snd) := hchildren.bind (.pure _)
    exact hread ⟨0, []⟩

theorem found_whole {u : Tree} (h : u.whole = t.whole) (scope : Option Scope) :
    found store b u scope = found store b t scope := by
  rw [← found_unpaged, ← Tree.unpaged_whole, h, Tree.unpaged_whole, found_unpaged]

theorem readTop_paged (hstore : store.Keyed) (ht : Suited b t) (hcounts : t.level.Counts b)
    (hfew : (found store b t none).length < 2 ^ 63) :
    PagedAs b (fun t rows ↦ (read store b t).1 = .ok rows) t := by
  refine .intro ht hcounts fun u hwhole hu hcounts all hall ↦ ?_
  obtain ⟨children, hread, rfl⟩ := (read_eq_ok hu.whole.bound).mp hall
  have hfew : Few store b u none := by
    unfold Few
    rwa [found_whole hwhole]
  obtain ⟨rows, hrows, hcut⟩ := readLevel_whole hstore hu hcounts hfew hread
  obtain rfl : rows = u.level.cut b children := hcut
  exact (read_eq_ok hu.bound).mpr ⟨_, hrows, (u.level.cut_map b _ children).symm⟩

theorem readLevel_paged (hstore : store.Keyed) (ht : Suited b t)
    (hcounts : t.level.Counts b) {entity : String} {r : Query.Relation}
    (hfew : ∀ n, (found store b t (some ⟨entity, r, [n]⟩)).length < 2 ^ 63) (ids : List Int64)
    (n : Int64) :
      PagedAs b
        (fun t rows ↦ ∃ children, (readLevel store b t (some ⟨entity, r, ids⟩)).Returns children ∧
      (children.filter fun c ↦ c.1 == n).map Prod.snd = rows) t := by
  refine .intro ht hcounts fun u hwhole hu hcounts all hall ↦ ?_
  obtain ⟨children, hread, rfl⟩ := hall
  have hfew : Few store b u (some ⟨entity, r, ids⟩) := by
    intro n
    rw [found_whole hwhole]
    exact hfew n
  obtain ⟨rows, hrows, hcut⟩ := readLevel_whole hstore hu hcounts hfew hread
  exact ⟨rows, hrows, hcut.owner n⟩

/-- What a query answers in a store, bound to arguments, told by what is answered without limits and
pages. -/
structure Pages (s : Schema) (store : Store) (form : Language.QueryForm Value Int64)
    (q : Query.Compiled) (slots : Slots) (args : Args) (b : Query.Bindings) : Prop where
  /-- Without the limit and page of its topmost level a query compiles, is bound to the same, and
  reads the same tree but for them. -/
  whole : ∃ q' b', s.compileQuery form.whole = .ok q' ∧
    Query.bind q'.parameters slots args = .ok b' ∧ read store b' q'.tree = read store b q.tree.whole
  top : PagedAs b (fun t rows ↦ (read store b t).1 = .ok rows) q.tree
  /-- What is read for the owners of a relation to many rows is paged for each of them. -/
  owner : ∀ u ∈ q.tree.nodes, ∀ r v, (r, v) ∈ u.relations → r.many → ∀ ids n,
    PagedAs b
      (fun t rows ↦ ∃ children,
      (readLevel store b t (some ⟨u.level.entity, r, ids⟩)).Returns children ∧
      (children.filter fun c ↦ c.1 == n).map Prod.snd = rows) v
  /-- Without limits and pages at all levels a query answers rows that become those of the query
  when the lists in them are cut to their pages, unless it selects a relation twice. -/
  below : (∀ u ∈ q.tree.nodes, (u.relations.map fun x ↦ x.1.name).Nodup) →
    ∃ q' b', s.compileQuery form.unpaged = .ok q' ∧ Query.bind q'.parameters slots args = .ok b' ∧
      ∀ all, (read store b' q'.tree).1 = .ok all →
      (read store b q.tree).1 = .ok (cutRows b q.tree all)

/-- Pages divide what a query answers. Limits and pages, in the query or bound, count from one; the
topmost level answers as many rows as its limit of what it answers without limit and page, behind
those of the pages before, and so does every relation to many rows for each owner; all pages are all
rows. What is counted has to be fewer than 64 bits count, as it is in every store of the schema. -/
theorem query_paged (hs : s.Reachable) {text : String} {q : Query.Compiled}
    (hq : s.query text = .ok q) {slots : Slots} {args : Args}
    (hb : Query.bind q.parameters slots args = .ok b) (hstore : store.Keyed) :
    ∃ form, Language.readQuery text = .ok form ∧ (store.Models s → Counted store b q.tree) ∧
      (Counted store b q.tree → Pages s store form q slots args b) := by
  have hwf := hs.wellFormed
  obtain ⟨form, hform, hcompile⟩ := Except.bind_eq_ok.mp hq
  have hform := Except.mapError_eq_ok.mp hform
  have hcompile := Except.mapError_eq_ok.mp hcompile
  obtain ⟨htyped, -⟩ := query_typed hwf hq
  obtain ⟨-, notes, hsound, -⟩ := Query.compileQuery_sound hwf hcompile
  refine ⟨form, hform, fun hmodels ↦ .of_models hmodels hwf hsound, fun hcounted ↦ ?_⟩
  have hsuited := compileQuery_suited hs hcompile hb
  have hself := q.tree.mem_nodes_self
  have hcounts : ∀ u ∈ q.tree.nodes, u.level.Counts b := fun u ↦ counts_of_typed htyped hb
  constructor
  · have hentity : form.whole.entity = form.entity := rfl
    obtain ⟨q', b', hq', hb', hread⟩ :=
      Query.compileQuery_fewer hwf hentity (fun e ↦ Query.top_whole s e form) hcompile hb
    exact ⟨q', b', hq', hb', hread store⟩
  · exact readTop_paged hstore hsuited (hcounts _ hself) hcounted.top
  · intro u hu r v hmem hmany ids n
    have hv := Tree.mem_nodes_trans hu (Tree.mem_nodes_relation hmem)
    exact readLevel_paged hstore (hsuited.node hv) (hcounts v hv)
      (hcounted.owner u hu r v hmem hmany) ids n
  · intro hnames
    have hentity : form.unpaged.entity = form.entity := rfl
    obtain ⟨q', b', hq', hb', hread⟩ :=
      Query.compileQuery_fewer hwf hentity (fun e ↦ Query.top_unpaged s e form) hcompile hb
    refine ⟨q', b', hq', hb', fun all hall ↦ ?_⟩
    have hfillable := compileQuery_fillable hs hcompile hnames hb
    rw [hread] at hall
    obtain ⟨children, hchildren, rfl⟩ := (read_eq_ok hfillable.unpaged.bound).mp hall
    have hfollows := follows hstore hfillable hcounts fun u hu r v hmem hmany _ ↦
      hcounted.owner u hu r v hmem hmany
    have hfew : Few store b q.tree none := hcounted.top
    obtain ⟨rows, hrows, hcut⟩ := hfollows.reads hstore hfillable (hcounts _ hself) hfew hchildren
    obtain rfl : rows = q.tree.level.cut b
      (changedAt [] (cutRelations b q.tree.relations) children) := hcut
    refine (read_eq_ok hfillable.bound).mpr ⟨_, hrows, ?_⟩
    unfold cutRows changedAt
    rw [q.tree.level.cut_map, q.tree.level.cut_map, List.map_map, List.map_map]
    rfl

/-- The first person, if it is on the page, with the second page of its notes after the first. -/
def pagesForm : Language.QueryForm Value Int64 :=
  ⟨"Person", some (.predicate ["@id"] (.compare .eq) (.literal (.long 1))), some (.param "most"),
    some (.param "page"),
      [.field "name" none,
      .relation "notes" (some (.predicate ["@id"] (.compare .gt) (.literal (.long 1))))
      (some (.literal 1)) (some (.literal 2)) [.field "text" none]]⟩

def pagesText : String :=
  "Person | @id == 1 | limit ?most page ?page \x7b name , " ++
    "notes | @id > 1 | limit 1 page 2 \x7b text \x7d \x7d"

theorem query_paged_of_friends :
    ∃ q b all, (Schema.empty.after friendsCalls).query pagesText = .ok q ∧
      Query.bind q.parameters .empty [("most", .value (.int 5)),
        ("page", .value (.int 1))] = .ok b ∧
      (read friendsStore b q.tree.whole).1 = .ok all ∧
      (read friendsStore b q.tree).1 = .ok (q.tree.level.cut b all) ∧
      Pages (Schema.empty.after friendsCalls) friendsStore pagesForm q .empty
        [("most", .value (.int 5)), ("page", .value (.int 1))] b := by
  have htext : Language.readQuery pagesText = .ok pagesForm := by
    refine Language.QueryForm.read rfl ⟨[], _, .nil, ?_, rfl⟩
    exact .blank (.plain rfl) <| .blank (.plain rfl) <| .blank (.plain rfl) <|
      .blank (.plain rfl) <| .blank (.literal (.long 1)) <| .blank (.plain rfl) <|
        .blank (.plain rfl) <| .blank (.plain rfl) <|
      .blank (.plain rfl) <| .blank (.plain rfl) <| .blank (.plain rfl) <| .blank (.plain rfl) <|
      .blank (.plain rfl) <| .blank (.plain rfl) <| .blank (.plain rfl) <| .blank (.plain rfl) <|
      .blank (.plain rfl) <| .blank (.literal (.long 1)) <| .blank (.plain rfl) <|
        .blank (.plain rfl) <|
      .blank (.literal (.long 1)) <| .blank (.plain rfl) <| .blank (.literal (.long 2)) <|
        .blank (.plain rfl) <|
      .blank (.plain rfl) <| .blank (.plain rfl) <| .last (.plain rfl)
  obtain ⟨q, b, hq, hb, hread⟩ : ∃ q b, (Schema.empty.after friendsCalls).compileQuery pagesForm =
      .ok q ∧ Query.bind q.parameters .empty [("most", .value (.int 5)),
        ("page", .value (.int 1))] = .ok b ∧
      (read friendsStore b q.tree.whole).1.isOk :=
    ⟨_, [("most", .long 5), ("page", .long 1)], rfl, rfl, by decide +kernel⟩
  have hq := (Schema.query_eq_ok htext).mpr hq
  obtain ⟨all, hall⟩ := Except.isOk_iff.mp hread
  have hmodels : friendsStore.Models (Schema.empty.after friendsCalls) := by decide +kernel
  obtain ⟨form, hform, hcounted, hpages⟩ := query_paged ⟨friendsCalls, rfl⟩ hq hb hmodels.keyed
  obtain rfl : pagesForm = form := Except.ok.inj (htext.symm.trans hform)
  have hpages := hpages (hcounted hmodels)
  exact ⟨q, b, all, hq, hb, hall, hpages.top.page all hall, hpages⟩

/-- The second page of one note of the first person, and the note itself. -/
def noteTwiceForm : Language.QueryForm Value Int64 :=
  have note : Option (Language.Expr Value) :=
    some (.predicate ["@id"] (.compare .eq) (.literal (.long 1)))
  ⟨"Person", note, none, none,
    [.relation "notes" note (some (.literal 1)) (some (.literal 2)) [.field "text" none],
    .relation "notes" note none none [.field "text" none]]⟩

def noteTwiceText : String :=
  "Person | @id == 1 | \x7b notes | @id == 1 | limit 1 page 2 \x7b text \x7d , " ++
    "notes | @id == 1 | \x7b text \x7d \x7d"

/-- The rows of a relation selected twice are put in the place of the first selection, whatever its
page is: here it holds a note though the second page of one note is empty. -/
theorem page_lost : (Schema.empty.after friendsCalls).Reachable ∧
    friendsStore.Models (Schema.empty.after friendsCalls) ∧ ∃ q q' rows all,
      (Schema.empty.after friendsCalls).query noteTwiceText = .ok q ∧
      (Schema.empty.after friendsCalls).compileQuery noteTwiceForm.unpaged = .ok q' ∧
      (read friendsStore [] q.tree).1 = .ok rows ∧ (read friendsStore [] q'.tree).1 = .ok all ∧
      (rows.map fun row ↦ (Data.one row).text) =
        ["\x7b@id=1, notes=[\x7b@id=1, text=tea\x7d], notes=[]\x7d"] ∧
      ((cutRows [] q.tree all).map fun row ↦ (Data.one row).text) =
        ["\x7b@id=1, notes=[], notes=[]\x7d"] := by
  have htext : Language.readQuery noteTwiceText = .ok noteTwiceForm := by
    refine Language.QueryForm.read rfl ⟨[], _, .nil, ?_, rfl⟩
    exact .blank (.plain rfl) <| .blank (.plain rfl) <| .blank (.plain rfl) <|
      .blank (.plain rfl) <| .blank (.literal (.long 1)) <| .blank (.plain rfl) <|
        .blank (.plain rfl) <| .blank (.plain rfl) <|
      .blank (.plain rfl) <| .blank (.plain rfl) <| .blank (.plain rfl) <|
        .blank (.literal (.long 1)) <|
      .blank (.plain rfl) <| .blank (.plain rfl) <| .blank (.literal (.long 1)) <|
        .blank (.plain rfl) <|
      .blank (.literal (.long 2)) <| .blank (.plain rfl) <| .blank (.plain rfl) <|
        .blank (.plain rfl) <|
      .blank (.plain rfl) <| .blank (.plain rfl) <| .blank (.plain rfl) <| .blank (.plain rfl) <|
      .blank (.plain rfl) <| .blank (.literal (.long 1)) <| .blank (.plain rfl) <|
        .blank (.plain rfl) <|
      .blank (.plain rfl) <| .blank (.plain rfl) <| .last (.plain rfl)
  have hread : ((Schema.empty.after friendsCalls).compileQuery noteTwiceForm).toOption.any fun q ↦
      ((Schema.empty.after friendsCalls).compileQuery noteTwiceForm.unpaged).toOption.any fun q' ↦
        (read friendsStore [] q.tree).1.toOption.any fun rows ↦
            (read friendsStore [] q'.tree).1.toOption.any fun all ↦
          (rows.map fun row ↦ (Data.one row).text) ==
            ["\x7b@id=1, notes=[\x7b@id=1, text=tea\x7d], notes=[]\x7d"] &&
            ((cutRows [] q.tree all).map fun row ↦ (Data.one row).text) ==
              ["\x7b@id=1, notes=[], notes=[]\x7d"] := by
    decide +kernel
  obtain ⟨q, hq, hread⟩ := (Option.any_eq_true _ _).mp hread
  obtain ⟨q', hq', hread⟩ := (Option.any_eq_true _ _).mp hread
  obtain ⟨rows, hrows, hread⟩ := (Option.any_eq_true _ _).mp hread
  obtain ⟨all, hall, hread⟩ := (Option.any_eq_true _ _).mp hread
  obtain ⟨hanswered, hpaged⟩ := Bool.and_eq_true_iff.mp hread
  have hq := (Schema.query_eq_ok htext).mpr (Except.toOption_eq_some_iff.mp hq)
  exact ⟨⟨friendsCalls, rfl⟩, by
    decide +kernel, q, q', rows, all, hq, Except.toOption_eq_some_iff.mp hq',
    Except.toOption_eq_some_iff.mp hrows, Except.toOption_eq_some_iff.mp hall,
    beq_iff_eq.mp hanswered, beq_iff_eq.mp hpaged⟩

end Mapping

end EntityStore
