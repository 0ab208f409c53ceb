import EntityStore.Proofs.Compile.Places
import EntityStore.Proofs.Instruction.Path

/-!
Where the rows of a create stand in its tree. Every row is reached over one path of owned references
and indexed collections (`Draft.Place.located`), in the order of the instructions
(`Draft.Place.located_places`); following the parts of a path in the tree leads to the row whose
path they denote, and to no other (`Draft.Place.follow?_eq_some`).
-/

set_option autoImplicit false

namespace EntityStore

/-- The names of properties may stand in paths. -/
theorem Entity.WellFormed.isName_path {e : Entity} (he : e.WellFormed) {p : Property}
    (hp : p ∈ e.properties) :
    PathSegment.IsName p.name.toList := by
  rcases he.named p hp with hname | hname | hname
  · unfold isName at hname
    split at hname
    · cases hname
    · next c cs hcs =>
      rw [Bool.and_eq_true, List.all_eq_true] at hname
      refine ⟨c, cs, hcs, ?_, fun d hd ↦ ?_⟩
      · rcases (Bool.or_eq_true ..).mp hname.1 with hc | hc <;> simp [PathSegment.isStart, hc]
      · rcases (Bool.or_eq_true ..).mp (hname.2 d hd) with hpart | hpart <;>
          simp [PathSegment.isPart, hpart]
  · exact hname ▸ ⟨'@', ['i', 'd'], rfl, rfl, List.all_eq_true.mp rfl⟩
  · exact hname ▸ ⟨'@', ['p', 'a', 'r', 'e', 'n', 't'], rfl, rfl, List.all_eq_true.mp rfl⟩

namespace Draft

/-- The rows that an entry stands for, each with the step that leads to it. -/
def entrySteps (owner next : Nat) (name : String) : Draft → List (PathSegment × Place)
  | .input _ => []
  | .absent => []
  | .single entity row => [(⟨name, none⟩, ⟨entity, some (.pending owner), row, next⟩)]
  | .several entity rows =>
    (rowsChildren entity owner next rows).zipIdx.map fun (y, i) ↦ (⟨name, some i⟩, y)

def rowSteps (owner : Nat) : Nat → RowDraft → List (PathSegment × Place)
  | _, [] => []
  | next, (name, d) :: rest =>
    entrySteps owner next name d ++ rowSteps owner (numberEntry owner next name d).next rest

/-- The rows that a row owns, each with the step that leads to it. -/
def Place.steps (x : Place) : List (PathSegment × Place) := rowSteps x.slot (x.slot + 1) x.row

/-- An entry whose name a later one has too is a value. -/
def Once (row : RowDraft) : Prop :=
  row.Pairwise fun x y ↦ x.1 = y.1 → x.2.isValue

section

variable {owner next : Nat} {name : String} {d : Draft} {row : RowDraft} {t : RefTree} {i : Nat}

theorem entrySteps_places :
    (entrySteps owner next name d).map Prod.snd = entryChildren owner next d := by
  cases d with
  | several entity rows =>
    unfold entrySteps entryChildren
    rw [List.map_map]
    exact List.zipIdx_map_fst 0 _
  | _ => rfl

theorem rowSteps_places :
    (rowSteps owner next row).map Prod.snd = (rowChildren owner next row).flatMap Prod.snd := by
  induction row generalizing next with
  | nil => rfl
  | cons x rest ih =>
    obtain ⟨name, d⟩ := x
    rw [rowSteps, rowChildren, List.map_append, List.flatMap_cons, ih, entrySteps_places]

theorem numberRows_trees {entity : String} {rows : List RowDraft} :
    (numberRows entity owner next rows).trees =
      (rowsChildren entity owner next rows).map Place.tree := by
  induction rows generalizing next with
  | nil => rfl
  | cons row rest ih =>
    rw [numberRows, rowsChildren, List.map_cons, ← ih]
    rfl

/-- The single rows in the tree of a row are those that steps without an index lead to. -/
theorem mem_singles : (name, t) ∈ (numberRow owner next row).singles ↔
    ∃ c ∈ rowSteps owner next row, c.1 = ⟨name, none⟩ ∧ c.2.tree = t := by
  have hentry (other : String) (d : Draft) (next : Nat) :
      (name, t) ∈ (numberEntry owner next other d).singles ↔
      ∃ c ∈ entrySteps owner next other d, c.1 = ⟨name, none⟩ ∧ c.2.tree = t := by
    cases d with
    | single entity row => simp [numberEntry, entrySteps, Place.tree, Place.numbered, eq_comm]
    | several entity rows => simp [numberEntry, entrySteps]
    | _ => simp [numberEntry, entrySteps, Numbered.none]
  induction row generalizing next with
  | nil => simp [numberRow, rowSteps, Numbered.none]
  | cons x rest ih =>
    obtain ⟨other, d⟩ := x
    rw [numberRow_cons, Numbered.append, rowSteps]
    simp only [List.mem_append, or_and_right, exists_or, hentry, ih]

/-- The elements of the collections in the tree of a row are those that steps with an index lead
to. -/
theorem mem_collections :
    (∃ ts, (name, ts) ∈ (numberRow owner next row).collections ∧ ts[i]? = some t) ↔
    ∃ c ∈ rowSteps owner next row, c.1 = ⟨name, some i⟩ ∧ c.2.tree = t := by
  have hentry (other : String) (d : Draft) (next : Nat) :
      (∃ ts, (name, ts) ∈ (numberEntry owner next other d).collections ∧ ts[i]? = some t) ↔
        ∃ c ∈ entrySteps owner next other d, c.1 = ⟨name, some i⟩ ∧ c.2.tree = t := by
    cases d with
    | single entity row => simp [numberEntry, entrySteps]
    | several entity rows =>
      simp only [numberEntry, entrySteps, numberRows_trees, List.mem_singleton, Prod.mk.injEq]
      constructor
      · rintro ⟨ts, ⟨rfl, rfl⟩, hget⟩
        rw [List.getElem?_map, Option.map_eq_some_iff] at hget
        obtain ⟨y, hy, rfl⟩ := hget
        exact ⟨(_, y), List.mem_map.mpr ⟨(y, i), List.mem_zipIdx_iff_getElem?.mpr hy, rfl⟩, rfl,
          rfl⟩
      · rintro ⟨c, hc, hname, rfl⟩
        obtain ⟨⟨y, j⟩, hy, rfl⟩ := List.mem_map.mp hc
        obtain ⟨rfl, hindex⟩ := PathSegment.mk.inj hname
        cases hindex
        exact ⟨_, ⟨rfl, rfl⟩, by rw [List.getElem?_map, List.mem_zipIdx_iff_getElem?.mp hy]; rfl⟩
    | _ => simp [numberEntry, entrySteps, Numbered.none]
  induction row generalizing next with
  | nil => simp [numberRow, rowSteps, Numbered.none]
  | cons x rest ih =>
    obtain ⟨other, d⟩ := x
    rw [numberRow_cons, Numbered.append, rowSteps]
    simp only [List.mem_append, or_and_right, exists_or, hentry, ih]

theorem numberRow_relations : ∀ other ∈ (numberRow owner next row).singles.map Prod.fst ++
    (numberRow owner next row).collections.map Prod.fst, other ∈ row.map Prod.fst := by
  induction row generalizing next with
  | nil => simp [numberRow, Numbered.none]
  | cons x rest ih =>
    obtain ⟨name, d⟩ := x
    have ih := @ih (numberEntry owner next name d).next
    intro other hother
    rw [numberRow_cons, Numbered.append, List.map_append, List.map_append] at hother
    rw [List.map_cons, List.mem_cons]
    cases d with
    | input v => exact .inr (ih other hother)
    | absent => exact .inr (ih other hother)
    | single entity row => exact (List.mem_cons.mp hother).imp_right (ih other)
    | several entity rows =>
      exact (List.mem_cons.mp (List.perm_middle.mem_iff.mp hother)).imp_right (ih other)

theorem numberRow_nodup (h : Once row) : ((numberRow owner next row).singles.map Prod.fst ++
    (numberRow owner next row).collections.map Prod.fst).Nodup := by
  induction row generalizing next with
  | nil => exact .nil
  | cons x rest ih =>
    obtain ⟨name, d⟩ := x
    obtain ⟨hfirst, hrest⟩ := List.pairwise_cons.mp h
    have ih := @ih (numberEntry owner next name d).next hrest
    have hnew (howned : d.isValue = false) : name ∉ rest.map Prod.fst := by
      intro hmem
      obtain ⟨y, hy, rfl⟩ := List.mem_map.mp hmem
      rw [hfirst y hy rfl] at howned
      cases howned
    rw [numberRow_cons, Numbered.append, List.map_append, List.map_append]
    cases d with
    | input v => exact ih
    | absent => exact ih
    | single entity row =>
      exact List.nodup_cons.mpr ⟨fun hmem ↦ hnew rfl (numberRow_relations _ hmem), ih⟩
    | several entity rows =>
      exact List.nodup_middle.mpr
        (List.nodup_cons.mpr ⟨fun hmem ↦ hnew rfl (numberRow_relations _ hmem), ih⟩)

end

namespace Place

variable {x y : Place} {t : RefTree} {seg : PathSegment} {segs : List PathSegment} {name : String}

theorem child_of_step {c : PathSegment × Place} (h : c ∈ x.steps) : c.2.Child x := by
  have hmem : c.2 ∈ x.steps.map Prod.snd := List.mem_map_of_mem h
  rw [steps, rowSteps_places] at hmem
  exact List.mem_flatMap.mp hmem

theorem getElem?_lookup {l : List (String × List RefTree)} (h : (l.map Prod.fst).Nodup) {i : Nat} :
    ((l.lookup name).getD [])[i]? = some t ↔ ∃ ts, (name, ts) ∈ l ∧ ts[i]? = some t := by
  simp only [← lookup_eq_some_iff h]
  cases l.lookup name <;> simp

theorem numbered_nodup (h : Once x.row) :
    (x.numbered.singles.map Prod.fst ++ x.numbered.collections.map Prod.fst).Nodup :=
  numberRow_nodup h

theorem elements_eq_some (h : Once x.row) {i : Nat} :
    (x.tree.elements name)[i]? = some t ↔ ∃ c ∈ x.steps, c.1 = ⟨name, some i⟩ ∧ c.2.tree = t :=
  (getElem?_lookup (List.nodup_append.mp (numbered_nodup h)).2.1).trans mem_collections

/-- One step in the tree of a row leads to the row it owns whose step is denoted. -/
theorem step?_eq_some (h : Once x.row) :
    x.tree.step? seg = some t ↔ ∃ c ∈ x.steps, seg.Denotes c.1 ∧ c.2.tree = t := by
  obtain ⟨hsingles, hcollections, hdisjoint⟩ := List.nodup_append.mp (numbered_nodup h)
  obtain ⟨name, index⟩ := seg
  cases index with
  | some i => simpa [RefTree.step?, PathSegment.Denotes, eq_comm] using elements_eq_some h
  | none =>
    have hsingle : x.numbered.singles.lookup name = some t ↔
        ∃ c ∈ x.steps, c.1 = ⟨name, none⟩ ∧ c.2.tree = t :=
      (lookup_eq_some_iff hsingles).trans mem_singles
    have hfirst : (x.tree.elements name)[0]? = some t ↔
        ∃ c ∈ x.steps, c.1 = ⟨name, some 0⟩ ∧ c.2.tree = t :=
      elements_eq_some h
    have hdenotes (c : PathSegment) : (PathSegment.mk name none).Denotes c ↔ c = ⟨name, none⟩ ∨
        c = ⟨name, some 0⟩ := by
      simp [PathSegment.Denotes, eq_comm]
    -- a name with a single row has no elements
    have hone (u : RefTree) (hu : x.numbered.singles.lookup name = some u) :
        (x.tree.elements name)[0]? = none := by
      refine Option.eq_none_iff_forall_ne_some.mpr fun v hv ↦ ?_
      obtain ⟨ts, hts, -⟩ := (getElem?_lookup hcollections).mp hv
      exact hdisjoint name (List.mem_map_of_mem ((lookup_eq_some_iff hsingles).mp hu)) name
        (List.mem_map_of_mem hts) rfl
    simp only [hdenotes, or_and_right, and_or_left, exists_or, ← hsingle, ← hfirst]
    change (x.numbered.singles.lookup name).or (x.tree.elements name)[0]? = some t ↔ _
    cases hlookup : x.numbered.singles.lookup name with
    | none => simp
    | some u => simp [hone u hlookup]

/-- One step more in front of the path to a row. -/
def via (seg : PathSegment) (l : List PathSegment × Place) :
    List PathSegment × Place := (seg :: l.1, l.2)

/-- A row and all below it, each with the path that leads to it. -/
def located (x : Place) : List (List PathSegment × Place) :=
  ([], x) :: x.steps.attach.flatMap fun c ↦ c.1.2.located.map (via c.1.1)
termination_by sizeOf x.row
decreasing_by exact (child_of_step c.2).sizeOf_lt

theorem located_eq (x : Place) :
    x.located = ([], x) :: x.steps.flatMap fun c ↦ c.2.located.map (via c.1) := by
  rw [located]
  conv_rhs => rw [← List.attach_map_subtype_val x.steps, List.flatMap_map]

theorem mem_located {l : List PathSegment × Place} : l ∈ x.located ↔
    l = ([], x) ∨ ∃ c ∈ x.steps, ∃ m ∈ c.2.located, l = via c.1 m := by
  rw [located_eq, List.mem_cons, List.mem_flatMap]
  simp only [List.mem_map, eq_comm]

/-- The rows stand in the order of the instructions. -/
theorem located_places (x : Place) : x.located.map Prod.snd = x.places := by
  induction x using Place.induction with
  | step x ih =>
    have hbelow : (x.steps.flatMap fun c ↦ c.2.located.map (via c.1)).map Prod.snd =
        (x.steps.map Prod.snd).flatMap places := by
      rw [List.map_flatMap, List.flatMap_map]
      refine List.flatMap_congr fun c hc ↦ ?_
      rw [List.map_map, ← ih c.2 (child_of_step hc)]
      rfl
    rw [located_eq, List.map_cons, hbelow, places, rowPlaces_eq, steps,
      rowSteps_places, List.flatMap_assoc]

theorem mem_places_of_located {l : List PathSegment × Place} (h : l ∈ x.located) : l.2 ∈ x.places :=
  located_places x ▸ List.mem_map_of_mem h

/-- Following the parts of a path leads to the row whose path they denote. -/
theorem follow?_eq_some (h : ∀ y ∈ x.places, Once y.row) :
    x.tree.follow? segs = some t ↔ ∃ l ∈ x.located, List.Forall₂ PathSegment.Denotes segs l.1 ∧
    l.2.tree = t := by
  induction segs generalizing x with
  | nil =>
    rw [RefTree.follow?, Option.some_inj]
    constructor
    · rintro rfl
      exact ⟨([], x), mem_located.mpr (.inl rfl), .nil, rfl⟩
    · rintro ⟨l, hl, hpath, rfl⟩
      rcases mem_located.mp hl with rfl | ⟨c, -, m, -, rfl⟩
      · rfl
      · cases hpath
  | cons seg segs ih =>
    have hbelow {c : PathSegment × Place} (hc : c ∈ x.steps) :=
      ih (x := c.2) fun y hy ↦ h y (mem_places.mpr (.inr ⟨c.2, child_of_step hc, hy⟩))
    rw [RefTree.follow?, Option.bind_eq_some_iff]
    constructor
    · rintro ⟨u, hu, ht⟩
      obtain ⟨c, hc, hseg, rfl⟩ := (step?_eq_some (h x x.mem_places_self)).mp hu
      obtain ⟨m, hm, hsegs, rfl⟩ := (hbelow hc).mp ht
      exact ⟨_, mem_located.mpr (.inr ⟨c, hc, m, hm, rfl⟩), .cons hseg hsegs, rfl⟩
    · rintro ⟨l, hl, hpath, rfl⟩
      rcases mem_located.mp hl with rfl | ⟨c, hc, m, hm, rfl⟩
      · cases hpath
      · obtain ⟨hseg, hsegs⟩ := List.forall₂_cons.mp hpath
        exact ⟨c.2.tree, (step?_eq_some (h x x.mem_places_self)).mpr ⟨c, hc, hseg, rfl⟩,
          (hbelow hc).mpr ⟨m, hm, hsegs, rfl⟩⟩

/-- The path of a row is that of its owner and one more step. -/
theorem located_owner {l : List PathSegment × Place} (h : l ∈ x.located) :
    l = ([], x) ∨ ∃ m ∈ x.located, ∃ c ∈ m.2.steps, l = (m.1 ++ [c.1], c.2) := by
  induction x using Place.induction generalizing l with
  | step x ih =>
    rcases mem_located.mp h with rfl | ⟨c, hc, l, hl, rfl⟩
    · exact .inl rfl
    · refine .inr ?_
      rcases ih c.2 (child_of_step hc) hl with rfl | ⟨m, hm, c', hc', rfl⟩
      · exact ⟨([], x), mem_located.mpr (.inl rfl), c, hc, rfl⟩
      · exact ⟨_, mem_located.mpr (.inr ⟨c, hc, m, hm, rfl⟩), c', hc', rfl⟩

/-- A row is told by its slot. -/
theorem located_slot_inj {l m : List PathSegment × Place} (hl : l ∈ x.located) (hm : m ∈ x.located)
    (hslot : l.2.slot = m.2.slot) : l = m := by
  have hnodup : (x.located.map fun l ↦ l.2.slot).Nodup := by
    have hslots := x.places_consecutive.slots
    rw [← located_places, List.map_map] at hslots
    exact hslots ▸ List.nodup_range'
  exact List.inj_on_of_nodup_map hnodup hl hm hslot

theorem slot_eq_of_tree {y z : Place} (h : y.tree = z.tree) : y.slot = z.slot :=
  RowRef.pending.inj (congrArg RefTree.root h)

/-- The path of a row is followed to its tree. -/
theorem follow?_located (h : ∀ y ∈ x.places, Once y.row) {l : List PathSegment × Place}
    (hl : l ∈ x.located) :
    x.tree.follow? l.1 = some l.2.tree :=
  (follow?_eq_some h).mpr ⟨l, hl, List.forall₂_refl l.1, rfl⟩

/-- No two rows stand at one path. -/
theorem located_path_nodup (h : ∀ y ∈ x.places, Once y.row) : (x.located.map Prod.fst).Nodup := by
  have hnodup : x.located.Nodup := by
    have hslots := x.places_consecutive.slots
    rw [← located_places] at hslots
    exact .of_map _ (.of_map _ (hslots ▸ List.nodup_range'))
  refine hnodup.map_on fun l hl m hm hpath ↦ located_slot_inj hl hm (slot_eq_of_tree ?_)
  have hfollow := follow?_located h hm
  rw [← hpath, follow?_located h hl] at hfollow
  exact Option.some.inj hfollow

/-! ### Names -/

theorem step_entry {c : PathSegment × Place} (h : c ∈ x.steps) : ∃ d, (c.1.name, d) ∈ x.row := by
  have hentry {owner next : Nat} {name : String} {d : Draft}
      (h : c ∈ entrySteps owner next name d) : c.1.name = name := by
    cases d with
    | single entity row =>
      obtain rfl := List.mem_singleton.mp h
      rfl
    | several entity rows =>
      obtain ⟨y, -, rfl⟩ := List.mem_map.mp h
      rfl
    | _ => exact absurd h List.not_mem_nil
  have hrow {owner next : Nat} {row : RowDraft} (h : c ∈ rowSteps owner next row) :
      ∃ d, (c.1.name, d) ∈ row := by
    induction row generalizing next with
    | nil => exact absurd h List.not_mem_nil
    | cons y rest ih =>
      obtain ⟨name, d⟩ := y
      rcases List.mem_append.mp h with h | h
      · exact ⟨d, hentry h ▸ List.mem_cons_self⟩
      · obtain ⟨d', hd'⟩ := ih h
        exact ⟨d', List.mem_cons_of_mem _ hd'⟩
  exact hrow h

variable {s : Schema} {e : Entity}

theorem Fits.isName_step (hs : s.WellFormed) (h : x.Fits s e) {c : PathSegment × Place}
    (hc : c ∈ x.steps) :
    PathSegment.IsName c.1.name.toList := by
  obtain ⟨d, hd⟩ := step_entry hc
  obtain ⟨p, hp, hname, -⟩ := entriesFit_iff.mp h.entries _ hd
  have hproperty := (hs.entity e h.mem).isName_path hp
  rwa [hname] at hproperty

theorem Fits.once (h : x.Fits s e) : ∀ y ∈ x.places, Once y.row := by
  intro y hy
  obtain ⟨d, hd⟩ := h.places y hy
  exact hd.regular.once

theorem Fits.isName_located (hs : s.WellFormed) (h : x.Fits s e) {l : List PathSegment × Place}
    (hl : l ∈ x.located) :
    ∀ seg ∈ l.1, PathSegment.IsName seg.name.toList := by
  induction x using Place.induction generalizing l e with
  | step x ih =>
    rcases mem_located.mp hl with rfl | ⟨c, hc, m, hm, rfl⟩
    · exact nofun
    · obtain ⟨c', hc', hmem⟩ := child_of_step hc
      obtain ⟨p, -, -, -, d, hd⟩ := h.child hc' hmem
      exact List.forall_mem_cons.mpr ⟨h.isName_step hs hc, ih c.2 (child_of_step hc) hd hm⟩

/-- The collections of a row have names that may stand in paths. -/
theorem Fits.isName_elements (hs : s.WellFormed) (h : x.Fits s e)
    (hsome : x.tree.elements name ≠ []) :
    PathSegment.IsName name.toList := by
  obtain ⟨t, ts, heq⟩ := List.exists_cons_of_ne_nil hsome
  have hfirst : (x.tree.elements name)[0]? = some t := by rw [heq]; rfl
  obtain ⟨c, hc, hstep, -⟩ := (elements_eq_some (h.once x x.mem_places_self)).mp hfirst
  have hname := h.isName_step hs hc
  rwa [hstep] at hname

/-! ### Elements -/

/-- The elements of a collection of the topmost row are counted by the paths of one step that lead
to them. -/
theorem lt_count (h : Once x.row) {i : Nat} :
    i < x.tree.count name ↔ [⟨name, some i⟩] ∈ x.located.map Prod.fst := by
  have hsome : i < x.tree.count name ↔ ∃ t, (x.tree.elements name)[i]? = some t := by
    rw [← Option.isSome_iff_exists, isSome_getElem?]
    rfl
  rw [hsome]
  simp only [elements_eq_some h, List.mem_map]
  constructor
  · rintro ⟨t, c, hc, hstep, -⟩
    exact ⟨_, mem_located.mpr (.inr ⟨c, hc, ([], c.2), mem_located.mpr (.inl rfl), rfl⟩), by
      rw [via, hstep]⟩
  · rintro ⟨l, hl, hpath⟩
    rcases mem_located.mp hl with rfl | ⟨c, hc, m, -, rfl⟩
    · cases hpath
    · exact ⟨c.2.tree, c, hc, (List.cons.inj hpath).1, rfl⟩

end Place

end Draft

end EntityStore
