import EntityStore.Proofs.Compile.Transaction
import EntityStore.Proofs.Mapping.Placed

/-!
What stands in the content once the rows of a create are written: each row as its place in the
create says, and under a row, for each of its owned relations, the rows that the create lists there
and no others (`Place.created`). A row of an entity that owns itself may name itself as its owner;
it is then listed under itself.
-/

set_option autoImplicit false

namespace EntityStore

open Draft (Place)
open Mapping (writeInBatch)

/-! ### Stores with their content -/

/-- A store with foreign keys on that batches lead to: what it shows, the numbers that its rows were
given, and that references hold. -/
structure Store.Stands (s : Schema) (given : List (String × Int64)) (store : Store) : Prop where
  shows : ∃ top, store.Shows s (store.content s) top ∧ (store.content s).Given given top
  refers : store.enforced ∧ store.Keyed ∧ store.Refers

namespace Store

variable {s : Schema} {given : List (String × Int64)} {store : Store}
  {batch : List Instruction} {t t' : Session}

theorem Arises.stands (hs : s.WellFormed) (hdistinct : s.Distinct) (h : store.Arises s true given) :
    store.Stands s given := by
  obtain ⟨c, top, -, hshows, hgiven⟩ := h.shows hs hdistinct
  obtain rfl := hshows.content
  exact ⟨⟨top, hshows, hgiven⟩, h.refers hs hdistinct⟩

theorem Stands.shaped (h : store.Stands s given) : store.Shaped s := by
  obtain ⟨_, hshows, _⟩ := h.shows
  exact hshows.shaped

theorem Stands.closed (hs : s.WellFormed) (h : store.Stands s given) : (store.content s).Closed s :=
  h.shaped.closed hs h.refers.2.2

theorem Stands.mem_given (h : store.Stands s given) {d : String} {n : Int64}
    (hrow : ((store.content s).row d n).isSome) : (d, n) ∈ given := by
  obtain ⟨_, _, hgiven⟩ := h.shows
  exact hgiven.row d n hrow

/-- Writing a batch leads to such a store again, by the steps of its instructions. -/
theorem Stands.writeAll (hs : s.WellFormed) (h : t.store.Stands s given)
    (hbatch : ∀ i ∈ batch, i.Shaped s) (hrun : (batch.forM (writeInBatch s)).run t = (.ok (), t')) :
    t'.store.Stands s (given ++ batch.flatMap (·.numbered t'.slots)) ∧
      (t.store.content s).Steps s given batch t.slots (t'.store.content s) t'.slots := by
  obtain ⟨top, hshows, hgiven⟩ := h.shows
  obtain ⟨c', top', hsteps, hshows', hgiven'⟩ := Mapping.writeAll_ok hs hbatch hshows hgiven hrun
  obtain rfl := hshows'.content
  have hkept :=
    Mapping.refers_keptByStatements.writeAll hs (fun i hi ↦ (hbatch i hi).plain) t h.refers
  rw [hrun] at hkept
  exact ⟨⟨⟨top', hshows', hgiven'⟩, hkept.1⟩, hsteps⟩

end Store

/-! ### Owners -/

/-- An entity has one owner at most. -/
theorem Schema.WellFormed.owns_unique {s : Schema} (hs : s.WellFormed) {d : Entity}
    (hd : d ∈ s.entities) {owner owner' : String} {p p' : Property} (h : s.Owns owner p d.name)
    (h' : s.Owns owner' p' d.name) :
    owner = owner' ∧ p = p' := by
  obtain ⟨own, hown⟩ := hs.ownership d hd
  cases hown with
  | free _ hnone _ => exact absurd h (hnone _ _)
  | owned _ honly _ _ =>
    obtain ⟨rfl, rfl⟩ := (honly _ _).mp h
    obtain ⟨rfl, rfl⟩ := (honly _ _).mp h'
    exact ⟨rfl, rfl⟩

/-- The owner that a row names is there. -/
theorem Content.Closed.exists_owner {s : Schema} (hs : s.WellFormed) {c : Content}
    (h : c.Closed s) {d : Entity} (hd : d ∈ s.entities) {owner : String} {p : Property}
    (howns : s.Owns owner p d.name) {m n : Int64} {x : Entry} (hrow : c.row d.name m = some x)
    (hparent : x.parent = some n) : (c.row owner n).isSome := by
  obtain ⟨own, hown⟩ := hs.ownership d hd
  cases hown with
  | free _ hnone _ => exact absurd howns (hnone _ _)
  | owned _ honly hback _ =>
    obtain ⟨rfl, rfl⟩ := (honly _ _).mp howns
    obtain ⟨hq, -⟩ := (hback _).mpr rfl
    exact h.owner d hd _ hq _ rfl rfl m x n hrow hparent

/-- The number of a row that is there. -/
def Slots.number (slots : Slots) (r : RowRef) : Int64 := (slots.id? r).getD 0

theorem Slots.number_eq {slots : Slots} {r : RowRef} {n : Int64} (h : slots.id? r = some n) :
    slots.number r = n := by
  unfold number
  rw [h]
  rfl

namespace Draft.Place

/-- The number of the row, once it is there. -/
def number (slots : Slots) (x : Place) : Int64 := slots.number x.ref

/-- Whether a row is its own owner over a relation. -/
def ownsItself (s : Schema) (slots : Slots) (x : Place) (relation : String) : Bool :=
  ((s.get? x.entity).bind (·.get? relation)).any (·.owned? == some x.entity) &&
    slots.owner? x.inputs == some (x.number slots)

/-- The rows that a row owns over a relation: those under it, after the row itself if this is its
own owner. -/
def listed (s : Schema) (slots : Slots) (x : Place) (relation : String) : List Place :=
  if x.ownsItself s slots relation then x :: x.under relation else x.under relation

/-- The rows of a create as they stand in the content. -/
structure Created (s : Schema) (c : Content) (slots : Slots) (x : Place) : Prop where
  placed : ∀ y ∈ x.places, ∃ e, y.Fits s e ∧ c.Placed slots e y.ref y.inputs (y.number slots)
  ascending : x.places.Pairwise fun y z ↦ y.entity = z.entity → y.number slots < z.number slots
  owned : ∀ y ∈ x.places, ∀ e, y.Fits s e → ∀ p ∈ e.properties, ∀ d ∈ s.entities, p.relation? =
    some (d.name, .owned) → ∀ m, (∃ z, c.row d.name m = some z ∧ z.parent = some (y.number slots)) ↔
      ∃ z ∈ y.listed s slots p.name, z.number slots = m

variable {s : Schema} {c : Content} {slots : Slots} {given : List (String × Int64)}
  {x y z : Place} {d e : Entity} {p : Property} {t t' : Session}

theorem Fits.owns (h : x.Fits s e) (hp : p ∈ e.properties) {target : String}
    (howned : p.relation? = some (target, .owned)) : s.Owns x.entity p target :=
  ⟨⟨e, h.mem, h.name, hp⟩, Property.owned?_eq_some_iff.mpr howned⟩

/-- A row that another owns is given this as its owner. -/
theorem Child.owner?_eq (h : y.Child x) : slots.owner? y.inputs = slots.id? x.ref := by
  unfold Slots.owner? inputs
  rw [h.owner_eq]
  rfl

/-- A row is listed under the relation that owns its entity. -/
theorem Fits.mem_under (hs : s.WellFormed) (h : x.Fits s e) (hp : p ∈ e.properties)
    (hd : d ∈ s.entities) (howned : p.relation? = some (d.name, .owned)) (hchild : y.Child x) :
    y ∈ x.under p.name ↔ y.entity = d.name := by
  obtain ⟨c, hc, hy⟩ := hchild
  obtain ⟨q, hq, hname, hrelation, -⟩ := h.child hc hy
  rw [Place.mem_under]
  constructor
  · rintro ⟨c', hc', hname', hy'⟩
    obtain ⟨q', hq', hqname, hrelation', -⟩ := h.child hc' hy'
    obtain rfl := (hs.entity e h.mem).indexed.eq_of_name_eq hq' hp (hqname.trans hname')
    exact (Prod.mk.inj (Option.some.inj (hrelation'.symm.trans howned))).1
  · intro hentity
    rw [hentity] at hrelation
    obtain ⟨-, rfl⟩ := hs.owns_unique hd (h.owns hp howned) (h.owns hq hrelation)
    exact ⟨c, hc, hname.symm, hy⟩

theorem mem_listed {relation : String} :
    z ∈ y.listed s slots relation ↔ z ∈ y.under relation ∨
    y.ownsItself s slots relation ∧ z = y := by
  unfold listed
  split
  · next hself => simp [hself, or_comm]
  · next hself => simp [hself]

theorem listed_sublist (x : Place) (relation : String) :
    (x.listed s slots relation).Sublist x.places := by
  unfold listed
  split
  · exact x.under_sublist relation
  · exact (List.sublist_cons_self _ _).trans (x.under_sublist relation)

/-- A row is its own owner over a relation to its entity. -/
theorem Fits.ownsItself_iff (hs : s.WellFormed) (h : x.Fits s e)
    (hp : p ∈ e.properties) {target : String} (howned : p.relation? = some (target, .owned)) :
      x.ownsItself s slots p.name ↔ x.entity = target ∧
      slots.owner? x.inputs = some (x.number slots) := by
  unfold ownsItself
  rw [(Schema.get?_eq_some_iff hs).mpr ⟨h.mem, h.name⟩, Option.bind_some,
    (Entity.get?_eq_some_iff (hs.entity e h.mem)).mpr ⟨hp, rfl⟩, Option.any_some,
    Property.owned?_eq_some_iff.mpr howned, Bool.and_eq_true, beq_iff_eq,
    beq_iff_eq, Option.some.injEq]
  exact and_congr_left fun _ ↦ eq_comm

/-- The rows that a row owns are rows of the create, of the entity that the relation leads to. -/
theorem Fits.of_listed (hs : s.WellFormed) (h : y.Fits s e) (hp : p ∈ e.properties)
    (hd : d ∈ s.entities) (howned : p.relation? = some (d.name, .owned)) (hy : y ∈ x.places)
    (hz : z ∈ y.listed s slots p.name) :
    z ∈ x.places ∧ z.Fits s d := by
  rcases mem_listed.mp hz with hunder | ⟨hself, rfl⟩
  · have hchild := child_of_under hunder
    obtain ⟨c, hc, hzc⟩ := id hchild
    obtain ⟨-, -, -, -, f, hf⟩ := h.child hc hzc
    obtain rfl :=
      hs.eq_of_name_eq hf.mem hd (hf.name.trans ((h.mem_under hs hp hd howned hchild).mp hunder))
    exact ⟨hchild.mem_places hy, hf⟩
  · obtain ⟨hentity, -⟩ := (h.ownsItself_iff hs hp howned).mp hself
    obtain rfl := hs.eq_of_name_eq h.mem hd (h.name.trans hentity)
    exact ⟨hy, h⟩

theorem number_eq {n : Int64} (h : slots.id? x.ref = some n) : x.number slots = n :=
  Slots.number_eq h

theorem creates_instructions (ys : List Place) : ∀ i ∈ ys.map instruction, i.creates := by
  intro i hi
  obtain ⟨y, -, rfl⟩ := List.mem_map.mp hi
  rfl

/-- Rows of one entity whose numbers ascend are told apart by these. -/
theorem eq_of_number_eq {ys : List Place}
    (h : ys.Pairwise fun y z ↦ y.entity = z.entity → y.number slots < z.number slots)
    (hy : y ∈ ys) (hz : z ∈ ys) (hentity : y.entity = z.entity)
    (hnumber : y.number slots = z.number slots) : y = z := by
  refine List.Pairwise.forall_of_forall_of_flip
    (R := fun y z : Place ↦ y.entity = z.entity → y.number slots = z.number slots →
      y = z) (fun _ _ _ _ ↦ rfl)
    (h.imp fun hless hentity hnumber ↦ ?_) (h.imp fun hless hentity hnumber ↦ ?_)
      hy hz hentity hnumber
  · exact absurd hnumber (Int64.ne_of_lt (hless hentity))
  · exact absurd hnumber.symm (Int64.ne_of_lt (hless hentity.symm))

section

variable (hs : s.WellFormed) (h : t.store.Stands s given)
  (hshaped : ∀ i ∈ x.places.map instruction, i.Shaped s)
  (hrun : ((x.places.map instruction).forM (writeInBatch s)).run t = (.ok (), t'))

include hs h hshaped hrun

/-- Every row of a create is placed, under a number greater than all that its entity was given
before. -/
theorem placed_of_writeAll (hfits : x.Fits s e) (hy : y ∈ x.places) : ∃ d, y.Fits s d ∧
    (t'.store.content s).Placed t'.slots d y.ref y.inputs (y.number t'.slots) ∧
      ∀ n, (y.entity, n) ∈ given → n < y.number t'.slots := by
  obtain ⟨-, hsteps⟩ := h.writeAll hs hshaped hrun
  obtain ⟨d, hd, hname, id, hplaced, hless⟩ :=
    hsteps.placed (creates_instructions x.places) (List.mem_map_of_mem hy) rfl
  obtain ⟨d', hd'⟩ := hfits.places y hy
  obtain rfl := hs.eq_of_name_eq hd'.mem hd (hd'.name.trans hname.symm)
  obtain rfl := number_eq hplaced.number
  exact ⟨d', hd', hplaced, hless⟩

/-- The topmost row of a create is written first, so that the owner it names cannot be a row below
it. -/
theorem eq_of_owner? (hy : y ∈ x.places) (howns : s.Owns y.entity p x.entity)
    (howner : t'.slots.owner? x.inputs = some (y.number t'.slots)) : y = x := by
  rcases List.mem_cons.mp hy with hx | hy
  · exact hx
  obtain ⟨⟨⟩, u, hfirst, hrest⟩ :=
      Run.run_bind_ok.mp (show (writeInBatch s x.instruction >>= fun _ ↦
    ((rowPlaces x.slot (x.slot + 1) x.row).map instruction).forM (writeInBatch s)).run t = _ from
      hrun)
  have hone : ([x.instruction].forM (writeInBatch s)).run t = (.ok (), u) :=
    Run.run_bind_ok.mpr ⟨⟨⟩, u, hfirst, rfl⟩
  obtain ⟨hi, hothers⟩ := List.forall_mem_cons.mp hshaped
  obtain ⟨hstands, hstep⟩ := h.writeAll hs (List.forall_mem_singleton.mpr hi) hone
  obtain ⟨-, hsteps⟩ := hstands.writeAll hs hothers hrest
  obtain ⟨d, hd, hname, id, hplaced, -⟩ :=
    hstep.placed (List.forall_mem_singleton.mpr rfl) (List.mem_singleton_self _) rfl
  obtain ⟨f, hf, hfname, id', hplaced', hless⟩ :=
    hsteps.placed (creates_instructions _) (List.mem_map_of_mem hy) rfl
  obtain rfl := number_eq hplaced'.number
  -- the owner is there once the row is, and so before all rows below it
  rw [hsteps.extends.owner?_eq hplaced.settled] at howner
  rw [show x.entity = d.name from hname.symm] at howns
  have hthere := (hstands.closed hs).exists_owner hs hd howns hplaced.row howner
  exact absurd (hless _ (hstands.mem_given hthere)) Int64.lt_irrefl

/-- Writing the instructions of a create leaves its rows as they are told. -/
theorem created (hfits : x.Fits s e) : x.Created s (t'.store.content s) t'.slots := by
  have hplaced {y : Place} (hy : y ∈ x.places) := placed_of_writeAll hs h hshaped hrun hfits hy
  obtain ⟨-, hsteps⟩ := h.writeAll hs hshaped hrun
  have hnumber {y : Place} (hy : y ∈ x.places) : t'.slots.id? y.ref = some (y.number t'.slots) := by
    obtain ⟨_, -, hrow, -⟩ := hplaced hy
    exact hrow.number
  have hascending : x.places.Pairwise fun y z ↦ y.entity = z.entity →
      y.number t'.slots < z.number t'.slots := by
    have hpairs := List.pairwise_map.mp (hsteps.ascending (creates_instructions x.places))
    exact hpairs.imp_of_mem fun hy hz hless hentity ↦ hless hentity _ _ (hnumber hy) (hnumber hz)
  refine ⟨fun y hy ↦ ?_, hascending, fun y hy f hf p hp d hd howned m ↦ ?_⟩
  · obtain ⟨d, hd, hrow, -⟩ := hplaced hy
    exact ⟨d, hd, hrow⟩
  have howns := hf.owns hp howned
  constructor
  · rintro ⟨entry, hrow, hparent⟩
    rcases hsteps.row_cases (creates_instructions x.places) hrow with hold | ⟨i, hi, hentity, hid⟩
    · -- an earlier row names an earlier owner
      obtain ⟨-, -, -, hless⟩ := hplaced hy
      have hthere := (h.closed hs).exists_owner hs hd howns hold hparent
      exact absurd (hless _ (h.mem_given hthere)) Int64.lt_irrefl
    · obtain ⟨z, hz, rfl⟩ := List.mem_map.mp hi
      obtain rfl := number_eq hid
      obtain ⟨g, hg, hzrow, -⟩ := hplaced hz
      have hentity : z.entity = d.name := hentity
      have hzowner : t'.slots.owner? z.inputs = some (y.number t'.slots) := by
        have hsame := hzrow.row
        rw [hg.name, hentity, hrow] at hsame
        rw [← hparent, Option.some.inj hsame]
      rcases exists_parent hz with rfl | ⟨w, hw, hchild⟩
      · rw [← hentity] at howns
        obtain rfl := eq_of_owner? hs h hshaped hrun hy howns hzowner
        exact ⟨y,
          mem_listed.mpr (.inr ⟨(hf.ownsItself_iff hs hp howned).mpr ⟨hentity, hzowner⟩, rfl⟩), rfl⟩
      · obtain ⟨k, hk, -⟩ := hplaced hw
        obtain ⟨c, hc, hzc⟩ := id hchild
        obtain ⟨q, hq, -, hrelation, -⟩ := hk.child hc hzc
        obtain ⟨hwy, rfl⟩ := hs.owns_unique hd (hk.owns hq (hentity ▸ hrelation)) howns
        rw [hchild.owner?_eq, hnumber hw] at hzowner
        obtain rfl := eq_of_number_eq hascending hw hy hwy (Option.some.inj hzowner)
        exact ⟨z, mem_listed.mpr (.inl ((hf.mem_under hs hp hd howned hchild).mpr hentity)), rfl⟩
  · rintro ⟨z, hlisted, rfl⟩
    obtain ⟨hz, hzd⟩ := hf.of_listed hs hp hd howned hy hlisted
    have hzowner : t'.slots.owner? z.inputs = some (y.number t'.slots) := by
      rcases mem_listed.mp hlisted with hunder | ⟨hself, rfl⟩
      · exact (child_of_under hunder).owner?_eq.trans (hnumber hy)
      · exact ((hf.ownsItself_iff hs hp howned).mp hself).2
    obtain ⟨g, hg, hrow, -⟩ := hplaced hz
    have hthere := hrow.row
    rw [hg.name, ← hzd.name] at hthere
    exact ⟨_, hthere, hzowner⟩

end

end Draft.Place

end EntityStore
