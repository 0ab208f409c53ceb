import EntityStore.Instruction.RefTree
import EntityStore.Proofs.Outcome
import Mathlib.Data.List.TakeWhile

/-!
Paths in the tree of a create. A path is read part by part, each a name with or without an index
(`PathSegment.read?_eq_some`); looking up a path follows the steps that its parts stand for
(`RefTree.find?_eq_some`), and the element at an index of a path is what the path finds with that
index behind it (`RefTree.findAt?_eq`).
-/

set_option autoImplicit false

namespace EntityStore

namespace PathSegment

variable {cs : List Char} {seg : PathSegment}

/-- A name as it may stand in a path. -/
def IsName (cs : List Char) : Prop :=
  ∃ c rest, cs = c :: rest ∧ isStart c ∧ ∀ d ∈ rest, isPart d

/-- A part of a path: a name, or a name and the digits of an index between square brackets. -/
inductive Spells : List Char → PathSegment → Prop
  | plain {cs : List Char} (h : IsName cs) : Spells cs ⟨String.ofList cs, none⟩
  | indexed {cs digits : List Char} (h : IsName cs) (hsome : digits ≠ [])
    (hdigits : ∀ d ∈ digits, d.isDigit) :
    Spells (cs ++ '[' :: (digits ++ [']'])) ⟨String.ofList cs, some (digitsValue digits)⟩

/-- The index of a part of a path as it is written. -/
def indexText (i : Nat) : List Char := '[' :: (natDigits i ++ [']'])

def text (seg : PathSegment) : List Char :=
  seg.name.toList ++ (seg.index.map indexText).getD []

/-- A name without an index also stands for the first element of a collection. -/
def Denotes (seg step : PathSegment) : Prop :=
  seg = step ∨ seg.index = none ∧ step = ⟨seg.name, some 0⟩

instance : Std.Refl Denotes := ⟨fun _ ↦ .inl rfl⟩

/-- A scan stops where the first character stands that it does not take. -/
theorem scan_append {p : Char → Bool} {cs : List Char} (hcs : ∀ c ∈ cs, p c) (more : List Char)
    (hmore : ∀ c ∈ more.head?, p c = false) :
    (cs ++ more).takeWhile p = cs ∧ (cs ++ more).dropWhile p = more := by
  rw [List.takeWhile_append_of_pos hcs, List.dropWhile_append_of_pos hcs]
  cases more with
  | nil => simp
  | cons c more =>
    have hc := hmore c rfl
    simp [hc]

theorem spanDigits_bracket {digits : List Char} (h : ∀ d ∈ digits, d.isDigit) :
    spanDigits (digits ++ [']']) = (digits, [']']) := by
  obtain ⟨htake, hdrop⟩ := scan_append h [']'] (by simp [show Char.isDigit ']' = false from rfl])
  rw [spanDigits, htake, hdrop]

theorem read?_of_spells (h : Spells cs seg) : read? cs = some seg := by
  cases h with
  | plain h =>
    obtain ⟨c, rest, rfl, hstart, hrest⟩ := h
    obtain ⟨htake, hdrop⟩ := scan_append hrest [] nofun
    rw [List.append_nil] at htake hdrop
    simp only [read?, hstart, htake, hdrop]
    rfl
  | @indexed _ digits h hsome hdigits =>
    obtain ⟨c, rest, rfl, hstart, hrest⟩ := h
    obtain ⟨htake, hdrop⟩ := scan_append hrest ('[' :: (digits ++ [']'])) (by simp [isPart])
    simp only [List.cons_append, read?, hstart, htake, hdrop, spanDigits_bracket hdigits]
    cases digits with
    | nil => exact absurd rfl hsome
    | cons d digits => rfl

theorem spells_of_read? (h : read? cs = some seg) : Spells cs seg := by
  cases cs with
  | nil => cases h
  | cons c rest =>
    unfold read? at h
    dsimp only at h
    split at h
    · cases h
    · next hstart =>
      have hname : IsName (c :: rest.takeWhile isPart) :=
        ⟨c, _, rfl, by simpa using hstart, fun d hd ↦ List.mem_takeWhile_imp hd⟩
      have hsplit : c :: rest = (c :: rest.takeWhile isPart) ++ rest.dropWhile isPart := by
        rw [List.cons_append, List.takeWhile_append_dropWhile]
      rw [hsplit]
      split at h
      · next hdrop =>
        cases h
        rw [hdrop, List.append_nil]
        exact .plain hname
      · next more hdrop =>
        rw [hdrop]
        split at h
        · cases h
        · next digits hne hspan =>
          cases h
          obtain ⟨hdigits, hrest⟩ := Prod.mk.inj hspan
          have hmore : more = digits ++ [']'] := by
            rw [← hdigits, ← hrest, List.takeWhile_append_dropWhile]
          rw [hmore]
          exact .indexed hname hne fun d hd ↦ List.mem_takeWhile_imp (hdigits ▸ hd)
        · cases h
      · cases h

theorem read?_eq_some : read? cs = some seg ↔ Spells cs seg :=
  ⟨spells_of_read?, read?_of_spells⟩

theorem IsName.notMem (h : IsName cs) {c : Char} (hstart : isStart c = false)
    (hpart : isPart c = false) : c ∉ cs := by
  obtain ⟨d, rest, rfl, hd, hrest⟩ := h
  intro hmem
  rcases List.mem_cons.mp hmem with rfl | hmem
  · exact absurd hd (by simp [hstart])
  · exact absurd (hrest c hmem) (by simp [hpart])

/-- No dot stands in a part of a path. -/
theorem Spells.dot_notMem (h : Spells cs seg) : '.' ∉ cs := by
  cases h with
  | plain h => exact h.notMem rfl rfl
  | indexed h _ hdigits =>
    intro hmem
    simp only [List.mem_append, List.mem_cons, List.not_mem_nil, or_false] at hmem
    rcases hmem with hmem | hmem | hmem | hmem
    · exact h.notMem rfl rfl hmem
    · cases hmem
    · cases hdigits _ hmem
    · cases hmem

/-- With an index behind it only a name is a part of a path. -/
theorem spells_append_indexText {i : Nat} :
    Spells (cs ++ indexText i) seg ↔ IsName cs ∧ seg = ⟨String.ofList cs, some i⟩ := by
  have hdigits : ∀ d ∈ natDigits i, d.isDigit := fun d hd ↦ isDigit_of_mem_natDigits hd
  constructor
  · intro h
    generalize hall : cs ++ indexText i = all at h
    cases h with
    | plain h =>
      subst hall
      exact absurd (List.mem_append_right cs List.mem_cons_self) (h.notMem rfl rfl)
    | @indexed cs' digits h _ hother =>
      have hbracket : '[' ∉ digits ++ [']'] := by
        intro hmem
        rcases List.mem_append.mp hmem with hmem | hmem
        · cases hother _ hmem
        · cases List.mem_singleton.mp hmem
      obtain ⟨rfl, -, hdigits⟩ :=
        (List.append_cons_inj_of_notMem (h.notMem rfl rfl) hbracket).mp hall.symm
      rw [List.append_cancel_right hdigits, digitsValue_natDigits]
      exact ⟨h, rfl⟩
  · rintro ⟨h, rfl⟩
    have hsome : natDigits i ≠ [] := Nat.toDigits_ne_nil
    have hindexed := Spells.indexed h hsome hdigits
    rwa [digitsValue_natDigits] at hindexed

theorem spells_text (h : IsName seg.name.toList) : Spells seg.text seg := by
  obtain ⟨name, index⟩ := seg
  have hname : String.ofList name.toList = name := String.ofList_toList
  cases index with
  | none =>
    have hplain := Spells.plain h
    rwa [hname, ← List.append_nil name.toList] at hplain
  | some i => exact spells_append_indexText.mpr ⟨h, by rw [hname]⟩

end PathSegment

namespace RefTree

open PathSegment (Denotes IsName indexText)

variable {t u : RefTree} {path : String} {r : RowRef}

/-- A path as it is written, its parts with dots between them. -/
def Spells (path : String) (segs : List PathSegment) : Prop :=
  ∃ parts ≠ [], path.toList = ['.'].intercalate parts ∧ List.Forall₂ PathSegment.Spells parts segs

/-- The text of a path, each index written without zeros in front. -/
def pathText (segs : List PathSegment) : String :=
  String.ofList (['.'].intercalate (segs.map PathSegment.text))

theorem spells_pathText {segs : List PathSegment} (hne : segs ≠ [])
    (h : ∀ seg ∈ segs, IsName seg.name.toList) :
    Spells (pathText segs) segs := by
  refine ⟨segs.map PathSegment.text, by simpa using hne, String.toList_ofList, ?_⟩
  rw [List.forall₂_map_left_iff, List.forall₂_same]
  exact fun seg hseg ↦ PathSegment.spells_text (h seg hseg)

theorem subtree?_eq_some {parts : List (List Char)} :
    t.subtree? parts = some u ↔ ∃ segs, List.Forall₂ PathSegment.Spells parts segs ∧
    t.follow? segs = some u := by
  have hread (segs : List PathSegment) :
      parts.mapM PathSegment.read? = some segs ↔ List.Forall₂ PathSegment.Spells parts segs := by
    induction parts generalizing segs with
    | nil => simp
    | cons cs parts ih =>
      rw [List.mapM_cons, List.forall₂_cons_left_iff]
      simp [Option.bind_eq_some_iff, PathSegment.read?_eq_some, ih, eq_comm (b := segs)]
  simp only [subtree?, Option.bind_eq_bind, Option.bind_eq_some_iff, hread]

theorem find?_eq_some : t.find? path = some r ↔ ∃ segs u, Spells path segs ∧
    t.follow? segs = some u ∧ u.root = r := by
  have hparts {segs : List PathSegment} :
      List.Forall₂ PathSegment.Spells (segments path.toList) segs ↔ Spells path segs := by
    constructor
    · exact fun h ↦ ⟨_, List.splitOn_ne_nil _ _, (List.intercalate_splitOn _).symm, h⟩
    · rintro ⟨parts, hne, htext, h⟩
      have hdots : ∀ cs ∈ parts, '.' ∉ cs :=
        List.forall_of_forall₂ h fun _ _ ↦ PathSegment.Spells.dot_notMem
      rwa [segments, htext, List.splitOn_intercalate _ hdots hne]
  simp only [find?, Option.map_eq_some_iff, subtree?_eq_some, hparts]
  constructor
  · rintro ⟨u, ⟨segs, hsegs, hu⟩, hr⟩
    exact ⟨segs, u, hsegs, hu, hr⟩
  · rintro ⟨segs, u, hsegs, hu, hr⟩
    exact ⟨u, ⟨segs, hsegs, hu⟩, hr⟩

/-- What is written behind a path without a dot belongs to its last part. -/
theorem segments_append (path : List Char) {more : List Char} (hmore : '.' ∉ more) :
    ∃ before last, segments path = before ++ [last] ∧ segments (path ++ more) = before ++
      [last ++ more] := by
  unfold segments
  induction path with
  | nil => exact ⟨[], [], by simp, by simp [List.splitOn_eq_singleton hmore]⟩
  | cons c path ih =>
    obtain ⟨before, last, hpath, hall⟩ := ih
    rw [List.cons_append, List.splitOn_cons_eq_if_modifyHead,
      List.splitOn_cons_eq_if_modifyHead, hpath, hall]
    split
    · exact ⟨[] :: before, last, rfl, rfl⟩
    · cases before with
      | nil => exact ⟨[], c :: last, rfl, rfl⟩
      | cons b before => exact ⟨(c :: b) :: before, last, rfl, rfl⟩

theorem follow?_append (segs more : List PathSegment) :
    t.follow? (segs ++ more) = (t.follow? segs).bind fun u ↦ u.follow? more := by
  induction segs generalizing t with
  | nil => rfl
  | cons seg segs ih =>
    rw [List.cons_append, follow?, follow?, Option.bind_assoc]
    exact congrArg _ (funext fun u ↦ ih)

theorem subtree?_append_indexText
    (hnames : ∀ segs u, t.follow? segs = some u → ∀ name, u.elements name ≠ [] →
    IsName name.toList) (before : List (List Char)) (last : List Char) (i : Nat) :
    t.subtree? (before ++ [last ++ indexText i]) =
      (t.subtree? before).bind fun u ↦ (u.elements (String.ofList last))[i]? := by
  unfold subtree?
  rw [List.mapM_append]
  cases before.mapM PathSegment.read? with
  | none => rfl
  | some segs =>
    by_cases hname : IsName last
    · have hread : PathSegment.read? (last ++ indexText i) = some ⟨String.ofList last, some i⟩ :=
        PathSegment.read?_eq_some.mpr (PathSegment.spells_append_indexText.mpr ⟨hname, rfl⟩)
      simp [hread, follow?_append, follow?, step?]
    · have hread : PathSegment.read? (last ++ indexText i) = none :=
        Option.eq_none_iff_forall_ne_some.mpr fun seg hseg ↦
          hname (PathSegment.spells_append_indexText.mp (PathSegment.read?_eq_some.mp hseg)).1
      have hnone : ∀ u, t.follow? segs = some u → (u.elements (String.ofList last))[i]? = none := by
        intro u hu
        have hempty : u.elements (String.ofList last) = [] := by
          by_contra hne
          have hlast := hnames segs u hu _ hne
          rw [String.toList_ofList] at hlast
          exact hname hlast
        rw [hempty]
        rfl
      cases hu : t.follow? segs with
      | none => simp [hread, hu]
      | some u => simp [hread, hu, hnone u hu]

/-- The element at an index of a path is found at the path with the index behind it, if collections
are told by names that may stand in a path. -/
theorem findAt?_eq
    (hnames : ∀ segs u, t.follow? segs = some u → ∀ name, u.elements name ≠ [] → IsName name.toList)
    (path : String) (i : Nat) : t.findAt? path i = t.find? (path ++ "[" ++ toString i ++ "]") := by
  have hdot : '.' ∉ indexText i := by
    intro hmem
    simp only [indexText, List.mem_cons, List.mem_append, List.not_mem_nil, or_false] at hmem
    rcases hmem with hmem | hmem | hmem
    · cases hmem
    · cases isDigit_of_mem_natDigits hmem
    · cases hmem
  have hindex : (path ++ "[" ++ toString i ++ "]").toList = path.toList ++ indexText i := by
    simp [indexText, natDigits, toString, Nat.repr_eq_ofList_toDigits]
  obtain ⟨before, last, hpath, hall⟩ := segments_append path.toList hdot
  -- the element of a collection, and the reference to it
  have hroot (u : RefTree) :
      (((u.elements (String.ofList last))[i]?).bind fun element ↦ some element.root) =
      ((u.elements (String.ofList last))[i]?).map root := by
    cases (u.elements (String.ofList last))[i]? <;> rfl
  unfold findAt? find?
  rw [hindex, hall, subtree?_append_indexText hnames, hpath]
  simp only [List.dropLast_concat, List.getLast?_concat, Option.getD_some, Option.pure_def,
    Option.bind_eq_bind, hroot, Option.map_bind]
  cases before with
  | nil => rfl
  | cons b before =>
    have hlength : ¬(b :: before ++ [last]).length ≤ 1 := by simp
    rw [if_neg hlength]
    rfl

end RefTree

end EntityStore
