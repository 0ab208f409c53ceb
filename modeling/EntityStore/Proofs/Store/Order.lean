import EntityStore.Store.Select
import Mathlib.Algebra.Order.Field.Basic
import Mathlib.Algebra.Order.Field.Rat
import Mathlib.Order.Compare

/-!
The order of cells is total and transitive, although it mixes integers with reals: it is the order
of their values. So sorting puts rows in order, keeps the order of equal ones, and what it leaves of
some of the rows it would also give for them alone.
-/

set_option autoImplicit false

namespace EntityStore

/-! ### Numbers -/

theorem compare_eq_compare {α β : Type} [LinearOrder α] [LinearOrder β] {a b : α} {c d : β}
    (hlt : a < b ↔ c < d) (hgt : b < a ↔ d < c) : compare a b = compare c d := by
  rcases lt_trichotomy a b with h | h | h
  · rw [compare_lt_iff_lt.mpr h, compare_lt_iff_lt.mpr (hlt.mp h)]
  · have heq : c = d := le_antisymm (not_lt.mp fun hdc ↦ (hgt.mpr hdc).ne' h)
      (not_lt.mp fun hcd ↦ (hlt.mpr hcd).ne h)
    rw [compare_eq_iff_eq.mpr h, compare_eq_iff_eq.mpr heq]
  · rw [compare_gt_iff_gt.mpr h, compare_gt_iff_gt.mpr (hgt.mp h)]

namespace Binary

/-- Undefined, below all numbers, a number, above all numbers. -/
def stage : Binary → Nat
  | .nan => 0
  | .infinite true => 1
  | .finite .. => 2
  | .infinite false => 3

def value : Binary → ℚ
  | .finite s m q => (if s then -((scaleTwo m q).1 : ℚ) else (scaleTwo m q).1) / (scaleTwo m q).2
  | _ => 0

theorem scaleTwo_pos (m : Nat) (q : Int) : 0 < (scaleTwo m q).2 := by
  unfold scaleTwo
  split
  · exact Nat.two_pow_pos _
  · exact Nat.one_pos

/-- Cross multiplication compares the ratios. -/
theorem compareRatio_eq {s t : Bool} {n d n' d' : Nat} (hd : 0 < d) (hd' : 0 < d') :
    compareRatio s n d t n' d' =
      compare ((if s then -(n : ℚ) else n) / d) ((if t then -(n' : ℚ) else n') / d') := by
  have hleft : (((if s then -(n * d' : Nat) else (n * d' : Nat) : Int)) : ℚ) =
      (if s then -(n : ℚ) else n) * d' := by
    cases s <;> simp
  have hright : (((if t then -(n' * d : Nat) else (n' * d : Nat) : Int)) : ℚ) =
      (if t then -(n' : ℚ) else n') * d := by
    cases t <;> simp
  have hdpos : (0 : ℚ) < d := Nat.cast_pos.mpr hd
  have hdpos' : (0 : ℚ) < d' := Nat.cast_pos.mpr hd'
  unfold compareRatio
  refine compare_eq_compare ?_ ?_
  · rw [div_lt_div_iff₀ hdpos hdpos', ← hleft, ← hright, Int.cast_lt]
  · rw [div_lt_div_iff₀ hdpos' hdpos, ← hleft, ← hright, Int.cast_lt]

theorem order_eq (x y : Binary) :
    x.order y = compareLex (compareOn stage) (compareOn value) x y := by
  rcases x with _ | s | ⟨s, m, q⟩ <;> rcases y with _ | t | ⟨t, m', q'⟩
  case finite.finite =>
    simp only [order, compare?, compareLex, compareOn, stage, value, Option.getD_some]
    exact compareRatio_eq (scaleTwo_pos m q) (scaleTwo_pos m' q')
  all_goals
    try cases s
    all_goals try cases t
    all_goals simp [order, compare?, compareLex, compareOn, stage, value, isNaN] <;> rfl

end Binary

/-! ### Cells -/

namespace Cell

/-- The number that a cell holds. -/
def number : Cell → Binary
  | .integer n => .finite (n.toInt < 0) n.toInt.natAbs 0
  | .real x => x
  | _ => .nan

def characters : Cell → String
  | .text s => s
  | _ => ""

def bytes : Cell → List UInt8
  | .blob s => s
  | _ => []

theorem value_number (n : Int64) : (number (.integer n)).value = n.toInt := by
  simp only [number, Binary.value, scaleTwo]
  by_cases h : n.toInt < 0
  · simp [h, Nat.cast_natAbs, abs_of_neg h]
  · simp [h, Nat.cast_natAbs, abs_of_nonneg (not_lt.mp h)]

theorem order_eq (a b : Cell) :
    a.order b = compareLex (compareOn rank) (compareLex (compareOn fun c ↦ (number c).stage)
      (compareLex (compareOn fun c ↦ (number c).value)
        (compareLex (compareOn characters) (compareOn bytes)))) a b := by
  have hnumber (x y : Binary) : x.order y =
      (compare x.stage y.stage).then (compare x.value y.value) := Binary.order_eq x y
  cases a <;> cases b
  case integer.integer m n =>
    simp only [order, compareLex, compareOn, value_number]
    simp only [rank, number, Binary.stage, characters, bytes, Std.ReflCmp.compare_self,
      Ordering.eq_then, Ordering.then_eq]
    exact compare_eq_compare Int.cast_lt.symm Int.cast_lt.symm
  case integer.real | real.integer | real.real =>
    simp [order, compareLex, compareOn, hnumber, number, rank, characters, bytes]
  case null.null | text.text | blob.blob =>
    simp [order, compareLex, compareOn, number, rank, characters, bytes]
  -- cells of different ranks are told apart by them
  all_goals rfl

instance : Std.TransCmp order := by
  rw [show order = _ from funext fun a ↦ funext fun b ↦ order_eq a b]
  infer_instance

end Cell

/-! ### Sorting -/

section

variable {α : Type} {le : α → α → Bool} (htrans : ∀ a b c, le a b → le b c → le a c)
  (htotal : ∀ a b, le a b || le b a)

include htrans htotal

/-- The rows in front of one that is sorted in are those that do not come after it. -/
theorem mergeSort_cons_eq (a : α) (l : List α) :
    ((a :: l).mergeSort le) = ((l.mergeSort le).filter fun b ↦ !le a b) ++
      a :: (l.mergeSort le).filter (le a) := by
  obtain ⟨l₁, l₂, hcons, hl, hbefore⟩ := List.mergeSort_cons htrans htotal a l
  have hafter : ∀ b ∈ l₂, le a b := by
    have hsorted := List.pairwise_mergeSort htrans htotal (a :: l)
    rw [hcons, List.pairwise_append, List.pairwise_cons] at hsorted
    exact hsorted.2.1.1
  rw [hcons, hl, List.filter_append, List.filter_append,
    List.filter_eq_self.mpr hbefore, List.filter_eq_nil_iff.mpr (by simpa using hafter),
    List.filter_eq_nil_iff.mpr (by simpa using hbefore), List.filter_eq_self.mpr hafter,
    List.append_nil, List.nil_append]

/-- Sorting leaves of some rows what it gives for them alone. -/
theorem filter_mergeSort (p : α → Bool) (l : List α) :
    (l.mergeSort le).filter p = (l.filter p).mergeSort le := by
  induction l with
  | nil => simp
  | cons a l ih =>
    by_cases ha : p a
    · rw [List.filter_cons_of_pos ha, mergeSort_cons_eq htrans htotal,
        mergeSort_cons_eq htrans htotal, List.filter_append, List.filter_cons_of_pos ha, ← ih]
      simp only [List.filter_filter, Bool.and_comm]
    · obtain ⟨l₁, l₂, hcons, hl, -⟩ := List.mergeSort_cons htrans htotal a l
      rw [List.filter_cons_of_neg ha, hcons, ← ih, hl, List.filter_append,
        List.filter_cons_of_neg ha, List.filter_append]

end

namespace Select

instance (t : OrderTerm) : Std.TransCmp (compareTerm t) := by
  unfold compareTerm
  split
  · exact inferInstanceAs (Std.TransCmp fun a b ↦ Cell.order b a)
  · exact inferInstanceAs (Std.TransCmp Cell.order)

/-- The order of a statement compares the combinations of rows by the cells of its terms. -/
def compareBy {α : Type} (terms : List OrderTerm) (cell : α → OrderTerm → Cell)
    (a b : α) : Ordering :=
  compareKeys terms (terms.map (cell a)) (terms.map (cell b))

instance {α : Type} (terms : List OrderTerm) (cell : α → OrderTerm → Cell) :
    Std.TransCmp (compareBy terms cell) := by
  induction terms with
  | nil =>
    have hconst : compareBy [] cell = fun _ _ ↦ .eq := rfl
    rw [hconst]
    exact { eq_swap := rfl, isLE_trans := fun _ _ ↦ rfl }
  | cons t terms ih =>
    have hlex : compareBy (t :: terms) cell =
        compareLex (fun a b ↦ compareTerm t (cell a t) (cell b t)) (compareBy terms cell) := rfl
    have hfirst : Std.TransCmp fun a b ↦ compareTerm t (cell a t) (cell b t) :=
      { eq_swap := Std.OrientedCmp.eq_swap, isLE_trans := Std.TransCmp.isLE_trans }
    rw [hlex]
    infer_instance

end Select

section

variable {α : Type} (cmp : α → α → Ordering) [Std.TransCmp cmp]

theorem bne_gt_iff_isLE : ∀ {o : Ordering}, (o != .gt) = true ↔ o.isLE = true := by
  decide

theorem bne_gt_trans (a b c : α) (hab : cmp a b != .gt) (hbc : cmp b c != .gt) :
    cmp a c != .gt := by
  rw [bne_gt_iff_isLE] at *
  exact Std.TransCmp.isLE_trans hab hbc

theorem bne_gt_total (a b : α) : (cmp a b != .gt || cmp b a != .gt) = true := by
  have hswap : cmp b a = (cmp a b).swap := Std.OrientedCmp.eq_swap
  rw [hswap]
  cases cmp a b <;> rfl

end

theorem map_mergeSort_fst {α β : Type} (cmp : α → α → Ordering) (pairs : List (α × β)) :
    (pairs.mergeSort fun x y ↦ cmp x.1 y.1 != .gt).map Prod.fst =
      (pairs.map Prod.fst).mergeSort fun a b ↦ cmp a b != .gt :=
  List.map_mergeSort fun _ _ _ _ ↦ rfl

section

variable {α β : Type} {cmp : α → α → Ordering} {order : β → β → Ordering} {pairs : List (α × β)}
  (h : ∀ x ∈ pairs, ∀ y ∈ pairs, cmp x.1 y.1 = order x.2 y.2)

include h

/-- What stands beside others is sorted as they are, if it is ordered as they are. -/
theorem map_mergeSort_snd :
    (pairs.mergeSort fun x y ↦ cmp x.1 y.1 != .gt).map Prod.snd =
      (pairs.map Prod.snd).mergeSort fun a b ↦ order a b != .gt :=
  List.map_mergeSort fun x hx y hy ↦ by rw [h x hx y hy]

variable [Std.TransCmp cmp]

theorem pairwise_mergeSort_snd :
    ((pairs.map Prod.snd).mergeSort fun a b ↦ order a b != .gt).Pairwise fun a b ↦
      order a b ≠ .gt := by
  have htrans (x y z : α × β) := bne_gt_trans cmp x.1 y.1 z.1
  have htotal (x y : α × β) := bne_gt_total cmp x.1 y.1
  rw [← map_mergeSort_snd h, List.pairwise_map]
  refine (List.pairwise_mergeSort htrans htotal pairs).imp_of_mem fun hx hy hle ↦ ?_
  rw [← h _ (List.mem_mergeSort.mp hx) _ (List.mem_mergeSort.mp hy)]
  simpa using hle

theorem filter_mergeSort_snd (p : β → Bool) :
    ((pairs.map Prod.snd).mergeSort fun a b ↦ order a b != .gt).filter p =
      ((pairs.map Prod.snd).filter p).mergeSort fun a b ↦ order a b != .gt := by
  have htrans (x y z : α × β) := bne_gt_trans cmp x.1 y.1 z.1
  have htotal (x y : α × β) := bne_gt_total cmp x.1 y.1
  have hpart : ∀ x ∈ pairs.filter (p ∘ Prod.snd), ∀ y ∈ pairs.filter (p ∘ Prod.snd),
      cmp x.1 y.1 = order x.2 y.2 :=
    fun x hx y hy ↦ h x (List.mem_filter.mp hx).1 y (List.mem_filter.mp hy).1
  rw [← map_mergeSort_snd h, List.filter_map, filter_mergeSort htrans htotal,
    map_mergeSort_snd hpart, List.filter_map]

end

namespace Select

/-- Sorting a statement's rows by their keys is sorting the combinations by the cells of its
terms. -/
theorem sorted_eq (s : Select) (envs : List Env) :
    s.sorted envs = envs.mergeSort fun a b ↦
      compareBy s.order (fun env t ↦ Env.cell env t.column) a b != .gt := by
  have hmap := List.map_mergeSort (l := envs) (f :=
      fun env ↦ (s.order.map fun t ↦ Env.cell env t.column, env))
    (r := fun a b ↦ compareBy s.order (fun env t ↦ Env.cell env t.column) a b != .gt)
    (s := fun a b ↦ compareKeys s.order a.1 b.1 != .gt) fun _ _ _ _ ↦ rfl
  simp only [sorted, ← hmap, List.map_map]
  exact List.map_id _

end Select

end EntityStore
