import EntityStore.Text.Blank
import Mathlib.Data.List.SplitBy
import Mathlib.Data.List.TakeWhile

/-!
Collapsing blanks, one character after the other.
-/

set_option autoImplicit false

namespace EntityStore

/-- The text with one space for every run of blanks in it and none at its end. The flag tells that
blanks were passed before. -/
def squeeze : Bool → List Char → List Char
  | _, [] => []
  | gap, c :: cs =>
    if isBlank c then squeeze true cs
    else if gap then ' ' :: c :: squeeze false cs
    else c :: squeeze false cs

variable {gap : Bool} {c : Char} {cs run rest : List Char}

@[simp]
theorem squeeze_nil : squeeze gap [] = [] := by
  cases gap <;> rfl

theorem squeeze_blank (h : isBlank c) (cs : List Char) :
    squeeze gap (c :: cs) = squeeze true cs := by
  rw [squeeze, if_pos h]

theorem squeeze_cons (h : isBlank c = false) (cs : List Char) :
    squeeze false (c :: cs) = c :: squeeze false cs := by
  simp [squeeze, h]

theorem squeeze_gap (h : isBlank c = false) (cs : List Char) :
    squeeze true (c :: cs) = ' ' :: c :: squeeze false cs := by
  simp [squeeze, h]

theorem squeeze_blanks (h : ∀ c ∈ run, isBlank c) (rest : List Char) :
    squeeze true (run ++ rest) = squeeze true rest := by
  induction run with
  | nil => rfl
  | cons c run ih =>
    obtain ⟨hc, hrun⟩ := List.forall_mem_cons.mp h
    rw [List.cons_append, squeeze_blank hc, ih hrun]

theorem squeeze_run (h : ∀ c ∈ run, isBlank c = false) (rest : List Char) :
    squeeze false (run ++ rest) = run ++ squeeze false rest := by
  induction run with
  | nil => rfl
  | cons c run ih =>
    obtain ⟨hc, hrun⟩ := List.forall_mem_cons.mp h
    rw [List.cons_append, squeeze_cons hc, ih hrun, List.cons_append]

theorem squeeze_of_head (h : ∀ d ∈ rest.head?, isBlank d) :
    squeeze false rest = squeeze true rest := by
  cases rest with
  | nil => rfl
  | cons d rest => rw [squeeze_blank (h d rfl), squeeze_blank (h d rfl)]

/-- The first run of a text is one of its words if it is not blank. -/
theorem words_run {blank : Bool} (hne : run ≠ []) (h : ∀ c ∈ run, isBlank c = blank)
    (hrest : ∀ d ∈ rest.head?, isBlank d = !blank) :
    words (run ++ rest) = if blank then words rest else run :: words rest := by
  have hchain : run.IsChain fun c d ↦ isBlank c == isBlank d :=
    (List.pairwise_of_forall_mem_list fun c hc d hd ↦ by
      rw [h c hc, h d hd, beq_self_eq_true]).isChain
  have hends : ∀ c ∈ run.getLast?, ∀ d ∈ rest.head?, (isBlank c == isBlank d) = false := by
    intro c hc d hd
    rw [h c (List.mem_of_getLast? hc), hrest d hd]
    cases blank <;> rfl
  have hall : run.all isBlank = blank := by
    obtain ⟨c, run, rfl⟩ := List.exists_cons_of_ne_nil hne
    cases blank with
    | false => simp [h c List.mem_cons_self]
    | true => exact List.all_eq_true.mpr h
  unfold words
  rw [List.splitBy_append hends, List.splitBy_of_isChain hne hchain, List.singleton_append,
    List.filter_cons, hall]
  cases blank <;> rfl

/-- The words of a text with a space between each two. -/
def joined (cs : List Char) : List Char :=
  [' '].intercalate (words cs)

theorem joined_run (hne : run ≠ []) (h : ∀ c ∈ run, isBlank c = false)
    (hrest : ∀ d ∈ rest.head?, isBlank d) :
    joined (run ++ rest) = run ++ if words rest = [] then [] else ' ' :: joined rest := by
  unfold joined
  rw [words_run hne h hrest]
  cases words rest with
  | nil => simp [List.intercalate]
  | cons w ws => simp [List.intercalate]

theorem head_dropWhile (p : Char → Bool) (cs : List Char) :
    ∀ d ∈ (cs.dropWhile p).head?, p d = false := by
  intro d hd
  have hstop := List.head?_dropWhile_not p cs
  rw [hd] at hstop
  exact hstop

theorem skipBlanks_head (cs : List Char) : ∀ d ∈ (skipBlanks cs).head?, isBlank d = false :=
  head_dropWhile isBlank cs

/-- A text that is not empty begins with a run of blanks or with a run of other characters. -/
theorem exists_run (c : Char) (cs : List Char) : ∃ run rest, c :: cs = run ++ rest ∧ run ≠ [] ∧
    (∀ d ∈ run, isBlank d = isBlank c) ∧ ∀ d ∈ rest.head?, isBlank d = !isBlank c := by
  have hstop := head_dropWhile (isBlank · == isBlank c) (c :: cs)
  refine ⟨(c :: cs).takeWhile (isBlank · == isBlank c),
    (c :: cs).dropWhile (isBlank · == isBlank c),
    List.takeWhile_append_dropWhile.symm, by simp, fun d hd ↦ ?_,
    fun d hd ↦ Bool.eq_not.mpr (beq_eq_false_iff_ne.mp (hstop d hd))⟩
  have hrun : (isBlank d == isBlank c) = true :=
    List.mem_takeWhile_imp (p := fun e ↦ isBlank e == isBlank c) hd
  exact beq_iff_eq.mp hrun

/-- Words with a space between each two are the text squeezed from its first character that is not
blank. -/
theorem squeeze_joined (cs : List Char) :
    squeeze true cs = (if words cs = [] then [] else ' ' :: joined cs) ∧
      ((∀ d ∈ cs.head?, isBlank d = false) → squeeze false cs = joined cs) := by
  induction h : cs.length using Nat.strongRecOn generalizing cs with
  | ind length ih =>
    subst h
    cases cs with
    | nil => exact ⟨rfl, fun _ ↦ rfl⟩
    | cons c cs =>
      obtain ⟨run, rest, hsplit, hne, hrun, hrest⟩ := exists_run c cs
      obtain ⟨hrest', -⟩ := ih rest.length (by
        rw [hsplit, List.length_append]
        have := List.length_pos_iff.mpr hne
        omega) rest rfl
      cases hc : isBlank c with
      | true =>
        rw [hc] at hrun hrest
        have hwords : words (c :: cs) = words rest := by
          rw [hsplit, words_run hne hrun hrest, if_pos rfl]
        refine ⟨?_, fun hhead ↦ absurd (hhead c rfl) (by simp [hc])⟩
        rw [joined, hwords, ← joined, ← hrest', hsplit, squeeze_blanks hrun]
      | false =>
        rw [hc] at hrun hrest
        have hfalse : squeeze false (c :: cs) = joined (c :: cs) := by
          rw [hsplit, squeeze_run hrun, squeeze_of_head hrest, hrest', joined_run hne hrun hrest]
        have hwords : words (c :: cs) ≠ [] := by
          rw [hsplit, words_run hne hrun hrest]
          simp
        refine ⟨?_, fun _ ↦ hfalse⟩
        rw [if_neg hwords, ← hfalse, squeeze_gap hc, squeeze_cons hc]

theorem words_skipBlanks (cs : List Char) : words (skipBlanks cs) = words cs := by
  have hsplit : cs.takeWhile isBlank ++ skipBlanks cs = cs := List.takeWhile_append_dropWhile
  by_cases hne : cs.takeWhile isBlank = []
  · rw [hne, List.nil_append] at hsplit
    rw [hsplit]
  · have hrun : ∀ c ∈ cs.takeWhile isBlank, isBlank c = true := fun c hc ↦ List.mem_takeWhile_imp hc
    conv_rhs => rw [← hsplit]
    rw [words_run hne hrun (skipBlanks_head cs), if_pos rfl]

/-- Collapsing drops the blanks in front and squeezes the rest. -/
theorem toList_collapseBlanks (text : String) :
    (collapseBlanks text).toList = squeeze false (skipBlanks text.toList) := by
  rw [(squeeze_joined _).2 (skipBlanks_head _), joined, words_skipBlanks]
  exact String.toList_ofList

end EntityStore
