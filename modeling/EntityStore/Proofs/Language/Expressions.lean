import EntityStore.Proofs.Language.Forms

/-!
The texts of filters. An expression is written with parentheses around an alternative under a
conjunction and around a right operand of the same operator, and nowhere else. So under each
operator stands a row of operands, which the grammar reads one after the other and joins to the
left.
-/

set_option autoImplicit false

namespace EntityStore.Language

open EntityStore.Language.Parser EntityStore.Language.Grammar

/-! ### What can be written, and how -/

def Node.isOperand : Node Value → Bool
  | .object _ => false
  | _ => true

def Expr.isWritable : Expr Value → Bool
  | .and l r | .or l r => l.isWritable && r.isWritable
  | .predicate path _ operand =>
    !path.isEmpty && path.all isIdent && operand.isOperand && operand.isWritable

def Comparator.spelling : Comparator → String
  | .compare .eq => "=="
  | .compare .ne => "!="
  | .compare .gt => ">"
  | .compare .lt => "<"
  | .compare .ge => ">="
  | .compare .le => "<="
  | .isIn => "in"

def pathText : List String → List Char
  | [] => []
  | s :: ss => s.toList ++ ss.flatMap fun t ↦ '.' :: t.toList

namespace Expr

def isAnd : Expr Value → Bool
  | .and _ _ => true
  | _ => false

def isOr : Expr Value → Bool
  | .or _ _ => true
  | _ => false

/-- Lexemes in parentheses, if they need them. -/
def wrapped (needed : Bool) (ls : List Lexeme) : List Lexeme :=
  if needed then .mark "(" :: (ls ++ [.mark ")"]) else ls

def lexemes : Expr Value → List Lexeme
  | .and l r => wrapped l.isOr l.lexemes ++ .mark "and" :: wrapped (r.isOr || r.isAnd) r.lexemes
  | .or l r => l.lexemes ++ .mark "or" :: wrapped r.isOr r.lexemes
  | .predicate path comparator operand =>
    .plain (pathText path) :: .mark comparator.spelling :: operand.lexemes

/-- An expression as an operand of `or`. -/
def andLexemes (e : Expr Value) : List Lexeme :=
  wrapped e.isOr e.lexemes

/-- An expression as the right operand of `and`. -/
def termLexemes (e : Expr Value) : List Lexeme :=
  wrapped (e.isOr || e.isAnd) e.lexemes

end Expr

/-! ### Rows of operands -/

theorem separated_concat {sep : Lexeme} {parts : List (List Lexeme)} (h : parts ≠ [])
    (part : List Lexeme) :
    separated sep (parts ++ [part]) = separated sep parts ++ sep :: part := by
  obtain ⟨first, more, rfl⟩ := List.exists_cons_of_ne_nil h
  simp [separated]

namespace Expr

/-- Under `or`, an expression is a row of operands of `and`. -/
theorem exists_conjuncts (e : Expr Value) : ∃ first more, more.foldl Expr.and first = e ∧
    e.andLexemes = separated (.mark "and") ((first :: more).map termLexemes) := by
  induction e with
  | and l r hl _ =>
    obtain ⟨first, more, rfl, hrow⟩ := hl
    refine ⟨first, more ++ [r], by rw [List.foldl_append]; rfl, ?_⟩
    rw [← List.cons_append, List.map_append, List.map_singleton, separated_concat (by simp), ← hrow]
    rfl
  | or l r => exact ⟨.or l r, [], rfl, by simp [separated, andLexemes, termLexemes, isOr]⟩
  | predicate path c o =>
    exact ⟨.predicate path c o, [], rfl, by simp [separated, andLexemes, termLexemes, isOr, isAnd]⟩

/-- An expression is a row of operands of `or`. -/
theorem exists_disjuncts (e : Expr Value) : ∃ first more, more.foldl Expr.or first = e ∧
    e.lexemes = separated (.mark "or") ((first :: more).map andLexemes) := by
  induction e with
  | or l r hl _ =>
    obtain ⟨first, more, rfl, hrow⟩ := hl
    refine ⟨first, more ++ [r], by rw [List.foldl_append]; rfl, ?_⟩
    rw [← List.cons_append, List.map_append, List.map_singleton, separated_concat (by simp), ← hrow]
    rfl
  | and l r => exact ⟨.and l r, [], rfl, by simp [separated, andLexemes, isOr, wrapped]⟩
  | predicate path c o =>
    exact ⟨.predicate path c o, [], rfl, by simp [separated, andLexemes, isOr, wrapped]⟩

/-- Joined operands can be written if each of them can. -/
theorem isWritable_foldl {op : Expr Value → Expr Value → Expr Value}
    (hop : ∀ l r, (op l r).isWritable = (l.isWritable && r.isWritable)) (first : Expr Value)
    (more : List (Expr Value)) : (more.foldl op first).isWritable ↔
    ∀ e ∈ first :: more, e.isWritable := by
  induction more generalizing first with
  | nil => simp
  | cons e more ih => simp [ih, hop, and_assoc]

/-! ### Meanings -/

/-- An expression over tokens stands for one over values. -/
def Means (e : Expr Value) (t : Expr Token) : Prop :=
  ∀ text, t.resolve (Token.value text) = .ok e

variable {es : List (Expr Value)} {ts : List (Expr Token)} {e e' : Expr Value} {t t' : Expr Token}

theorem Means.and (h : e.Means t) (h' : e'.Means t') : (Expr.and e e').Means (.and t t') := by
  intro text
  rw [resolve, h text, h' text]
  rfl

theorem Means.or (h : e.Means t) (h' : e'.Means t') : (Expr.or e e').Means (.or t t') := by
  intro text
  rw [resolve, h text, h' text]
  rfl

/-- Joined operands stand for joined operands. -/
theorem Means.foldl {op : Expr Value → Expr Value → Expr Value}
    {op' : Expr Token → Expr Token → Expr Token}
    (hop : ∀ e t e' t', e.Means t → e'.Means t' → (op e e').Means (op' t t'))
    (h : List.Forall₂ Means (e :: es) (t :: ts)) : (es.foldl op e).Means (ts.foldl op' t) := by
  obtain ⟨h, hs⟩ := List.forall₂_cons.mp h
  induction hs generalizing e t with
  | nil => exact h
  | cons hfirst _ ih => exact ih (.cons (hop _ _ _ _ h hfirst) ‹_›) (hop _ _ _ _ h hfirst)

end Expr

/-! ### Predicates -/

namespace Grammar

variable {rest : List Char} {us : List Lexeme} {depth : Nat} {m : Mode}

theorem scans_segments {ss : List String} (hss : ∀ s ∈ ss, isIdent s) (hrest : Ends rest) :
    Scans (star do word "."; identText) .atomic (ss.flatMap fun t ↦ '.' :: t.toList) rest
      (ss.map String.toList) := by
  have hstop : ∀ o, (do word "."; identText : Parser (List Char)).Gives .atomic ⟨o, rest⟩ none :=
    fun o ↦ (begins_word rfl _ _ (hrest.not rfl)).bind_none
  have hnext (s : String) (hs : isIdent s) (ts : List String) :
      Scans (do word "."; identText) .atomic ('.' :: s.toList)
        ((ts.flatMap fun t ↦ '.' :: t.toList) ++ rest) s.toList := by
    refine Scans.cons_bind (scans_word ".") (scans_identText hs ?_)
    cases ts with
    | nil => exact hrest.not rfl
    | cons t ts =>
      rintro d ⟨⟩
      rfl
  have hchain (ss : List String) (hss : ∀ s ∈ ss, isIdent s) (o : Nat) :
      Chain (do skip; word "."; identText) .atomic ⟨o, (ss.flatMap fun t ↦ '.' :: t.toList) ++ rest⟩
        (ss.map String.toList) ⟨o + (ss.flatMap fun t ↦ '.' :: t.toList).length, rest⟩ := by
    induction ss generalizing o with
    | nil => exact .stop (Gives.bind (fun _ ↦ rfl) (hstop o))
    | cons s ss ih =>
      obtain ⟨hs, hss⟩ := List.forall_mem_cons.mp hss
      have hfirst := hnext s hs ss o
      rw [List.flatMap_cons, List.append_assoc, List.length_append, ← Nat.add_assoc]
      refine .step (Gives.bind (fun _ ↦ rfl) hfirst) ?_ (ih hss _)
      simp only [List.length_append, List.length_cons]
      omega
  intro o
  cases ss with
  | nil => exact (hstop o).star_none
  | cons s ss =>
    obtain ⟨hs, hss⟩ := List.forall_mem_cons.mp hss
    rw [List.flatMap_cons, List.append_assoc, List.length_append, ← Nat.add_assoc]
    exact Chain.star (hnext s hs ss o) (hchain ss hss _)

theorem reads_path {p : List String} (hne : p ≠ []) (hp : ∀ s ∈ p, isIdent s) :
    Reads path [.plain (pathText p)] us (· = p) := by
  refine reads_plain fun rest hrest o ↦ Gives.ruleIn ?_
  obtain ⟨s, ss, rfl⟩ := List.exists_cons_of_ne_nil hne
  obtain ⟨hs, hss⟩ := List.forall_mem_cons.mp hp
  have hfirst : Scans identText .atomic s.toList ((ss.flatMap fun t ↦ '.' :: t.toList) ++
      rest) s.toList := by
    refine scans_identText hs ?_
    cases ss with
    | nil => exact hrest.not rfl
    | cons t ts =>
      rintro d ⟨⟩
      rfl
  have hpath : Scans (do
      let first ← identText
      let more ← star do
        word "."
        identText
      pure ((first :: more).map String.ofList)) .atomic (pathText (s :: ss)) rest
        ((s.toList :: ss.map String.toList).map String.ofList) :=
    hfirst.bind ((scans_segments hss hrest).bind_nil (scans_pure _))
  have hnames : (s.toList :: ss.map String.toList).map String.ofList = s :: ss := by simp
  rw [hnames] at hpath
  exact hpath o

/-- A comparator is told from those before it in the grammar by its first two characters. -/
theorem reads_comparator (c : Comparator) : Reads comparator [.mark c.spelling] us (· = c) := by
  refine reads_plain fun rest hrest o ↦ Gives.ruleIn ?_
  have hsign (s : String) (c : Comparator) : Scans (do word s; pure c) .atomic s.toList rest c :=
    (scans_word s).bind_nil (scans_pure c)
  have hother {s : String} {c : Comparator} {cs : List Char}
      (h : ¬s.toList <+: cs ++ rest) (o : Nat) :
      (do word s; pure c : Parser Comparator).Gives .atomic ⟨o, cs ++ rest⟩ none :=
    (symbol_none h).bind_none
  have hends : ¬['='] <+: rest := by
    rintro ⟨ds, rfl⟩
    simpa [spacers] using hrest '=' rfl
  cases c with
  | compare c =>
    cases c with
    | eq => exact (hsign "==" _).orElse o
    | ne => exact (Scans.orElse_none (hother (by simp)) (hsign "!=" _).orElse) o
    | ge =>
      exact (Scans.orElse_none (hother (by simp)) <|
        Scans.orElse_none (hother (by simp)) (hsign ">=" _).orElse) o
    | le =>
      exact (Scans.orElse_none (hother (by simp)) <| Scans.orElse_none (hother (by simp)) <|
        Scans.orElse_none (hother (by simp)) (hsign "<=" _).orElse) o
    | gt =>
      exact (Scans.orElse_none (hother (by simp)) <| Scans.orElse_none (hother (by simp)) <|
        Scans.orElse_none (hother (by simpa using hends)) <| Scans.orElse_none (hother (by simp))
        (hsign ">" _).orElse) o
    | lt =>
      exact (Scans.orElse_none (hother (by simp)) <| Scans.orElse_none (hother (by simp)) <|
        Scans.orElse_none (hother (by simp)) <| Scans.orElse_none (hother (by simpa using hends)) <|
        Scans.orElse_none (hother (by simp)) (hsign "<" _).orElse) o
  | isIn =>
    have hin : Scans (do keyword "in"; pure Comparator.isIn) .atomic "in".toList rest .isIn :=
      (scans_keyword hrest).bind_nil (scans_pure _)
    exact (Scans.orElse_none (hother (by simp)) <| Scans.orElse_none (hother (by simp)) <|
      Scans.orElse_none (hother (by simp)) <| Scans.orElse_none (hother (by simp)) <|
      Scans.orElse_none (hother (by simp)) <| Scans.orElse_none (hother (by simp)) hin) o

theorem reads_keyword (s : String) {rule : Rule} : Reads (atomic rule (keyword s))
    [.mark s] us fun _ ↦ True :=
  (reads_plain fun _ hrest o ↦ Gives.ruleIn (scans_keyword hrest o)).mono fun _ _ ↦ trivial

theorem begins_keyword {s : String} {d : Char} {rule : Rule} (h : s.toList.head? = some d) :
    (atomic rule (keyword s)).Begins (· == d) :=
  Begins.ruleIn (begins_word h).bind

end Grammar

variable {us : List Lexeme} {depth : Nat}

theorem Node.reads_operand (n : Node Value) (hoperand : n.isOperand) (hn : n.isWritable)
    (hdepth : n.lexemes.length ≤ depth) (us : List Lexeme) :
    Reads (operand depth) n.lexemes us n.Means := by
  refine Reads.ruleIn ?_
  cases n with
  | literal v => exact (Node.reads_literal v).orElse
  | param name =>
    exact .orElse_none (refuses_plain begins_scalar rfl rfl : Refuses scalar _).bind
      (Node.reads_param hn).orElse
  | list items =>
    have hscalar : Refuses scalar ((Node.list items).lexemes ++ us) :=
      refuses_plain begins_scalar rfl rfl
    have hparam : Refuses Grammar.param ((Node.list items).lexemes ++ us) :=
      refuses_plain begins_param rfl rfl
    have hlist : Reads (Node.list <$> Grammar.list (value depth)) (Node.list items).lexemes us
        (Node.list items).Means :=
      Node.reads_items hn hdepth fun n hn hlength ↦ n.reads hn (by omega)
    exact .orElse_none hscalar.bind (.orElse_none hparam.bind hlist)
  | object _ => cases hoperand

theorem reads_predicate {path : List String} {comparator : Comparator} {n : Node Value}
    (h : (Expr.predicate path comparator n).isWritable) (hdepth : n.lexemes.length ≤ depth) :
    Reads (predicate depth) (Expr.predicate path comparator n).lexemes us
      (Expr.predicate path comparator n).Means := by
  simp only [Expr.isWritable, Bool.and_eq_true, Bool.not_eq_true', List.isEmpty_eq_false_iff,
    List.all_eq_true] at h
  obtain ⟨⟨⟨hne, hpath⟩, hoperand⟩, hn⟩ := h
  refine Reads.ruleIn
      ((reads_path hne hpath).then fun p hp ↦ (reads_comparator comparator).then fun c hc ↦
    (n.reads_operand hoperand hn hdepth us).bind_pure fun t ht text ↦ ?_)
  rw [Expr.resolve, ht text, hp, hc]
  rfl

/-! ### Expressions -/

/-- What may follow an expression. -/
def Closes (us : List Lexeme) : Prop :=
  us.head? = some (.mark "|") ∨ us.head? = some (.mark ")")

theorem refuses_head {α : Type} {p : Parser α} {first : Char → Bool} {s : String} {d : Char}
    (h : p.Begins first) (hus : us.head? = some (.mark s)) (hs : s.toList.head? = some d)
    (hd : first d = false) : Refuses p us := by
  cases us with
  | nil => cases hus
  | cons l us =>
    cases hus
    exact refuses_plain h hs hd

theorem Closes.refuses_or (h : Closes us) : Refuses orOp us := by
  obtain h | h := h
  · exact refuses_head (begins_keyword rfl : orOp.Begins (· == 'o')) h rfl rfl
  · exact refuses_head (begins_keyword rfl : orOp.Begins (· == 'o')) h rfl rfl

theorem Closes.refuses_and {vs : List Lexeme} (h : Closes us)
    (hvs : vs.head? = some (.mark "or") ∨ vs = us) :
    Refuses andOp vs := by
  have hand : andOp.Begins (· == 'a') := begins_keyword rfl
  obtain h' | rfl := hvs
  · exact refuses_head hand h' rfl rfl
  · obtain h | h := h
    · exact refuses_head hand h rfl rfl
    · exact refuses_head hand h rfl rfl

theorem isIdent_head {s : String} (h : isIdent s) :
    ∃ c cs, s.toList = c :: cs ∧ (c == '@' || isLetter c) = true := by
  unfold isIdent at h
  split at h
  · next c cs hcs => exact ⟨c, cs, hcs, (Bool.and_eq_true_iff.mp h).1⟩
  · cases h

/-- What no identifier begins with is refused where one stands. -/
theorem refuses_ident {α : Type} {p : Parser α} {d : Char} {s : String} {cs : List Char}
    (h : p.Begins (· == d)) (hd : (d == '@' || isLetter d) = false) (hs : isIdent s) :
    Refuses p (.plain (s.toList ++ cs) :: us) := by
  obtain ⟨c, ds, hds, hc⟩ := isIdent_head hs
  refine refuses_plain h (by rw [hds]; rfl) (beq_eq_false_iff_ne.mpr ?_)
  rintro rfl
  simp [hc] at hd

theorem reads_andExpr {term : Parser (Expr Token)} (d : Expr Value) (hd : d.isWritable)
    (hterm : ∀ c : Expr Value, c.isWritable → c.termLexemes.length ≤ d.andLexemes.length →
      ∀ vs, Reads term c.termLexemes vs c.Means)
    (hstop : Refuses andOp us) : Reads (andExpr term) d.andLexemes us d.Means := by
  obtain ⟨first, more, rfl, hrow⟩ := d.exists_conjuncts
  rw [Expr.isWritable_foldl fun _ _ ↦ rfl] at hd
  rw [hrow] at hterm ⊢
  exact Reads.ruleIn (reads_separated _ _ _ (fun vs ↦ reads_keyword "and")
    (fun c hc vs _ ↦ hterm c (hd c hc) (length_le_separated (List.mem_map_of_mem hc)) vs) hstop
    (fun t ts h ↦ Expr.Means.foldl (fun _ _ _ _ ↦ Expr.Means.and) h) (List.cons_ne_nil _ _))

theorem reads_orExpr {term : Parser (Expr Token)} (e : Expr Value) (he : e.isWritable)
    (hterm : ∀ c : Expr Value, c.isWritable → c.termLexemes.length ≤ e.lexemes.length →
      ∀ vs, Reads term c.termLexemes vs c.Means) (hus : Closes us) :
    Reads (do
      let first ← andExpr term
      skip
      let more ← star do
        orOp
        skip
        andExpr term
      pure (more.foldl Expr.or first)) e.lexemes us e.Means := by
  obtain ⟨first, more, rfl, hrow⟩ := e.exists_disjuncts
  rw [Expr.isWritable_foldl fun _ _ ↦ rfl] at he
  rw [hrow] at hterm ⊢
  refine reads_separated _ _ _ (fun vs ↦ reads_keyword "or") (fun d hd vs hvs ↦ ?_) hus.refuses_or
    (fun t ts h ↦ Expr.Means.foldl (fun _ _ _ _ ↦ Expr.Means.or) h) (List.cons_ne_nil _ _)
  refine reads_andExpr d (he d hd) (fun c hc hle ↦ hterm c hc (Nat.le_trans hle ?_))
    (hus.refuses_and hvs)
  exact length_le_separated (List.mem_map_of_mem hd)

/-- Expressions are read at every depth that their lexemes leave. -/
theorem Expr.reads (e : Expr Value) (he : e.isWritable)
    (hdepth : e.lexemes.length < depth) (hus : Closes us) :
    Reads (expr depth) e.lexemes us e.Means := by
  induction depth generalizing e us with
  | zero => exact absurd hdepth (Nat.not_lt_zero _)
  | succ depth ih =>
    refine Reads.ruleIn (reads_orExpr e he (fun c hwritable hle vs ↦ ?_) hus)
    have hlength : c.termLexemes.length ≤ depth := Nat.le_trans hle (Nat.le_of_lt_succ hdepth)
    have hparentheses (hwrapped : c.termLexemes = wrapped true c.lexemes) : Reads (do
        word "("
        skip
        let e ← expr depth
        skip
        word ")"
        pure e) c.termLexemes vs c.Means := by
      rw [hwrapped] at hlength ⊢
      simp only [wrapped, if_true, List.length_cons, List.length_append,
        List.length_nil] at hlength ⊢
      refine (reads_mark "(").then fun _ _ ↦ (ih c hwritable (by omega) (.inr rfl)).then fun t ht ↦
        (reads_mark ")").bind_pure fun _ _ ↦ ht
    cases c with
    | and l r => exact (hparentheses rfl).orElse
    | or l r => exact (hparentheses rfl).orElse
    | predicate path comparator n =>
      have hparen : Refuses (word "(") ((Expr.predicate path comparator n).termLexemes ++ vs) := by
        simp only [isWritable, Bool.and_eq_true, Bool.not_eq_true',
            List.isEmpty_eq_false_iff, List.all_eq_true]
          at hwritable
        obtain ⟨s, ss, rfl⟩ := List.exists_cons_of_ne_nil hwritable.1.1.1
        exact refuses_ident (begins_word rfl) rfl (hwritable.1.1.2 s List.mem_cons_self)
      refine .orElse_none hparen.bind (reads_predicate hwritable ?_)
      have hrow : (Expr.predicate path comparator n).termLexemes =
        .plain (pathText path) :: .mark comparator.spelling :: n.lexemes := rfl
      rw [hrow, List.length_cons, List.length_cons] at hlength
      omega

/-! ### Texts exist -/

theorem Expr.isSpelled_wrapped {needed : Bool} {ls : List Lexeme} (h : ∀ l ∈ ls, l.IsSpelled) :
    ∀ l ∈ wrapped needed ls, l.IsSpelled := by
  unfold wrapped
  split
  · exact List.forall_mem_cons.mpr ⟨Lexeme.isSpelled_mark rfl rfl, List.forall_mem_append.mpr
      ⟨h, List.forall_mem_singleton.mpr (Lexeme.isSpelled_mark rfl rfl)⟩⟩
  · exact h

theorem Expr.isSpelled (e : Expr Value) (h : e.isWritable) : ∀ l ∈ e.lexemes, l.IsSpelled := by
  induction e with
  | and l r hl hr =>
    rw [isWritable, Bool.and_eq_true] at h
    exact List.forall_mem_append.mpr ⟨isSpelled_wrapped (hl h.1), List.forall_mem_cons.mpr
      ⟨Lexeme.isSpelled_mark rfl rfl, isSpelled_wrapped (hr h.2)⟩⟩
  | or l r hl hr =>
    rw [isWritable, Bool.and_eq_true] at h
    exact List.forall_mem_append.mpr ⟨hl h.1, List.forall_mem_cons.mpr
      ⟨Lexeme.isSpelled_mark rfl rfl, isSpelled_wrapped (hr h.2)⟩⟩
  | predicate path comparator n =>
    simp only [isWritable, Bool.and_eq_true, Bool.not_eq_true', List.isEmpty_eq_false_iff,
      List.all_eq_true] at h
    obtain ⟨⟨⟨hne, hpath⟩, -⟩, hn⟩ := h
    obtain ⟨s, ss, rfl⟩ := List.exists_cons_of_ne_nil hne
    obtain ⟨c, cs, hs, hc⟩ := isIdent_head (hpath s List.mem_cons_self)
    have hspelled : (Lexeme.plain (pathText (s :: ss))).IsSpelled := by
      rw [pathText, hs]
      exact ⟨_, .plain (opens_of_ident hc)⟩
    have hcomparator : (Lexeme.mark comparator.spelling).IsSpelled := by
      cases comparator with
      | compare c => cases c <;> exact Lexeme.isSpelled_mark rfl rfl
      | isIn => exact Lexeme.isSpelled_mark rfl rfl
    exact List.forall_mem_cons.mpr ⟨hspelled,
      List.forall_mem_cons.mpr ⟨hcomparator, n.isSpelled hn⟩⟩

end EntityStore.Language
