import EntityStore.Proofs.Language.Agreement

/-!
Queries of other spacing are read alike. Every rule of the grammar agrees with itself on such texts,
and the literals of what it reads stand for the same values.
-/

set_option autoImplicit false

namespace EntityStore.Language

open EntityStore.Language.Parser

namespace Grammar

variable {m : Mode} {n n' : Nat}

/-! ### Tokens -/

theorem isInk_of (class_ : Char → Bool) (hclass : ('"' :: spacers).all (!class_ ·))
    (d : Char) (h : class_ d) :
    isInk d := by
  have hne : ∀ e ∈ '"' :: spacers, d ≠ e := by
    rintro e he rfl
    simpa [h] using List.all_eq_true.mp hclass d he
  simp only [spacers, List.forall_mem_cons, List.not_mem_nil, false_implies,
    implies_true, and_true] at hne
  simp [isInk, Lexeme.opens, isSpace, hne]

/-- Tokens of one kind over the same characters. -/
def SameToken (t u : Token) : Prop :=
  t.kind = u.kind ∧ t.chars = u.chars

theorem agree_chars {class_ : Char → Bool} (hclass : ('"' :: spacers).all (!class_ ·)) :
    Agree m n n' 0 (many (char class_)) (many (char class_)) Eq :=
  (agree_char (isInk_of class_ hclass)).many.mono (Nat.le_refl n) (Nat.le_refl n') (Nat.le_refl 0)
    fun _ _ h ↦ List.forall₂_eq_eq_eq ▸ h

theorem agree_keyword {s : String} (hs : s.toList.all isInk) :
    Agree m n n' s.toList.length (keyword s) (keyword s) Eq :=
  (agree_word hs).then fun _ _ _ ↦ agree_notNext (isInk_of isIdentChar rfl)

theorem agree_nameText : Agree .atomic n n' 0 nameText nameText Eq := by
  have hchars : Agree .atomic n n' 0 (do let _ ← char isLetter; many (char isNameChar))
      (do let _ ← char isLetter; many (char isNameChar)) Eq :=
    ((agree_char (isInk_of isLetter rfl)).then fun _ _ _ ↦ agree_chars rfl).weaken (Nat.zero_le 1)
  exact hchars.captured.then fun _ _ hxy ↦ agree_pure (congrArg String.ofList hxy)

theorem agree_identText : Agree .atomic n n' 1 identText identText Eq := by
  have hchars : Agree .atomic n n' 1
      (do let _ ← char fun c ↦ c == '@' || isLetter c; many (char isIdentChar))
      (do let _ ← char fun c ↦ c == '@' || isLetter c; many (char isIdentChar)) Eq :=
    (agree_char (isInk_of (fun c ↦ c == '@' || isLetter c) rfl)).then fun _ _ _ ↦ agree_chars rfl
  exact hchars.captured.then fun _ _ hxy ↦ agree_pure hxy

theorem agree_name : Agree m n n' 0 name name Eq :=
  agree_nameText.atomic

theorem agree_ident : Agree m n n' 0 ident ident Eq :=
  (agree_identText.map fun _ _ h ↦ congrArg String.ofList h).atomic.weaken (Nat.zero_le 1)

theorem agree_token {kind : LiteralKind} {rule : Rule} {k : Nat} {body : Parser Unit}
    (h : Agree .atomic n n' k body body Eq) :
    Agree m n n' k (atomic rule (token kind body)) (atomic rule (token kind body)) SameToken :=
  (h.captured.then fun _ _ hxy ↦ agree_pure ⟨rfl, hxy⟩).atomic

theorem agree_many₁ {class_ : Char → Bool} (hclass : ('"' :: spacers).all (!class_ ·)) :
    Agree m n n' 0 (many₁ (char class_)) (many₁ (char class_)) Eq :=
  ((agree_char (isInk_of class_ hclass)).then fun _ _ hxy ↦ (agree_chars hclass).then fun _ _ hxs ↦
    agree_pure (congrArg₂ List.cons hxy hxs)).weaken (Nat.zero_le 1)

theorem agree_exactly {class_ : Char → Bool} (hclass : ('"' :: spacers).all (!class_ ·)) (k : Nat) :
    Agree m n n' 0 (exactly (char class_) k) (exactly (char class_) k) Eq := by
  induction k generalizing n n' with
  | zero => exact agree_pure rfl
  | succ k ih =>
    exact ((agree_char (isInk_of class_ hclass)).then fun _ _ hxy ↦ ih.then fun _ _ hxs ↦
      agree_pure (congrArg₂ List.cons hxy hxs)).weaken (Nat.zero_le 1)

theorem agree_digits : Agree m n n' 0 digits digits Eq :=
  (agree_many₁ rfl).then fun _ _ _ ↦ agree_pure rfl

theorem agree_digitsOf (k : Nat) : Agree m n n' 0 (digitsOf k) (digitsOf k) Eq :=
  (agree_exactly rfl k).then fun _ _ _ ↦ agree_pure rfl

/-- A word of ink, wherever it stands. -/
theorem agree_mark {s : String} (hs : s.toList.all isInk) : Agree m n n' 0 (word s) (word s) Eq :=
  (agree_word hs).weaken (Nat.zero_le _)

theorem agree_minus : Agree m n n' 0 minus minus Eq :=
  (agree_mark rfl).optional.then fun _ _ _ ↦ agree_pure rfl

theorem agree_null : Agree m n n' 0 null null SameToken :=
  agree_token ((agree_keyword rfl).weaken (Nat.zero_le _))

theorem agree_boolean : Agree m n n' 0 boolean boolean SameToken :=
  agree_token
    (((agree_mark rfl).orElse (agree_mark rfl)).then fun _ _ _ ↦ agree_notNext
      (isInk_of isIdentChar rfl))

theorem agree_exponent : Agree m n n' 0 (do
      let _ ← char fun c ↦ c == 'e' || c == 'E'
      let _ ← optional (word "+" <|> word "-")
      digits) (do
      let _ ← char fun c ↦ c == 'e' || c == 'E'
      let _ ← optional (word "+" <|> word "-")
      digits) Eq :=
  ((agree_char (isInk_of (fun c ↦ c == 'e' || c == 'E') rfl)).then fun _ _ _ ↦
    ((agree_mark rfl).orElse (agree_mark rfl)).optional.then fun _ _ _ ↦ agree_digits).weaken
      (Nat.zero_le 1)

theorem agree_float : Agree m n n' 0 float float SameToken :=
  agree_token
    (agree_minus.then fun _ _ _ ↦ agree_digits.then fun _ _ _ ↦ (agree_mark rfl).then fun _ _ _ ↦
    agree_digits.then fun _ _ _ ↦ agree_exponent.optional.then fun _ _ _ ↦ agree_pure rfl)

theorem agree_integer : Agree m n n' 0 integer integer SameToken :=
  agree_token (agree_minus.then fun _ _ _ ↦ agree_digits)

theorem agree_datePart : Agree m n n' 0 datePart datePart Eq :=
  (agree_digitsOf 4).then fun _ _ _ ↦ (agree_mark rfl).then fun _ _ _ ↦
      (agree_digitsOf 2).then fun _ _ _ ↦
    (agree_mark rfl).then fun _ _ _ ↦ agree_digitsOf 2

theorem agree_fraction : Agree m n n' 0 (do word "."; digits) (do word "."; digits) Eq :=
  (agree_mark rfl).then fun _ _ _ ↦ agree_digits

theorem agree_timePart : Agree m n n' 0 timePart timePart Eq :=
  (agree_digitsOf 2).then fun _ _ _ ↦ (agree_mark rfl).then fun _ _ _ ↦
      (agree_digitsOf 2).then fun _ _ _ ↦
    (agree_mark rfl).then fun _ _ _ ↦ (agree_digitsOf 2).then fun _ _ _ ↦
    agree_fraction.optional.then fun _ _ _ ↦ agree_pure rfl

theorem agree_dateTime : Agree m n n' 0 dateTime dateTime SameToken :=
  agree_token
    ((agree_mark rfl).then fun _ _ _ ↦ agree_datePart.then fun _ _ _ ↦
      (agree_mark rfl).then fun _ _ _ ↦
    agree_timePart)

theorem agree_date : Agree m n n' 0 date date SameToken :=
  agree_token ((agree_mark rfl).then fun _ _ _ ↦ agree_datePart)

theorem agree_time : Agree m n n' 0 time time SameToken :=
  agree_token ((agree_mark rfl).then fun _ _ _ ↦ agree_timePart)

/-! ### Texts between quotes -/

/-- A backslash before a character that it does not escape. -/
theorem textChar_none_backslash {text : List Char}
    (h : ∀ d ∈ text.head?, ['"', '\\', '/', 'n', 'r', 't'].contains d = false) (o : Nat) :
    textChar.Gives m ⟨o, '\\' :: text⟩ none := by
  have hplain : (do let _ ← char fun c ↦ c != '"' && c != '\\' : Parser Unit).Gives m
      ⟨o, '\\' :: text⟩ none :=
    (begins_char _).bind.refuses rfl
  have hbackslash : (word "\\").Gives m ⟨o, '\\' :: text⟩ (some ((), ⟨o + 1, text⟩)) :=
    scans_word "\\" o
  exact hplain.orElse_none (hbackslash.bind (begins_char _ m _ h).bind_none)

theorem exists_escape {d : Char} (h : ['"', '\\', '/', 'n', 'r', 't'].contains d = true) :
    ∃ c, (d, c) ∈ escapes := by
  simp only [List.contains_cons, List.contains_nil, Bool.or_false, Bool.or_eq_true, beq_iff_eq] at h
  obtain rfl | rfl | rfl | rfl | rfl | rfl := h
  · exact ⟨'"', by simp [escapes]⟩
  · exact ⟨'\\', by simp [escapes]⟩
  · exact ⟨'/', by simp [escapes]⟩
  · exact ⟨'\n', by simp [escapes]⟩
  · exact ⟨'\r', by simp [escapes]⟩
  · exact ⟨'\t', by simp [escapes]⟩

/-- The characters of a text that may stand between quotes, up to one that may not. -/
theorem exists_quotes (text : List Char) : ∃ cs ds rest, text = ds ++ rest ∧ Quotes cs ds ∧
    ∀ m o, textChar.Gives m ⟨o, rest⟩ none := by
  induction h : text.length using Nat.strongRecOn generalizing text with
  | ind length ih =>
    have hrest {r : List Char} (hr : r.length < text.length) := ih r.length (h ▸ hr) r rfl
    cases text with
    | nil =>
      have hend : textChar.Begins fun d ↦ (d != '"' && d != '\\') || d == '\\' :=
        (begins_char _).bind.orElse (begins_word rfl).bind
      exact ⟨[], [], [], rfl, .nil, fun m o ↦ hend m _ (by rintro d ⟨⟩)⟩
    | cons c text =>
      by_cases hplain : c ≠ '"' ∧ c ≠ '\\'
      · obtain ⟨cs, ds, rest, rfl, hcs, hstop⟩ := hrest (Nat.lt_succ_self text.length)
        exact ⟨c :: cs, c :: ds, rest, rfl, .plain hplain hcs, hstop⟩
      · rw [not_and_or, not_not, not_not] at hplain
        obtain rfl | rfl := hplain
        · exact ⟨[], [], '"' :: text, rfl, .nil, fun m o ↦ textChar_none_quote⟩
        · cases text with
          | nil =>
            exact ⟨[], [], ['\\'], rfl, .nil, fun m o ↦ textChar_none_backslash (by rintro d ⟨⟩) o⟩
          | cons d text =>
            cases hd : ['"', '\\', '/', 'n', 'r', 't'].contains d with
            | false =>
              refine ⟨[], [], '\\' :: d :: text, rfl, .nil, fun m o ↦ textChar_none_backslash ?_ o⟩
              rintro e ⟨⟩
              exact hd
            | true =>
              obtain ⟨c, hc⟩ := exists_escape hd
              obtain ⟨cs, ds, rest, rfl, hcs, hstop⟩ :=
                hrest (Nat.lt_of_succ_lt (Nat.lt_succ_self (text.length + 1)))
              exact ⟨c :: cs, '\\' :: d :: ds, rest, rfl, .escaped hc hcs, hstop⟩

/-- A quote that opens no text. -/
theorem text_none {r : List Char} (h : Unclosed r) (o : Nat) : text.Gives m ⟨o, '"' :: r⟩ none := by
  obtain ⟨cs, ds, rest, rfl, hcs, hstop⟩ := exists_quotes r
  obtain ⟨us, hus⟩ := scans_textChars hcs (hstop .compound)
  have hopen : (captured (word "\"")).Gives .compound ⟨o, '"' :: (ds ++ rest)⟩
      (some ((o, ['"']), ⟨o + 1, ds ++ rest⟩)) :=
    gives_captured (scans_word "\"")
  have hclose : (word "\"").Gives .compound ⟨o + 1 + ds.length, rest⟩ none := by
    refine begins_word rfl _ _ fun d hd ↦ beq_eq_false_iff_ne.mpr ?_
    rintro rfl
    cases rest with
    | nil => cases hd
    | cons e rest =>
      cases hd
      exact h cs ds rest hcs rfl
  exact Gives.ruleIn (hopen.bind ((gives_captured hus).bind hclose.bind_none))

theorem agree_text : Agree .spaced n n' 0 text text SameToken := by
  rintro ⟨o, r⟩ ⟨o', r'⟩ - - hr
  obtain ⟨cs, ds, s, s', hds, rfl, rfl, hs⟩ | ⟨s, s', rfl, rfl, hs, hs'⟩ | ⟨h, h'⟩ := hr.quote
  · have hrow (s : List Char) : '"' :: (ds ++ '"' :: s) = '"' :: (ds ++ ['"']) ++ s := by simp
    have hlength : ('"' :: (ds ++ ['"'])).length = ds.length + 2 := by simp
    have hquotes : Quotes (String.ofList cs).toList ds := by rwa [String.toList_ofList]
    have hmoved : Moved .spaced 0 ⟨o, '"' :: (ds ++ '"' :: s)⟩ ⟨o + (ds.length + 2), s⟩
        ⟨o', '"' :: (ds ++ '"' :: s')⟩ ⟨o' + (ds.length + 2), s'⟩ :=
      ⟨_, _, hrow s, by
        rw [hlength], hrow s', by rw [hlength], Nat.zero_le _, Nat.zero_le _, fun h ↦ nomatch h⟩
    exact .inr ⟨_, _, _, _, text_gives hquotes, text_gives hquotes, ⟨rfl, rfl⟩, hs, hmoved⟩
  · exact .inl ⟨text_none hs o, text_none hs' o'⟩
  · exact .inl ⟨begins_text _ _ h, begins_text _ _ h'⟩

theorem agree_scalar : Agree .spaced n n' 0 scalar scalar SameToken :=
  agree_null.orElse <| agree_boolean.orElse <| agree_dateTime.orElse <| agree_date.orElse <|
    agree_time.orElse <| agree_float.orElse <| agree_integer.orElse agree_text

theorem agree_param : Agree .spaced n n' 0 param param Eq := by
  have hname : Agree .compound n n' 0 (do word "?"; name) (do word "?"; name) Eq :=
    (agree_mark rfl).then fun _ _ _ ↦ agree_name
  exact .ruleIn nofun hname

theorem agree_op {s : String} (hs : s.toList.all isInk) (hne : 1 ≤ s.toList.length) {rule : Rule} :
    Agree m n n' 1 (atomic rule (keyword s)) (atomic rule (keyword s)) Eq :=
  ((agree_keyword hs).weaken hne).atomic

theorem agree_comparator : Agree m n n' 0 comparator comparator Eq := by
  have hsign {s : String} {c : Comparator} (hs : s.toList.all isInk) :
      Agree .atomic n n' 0 (do word s; pure c) (do word s; pure c) Eq :=
    (agree_mark hs).then fun _ _ _ ↦ agree_pure rfl
  have hin : Agree .atomic n n' 0 (do keyword "in"; pure Comparator.isIn)
      (do keyword "in"; pure Comparator.isIn) Eq :=
    ((agree_keyword rfl).weaken (Nat.zero_le _)).then fun _ _ _ ↦ agree_pure rfl
  exact ((hsign rfl).orElse <| (hsign rfl).orElse <| (hsign rfl).orElse <| (hsign rfl).orElse <|
    (hsign rfl).orElse <| (hsign rfl).orElse hin).atomic

theorem agree_path : Agree m n n' 0 path path Eq := by
  have hsegment : Agree .atomic n n' 1 (do word "."; identText) (do word "."; identText) Eq :=
    (agree_word (rfl : ".".toList.all isInk)).then
      fun _ _ _ ↦ agree_identText.weaken (Nat.zero_le 1)
  have hfirst : Agree .atomic n n' 0 identText identText Eq :=
    agree_identText.weaken (Nat.zero_le 1)
  exact (hfirst.then fun x y hxy ↦ hsegment.star.then fun xs ys hxs ↦ agree_pure (by
    rw [List.forall₂_eq_eq_eq] at hxs
    rw [hxy, hxs])).atomic

theorem agree_direction : Agree m n n' 0 direction direction Eq := by
  have hword {s : String} {d : Direction} (hs : s.toList.all isInk) :
      Agree .atomic n n' 0 (do word s; pure d) (do word s; pure d) Eq :=
    (agree_mark hs).then fun _ _ _ ↦ agree_pure rfl
  exact ((hword rfl).orElse (hword rfl)).atomic

end Grammar

/-! ### What stands for the same -/

theorem Grammar.SameToken.integer {t u : Token} (h : SameToken t u) (text text' : List Char) :
    (t.integer text).toOption = (u.integer text').toOption := by
  unfold Token.integer
  rw [h.2]
  cases Token.value? u.chars <;> rfl

theorem Grammar.SameToken.calendar {t u : Token} (h : SameToken t u)
    (text text' : List Char) {α : Type} (read : List Char → Except CalendarError α)
    (fault : String → SyntaxFault) :
    (t.calendar text read fault).toOption = (u.calendar text' read fault).toOption := by
  unfold Token.calendar
  rw [h.2]
  cases read (u.chars.drop 1) <;> rfl

theorem Grammar.SameToken.value {t u : Token} (h : SameToken t u) (text text' : List Char) :
    (t.value text).toOption = (u.value text').toOption := by
  unfold Token.value
  rw [h.1]
  cases u.kind <;> simp only [Except.toOption_map, h.2, h.integer text text', h.calendar text text']

/-- Nodes over tokens that stand for the same node over values, or both for none. -/
def SameNode (x y : Node Token) : Prop :=
  ∀ text text', (x.resolve (Token.value text)).toOption = (y.resolve (Token.value text')).toOption

def SameEntry (x y : String × Node Token) : Prop :=
  x.1 = y.1 ∧ SameNode x.2 y.2

def SameExpr (x y : Expr Token) : Prop :=
  ∀ text text', (x.resolve (Token.value text)).toOption = (y.resolve (Token.value text')).toOption

def SameBound (x y : Bound Token) : Prop :=
  ∀ text text', (x.resolve (Token.integer text)).toOption =
    (y.resolve (Token.integer text')).toOption

def SameItem (x y : Item Token Token) : Prop :=
  ∀ text text', (x.resolve (Token.value text) (Token.integer text)).toOption =
    (y.resolve (Token.value text') (Token.integer text')).toOption

/-- Levels whose parts stand for the same. -/
structure SameLevel (l l' : Level Token Token) : Prop where
  filter : Option.Rel SameExpr l.filter l'.filter
  limit : Option.Rel SameBound l.limit l'.limit
  page : Option.Rel SameBound l.page l'.page
  items : List.Forall₂ SameItem l.items l'.items

theorem SameNode.literal {t u : Token} (h : Grammar.SameToken t u) :
    SameNode (.literal t) (.literal u) := by
  intro text text'
  simp only [Node.resolve, Except.toOption_map, h.value text text']

theorem SameNode.items {xs ys : List (Node Token)} (h : List.Forall₂ SameNode xs ys) :
    SameNode (.list xs) (.list ys) := by
  intro text text'
  have hitems : (Node.resolveItems (Token.value text) xs).toOption =
      (Node.resolveItems (Token.value text') ys).toOption := by
    induction h with
    | nil => rfl
    | cons h _ ih => simp only [Node.resolveItems, Except.toOption_bind, h text text', ih]
  simp only [Node.resolve, Except.toOption_map, hitems]

theorem SameNode.entries {xs ys : List (String × Node Token)} (h : List.Forall₂ SameEntry xs ys) :
    SameNode (.object xs) (.object ys) := by
  intro text text'
  have hentries : (Node.resolveEntries (Token.value text) xs).toOption =
      (Node.resolveEntries (Token.value text') ys).toOption := by
    induction h with
    | nil => rfl
    | @cons x y _ _ h _ ih =>
      obtain ⟨key, x⟩ := x
      obtain ⟨key', y⟩ := y
      obtain ⟨rfl, h⟩ := h
      simp only [Node.resolveEntries, Except.toOption_bind, h text text', ih]
  simp only [Node.resolve, Except.toOption_map, hentries]

theorem SameExpr.and {x y x' y' : Expr Token} (h : SameExpr x y) (h' : SameExpr x' y') :
    SameExpr (.and x x') (.and y y') := by
  intro text text'
  simp only [Expr.resolve, Except.toOption_bind, h text text', h' text text']

theorem SameExpr.or {x y x' y' : Expr Token} (h : SameExpr x y) (h' : SameExpr x' y') :
    SameExpr (.or x x') (.or y y') := by
  intro text text'
  simp only [Expr.resolve, Except.toOption_bind, h text text', h' text text']

theorem SameExpr.foldl {op : Expr Token → Expr Token → Expr Token}
    (hop : ∀ x y x' y', SameExpr x y → SameExpr x' y' → SameExpr (op x x') (op y y'))
    {x y : Expr Token} {xs ys : List (Expr Token)} (h : SameExpr x y)
    (hs : List.Forall₂ SameExpr xs ys) :
    SameExpr (xs.foldl op x) (ys.foldl op y) := by
  induction hs generalizing x y with
  | nil => exact h
  | cons h' _ ih => exact ih (hop _ _ _ _ h h')

theorem SameExpr.predicate {path : List String} {comparator : Comparator} {x y : Node Token}
    (h : SameNode x y) :
    SameExpr (.predicate path comparator x) (.predicate path comparator y) := by
  intro text text'
  simp only [Expr.resolve, Except.toOption_map, h text text']

theorem SameBound.literal {t u : Token} (h : Grammar.SameToken t u) :
    SameBound (.literal t) (.literal u) := by
  intro text text'
  simp only [Bound.resolve, Except.toOption_map, h.integer text text']

theorem SameItem.field {name : String} {sort sort' : Option (Direction × Token)}
    (h : Option.Rel (fun x y ↦ x.1 = y.1 ∧ Grammar.SameToken x.2 y.2) sort sort') :
    SameItem (.field name sort) (.field name sort') := by
  intro text text'
  cases h with
  | none => rfl
  | some h =>
    obtain ⟨hdirection, htoken⟩ := h
    simp only [Item.resolve, Except.toOption_bind, hdirection, htoken.integer text text']

theorem resolveOption_toOption {α γ ε : Type} {f g : α → Except ε γ}
    {Same : α → α → Prop} {x y : Option α} (hf : ∀ a b, Same a b → (f a).toOption = (g b).toOption)
    (h : Option.Rel Same x y) :
    (resolveOption f x).toOption = (resolveOption g y).toOption := by
  cases h with
  | none => rfl
  | some h => simp only [resolveOption, Except.toOption_map, hf _ _ h]

theorem SameBound.option {x y : Option (Bound Token)} (h : Option.Rel SameBound x y)
    (text text' : List Char) :
    (resolveOption (Bound.resolve (Token.integer text)) x).toOption =
      (resolveOption (Bound.resolve (Token.integer text')) y).toOption :=
  resolveOption_toOption (fun _ _ h ↦ h text text') h

theorem SameExpr.option {x y : Option (Expr Token)} (h : Option.Rel SameExpr x y)
    (text text' : List Char) :
    (resolveOption (Expr.resolve (Token.value text)) x).toOption =
      (resolveOption (Expr.resolve (Token.value text')) y).toOption :=
  resolveOption_toOption (fun _ _ h ↦ h text text') h

theorem SameItem.items {xs ys : List (Item Token Token)} (h : List.Forall₂ SameItem xs ys)
    (text text' : List Char) :
    (Item.resolveItems (Token.value text) (Token.integer text) xs).toOption =
      (Item.resolveItems (Token.value text') (Token.integer text') ys).toOption := by
  induction h with
  | nil => rfl
  | cons h _ ih => simp only [Item.resolveItems, Except.toOption_bind, h text text', ih]

theorem SameLevel.resolve {l l' : Level Token Token} (h : SameLevel l l') (text text' : List Char) :
    (l.resolve (Token.value text) (Token.integer text)).toOption =
      (l'.resolve (Token.value text') (Token.integer text')).toOption := by
  simp only [Level.resolve, Except.toOption_bind, SameExpr.option h.filter text text',
    SameBound.option h.limit text text', SameBound.option h.page text text',
    SameItem.items h.items text text']

theorem SameItem.relation {name : String} {l l' : Level Token Token} (h : SameLevel l l') :
    SameItem (.relation name l.filter l.limit l.page l.items)
      (.relation name l'.filter l'.limit l'.page l'.items) := by
  intro text text'
  simp only [Item.resolve, Except.toOption_bind, SameExpr.option h.filter text text',
    SameBound.option h.limit text text', SameBound.option h.page text text',
    SameItem.items h.items text text']

/-! ### Rules -/

namespace Grammar

variable {n n' d d' : Nat}

theorem agree_enclosed {α α' : Type} {opening closing : String} {p : Parser α}
    {q : Parser α'} {R : α → α' → Prop} (hopening : opening.toList.all isInk)
    (hne : 1 ≤ opening.toList.length) (hclosing : closing.toList.all isInk)
    (h : Agree .spaced n n' 0 p q R) :
    Agree .spaced (n + 1) (n' + 1) 0 (enclosed opening closing p) (enclosed opening closing q)
      (List.Forall₂ R) := by
  have hnext : Agree .spaced n n' 1 (do word ","; skip; p) (do word ","; skip; q) R :=
    (agree_word (rfl : ",".toList.all isInk)).then fun _ _ _ ↦ agree_skip.then fun _ _ _ ↦
      h.within (by omega) (by omega) (Nat.le_refl 0)
  have hitems : Agree .spaced n n' 0
      (do let x ← p; skip; let xs ← star (do word ","; skip; p); pure (x :: xs))
      (do let x ← q; skip; let xs ← star (do word ","; skip; q); pure (x :: xs)) (List.Forall₂ R) :=
    h.then fun _ _ hx ↦ agree_skip.then fun _ _ _ ↦ hnext.star.then
      fun _ _ hxs ↦ agree_pure (.cons hx hxs)
  refine (((agree_word hopening).weaken hne).then fun _ _ _ ↦ agree_skip.then fun _ _ _ ↦
    hitems.optional.then fun xs ys hxs ↦ agree_skip.then fun _ _ _ ↦
        (agree_mark rfl).optional.then fun _ _ _ ↦
    agree_skip.then fun _ _ _ ↦ (agree_mark hclosing).then fun _ _ _ ↦ agree_pure ?_).weaken
      (Nat.zero_le 1)
  cases hxs with
  | none => exact .nil
  | some h => exact h

theorem agree_list {p q : Parser (Node Token)} (h : Agree .spaced n n' 0 p q SameNode) :
    Agree .spaced (n + 1) (n' + 1) 0 (list p) (list q) (List.Forall₂ SameNode) :=
  (agree_enclosed rfl (by decide) rfl h).spaced

theorem agree_entry {p q : Parser (Node Token)} (h : Agree .spaced n n' 0 p q SameNode) :
    Agree .spaced n n' 0 (entry p) (entry q) SameEntry :=
  (agree_ident.then fun _ _ hkey ↦ agree_skip.then fun _ _ _ ↦ (agree_mark rfl).then fun _ _ _ ↦
    agree_skip.then fun _ _ _ ↦ h.then fun _ _ hv ↦ agree_pure ⟨hkey, hv⟩).spaced

theorem agree_object {p q : Parser (Node Token)} (h : Agree .spaced n n' 0 p q SameNode) :
    Agree .spaced (n + 1) (n' + 1) 0 (object p) (object q) (List.Forall₂ SameEntry) :=
  (agree_enclosed rfl (by decide) rfl (agree_entry h)).spaced

theorem agree_paramNode : Agree .spaced n n' 0 (Node.param <$> param)
    (Node.param <$> param) SameNode :=
  agree_param.map fun _ _ h _ _ ↦ by rw [h]; rfl

/-- Values of two bounds on their depth, in texts that are too short for the bounds to matter. -/
theorem agree_value : Agree .spaced d d' 0 (value d) (value d') SameNode := by
  induction d generalizing d' with
  | zero => exact fun c _ hc ↦ absurd hc (Nat.not_lt_zero _)
  | succ d ih =>
    cases d' with
    | zero => exact fun _ c' _ hc' ↦ absurd hc' (Nat.not_lt_zero _)
    | succ d' =>
      exact ((agree_scalar.map fun _ _ h ↦ SameNode.literal h).orElse <| agree_paramNode.orElse <|
        ((agree_list ih).map fun _ _ h ↦ SameNode.items h).orElse <|
        (agree_object ih).map fun _ _ h ↦ SameNode.entries h).spaced

theorem agree_operand : Agree .spaced (d + 1) (d' + 1) 0 (operand d) (operand d') SameNode :=
  ((agree_scalar.map fun _ _ h ↦ SameNode.literal h).orElse <| agree_paramNode.orElse <|
    (agree_list agree_value).map fun _ _ h ↦ SameNode.items h).spaced

theorem agree_predicate : Agree .spaced (d + 1) (d' + 1) 0 (predicate d) (predicate d') SameExpr :=
  (agree_path.then fun _ _ hpath ↦ agree_skip.then fun _ _ _ ↦ agree_comparator.then fun _ _ hc ↦
    agree_skip.then fun _ _ _ ↦ agree_operand.then
      fun _ _ h ↦ agree_pure (hpath ▸ hc ▸ SameExpr.predicate h)).spaced

theorem agree_andExpr {p q : Parser (Expr Token)} (h : Agree .spaced n n' 0 p q SameExpr) :
    Agree .spaced n n' 0 (andExpr p) (andExpr q) SameExpr := by
  have hnext : Agree .spaced n n' 1 (do andOp; skip; p) (do andOp; skip; q) SameExpr :=
    (agree_op rfl (by decide)).then fun _ _ _ ↦ agree_skip.then fun _ _ _ ↦
      h.within (by omega) (by omega) (Nat.le_refl 0)
  exact (h.then fun _ _ hx ↦ agree_skip.then fun _ _ _ ↦ hnext.star.then fun _ _ hxs ↦
    agree_pure (SameExpr.foldl (fun _ _ _ _ ↦ SameExpr.and) hx hxs)).spaced

theorem agree_orExpr {p q : Parser (Expr Token)} (h : Agree .spaced n n' 0 p q SameExpr) :
    Agree .spaced n n' 0
      (spaced .expr do
        let first ← p; skip; let more ← star do { orOp; skip; p }; pure (more.foldl Expr.or first))
      (spaced .expr do
        let first ← q; skip; let more ← star do { orOp; skip; q }; pure (more.foldl Expr.or first))
      SameExpr := by
  have hnext : Agree .spaced n n' 1 (do orOp; skip; p) (do orOp; skip; q) SameExpr :=
    (agree_op rfl (by decide)).then fun _ _ _ ↦ agree_skip.then fun _ _ _ ↦
      h.within (by omega) (by omega) (Nat.le_refl 0)
  exact (h.then fun _ _ hx ↦ agree_skip.then fun _ _ _ ↦ hnext.star.then fun _ _ hxs ↦
    agree_pure (SameExpr.foldl (fun _ _ _ _ ↦ SameExpr.or) hx hxs)).spaced

/-- A part between two words of ink, the first of them not empty. -/
theorem agree_between {α α' : Type} {opening closing : String} {p : Parser α}
    {q : Parser α'} {R : α → α' → Prop} (hopening : opening.toList.all isInk)
    (hne : 1 ≤ opening.toList.length) (hclosing : closing.toList.all isInk)
    (h : Agree .spaced n n' 0 p q R) :
    Agree .spaced (n + 1) (n' + 1) 0 (do word opening; skip; let x ← p; skip; word closing; pure x)
      (do word opening; skip; let x ← q; skip; word closing; pure x) R :=
  (((agree_word hopening).weaken hne).then fun _ _ _ ↦ agree_skip.then fun _ _ _ ↦
    h.then fun _ _ hxy ↦ agree_skip.then fun _ _ _ ↦ (agree_mark hclosing).then
      fun _ _ _ ↦ agree_pure hxy).weaken
    (Nat.zero_le 1)

/-- Expressions of two bounds on their depth. -/
theorem agree_expr : Agree .spaced d d' 0 (expr d) (expr d') SameExpr := by
  induction d generalizing d' with
  | zero => exact fun c _ hc ↦ absurd hc (Nat.not_lt_zero _)
  | succ d ih =>
    cases d' with
    | zero => exact fun _ c' _ hc' ↦ absurd hc' (Nat.not_lt_zero _)
    | succ d' =>
      exact agree_orExpr
        (agree_andExpr ((agree_between rfl (by decide) rfl ih).orElse agree_predicate))

theorem agree_filter : Agree .spaced (d + 1) (d' + 1) 0 (filter d) (filter d') SameExpr :=
  (agree_between rfl (by decide) rfl agree_expr).spaced

theorem agree_bound : Agree .spaced n n' 0 bound bound SameBound :=
  (agree_integer.map fun _ _ h ↦ SameBound.literal h).orElse <|
    agree_param.map fun _ _ h _ _ ↦ by rw [h]; rfl

theorem agree_limit : Agree .spaced n n' 0 limit limit SameBound :=
  ((agree_mark rfl).then fun _ _ _ ↦ agree_skip.then fun _ _ _ ↦ agree_bound).spaced

theorem agree_page : Agree .spaced n n' 0 page page SameBound :=
  ((agree_mark rfl).then fun _ _ _ ↦ agree_skip.then fun _ _ _ ↦ agree_bound).spaced

theorem agree_sort : Agree .spaced n n' 0 sort sort fun x y ↦ x.1 = y.1 ∧ SameToken x.2 y.2 :=
  ((agree_mark rfl).then fun _ _ _ ↦ agree_skip.then fun _ _ _ ↦ agree_direction.then fun _ _ hd ↦
    agree_skip.then fun _ _ _ ↦ agree_integer.then fun _ _ ht ↦ agree_skip.then fun _ _ _ ↦
    (agree_mark rfl).then fun _ _ _ ↦ agree_pure ⟨hd, ht⟩).spaced

theorem agree_all : Agree .spaced n n' 0 all all SameItem :=
  ((agree_mark rfl).then fun _ _ _ ↦ agree_pure fun _ _ ↦ rfl).spaced

theorem agree_fieldItem : Agree .spaced n n' 0 fieldItem fieldItem SameItem :=
  (agree_sort.optional.then fun _ _ hsort ↦ agree_skip.then fun _ _ _ ↦
      agree_ident.then fun _ _ hname ↦
    agree_pure (hname ▸ SameItem.field hsort)).spaced

variable {p q : Parser (List (Item Token Token))}

theorem agree_level (hn : n ≤ d + 1) (hn' : n' ≤ d' + 1)
    (h : Agree .spaced n n' 0 p q (List.Forall₂ SameItem)) :
    Agree .spaced n n' 0 (level d p) (level d' q) SameLevel := by
  have hfilter : Agree .spaced n n' 0 (filter d) (filter d') SameExpr :=
    agree_filter.within hn hn' (Nat.le_refl 0)
  exact hfilter.optional.then fun _ _ hfilter ↦ agree_skip.then fun _ _ _ ↦
      agree_limit.optional.then fun _ _ hlimit ↦
    agree_skip.then fun _ _ _ ↦ agree_page.optional.then fun _ _ hpage ↦ agree_skip.then fun _ _ _ ↦
    h.then fun _ _ hitems ↦ agree_pure ⟨hfilter, hlimit, hpage, hitems⟩

theorem agree_item (hn : n ≤ d + 1) (hn' : n' ≤ d' + 1)
    (h : Agree .spaced n n' 0 p q (List.Forall₂ SameItem)) :
    Agree .spaced n n' 0 (item d p) (item d' q) SameItem := by
  have hrelation : Agree .spaced n n' 0 (relation d p) (relation d' q) SameItem :=
    (agree_ident.then fun _ _ hname ↦ agree_skip.then fun _ _ _ ↦
        (agree_level hn hn' h).then fun _ _ hlevel ↦
      agree_pure (hname ▸ SameItem.relation hlevel)).spaced
  exact (agree_all.orElse <| hrelation.orElse agree_fieldItem).spaced

/-- Selections of two bounds on their depth. -/
theorem agree_selection {more more' : Nat} (hmore : more ≤ d) (hmore' : more' ≤ d') :
    Agree .spaced more more' 0 (selection d more) (selection d' more') (List.Forall₂ SameItem) := by
  induction more generalizing more' with
  | zero => exact fun c _ hc ↦ absurd hc (Nat.not_lt_zero _)
  | succ more ih =>
    cases more' with
    | zero => exact fun _ c' _ hc' ↦ absurd hc' (Nat.not_lt_zero _)
    | succ more' =>
      have hitem : Agree .spaced more more' 0 (item d (selection d more))
          (item d' (selection d' more')) SameItem :=
        agree_item (by omega) (by omega) (ih (by omega) (by omega))
      exact (agree_enclosed rfl (by decide) rfl hitem).spaced

/-- What the rule of a query reads after the spacing in front. -/
def queryBody (depth : Nat) : Parser (QueryForm Token Token) := do
  let entity ← name
  skip
  let body ← level depth (selection depth depth)
  skip
  spaced .endOfText atEnd
  pure ⟨entity, body⟩

theorem agree_queryBody : Agree .spaced d d' 0 (queryBody d) (queryBody d')
    fun f g ↦ f.entity = g.entity ∧ SameLevel f.body g.body := by
  have hlevel : Agree .spaced d d' 0 (level d (selection d d))
      (level d' (selection d' d')) SameLevel :=
    agree_level (Nat.le_succ d) (Nat.le_succ d') (agree_selection (Nat.le_refl d) (Nat.le_refl d'))
  exact agree_name.then fun _ _ hname ↦ agree_skip.then fun _ _ _ ↦ hlevel.then fun _ _ hlevel ↦
    agree_end ⟨hname, hlevel⟩

end Grammar

/-- A rule that skips the spacing in front reads related results from two texts that differ in their
spacing only, or reads neither. -/
theorem parse_alike {α : Type} {rule : Nat → Parser α} {r : Rule}
    {p : Nat → Parser α} {R : α → α → Prop} {text text' : List Char}
    (hrule : ∀ d, rule d = spaced r (do skip; p d))
    (hp : ∀ d d', Agree .spaced d d' 0 (p d) (p d') R)
    (h : Respaced (skipSpace false text) (skipSpace false text')) :
    Except.Both (fun _ _ ↦ True) R (parse rule text) (parse rule text') := by
  have hlength (text : List Char) : (skipSpace false text).length < text.length + 1 := by
    obtain ⟨gap, hgap⟩ := skipSpace_suffix false text
    have := congrArg List.length hgap
    rw [List.length_append] at this
    omega
  have hrun (text : List Char) : ∃ o, ∀ {d : Nat} {x : Option (α × Cursor)},
      (p d).Gives .spaced ⟨o, skipSpace false text⟩ x → (rule d).Gives .spaced ⟨0, text⟩ x := by
    refine ⟨0 + (text.length - (skipSpace false text).length), fun hx ↦ ?_⟩
    have hskip : skip.Gives .spaced ⟨0, text⟩ (some ((), ⟨_, skipSpace false text⟩)) := fun _ ↦ rfl
    rw [hrule]
    exact Gives.ruleIn (hskip.bind hx)
  obtain ⟨o, hrun₁⟩ := hrun text
  obtain ⟨o', hrun₂⟩ := hrun text'
  unfold parse
  obtain ⟨hp, hq⟩ | ⟨x, y, c, c', hp, hq, hxy, -⟩ :=
    hp _ _ ⟨o, _⟩ ⟨o', _⟩ (hlength text) (hlength text') h
  · obtain ⟨a, ha⟩ := run_of_gives_none (hrun₁ hp)
    obtain ⟨b, hb⟩ := run_of_gives_none (hrun₂ hq)
    rw [ha, hb]
    exact .error trivial
  · rw [run_of_gives (hrun₁ hp), run_of_gives (hrun₂ hq)]
    exact .ok hxy

/-- Texts of queries that differ in their spacing only read to the same form, or neither is read. -/
theorem readQuery_respaced {text text' : String}
    (h : Respaced (skipSpace false text.toList) (skipSpace false text'.toList)) :
    (readQuery text).toOption = (readQuery text').toOption := by
  have hquery (d : Nat) : Grammar.query d = spaced .query (do skip; Grammar.queryBody d) := rfl
  have hparse := parse_alike hquery (fun _ _ ↦ Grammar.agree_queryBody) h
  refine hparse.toOption_bind fun f g ⟨hentity, hbody⟩ ↦ ?_
  rw [hentity, Except.toOption_bind, Except.toOption_bind, hbody.resolve text.toList text'.toList]

end EntityStore.Language
