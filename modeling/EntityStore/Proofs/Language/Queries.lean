import EntityStore.Proofs.Language.Expressions

/-!
The texts of queries. A query over the names and literals of the language is written as a row of
lexemes; however the row is laid out, reading it gives the query back.
-/

set_option autoImplicit false

namespace EntityStore.Language

open EntityStore.Language.Parser EntityStore.Language.Grammar

/-! ### What can be written -/

def Bound.isWritable : Bound Int64 → Bool
  | .literal _ => true
  | .param name => isName name

mutual

def Item.isWritable : Item Value Int64 → Bool
  | .all => true
  | .field name _ => isIdent name
  | .relation name filter limit page items =>
    isIdent name && filter.all Expr.isWritable && limit.all Bound.isWritable &&
      page.all Bound.isWritable && Item.areWritable items

def Item.areWritable : List (Item Value Int64) → Bool
  | [] => true
  | i :: is => i.isWritable && Item.areWritable is

end

def Level.isWritable (l : Level Value Int64) : Bool :=
  l.filter.all Expr.isWritable && l.limit.all Bound.isWritable && l.page.all Bound.isWritable &&
    Item.areWritable l.items

def QueryForm.isWritable (form : QueryForm Value Int64) : Bool :=
  isName form.entity && form.body.isWritable

/-! ### How it is written -/

def filterLexemes (e : Expr Value) : List Lexeme :=
  .mark "|" :: (e.lexemes ++ [.mark "|"])

def Bound.lexeme : Bound Int64 → Lexeme
  | .literal n => .long n
  | .param name => .param name

def boundLexemes (word : String) (b : Bound Int64) : List Lexeme :=
  [.mark word, b.lexeme]

def directionSpelling : Direction → String
  | .ascending => "asc"
  | .descending => "dsc"

mutual

def Item.lexemes : Item Value Int64 → List Lexeme
  | .all => [.mark "*"]
  | .field name none => [.mark name]
  | .field name (some (direction, n)) =>
    [.mark "(", .mark (directionSpelling direction), .long n, .mark ")", .mark name]
  | .relation name filter limit page items =>
    .mark name :: (filter.elim [] filterLexemes ++ (limit.elim [] (boundLexemes "limit") ++
      (page.elim [] (boundLexemes "page") ++ bracketed "\x7b" "\x7d" (Item.rows items))))

def Item.rows : List (Item Value Int64) → List (List Lexeme)
  | [] => []
  | i :: is => i.lexemes :: Item.rows is

end

def Level.lexemes (l : Level Value Int64) : List Lexeme :=
  l.filter.elim [] filterLexemes ++ (l.limit.elim [] (boundLexemes "limit") ++
    (l.page.elim [] (boundLexemes "page") ++ bracketed "\x7b" "\x7d" (l.items.map Item.lexemes)))

def QueryForm.lexemes (form : QueryForm Value Int64) : List Lexeme :=
  .mark form.entity :: form.body.lexemes

@[simp]
theorem Item.rows_eq (items : List (Item Value Int64)) :
    Item.rows items = items.map Item.lexemes := by
  induction items with
  | nil => rfl
  | cons i is ih => rw [Item.rows, ih, List.map_cons]

theorem Item.areWritable_iff {items : List (Item Value Int64)} :
    Item.areWritable items ↔ ∀ i ∈ items, i.isWritable := by
  induction items with
  | nil => simp [Item.areWritable]
  | cons i is ih => simp [Item.areWritable, ih]

variable {us : List Lexeme} {depth : Nat}

/-! ### Levels -/

def Bound.Means (b : Bound Int64) (t : Bound Token) : Prop :=
  ∀ text, t.resolve (Token.integer text) = .ok b

def Item.Means (i : Item Value Int64) (t : Item Token Token) : Prop :=
  ∀ text, t.resolve (Token.value text) (Token.integer text) = .ok i

def Level.Means (l : Level Value Int64) (t : Level Token Token) : Prop :=
  ∀ text, t.resolve (Token.value text) (Token.integer text) = .ok l

theorem Item.Means.items {is : List (Item Value Int64)} {ts : List (Item Token Token)}
    (h : List.Forall₂ Item.Means is ts) (text : List Char) :
    Item.resolveItems (Token.value text) (Token.integer text) ts = .ok is := by
  induction h with
  | nil => rfl
  | cons h _ ih =>
    rw [Item.resolveItems, h text, ih]
    rfl

theorem resolveOption_eq {α β ε : Type} {f : α → Except ε β} {Means : β → α → Prop}
    {x : Option α} {y : Option β} (hf : ∀ b a, Means b a → f a = .ok b) (h : Option.Rel Means y x) :
    resolveOption f x = .ok y := by
  cases h with
  | none => rfl
  | some h =>
    rw [resolveOption, hf _ _ h]
    rfl

theorem Bound.reads (b : Bound Int64) (h : b.isWritable) : Reads bound [b.lexeme] us b.Means := by
  cases b with
  | literal n =>
    refine (reads_integer.map fun t ht text ↦ ?_).orElse
    rw [Bound.resolve, ht.1 text]
    rfl
  | param name =>
    have hinteger : Refuses integer ([Lexeme.param name] ++ us) :=
      refuses_plain begins_integer rfl rfl
    refine .orElse_none hinteger.bind ((reads_param h).map fun t ht text ↦ ?_)
    rw [Bound.resolve, ht]

/-- A part that may be missing, in front of lexemes that it refuses. -/
theorem reads_optional {α β : Type} {p : Parser β} {row : α → List Lexeme}
    {Means : α → β → Prop} {x : Option α} (hp : ∀ a ∈ x, Reads p (row a) us (Means a))
    (hmissing : Refuses p us) :
    Reads p.optional (x.elim [] row) us (Option.Rel Means x) := by
  cases x with
  | none => exact hmissing.optional.mono fun y hy ↦ hy ▸ .none
  | some a =>
    refine (hp a rfl).optional.mono fun y hy ↦ ?_
    obtain ⟨b, rfl, hb⟩ := hy
    exact .some hb

theorem reads_filter {e : Expr Value} (h : e.isWritable)
    (hdepth : (filterLexemes e).length ≤ depth) :
    Reads (Grammar.filter depth) (filterLexemes e) us e.Means := by
  simp only [filterLexemes, List.length_cons, List.length_append, List.length_nil] at hdepth
  have hexpr : Reads (expr depth) e.lexemes (.mark "|" :: us) e.Means :=
    e.reads h (by omega) (.inl rfl)
  exact ((reads_mark "|").then fun _ _ ↦ hexpr.then fun t ht ↦ (reads_mark "|").bind_pure
    fun _ _ ↦ ht).ruleIn

theorem reads_bound {s : String} {rule : Rule} {b : Bound Int64} (h : b.isWritable) :
    Reads (spaced rule (do word s; skip; bound)) (boundLexemes s b) us b.Means :=
  ((reads_mark s).then fun _ _ ↦ b.reads h).ruleIn

theorem begins_filter : (Grammar.filter depth).Begins (· == '|') :=
  Begins.ruleIn (begins_word rfl).bind

theorem begins_limit : limit.Begins (· == 'l') :=
  Begins.ruleIn (begins_word rfl).bind

theorem begins_page : page.Begins (· == 'p') :=
  Begins.ruleIn (begins_word rfl).bind

theorem begins_selection {more : Nat} : (selection depth more).Begins (· == '\x7b') := by
  cases more with
  | zero => exact begins_fail
  | succ more => exact Begins.ruleIn (begins_word rfl).bind

/-- Filter, limit and page of a level, each in front of what is none of it. -/
theorem reads_level {filter : Option (Expr Value)} {limit page : Option (Bound Int64)}
    {items : List (Item Value Int64)} {selection : Parser (List (Item Token Token))}
    (hfilter : ∀ e ∈ filter, e.isWritable) (hlimit : ∀ b ∈ limit, b.isWritable)
    (hpage : ∀ b ∈ page, b.isWritable) (hdepth : (filter.elim [] filterLexemes).length ≤ depth)
    (hitems : Reads selection (bracketed "\x7b" "\x7d" (items.map Item.lexemes)) us
      (List.Forall₂ Item.Means items)) :
    Reads (level depth selection) (Level.lexemes ⟨filter, limit, page, items⟩) us
      (Level.Means ⟨filter, limit, page, items⟩) := by
  have hnoPage : Refuses Grammar.page (bracketed "\x7b" "\x7d" (items.map Item.lexemes) ++ us) :=
    refuses_plain begins_page rfl rfl
  have hnoLimit : Refuses Grammar.limit (page.elim [] (boundLexemes "page") ++
      bracketed "\x7b" "\x7d" (items.map Item.lexemes) ++ us) := by
    cases page with
    | none => exact refuses_plain begins_limit rfl rfl
    | some _ => exact refuses_plain begins_limit rfl rfl
  have hnoFilter : Refuses (Grammar.filter depth) (limit.elim [] (boundLexemes "limit") ++
      (page.elim [] (boundLexemes "page") ++ bracketed "\x7b" "\x7d" (items.map Item.lexemes)) ++
        us) := by
    cases limit with
    | none =>
      cases page with
      | none => exact refuses_plain begins_filter rfl rfl
      | some _ => exact refuses_plain begins_filter rfl rfl
    | some _ => exact refuses_plain begins_filter rfl rfl
  have hreadsFilter (e : Expr Value) (he : e ∈ filter) (vs : List Lexeme) :
      Reads (Grammar.filter depth) (filterLexemes e) vs e.Means := by
    refine reads_filter (hfilter e he) ?_
    cases he
    exact hdepth
  refine (reads_optional (fun e he ↦ hreadsFilter e he _) hnoFilter).then fun f hf ↦
    (reads_optional (fun b hb ↦ reads_bound (hlimit b hb)) hnoLimit).then fun a ha ↦
    (reads_optional (fun b hb ↦ reads_bound (hpage b hb)) hnoPage).then fun b hb ↦
    hitems.bind_pure fun is his text ↦ ?_
  have hbound : ∀ b a, Bound.Means b a → Bound.resolve (Token.integer text) a = .ok b :=
    fun b a h ↦ h text
  rw [Level.resolve, resolveOption_eq (fun b a (h : Expr.Means b a) ↦ h text) hf,
    resolveOption_eq hbound ha, resolveOption_eq hbound hb, Item.Means.items his text]
  rfl

/-- What may follow an item. -/
def EndsItem (us : List Lexeme) : Prop :=
  us.head? = some (.mark ",") ∨ us.head? = some (.mark "\x7d")

theorem EndsItem.refuses {α : Type} {p : Parser α} {first : Char → Bool} (hus : EndsItem us)
    (h : p.Begins first) (hcomma : first ',' = false) (hbrace : first '\x7d' = false) :
    Refuses p us := by
  obtain hus | hus := hus
  · exact refuses_head h hus rfl hcomma
  · exact refuses_head h hus rfl hbrace

/-- An item without a selection is no relation. -/
theorem EndsItem.refuses_level (hus : EndsItem us) {more : Nat} :
    Refuses (level depth (selection depth more)) us := by
  have hfilter : Refuses (Grammar.filter depth) us := hus.refuses begins_filter rfl rfl
  have hlimit : Refuses limit us := hus.refuses begins_limit rfl rfl
  have hpage : Refuses page us := hus.refuses begins_page rfl rfl
  have hselection : Refuses (selection depth more) us := hus.refuses begins_selection rfl rfl
  exact hfilter.optional.then_refuses fun _ _ ↦ hlimit.optional.then_refuses fun _ _ ↦
    hpage.optional.then_refuses fun _ _ ↦ hselection.bind

/-! ### Items -/

theorem begins_all : all.Begins (· == '*') :=
  Begins.ruleIn (begins_word rfl).bind

theorem begins_sort : sort.Begins (· == '(') :=
  Begins.ruleIn (begins_word rfl).bind

theorem refuses_name {α : Type} {p : Parser α} {d : Char} {s : String} (h : p.Begins (· == d))
    (hd : (d == '@' || isLetter d) = false) (hs : isIdent s) : Refuses p (.mark s :: us) := by
  have hrefuses : Refuses p (.plain (s.toList ++ []) :: us) := refuses_ident h hd hs
  rwa [List.append_nil] at hrefuses

theorem reads_direction (d : Direction) :
    Reads direction [.mark (directionSpelling d)] us (· = d) := by
  refine reads_plain fun rest _ o ↦ Gives.ruleIn ?_
  have hword (s : String) (d : Direction) : Scans (do word s; pure d) .atomic s.toList rest d :=
    (scans_word s).bind_nil (scans_pure d)
  have hother : ¬"asc".toList <+: "dsc".toList ++ rest := by simp
  cases d with
  | ascending => exact (hword "asc" _).orElse o
  | descending => exact (hword "dsc" _).orElse_none (fun _ ↦ (symbol_none hother).bind_none) o

theorem reads_sort (d : Direction) (n : Int64) :
    Reads sort [.mark "(", .mark (directionSpelling d), .long n, .mark ")"] us fun t ↦ t.1 = d ∧
    t.2.IsInteger n := by
  have hinteger (vs : List Lexeme) : Reads integer [.long n] vs fun t ↦ t.IsInteger n :=
    reads_integer.mono fun _ h ↦ h.1
  exact ((reads_mark "(").then fun _ _ ↦ (reads_direction d).then fun _ hd ↦
      (hinteger _).then fun _ hn ↦
    (reads_mark ")").bind_pure fun _ _ ↦ ⟨hd, hn⟩).ruleIn

theorem reads_field {name : String} {sort : Option (Direction × Int64)} (h : isIdent name) :
    Reads fieldItem (Item.field name sort).lexemes us (Item.field name sort).Means := by
  refine Reads.ruleIn ?_
  cases sort with
  | none =>
    have hsort : Refuses Grammar.sort ([.mark name] ++ us) := refuses_name begins_sort rfl h
    refine hsort.optional.missing fun s hs ↦ (reads_ident h).bind_pure fun t ht text ↦ ?_
    rw [hs, ht, Item.resolve]
  | some sort =>
    obtain ⟨d, n⟩ := sort
    refine Reads.then (reads_sort d n).optional
      fun s hs ↦ (reads_ident h).bind_pure fun t ht text ↦ ?_
    obtain ⟨⟨d', t'⟩, rfl, hd, hn⟩ := hs
    rw [ht, Item.resolve, hn text, ← hd]
    rfl

theorem reads_relation {name : String} {filter : Option (Expr Value)}
    {limit page : Option (Bound Int64)} {items : List (Item Value Int64)}
    {selection : Parser (List (Item Token Token))} (hname : isIdent name)
    (hlevel : Reads (level depth selection) (Level.lexemes ⟨filter, limit, page, items⟩) us
      (Level.Means ⟨filter, limit, page, items⟩)) :
    Reads (relation depth selection) (Item.relation name filter limit page items).lexemes us
      (Item.relation name filter limit page items).Means := by
  rw [Item.lexemes, Item.rows_eq]
  refine Reads.ruleIn ((reads_ident hname).then fun n hn ↦ hlevel.bind_pure fun l hl text ↦ ?_)
  have hresolved := hl text
  obtain ⟨f, hf, hresolved⟩ := Except.bind_eq_ok.mp hresolved
  obtain ⟨a, ha, hresolved⟩ := Except.bind_eq_ok.mp hresolved
  obtain ⟨b, hb, hresolved⟩ := Except.bind_eq_ok.mp hresolved
  obtain ⟨is, his, hresolved⟩ := Except.bind_eq_ok.mp hresolved
  cases hresolved
  rw [Item.resolve, hf, ha, hb, his, hn]
  rfl

/-- Selections are read at every depth that their lexemes leave. -/
theorem Item.reads_selection {more : Nat} (items : List (Item Value Int64))
    (h : Item.areWritable items)
    (hmore : (bracketed "\x7b" "\x7d" (items.map Item.lexemes)).length ≤ more)
    (hdepth : (bracketed "\x7b" "\x7d" (items.map Item.lexemes)).length ≤ depth) :
    Reads (selection depth more) (bracketed "\x7b" "\x7d" (items.map Item.lexemes)) us
      (List.Forall₂ Item.Means items) := by
  induction more generalizing items us with
  | zero => simp [bracketed] at hmore
  | succ more ih =>
    rw [Item.areWritable_iff] at h
    have hempty : Refuses (item depth (selection depth more)) (.mark "\x7d" :: us) := by
      have hident {vs : List Lexeme} : Refuses ident (.mark "\x7d" :: vs) :=
        refuses_plain begins_ident rfl rfl
      have hsort : Refuses sort (.mark "\x7d" :: us) := refuses_plain begins_sort rfl rfl
      have hfield : Refuses fieldItem (.mark "\x7d" :: us) :=
        (hsort.optional.then_refuses fun _ _ ↦ hident.bind).ruleIn
      exact ((refuses_plain begins_all rfl rfl).orElse (hident.bind.ruleIn.orElse hfield)).ruleIn
    refine (reads_enclosed (fun i hi vs hvs ↦ ?_) hempty rfl (by decide)).ruleIn
    have hi' := h i hi
    have hlengthMore := length_le_bracketed (List.mem_map_of_mem hi) hmore
    have hlengthDepth := length_le_bracketed (List.mem_map_of_mem hi) hdepth
    refine Reads.ruleIn ?_
    cases i with
    | all => exact ((reads_mark "*").bind_pure fun _ _ _ ↦ rfl).ruleIn.orElse
    | field name sort =>
      have hfield : Reads fieldItem (Item.field name sort).lexemes vs
        (Item.field name sort).Means := reads_field hi'
      cases sort with
      | none =>
        have hall : Refuses Grammar.all ([.mark name] ++ vs) := refuses_name begins_all rfl hi'
        have hrelation : Refuses (Grammar.relation depth (selection depth more))
            ([.mark name] ++ vs) :=
          ((reads_ident hi').then_refuses fun _ _ ↦ (EndsItem.refuses_level hvs).bind).ruleIn
        exact .orElse_none hall (.orElse_none hrelation hfield)
      | some sort =>
        have hall : Refuses Grammar.all ((Item.field name (some sort)).lexemes ++ vs) :=
          refuses_plain begins_all rfl rfl
        have hident : Refuses ident ((Item.field name (some sort)).lexemes ++ vs) :=
          refuses_plain begins_ident rfl rfl
        exact .orElse_none hall (.orElse_none hident.bind.ruleIn hfield)
    | relation name filter limit page items =>
      simp only [Item.isWritable, Bool.and_eq_true, Option.all_eq_true] at hi'
      obtain ⟨⟨⟨⟨hname, hfilter⟩, hlimit⟩, hpage⟩, hitems⟩ := hi'
      simp only [Item.lexemes, Item.rows_eq, List.length_cons, List.length_append]
        at hlengthMore hlengthDepth
      have hall : Refuses Grammar.all
          ((Item.relation name filter limit page items).lexemes ++ vs) :=
        refuses_name begins_all rfl hname
      have hselection : Reads (selection depth more)
          (bracketed "\x7b" "\x7d" (items.map Item.lexemes)) vs (List.Forall₂ Item.Means items) :=
            ih items hitems (by omega) (by omega)
      exact .orElse_none hall
        (reads_relation hname (reads_level hfilter hlimit hpage (by omega) hselection)).orElse

/-! ### Texts exist -/

theorem isSpelled_elim {α : Type} {row : α → List Lexeme} {x : Option α}
    (h : ∀ a ∈ x, ∀ l ∈ row a, l.IsSpelled) :
    ∀ l ∈ x.elim [] row, l.IsSpelled := by
  cases x with
  | none => exact List.forall_mem_nil _
  | some a => exact h a rfl

theorem isSpelled_filter {e : Expr Value} (h : e.isWritable) : ∀ l ∈ filterLexemes e, l.IsSpelled :=
  List.forall_mem_cons.mpr ⟨Lexeme.isSpelled_mark rfl rfl, List.forall_mem_append.mpr
    ⟨e.isSpelled h, List.forall_mem_singleton.mpr (Lexeme.isSpelled_mark rfl rfl)⟩⟩

theorem Bound.isSpelled (b : Bound Int64) : b.lexeme.IsSpelled := by
  cases b with
  | literal n => exact ⟨_, .literal (.long n)⟩
  | param name => exact isSpelled_param name

theorem isSpelled_level {filter : Option (Expr Value)}
    {limit page : Option (Bound Int64)} {ls : List Lexeme} (hfilter : ∀ e ∈ filter, e.isWritable)
    (hls : ∀ l ∈ ls, l.IsSpelled) :
    ∀ l ∈ filter.elim [] filterLexemes ++ (limit.elim [] (boundLexemes "limit") ++
      (page.elim [] (boundLexemes "page") ++ ls)), l.IsSpelled := by
  have hbound {s : String} {d : Char} {ds : List Char} (hs : s.toList = d :: ds)
      (hd : Lexeme.opens d) (b : Bound Int64) : ∀ l ∈ boundLexemes s b, l.IsSpelled :=
    List.forall_mem_cons.mpr ⟨Lexeme.isSpelled_mark hs hd,
      List.forall_mem_singleton.mpr b.isSpelled⟩
  simp only [List.forall_mem_append]
  exact ⟨isSpelled_elim fun e he ↦ isSpelled_filter (hfilter e he),
    isSpelled_elim fun b _ ↦ hbound rfl rfl b, isSpelled_elim fun b _ ↦ hbound rfl rfl b, hls⟩

mutual

theorem Item.isSpelled : (i : Item Value Int64) → i.isWritable → ∀ l ∈ i.lexemes, l.IsSpelled
  | .all, _ => List.forall_mem_singleton.mpr (Lexeme.isSpelled_mark rfl rfl)
  | .field name none, h => List.forall_mem_singleton.mpr (isSpelled_ident h)
  | .field name (some (direction, n)), h => by
    have hdirection : (Lexeme.mark (directionSpelling direction)).IsSpelled := by
      cases direction <;> exact Lexeme.isSpelled_mark rfl rfl
    exact List.forall_mem_cons.mpr ⟨Lexeme.isSpelled_mark rfl rfl,
      List.forall_mem_cons.mpr ⟨hdirection,
        List.forall_mem_cons.mpr ⟨⟨_, .literal (.long n)⟩,
        List.forall_mem_cons.mpr ⟨Lexeme.isSpelled_mark rfl rfl,
        List.forall_mem_singleton.mpr (isSpelled_ident h)⟩⟩⟩⟩
  | .relation name filter limit page items, h => by
    simp only [Item.isWritable, Bool.and_eq_true, Option.all_eq_true] at h
    obtain ⟨⟨⟨⟨hname, hfilter⟩, -⟩, -⟩, hitems⟩ := h
    exact List.forall_mem_cons.mpr ⟨isSpelled_ident hname, isSpelled_level hfilter
      (isSpelled_bracketed rfl rfl rfl rfl (Item.areSpelled items hitems))⟩

theorem Item.areSpelled : (is : List (Item Value Int64)) → Item.areWritable is →
    ∀ row ∈ Item.rows is, ∀ l ∈ row, l.IsSpelled
  | [], _ => List.forall_mem_nil _
  | i :: is, h => by
    rw [Item.areWritable, Bool.and_eq_true] at h
    exact List.forall_mem_cons.mpr ⟨i.isSpelled h.1, Item.areSpelled is h.2⟩

end

theorem QueryForm.isSpelled {form : QueryForm Value Int64} (h : form.isWritable) :
    ∀ l ∈ form.lexemes, l.IsSpelled := by
  simp only [QueryForm.isWritable, Level.isWritable, Bool.and_eq_true, Option.all_eq_true] at h
  obtain ⟨hentity, ⟨⟨hfilter, -⟩, -⟩, hitems⟩ := h
  refine List.forall_mem_cons.mpr ⟨isSpelled_name hentity, isSpelled_level hfilter ?_⟩
  rw [← Item.rows_eq]
  exact isSpelled_bracketed rfl rfl rfl rfl (Item.areSpelled _ hitems)

/-! ### Queries -/

theorem QueryForm.read {form : QueryForm Value Int64} (h : form.isWritable) {text : String}
    (htext : Stands form.lexemes text.toList) : readQuery text = .ok form := by
  obtain ⟨entity, ⟨filter, limit, page, items⟩⟩ := form
  simp only [QueryForm.isWritable, Level.isWritable, Bool.and_eq_true, Option.all_eq_true] at h
  obtain ⟨hentity, ⟨⟨hfilter, hlimit⟩, hpage⟩, hitems⟩ := h
  have hparse : ∃ f, parse query text.toList = .ok f ∧ f.entity = entity ∧
      Level.Means ⟨filter, limit, page, items⟩ f.body := by
    refine parse_stands (fun depth hdepth ↦ ⟨_, _, rfl, ?_⟩) htext
    simp only [QueryForm.lexemes, Level.lexemes, List.length_cons, List.length_append] at hdepth
    have hselection (us : List Lexeme) : Reads (selection depth depth)
        (bracketed "\x7b" "\x7d" (items.map Item.lexemes)) us (List.Forall₂ Item.Means items) :=
      Item.reads_selection items hitems (by omega) (by omega)
    exact (reads_name hentity).then fun e he ↦
      reads_end (reads_level hfilter hlimit hpage (by omega) (hselection _)) fun l hl ↦ ⟨he, hl⟩
  obtain ⟨⟨_, l⟩, hparse, rfl, hl⟩ := hparse
  unfold readQuery
  exact Except.bind_eq_ok.mpr ⟨_, hparse, Except.bind_eq_ok.mpr ⟨_, hl _, rfl⟩⟩

/-- Queries over the names and literals of the language can be written with no more parentheses than
their expressions need, and every text in which one is written is read back as it was: `and` binds
tighter than `or`, and both group to the left. -/
theorem queries_read_back (form : QueryForm Value Int64) (h : form.isWritable) :
    (∃ text : String, Stands form.lexemes text.toList) ∧
      ∀ text : String, Stands form.lexemes text.toList → readQuery text = .ok form :=
  ⟨exists_stands (QueryForm.isSpelled h), fun _ ↦ QueryForm.read h⟩

/-- A path called `or`, a relation called `limit`, and an expression with and without
parentheses. -/
theorem queries_read_back_of_text :
    readQuery
      ("E | or == 1 or a == ?p and ( b < 2 or c in [ ] ) | " ++
        "\x7b limit page 3 \x7b * \x7d , ( asc 1 ) name \x7d") =
      .ok ⟨"E", some (.or (.predicate ["or"] (.compare .eq) (.literal (.long 1)))
          (.and (.predicate ["a"] (.compare .eq) (.param "p"))
            (.or (.predicate ["b"] (.compare .lt) (.literal (.long 2)))
              (.predicate ["c"] .isIn (.list []))))),
        none, none,
        [.relation "limit" none none (some (.literal 3)) [.all],
          .field "name" (some (.ascending, 1))]⟩ := by
  refine (queries_read_back _ rfl).2 _ ⟨[], _, .nil, ?_, rfl⟩
  exact .blank (.plain rfl) <| .blank (.plain rfl) <| .blank (.plain rfl) <| .blank (.plain rfl) <|
    .blank (.literal (.long 1)) <| .blank (.plain rfl) <| .blank (.plain rfl) <|
      .blank (.plain rfl) <|
    .blank (.plain rfl) <| .blank (.plain rfl) <| .blank (.plain rfl) <| .blank (.plain rfl) <|
    .blank (.plain rfl) <| .blank (.literal (.long 2)) <| .blank (.plain rfl) <|
      .blank (.plain rfl) <|
    .blank (.plain rfl) <| .blank (.plain rfl) <| .blank (.plain rfl) <| .blank (.plain rfl) <|
    .blank (.plain rfl) <| .blank (.plain rfl) <| .blank (.plain rfl) <| .blank (.plain rfl) <|
    .blank (.literal (.long 3)) <| .blank (.plain rfl) <| .blank (.plain rfl) <|
      .blank (.plain rfl) <|
    .blank (.plain rfl) <| .blank (.plain rfl) <| .blank (.plain rfl) <|
      .blank (.literal (.long 1)) <|
    .blank (.plain rfl) <| .blank (.plain rfl) <| .last (.plain rfl)

end EntityStore.Language
