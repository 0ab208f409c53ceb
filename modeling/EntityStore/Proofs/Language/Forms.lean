import EntityStore.Proofs.Language.Layout

/-!
The texts of creates, updates and deletes. A syntax tree whose names and literals the language can
spell is written as a row of lexemes; however the row is laid out, reading it gives the tree back.
-/

set_option autoImplicit false

namespace EntityStore

namespace Language

open EntityStore.Language.Parser EntityStore.Language.Grammar

/-! ### What can be written -/

def isName (s : String) : Bool :=
  match s.toList with
  | c :: cs => isLetter c && cs.all isNameChar
  | [] => false

def isIdent (s : String) : Bool :=
  match s.toList with
  | c :: cs => (c == '@' || isLetter c) && cs.all isIdentChar
  | [] => false

mutual

def Node.isWritable : Node Value → Bool
  | .literal v => isLiteral v
  | .param name => isName name
  | .list items => Node.areWritable items
  | .object entries => Node.entriesWritable entries

def Node.areWritable : List (Node Value) → Bool
  | [] => true
  | n :: ns => n.isWritable && Node.areWritable ns

def Node.entriesWritable : List (String × Node Value) → Bool
  | [] => true
  | (key, n) :: es => isIdent key && n.isWritable && Node.entriesWritable es

end

/-- What links are added and removed by. -/
def Node.isLinkValue : Node Value → Bool
  | .literal (.long _) | .param _ | .list _ => true
  | _ => false

def UpdateEntry.isWritable : UpdateEntry Value → Bool
  | .set n => n.isWritable
  | .link _ n => n.isLinkValue && n.isWritable

def Target.isWritable : Target Int64 → Bool
  | .id _ => true
  | .param name => isName name

def CreateForm.isWritable (form : CreateForm Value) : Bool :=
  isName form.entity && Node.entriesWritable form.body

def UpdateForm.isWritable (form : UpdateForm Value Int64) : Bool :=
  isName form.entity && form.target.isWritable &&
    form.body.all fun e ↦ isIdent e.1 && e.2.isWritable

def DeleteForm.isWritable (form : DeleteForm Int64) : Bool :=
  isName form.entity && form.target.isWritable

/-! ### How it is written -/

namespace Lexeme

def param (name : String) : Lexeme :=
  .plain ('?' :: name.toList)

def long (n : Int64) : Lexeme :=
  .literal (.long n)

end Lexeme

mutual

def Node.lexemes : Node Value → List Lexeme
  | .literal v => [.literal v]
  | .param name => [.param name]
  | .list items => bracketed "[" "]" (Node.rows items)
  | .object entries => bracketed "\x7b" "\x7d" (Node.entryRows entries)

def Node.rows : List (Node Value) → List (List Lexeme)
  | [] => []
  | n :: ns => n.lexemes :: Node.rows ns

def Node.entryRows : List (String × Node Value) → List (List Lexeme)
  | [] => []
  | (key, n) :: es => (.mark key :: .mark ":" :: n.lexemes) :: Node.entryRows es

end

def Node.entryLexemes (e : String × Node Value) : List Lexeme :=
  .mark e.1 :: .mark ":" :: e.2.lexemes

def UpdateEntry.lexemes : UpdateEntry Value → List Lexeme
  | .set n => n.lexemes
  | .link op n => .mark op.text :: n.lexemes

def UpdateEntry.entryLexemes (e : String × UpdateEntry Value) : List Lexeme :=
  .mark e.1 :: .mark ":" :: e.2.lexemes

def Target.lexemes : Target Int64 → List Lexeme
  | .id n => [.mark "@id", .mark "==", .long n]
  | .param name => [.mark "@id", .mark "==", .param name]

def CreateForm.lexemes (form : CreateForm Value) : List Lexeme :=
  .mark form.entity :: (Node.object form.body).lexemes

def UpdateForm.lexemes (form : UpdateForm Value Int64) : List Lexeme :=
  .mark form.entity :: (form.target.lexemes ++ bracketed "\x7b" "\x7d"
    (form.body.map UpdateEntry.entryLexemes))

def DeleteForm.lexemes (form : DeleteForm Int64) : List Lexeme :=
  .mark form.entity :: form.target.lexemes

@[simp]
theorem Node.rows_eq (ns : List (Node Value)) : Node.rows ns = ns.map Node.lexemes := by
  induction ns with
  | nil => rfl
  | cons n ns ih => rw [Node.rows, ih, List.map_cons]

@[simp]
theorem Node.entryRows_eq (es : List (String × Node Value)) :
    Node.entryRows es = es.map Node.entryLexemes := by
  induction es with
  | nil => rfl
  | cons e es ih => rw [Node.entryRows, ih, List.map_cons, Node.entryLexemes]

theorem Node.areWritable_iff {ns : List (Node Value)} :
    Node.areWritable ns ↔ ∀ n ∈ ns, n.isWritable := by
  induction ns with
  | nil => simp [Node.areWritable]
  | cons n ns ih => simp [Node.areWritable, ih]

theorem Node.entriesWritable_iff {es : List (String × Node Value)} :
    Node.entriesWritable es ↔ ∀ e ∈ es, isIdent e.1 ∧ e.2.isWritable := by
  induction es with
  | nil => simp [Node.entriesWritable]
  | cons e es ih => simp [Node.entriesWritable, ih]

/-! ### Tokens -/

namespace Grammar

variable {s : String} {us : List Lexeme} {rest : List Char} {m : Mode}

theorem scans_name (h : isName s) (hrest : Ends rest) : Scans name m s.toList rest s := by
  unfold isName at h
  split at h
  · next c cs hcs =>
    simp only [Bool.and_eq_true, List.all_eq_true] at h
    have hchars : Scans (do let _ ← char isLetter; many (char isNameChar)) .atomic
        (c :: cs) rest cs :=
      Scans.cons_bind (scans_char h.1) (scans_many h.2 (hrest.not rfl))
    intro o
    have hs : s = String.ofList (c :: cs) := by rw [← hcs, String.ofList_toList]
    have hname := gives_captured (o := o) hchars
    rw [hcs]
    exact Gives.ruleIn (hname.bind (hs ▸ gives_pure _))
  · cases h

theorem scans_identText (h : isIdent s) (hrest : ∀ d ∈ rest.head?, isIdentChar d = false) :
    Scans identText m s.toList rest s.toList := by
  unfold isIdent at h
  split at h
  · next c cs hcs =>
    simp only [Bool.and_eq_true, List.all_eq_true] at h
    have hchars : Scans (do let _ ← char fun c ↦ c == '@' || isLetter c; many (char isIdentChar)) m
        (c :: cs) rest cs :=
      Scans.cons_bind (scans_char h.1) (scans_many h.2 hrest)
    intro o
    rw [hcs]
    exact (gives_captured hchars).bind (gives_pure _)
  · cases h

theorem reads_name (h : isName s) : Reads name [.mark s] us (· = s) :=
  reads_plain fun _ ↦ scans_name h

theorem reads_ident (h : isIdent s) : Reads ident [.mark s] us (· = s) := by
  refine reads_plain fun rest hrest ↦ ?_
  have hident : Scans (String.ofList <$> identText) .atomic s.toList rest
      (String.ofList s.toList) :=
    (scans_identText h (hrest.not rfl)).map
  rw [String.ofList_toList] at hident
  exact fun o ↦ Gives.ruleIn (hident o)

theorem reads_param (h : isName s) : Reads param [.param s] us (· = s) := by
  refine reads_plain fun rest hrest ↦ ?_
  have hparam : Scans (do word "?"; name) .compound ('?' :: s.toList) rest s :=
    Scans.cons_bind (scans_word "?") (scans_name h hrest)
  exact fun o ↦ Gives.ruleIn (hparam o)

theorem begins_param : param.Begins (· == '?') :=
  Begins.ruleIn (begins_word rfl).bind

theorem begins_ident : ident.Begins fun c ↦ c == '@' || isLetter c :=
  Begins.ruleIn (Begins.map ((begins_char _).bind.captured.bind))

theorem begins_scalar : scalar.Begins opensLiteral := by
  refine (begins_null.orElse <| begins_boolean.orElse <| begins_dateTime.orElse <|
    begins_date.orElse <| begins_time.orElse <| begins_float.orElse <|
      begins_integer.orElse begins_text).mono fun d hd ↦ ?_
  simp only [Bool.or_eq_true, opensLiteral] at hd ⊢
  tauto

end Grammar

/-! ### Nodes -/

/-- A node over tokens stands for a node over values. -/
def Node.Means (n : Node Value) (t : Node Token) : Prop :=
  ∀ text, t.resolve (Token.value text) = .ok n

def Node.EntryMeans (e : String × Node Value) (f : String × Node Token) : Prop :=
  f.1 = e.1 ∧ e.2.Means f.2

variable {us : List Lexeme} {depth : Nat}

theorem Node.Means.items {ns : List (Node Value)} {ts : List (Node Token)}
    (h : List.Forall₂ Node.Means ns ts) (text : List Char) :
    Node.resolveItems (Token.value text) ts = .ok ns := by
  induction h with
  | nil => rfl
  | cons h _ ih =>
    rw [Node.resolveItems, h text, ih]
    rfl

theorem Node.EntryMeans.entries {es : List (String × Node Value)} {fs : List (String × Node Token)}
    (h : List.Forall₂ Node.EntryMeans es fs) (text : List Char) :
    Node.resolveEntries (Token.value text) fs = .ok es := by
  induction h with
  | nil => rfl
  | @cons e f _ _ h _ ih =>
    obtain ⟨key, n⟩ := e
    obtain ⟨key', t⟩ := f
    obtain ⟨rfl, h⟩ := h
    rw [Node.resolveEntries, h text, ih]
    rfl

theorem length_le_separated {sep : Lexeme} {parts : List (List Lexeme)} {part : List Lexeme}
    (h : part ∈ parts) :
    part.length ≤ (separated sep parts).length := by
  cases parts with
  | nil => cases h
  | cons first more =>
    rw [separated, List.length_append]
    obtain rfl | h := List.mem_cons.mp h
    · omega
    · obtain ⟨before, after, rfl⟩ := List.append_of_mem h
      simp only [List.flatMap_append, List.flatMap_cons, List.length_append, List.length_cons]
      omega

/-- The marks that lists and objects begin with. -/
def opensNode (c : Char) : Bool :=
  opensLiteral c || c == '?' || c == '[' || c == '\x7b'

theorem opensNode_ne {d e : Char} (hd : opensNode d) (he : opensNode e = false) :
    (d == e) = false := by
  refine beq_eq_false_iff_ne.mpr ?_
  rintro rfl
  simp [hd] at he

theorem Node.refuses {α : Type} {p : Parser α} {first : Char → Bool} (h : p.Begins first)
    (hfirst : ∀ d, opensNode d → first d = false) (n : Node Value) :
    Refuses p (n.lexemes ++ us) := by
  cases n with
  | literal v => exact refuses_literal h fun d hd ↦ hfirst d (by simp [opensNode, hd])
  | param name => exact refuses_plain h rfl (hfirst '?' rfl)
  | list items => exact refuses_plain h rfl (hfirst '[' rfl)
  | object entries => exact refuses_plain h rfl (hfirst '\x7b' rfl)

theorem Node.lexemes_ne_nil (n : Node Value) : 0 < n.lexemes.length := by
  cases n <;> simp [Node.lexemes, bracketed]

/-- A part between marks is shorter than the whole. -/
theorem length_le_bracketed {opening closing : String} {parts : List (List Lexeme)}
    {part : List Lexeme} {n : Nat} (h : part ∈ parts)
    (hn : (bracketed opening closing parts).length ≤ n) : part.length + 2 ≤ n := by
  have : part.length ≤ (separated (.mark ",") parts).length := length_le_separated h
  simp only [bracketed, List.length_cons, List.length_append, List.length_nil] at hn
  omega

theorem begins_list {value : Parser (Node Token)} : (list value).Begins (· == '[') :=
  Begins.ruleIn (begins_word rfl).bind

theorem begins_object {value : Parser (Node Token)} : (object value).Begins (· == '\x7b') :=
  Begins.ruleIn (begins_word rfl).bind

/-- A value begins with a mark of its own. -/
theorem begins_value (depth : Nat) : (value depth).Begins opensNode := by
  cases depth with
  | zero => exact begins_fail
  | succ depth =>
    refine Begins.ruleIn ((begins_scalar.map.orElse <| begins_param.map.orElse <|
      begins_list.map.orElse begins_object.map).mono fun d hd ↦ ?_)
    simpa [opensNode, or_assoc] using hd

theorem reads_list {items : List (Node Value)}
    (hitems : ∀ n ∈ items, ∀ us, Reads (value depth) n.lexemes us n.Means) :
    Reads (list (value depth)) (Node.list items).lexemes us (List.Forall₂ Node.Means items) := by
  rw [Node.lexemes, Node.rows_eq]
  have hempty : Refuses (value depth) (.mark "]" :: us) :=
    refuses_plain (begins_value depth) rfl rfl
  exact (reads_enclosed (fun n hn vs _ ↦ hitems n hn vs) hempty rfl (by decide)).ruleIn

theorem reads_entry {key : String} {n : Node Value} (hkey : isIdent key)
    (hn : ∀ us, Reads (value depth) n.lexemes us n.Means) :
    Reads (entry (value depth)) (Node.entryLexemes (key, n)) us (Node.EntryMeans (key, n)) :=
  ((reads_ident hkey).then fun _ hkey ↦ (reads_mark ":").then fun _ _ ↦
    (hn us).bind_pure fun _ ht ↦ ⟨hkey, ht⟩).ruleIn

theorem reads_object {entries : List (String × Node Value)}
    (hentries : ∀ e ∈ entries, isIdent e.1 ∧ ∀ us, Reads (value depth) e.2.lexemes us e.2.Means) :
    Reads (object (value depth)) (Node.object entries).lexemes us
      (List.Forall₂ Node.EntryMeans entries) := by
  rw [Node.lexemes, Node.entryRows_eq]
  have hempty : Refuses (entry (value depth)) (.mark "\x7d" :: us) :=
    (refuses_plain begins_ident rfl rfl : Refuses ident _).bind.ruleIn
  exact (reads_enclosed (fun e he vs _ ↦ reads_entry (hentries e he).1 (hentries e he).2) hempty
    rfl (by decide)).ruleIn

namespace Node

theorem reads_literal (v : Value) : Reads (Node.literal <$> scalar) (Node.literal v).lexemes us
    (Node.literal v).Means :=
  reads_scalar.map fun t ht text ↦ by
    rw [resolve, ht text]
    rfl

theorem reads_param {name : String} (h : (Node.param name).isWritable) :
    Reads (Node.param <$> Grammar.param) (Node.param name).lexemes us (Node.param name).Means :=
  (Grammar.reads_param h).map fun t ht text ↦ by rw [resolve, ht]

/-- A list is read where its items are, which can be written and are shorter. -/
theorem reads_items {items : List (Node Value)} {k : Nat} (hn : (Node.list items).isWritable)
    (hdepth : (Node.list items).lexemes.length ≤ k)
    (hreads : ∀ n : Node Value, n.isWritable → n.lexemes.length + 2 ≤ k →
    ∀ us, Reads (value depth) n.lexemes us n.Means) :
    Reads (Node.list <$> Grammar.list (value depth)) (Node.list items).lexemes us
      (Node.list items).Means := by
  rw [isWritable, areWritable_iff] at hn
  rw [lexemes, rows_eq] at hdepth
  have hitems : ∀ n ∈ items, ∀ us, Reads (value depth) n.lexemes us n.Means := fun n hmem ↦
    hreads n (hn n hmem) (length_le_bracketed (List.mem_map_of_mem hmem) hdepth)
  refine (reads_list hitems).map fun ts hts text ↦ ?_
  rw [resolve, Means.items hts text]
  rfl

end Node

/-- Nodes are read at every depth that their lexemes leave. -/
theorem Node.reads (n : Node Value) (hn : n.isWritable) (hdepth : n.lexemes.length ≤ depth)
    (us : List Lexeme) :
    Reads (value depth) n.lexemes us n.Means := by
  induction depth generalizing n us with
  | zero => exact absurd n.lexemes_ne_nil (by omega)
  | succ depth ih =>
    refine Reads.ruleIn ?_
    cases n with
    | literal v => exact (Node.reads_literal v).orElse
    | param name =>
      exact .orElse_none (refuses_plain begins_scalar rfl rfl : Refuses scalar _).bind
        (Node.reads_param hn).orElse
    | list items =>
      have hscalar : Refuses scalar ((Node.list items).lexemes ++ us) :=
        refuses_plain begins_scalar rfl rfl
      have hparam : Refuses Grammar.param ((Node.list items).lexemes ++ us) :=
        refuses_plain begins_param rfl rfl
      have hlist : Reads (Node.list <$> Grammar.list (value depth)) (Node.list items).lexemes us
          (Node.list items).Means :=
        Node.reads_items hn hdepth fun n hn hlength ↦ ih n hn (by omega)
      exact .orElse_none hscalar.bind (.orElse_none hparam.bind hlist.orElse)
    | object entries =>
      have hscalar : Refuses scalar ((Node.object entries).lexemes ++ us) :=
        refuses_plain begins_scalar rfl rfl
      have hparam : Refuses Grammar.param ((Node.object entries).lexemes ++ us) :=
        refuses_plain begins_param rfl rfl
      have hlist : Refuses (Grammar.list (value depth)) ((Node.object entries).lexemes ++ us) :=
        refuses_plain begins_list rfl rfl
      rw [Node.isWritable, Node.entriesWritable_iff] at hn
      rw [Node.lexemes, Node.entryRows_eq] at hdepth
      have hentries : ∀ e ∈ entries, isIdent e.1 ∧
          ∀ us, Reads (value depth) e.2.lexemes us e.2.Means := by
        refine fun e hmem ↦ ⟨(hn e hmem).1, fun us ↦ ih e.2 (hn e hmem).2 ?_ us⟩
        have := length_le_bracketed (List.mem_map_of_mem hmem) hdepth
        simp only [Node.entryLexemes, List.length_cons] at this
        omega
      refine .orElse_none hscalar.bind (.orElse_none hparam.bind (.orElse_none hlist.bind
        ((reads_object hentries).map fun ts hts text ↦ ?_)))
      rw [Node.resolve, Node.EntryMeans.entries hts text]
      rfl

/-! ### Targets and updates -/

def Target.Means (t : Target Int64) (u : Target Token) : Prop :=
  ∀ text, u.resolve (Token.integer text) = .ok t

theorem Target.reads (t : Target Int64) (h : t.isWritable) : Reads target t.lexemes us t.Means := by
  have hmark {ls : List Lexeme}
      (hls : ∀ vs, Reads (Target.id <$> integer <|> Target.param <$> Grammar.param) ls vs t.Means) :
      Reads target (.mark "@id" :: .mark "==" :: ls) us t.Means :=
    ((reads_mark "@id").then fun _ _ ↦ (reads_mark "==").orElse.then fun _ _ ↦ hls us).ruleIn
  cases t with
  | id n =>
    refine hmark fun vs ↦ (reads_integer.map fun t ht text ↦ ?_).orElse
    rw [Target.resolve, ht.1 text]
    rfl
  | param name =>
    have hinteger (vs : List Lexeme) : Refuses integer (.param name :: vs) :=
      refuses_plain begins_integer rfl rfl
    refine hmark fun vs ↦ .orElse_none (hinteger vs).bind ((reads_param h).map fun t ht text ↦ ?_)
    rw [Target.resolve, ht]

def UpdateEntry.Means (e : UpdateEntry Value) (f : UpdateEntry Token) : Prop :=
  ∀ text, f.resolve (Token.value text) = .ok e

def UpdateEntry.EntryMeans (e : String × UpdateEntry Value) (f : String × UpdateEntry Token) :
    Prop :=
  f.1 = e.1 ∧ e.2.Means f.2

theorem UpdateEntry.EntryMeans.entries {es : List (String × UpdateEntry Value)}
    {fs : List (String × UpdateEntry Token)} (h : List.Forall₂ UpdateEntry.EntryMeans es fs)
    (text : List Char) :
    (fs.mapM fun (key, entry) ↦ do pure (key, ← entry.resolve (Token.value text))) = .ok es := by
  induction h with
  | nil => rfl
  | @cons e f _ _ h _ ih =>
    obtain ⟨key, n⟩ := e
    obtain ⟨key', t⟩ := f
    obtain ⟨rfl, h⟩ := h
    rw [List.mapM_cons, ih]
    simp only [h text]
    rfl

/-- Integers, parameters and lists are read where links are added or removed. -/
theorem Node.reads_link (n : Node Value) (hlink : n.isLinkValue) (hn : n.isWritable)
    (hdepth : n.lexemes.length ≤ depth + 1) (us : List Lexeme) :
    Reads (linkValue depth) n.lexemes us n.Means := by
  refine Reads.ruleIn ?_
  cases n with
  | literal v =>
    cases v with
    | long n =>
      refine (reads_integer.map fun t ht text ↦ ?_).orElse
      rw [Node.resolve, ht.2 text]
      rfl
    | _ => cases hlink
  | param name =>
    have hinteger : Refuses integer ((Node.param name).lexemes ++ us) :=
      refuses_plain begins_integer rfl rfl
    exact .orElse_none hinteger.bind (Node.reads_param hn).orElse
  | list items =>
    have hinteger : Refuses integer ((Node.list items).lexemes ++ us) :=
      refuses_plain begins_integer rfl rfl
    have hparam : Refuses Grammar.param ((Node.list items).lexemes ++ us) :=
      refuses_plain begins_param rfl rfl
    have hlist : Reads (Node.list <$> Grammar.list (value depth)) (Node.list items).lexemes us
        (Node.list items).Means :=
      Node.reads_items hn hdepth fun n hn hlength ↦ n.reads hn (by omega)
    exact .orElse_none hinteger.bind (.orElse_none hparam.bind hlist)
  | object _ => cases hlink

theorem begins_linkOp : linkOp.Begins (· == '@') :=
  (Begins.ruleIn ((begins_word rfl).bind.orElse (begins_word rfl).bind) :
    linkOp.Begins fun d ↦ d == '@' || d == '@').mono fun d hd ↦ by simpa using hd

theorem reads_linkOp (op : LinkOp) : Reads linkOp [.mark op.text] us (· = op) := by
  refine reads_plain fun rest _ o ↦ Gives.ruleIn ?_
  have hadd : Scans (do word "@add"; pure LinkOp.add) .atomic "@add".toList rest LinkOp.add :=
    (scans_word "@add").bind_nil (scans_pure LinkOp.add)
  have hdel : Scans (do word "@del"; pure LinkOp.del) .atomic "@del".toList rest LinkOp.del :=
    (scans_word "@del").bind_nil (scans_pure LinkOp.del)
  cases op with
  | add => exact hadd.orElse o
  | del =>
    have hother : ¬"@add".toList <+: "@del".toList ++ rest := by simp
    exact hdel.orElse_none (fun o ↦ (symbol_none hother).bind_none) o

theorem UpdateEntry.reads (e : UpdateEntry Value) (he : e.isWritable)
    (hdepth : e.lexemes.length ≤ depth) :
    Reads ((do
        let op ← linkOp
        skip
        let v ← linkValue depth
        pure (UpdateEntry.link op v)) <|> UpdateEntry.set <$> value depth)
          e.lexemes us e.Means := by
  cases e with
  | set n =>
    have hlink : Refuses linkOp (n.lexemes ++ us) :=
      n.refuses begins_linkOp fun d hd ↦ opensNode_ne hd rfl
    refine .orElse_none hlink.bind ((n.reads he hdepth us).map fun t ht text ↦ ?_)
    rw [UpdateEntry.resolve, ht text]
    rfl
  | link op n =>
    rw [UpdateEntry.isWritable, Bool.and_eq_true] at he
    simp only [UpdateEntry.lexemes, List.length_cons] at hdepth
    have hvalue : Reads (linkValue depth) n.lexemes us n.Means :=
      n.reads_link he.1 he.2 (by omega) us
    refine Reads.orElse ((reads_linkOp op).then fun op' hop ↦ hvalue.bind_pure fun t ht text ↦ ?_)
    rw [hop, UpdateEntry.resolve, ht text]
    rfl

theorem UpdateEntry.reads_entry {key : String} {e : UpdateEntry Value}
    (hkey : isIdent key) (he : e.isWritable) (hdepth : e.lexemes.length ≤ depth) :
    Reads (updateEntry depth) (UpdateEntry.entryLexemes (key, e)) us
      (UpdateEntry.EntryMeans (key, e)) :=
  ((reads_ident hkey).then fun _ hkey ↦ (reads_mark ":").then fun _ _ ↦
    (e.reads he hdepth).bind_pure fun _ ht ↦ ⟨hkey, ht⟩).ruleIn

theorem reads_updateBody {body : List (String × UpdateEntry Value)}
    (hbody : ∀ e ∈ body, isIdent e.1 ∧ e.2.isWritable)
    (hdepth : (bracketed "\x7b" "\x7d" (body.map UpdateEntry.entryLexemes)).length ≤ depth) :
    Reads (updateBody depth) (bracketed "\x7b" "\x7d" (body.map UpdateEntry.entryLexemes)) us
      (List.Forall₂ UpdateEntry.EntryMeans body) := by
  have hempty : Refuses (updateEntry depth) (.mark "\x7d" :: us) :=
    (refuses_plain begins_ident rfl rfl : Refuses ident _).bind.ruleIn
  refine (reads_enclosed (fun e he vs _ ↦ UpdateEntry.reads_entry (hbody e he).1
      (hbody e he).2 ?_) hempty rfl
    (by decide)).ruleIn
  have := length_le_bracketed (List.mem_map_of_mem he) hdepth
  simp only [UpdateEntry.entryLexemes, List.length_cons] at this
  omega

/-! ### Texts exist -/

theorem opens_of_ident {c : Char} (h : (c == '@' || isLetter c) = true) : Lexeme.opens c :=
  opens_of (fun c ↦ c == '@' || isLetter c) rfl h

theorem isSpelled_ident {s : String} (h : isIdent s) : (Lexeme.mark s).IsSpelled := by
  unfold isIdent at h
  split at h
  · next c cs hcs => exact Lexeme.isSpelled_mark hcs (opens_of_ident (Bool.and_eq_true_iff.mp h).1)
  · cases h

theorem isSpelled_name {s : String} (h : isName s) : (Lexeme.mark s).IsSpelled := by
  unfold isName at h
  split at h
  · next c cs hcs =>
    have hc := (Bool.and_eq_true_iff.mp h).1
    exact Lexeme.isSpelled_mark hcs (opens_of_ident (Bool.or_eq_true_iff.mpr (.inr hc)))
  · cases h

theorem isSpelled_param (name : String) : (Lexeme.param name).IsSpelled :=
  ⟨_, .plain rfl⟩

theorem isSpelled_bracketed {opening closing : String} {c d : Char} {cs ds : List Char}
    {parts : List (List Lexeme)} (hopening : opening.toList = c :: cs) (hc : Lexeme.opens c)
    (hclosing : closing.toList = d :: ds) (hd : Lexeme.opens d)
    (hparts : ∀ part ∈ parts, ∀ l ∈ part, l.IsSpelled) :
    ∀ l ∈ bracketed opening closing parts, l.IsSpelled := by
  intro l hl
  obtain rfl | rfl | rfl | ⟨part, hpart, hl⟩ := mem_bracketed hl
  · exact Lexeme.isSpelled_mark hopening hc
  · exact Lexeme.isSpelled_mark rfl rfl
  · exact Lexeme.isSpelled_mark hclosing hd
  · exact hparts part hpart l hl

mutual

theorem Node.isSpelled : (n : Node Value) → n.isWritable → ∀ l ∈ n.lexemes, l.IsSpelled
  | .literal v, h => by
    obtain ⟨cs, hcs⟩ := exists_spells h
    exact List.forall_mem_singleton.mpr ⟨cs, .literal hcs⟩
  | .param name, _ => List.forall_mem_singleton.mpr (isSpelled_param name)
  | .list items, h => isSpelled_bracketed rfl rfl rfl rfl (Node.areSpelled items h)
  | .object entries, h => isSpelled_bracketed rfl rfl rfl rfl (Node.entriesSpelled entries h)

theorem Node.areSpelled : (ns : List (Node Value)) → Node.areWritable ns →
    ∀ row ∈ Node.rows ns, ∀ l ∈ row, l.IsSpelled
  | [], _ => List.forall_mem_nil _
  | n :: ns, h => by
    rw [Node.areWritable, Bool.and_eq_true] at h
    exact List.forall_mem_cons.mpr ⟨n.isSpelled h.1, Node.areSpelled ns h.2⟩

theorem Node.entriesSpelled : (es : List (String × Node Value)) → Node.entriesWritable es →
    ∀ row ∈ Node.entryRows es, ∀ l ∈ row, l.IsSpelled
  | [], _ => List.forall_mem_nil _
  | (key, n) :: es, h => by
    simp only [Node.entriesWritable, Bool.and_eq_true] at h
    refine List.forall_mem_cons.mpr ⟨?_, Node.entriesSpelled es h.2⟩
    exact List.forall_mem_cons.mpr ⟨isSpelled_ident h.1.1, List.forall_mem_cons.mpr
      ⟨Lexeme.isSpelled_mark rfl rfl, n.isSpelled h.1.2⟩⟩

end

theorem UpdateEntry.isSpelled {key : String} (e : UpdateEntry Value) (hkey : isIdent key)
    (h : e.isWritable) :
    ∀ l ∈ UpdateEntry.entryLexemes (key, e), l.IsSpelled := by
  refine List.forall_mem_cons.mpr ⟨isSpelled_ident hkey, List.forall_mem_cons.mpr
    ⟨Lexeme.isSpelled_mark rfl rfl, ?_⟩⟩
  cases e with
  | set n => exact n.isSpelled h
  | link op n =>
    have hop : (Lexeme.mark op.text).IsSpelled := by
      cases op <;> exact Lexeme.isSpelled_mark rfl rfl
    exact List.forall_mem_cons.mpr ⟨hop, n.isSpelled (Bool.and_eq_true_iff.mp h).2⟩

theorem Target.isSpelled (t : Target Int64) : ∀ l ∈ t.lexemes, l.IsSpelled := by
  have hmarks {l : Lexeme} (hl : l.IsSpelled) :
      ∀ m ∈ [.mark "@id", .mark "==", l], m.IsSpelled := by
    exact List.forall_mem_cons.mpr ⟨Lexeme.isSpelled_mark rfl rfl, List.forall_mem_cons.mpr
      ⟨Lexeme.isSpelled_mark rfl rfl, List.forall_mem_singleton.mpr hl⟩⟩
  cases t with
  | id n => exact hmarks ⟨_, .literal (.long n)⟩
  | param name => exact hmarks (isSpelled_param name)

theorem CreateForm.isSpelled {form : CreateForm Value} (h : form.isWritable) :
    ∀ l ∈ form.lexemes, l.IsSpelled := by
  rw [CreateForm.isWritable, Bool.and_eq_true] at h
  exact List.forall_mem_cons.mpr ⟨isSpelled_name h.1, (Node.object form.body).isSpelled h.2⟩

theorem UpdateForm.isSpelled {form : UpdateForm Value Int64} (h : form.isWritable) :
    ∀ l ∈ form.lexemes, l.IsSpelled := by
  simp only [UpdateForm.isWritable, Bool.and_eq_true, List.all_eq_true] at h
  refine List.forall_mem_cons.mpr ⟨isSpelled_name h.1.1,
    List.forall_mem_append.mpr ⟨form.target.isSpelled, ?_⟩⟩
  refine isSpelled_bracketed rfl rfl rfl rfl (List.forall_mem_map.mpr fun e he ↦ ?_)
  exact e.2.isSpelled (h.2 e he).1 (h.2 e he).2

theorem DeleteForm.isSpelled {form : DeleteForm Int64} (h : form.isWritable) :
    ∀ l ∈ form.lexemes, l.IsSpelled :=
  List.forall_mem_cons.mpr ⟨isSpelled_name (Bool.and_eq_true_iff.mp h).1, form.target.isSpelled⟩

/-! ### Whole texts -/

theorem reads_end {α β : Type} {p : Parser α} {ls : List Lexeme} {P : α → Prop}
    {Q : β → Prop} {g : α → β} (hp : Reads p ls [] P) (hg : ∀ x, P x → Q (g x)) :
    Reads (do
      let x ← p
      skip
      spaced .endOfText atEnd
      pure (g x)) ls [] Q := by
  have hend : Reads (spaced .endOfText atEnd) [] [] fun _ ↦ True := by
    intro text o hlaid
    cases hlaid
    exact ⟨(), ⟨o, []⟩, Gives.ruleIn fun _ ↦ rfl, Laid.nil.stands, Nat.le_refl _, trivial⟩
  have h : Reads (do
      let x ← p
      skip
      spaced .endOfText atEnd
      pure (g x)) (ls ++ []) [] Q :=
    Reads.then hp fun x hx ↦ hend.bind_pure fun _ _ ↦ hg x hx
  rwa [List.append_nil] at h

/-- A rule that reads a row of lexemes up to the end reads every text that is laid out from them. -/
theorem parse_stands {α : Type} {rule : Nat → Parser α} {ls : List Lexeme}
    {text : List Char} {P : α → Prop}
    (hrule : ∀ depth, ls.length < depth →
      ∃ r p, rule depth = spaced r (do skip; p) ∧ Reads p ls [] P)
    (h : Stands ls text) : ∃ x, parse rule text = .ok x ∧ P x := by
  obtain ⟨r, p, hp, hreads⟩ := hrule (text.length + 1) (Nat.lt_succ_of_le h.length_le)
  have hstands : Stands ls (Cursor.rest ⟨0, text⟩) := h
  obtain ⟨c, hskip, hlaid, -⟩ := hstands.skip
  rw [← List.append_nil ls] at hlaid
  obtain ⟨x, c', hgives, -, -, hx⟩ := hreads c.rest c.offset hlaid
  have hrun : (rule (text.length + 1)).run text = .ok x := by
    rw [hp]
    exact run_of_gives (Gives.ruleIn (hskip.bind hgives))
  refine ⟨x, ?_, hx⟩
  unfold parse
  rw [hrun]

theorem CreateForm.read {form : CreateForm Value} (h : form.isWritable) {text : String}
    (htext : Stands form.lexemes text.toList) : readCreate text = .ok form := by
  obtain ⟨entity, body⟩ := form
  simp only [CreateForm.isWritable, Bool.and_eq_true, Node.entriesWritable_iff] at h
  obtain ⟨hentity, hbody⟩ := h
  have hparse : ∃ f, parse create text.toList = .ok f ∧ f.entity = entity ∧
      List.Forall₂ Node.EntryMeans body f.body := by
    refine parse_stands (fun depth hdepth ↦ ⟨_, _, rfl, ?_⟩) htext
    refine (reads_name hentity).then
      fun e he ↦ reads_end (reads_object fun f hf ↦ ⟨(hbody f hf).1, fun us ↦ ?_⟩)
      fun fs hfs ↦ ⟨he, hfs⟩
    simp only [CreateForm.lexemes, Node.lexemes, Node.entryRows_eq, List.length_cons] at hdepth
    have := length_le_bracketed (List.mem_map_of_mem hf) (Nat.le_of_succ_le (Nat.le_of_lt hdepth))
    simp only [Node.entryLexemes, List.length_cons] at this
    exact f.2.reads (hbody f hf).2 (by omega) us
  obtain ⟨⟨_, fs⟩, hparse, rfl, hfs⟩ := hparse
  unfold readCreate
  exact Except.bind_eq_ok.mpr ⟨_, hparse,
    Except.bind_eq_ok.mpr ⟨_, Node.EntryMeans.entries hfs _, rfl⟩⟩

theorem UpdateForm.read {form : UpdateForm Value Int64} (h : form.isWritable) {text : String}
    (htext : Stands form.lexemes text.toList) : readUpdate text = .ok form := by
  obtain ⟨entity, target, body⟩ := form
  simp only [UpdateForm.isWritable, Bool.and_eq_true, List.all_eq_true] at h
  obtain ⟨⟨hentity, htarget⟩, hbody⟩ := h
  have hparse : ∃ f, parse update text.toList = .ok f ∧ f.entity = entity ∧ target.Means f.target ∧
      List.Forall₂ UpdateEntry.EntryMeans body f.body := by
    refine parse_stands (fun depth hdepth ↦ ⟨_, _, rfl, ?_⟩) htext
    refine (reads_name hentity).then fun e he ↦ (target.reads htarget).then fun t ht ↦
      reads_end (reads_updateBody hbody ?_) fun fs hfs ↦ ⟨he, ht, hfs⟩
    simp only [UpdateForm.lexemes, List.length_cons, List.length_append] at hdepth
    change (bracketed "\x7b" "\x7d" (body.map UpdateEntry.entryLexemes)).length ≤ depth
    omega
  obtain ⟨⟨_, t, fs⟩, hparse, rfl, ht, hfs⟩ := hparse
  unfold readUpdate
  exact Except.bind_eq_ok.mpr ⟨_, hparse,
    Except.bind_eq_ok.mpr ⟨_, UpdateEntry.EntryMeans.entries hfs _,
    Except.bind_eq_ok.mpr ⟨_, ht _, rfl⟩⟩⟩

theorem DeleteForm.read {form : DeleteForm Int64} (h : form.isWritable) {text : String}
    (htext : Stands form.lexemes text.toList) : readDelete text = .ok form := by
  obtain ⟨entity, target⟩ := form
  simp only [DeleteForm.isWritable, Bool.and_eq_true] at h
  have hparse : ∃ f, parse (fun _ ↦ delete) text.toList = .ok f ∧ f.entity = entity ∧
      target.Means f.target :=
    parse_stands
      (fun depth hdepth ↦ ⟨_, _, rfl, (reads_name h.1).then fun e he ↦ reads_end (target.reads h.2)
      fun t ht ↦ ⟨he, ht⟩⟩) htext
  obtain ⟨⟨_, t⟩, hparse, rfl, ht⟩ := hparse
  unfold readDelete
  exact Except.bind_eq_ok.mpr ⟨_, hparse, Except.bind_eq_ok.mpr ⟨_, ht _, rfl⟩⟩

/-- Creates, updates and deletes over the names and literals of the language can be written, and
every text in which one is written is read back as it was, whatever spellings and spacing the text
has. -/
theorem forms_read_back :
    (∀ form : CreateForm Value, form.isWritable →
      (∃ text : String, Stands form.lexemes text.toList) ∧
      ∀ text : String, Stands form.lexemes text.toList → readCreate text = .ok form) ∧
    (∀ form : UpdateForm Value Int64, form.isWritable →
      (∃ text : String, Stands form.lexemes text.toList) ∧
      ∀ text : String, Stands form.lexemes text.toList → readUpdate text = .ok form) ∧
    (∀ form : DeleteForm Int64, form.isWritable →
      (∃ text : String, Stands form.lexemes text.toList) ∧
      ∀ text : String, Stands form.lexemes text.toList → readDelete text = .ok form) :=
  ⟨fun _ h ↦ ⟨exists_stands (CreateForm.isSpelled h), fun _ ↦ CreateForm.read h⟩,
    fun _ h ↦ ⟨exists_stands (UpdateForm.isSpelled h), fun _ ↦ UpdateForm.read h⟩,
    fun _ h ↦ ⟨exists_stands (DeleteForm.isSpelled h), fun _ ↦ DeleteForm.read h⟩⟩

/-- A text of each kind, the first with a comment and with an escape that a text need not have. -/
theorem forms_read_back_of_texts :
    readCreate "E // one\n\x7b a : [ \"\\/\" , ?p ] \x7d" =
      .ok ⟨"E", [("a", .list [.literal (.text "/"), .param "p"])]⟩ ∧
    readUpdate "E @id == 1 \x7b a : @add ?p \x7d" = .ok ⟨"E", .id 1,
      [("a", .link .add (.param "p"))]⟩ ∧
    readDelete "E @id == ?p" = .ok ⟨"E", .param "p"⟩ := by
  have hone : Spacing (' ' :: '/' :: '/' :: ([' ', 'o', 'n', 'e'] ++ ['\n'])) :=
    .blank rfl (.comment (by decide) .nil)
  refine ⟨(forms_read_back.1 _ rfl).2 _ ⟨[], _, .nil,
      .cons (.plain rfl) hone (fun _ ↦ List.cons_ne_nil _ _) ?_, rfl⟩,
    (forms_read_back.2.1 _ rfl).2 _ ⟨[], _, .nil, ?_, rfl⟩,
    (forms_read_back.2.2 _ rfl).2 _ ⟨[], _, .nil, ?_, rfl⟩⟩
  · have htext : Quotes "/".toList ['\\', '/'] := .escaped (by decide) .nil
    exact .blank (.plain rfl) <| .blank (.plain rfl) <| .blank (.plain rfl) <|
      .blank (.plain rfl) <| .blank (.literal (.text htext)) <| .blank (.plain rfl) <|
        .blank (.plain rfl) <| .blank (.plain rfl) <|
      .last (.plain rfl)
  · exact .blank (.plain rfl) <| .blank (.plain rfl) <| .blank (.plain rfl) <|
      .blank (.literal (.long 1)) <| .blank (.plain rfl) <| .blank (.plain rfl) <|
        .blank (.plain rfl) <| .blank (.plain rfl) <|
      .blank (.plain rfl) <| .last (.plain rfl)
  · exact .blank (.plain rfl) <| .blank (.plain rfl) <| .blank (.plain rfl) <| .last (.plain rfl)

end Language

end EntityStore
