import EntityStore.Proofs.Value.Stored
import Mathlib.Logic.Function.Iterate
import Mathlib.Order.MinMax

/-!
How deep the stored text of a value nests, told by scanning the text for brackets, and what becomes
of it when it is read: up to 127 arrays and objects inside one another it is read back, beyond that
the reader stops at the first of them that lies too deep (`FieldType.readCell_container`). What is
read back is the value itself unless a leap second stands within a minute
(`FieldType.leap_second_moved`).
-/

set_option autoImplicit false

namespace EntityStore

/-! ### Scanning a text for brackets -/

namespace Json

/-- Where a scan of a text stands: outside of strings, in one, or after a backslash in one. -/
inductive Scan where
  | outside
  | inString
  | escaped

/-- How many arrays and objects are open at most while a text is scanned. Brackets in strings do not
count. -/
def depthFrom : Scan → Nat → List Char → Nat
  | _, n, [] => n
  | .escaped, n, _ :: cs => depthFrom .inString n cs
  | .inString, n, c :: cs =>
    depthFrom (if c = '\\' then .escaped else if c = '"' then .outside else .inString) n cs
  | .outside, n, c :: cs =>
    if c = '[' ∨ c = '\x7b' then depthFrom .outside (n + 1) cs
    else if c = ']' ∨ c = '\x7d' then max n (depthFrom .outside (n - 1) cs)
    else depthFrom (if c = '"' then .inString else .outside) n cs

/-- How many arrays and objects of a text lie inside one another. -/
def depth (cs : List Char) : Nat :=
  depthFrom .outside 0 cs

theorem le_depthFrom (scan : Scan) (n : Nat) (cs : List Char) : n ≤ depthFrom scan n cs := by
  fun_induction depthFrom scan n cs <;> omega

/-- A text opens some number of arrays and objects inside one another and closes them all. -/
def Spans (cs : List Char) (k : Nat) : Prop :=
  ∀ n rest, depthFrom .outside n (cs ++ rest) = max (n + k) (depthFrom .outside n rest)

theorem Spans.append {cs ds : List Char} {j k : Nat} (hcs : Spans cs j) (hds : Spans ds k) :
    Spans (cs ++ ds) (max j k) := by
  intro n rest
  rw [List.append_assoc, hcs, hds]
  omega

/-- What neither opens nor closes anything. -/
theorem spans_plain {cs : List Char} (h : ∀ c ∈ cs, c ∉ ['[', '\x7b', ']', '\x7d', '"']) :
    Spans cs 0 := by
  intro n rest
  induction cs with
  | nil =>
    have := le_depthFrom .outside n rest
    rw [List.nil_append]
    omega
  | cons c cs ih =>
    have hc := h c List.mem_cons_self
    simp only [List.mem_cons, List.not_mem_nil, or_false, not_or] at hc
    obtain ⟨h₁, h₂, h₃, h₄, h₅⟩ := hc
    have hstep : depthFrom .outside n (c :: (cs ++ rest)) = depthFrom .outside n (cs ++ rest) := by
      simp [depthFrom, h₁, h₂, h₃, h₄, h₅]
    rw [List.cons_append, hstep, ih fun d hd ↦ h d (List.mem_cons_of_mem _ hd)]

theorem depthFrom_escape (c : Char) (n : Nat) (rest : List Char) :
    depthFrom .inString n (escape c ++ rest) = depthFrom .inString n rest := by
  have hplain {d : Char} (hquote : d ≠ '"') (hback : d ≠ '\\') (cs : List Char) :
      depthFrom .inString n (d :: cs) = depthFrom .inString n cs := by
    rw [depthFrom, if_neg hback, if_neg hquote]
  have hhex : ∀ k < 0x20, (hexPair k).all fun d ↦ d != '"' && d != '\\' := by decide
  rcases Stored.escape_cases c with ⟨h, hquote, hback, -⟩ | ⟨d, h, -⟩ | ⟨h, hn⟩
  · rw [h]
    exact hplain hquote hback rest
  · rw [h]
    simp [depthFrom]
  · have hpair (d : Char) (hd : d ∈ hexPair c.toNat) (cs : List Char) :
        depthFrom .inString n (d :: cs) = depthFrom .inString n cs := by
      have hother := List.all_eq_true.mp (hhex _ hn) d hd
      rw [Bool.and_eq_true, bne_iff_ne, bne_iff_ne] at hother
      exact hplain hother.1 hother.2 cs
    have hstart (cs : List Char) :
        depthFrom .inString n (['\\', 'u', '0', '0'] ++ cs) = depthFrom .inString n cs := by
      simp [depthFrom]
    rw [h, List.append_assoc, hstart]
    exact (hpair _ (by simp [hexPair]) _).trans (hpair _ (by simp [hexPair]) _)

theorem spans_string (cs : List Char) : Spans (string cs) 0 := by
  intro n rest
  have hinside : depthFrom .inString n (cs.flatMap escape ++ '"' :: rest) =
      depthFrom .outside n rest := by
    induction cs with
    | nil => simp [depthFrom]
    | cons c cs ih => rw [List.flatMap_cons, List.append_assoc, depthFrom_escape, ih]
  have hquote : depthFrom .outside n (string cs ++ rest) = depthFrom .inString n
      (cs.flatMap escape ++ '"' :: rest) := by
    simp [string, depthFrom]
  have := le_depthFrom .outside n rest
  rw [hquote, hinside]
  omega

/-- Brackets around a text that closes what it opens. -/
theorem Spans.enclosed {cs : List Char} {k : Nat} (h : Spans cs k) (left right : Char)
    (hleft : left = '[' ∨ left = '\x7b') (hright : right = ']' ∨ right = '\x7d') :
    Spans (left :: cs ++ [right]) (k + 1) := by
  intro n rest
  have hclose : depthFrom .outside (n + 1) (right :: rest) = max (n + 1)
      (depthFrom .outside n rest) := by
    rcases hright with rfl | rfl <;> simp [depthFrom]
  have hopen : depthFrom .outside n (left :: (cs ++ right :: rest)) = depthFrom .outside (n + 1)
      (cs ++ right :: rest) := by
    rcases hleft with rfl | rfl <;> simp [depthFrom]
  have htext : left :: cs ++ [right] ++ rest = left :: (cs ++ right :: rest) := by simp
  rw [htext, hopen, h, hclose]
  omega

theorem Spans.member {cs : List Char} {k : Nat} (h : Spans cs k) (name : List Char) :
    Spans (member name cs) k := by
  have hcolon : Spans [':'] 0 := spans_plain (by simp)
  have hall := (spans_string name).append (hcolon.append h)
  rwa [Nat.max_eq_right (Nat.zero_le _), Nat.max_eq_right (Nat.zero_le _)] at hall

/-- A text in front of others that a comma keeps apart. -/
theorem Spans.join {cs : List Char} {css : List (List Char)} {j k : Nat} (hcs : Spans cs j)
    (hcss : Spans (joinChars [','] css) k) : Spans (joinChars [','] (cs :: css)) (max j k) := by
  cases css with
  | nil =>
    have hall := hcs.append hcss
    rwa [show cs ++ joinChars [','] [] = joinChars [','] [cs] by simp [joinChars]] at hall
  | cons ds css =>
    have hcomma : Spans [','] 0 := spans_plain (by simp)
    have hall := hcs.append (hcomma.append hcss)
    rw [Nat.max_eq_right (Nat.zero_le k)] at hall
    rwa [show cs ++ ([','] ++ joinChars [','] (ds :: css)) = joinChars [','] (cs :: ds :: css) by
      simp [joinChars, List.intercalate_cons_cons]] at hall

end Json

namespace Value

open Json (Spans spans_plain spans_string)

theorem spans_tagged (v : Value) {cs : List Char} {k : Nat} (h : Spans cs k) :
    Spans (v.tagged cs) (k + 1) := by
  have hmember := (h.member v.tag.toList).enclosed '\x7b' '\x7d' (.inr rfl) (.inr rfl)
  rwa [show '\x7b' :: Json.member v.tag.toList cs ++ ['\x7d'] = v.tagged cs by
    simp [tagged, Json.object, joinChars]] at hmember

theorem spans_intDigits (n : Int) : Spans (intDigits n) 0 := by
  refine spans_plain fun c hc hmem ↦ ?_
  have hdigit : c.isDigit = false := by
    simp only [List.mem_cons, List.not_mem_nil, or_false] at hmem
    rcases hmem with rfl | rfl | rfl | rfl | rfl <;> rfl
  have hne : c ≠ '-' := by
    rintro rfl
    exact absurd hmem (by decide)
  unfold intDigits at hc
  split at hc
  · rcases List.mem_cons.mp hc with rfl | hc
    · exact hne rfl
    · rw [isDigit_of_mem_natDigits hc] at hdigit
      cases hdigit
  · rw [isDigit_of_mem_natDigits hc] at hdigit
    cases hdigit

mutual

/-- The stored text of a value opens as many arrays and objects as the value nests. -/
theorem spans_stored : ∀ v : Value, v.Exact → Spans v.stored v.nesting
  | .null, _ => spans_string _
  | .text s, _ => spans_tagged (.text s) (spans_string _)
  | .int n, _ => spans_tagged (.int n) (spans_intDigits _)
  | .long n, _ => spans_tagged (.long n) (spans_intDigits _)
  | .float _, h | .double _, h => h.elim
  | .bool b, _ => spans_tagged (.bool b) (spans_plain (by cases b <;> simp))
  | .time t, _ => spans_tagged (.time t) (spans_string _)
  | .date t, _ => spans_tagged (.date t) (spans_string _)
  | .dateTime t, _ => spans_tagged (.dateTime t) (spans_string _)
  | .list vs, h =>
    spans_tagged (.list []) ((spans_items vs h).enclosed '[' ']' (.inl rfl) (.inl rfl))
  | .map es, h =>
    spans_tagged (.map []) ((spans_entries es h.2).enclosed '\x7b' '\x7d' (.inr rfl) (.inr rfl))

theorem spans_items : ∀ vs : List Value, ExactItems vs → Spans
    (joinChars [','] (storedItems vs)) (nestingItems vs)
  | [], _ => spans_plain nofun
  | v :: vs, h => (spans_stored v h.1).join (spans_items vs h.2)

theorem spans_entries : ∀ es : List (String × Value), ExactEntries es →
    Spans (joinChars [','] (storedEntries es)) (nestingEntries es)
  | [], _ => spans_plain nofun
  | (k, v) :: es, h => ((spans_stored v h.1).member k.toList).join (spans_entries es h.2)

end

theorem depth_stored {v : Value} (h : v.Exact) : Json.depth v.stored = v.nesting := by
  have hspans := spans_stored v h 0 []
  rw [List.append_nil] at hspans
  rw [Json.depth, hspans]
  simp [Json.depthFrom]

end Value

/-! ### Readers that fail -/

namespace Stored

/-- A reader stops with a fault at some place of a text. -/
def Fails {α : Type} (r : Reader α) (cs : List Char) (fault : StoredFault) : Prop :=
  ∀ c : Cursor, c.rest = cs → ∃ line column, r c = .error ⟨fault, some (line, column)⟩

section

variable {α β : Type} {r : Reader α} {f : α → Reader β} {cs ds : List Char} {a : α}
  {fault : StoredFault}

theorem fails_failNext (cs : List Char) : Fails (failNext fault : Reader α) cs fault := by
  intro c _
  unfold failNext
  split <;> exact ⟨_, _, rfl⟩

theorem Fails.bind (h : Fails r cs fault) : Fails (r >>= f) cs fault := by
  intro c hc
  obtain ⟨line, column, hrun⟩ := h c hc
  refine ⟨line, column, ?_⟩
  change (r c >>= fun x ↦ f x.1 x.2) = _
  rw [hrun]
  rfl

theorem Reads.fails (hr : Reads r cs ds a) (hf : Fails (f a) ds fault) :
    Fails (r >>= f) cs fault := by
  intro c hc
  obtain ⟨c', hrun, hc'⟩ := hr c hc
  obtain ⟨line, column, hfail⟩ := hf c' hc'
  refine ⟨line, column, ?_⟩
  change (r c >>= fun x ↦ f x.1 x.2) = _
  rw [hrun]
  exact hfail

theorem fails_token {f : Option Char → Reader β} {d : Char} (hd : isSpace d = false)
    (hf : Fails (f (some d)) (d :: cs) fault) : Fails (peekToken >>= f) (d :: cs) fault := by
  have hpeek : Reads (peekToken >>= Pure.pure) (d :: cs) (d :: cs) (some d) := .token hd (.pure _ _)
  rw [bind_pure] at hpeek
  exact hpeek.fails hf

end

/-! ### The first value that lies too deep -/

/-- A reader stops at the stored text of a value, whatever follows. -/
def FailsAt (item : Reader Value) (v : Value) : Prop :=
  ∀ rest, Fails item (v.stored ++ rest) .tooDeep

/-- What is read goes well up to some element. -/
inductive Breaks {α : Type} (good bad : α → Prop) : List α → Prop where
  | here {a : α} {as : List α} (h : bad a) : Breaks good bad (a :: as)
  | later {a : α} {as : List α} (h : good a) (has : Breaks good bad as) : Breaks good bad (a :: as)

theorem Breaks.cons_iff {α : Type} {good bad : α → Prop} {a : α} {as : List α} :
    Breaks good bad (a :: as) ↔ bad a ∨ good a ∧ Breaks good bad as := by
  constructor
  · rintro (h | ⟨h, has⟩)
    · exact .inl h
    · exact .inr ⟨h, has⟩
  · rintro (h | ⟨h, has⟩)
    · exact .here h
    · exact .later h has

variable {item : Reader Value} {cs : List Char}

theorem fails_element (item : Reader Value) (k : Nat) {v : Value}
    (h : FailsAt item v ∨ (∃ w, ReadsBack item v w) ∧ Fails (elements item k false) cs .tooDeep) :
    Fails (item >>= fun v ↦ elements item k false >>= fun vs ↦ pure (v :: vs))
      (v.stored ++ cs) .tooDeep := by
  rcases h with hbad | ⟨⟨w, hgood⟩, hothers⟩
  · exact (hbad cs).bind
  · exact (hgood cs).fails hothers.bind

theorem fails_elements {vs : List Value}
    (h : Breaks (fun v ↦ ∃ w, ReadsBack item v w) (FailsAt item) vs) {k : Nat}
    (hk : vs.length < k) :
    Fails (elements item k false) ((vs.map Value.stored).flatMap ([','] ++ ·) ++ cs) .tooDeep := by
  induction vs generalizing k with
  | nil => cases h
  | cons v vs ih =>
    obtain ⟨k, rfl⟩ := Nat.exists_eq_add_one_of_ne_zero (Nat.ne_zero_of_lt hk)
    have hmore : Fails _
        (v.stored ++ ((vs.map Value.stored).flatMap ([','] ++ ·) ++ cs)) .tooDeep :=
      fails_element item k ((Breaks.cons_iff.mp h).imp_right fun ⟨hgood, hothers⟩ ↦
        ⟨hgood, ih hothers (Nat.lt_of_succ_lt_succ hk)⟩)
    have htext : ((v :: vs).map Value.stored).flatMap ([','] ++ ·) ++ cs =
        ',' :: (v.stored ++ ((vs.map Value.stored).flatMap ([','] ++ ·) ++ cs)) := by simp
    rw [htext]
    unfold elements
    refine fails_token rfl ((Reads.next ',' _).fails ?_)
    obtain ⟨c, ds, hds, hc⟩ := stored_head v
    rw [hds, List.cons_append] at hmore ⊢
    rcases hc with rfl | rfl
    · exact fails_token rfl hmore
    · exact fails_token rfl hmore

theorem fails_array {vs : List Value}
    (h : Breaks (fun v ↦ ∃ w, ReadsBack item v w) (FailsAt item) vs) {k : Nat}
    (hk : vs.length < k) :
    Fails (elements item k true) (joinChars [','] (vs.map Value.stored) ++ cs) .tooDeep := by
  obtain ⟨k, rfl⟩ := Nat.exists_eq_add_one_of_ne_zero (Nat.ne_zero_of_lt hk)
  cases vs with
  | nil => cases h
  | cons v vs =>
    have hmore : Fails _
        (v.stored ++ ((vs.map Value.stored).flatMap ([','] ++ ·) ++ cs)) .tooDeep :=
      fails_element item k ((Breaks.cons_iff.mp h).imp_right fun ⟨hgood, hothers⟩ ↦
        ⟨hgood, fails_elements hothers (Nat.lt_of_succ_lt_succ hk)⟩)
    rw [List.map_cons, joinChars_cons, List.append_assoc]
    unfold elements
    obtain ⟨c, ds, hds, hc⟩ := stored_head v
    rw [hds, List.cons_append] at hmore ⊢
    rcases hc with rfl | rfl
    · exact fails_token rfl hmore
    · exact fails_token rfl hmore

theorem fails_member (item : Reader Value) (k : Nat) {e : String × Value}
    (h : FailsAt item e.2 ∨ (∃ w, ReadsBack item e.2 w) ∧
      Fails (members item k false) cs .tooDeep) :
    Fails (quotedString >>= fun key ↦ colon >>= fun _ ↦ item >>=
      fun v ↦ members item k false >>= fun es ↦
      pure ((String.ofList key, v) :: es)) (member e ++ cs) .tooDeep := by
  have htext : member e ++ cs = Json.string e.1.toList ++ ':' :: (e.2.stored ++ cs) := by
    simp [member, Json.member]
  rw [htext]
  refine (reads_quotedString _ _).fails ((reads_colon _).fails ?_)
  rcases h with hbad | ⟨⟨w, hgood⟩, hothers⟩
  · exact (hbad cs).bind
  · exact (hgood cs).fails hothers.bind

theorem fails_members {es : List (String × Value)}
    (h : Breaks (fun e ↦ ∃ w, ReadsBack item e.2 w) (fun e ↦ FailsAt item e.2) es) {k : Nat}
    (hk : es.length < k) :
    Fails (members item k false) ((es.map member).flatMap ([','] ++ ·) ++ cs) .tooDeep := by
  induction es generalizing k with
  | nil => cases h
  | cons e es ih =>
    obtain ⟨k, rfl⟩ := Nat.exists_eq_add_one_of_ne_zero (Nat.ne_zero_of_lt hk)
    have hmore : Fails _ (member e ++ ((es.map member).flatMap ([','] ++ ·) ++ cs)) .tooDeep :=
      fails_member item k ((Breaks.cons_iff.mp h).imp_right fun ⟨hgood, hothers⟩ ↦
        ⟨hgood, ih hothers (Nat.lt_of_succ_lt_succ hk)⟩)
    have htext : ((e :: es).map member).flatMap ([','] ++ ·) ++ cs =
        ',' :: (member e ++ ((es.map member).flatMap ([','] ++ ·) ++ cs)) := by simp
    rw [htext]
    unfold members
    exact fails_token rfl ((Reads.next ',' _).fails (fails_token (d := '"') rfl hmore))

theorem fails_object {es : List (String × Value)}
    (h : Breaks (fun e ↦ ∃ w, ReadsBack item e.2 w) (fun e ↦ FailsAt item e.2) es) {k : Nat}
    (hk : es.length < k) :
    Fails (members item k true) (joinChars [','] (es.map member) ++ cs) .tooDeep := by
  obtain ⟨k, rfl⟩ := Nat.exists_eq_add_one_of_ne_zero (Nat.ne_zero_of_lt hk)
  cases es with
  | nil => cases h
  | cons e es =>
    have hmore : Fails _ (member e ++ ((es.map member).flatMap ([','] ++ ·) ++ cs)) .tooDeep :=
      fails_member item k ((Breaks.cons_iff.mp h).imp_right fun ⟨hgood, hothers⟩ ↦
        ⟨hgood, fails_members hothers (Nat.lt_of_succ_lt_succ hk)⟩)
    rw [List.map_cons, joinChars_cons, List.append_assoc]
    unfold members
    exact fails_token (d := '"') rfl hmore

/-! ### Values -/

/-- No object may be opened any more. -/
theorem fails_tagged_none (v : Value) (cs : List Char) (bare : Reader Value) (rest : List Char) :
    Fails (tagged none bare) (v.tagged cs ++ rest) .tooDeep := by
  have htext : v.tagged cs ++ rest =
      '\x7b' :: (Json.string v.tag.toList ++ ':' :: (cs ++ '\x7d' :: rest)) := by
    simp [Value.tagged, Json.object, Json.member, joinChars]
  rw [htext]
  unfold tagged
  exact fails_token rfl (fails_failNext _)

theorem fails_tagged {v : Value} {inside : String → Reader Value} {bare : Reader Value}
    {cs rest : List Char} (hkind : v.tag ∈ StoredFault.kinds)
    (hcontent : Fails (inside v.tag) (cs ++ '\x7d' :: rest) .tooDeep) :
    Fails (tagged (some inside) bare) (v.tagged cs ++ rest) .tooDeep := by
  have htext : v.tagged cs ++ rest =
      '\x7b' :: (Json.string v.tag.toList ++ ':' :: (cs ++ '\x7d' :: rest)) := by
    simp [Value.tagged, Json.object, Json.member, joinChars]
  rw [htext]
  unfold tagged
  exact fails_token rfl
    ((Reads.next '\x7b' _).fails ((reads_kind hkind _).fails ((reads_colon _).fails hcontent.bind)))

theorem fails_list {vs : List Value} {d : Nat} {bare : Reader Value}
    (h : ∀ m, d = m + 2 → Breaks (fun v ↦ ∃ w, ReadsBack (value m bareInArray) v w)
      (FailsAt (value m bareInArray)) vs) :
    FailsAt (value d bare) (.list vs) := by
  intro rest
  have htext : Json.array (Value.storedItems vs) ++ '\x7d' :: rest =
      '[' :: (joinChars [','] (vs.map Value.stored) ++ ']' :: '\x7d' :: rest) := by
    simp [Json.array, Value.storedItems_eq]
  have hkind : (Value.list []).tag ∈ StoredFault.kinds := show "list" ∈ StoredFault.kinds by decide
  rcases d with _ | _ | m
  · exact fails_tagged_none (.list []) _ bare rest
  · refine fails_tagged (v := .list []) hkind ?_
    rw [htext]
    exact fails_token rfl (fails_failNext _)
  · have hlength : vs.length < (joinChars [','] (vs.map Value.stored) ++
        ']' :: '\x7d' :: rest).length + 1 := by
      have := length_le_joinChars ',' (vs.map Value.stored)
      rw [List.length_map] at this
      rw [List.length_append, List.length_cons]
      omega
    refine fails_tagged (v := .list []) hkind ?_
    rw [htext]
    exact fails_token rfl
      ((Reads.next '[' _).fails ((Reads.remaining _).fails (fails_array (h m rfl) hlength).bind))

theorem fails_map {es : List (String × Value)} {d : Nat} {bare : Reader Value}
    (h : ∀ m, d = m + 2 → Breaks (fun e ↦ ∃ w, ReadsBack (value m bareInObject) e.2 w)
      (fun e ↦ FailsAt (value m bareInObject) e.2) es) : FailsAt (value d bare) (.map es) := by
  intro rest
  have htext : Json.object (Value.storedEntries es) ++ '\x7d' :: rest =
      '\x7b' :: (joinChars [','] (es.map member) ++ '\x7d' :: '\x7d' :: rest) := by
    simp [Json.object, Value.storedEntries_eq]
  have hkind : (Value.map []).tag ∈ StoredFault.kinds := show "map" ∈ StoredFault.kinds by decide
  rcases d with _ | _ | m
  · exact fails_tagged_none (.map []) _ bare rest
  · refine fails_tagged (v := .map []) hkind ?_
    rw [htext]
    exact fails_token rfl (fails_failNext _)
  · have hlength : es.length < (joinChars [','] (es.map member) ++
        '\x7d' :: '\x7d' :: rest).length + 1 := by
      have := length_le_joinChars ',' (es.map member)
      rw [List.length_map] at this
      rw [List.length_append, List.length_cons]
      omega
    refine fails_tagged (v := .map []) hkind ?_
    rw [htext]
    exact fails_token rfl ((Reads.next '\x7b' _).fails ((Reads.remaining _).fails
      (fails_object (h m rfl) hlength).bind))

mutual

/-- A value that nests deeper than may be opened is not read. -/
theorem fails_value : ∀ (v : Value) (d : Nat) (bare : Reader Value), v.Exact → d < v.nesting →
    FailsAt (value d bare) v
  | .null, _, _, _, hd => absurd hd (Nat.not_lt_zero _)
  | .float _, _, _, h, _ | .double _, _, _, h, _ => h.elim
  | .list vs, _, _, h, hd => fails_list fun m hm ↦
    breaks_items vs m bareInArray h (Nat.lt_of_add_lt_add_right (hm ▸ hd))
  | .map es, _, _, h, hd => fails_map fun m hm ↦
    breaks_entries es m bareInObject h.2 (Nat.lt_of_add_lt_add_right (hm ▸ hd))
  | .text s, 0, bare, _, _ => fails_tagged_none (.text s) _ bare
  | .int n, 0, bare, _, _ => fails_tagged_none (.int n) _ bare
  | .long n, 0, bare, _, _ => fails_tagged_none (.long n) _ bare
  | .bool b, 0, bare, _, _ => fails_tagged_none (.bool b) _ bare
  | .time t, 0, bare, _, _ => fails_tagged_none (.time t) _ bare
  | .date t, 0, bare, _, _ => fails_tagged_none (.date t) _ bare
  | .dateTime t, 0, bare, _, _ => fails_tagged_none (.dateTime t) _ bare

theorem breaks_items : ∀ (vs : List Value) (d : Nat) (bare : Reader Value), Value.ExactItems vs →
    d < Value.nestingItems vs → Breaks (fun v ↦ ∃ w, ReadsBack (value d bare) v w)
      (FailsAt (value d bare)) vs
  | [], _, _, _, hd => absurd hd (Nat.not_lt_zero _)
  | v :: vs, d, bare, h, hd =>
    if hv : d < v.nesting then .here (fails_value v d bare h.1 hv)
    else .later ⟨_, reads_value v d bare h.1 (Nat.le_of_not_lt hv)⟩
      (breaks_items vs d bare h.2 ((lt_max_iff.mp hd).resolve_left hv))

theorem breaks_entries :
    ∀ (es : List (String × Value)) (d : Nat) (bare : Reader Value), Value.ExactEntries es →
    d < Value.nestingEntries es →
    Breaks (fun e ↦ ∃ w, ReadsBack (value d bare) e.2 w) (fun e ↦ FailsAt (value d bare) e.2) es
  | [], _, _, _, hd => absurd hd (Nat.not_lt_zero _)
  | (_, v) :: es, d, bare, h, hd =>
    if hv : d < v.nesting then .here (fails_value v d bare h.1 hv)
    else .later ⟨_, reads_value v d bare h.1 (Nat.le_of_not_lt hv)⟩
      (breaks_entries es d bare h.2 ((lt_max_iff.mp hd).resolve_left hv))

end

end Stored

/-- The stored text of a value that nests too deep is not read. -/
theorem Value.readStored_tooDeep {v : Value} (h : v.Exact) (hd : 127 < v.nesting) :
    ∃ line column, Value.readStored (String.ofList v.stored) = .error ⟨.tooDeep,
      some (line, column)⟩ := by
  have hvalue := Stored.fails_value v 127 Stored.bareAlone h hd []
  rw [List.append_nil] at hvalue
  have hdocument : Stored.Fails Stored.document v.stored .tooDeep := hvalue.bind
  obtain ⟨line, column, hrun⟩ := hdocument ⟨1, 0, v.stored⟩ rfl
  refine ⟨line, column, ?_⟩
  unfold Value.readStored
  rw [String.toList_ofList, hrun]

namespace FieldType

/-- What a list or map column keeps of a value without floating-point numbers is read back if its
text nests fewer than 128 arrays and objects, as the value itself if all its leap seconds come at
the end of a minute; else the reader stops where it nests too deep. -/
theorem readCell_container {t : FieldType} (ht : t.isContainer) {v : Value} (h : v.Exact) :
    (Json.depth v.stored < 128 → t.readCell (t.column v).cell = .ok v.readBack) ∧
      (v.readBack = v ↔ v.Regular) ∧
      (128 ≤ Json.depth v.stored → ∃ line column, t.readCell (t.column v).cell =
        .error (.stored ⟨.tooDeep, some (line, column)⟩)) := by
  rw [Value.depth_stored h, ← cell_container ht]
  refine ⟨fun hd ↦ readCell_cell (.inr (.inl ht)) h fun _ ↦ Nat.le_of_lt_succ hd,
    v.readBack_eq_iff, fun hd ↦ ?_⟩
  obtain ⟨line, column, hfail⟩ := Value.readStored_tooDeep h hd
  have hnull : ¬v.isNull := fun hnull ↦ by
    cases v with
    | null => exact absurd hd (by decide)
    | _ => cases hnull
  have hcell : t.cell v = .text (String.ofList v.stored) := by
    rw [cell_container ht, FieldType.column, if_neg hnull, if_pos ht]
    rfl
  refine ⟨line, column, ?_⟩
  rw [hcell]
  cases t <;> cases ht
  all_goals
    unfold readCell
    dsimp only
    rw [hfail]

theorem readCell_container_of_nested :
    let shallow : Value :=
      .map [("a", .list [.int 1, .text "]\"[", .null]), ("b", .time ⟨23, 59, 59, 1500000000, rfl⟩)]
    let deep : Value := (fun v ↦ .list [v])^[64] .null
    FieldType.list.isContainer ∧ shallow.Exact ∧ deep.Exact ∧
      Json.depth shallow.stored = 5 ∧ Json.depth deep.stored = 128 ∧
      FieldType.list.readCell (FieldType.list.column shallow).cell = .ok shallow ∧
      ∃ line column, FieldType.list.readCell (FieldType.list.column deep).cell =
        .error (.stored ⟨.tooDeep, some (line, column)⟩) := by
  intro shallow deep
  have hshallow : shallow.Exact :=
    ⟨List.pairwise_pair.mpr (by decide +kernel), ⟨trivial, trivial, trivial, trivial⟩, trivial,
      trivial⟩
  have hdeep : deep.Exact := by
    have hnull : Value.null.Exact := trivial
    have hlist (v : Value) (h : v.Exact) : (Value.list [v]).Exact := ⟨h, trivial⟩
    exact Function.Iterate.rec Value.Exact hnull hlist 64
  have hfive : Json.depth shallow.stored = 5 := by decide +kernel
  have hmany : Json.depth deep.stored = 128 := by decide +kernel
  obtain ⟨hread, hregular, -⟩ := readCell_container (t := .list) rfl hshallow
  have hback : shallow.readBack = shallow :=
    hregular.mpr ⟨⟨trivial, trivial, trivial, trivial⟩, .inr rfl, trivial⟩
  refine ⟨rfl, hshallow, hdeep, hfive, hmany, ?_, (readCell_container rfl hdeep).2.2 hmany.ge⟩
  rw [hread (by rw [hfive]; decide), hback]

/-- The leap second after 12:34:05 is written as the second 12:34:06, and read as it. -/
theorem leap_second_moved :
    let v : Value := .list [.time ⟨12, 34, 5, 1500000000, rfl⟩]
    let w : Value := .list [.time ⟨12, 34, 6, 500000000, rfl⟩]
    v.Exact ∧ Json.depth v.stored < 128 ∧ v ≠ w ∧
      FieldType.list.column v = FieldType.list.column w ∧
      FieldType.list.readCell (FieldType.list.column v).cell = .ok w := by
  intro v w
  have hexact : v.Exact := ⟨trivial, trivial⟩
  have hdepth : Json.depth v.stored < 128 := by decide +kernel
  have hread : FieldType.list.readCell (FieldType.list.cell v) = .ok v.readBack :=
    readCell_cell (.inr (.inl rfl)) hexact fun _ ↦ by decide
  have hleap : ¬v.Regular := by
    rintro ⟨h | h, -⟩ <;> exact absurd h (by decide)
  exact ⟨hexact, hdepth, fun h ↦ hleap (v.readBack_eq_iff.mp h.symm), rfl, hread⟩

end FieldType

end EntityStore
