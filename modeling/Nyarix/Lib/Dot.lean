import Mathlib.Data.List.Basic
import Mathlib.Data.List.Induction

/-! Documents in the DOT language: a lexer for quoted strings, words, arrows and punctuation, and the node
and edge statements that its lexemes form. A quoted string ends at the first double quote that is not escaped;
its text is kept as it stands. -/

namespace Dot

/-- Read on within a quoted string, after a backslash or not. There is no reading past a double quote that
is not escaped. -/
def scan : Bool → List Char → Option Bool
  | escaped, [] => some escaped
  | true, _ :: text => scan false text
  | false, c :: text => if c = '"' then none else scan (c == '\\') text

def EndsString (text : List Char) : Prop := scan false text = none

instance instDecidableEndsString (text : List Char) : Decidable (EndsString text) :=
  inferInstanceAs (Decidable (_ = _))

inductive Lexeme where
  | quoted (text : List Char)
  | word (text : List Char)
  | arrow
  | symbol (c : Char)
  deriving DecidableEq

/-- Where the lexer stands. The texts are read so far, in reverse; after a backslash, up to it. -/
inductive Mode where
  | between
  | word (text : List Char)
  | dash
  | string (escaped : Bool) (text : List Char)

def isSpace (c : Char) : Bool := c = ' ' || c = '\n' || c = '\r' || c = '\t'

def isSymbol (c : Char) : Bool := "[]=,;\x7b\x7d".toList.contains c

def isWord (c : Char) : Bool := c.isAlphanum || c = '_'

def start (c : Char) : Option (Mode × List Lexeme) :=
  if c = '"' then some (.string false [], [])
  else if isSpace c then some (.between, [])
  else if isSymbol c then some (.between, [.symbol c])
  else if c = '-' then some (.dash, [])
  else if isWord c then some (.word [c], [])
  else none

def step : Mode → Char → Option (Mode × List Lexeme)
  | .between, c => start c
  | .word text, c =>
    if isWord c then some (.word (c :: text), [])
    else (start c).map fun (mode, lexemes) => (mode, .word text.reverse :: lexemes)
  | .dash, c => if c = '>' then some (.between, [.arrow]) else none
  | .string true text, c => some (.string false (c :: text), [])
  | .string false text, c =>
    if c = '"' then some (.between, [.quoted text.reverse])
    else some (.string (c == '\\') (c :: text), [])

def run : Mode → List Char → Option (Mode × List Lexeme)
  | mode, [] => some (mode, [])
  | mode, c :: text =>
    (step mode c).bind fun (mode, lexemes) => (run mode text).map fun (mode, more) => (mode, lexemes ++ more)

def lex (text : List Char) : Option (List Lexeme) :=
  match run .between text with
  | some (.between, lexemes) => some lexemes
  | some (.word text, lexemes) => some (lexemes ++ [.word text.reverse])
  | _ => none

inductive Statement where
  | node (id : List Char) (attributes : List (List Char × Lexeme))
  | edge (source target : List Char) (attributes : List (List Char × Lexeme))
  deriving DecidableEq

def Statement.attributes : Statement → List (List Char × Lexeme)
  | .node _ as => as
  | .edge _ _ as => as

def attributes : List Lexeme → Option (List (List Char × Lexeme))
  | [.word name, .symbol '=', value, .symbol ']'] => some [(name, value)]
  | .word name :: .symbol '=' :: value :: .symbol ',' :: rest => (attributes rest).map ((name, value) :: ·)
  | _ => none

def statement : List Lexeme → Option Statement
  | .quoted id :: .symbol '[' :: rest => (attributes rest).map (.node id)
  | .quoted source :: .arrow :: .quoted target :: .symbol '[' :: rest => (attributes rest).map (.edge source target)
  | _ => none

def body : List Lexeme → List Lexeme → Option (List Statement)
  | _, [] => none
  | line, lexeme :: rest =>
    if lexeme = .symbol ';' then (statement line).bind fun s => (body [] rest).map (s :: ·)
    else if lexeme = .symbol '\x7d' ∧ line = [] ∧ rest = [] then some []
    else body (line ++ [lexeme]) rest

def document (text : String) : Option (List Statement) :=
  match lex text.toList with
  | some (.word keyword :: .word _ :: .symbol '\x7b' :: rest) =>
    if keyword = "digraph".toList then body [] rest else none
  | _ => none

variable {text more : List Char} {lexemes us line rest : List Lexeme} {mode mode' : Mode} {c : Char}

theorem run_append (mode : Mode) (text more : List Char) : run mode (text ++ more) =
    (run mode text).bind fun r => (run r.1 more).map fun r' => (r'.1, r.2 ++ r'.2) := by
  induction text generalizing mode with
  | nil =>
    show run mode more = (run mode more).map fun r' => (r'.1, [] ++ r'.2)
    cases run mode more <;> rfl
  | cons c text ih =>
    rw [List.cons_append, run, run]
    cases step mode c with
    | none => rfl
    | some r =>
      obtain ⟨mode', lexemes⟩ := r
      show (run mode' (text ++ more)).map _ = ((run mode' text).map _).bind _
      rw [ih]
      cases run mode' text with
      | none => rfl
      | some r =>
        obtain ⟨mode'', lexemes'⟩ := r
        show ((run mode'' more).map _).map _ = (run mode'' more).map _
        rw [Option.map_map]
        refine congrArg (Option.map · _) (funext fun r' => ?_)
        exact Prod.ext rfl (List.append_assoc lexemes lexemes' r'.2).symm

def Lexes (text : List Char) (lexemes : List Lexeme) : Prop := run .between text = some (.between, lexemes)

theorem Lexes.append (h : Lexes text lexemes) (h' : Lexes more us) : Lexes (text ++ more) (lexemes ++ us) := by
  rw [Lexes, run_append, h]
  show (run .between more).map _ = _
  rw [h']
  rfl

theorem Lexes.flatMap {α : Type*} {f : α → List Char} {g : α → List Lexeme} {l : List α}
    (h : ∀ a ∈ l, Lexes (f a) (g a)) : Lexes (l.flatMap f) (l.flatMap g) := by
  induction l with
  | nil => rfl
  | cons a l ih =>
    rw [List.flatMap_cons, List.flatMap_cons]
    exact (h a List.mem_cons_self).append (ih fun b hb => h b (List.mem_cons_of_mem a hb))

theorem run_string {escaped : Bool} {acc : List Char} (h : scan escaped text = some false) :
    run (.string escaped acc) (text ++ ['"']) = some (.between, [.quoted (acc.reverse ++ text)]) := by
  induction text generalizing escaped acc with
  | nil =>
    obtain rfl : escaped = false := Option.some.inj h
    rw [List.append_nil]
    rfl
  | cons c text ih =>
    have hacc : (c :: acc).reverse ++ text = acc.reverse ++ c :: text := by
      rw [List.reverse_cons, List.append_assoc, List.singleton_append]
    have hread : ∀ escaped', scan escaped' text = some false → run (.string escaped' (c :: acc)) (text ++ ['"']) =
        some (.between, [.quoted (acc.reverse ++ c :: text)]) := fun escaped' h' => hacc ▸ ih h'
    cases escaped with
    | true =>
      show (run (.string false (c :: acc)) (text ++ ['"'])).map _ = _
      rw [hread false h]
      rfl
    | false =>
      rw [scan] at h
      split_ifs at h with hc
      rw [List.cons_append, run, step, if_neg hc]
      show (run (.string (c == '\\') (c :: acc)) (text ++ ['"'])).map _ = _
      rw [hread _ h]
      rfl

theorem lexes_quoted (h : scan false text = some false) : Lexes ('"' :: text ++ ['"']) [.quoted text] := by
  show (run (.string false []) (text ++ ['"'])).map _ = _
  rw [run_string h]
  rfl

theorem lex_of_lexes (h : Lexes text lexemes) : lex text = some lexemes := by
  rw [lex, h]

theorem body_line (hlexemes : .symbol ';' ∉ lexemes) : body line (lexemes ++ .symbol ';' :: rest) =
    (statement (line ++ lexemes)).bind fun s => (body [] rest).map (s :: ·) := by
  induction lexemes generalizing line with
  | nil => rw [List.nil_append, body, if_pos rfl, List.append_nil]
  | cons lexeme lexemes ih =>
    obtain ⟨hlexeme, hlexemes⟩ := not_or.mp (mt List.mem_cons.mpr hlexemes)
    have hne : ¬ (lexeme = .symbol '\x7d' ∧ line = [] ∧ lexemes ++ .symbol ';' :: rest = []) := by
      simp
    rw [List.cons_append, body, if_neg (Ne.symm hlexeme), if_neg hne, ih hlexemes, List.append_assoc,
      List.singleton_append]

theorem body_lines {α : Type*} {f : α → List Lexeme} {g : α → Statement} (hf : ∀ a, .symbol ';' ∉ f a)
    (hg : ∀ a, statement (f a) = some (g a)) (l : List α) (rest : List Lexeme) :
    body [] (l.flatMap (fun a => f a ++ [.symbol ';']) ++ rest) = (body [] rest).map (l.map g ++ ·) := by
  induction l with
  | nil =>
    show body [] rest = (body [] rest).map ([] ++ ·)
    cases body [] rest <;> rfl
  | cons a l ih =>
    have hline : (a :: l).flatMap (fun a => f a ++ [.symbol ';']) ++ rest =
        f a ++ .symbol ';' :: (l.flatMap (fun a => f a ++ [.symbol ';']) ++ rest) := by
      rw [List.flatMap_cons, List.append_assoc, List.append_assoc, List.singleton_append]
    rw [hline, body_line (hf a), List.nil_append, hg, ih]
    show ((body [] rest).map _).map _ = (body [] rest).map _
    rw [Option.map_map]
    rfl

theorem scan_append (escaped : Bool) (text more : List Char) :
    scan escaped (text ++ more) = (scan escaped text).bind (scan · more) := by
  induction text generalizing escaped with
  | nil =>
    cases escaped <;> rfl
  | cons c text ih =>
    cases escaped with
    | true => exact ih false
    | false =>
      rw [List.cons_append, scan, scan]
      split_ifs with hc
      · rfl
      · exact ih _

theorem scan_plain (h : ∀ c ∈ text, c ≠ '"' ∧ c ≠ '\\') : scan false text = some false := by
  induction text with
  | nil => rfl
  | cons c text ih =>
    obtain ⟨hquote, hbackslash⟩ := h c List.mem_cons_self
    rw [scan, if_neg hquote, beq_eq_false_iff_ne.mpr hbackslash]
    exact ih fun b hb => h b (List.mem_cons_of_mem c hb)

theorem EndsString.of_prefix (h : EndsString text) (hmore : text <+: more) : EndsString more := by
  obtain ⟨rest, rfl⟩ := hmore
  rw [EndsString, scan_append, h]
  rfl

def Lexeme.Sound : Lexeme → Prop
  | .quoted text => ¬ EndsString text
  | _ => True

def Mode.Sound : Mode → Prop
  | .string escaped text => scan false text.reverse = some escaped
  | _ => True

theorem start_sound {r : Mode × List Lexeme} (h : start c = some r) : r.1.Sound ∧ ∀ lexeme ∈ r.2, lexeme.Sound := by
  unfold start at h
  split_ifs at h
  · obtain rfl := Option.some.inj h
    exact ⟨rfl, fun _ ht => (List.not_mem_nil ht).elim⟩
  · obtain rfl := Option.some.inj h
    exact ⟨trivial, fun _ ht => (List.not_mem_nil ht).elim⟩
  · obtain rfl := Option.some.inj h
    exact ⟨trivial, List.forall_mem_singleton.mpr trivial⟩
  · obtain rfl := Option.some.inj h
    exact ⟨trivial, fun _ ht => (List.not_mem_nil ht).elim⟩
  · obtain rfl := Option.some.inj h
    exact ⟨trivial, fun _ ht => (List.not_mem_nil ht).elim⟩

theorem step_sound {r : Mode × List Lexeme} (hmode : mode.Sound) (h : step mode c = some r) :
    r.1.Sound ∧ ∀ lexeme ∈ r.2, lexeme.Sound := by
  cases mode with
  | between => exact start_sound h
  | word text =>
    rw [step] at h
    split_ifs at h with hword
    · obtain rfl := Option.some.inj h
      exact ⟨trivial, fun _ ht => (List.not_mem_nil ht).elim⟩
    · obtain ⟨r', hr', rfl⟩ := Option.map_eq_some_iff.mp h
      obtain ⟨hsound, hlexemes⟩ := start_sound hr'
      exact ⟨hsound, List.forall_mem_cons.mpr ⟨trivial, hlexemes⟩⟩
  | dash =>
    rw [step] at h
    split_ifs at h
    obtain rfl := Option.some.inj h
    exact ⟨trivial, List.forall_mem_singleton.mpr trivial⟩
  | string escaped text =>
    have hread : scan false text.reverse = some escaped := hmode
    cases escaped with
    | true =>
      obtain rfl := Option.some.inj h
      refine ⟨?_, fun _ ht => (List.not_mem_nil ht).elim⟩
      show scan false (c :: text).reverse = some false
      rw [List.reverse_cons, scan_append, hread]
      rfl
    | false =>
      rw [step] at h
      split_ifs at h with hquote
      · obtain rfl := Option.some.inj h
        refine ⟨trivial, List.forall_mem_singleton.mpr fun hends => ?_⟩
        rw [EndsString, hread] at hends
        cases hends
      · obtain rfl := Option.some.inj h
        refine ⟨?_, fun _ ht => (List.not_mem_nil ht).elim⟩
        show scan false (c :: text).reverse = some (c == '\\')
        rw [List.reverse_cons, scan_append, hread]
        show scan false [c] = _
        rw [scan, if_neg hquote, scan]

theorem run_sound {r : Mode × List Lexeme} (hmode : mode.Sound) (h : run mode text = some r) :
    r.1.Sound ∧ ∀ lexeme ∈ r.2, lexeme.Sound := by
  induction text generalizing mode r with
  | nil =>
    obtain rfl := Option.some.inj h
    exact ⟨hmode, fun _ ht => (List.not_mem_nil ht).elim⟩
  | cons c text ih =>
    obtain ⟨⟨mode', lexemes⟩, hstep, hrest⟩ := Option.bind_eq_some_iff.mp h
    obtain ⟨⟨mode'', more⟩, hrun, rfl⟩ := Option.map_eq_some_iff.mp hrest
    obtain ⟨hmode', hlexemes⟩ := step_sound hmode hstep
    obtain ⟨hmode'', hmore⟩ := ih hmode' hrun
    exact ⟨hmode'', List.forall_mem_append.mpr ⟨hlexemes, hmore⟩⟩

theorem lex_sound (h : lex text = some lexemes) : ∀ lexeme ∈ lexemes, lexeme.Sound := by
  have hbetween : Mode.between.Sound := trivial
  unfold lex at h
  split at h
  · rename_i _ lexemes' hrun
    obtain rfl := Option.some.inj h
    exact (run_sound hbetween hrun).2
  · rename_i _ word lexemes' hrun
    obtain rfl := Option.some.inj h
    have hlexemes := (run_sound hbetween hrun).2
    exact List.forall_mem_append.mpr ⟨hlexemes, List.forall_mem_singleton.mpr trivial⟩
  · cases h

theorem mem_of_attributes {as : List (List Char × Lexeme)} (h : attributes lexemes = some as) :
    ∀ a ∈ as, a.2 ∈ lexemes := by
  induction lexemes using attributes.induct generalizing as with
  | case1 name value =>
    obtain rfl := Option.some.inj h
    simp
  | case2 name value rest ih =>
    obtain ⟨as', has', rfl⟩ := Option.map_eq_some_iff.mp h
    intro a ha
    rcases List.mem_cons.mp ha with rfl | ha
    · simp
    · simp [ih has' a ha]
  | case3 lexemes hlast hmore =>
    unfold attributes at h
    split at h
    · exact (hlast _ _ rfl).elim
    · exact (hmore _ _ _ rfl).elim
    · cases h

theorem mem_of_statement {s : Statement} (h : statement lexemes = some s) : ∀ a ∈ s.attributes, a.2 ∈ lexemes := by
  unfold statement at h
  split at h
  · obtain ⟨as, has, rfl⟩ := Option.map_eq_some_iff.mp h
    intro a ha
    simp [mem_of_attributes has a ha]
  · obtain ⟨as, has, rfl⟩ := Option.map_eq_some_iff.mp h
    intro a ha
    simp [mem_of_attributes has a ha]
  · cases h

theorem mem_of_body {ss : List Statement} (h : body line lexemes = some ss) :
    ∀ s ∈ ss, ∀ a ∈ s.attributes, a.2 ∈ line ++ lexemes := by
  induction lexemes generalizing line ss with
  | nil => cases h
  | cons lexeme lexemes ih =>
    rw [body] at h
    split_ifs at h with hsemicolon hend
    · obtain ⟨s, hs, hrest⟩ := Option.bind_eq_some_iff.mp h
      obtain ⟨ss', hss', rfl⟩ := Option.map_eq_some_iff.mp hrest
      intro s' hs' a ha
      rcases List.mem_cons.mp hs' with rfl | hs'
      · exact List.mem_append_left _ (mem_of_statement hs a ha)
      · exact List.mem_append_right _ (List.mem_cons_of_mem _ (ih hss' s' hs' a ha))
    · obtain rfl := Option.some.inj h
      exact fun _ hs => (List.not_mem_nil hs).elim
    · have hmem := ih h
      rwa [List.append_assoc, List.singleton_append] at hmem

theorem document_sound {text : String} {ss : List Statement} (h : document text = some ss) :
    ∀ s ∈ ss, ∀ a ∈ s.attributes, a.2.Sound := by
  unfold document at h
  split at h
  · rename_i keyword name rest hlex
    split_ifs at h
    intro s hs a ha
    have hmem : a.2 ∈ rest := mem_of_body h s hs a ha
    exact lex_sound hlex a.2 (List.mem_cons_of_mem _ (List.mem_cons_of_mem _ (List.mem_cons_of_mem _ hmem)))
  · cases h

end Dot
