/-
# How a text falls into tokens

`Lexes` says what the tokens of a text are without a scanner. Blanks and comments mean
nothing; parentheses and the quote sign stand for themselves; a string runs to the next
quotation mark that no backslash escapes; an atom runs to the next delimiter, except that
the character after `#\` belongs to it whatever it is.

The scanner goes from character to character and knows no more than its mode.
`lexes_iff_tokensFrom` says that it finds the same tokens, whatever the text. So each text
has exactly one list of tokens, and every token stands at a place of the text.
-/

import MessageMachine.Reader.Token

namespace MessageMachine.Reader

/-! ## Pieces of a text -/

/-- The place after some characters. -/
def Place.after (p : Place) (cs : List Char) : Place :=
  cs.foldl Place.advance p

theorem Place.after_append (p : Place) (cs rest : List Char) :
    p.after (cs ++ rest) = (p.after cs).after rest :=
  List.foldl_append

/-- Here an atom is over: the text is, or a delimiter follows. -/
def Ends : List Char → Prop
  | [] => True
  | c :: _ => isDelimiter c = true

/-- Here a comment is over: the text is, or its line. -/
def EndsLine : List Char → Prop
  | [] => True
  | c :: _ => c = '\n'

/-- What a character means behind a backslash: three letters mean controls, and everything
else means itself. -/
inductive Escaped : Char → Char → Prop
  | newline : Escaped 'n' '\n'
  | tab : Escaped 't' '\t'
  | «return» : Escaped 'r' '\r'
  | same {c : Char} : c ≠ 'n' → c ≠ 't' → c ≠ 'r' → Escaped c c

theorem escaped_iff {c meant : Char} : Escaped c meant ↔ unescape c = meant := by
  constructor
  · rintro (_ | _ | _ | ⟨n, t, r⟩)
    · rfl
    · rfl
    · rfl
    · unfold unescape
      split <;> first | rfl | contradiction
  · rintro rfl
    unfold unescape
    split
    · exact .newline
    · exact .tab
    · exact .return
    next n t r => exact .same n t r

/-- What may stand between quotation marks, and the text that it means. -/
inductive Quoted : List Char → List Char → Prop
  | nil : Quoted [] []
  | plain {c : Char} {body text : List Char} :
      c ≠ '"' → c ≠ '\\' → Quoted body text → Quoted (c :: body) (c :: text)
  | escaped {c meant : Char} {body text : List Char} :
      Escaped c meant → Quoted body text → Quoted ('\\' :: c :: body) (meant :: text)

/-- The characters of an atom, with what follows them. -/
inductive Word : List Char → List Char → Prop
  | plain {word rest : List Char} :
      word ≠ [] → (∀ c ∈ word, isDelimiter c = false) → (∀ tail, word ≠ '#' :: '\\' :: tail) →
      Ends rest → Word word rest
  /-- The character after the backslash may be a delimiter. -/
  | literal {c : Char} {word rest : List Char} :
      (∀ c ∈ word, isDelimiter c = false) → Ends rest → Word ('#' :: '\\' :: c :: word) rest
  /-- The text ends where that character should be. -/
  | bare : Word ['#', '\\'] []

/-- The tokens of a text that begins at a place. The last one says how it ends. -/
inductive Lexes : Place → List Char → List Token → Prop
  | finish {p : Place} : Lexes p [] [⟨.endOfText, p⟩]
  | blank {p : Place} {c : Char} {rest : List Char} {ts : List Token} :
      isBlank c = true → Lexes (p.advance c) rest ts → Lexes p (c :: rest) ts
  | comment {p : Place} {body rest : List Char} {ts : List Token} :
      (∀ c ∈ body, c ≠ '\n') → EndsLine rest → Lexes (p.after (';' :: body)) rest ts →
      Lexes p (';' :: (body ++ rest)) ts
  | openList {p : Place} {rest : List Char} {ts : List Token} :
      Lexes (p.advance '(') rest ts → Lexes p ('(' :: rest) (⟨.openList, p⟩ :: ts)
  | closeList {p : Place} {rest : List Char} {ts : List Token} :
      Lexes (p.advance ')') rest ts → Lexes p (')' :: rest) (⟨.closeList, p⟩ :: ts)
  | quote {p : Place} {rest : List Char} {ts : List Token} :
      Lexes (p.advance '\'') rest ts → Lexes p ('\'' :: rest) (⟨.quote, p⟩ :: ts)
  | string {p : Place} {body text rest : List Char} {ts : List Token} :
      Quoted body text → Lexes (p.after ('"' :: (body ++ ['"']))) rest ts →
      Lexes p ('"' :: (body ++ '"' :: rest)) (⟨.string (String.ofList text), p⟩ :: ts)
  | atom {p : Place} {word rest : List Char} {ts : List Token} :
      Word word rest → Lexes (p.after word) rest ts →
      Lexes p (word ++ rest) (⟨.atom (String.ofList word), p⟩ :: ts)
  | unterminated {p : Place} {body text : List Char} :
      Quoted body text → Lexes p ('"' :: body) [⟨.unterminated, p⟩]
  | unterminatedEscape {p : Place} {body text : List Char} :
      Quoted body text → Lexes p ('"' :: (body ++ ['\\'])) [⟨.unterminated, p⟩]

/-! ## The scanner -/

/-- The tokens of the rest of a text, as the scanner finds them. -/
def tokensFrom (mode : Mode) (p : Place) : List Char → List Token
  | [] => mode.finish p
  | c :: rest => (mode.step p c).2 ++ tokensFrom (mode.step p c).1 (p.advance c) rest

theorem finish_foldl_feed (s : Scan) (cs : List Char) :
    (cs.foldl Scan.feed s).finish = s.tokens.reverse ++ tokensFrom s.mode s.place cs := by
  induction cs generalizing s with
  | nil => rfl
  | cons c rest ih =>
    rw [List.foldl_cons, ih, tokensFrom, Scan.feed]
    simp

theorem tokens_eq (text : String) : tokens text = tokensFrom .blank .start text.toList :=
  finish_foldl_feed .start text.toList

variable {p start : Place} {word body text rest done : List Char}

/-- A comment is skipped. -/
theorem tokensFrom_comment (line : ∀ c ∈ body, c ≠ '\n') (ends : EndsLine rest) :
    tokensFrom .comment p (body ++ rest) = tokensFrom .blank (p.after body) rest := by
  induction body generalizing p with
  | nil =>
    cases rest with
    | nil => rfl
    | cons c rest =>
      cases (ends : c = '\n')
      rfl
  | cons c body ih =>
    obtain ⟨other, others⟩ := List.forall_mem_cons.1 line
    rw [List.cons_append, tokensFrom, Mode.step]
    simp only [if_neg other]
    exact ih others

/-- In a string the scanner keeps what is meant. -/
theorem tokensFrom_string (quoted : Quoted body text) :
    tokensFrom (.string start done) p (body ++ rest) =
      tokensFrom (.string start (text.reverse ++ done)) (p.after body) rest := by
  induction quoted generalizing p done with
  | nil => rfl
  | @plain c body text mark backslash _ ih =>
    rw [List.cons_append, tokensFrom, Mode.step]
    simp only [if_neg mark, if_neg backslash, List.nil_append]
    rw [ih, List.reverse_cons, List.append_assoc]
    rfl
  | @escaped c meant body text escaped _ ih =>
    rw [List.cons_append, List.cons_append, tokensFrom, tokensFrom]
    show tokensFrom (.string start (unescape c :: done)) _ _ = _
    rw [escaped_iff.1 escaped, ih, List.reverse_cons, List.append_assoc]
    rfl

/-- A delimiter after an atom begins what follows. -/
theorem tokensFrom_atom_ends (ends : Ends rest) :
    tokensFrom (.atom start done) p rest =
      ⟨.atom (textOf done), start⟩ :: tokensFrom .blank p rest := by
  cases rest with
  | nil => rfl
  | cons c rest =>
    have delimiter : isDelimiter c = true := ends
    rw [tokensFrom, Mode.step, Mode.continueAtom, if_pos delimiter]
    rfl

/-- An atom runs to the next delimiter. -/
theorem tokensFrom_atom (inside : ∀ c ∈ word, isDelimiter c = false) (ends : Ends rest) :
    tokensFrom (.atom start done) p (word ++ rest) =
      ⟨.atom (textOf (word.reverse ++ done)), start⟩ :: tokensFrom .blank (p.after word) rest := by
  induction word generalizing p done with
  | nil => exact tokensFrom_atom_ends ends
  | cons c word ih =>
    obtain ⟨first, others⟩ := List.forall_mem_cons.1 inside
    rw [List.cons_append, tokensFrom, Mode.step, Mode.continueAtom, first]
    simp only [Bool.false_eq_true, if_false, List.nil_append]
    rw [ih others, List.reverse_cons, List.append_assoc]
    rfl

/-- What begins with a hash sign is an atom like others, but for a backslash after it. -/
theorem tokensFrom_hash (other : ∀ tail, rest ≠ '\\' :: tail) :
    tokensFrom (.hash start) p rest = tokensFrom (.atom start ['#']) p rest := by
  cases rest with
  | nil => rfl
  | cons c rest =>
    have plain : c ≠ '\\' := fun same => other rest (congrArg (· :: rest) same)
    have same : (Mode.hash start).step p c = Mode.continueAtom start ['#'] p c := if_neg plain
    rw [tokensFrom, tokensFrom, same]
    rfl

theorem begin_of_not_delimiter {c : Char} (inside : isDelimiter c = false) :
    Mode.begin p c = if c = '#' then (.hash p, []) else (.atom p [c], []) := by
  simp only [isDelimiter, Bool.or_eq_false_iff, decide_eq_false_iff_not] at inside
  obtain ⟨⟨⟨⟨⟨blank, opens⟩, closes⟩, mark⟩, semicolon⟩, quote⟩ := inside
  rw [Mode.begin, if_neg opens, if_neg closes, if_neg quote, if_neg mark, if_neg semicolon, blank]
  rfl

theorem begin_of_blank {c : Char} (blank : isBlank c = true) : Mode.begin p c = (.blank, []) := by
  have other (d : Char) (solid : isBlank d = false) : c ≠ d := by
    rintro rfl
    rw [blank] at solid
    cases solid
  rw [Mode.begin, if_neg (other '(' rfl), if_neg (other ')' rfl), if_neg (other '\'' rfl),
    if_neg (other '"' rfl), if_neg (other ';' rfl), if_pos blank]

theorem not_backslash_of_ends (ends : Ends rest) (tail : List Char) : rest ≠ '\\' :: tail := by
  rintro rfl
  cases (ends : isDelimiter '\\' = true)

/-- Whatever is a word is scanned as one. -/
theorem tokensFrom_word (isWord : Word word rest) :
    tokensFrom .blank p (word ++ rest) =
      ⟨.atom (String.ofList word), p⟩ :: tokensFrom .blank (p.after word) rest := by
  cases isWord with
  | plain some_ inside named ends =>
    obtain ⟨c, word, rfl⟩ := List.exists_cons_of_ne_nil some_
    obtain ⟨first, others⟩ := List.forall_mem_cons.1 inside
    rw [List.cons_append, tokensFrom, Mode.step, begin_of_not_delimiter first]
    by_cases hash : c = '#'
    · subst hash
      have other : ∀ tail, word ++ rest ≠ '\\' :: tail := by
        intro tail same
        cases word with
        | nil => exact not_backslash_of_ends ends tail same
        | cons d word =>
          cases same
          exact named _ rfl
      rw [if_pos rfl, List.nil_append, tokensFrom_hash other, tokensFrom_atom others ends]
      simp [textOf, Place.after]
    · rw [if_neg hash, List.nil_append, tokensFrom_atom others ends]
      simp [textOf, Place.after]
  | @literal c word _ inside ends =>
    show tokensFrom (.atom p [c, '\\', '#']) _ (word ++ rest) = _
    rw [tokensFrom_atom inside ends]
    simp [textOf, Place.after]
  | bare => rfl

/-- After a quotation mark the scanner is in a string, and behind what is quoted it still is. -/
theorem tokensFrom_mark (quoted : Quoted body text) :
    tokensFrom .blank p ('"' :: (body ++ rest)) =
      tokensFrom (.string p text.reverse) (p.after ('"' :: body)) rest := by
  show tokensFrom (.string p []) (p.advance '"') (body ++ rest) = _
  rw [tokensFrom_string quoted, List.append_nil]
  rfl

/-! ## The scanner agrees -/

/-- The tokens of a text are those that the scanner finds. -/
theorem Lexes.tokensFrom_eq {cs : List Char} {ts : List Token} (lexes : Lexes p cs ts) :
    tokensFrom .blank p cs = ts := by
  induction lexes with
  | finish => rfl
  | blank skipped _ ih =>
    rw [tokensFrom, Mode.step, begin_of_blank skipped, ← ih]
    rfl
  | comment line ends _ ih =>
    rw [← ih]
    exact tokensFrom_comment line ends
  | openList _ ih | closeList _ ih | quote _ ih =>
    rw [← ih]
    rfl
  | string quoted _ ih =>
    rw [tokensFrom_mark quoted, tokensFrom, ← ih, ← List.cons_append, Place.after_append]
    simp only [Mode.step, if_pos, textOf, List.reverse_reverse]
    rfl
  | atom isWord _ ih => rw [tokensFrom_word isWord, ih]
  | @unterminated p body text quoted =>
    have scanned : tokensFrom .blank p ('"' :: (body ++ [])) =
        tokensFrom (.string p text.reverse) (p.after ('"' :: body)) [] := tokensFrom_mark quoted
    rw [List.append_nil] at scanned
    rw [scanned]
    rfl
  | unterminatedEscape quoted =>
    rw [tokensFrom_mark quoted]
    rfl

/-- After a quotation mark a string ends, or the text does: behind a character or behind
a backslash. -/
theorem exists_quoted (cs : List Char) :
    (∃ body text rest, Quoted body text ∧ cs = body ++ '"' :: rest) ∨
      (∃ text, Quoted cs text) ∨ ∃ body text, Quoted body text ∧ cs = body ++ ['\\'] := by
  induction size : cs.length using Nat.strongRecOn generalizing cs with
  | ind n ih =>
    subst size
    cases cs with
    | nil => exact .inr (.inl ⟨[], .nil⟩)
    | cons c rest =>
      by_cases mark : c = '"'
      · exact .inl ⟨[], [], rest, .nil, congrArg (· :: rest) mark⟩
      by_cases backslash : c = '\\'
      · subst backslash
        cases rest with
        | nil => exact .inr (.inr ⟨[], [], .nil, rfl⟩)
        | cons d rest =>
          have shorter : rest.length < ('\\' :: d :: rest).length := by
            simp only [List.length_cons]
            omega
          have meant : Escaped d (unescape d) := escaped_iff.2 rfl
          rcases ih _ shorter rest rfl with
            ⟨body, text, after, quoted, rfl⟩ | ⟨text, quoted⟩ | ⟨body, text, quoted, rfl⟩
          · exact .inl ⟨_, _, after, .escaped meant quoted, rfl⟩
          · exact .inr (.inl ⟨_, .escaped meant quoted⟩)
          · exact .inr (.inr ⟨_, _, .escaped meant quoted, rfl⟩)
      · rcases ih _ (Nat.lt_succ_self _) rest rfl with
          ⟨body, text, after, quoted, rfl⟩ | ⟨text, quoted⟩ | ⟨body, text, quoted, rfl⟩
        · exact .inl ⟨_, _, after, .plain mark backslash quoted, rfl⟩
        · exact .inr (.inl ⟨_, .plain mark backslash quoted⟩)
        · exact .inr (.inr ⟨_, _, .plain mark backslash quoted, rfl⟩)

/-- A text begins with characters that go on until one does not. -/
theorem exists_span (goes : Char → Bool) (cs : List Char) :
    ∃ word rest, cs = word ++ rest ∧ (∀ c ∈ word, goes c = true) ∧
      ∀ c tail, rest = c :: tail → goes c = false := by
  induction cs with
  | nil => exact ⟨[], [], rfl, nofun, nofun⟩
  | cons c cs ih =>
    cases first : goes c with
    | true =>
      obtain ⟨word, rest, rfl, inside, stops⟩ := ih
      exact ⟨c :: word, rest, rfl, List.forall_mem_cons.2 ⟨first, inside⟩, stops⟩
    | false =>
      refine ⟨[], c :: cs, rfl, nofun, fun d tail same => ?_⟩
      cases same
      exact first

theorem exists_inside (cs : List Char) :
    ∃ word rest, cs = word ++ rest ∧ (∀ c ∈ word, isDelimiter c = false) ∧ Ends rest := by
  obtain ⟨word, rest, rfl, inside, stops⟩ := exists_span (fun c => !isDelimiter c) cs
  refine ⟨word, rest, rfl, fun c member => by simpa using inside c member, ?_⟩
  cases rest with
  | nil => trivial
  | cons c tail =>
    have ended : isDelimiter c = true := by simpa using stops c tail rfl
    exact ended

theorem exists_line (cs : List Char) :
    ∃ body rest, cs = body ++ rest ∧ (∀ c ∈ body, c ≠ '\n') ∧ EndsLine rest := by
  obtain ⟨body, rest, rfl, inside, stops⟩ := exists_span (fun c => decide (c ≠ '\n')) cs
  refine ⟨body, rest, rfl, fun c member => of_decide_eq_true (inside c member), ?_⟩
  cases rest with
  | nil => trivial
  | cons c tail =>
    have ended : c = '\n' := by simpa using stops c tail rfl
    exact ended

/-- What begins with a character that is no delimiter begins with a word. -/
theorem exists_word {c : Char} (first : isDelimiter c = false) (cs : List Char) :
    ∃ word rest, cs = word ++ rest ∧ Word (c :: word) rest := by
  by_cases named : c = '#' ∧ ∃ tail, cs = '\\' :: tail
  · obtain ⟨rfl, tail, rfl⟩ := named
    cases tail with
    | nil => exact ⟨['\\'], [], rfl, .bare⟩
    | cons d tail =>
      obtain ⟨word, rest, rfl, inside, ends⟩ := exists_inside tail
      exact ⟨'\\' :: d :: word, rest, rfl, .literal inside ends⟩
  · obtain ⟨word, rest, rfl, inside, ends⟩ := exists_inside cs
    refine ⟨word, rest, rfl, .plain (List.cons_ne_nil _ _)
      (List.forall_mem_cons.2 ⟨first, inside⟩) (fun tail same => named ?_) ends⟩
    cases same
    exact ⟨rfl, _, rfl⟩

/-- Every text has tokens. -/
theorem exists_lexes (p : Place) (cs : List Char) : ∃ ts, Lexes p cs ts := by
  induction size : cs.length using Nat.strongRecOn generalizing p cs with
  | ind n ih =>
    subst size
    -- What follows a first piece of the text has tokens.
    have follows (p : Place) (rest : List Char) (shorter : rest.length < cs.length) :
        ∃ ts, Lexes p rest ts := ih _ shorter p rest rfl
    cases cs with
    | nil => exact ⟨_, .finish⟩
    | cons c rest =>
      have next (p : Place) : ∃ ts, Lexes p rest ts := follows p rest (Nat.lt_succ_self _)
      have later (p : Place) (piece after : List Char)
          (whole : rest = piece ++ after) : ∃ ts, Lexes p after ts := by
        refine follows p after ?_
        rw [whole, List.length_cons, List.length_append]
        omega
      cases delimiter : isDelimiter c with
      | false =>
        obtain ⟨word, after, rfl, isWord⟩ := exists_word delimiter rest
        obtain ⟨ts, lexes⟩ := later (p.after (c :: word)) word after rfl
        exact ⟨_, .atom isWord lexes⟩
      | true =>
        simp only [isDelimiter, Bool.or_eq_true, decide_eq_true_eq] at delimiter
        rcases delimiter with ((((blank | rfl) | rfl) | rfl) | rfl) | rfl
        · obtain ⟨ts, lexes⟩ := next (p.advance c)
          exact ⟨_, .blank blank lexes⟩
        · obtain ⟨ts, lexes⟩ := next (p.advance '(')
          exact ⟨_, .openList lexes⟩
        · obtain ⟨ts, lexes⟩ := next (p.advance ')')
          exact ⟨_, .closeList lexes⟩
        · rcases exists_quoted rest with
            ⟨body, text, after, quoted, rfl⟩ | ⟨text, quoted⟩ | ⟨body, text, quoted, rfl⟩
          · obtain ⟨ts, lexes⟩ := later (p.after ('"' :: (body ++ ['"']))) (body ++ ['"']) after
              (List.append_cons body '"' after)
            exact ⟨_, .string quoted lexes⟩
          · exact ⟨_, .unterminated quoted⟩
          · exact ⟨_, .unterminatedEscape quoted⟩
        · obtain ⟨body, after, rfl, line, ends⟩ := exists_line rest
          obtain ⟨ts, lexes⟩ := later (p.after (';' :: body)) body after rfl
          exact ⟨_, .comment line ends lexes⟩
        · obtain ⟨ts, lexes⟩ := next (p.advance '\'')
          exact ⟨_, .quote lexes⟩

/-- The scanner finds the tokens of a text, and nothing else. -/
theorem lexes_iff_tokensFrom {cs : List Char} {ts : List Token} :
    Lexes p cs ts ↔ tokensFrom .blank p cs = ts := by
  constructor
  · exact Lexes.tokensFrom_eq
  · rintro rfl
    obtain ⟨ts, lexes⟩ := exists_lexes p cs
    rwa [lexes.tokensFrom_eq]

theorem lexes_tokens (text : String) : Lexes .start text.toList (tokens text) :=
  lexes_iff_tokensFrom.2 (tokens_eq text).symm

theorem Lexes.unique {cs : List Char} {ts ts' : List Token} (first : Lexes p cs ts)
    (second : Lexes p cs ts') : ts = ts' :=
  first.tokensFrom_eq.symm.trans second.tokensFrom_eq

/-! ## Where tokens stand, and what they hold -/

/-- A place of a text, or the one at its end, where the text begins at another place. -/
def Within (p : Place) (cs : List Char) (place : Place) : Prop :=
  ∃ before after, cs = before ++ after ∧ place = p.after before

theorem Within.first (p : Place) (cs : List Char) : Within p cs p :=
  ⟨[], cs, rfl, rfl⟩

theorem Within.later (piece : List Char) {place : Place} {rest : List Char}
    (within : Within (p.after piece) rest place) : Within p (piece ++ rest) place := by
  obtain ⟨before, after, rfl, rfl⟩ := within
  exact ⟨piece ++ before, after, (List.append_assoc _ _ _).symm, (p.after_append _ _).symm⟩

/-- Tokens stand in the text, or at its end. -/
theorem Lexes.within {cs : List Char} {ts : List Token} (lexes : Lexes p cs ts) :
    ∀ token ∈ ts, Within p cs token.place := by
  induction lexes with
  | finish | unterminated | unterminatedEscape =>
    exact List.forall_mem_singleton.2 (Within.first _ _)
  | @blank p c rest ts _ _ ih => exact fun token member => Within.later [c] (ih token member)
  | comment _ _ _ ih => exact fun token member => Within.later _ (ih token member)
  | @openList p rest ts _ ih =>
    exact List.forall_mem_cons.2
      ⟨Within.first _ _, fun token member => Within.later ['('] (ih token member)⟩
  | @closeList p rest ts _ ih =>
    exact List.forall_mem_cons.2
      ⟨Within.first _ _, fun token member => Within.later [')'] (ih token member)⟩
  | @quote p rest ts _ ih =>
    exact List.forall_mem_cons.2
      ⟨Within.first _ _, fun token member => Within.later ['\''] (ih token member)⟩
  | @string p body text rest ts _ _ ih =>
    refine List.forall_mem_cons.2 ⟨Within.first _ _, fun token member => ?_⟩
    have within := Within.later _ (ih token member)
    rwa [List.cons_append, ← List.append_cons] at within
  | atom _ _ ih =>
    exact List.forall_mem_cons.2
      ⟨Within.first _ _, fun token member => Within.later _ (ih token member)⟩

/-- The text of an atom is a word. -/
theorem Lexes.word_of_atom {cs : List Char} {ts : List Token} (lexes : Lexes p cs ts) {text : String}
    {place : Place} (member : ⟨.atom text, place⟩ ∈ ts) : ∃ rest, Word text.toList rest := by
  induction lexes with
  | finish | unterminated | unterminatedEscape => simp at member
  | blank _ _ ih | comment _ _ _ ih => exact ih member
  | openList _ ih | closeList _ ih | quote _ ih | string _ _ ih =>
    rcases List.mem_cons.1 member with same | member
    · cases same
    · exact ih member
  | @atom p word rest ts isWord _ ih =>
    rcases List.mem_cons.1 member with same | member
    · cases same
      rw [String.toList_ofList]
      exact ⟨rest, isWord⟩
    · exact ih member

/-- A token that ends a text. -/
def Token.isLast (token : Token) : Prop :=
  token.kind = .endOfText ∨ token.kind = .unterminated

/-- The last token of a text, and no other, ends it. -/
theorem Lexes.exists_last {cs : List Char} {ts : List Token} (lexes : Lexes p cs ts) :
    ∃ others last, ts = others ++ [last] ∧ last.isLast ∧ ∀ token ∈ others, ¬ token.isLast := by
  have more {ts : List Token} (token : Token) (inner : ¬ token.isLast)
      (ih : ∃ others last, ts = others ++ [last] ∧ last.isLast ∧ ∀ token ∈ others, ¬ token.isLast) :
      ∃ others last, token :: ts = others ++ [last] ∧ last.isLast ∧
        ∀ token ∈ others, ¬ token.isLast := by
    obtain ⟨others, last, rfl, ends, inside⟩ := ih
    exact ⟨token :: others, last, rfl, ends, List.forall_mem_cons.2 ⟨inner, inside⟩⟩
  induction lexes with
  | finish => exact ⟨[], _, rfl, .inl rfl, nofun⟩
  | unterminated | unterminatedEscape => exact ⟨[], _, rfl, .inr rfl, nofun⟩
  | blank _ _ ih | comment _ _ _ ih => exact ih
  | openList _ ih | closeList _ ih | quote _ ih | string _ _ ih | atom _ _ ih =>
    exact more _ (by rintro (same | same) <;> cases same) ih

end MessageMachine.Reader
