/-
# Texts below one another

A text that can be read leaves nothing behind: when another text follows on a line of its own,
it is read as if it stood alone, only further down (`forms_append_line`). Whatever the first text
ends with, a newline completes it. Atoms and comments end there, strings and lists have ended,
and the one token that would go on, a hash sign and a backslash without a character, is refused
by itself.

The tokens of the two texts are put together on the syntax, where nothing need be said about the
mode of the scanner (`Lexes.append_line`). The reader that goes on behind the first text is
compared with one that starts afresh: they differ by the forms that were read before and by the
lines of places, and reading a token keeps this (`next_down`).
-/

import MessageMachine.Proofs.Reader.Location

namespace MessageMachine.Reader

open Phrase Reading

/-! ## Further down -/

/-- The same place on a line further down. -/
def Place.down (lines : Nat) (p : Place) : Place :=
  ⟨p.line + lines, p.column⟩

def Token.down (lines : Nat) (token : Token) : Token :=
  ⟨token.kind, token.place.down lines⟩

def Datum.down (lines : Nat) : Datum → Datum
  | .pair source head tail => .pair (source.map (·.down lines)) (head.down lines) (tail.down lines)
  | d => d

def Form.down (lines : Nat) (form : Form) : Form :=
  ⟨form.datum.down lines, form.place.down lines⟩

def Fault.down (lines : Nat) (fault : Fault) : Fault :=
  ⟨fault.reason, fault.place.down lines⟩

def Pending.down (lines : Nat) : Pending → Pending
  | .quote start => .quote (start.down lines)
  | .list start items => .list (start.down lines) (items.map (·.down lines))
  | .dotted start items => .dotted (start.down lines) (items.map (·.down lines))

/-- The same further down, behind forms that were read before. -/
def Reading.down (lines : Nat) (earlier : List Form) : Reading → Reading
  | within pending forms =>
    within (pending.map (·.down lines)) (forms.map (·.down lines) ++ earlier)
  | closing start items tail pending forms =>
    closing (start.down lines) (items.map (·.down lines)) (tail.down lines)
      (pending.map (·.down lines)) (forms.map (·.down lines) ++ earlier)

variable {lines : Nat} {earlier : List Form}

/-! ## Tokens -/

theorem Place.down_advance (p : Place) (c : Char) :
    (p.down lines).advance c = (p.advance c).down lines := by
  unfold advance
  split
  · exact congrArg (Place.mk · 1) (Nat.add_right_comm ..)
  · rfl

theorem Place.down_after (p : Place) (cs : List Char) :
    (p.down lines).after cs = (p.after cs).down lines := by
  induction cs generalizing p with
  | nil => rfl
  | cons c cs ih => exact (congrArg (Place.after · cs) (p.down_advance c)).trans (ih (p.advance c))

variable {p : Place} {cs more : List Char} {ts ts' : List Token}

/-- A text has the same tokens where it begins further down. -/
theorem Lexes.down (lexes : Lexes p cs ts) (lines : Nat) :
    Lexes (p.down lines) cs (ts.map (·.down lines)) := by
  induction lexes with
  | finish => exact .finish
  | blank blank _ ih =>
    refine .blank blank ?_
    rwa [Place.down_advance]
  | comment line ends _ ih =>
    refine .comment line ends ?_
    rwa [Place.down_after]
  | openList _ ih =>
    refine .openList ?_
    rwa [Place.down_advance]
  | closeList _ ih =>
    refine .closeList ?_
    rwa [Place.down_advance]
  | quote _ ih =>
    refine .quote ?_
    rwa [Place.down_advance]
  | string quoted _ ih =>
    refine .string quoted ?_
    rwa [Place.down_after]
  | atom isWord _ ih =>
    refine .atom isWord ?_
    rwa [Place.down_after]
  | unterminated quoted => exact .unterminated quoted
  | unterminatedEscape quoted => exact .unterminatedEscape quoted

theorem EndsLine.append {rest : List Char} (ends : EndsLine rest) :
    EndsLine (rest ++ '\n' :: more) := by
  cases rest with
  | nil => rfl
  | cons c rest => exact ends

theorem Ends.append {rest : List Char} (ends : Ends rest) : Ends (rest ++ '\n' :: more) := by
  cases rest with
  | nil => rfl
  | cons c rest => exact ends

/-- A newline ends a word, unless it is what the word lacks. -/
theorem Word.append {word rest : List Char} (isWord : Word word rest) (whole : word ≠ ['#', '\\']) :
    Word word (rest ++ '\n' :: more) := by
  cases isWord with
  | plain some_ inside named ends => exact .plain some_ inside named ends.append
  | literal inside ends => exact .literal inside ends.append
  | bare => exact absurd rfl whole

/-- A token that is not the end of a text is one of those before it. -/
theorem exists_of_cons_eq_append {token : Token} {ending : Place}
    (same : token :: ts' = ts ++ [⟨.endOfText, ending⟩]) (inner : token.kind ≠ .endOfText) :
    ∃ others, ts = token :: others ∧ ts' = others ++ [⟨.endOfText, ending⟩] := by
  cases ts with
  | nil =>
    cases same
    exact absurd rfl inner
  | cons first others =>
    cases same
    exact ⟨others, rfl, rfl⟩

/-- What follows a text on a line of its own is taken up where it stands. -/
theorem Lexes.append_line {all : List Token} {ending : Place} (lexes : Lexes p cs all)
    (ends : all = ts ++ [⟨.endOfText, ending⟩])
    (whole : ∀ token ∈ ts, token.kind ≠ .atom (String.ofList ['#', '\\']))
    (follows : Lexes ((p.after cs).advance '\n') more ts') :
    Lexes p (cs ++ '\n' :: more) (ts ++ ts') := by
  induction lexes generalizing ts with
  | @finish p =>
    cases ts with
    | nil => exact .blank rfl follows
    | cons token ts => cases ts <;> cases ends
  | blank blank _ ih => exact .blank blank (ih ends whole follows)
  | @comment p body rest _ line endsLine _ ih =>
    rw [List.cons_append, List.append_assoc]
    refine .comment line endsLine.append (ih ends whole ?_)
    rwa [← Place.after_append]
  | openList _ ih =>
    obtain ⟨ts, rfl, rfl⟩ := exists_of_cons_eq_append ends nofun
    exact .openList (ih rfl (List.forall_mem_cons.1 whole).2 follows)
  | closeList _ ih =>
    obtain ⟨ts, rfl, rfl⟩ := exists_of_cons_eq_append ends nofun
    exact .closeList (ih rfl (List.forall_mem_cons.1 whole).2 follows)
  | quote _ ih =>
    obtain ⟨ts, rfl, rfl⟩ := exists_of_cons_eq_append ends nofun
    exact .quote (ih rfl (List.forall_mem_cons.1 whole).2 follows)
  | @string p body text rest _ quoted _ ih =>
    obtain ⟨ts, rfl, rfl⟩ := exists_of_cons_eq_append ends nofun
    rw [List.cons_append, List.append_assoc]
    refine .string quoted (ih rfl (List.forall_mem_cons.1 whole).2 ?_)
    rwa [← Place.after_append, List.cons_append, ← List.append_cons]
  | @atom p word rest _ isWord _ ih =>
    obtain ⟨ts, rfl, rfl⟩ := exists_of_cons_eq_append ends nofun
    obtain ⟨first, others⟩ := List.forall_mem_cons.1 whole
    rw [List.append_assoc]
    refine .atom (isWord.append ?_) (ih rfl others ?_)
    · rintro rfl
      exact first rfl
    · rwa [← Place.after_append]
  | unterminated | unterminatedEscape =>
    obtain ⟨ts, rfl, same⟩ := exists_of_cons_eq_append ends nofun
    cases ts <;> cases same

/-- A hash sign and a backslash mean nothing without a character. -/
theorem not_denotes_bare {d : Datum} : ¬ Denotes (String.ofList ['#', '\\']) d := by
  intro denotes
  have refused : atom (String.ofList ['#', '\\']) = .error (.unknownCharacter "") := by
    decide +kernel
  cases refused.symm.trans ((atom_eq_ok_iff (by decide)).2 denotes)

theorem whole_of_mem_tokensAll {items : List Phrase}
    (each : ∀ item ∈ items, ∀ token ∈ item.tokens, token.kind ≠ .atom (String.ofList ['#', '\\'])) :
    ∀ token ∈ tokensAll items, token.kind ≠ .atom (String.ofList ['#', '\\']) := by
  induction items with
  | nil => exact nofun
  | cons first others ih =>
    obtain ⟨one, more⟩ := List.forall_mem_cons.1 each
    exact List.forall_mem_append.2 ⟨one, ih more⟩

/-- No token of a phrase lacks its last character. -/
theorem whole_of_mem_tokens (phrase : Phrase) :
    ∀ token ∈ phrase.tokens, token.kind ≠ .atom (String.ofList ['#', '\\']) := by
  induction phrase with
  | atom place text datum lone denotes =>
    refine List.forall_mem_singleton.2 fun same => ?_
    cases Token.Kind.atom.inj same
    exact not_denotes_bare denotes
  | string place text => exact List.forall_mem_singleton.2 nofun
  | quote place inner ih => exact List.forall_mem_cons.2 ⟨nofun, ih⟩
  | list opened items closed each =>
    exact List.forall_mem_cons.2 ⟨nofun, List.forall_mem_append.2
      ⟨whole_of_mem_tokensAll each, List.forall_mem_singleton.2 nofun⟩⟩
  | dotted opened first others dot last closed one more tail =>
    have dotted : (dotToken dot).kind ≠ .atom (String.ofList ['#', '\\']) := by
      intro same
      exact absurd (Token.Kind.atom.inj same) (by decide)
    exact List.forall_mem_cons.2 ⟨nofun, List.forall_mem_append.2
      ⟨List.forall_mem_append.2 ⟨one, whole_of_mem_tokensAll more⟩, List.forall_mem_cons.2
        ⟨dotted, List.forall_mem_append.2 ⟨tail, List.forall_mem_singleton.2 nofun⟩⟩⟩⟩

/-- How many lines a text takes up when another follows on a line of its own. -/
def lineCount (text : String) : Nat :=
  1 + text.toList.count '\n'

/-- The tokens of two texts on lines of their own are the tokens of both. -/
theorem Derives.tokens_append {first : String} {phrases : List Phrase}
    (derives : Derives first phrases) (second : String) :
    tokens (first ++ "\n" ++ second) =
      tokensAll phrases ++ (tokens second).map (·.down (lineCount first)) := by
  obtain ⟨ending, lexes⟩ := derives
  have place : (Place.start.after first.toList).advance '\n' =
      Place.start.down (lineCount first) := by
    have behind : Place.start.after first.toList = .behind first.toList :=
      Place.after_behind [] first.toList
    rw [behind, Place.behind, Place.advance, if_pos rfl, lineCount, Place.down, Place.start]
    exact congrArg (Place.mk · 1) (Nat.add_comm ..)
  have follows := place ▸ (lexes_tokens second).down (lineCount first)
  have whole := lexes.append_line rfl
    (whole_of_mem_tokensAll fun phrase _ => whole_of_mem_tokens phrase) follows
  have text : (first ++ "\n" ++ second).toList = first.toList ++ '\n' :: second.toList := by
    simp
  exact (lexes_tokens _).unique (text ▸ whole)

/-! ## Reading further down -/

theorem consAll_down (tail : Datum) (items : List Datum) :
    (consAll tail items).down lines = consAll (tail.down lines) (items.map (·.down lines)) := by
  induction items generalizing tail with
  | nil => rfl
  | cons item items ih => exact ih (.pair none item tail)

theorem listDatum_down (start : Place) (items : List Datum) (tail : Datum) :
    (listDatum start items tail).down lines =
      listDatum (start.down lines) (items.map (·.down lines)) (tail.down lines) := by
  unfold listDatum
  rw [← consAll_down]
  cases consAll tail items with
  | pair source head rest => cases items <;> rfl
  | _ => rfl

/-- Atoms hold no places. -/
theorem Denotes.down {text : String} {d : Datum} (denotes : Denotes text d) :
    d.down lines = d := by
  cases denotes <;> rfl

variable (lines earlier)

theorem supply_down (forms : List Form) (place : Place) (d : Datum) (pending : List Pending) :
    (supply forms place d pending).down lines earlier =
      supply (forms.map (·.down lines) ++ earlier) (place.down lines) (d.down lines)
        (pending.map (·.down lines)) := by
  induction pending generalizing place d with
  | nil => rfl
  | cons waits outer ih =>
    cases waits with
    | quote start => exact ih start (quotation start d)
    | list start items => rfl
    | dotted start items => rfl

theorem ok_supply_down {d d' : Datum} (same : d.down lines = d') (forms : List Form)
    (place : Place) (pending : List Pending) :
    Except.ok (supply (forms.map (·.down lines) ++ earlier) (place.down lines) d'
        (pending.map (·.down lines))) =
      (Except.ok (supply forms place d pending) : Except Reason Reading).map
        (·.down lines earlier) := by
  rw [← same, ← supply_down]
  rfl

theorem readAtom_down (pending : List Pending) (forms : List Form) (place : Place) (text : String) :
    readAtom (pending.map (·.down lines)) (forms.map (·.down lines) ++ earlier)
        (place.down lines) text =
      (readAtom pending forms place text).map (·.down lines earlier) := by
  by_cases lone : text = "."
  · subst lone
    cases pending with
    | nil => rfl
    | cons waits outer =>
      cases waits with
      | quote start | dotted start items => rfl
      | list start items => cases items <;> rfl
  · rw [readAtom_of_ne_dot lone, readAtom_of_ne_dot lone]
    cases means : Reader.atom text with
    | error reason => rfl
    | ok d => exact ok_supply_down lines earlier ((atom_eq_ok_iff lone).1 means).down _ _ _

theorem readClose_down (pending : List Pending) (forms : List Form) :
    readClose (pending.map (·.down lines)) (forms.map (·.down lines) ++ earlier) =
      (readClose pending forms).map (·.down lines earlier) := by
  cases pending with
  | nil => rfl
  | cons waits outer =>
    cases waits with
    | quote start | dotted start items => rfl
    | list start items => exact ok_supply_down lines earlier (listDatum_down start items .nil) _ _ _

/-- What a token does, it does further down and behind other forms too. -/
theorem next_down (r : Reading) (token : Token) :
    (r.down lines earlier).next (token.down lines) =
      (r.next token).map (·.down lines earlier) := by
  obtain ⟨kind, place⟩ := token
  cases r with
  | closing start items tail pending forms =>
    cases kind with
    | closeList => exact ok_supply_down lines earlier (listDatum_down start items tail) _ _ _
    | _ => rfl
  | within pending forms =>
    rw [Reading.down, Token.down]
    cases kind with
    | openList => rw [next_openList, next_openList]; rfl
    | quote => rw [next_quote, next_quote]; rfl
    | string text =>
      rw [next_string, next_string]
      exact ok_supply_down lines earlier (rfl : (Datum.string text).down lines = _) _ _ _
    | closeList => rw [next_closeList, next_closeList, readClose_down]
    | atom text => rw [next_atom, next_atom, readAtom_down]
    | unterminated => cases pending <;> rfl
    | endOfText =>
      cases pending with
      | nil => rfl
      | cons waits outer => cases waits <;> rfl

theorem readAll_down (r : Reading) (ts : List Token) :
    (r.down lines earlier).readAll (ts.map (·.down lines)) =
      match r.readAll ts with
      | .ok r' => .ok (r'.down lines earlier)
      | .error fault => .error (fault.down lines) := by
  induction ts generalizing r with
  | nil => rfl
  | cons token ts ih =>
    rw [List.map_cons, readAll, readAll, next_down]
    cases r.next token with
    | error reason => rfl
    | ok r' => exact ih r'

theorem forms_down (r : Reading) :
    (r.down lines earlier).forms = earlier.reverse ++ r.forms.map (·.down lines) := by
  cases r <;> simp only [Reading.down, Reading.forms, List.reverse_append, List.map_reverse]

variable {lines earlier}

/-- Below a text that can be read, on a line of its own, another is read as it is by itself: its
forms follow those of the first, and its places are as many lines further down as the first text
takes up. Where it is refused, so are both together, for the same reason and at the place so much
further down. -/
theorem forms_append_line {first : String} {fs : List Form} (read : forms first = .ok fs)
    (second : String) :
    forms (first ++ "\n" ++ second) =
      match forms second with
      | .ok more => .ok (fs ++ more.map (·.down (lineCount first)))
      | .error fault => .error (fault.down (lineCount first)) := by
  obtain ⟨phrases, derives, rfl⟩ := exists_derives read
  have behind := readAll_down (lineCount first) (phrases.map form).reverse .start (tokens second)
  rw [Reading.start, Reading.down, List.map_nil, List.map_nil, List.nil_append] at behind
  rw [forms, forms, derives.tokens_append, Reading.start, readAll_forms, List.append_nil, behind]
  cases (within [] []).readAll (tokens second) with
  | error fault => rfl
  | ok r => exact congrArg Except.ok (by rw [forms_down, List.reverse_reverse])

/-- A comment ends with its line, and the character that the second line lacks is missed there. -/
theorem forms_append_line_comment :
    forms "(a) ; b" = .ok [⟨.pair (some ⟨1, 1⟩) (.symbol "a") .nil, ⟨1, 1⟩⟩] ∧
      forms ("(a) ; b" ++ "\n" ++ "'c #\\") = .error ⟨.unknownCharacter "", ⟨2, 4⟩⟩ :=
  have read : forms "(a) ; b" = .ok [⟨.pair (some ⟨1, 1⟩) (.symbol "a") .nil, ⟨1, 1⟩⟩] := by
    decide +kernel
  ⟨read, (forms_append_line read "'c #\\").trans (by decide +kernel)⟩

end MessageMachine.Reader
