/-
# The reader reads its grammar

A text derives phrases when its tokens are theirs, up to the end of the text. `Derives`
puts the two descriptions together that know nothing of the reader: how a text falls into
tokens, and which tokens make a phrase. The reader accepts a text exactly if it derives
phrases, there is but one way in which it does, and the values that come into the heap are
what the phrases denote.

A text that derives nothing is refused, at a token of it and so at a place of the text. The
error tells the place and the file, with one exception: a character whose name is in the
table of names for another purpose.
-/

import MessageMachine.Proofs.Heap.Unfolding
import MessageMachine.Proofs.Reader.Grammar
import MessageMachine.Proofs.Reader.Lexing

namespace MessageMachine.Reader

open Phrase Reading

/-! ## What is accepted -/

/-- A text falls into the tokens of phrases. -/
def Derives (text : String) (phrases : List Phrase) : Prop :=
  ∃ ending, Lexes .start text.toList (tokensAll phrases ++ [⟨.endOfText, ending⟩])

variable {text : String} {phrases : List Phrase} {fs : List Form}

/-- Deriving phrases is having their tokens. -/
theorem Derives.tokens_eq (derives : Derives text phrases) :
    ∃ ending, tokens text = tokensAll phrases ++ [⟨.endOfText, ending⟩] := by
  obtain ⟨ending, lexes⟩ := derives
  exact ⟨ending, (lexes_tokens text).unique lexes⟩

/-- What derives phrases is accepted. -/
theorem Derives.forms_eq (derives : Derives text phrases) : forms text = .ok (phrases.map form) := by
  obtain ⟨ending, same⟩ := derives.tokens_eq
  rw [forms, same, readAll_tokensAll, Except.map, Reading.forms, List.reverse_reverse]

/-- What is accepted derives phrases. -/
theorem exists_derives (read : forms text = .ok fs) :
    ∃ phrases, Derives text phrases ∧ phrases.map form = fs := by
  have lexes := lexes_tokens text
  obtain ⟨others, ⟨kind, ending⟩, same, ends, inside⟩ := lexes.exists_last
  rw [forms] at read
  cases whole : Reading.start.readAll (tokens text) with
  | error fault =>
    rw [whole] at read
    cases read
  | ok r =>
    rw [whole] at read
    rw [same] at whole lexes
    rcases ends with ended | cut
    · cases (ended : kind = .endOfText)
      obtain ⟨phrases, rfl, rfl⟩ :=
        exists_phrases (fun token member last => inside token member (.inl last)) whole
      cases read
      exact ⟨phrases, ⟨ending, lexes⟩, (List.reverse_reverse _).symm⟩
    · cases (cut : kind = .unterminated)
      exact absurd whole not_readAll_unterminated

/-- A text derives phrases in one way only. -/
theorem Derives.unique {others : List Phrase} (derives : Derives text phrases)
    (derives' : Derives text others) : phrases = others := by
  obtain ⟨ending, lexes⟩ := derives
  obtain ⟨ending', lexes'⟩ := derives'
  have same := lexes.unique lexes'
  exact tokensAll_injective (List.append_inj' same rfl).1

/-- The reader accepts exactly the texts that derive phrases, in one way each, and gives their
forms. Every other text is refused. The values of what is read unfold to what the phrases
denote. -/
theorem forms_correct (text : String) :
    (∀ fs, forms text = .ok fs ↔ ∃ phrases, Derives text phrases ∧ phrases.map form = fs) ∧
      (∀ phrases others, Derives text phrases → Derives text others → phrases = others) ∧
      ((∃ fault, forms text = .error fault) ↔ ¬ ∃ phrases, Derives text phrases) ∧
      ∀ fs, forms text = .ok fs → ∀ (h : Heap) (file : String),
        ∃ phrases, Derives text phrases ∧
          List.Forall₂ (fun stored phrase => (h.storeForms file fs).1.Holds file stored phrase.form)
            (h.storeForms file fs).2 phrases := by
  refine ⟨fun fs => ⟨exists_derives, ?_⟩, fun phrases others => Derives.unique, ⟨?_, ?_⟩, ?_⟩
  · rintro ⟨phrases, derives, rfl⟩
    exact derives.forms_eq
  · rintro ⟨fault, refused⟩ ⟨phrases, derives⟩
    rw [derives.forms_eq] at refused
    cases refused
  · intro underivable
    cases read : forms text with
    | error fault => exact ⟨fault, rfl⟩
    | ok fs =>
      obtain ⟨phrases, derives, -⟩ := exists_derives read
      exact absurd ⟨phrases, derives⟩ underivable
  · intro fs read h file
    obtain ⟨phrases, derives, rfl⟩ := exists_derives read
    exact ⟨phrases, derives, List.forall₂_map_right_iff.1 (h.holds_storeForms file _).2⟩

example : forms "'(a . #\\)) ; end" =
    .ok [⟨.pair (some ⟨1, 1⟩) (.symbol "quote")
      (.pair none (.pair (some ⟨1, 2⟩) (.symbol "a") (.char ')')) .nil), ⟨1, 1⟩⟩] := by
  decide +kernel

/-! ## What is refused -/

/-- A reading stops at the first token that does not fit. -/
theorem exists_of_readAll_eq_error {r : Reading} {ts : List Token} {fault : Fault}
    (failed : r.readAll ts = .error fault) :
    ∃ before kind after r', ts = before ++ ⟨kind, fault.place⟩ :: after ∧
      r.readAll before = .ok r' ∧ r'.next ⟨kind, fault.place⟩ = .error fault.reason := by
  induction ts generalizing r with
  | nil => cases failed
  | cons token ts ih =>
    rw [readAll] at failed
    cases step : r.next token with
    | error reason =>
      rw [step] at failed
      cases failed
      exact ⟨[], token.kind, ts, r, rfl, rfl, step⟩
    | ok r₁ =>
      rw [step] at failed
      obtain ⟨before, kind, after, r', rfl, read, stopped⟩ := ih failed
      exact ⟨token :: before, kind, after, r', rfl, (readAll_cons step).trans read, stopped⟩

theorem readAll_eq_error {r r' : Reading} {before after : List Token} {token : Token} {reason : Reason}
    (read : r.readAll before = .ok r') (stopped : r'.next token = .error reason) :
    r.readAll (before ++ token :: after) = .error ⟨reason, token.place⟩ := by
  induction before generalizing r with
  | nil =>
    cases read
    rw [List.nil_append, readAll, stopped]
  | cons first before ih =>
    rw [readAll] at read
    cases step : r.next first with
    | error reason =>
      rw [step] at read
      cases read
    | ok r₁ =>
      rw [step] at read
      rw [List.cons_append, readAll_cons step]
      exact ih read

/-- A token is refused for a reserved name only where a datum may stand, and only if it
is a character of such a name. -/
theorem next_eq_reserved_iff {r : Reading} {token : Token} :
    r.next token = .error .reservedName ↔
      (∃ pending fs, r = within pending fs) ∧ ∃ text name, token.kind = .atom text ∧
        text.toList = '#' :: '\\' :: name ∧ lowered name ∈ reservedNames := by
  obtain ⟨kind, place⟩ := token
  cases r with
  | closing =>
    refine ⟨fun failed => ?_, fun ⟨⟨_, _, same⟩, _⟩ => nomatch same⟩
    cases kind <;> cases failed
  | within pending fs =>
    constructor
    · intro failed
      refine ⟨⟨pending, fs, rfl⟩, ?_⟩
      cases kind with
      | atom text =>
        rw [next_atom] at failed
        by_cases lone : text = "."
        · unfold readAtom at failed
          rw [if_pos lone] at failed
          split at failed <;> cases failed
        · rw [readAtom_of_ne_dot lone] at failed
          cases means : Reader.atom text with
          | ok d =>
            rw [means] at failed
            cases failed
          | error reason =>
            rw [means] at failed
            cases failed
            obtain ⟨name, hash, reserved⟩ := atom_eq_reserved_iff.1 means
            exact ⟨text, name, rfl, hash, reserved⟩
      | closeList =>
        rw [next_closeList] at failed
        unfold readClose at failed
        split at failed <;> cases failed
      | openList => cases next_openList.symm.trans failed
      | quote => cases next_quote.symm.trans failed
      | string => cases next_string.symm.trans failed
      | unterminated => cases pending <;> cases failed
      | endOfText =>
        cases pending with
        | nil => cases failed
        | cons waits => cases waits <;> cases failed
    · rintro ⟨-, text, name, same, hash, reserved⟩
      cases (same : kind = .atom text)
      have lone : text ≠ "." := by
        rintro rfl
        cases hash
      rw [next_atom, readAtom_of_ne_dot lone, atom_eq_reserved_iff.2 ⟨name, hash, reserved⟩]
      rfl

/-- The text of an error at a place of a file. -/
def parseError (file : String) (place : Place) (why : String) : String :=
  s!"Parse error in {file} at {place.line}:{place.column}: {why}"

theorem message_eq_parseError {fault : Fault} (known : fault.reason ≠ .reservedName) (file : String) :
    fault.message file = parseError file fault.place fault.reason.message := by
  obtain ⟨reason, place⟩ := fault
  cases reason <;> first | rfl | exact absurd rfl known

/-- Here a character with a reserved name stands where a datum may. -/
def ReservedAt (text : String) (place : Place) : Prop :=
  ∃ before word after name pending fs,
    tokens text = before ++ ⟨.atom word, place⟩ :: after ∧
      Reading.start.readAll before = .ok (within pending fs) ∧
      word.toList = '#' :: '\\' :: name ∧ lowered name ∈ reservedNames

/-- A text that is refused is refused at a place of it, or at its end, and the error tells
the file and that place. The one exception is a character with a reserved name: its error
tells neither. -/
theorem forms_refused (text : String) :
    (∃ fs, forms text = .ok fs) ∨
      ∃ fault, forms text = .error fault ∧ Within .start text.toList fault.place ∧
        (fault.reason = .reservedName ↔ ReservedAt text fault.place) ∧
        ∀ file, fault.message file =
          if fault.reason = .reservedName then Reason.reservedName.message
          else parseError file fault.place fault.reason.message := by
  cases read : forms text with
  | ok fs => exact .inl ⟨fs, rfl⟩
  | error fault =>
    have failed : Reading.start.readAll (tokens text) = .error fault := by
      rw [forms] at read
      cases whole : Reading.start.readAll (tokens text) with
      | error other =>
        rw [whole] at read
        cases read
        rfl
      | ok r =>
        rw [whole] at read
        cases read
    obtain ⟨before, kind, after, r, same, reached, stopped⟩ := exists_of_readAll_eq_error failed
    refine .inr ⟨fault, rfl, ?_, ⟨fun reserved => ?_, ?_⟩, fun file => ?_⟩
    · have inside := (lexes_tokens text).within ⟨kind, fault.place⟩
      rw [same] at inside
      exact inside (List.mem_append_right _ (List.mem_cons_self ..))
    · rw [reserved] at stopped
      obtain ⟨⟨pending, fs, rfl⟩, word, name, atom, hash, reserved⟩ :=
        next_eq_reserved_iff.1 stopped
      cases (atom : kind = .atom word)
      exact ⟨before, word, after, name, pending, fs, same, reached, hash, reserved⟩
    · rintro ⟨before, word, after, name, pending, fs, same, reached, hash, reserved⟩
      have stopped := next_eq_reserved_iff.2
        ⟨⟨pending, fs, rfl⟩, word, name, (rfl : (⟨.atom word, fault.place⟩ : Token).kind = _), hash,
          reserved⟩
      rw [same, readAll_eq_error reached stopped] at failed
      rw [← Except.error.inj failed]
    · split
      next reserved =>
        rw [Fault.message, reserved]
      next known => exact message_eq_parseError known file

theorem head?_parseError (file : String) (place : Place) (why : String) :
    (parseError file place why).toList.head? = some 'P' := by
  have begins : parseError file place why = "Parse error in " ++ (file ++ " at " ++
      toString place.line ++ ":" ++ toString place.column ++ ": " ++ why) := by
    unfold parseError
    simp only [String.append_assoc]
    rfl
  have first : "Parse error in ".toList.head? = some 'P' := by decide +kernel
  rw [begins, String.toList_append, List.head?_append, first]
  rfl

theorem forms_constructor : forms "#\\constructor" = .error ⟨.reservedName, .start⟩ := by
  decide +kernel

/-- The name of a function that every table has: the error names neither file nor place. -/
theorem forms_refused_reserved :
    ∃ fault, forms "#\\constructor" = .error fault ∧
      ∀ file place why, fault.message file ≠ parseError file place why := by
  refine ⟨_, forms_constructor, fun file place why same => ?_⟩
  have first : "ch.codePointAt is not a function".toList.head? = some 'P' := by
    rw [← head?_parseError file place why, ← same]
    rfl
  exact absurd first (by decide +kernel)

end MessageMachine.Reader
