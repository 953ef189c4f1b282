/-
# The grammar of data

A `Phrase` is a derivation: a tree over tokens, in which every atom carries its meaning.
Its tokens are what it derives and its datum is what it denotes; nothing in it refers to
the reader, which has no tree but a stack of what has begun.

Completeness is the induction on the tree: reading the tokens of a phrase supplies its
datum to what waits for it. For soundness a stack is explained by phrases and by the
openings of the lists and quotations that wait (`Unfinished`). One token keeps this, so
a whole run does. No two derivations have the same tokens, since a phrase says by its first
token what it is, and the token after the items of a list begins no phrase.
-/

import MessageMachine.Proofs.Reader.Atom

namespace MessageMachine.Reader

/-! ## Derivations -/

/-- A derivation of a datum. -/
inductive Phrase
  | atom (place : Place) (text : String) (datum : Datum) (lone : text ≠ ".")
      (denotes : Denotes text datum)
  | string (place : Place) (text : String)
  | quote (place : Place) (inner : Phrase)
  | list (opened : Place) (items : List Phrase) (closed : Place)
  /-- A list with an item at least, a dot and a tail. -/
  | dotted (opened : Place) (first : Phrase) (others : List Phrase) (dot : Place) (last : Phrase)
      (closed : Place)

namespace Phrase

/-- The lone dot. -/
def dotToken (place : Place) : Token :=
  ⟨.atom ".", place⟩

mutual

/-- The tokens that a phrase derives. -/
def tokens : Phrase → List Token
  | atom place text _ _ _ => [⟨.atom text, place⟩]
  | string place text => [⟨.string text, place⟩]
  | quote place inner => ⟨.quote, place⟩ :: inner.tokens
  | list opened items closed => ⟨.openList, opened⟩ :: (tokensAll items ++ [⟨.closeList, closed⟩])
  | dotted opened first others dot last closed =>
    ⟨.openList, opened⟩ :: (first.tokens ++ tokensAll others ++
      (dotToken dot :: (last.tokens ++ [⟨.closeList, closed⟩])))

/-- The tokens of phrases in a row. -/
def tokensAll : List Phrase → List Token
  | [] => []
  | first :: others => first.tokens ++ tokensAll others

end

/-- Pairs in front of a tail, one for each item. -/
def chain (items : List Datum) (tail : Datum) : Datum :=
  items.foldr (.pair none) tail

/-- A list that begins at a place. Without items it is its tail. -/
def listAt (opened : Place) (items : List Datum) (tail : Datum) : Datum :=
  match items with
  | [] => tail
  | first :: others => .pair (some opened) first (chain others tail)

mutual

/-- What a phrase denotes. -/
def datum : Phrase → Datum
  | atom _ _ datum _ _ => datum
  | string _ text => .string text
  | quote place inner => listAt place [.symbol "quote", inner.datum] .nil
  | list opened items _ => listAt opened (datumAll items) .nil
  | dotted opened first others _ last _ =>
    listAt opened (first.datum :: datumAll others) last.datum

def datumAll : List Phrase → List Datum
  | [] => []
  | first :: others => first.datum :: datumAll others

end

/-- Where a phrase begins. -/
def place : Phrase → Place
  | atom place _ _ _ _ | string place _ | quote place _ | list place _ _ | dotted place _ _ _ _ _ =>
    place

/-- A phrase at the top of a text. -/
def form (phrase : Phrase) : Form :=
  ⟨phrase.datum, phrase.place⟩

/-- What holds of the parts of phrases holds of all phrases. -/
@[elab_as_elim, induction_eliminator]
theorem induct {motive : Phrase → Prop}
    (atom : ∀ place text datum lone denotes, motive (.atom place text datum lone denotes))
    (string : ∀ place text, motive (.string place text))
    (quote : ∀ place inner, motive inner → motive (.quote place inner))
    (list : ∀ opened items closed, (∀ item ∈ items, motive item) → motive (.list opened items closed))
    (dotted : ∀ opened first others dot last closed, motive first →
      (∀ item ∈ others, motive item) → motive last →
      motive (.dotted opened first others dot last closed))
    (phrase : Phrase) : motive phrase := by
  refine @Phrase.rec motive (fun items => ∀ item ∈ items, motive item) atom string quote list
    ?_ nofun ?_ phrase
  · exact fun opened first others dot last closed ih ihs ih' => dotted _ _ _ _ _ _ ih ihs ih'
  · exact fun first others ih ihs => List.forall_mem_cons.2 ⟨ih, ihs⟩

theorem datumAll_eq (phrases : List Phrase) : datumAll phrases = phrases.map datum := by
  induction phrases with
  | nil => rw [datumAll, List.map_nil]
  | cons first others ih => rw [datumAll, ih, List.map_cons]

theorem tokensAll_append (phrases more : List Phrase) :
    tokensAll (phrases ++ more) = tokensAll phrases ++ tokensAll more := by
  induction phrases with
  | nil => rw [List.nil_append, tokensAll, List.nil_append]
  | cons first others ih => rw [List.cons_append, tokensAll, tokensAll, ih, List.append_assoc]

theorem tokensAll_snoc (phrases : List Phrase) (phrase : Phrase) :
    tokensAll (phrases ++ [phrase]) = tokensAll phrases ++ phrase.tokens := by
  rw [tokensAll_append, tokensAll, tokensAll, List.append_nil]

theorem datumAll_snoc (phrases : List Phrase) (phrase : Phrase) :
    datumAll (phrases ++ [phrase]) = datumAll phrases ++ [phrase.datum] := by
  rw [datumAll_eq, datumAll_eq, List.map_append, List.map_singleton]

theorem datumAll_cons_ne_nil (first : Phrase) (others : List Phrase) :
    (datumAll (first :: others)).reverse ≠ [] := by
  rw [datumAll_eq]
  simp

/-- A list is its items in parentheses. -/
theorem tokens_list_append (opened : Place) (items : List Phrase) (closed : Place)
    (rest : List Token) :
    (list opened items closed).tokens ++ rest =
      ⟨.openList, opened⟩ :: (tokensAll items ++ ⟨.closeList, closed⟩ :: rest) := by
  rw [Phrase.tokens, List.cons_append, List.append_assoc, List.singleton_append]

/-- A dotted list is its items, the dot and the tail in parentheses. -/
theorem tokens_dotted_append (opened : Place) (first : Phrase) (others : List Phrase) (dot : Place)
    (last : Phrase) (closed : Place) (rest : List Token) :
    (dotted opened first others dot last closed).tokens ++ rest =
      ⟨.openList, opened⟩ :: (tokensAll (first :: others) ++
        dotToken dot :: (last.tokens ++ ⟨.closeList, closed⟩ :: rest)) := by
  rw [Phrase.tokens, tokensAll]
  simp only [List.cons_append, List.append_assoc, List.nil_append]

end Phrase

open Phrase Reading

/-! ## Lists are put together alike -/

theorem consAll_reverse (items : List Datum) (tail : Datum) :
    consAll tail items.reverse = chain items tail := by
  rw [consAll, List.foldl_reverse]
  rfl

theorem listDatum_reverse (opened : Place) (items : List Datum) (tail : Datum) :
    listDatum opened items.reverse tail = listAt opened items tail := by
  rw [listDatum, consAll_reverse]
  cases items with
  | nil => cases tail <;> rfl
  | cons first others =>
    have some_ : (first :: others).reverse.isEmpty = false := by simp
    rw [some_]
    rfl

/-! ## Tokens that go on

When nothing is being closed, what a token does depends on its kind alone. -/

variable {pending outer : List Pending} {forms : List Form} {place dot : Place} {text : String}

theorem next_openList : (within pending forms).next ⟨.openList, place⟩ =
    .ok (within (.list place [] :: pending) forms) := by
  cases pending <;> rfl

theorem next_quote : (within pending forms).next ⟨.quote, place⟩ =
    .ok (within (.quote place :: pending) forms) := by
  cases pending <;> rfl

theorem next_string : (within pending forms).next ⟨.string text, place⟩ =
    .ok (supply forms place (.string text) pending) := by
  cases pending <;> rfl

theorem next_closeList : (within pending forms).next ⟨.closeList, place⟩ =
    readClose pending forms := by
  cases pending <;> rfl

theorem next_atom : (within pending forms).next ⟨.atom text, place⟩ =
    readAtom pending forms place text := by
  cases pending <;> rfl

/-- A lone dot continues a list that has items. -/
theorem readAtom_dot {items : List Datum} (some_ : items ≠ []) :
    readAtom (.list place items :: outer) forms dot "." =
      .ok (within (.dotted place items :: outer) forms) := by
  obtain ⟨item, items, rfl⟩ := List.exists_cons_of_ne_nil some_
  rfl

theorem next_dot {items : List Datum} (some_ : items ≠ []) :
    (within (.list place items :: outer) forms).next (dotToken dot) =
      .ok (within (.dotted place items :: outer) forms) :=
  next_atom.trans (readAtom_dot some_)

theorem readAtom_of_ne_dot (lone : text ≠ ".") : readAtom pending forms place text =
    (Reader.atom text).map fun d => supply forms place d pending :=
  if_neg lone

/-! ## Completeness -/

variable {rest : List Token}

theorem readAll_cons {r r' : Reading} {token : Token} (next : r.next token = .ok r') :
    r.readAll (token :: rest) = r'.readAll rest := by
  rw [readAll, next]

/-- Reading the tokens of a phrase supplies its datum. -/
def Supplies (phrase : Phrase) : Prop :=
  ∀ pending forms rest, readAll (within pending forms) (phrase.tokens ++ rest) =
    readAll (supply forms phrase.place phrase.datum pending) rest

/-- The items of a list are read one after another. -/
theorem readAll_items {items : List Phrase} (each : ∀ item ∈ items, Supplies item) (start : Place)
    (done : List Datum) :
    readAll (within (.list start done :: outer) forms) (tokensAll items ++ rest) =
      readAll (within (.list start ((datumAll items).reverse ++ done) :: outer) forms) rest := by
  induction items generalizing done with
  | nil => rfl
  | cons first others ih =>
    obtain ⟨one, more⟩ := List.forall_mem_cons.1 each
    rw [tokensAll, List.append_assoc, one, supply, ih more, datumAll, List.reverse_cons,
      List.append_assoc]
    rfl

theorem supplies (phrase : Phrase) : Supplies phrase := by
  induction phrase with
  | atom place text datum lone denotes =>
    intro pending forms rest
    refine readAll_cons ?_
    rw [next_atom, readAtom_of_ne_dot lone, (atom_eq_ok_iff lone).2 denotes]
    rfl
  | string place text =>
    intro pending forms rest
    exact readAll_cons next_string
  | quote place inner ih =>
    intro pending forms rest
    rw [Phrase.tokens, List.cons_append, readAll_cons next_quote, ih]
    rfl
  | list opened items closed each =>
    intro pending forms rest
    rw [tokens_list_append, readAll_cons next_openList, readAll_items each, List.append_nil]
    refine readAll_cons ?_
    rw [next_closeList, readClose, listDatum_reverse]
    rfl
  | dotted opened first others dot last closed one more tail =>
    intro pending forms rest
    have each := List.forall_mem_cons.2 ⟨one, more⟩
    rw [tokens_dotted_append, readAll_cons next_openList, readAll_items each, List.append_nil,
      readAll_cons (next_dot (datumAll_cons_ne_nil first others)), tail, supply]
    refine readAll_cons ?_
    show Except.ok (supply forms opened (listDatum opened _ _) pending) = _
    rw [listDatum_reverse]
    rfl

/-- The phrases at the top of a text are its forms. -/
theorem readAll_forms (phrases : List Phrase) (done : List Form) :
    readAll (within [] done) (tokensAll phrases ++ rest) =
      readAll (within [] ((phrases.map form).reverse ++ done)) rest := by
  induction phrases generalizing done with
  | nil => rfl
  | cons first others ih =>
    rw [tokensAll, List.append_assoc, supplies, supply, ih, List.map_cons, List.reverse_cons,
      List.append_assoc]
    rfl

/-! ## Soundness -/

/-- Tokens that explain what waits and what has been read: phrases at the top of the text,
then the openings of what waits, each with the items that it has. -/
inductive Unfinished : List Token → List Pending → List Form → Prop
  | top (phrases : List Phrase) : Unfinished (tokensAll phrases) [] (phrases.map form).reverse
  | quote {ts : List Token} {pending : List Pending} {forms : List Form} (place : Place) :
      Unfinished ts pending forms →
      Unfinished (ts ++ [⟨.quote, place⟩]) (.quote place :: pending) forms
  | list {ts : List Token} {pending : List Pending} {forms : List Form} (opened : Place)
      (items : List Phrase) :
      Unfinished ts pending forms →
      Unfinished (ts ++ ⟨.openList, opened⟩ :: tokensAll items)
        (.list opened (datumAll items).reverse :: pending) forms
  | dotted {ts : List Token} {pending : List Pending} {forms : List Form} (opened : Place)
      (first : Phrase) (others : List Phrase) (dot : Place) :
      Unfinished ts pending forms →
      Unfinished (ts ++ ⟨.openList, opened⟩ :: (tokensAll (first :: others) ++ [dotToken dot]))
        (.dotted opened (datumAll (first :: others)).reverse :: pending) forms

/-- Tokens that explain where the reader is. -/
inductive Explains : List Token → Reading → Prop
  | within {ts : List Token} {pending : List Pending} {forms : List Form} :
      Unfinished ts pending forms → Explains ts (within pending forms)
  | closing {ts : List Token} {pending : List Pending} {forms : List Form} (opened : Place)
      (first : Phrase) (others : List Phrase) (dot : Place) (last : Phrase) :
      Unfinished ts pending forms →
      Explains (ts ++ ⟨.openList, opened⟩ ::
          (tokensAll (first :: others) ++ (dotToken dot :: last.tokens)))
        (closing opened (datumAll (first :: others)).reverse last.datum pending forms)

/-- A phrase that is complete explains what comes of its datum. -/
theorem Unfinished.supply {ts : List Token} (explained : Unfinished ts pending forms)
    (phrase : Phrase) :
    Explains (ts ++ phrase.tokens) (supply forms phrase.place phrase.datum pending) := by
  induction explained generalizing phrase with
  | top phrases =>
    have one := Unfinished.top (phrases ++ [phrase])
    rw [tokensAll_snoc, List.map_append, List.reverse_append] at one
    exact .within one
  | quote place _ ih =>
    have whole := ih (.quote place phrase)
    rw [Phrase.tokens, List.append_cons] at whole
    exact whole
  | list opened items explained _ =>
    have more := Unfinished.list opened (items ++ [phrase]) explained
    rw [tokensAll_snoc, datumAll_snoc, List.reverse_append] at more
    rw [List.append_assoc, List.cons_append]
    exact .within more
  | dotted opened first others dot explained _ =>
    have tail := Explains.closing opened first others dot phrase explained
    rw [List.append_assoc, List.cons_append, List.append_assoc, List.singleton_append]
    exact tail

variable {ts : List Token} {r r' : Reading} {token : Token}

/-- What begins a list, a quotation or a datum is explained, and so is what ends a list. -/
theorem Explains.next (explained : Explains ts r) (goes : token.kind ≠ .endOfText)
    (read : r.next token = .ok r') : Explains (ts ++ [token]) r' := by
  obtain ⟨kind, place⟩ := token
  cases explained with
  | @within ts pending forms explained =>
    cases kind with
    | openList =>
      cases next_openList.symm.trans read
      exact .within (.list place [] explained)
    | quote =>
      cases next_quote.symm.trans read
      exact .within (.quote place explained)
    | string text =>
      cases next_string.symm.trans read
      exact explained.supply (.string place text)
    | closeList =>
      rw [next_closeList] at read
      cases explained with
      | list opened items explained =>
        cases read
        have whole := explained.supply (.list opened items place)
        rw [Phrase.tokens, ← List.cons_append, ← List.append_assoc] at whole
        rw [listDatum_reverse]
        exact whole
      | top | quote | dotted => cases read
    | atom text =>
      rw [next_atom] at read
      by_cases lone : text = "."
      · subst lone
        cases explained with
        | list opened items explained =>
          cases items with
          | nil => cases read
          | cons first others =>
            cases (readAtom_dot (datumAll_cons_ne_nil first others)).symm.trans read
            rw [List.append_assoc, List.cons_append]
            exact .within (.dotted opened first others place explained)
        | top | quote | dotted => cases read
      · rw [readAtom_of_ne_dot lone] at read
        cases means : Reader.atom text with
        | error reason =>
          rw [means] at read
          cases read
        | ok d =>
          rw [means] at read
          cases read
          exact explained.supply (.atom place text d lone ((atom_eq_ok_iff lone).1 means))
    | unterminated => cases pending <;> cases read
    | endOfText => exact absurd rfl goes
  | closing opened first others dot last explained =>
    cases kind with
    | closeList =>
      cases read
      have whole := explained.supply (.dotted opened first others dot last place)
      rw [← List.append_nil (Phrase.tokens _), tokens_dotted_append] at whole
      rw [listDatum_reverse, List.append_assoc, List.cons_append, List.append_assoc,
        List.cons_append]
      exact whole
    | _ => cases read

/-- Whatever the reader accepts is explained, but for the end of the text. -/
theorem Explains.readAll {more : List Token} (explained : Explains ts r)
    (goes : ∀ token ∈ more, token.kind ≠ .endOfText) (read : r.readAll more = .ok r') :
    Explains (ts ++ more) r' := by
  induction more generalizing ts r with
  | nil =>
    cases read
    rwa [List.append_nil]
  | cons token more ih =>
    obtain ⟨goes, others⟩ := List.forall_mem_cons.1 goes
    rw [Reading.readAll] at read
    cases step : r.next token with
    | error reason =>
      rw [step] at read
      cases read
    | ok r₁ =>
      rw [step] at read
      rw [List.append_cons]
      exact ih (explained.next goes step) others read

/-! ## Whole texts -/

theorem readAll_append_eq_ok_iff {more : List Token} :
    r.readAll (ts ++ more) = .ok r' ↔ ∃ r₁, r.readAll ts = .ok r₁ ∧ r₁.readAll more = .ok r' := by
  induction ts generalizing r with
  | nil =>
    refine ⟨fun read => ⟨r, rfl, read⟩, ?_⟩
    rintro ⟨r₁, ⟨⟩, read⟩
    exact read
  | cons token ts ih =>
    rw [List.cons_append, Reading.readAll, Reading.readAll]
    cases r.next token with
    | error reason => exact ⟨nofun, fun ⟨r₁, failed, _⟩ => nomatch failed⟩
    | ok r₂ => exact ih

/-- The tokens of phrases are accepted. -/
theorem readAll_tokensAll (phrases : List Phrase) (ending : Place) :
    Reading.start.readAll (tokensAll phrases ++ [⟨.endOfText, ending⟩]) =
      .ok (within [] (phrases.map form).reverse) := by
  rw [Reading.start, readAll_forms, List.append_nil]
  rfl

/-- Nothing else is. -/
theorem exists_phrases {ending : Place} (goes : ∀ token ∈ ts, token.kind ≠ .endOfText)
    (read : Reading.start.readAll (ts ++ [⟨.endOfText, ending⟩]) = .ok r) :
    ∃ phrases, ts = tokensAll phrases ∧ r = within [] (phrases.map form).reverse := by
  obtain ⟨r₁, before, last⟩ := readAll_append_eq_ok_iff.1 read
  have explained := (Explains.within (Unfinished.top [])).readAll goes before
  cases explained with
  | within explained =>
    cases explained with
    | top phrases =>
      cases last
      exact ⟨phrases, rfl, rfl⟩
    | quote | list | dotted => cases last
  | closing => cases last

/-- A string that does not end is not read, whatever came before. -/
theorem not_readAll_unterminated : r.readAll (ts ++ [⟨.unterminated, place⟩]) ≠ .ok r' := by
  intro read
  obtain ⟨r₁, -, last⟩ := readAll_append_eq_ok_iff.1 read
  cases r₁ with
  | within pending => cases pending <;> cases last
  | closing => cases last

/-! ## Uniqueness -/

/-- Here no phrase begins. -/
def Stops : List Token → Prop
  | [] => True
  | token :: _ => token.kind = .closeList ∨ token.kind = .atom "."

/-- A phrase begins with a token, and not with one that ends a list or is a dot. -/
theorem not_stops_tokens (phrase : Phrase) (rest : List Token) :
    ¬ Stops (phrase.tokens ++ rest) := by
  cases phrase with
  | atom place text datum lone denotes =>
    rintro (same | same)
    · cases same
    · exact lone (Token.Kind.atom.inj same)
  | string | quote | list | dotted => rintro (same | same) <;> cases same

/-- The tokens of a phrase are those of no other, and none of them belongs to what follows. -/
def Determined (phrase : Phrase) : Prop :=
  ∀ other rest rest', phrase.tokens ++ rest = other.tokens ++ rest' → phrase = other ∧ rest = rest'

theorem determinedAll {items others : List Phrase} {rest rest' : List Token}
    (each : ∀ item ∈ items, Determined item) (stops : Stops rest) (stops' : Stops rest')
    (same : tokensAll items ++ rest = tokensAll others ++ rest') : items = others ∧ rest = rest' := by
  induction items generalizing others with
  | nil =>
    cases others with
    | nil => exact ⟨rfl, same⟩
    | cons other others =>
      rw [tokensAll, tokensAll, List.nil_append, List.append_assoc] at same
      rw [same] at stops
      exact absurd stops (not_stops_tokens other _)
  | cons item items ih =>
    cases others with
    | nil =>
      rw [tokensAll, tokensAll, List.nil_append, List.append_assoc] at same
      rw [← same] at stops'
      exact absurd stops' (not_stops_tokens item _)
    | cons other others =>
      obtain ⟨one, more⟩ := List.forall_mem_cons.1 each
      rw [tokensAll, tokensAll, List.append_assoc, List.append_assoc] at same
      obtain ⟨rfl, behind⟩ := one other _ _ same
      obtain ⟨rfl, after⟩ := ih more behind
      exact ⟨rfl, after⟩

theorem stops_nil : Stops [] := trivial

theorem stops_close (place : Place) (rest : List Token) : Stops (⟨.closeList, place⟩ :: rest) :=
  .inl rfl

theorem stops_dot (place : Place) (rest : List Token) : Stops (dotToken place :: rest) :=
  .inr rfl

theorem determined (phrase : Phrase) : Determined phrase := by
  induction phrase with
  | atom place text datum lone denotes =>
    intro other rest rest' same
    cases other with
    | atom place' text' datum' lone' denotes' =>
      cases same
      cases denotes.unique lone denotes'
      exact ⟨rfl, rfl⟩
    | string | quote | list | dotted => cases same
  | string place text =>
    intro other rest rest' same
    cases other with
    | string place' text' =>
      cases same
      exact ⟨rfl, rfl⟩
    | atom | quote | list | dotted => cases same
  | quote place inner ih =>
    intro other rest rest' same
    cases other with
    | quote place' inner' =>
      rw [Phrase.tokens, Phrase.tokens, List.cons_append, List.cons_append] at same
      obtain ⟨head, tail⟩ := List.cons.inj same
      cases head
      obtain ⟨rfl, rfl⟩ := ih inner' rest rest' tail
      exact ⟨rfl, rfl⟩
    | atom | string | list | dotted => cases same
  | list opened items closed each =>
    intro other rest rest' same
    cases other with
    | list opened' items' closed' =>
      rw [tokens_list_append, tokens_list_append] at same
      obtain ⟨head, body⟩ := List.cons.inj same
      cases head
      obtain ⟨rfl, ends⟩ := determinedAll each (stops_close _ _) (stops_close _ _) body
      cases ends
      exact ⟨rfl, rfl⟩
    | dotted opened' first others dot last closed' =>
      rw [tokens_list_append, tokens_dotted_append] at same
      obtain ⟨-, ends⟩ := determinedAll each (stops_close _ _) (stops_dot _ _) (List.cons.inj same).2
      cases ends
    | atom | string | quote => cases same
  | dotted opened first others dot last closed one more tail =>
    intro other rest rest' same
    have each := List.forall_mem_cons.2 ⟨one, more⟩
    cases other with
    | dotted opened' first' others' dot' last' closed' =>
      rw [tokens_dotted_append, tokens_dotted_append] at same
      obtain ⟨head, body⟩ := List.cons.inj same
      cases head
      obtain ⟨items, ends⟩ := determinedAll each (stops_dot _ _) (stops_dot _ _) body
      cases items
      obtain ⟨head, behind⟩ := List.cons.inj ends
      cases head
      obtain ⟨rfl, closes⟩ := tail last' _ _ behind
      cases closes
      exact ⟨rfl, rfl⟩
    | list opened' items' closed' =>
      rw [tokens_list_append, tokens_dotted_append] at same
      obtain ⟨-, ends⟩ := determinedAll each (stops_dot _ _) (stops_close _ _) (List.cons.inj same).2
      cases ends
    | atom | string | quote => cases same

/-- No two derivations have the same tokens. -/
theorem tokensAll_injective {phrases others : List Phrase}
    (same : tokensAll phrases = tokensAll others) : phrases = others := by
  have whole : tokensAll phrases ++ [] = tokensAll others ++ [] := congrArg (· ++ []) same
  exact (determinedAll (fun item _ => determined item) stops_nil stops_nil whole).1

end MessageMachine.Reader
