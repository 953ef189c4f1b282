/-
# What is printed is read back

The printer and the reader do not know each other: one writes names of characters, escapes
and dots, the other has modes of scanning. Here each piece of text that the printer writes
is shown to be a phrase (`Rereads`), whatever delimiter follows it. The statement says
nothing of the place or of what comes after, so phrases can be put together as the printer
puts texts together, and the induction is on the datum.

What is read back is the datum, with one difference: nil is printed as a name, and it is
read back as a symbol of that name wherever it does not end a list. A second round changes
nothing, since that symbol is printed as nil is.
-/

import MessageMachine.Proofs.Heap.Text
import MessageMachine.Proofs.Reader.Correctness

namespace MessageMachine.Reader

open Phrase

/-! ## What can be read back -/

/-- A spelling that is read as the symbol of that name. -/
def Spelled (name : String) : Prop :=
  ∃ place, forms name = .ok [⟨.symbol name, place⟩]

/-- A datum whose integers are in range and whose symbols can be spelled. -/
def Datum.Printable : Datum → Prop
  | .integer n => Value.minInteger ≤ n ∧ n ≤ Value.maxInteger
  | .symbol name => Spelled name
  | .pair _ head tail => head.Printable ∧ tail.Printable
  | .nil | .boolean _ | .char _ | .string _ => True

mutual

/-- A datum with every nil that does not end a list replaced by the symbol of that name. -/
def Datum.asRead : Datum → Datum
  | .nil => .symbol "nil"
  | .pair _ head tail => .pair none head.asRead tail.asTail
  | d => d

/-- The same for the tail of a pair, where nil ends a list. -/
def Datum.asTail : Datum → Datum
  | .pair _ head tail => .pair none head.asRead tail.asTail
  | d => d

end

/-- A piece of text is a phrase for a datum, before whatever ends an atom. -/
def Rereads (cs : List Char) (d : Datum) : Prop :=
  ∀ (p : Place) (rest : List Char), Ends rest → ∃ phrase : Phrase, phrase.datum.bare = d ∧
    ∀ ts, Lexes (p.after cs) rest ts → Lexes p (cs ++ rest) (phrase.tokens ++ ts)

/-! ## Atoms -/

variable {cs word rest : List Char} {text name : String} {d : Datum}

/-- An atom is a phrase if its characters are a word with that meaning. -/
theorem rereads_of_denotes (isWord : ∀ rest, Ends rest → Word cs rest) (lone : String.ofList cs ≠ ".")
    (denotes : Denotes (String.ofList cs) d) : Rereads cs d.bare :=
  fun p rest ends => ⟨.atom p _ d lone denotes, rfl, fun _ lexes => .atom (isWord rest ends) lexes⟩

theorem word_of_plain (some_ : word ≠ []) (inside : ∀ c ∈ word, isDelimiter c = false)
    (no_hash : ∀ tail, word ≠ '#' :: tail) (rest : List Char) (ends : Ends rest) : Word word rest :=
  .plain some_ inside (fun tail => no_hash ('\\' :: tail)) ends

/-- An atom that means a symbol is its name. It is no dot and begins with no hash sign. -/
theorem Denotes.eq_name {d : Datum} (denotes : Denotes text d) (symbol : d = .symbol name) :
    text = name ∧ text ≠ "." ∧ ∀ tail, text.toList ≠ '#' :: tail := by
  cases denotes <;> cases symbol
  next lone _ no_hash => exact ⟨rfl, lone, no_hash⟩

theorem inside_of_word (isWord : Word word rest) (no_hash : ∀ tail, word ≠ '#' :: tail) :
    word ≠ [] ∧ ∀ c ∈ word, isDelimiter c = false := by
  cases isWord with
  | plain some_ inside => exact ⟨some_, inside⟩
  | literal => exact absurd rfl (no_hash _)
  | bare => exact absurd rfl (no_hash _)

/-- The text of a symbol is one atom. -/
theorem spelled_iff : Spelled name ↔ name ≠ "." ∧ Denotes name (.symbol name) ∧
    name.toList ≠ [] ∧ ∀ c ∈ name.toList, isDelimiter c = false := by
  constructor
  · rintro ⟨place, read⟩
    obtain ⟨phrases, ⟨ending, lexes⟩, same⟩ := exists_derives read
    obtain ⟨phrase, rfl, one⟩ := List.map_eq_singleton_iff.1 same
    cases phrase with
    | atom place' text d lone denotes =>
      have meant : d = .symbol name := congrArg Form.datum one
      obtain ⟨rfl, -, no_hash⟩ := denotes.eq_name meant
      obtain ⟨rest, isWord⟩ := lexes.word_of_atom (List.mem_cons_self ..)
      exact ⟨lone, meant ▸ denotes, inside_of_word isWord no_hash⟩
    | string => cases one
    | quote => cases one
    | list opened items => cases items <;> cases one
    | dotted => cases one
  · rintro ⟨lone, denotes, some_, inside⟩
    obtain ⟨-, -, no_hash⟩ := denotes.eq_name rfl
    have lexes := Lexes.atom (p := .start) (word_of_plain some_ inside no_hash [] trivial) .finish
    rw [List.append_nil, String.ofList_toList] at lexes
    have derives : Derives name [.atom .start name _ lone denotes] := ⟨_, lexes⟩
    exact ⟨.start, derives.forms_eq⟩

theorem rereads_symbol (spelled : Spelled name) : Rereads name.toList (.symbol name) := by
  obtain ⟨lone, denotes, some_, inside⟩ := spelled_iff.1 spelled
  obtain ⟨-, -, no_hash⟩ := denotes.eq_name rfl
  refine rereads_of_denotes (d := .symbol name) (word_of_plain some_ inside no_hash) ?_ ?_
  · rwa [String.ofList_toList]
  · rwa [String.ofList_toList]

theorem rereads_nil : Rereads ['n', 'i', 'l'] (.symbol "nil") := by
  have spelled : Spelled "nil" := ⟨.start, by decide +kernel⟩
  have reads := rereads_symbol spelled
  rwa [String.toList_ofList] at reads

theorem rereads_boolean (b : Bool) : Rereads (Datum.boolean b).atomChars (.boolean b) := by
  have isWord (c : Char) (plain : isDelimiter c = false) (other : c ≠ '\\') (rest : List Char)
      (ends : Ends rest) : Word ['#', c] rest := by
    refine .plain (List.cons_ne_nil _ _) ?_ (fun tail same => ?_) ends
    · exact List.forall_mem_cons.2 ⟨by decide, List.forall_mem_singleton.2 plain⟩
    · cases same
      exact other rfl
  cases b with
  | true => exact rereads_of_denotes (isWord 't' (by decide) (by decide)) (by decide) .true
  | false => exact rereads_of_denotes (isWord 'f' (by decide) (by decide)) (by decide) .false

theorem inside_of_all (all : (word.all fun c => !isDelimiter c) = true) :
    ∀ c ∈ word, isDelimiter c = false := by
  intro c member
  simpa using List.all_eq_true.1 all c member

/-- What begins with a hash sign and a backslash is an atom if it has a meaning. -/
theorem rereads_literal {first : Char} {others : List Char} {c : Char}
    (inside : ∀ x ∈ others, isDelimiter x = false)
    (denotes : Denotes (String.ofList ('#' :: '\\' :: first :: others)) (.char c)) :
    Rereads ('#' :: '\\' :: first :: others) (.char c) := by
  refine rereads_of_denotes (d := .char c) (fun rest ends => .literal inside ends) ?_ denotes
  intro dot
  have chars := congrArg String.toList dot
  rw [String.toList_ofList] at chars
  cases chars

/-- A character is written as itself or by its name. -/
theorem rereads_char (c : Char) : Rereads (Datum.char c).atomChars (.char c) := by
  have text : (Datum.char c).atomChars =
      '#' :: '\\' :: ((Heap.charName? c).getD (String.singleton c)).toList := by
    rw [Datum.atomChars, Heap.charText, String.toList_append]
    rfl
  have named {name : List Char} {c : Char} (known : CharName (lowered name) c) :
      Denotes (String.ofList ('#' :: '\\' :: name)) (.char c) :=
    .named String.toList_ofList known
  rw [text]
  unfold Heap.charName?
  split
  · exact rereads_literal (inside_of_all rfl) (named .space)
  · exact rereads_literal (inside_of_all rfl) (named .newline)
  · exact rereads_literal (inside_of_all rfl) (named .tab)
  · exact rereads_literal (inside_of_all rfl) (named .return)
  · rw [Option.getD_none, String.toList_singleton]
    exact rereads_literal nofun (.character String.toList_ofList)

theorem isDelimiter_of_isDigit {c : Char} (digit : c.isDigit = true) : isDelimiter c = false := by
  have bounds : 48 ≤ c.toNat ∧ c.toNat ≤ 57 := by
    simpa [Char.isDigit, UInt32.le_iff_toNat_le] using digit
  have apart : ∀ range ∈ blankRanges, range.2 < 48 ∨ 57 < range.1 := by decide
  have solid : isBlank c = false := by
    rw [isBlank, List.any_eq_false]
    intro range member
    have away := apart range member
    rw [decide_eq_true_eq]
    omega
  have other (d : Char) (not_digit : d.isDigit = false) : ¬ c = d := by
    rintro rfl
    rw [digit] at not_digit
    cases not_digit
  simp only [isDelimiter, solid, decide_eq_false (other '(' rfl), decide_eq_false (other ')' rfl),
    decide_eq_false (other '"' rfl), decide_eq_false (other ';' rfl),
    decide_eq_false (other '\'' rfl), Bool.or_false]

/-- A numeral is one atom. -/
theorem Numeral.isWord {n : Int} (numeral : Numeral word n) (rest : List Char) (ends : Ends rest) :
    Word word rest := by
  have no_hash (tail : List Char) : word ≠ '#' :: tail := by
    rintro rfl
    exact not_beginsNumber_hash tail numeral.beginsNumber
  obtain ⟨isSign, some_, all⟩ := numeral
  have digits := fun c member => isDelimiter_of_isDigit (all c member)
  refine word_of_plain (fun none_ => some_ (List.append_eq_nil_iff.1 none_).2) ?_ no_hash rest ends
  cases isSign with
  | absent => exact digits
  | plus => exact List.forall_mem_cons.2 ⟨by decide, digits⟩
  | minus => exact List.forall_mem_cons.2 ⟨by decide, digits⟩

theorem Numeral.ne_dot {n : Int} : ¬ Numeral ['.'] n := by
  intro numeral
  have looks := looksNumeric_iff.2 numeral.beginsNumber
  cases looks

/-- The decimal digits of a number denote it. -/
theorem numeral_toString (n : Int) : Numeral (toString n).toList n := by
  have digits (m : Nat) : Nat.toDigits 10 m ≠ [] ∧ ∀ c ∈ Nat.toDigits 10 m, c.isDigit = true :=
    ⟨Nat.toDigits_ne_nil, fun c member => Nat.isDigit_of_mem_toDigits (by decide) (by decide) member⟩
  cases n with
  | ofNat m =>
    have plain := Numeral.intro .absent (digits m).1 (digits m).2
    rw [Nat.ofDigitChars_ten_toDigits] at plain
    show Numeral (toString m).toList _
    rw [Nat.toString_eq_ofList_toDigits, String.toList_ofList]
    exact plain
  | negSucc m =>
    have signed := Numeral.intro .minus (digits (m + 1)).1 (digits (m + 1)).2
    rw [Nat.ofDigitChars_ten_toDigits] at signed
    show Numeral ("-" ++ toString (m + 1)).toList _
    rw [String.toList_append, Nat.toString_eq_ofList_toDigits, String.toList_ofList,
      String.toList_ofList]
    exact signed

theorem rereads_integer {n : Int} (least : Value.minInteger ≤ n) (greatest : n ≤ Value.maxInteger) :
    Rereads (toString n).toList (.integer n) := by
  have numeral := numeral_toString n
  refine rereads_of_denotes (d := .integer n) numeral.isWord ?_ ?_
  · intro dot
    have chars := congrArg String.toList dot
    rw [String.toList_ofList] at chars
    rw [chars] at numeral
    exact numeral.ne_dot
  · rw [String.ofList_toList]
    exact .integer numeral least greatest

theorem quoted_escapeChar (c : Char) {body text : List Char} (quoted : Quoted body text) :
    Quoted (Heap.escapeChar c ++ body) (c :: text) := by
  unfold Heap.escapeChar
  split
  · exact .escaped (.same (by decide) (by decide) (by decide)) quoted
  · exact .escaped (.same (by decide) (by decide) (by decide)) quoted
  · exact .escaped .newline quoted
  · exact .escaped .tab quoted
  · exact .escaped .return quoted
  next mark backslash _ _ _ => exact .plain mark backslash quoted

theorem quoted_flatMap (text : List Char) : Quoted (text.flatMap Heap.escapeChar) text := by
  induction text with
  | nil => exact .nil
  | cons c text ih =>
    rw [List.flatMap_cons]
    exact quoted_escapeChar c ih

theorem rereads_string (text : String) : Rereads (Heap.quoted text).toList (.string text) := by
  intro p rest _
  refine ⟨.string p text, rfl, fun ts lexes => ?_⟩
  rw [Heap.quoted, String.toList_ofList] at lexes ⊢
  have whole := Lexes.string (quoted_flatMap text.toList) lexes
  rw [String.ofList_toList] at whole
  rw [List.cons_append, List.cons_append, List.append_assoc]
  exact whole

/-! ## Lists -/

/-- The rest of a list: items, perhaps a dot with a last phrase, and the end. -/
structure Remainder where
  items : List Phrase
  dotted : Option (Place × Phrase)
  closed : Place

namespace Remainder

/-- The tokens from the dot on. -/
def dottedTokens : Option (Place × Phrase) → List Token
  | none => []
  | some (dot, last) => dotToken dot :: last.tokens

/-- What the list ends in. -/
def last : Option (Place × Phrase) → Datum
  | none => .nil
  | some (_, last) => last.datum

def tokens (r : Remainder) : List Token :=
  tokensAll r.items ++ (dottedTokens r.dotted ++ [⟨.closeList, r.closed⟩])

/-- The tail that it makes. -/
def datum (r : Remainder) : Datum :=
  chain (datumAll r.items) (last r.dotted)

/-- One more item in front. -/
def cons (first : Phrase) (r : Remainder) : Remainder :=
  { r with items := first :: r.items }

theorem tokens_cons (first : Phrase) (r : Remainder) :
    (cons first r).tokens = first.tokens ++ r.tokens := by
  rw [tokens, cons, tokensAll, List.append_assoc]
  rfl

theorem datum_cons (first : Phrase) (r : Remainder) :
    (cons first r).datum = .pair none first.datum r.datum := rfl

/-- With a first item it makes a list. -/
def enclose (opened : Place) (first : Phrase) (r : Remainder) : Phrase :=
  match r.dotted with
  | none => .list opened (first :: r.items) r.closed
  | some (dot, last) => .dotted opened first r.items dot last r.closed

theorem tokens_enclose (opened : Place) (first : Phrase) (r : Remainder) :
    (enclose opened first r).tokens = ⟨.openList, opened⟩ :: (first.tokens ++ r.tokens) := by
  obtain ⟨items, dotted, closed⟩ := r
  cases dotted with
  | none =>
    rw [enclose, Phrase.tokens, tokensAll, tokens, List.append_assoc]
    rfl
  | some ending =>
    rw [enclose, Phrase.tokens, tokens, List.append_assoc]
    rfl

theorem datum_enclose (opened : Place) (first : Phrase) (r : Remainder) :
    (enclose opened first r).datum = .pair (some opened) first.datum r.datum := by
  obtain ⟨items, dotted, closed⟩ := r
  cases dotted <;> rfl

end Remainder

/-- A piece of text is the rest of a list with the datum as its tail. -/
def RereadsTail (cs : List Char) (d : Datum) : Prop :=
  ∀ (p : Place) (rest : List Char), ∃ r : Remainder, r.datum.bare = d ∧
    ∀ ts, Lexes (p.after cs) rest ts → Lexes p (cs ++ rest) (r.tokens ++ ts)

theorem ends_tailChars (d : Datum) (rest : List Char) : Ends (d.tailChars ++ rest) := by
  have space : isDelimiter ' ' = true := by decide
  have close : isDelimiter ')' = true := by decide
  cases d with
  | nil => exact close
  | _ => exact space

/-- A head and what follows it in its list are read one after the other. -/
theorem reads_parts {head tail : Datum} (heads : Rereads head.chars head.asRead)
    (tails : RereadsTail tail.tailChars tail.asTail) (p : Place) (rest : List Char) :
    ∃ (first : Phrase) (r : Remainder), first.datum.bare = head.asRead ∧
      r.datum.bare = tail.asTail ∧
      ∀ ts, Lexes (p.after (head.chars ++ tail.tailChars)) rest ts →
        Lexes p (head.chars ++ (tail.tailChars ++ rest)) (first.tokens ++ r.tokens ++ ts) := by
  obtain ⟨first, one, reads⟩ := heads p (tail.tailChars ++ rest) (ends_tailChars tail rest)
  obtain ⟨r, more, follows⟩ := tails (p.after head.chars) rest
  refine ⟨first, r, one, more, fun ts lexes => ?_⟩
  rw [Place.after_append] at lexes
  rw [List.append_assoc]
  exact reads (r.tokens ++ ts) (follows ts lexes)

theorem rereads_pair {source : Option Place} {head tail : Datum}
    (heads : Rereads head.chars head.asRead) (tails : RereadsTail tail.tailChars tail.asTail) :
    Rereads (Datum.pair source head tail).chars (Datum.pair source head tail).asRead := by
  intro p rest _
  obtain ⟨first, r, one, more, reads⟩ := reads_parts heads tails (p.advance '(') rest
  refine ⟨r.enclose p first, ?_, fun ts lexes => ?_⟩
  · rw [Remainder.datum_enclose, Datum.bare, one, more, Datum.asRead]
  · rw [Remainder.tokens_enclose, Datum.chars, List.cons_append, List.cons_append, List.append_assoc]
    exact .openList (reads ts lexes)

/-- A list goes on with an item behind a space. -/
theorem rereadsTail_pair {source : Option Place} {head tail : Datum}
    (heads : Rereads head.chars head.asRead) (tails : RereadsTail tail.tailChars tail.asTail) :
    RereadsTail (Datum.pair source head tail).tailChars (Datum.pair source head tail).asTail := by
  intro p rest
  obtain ⟨first, r, one, more, reads⟩ := reads_parts heads tails (p.advance ' ') rest
  refine ⟨r.cons first, ?_, fun ts lexes => ?_⟩
  · rw [Remainder.datum_cons, Datum.bare, one, more, Datum.asTail]
  · rw [Remainder.tokens_cons, Datum.tailChars, List.cons_append, List.append_assoc]
    exact .blank (by decide) (reads ts lexes)

/-- A list ends in nil without a dot. -/
theorem rereadsTail_nil : RereadsTail [')'] .nil :=
  fun p _ => ⟨⟨[], none, p⟩, rfl, fun _ lexes => .closeList lexes⟩

/-- A list ends in anything else behind a dot. -/
theorem rereadsTail_atom (reads : Rereads cs d) :
    RereadsTail (' ' :: '.' :: ' ' :: (cs ++ [')'])) d := by
  intro p rest
  have close : Ends (')' :: rest) := (by decide : isDelimiter ')' = true)
  have space : Ends (' ' :: (cs ++ ')' :: rest)) := (by decide : isDelimiter ' ' = true)
  have dot : Word ['.'] (' ' :: (cs ++ ')' :: rest)) :=
    .plain (List.cons_ne_nil _ _) (inside_of_all rfl) (fun _ => by rintro ⟨⟩) space
  obtain ⟨last, same, behind⟩ := reads (p.after [' ', '.', ' ']) (')' :: rest) close
  refine ⟨⟨[], some (p.advance ' ', last), p.after (' ' :: '.' :: ' ' :: cs)⟩, same, fun ts lexes => ?_⟩
  have closed : Lexes (p.after (' ' :: '.' :: ' ' :: cs)) (')' :: rest)
      (⟨.closeList, p.after (' ' :: '.' :: ' ' :: cs)⟩ :: ts) := by
    refine .closeList ?_
    rwa [← List.cons_append, ← List.cons_append, ← List.cons_append, Place.after_append] at lexes
  have whole := Lexes.blank (p := p) (c := ' ') (by decide)
    (.atom dot (.blank (c := ' ') (by decide) (behind _ closed)))
  rw [List.cons_append, List.cons_append, List.cons_append, List.append_assoc, Remainder.tokens,
    tokensAll, List.nil_append, List.append_assoc, List.singleton_append]
  exact whole

/-- What is printed of a datum is a phrase for what is to be read back. -/
theorem rereads_chars {d : Datum} (printable : d.Printable) :
    Rereads d.chars d.asRead ∧ RereadsTail d.tailChars d.asTail := by
  induction d with
  | pair source head tail ihHead ihTail =>
    have heads := (ihHead printable.1).1
    have tails := (ihTail printable.2).2
    exact ⟨rereads_pair heads tails, rereadsTail_pair heads tails⟩
  | nil => exact ⟨rereads_nil, rereadsTail_nil⟩
  | boolean b => exact ⟨rereads_boolean b, rereadsTail_atom (rereads_boolean b)⟩
  | integer n =>
    have reads := rereads_integer printable.1 printable.2
    exact ⟨reads, rereadsTail_atom reads⟩
  | char c => exact ⟨rereads_char c, rereadsTail_atom (rereads_char c)⟩
  | symbol name => exact ⟨rereads_symbol printable, rereadsTail_atom (rereads_symbol printable)⟩
  | string text => exact ⟨rereads_string text, rereadsTail_atom (rereads_string text)⟩

/-! ## Texts -/

/-- What is printed of a datum is read back, alone and whole. -/
theorem forms_of_chars {d : Datum} {text : String} (printable : d.Printable)
    (same : text.toList = d.chars) : ∃ form, forms text = .ok [form] ∧ form.datum.bare = d.asRead := by
  obtain ⟨phrase, meant, reads⟩ := (rereads_chars printable).1 .start [] trivial
  have lexes := reads _ .finish
  rw [List.append_nil, ← same] at lexes
  have derives : Derives text [phrase] := by
    refine ⟨Place.start.after text.toList, ?_⟩
    rwa [tokensAll, tokensAll, List.append_nil]
  exact ⟨phrase.form, derives.forms_eq, meant⟩

/-- A symbol that a text has can be spelled, and an integer that it has is in range. -/
theorem Denotes.printable {rest : List Char} (denotes : Denotes text d) (lone : text ≠ ".")
    (isWord : Word text.toList rest) : d.Printable := by
  cases denotes with
  | integer _ least greatest => exact ⟨least, greatest⟩
  | symbol _ other no_hash =>
    obtain ⟨some_, inside⟩ := inside_of_word isWord no_hash
    exact spelled_iff.2 ⟨lone, .symbol lone other no_hash, some_, inside⟩
  | «true» | «false» | character | named => trivial

/-- The atoms of a phrase are words. -/
def Phrase.InWords (phrase : Phrase) : Prop :=
  ∀ text place, ⟨.atom text, place⟩ ∈ phrase.tokens → ∃ rest, Word text.toList rest

theorem printable_chain {items : List Datum} {tail : Datum} (each : ∀ item ∈ items, item.Printable)
    (ends : tail.Printable) : (chain items tail).Printable := by
  induction items with
  | nil => exact ends
  | cons first others ih =>
    obtain ⟨one, more⟩ := List.forall_mem_cons.1 each
    exact ⟨one, ih more⟩

theorem printable_listAt {opened : Place} {items : List Datum} {tail : Datum}
    (each : ∀ item ∈ items, item.Printable) (ends : tail.Printable) :
    (listAt opened items tail).Printable := by
  cases items with
  | nil => exact ends
  | cons first others => exact printable_chain each ends

theorem mem_tokensAll {phrases : List Phrase} {phrase : Phrase} {token : Token}
    (member : phrase ∈ phrases) (inside : token ∈ phrase.tokens) : token ∈ tokensAll phrases := by
  induction phrases with
  | nil => cases member
  | cons first others ih =>
    rw [tokensAll, List.mem_append]
    rcases List.mem_cons.1 member with rfl | later
    · exact .inl inside
    · exact .inr (ih later)

theorem printable_datumAll {items : List Phrase} (each : ∀ item ∈ items, item.datum.Printable) :
    ∀ d ∈ datumAll items, d.Printable := by
  rw [datumAll_eq]
  intro d member
  obtain ⟨item, listed, rfl⟩ := List.mem_map.1 member
  exact each item listed

/-- What a phrase of a text denotes can be printed. -/
theorem Phrase.printable {phrase : Phrase} (words : phrase.InWords) : phrase.datum.Printable := by
  induction phrase with
  | atom place text d lone denotes =>
    obtain ⟨rest, isWord⟩ := words text place (List.mem_singleton_self _)
    exact denotes.printable lone isWord
  | string => trivial
  | quote place inner ih =>
    have quote : (Datum.symbol "quote").Printable := ⟨.start, by decide +kernel⟩
    refine printable_listAt (List.forall_mem_cons.2 ⟨quote, List.forall_mem_singleton.2 ?_⟩) trivial
    exact ih fun text place' member => words text place' (List.mem_cons_of_mem _ member)
  | list opened items closed ih =>
    refine printable_listAt (printable_datumAll fun item listed => ih item listed ?_) trivial
    refine fun text place member => words text place (List.mem_cons_of_mem _ ?_)
    exact List.mem_append_left _ (mem_tokensAll listed member)
  | dotted opened first others dot last closed one more tail =>
    -- Whatever is in an item or in the tail is in the list.
    have inItems {item : Phrase} (listed : item ∈ first :: others) : item.InWords := by
      intro text place member
      refine words text place ?_
      rw [← List.append_nil (Phrase.tokens _), tokens_dotted_append]
      exact List.mem_cons_of_mem _ (List.mem_append_left _ (mem_tokensAll listed member))
    have inTail : last.InWords := by
      intro text place member
      refine words text place ?_
      rw [← List.append_nil (Phrase.tokens _), tokens_dotted_append]
      refine List.mem_cons_of_mem _ (List.mem_append_right _ (List.mem_cons_of_mem _ ?_))
      exact List.mem_append_left _ member
    refine printable_listAt (List.forall_mem_cons.2 ⟨one (inItems (List.mem_cons_self ..)), ?_⟩)
      (tail inTail)
    exact printable_datumAll fun item listed =>
      more item listed (inItems (List.mem_cons_of_mem _ listed))

/-- What is read can be printed and read back. -/
theorem printable_of_forms {form : Form} (read : forms text = .ok [form]) :
    form.datum.Printable := by
  obtain ⟨phrases, ⟨ending, lexes⟩, same⟩ := exists_derives read
  obtain ⟨phrase, rfl, rfl⟩ := List.map_eq_singleton_iff.1 same
  refine Phrase.printable fun word place member => ?_
  have inside := mem_tokensAll (List.mem_singleton_self phrase) member
  exact lexes.word_of_atom (List.mem_append_left _ inside)

theorem onlyForm_eq_ok_iff {form : Form} : onlyForm text = .ok form ↔ forms text = .ok [form] := by
  unfold onlyForm
  constructor
  · intro only
    split at only <;> cases only
    next read => exact read
  · intro read
    rw [read]

/-! ## The second round -/

theorem chars_bare (d : Datum) : d.bare.chars = d.chars ∧ d.bare.tailChars = d.tailChars := by
  induction d with
  | pair source head tail ihHead ihTail =>
    rw [Datum.bare, Datum.chars, Datum.chars, Datum.tailChars, Datum.tailChars, ihHead.1, ihTail.2]
    exact ⟨rfl, rfl⟩
  | _ => exact ⟨rfl, rfl⟩

/-- The symbol that nil is read back as is printed as nil is. -/
theorem chars_asRead (d : Datum) :
    d.asRead.chars = d.chars ∧ d.asTail.tailChars = d.tailChars := by
  induction d with
  | pair source head tail ihHead ihTail =>
    rw [Datum.asRead, Datum.asTail, Datum.chars, Datum.chars, Datum.tailChars, Datum.tailChars,
      ihHead.1, ihTail.2]
    exact ⟨rfl, rfl⟩
  | nil => exact ⟨String.toList_ofList, rfl⟩
  | _ => exact ⟨rfl, rfl⟩

/-- A stored datum is printed as its text. -/
theorem toList_print_store (h : Heap) (file : String) (d : Datum) :
    ((h.store file d).1.print (h.store file d).2).toList = d.chars :=
  (h.adds_store file d).2.toList_print

/-- A value without a cycle, with integers in range and symbols that can be spelled, is
printed as a text of one form. What is read from it is structurally equal to the value with
every nil that does not end a list replaced by the symbol of that name. So for every text
with one form, what is read, printed, read back and printed again is printed alike. -/
theorem print_forms :
    (∀ (h : Heap) (notes : Option Place → Option Location → Prop) (v : Value) (d : Datum),
      h.Unfolds notes v d → d.Printable →
        ∃ form, forms (h.print v) = .ok [form] ∧ form.datum.bare = d.asRead ∧
          ∀ (h₁ : Heap) (notes₁ : Option Place → Option Location → Prop) (w : Value) (d₁ : Datum),
            h₁.Unfolds notes₁ w d₁ → d₁.bare = d.asRead → ∀ file,
              (h₁.store file form.datum).1.equal (h₁.store file form.datum).2 w = true) ∧
    ∀ text form, onlyForm text = .ok form → ∀ (h : Heap) (file : String),
      ∃ form', onlyForm ((h.store file form.datum).1.print (h.store file form.datum).2) = .ok form' ∧
        ∀ (h' : Heap) (file' : String),
          (h'.store file' form'.datum).1.print (h'.store file' form'.datum).2 =
            (h.store file form.datum).1.print (h.store file form.datum).2 := by
  constructor
  · intro h notes v d unfolds printable
    obtain ⟨form, read, meant⟩ := forms_of_chars printable unfolds.toList_print
    refine ⟨form, read, meant, fun h₁ notes₁ w d₁ unfolds₁ same file => ?_⟩
    obtain ⟨keeps, stored⟩ := h₁.adds_store file form.datum
    exact Heap.equal_of_alike
      ⟨_, notes₁, form.datum, d₁, stored, unfolds₁.mono keeps, meant.trans same.symm⟩
  · intro text form only h file
    have printable := printable_of_forms (onlyForm_eq_ok_iff.1 only)
    obtain ⟨form', read, meant⟩ := forms_of_chars printable (toList_print_store h file form.datum)
    refine ⟨form', onlyForm_eq_ok_iff.2 read, fun h' file' => ?_⟩
    rw [← String.toList_inj, toList_print_store, toList_print_store]
    rw [← (chars_bare form'.datum).1, meant, (chars_asRead form.datum).1]

/-- Two cells, the first of which is both the head and the tail of the second. -/
def sharedCells : Heap :=
  { Heap.empty with
    pairs := #[⟨.nil, .char '('.toNat, none⟩, ⟨.pair ⟨0⟩, .pair ⟨0⟩, none⟩] }

/-- Nil as a head is read back as a symbol, and a parenthesis as a character. -/
theorem print_forms_sharedCells :
    ∃ form, forms (sharedCells.print (.pair ⟨1⟩)) = .ok [form] ∧
      form.datum.bare = .pair none (.pair none (.symbol "nil") (.char '('))
        (.pair none (.symbol "nil") (.char '(')) := by
  have inner : sharedCells.Unfolds (fun _ _ => True) (.pair ⟨0⟩) (.pair none .nil (.char '(')) :=
    .pair rfl trivial .nil (.char '(')
  have outer : sharedCells.Unfolds (fun _ _ => True) (.pair ⟨1⟩)
      (.pair none (.pair none .nil (.char '(')) (.pair none .nil (.char '('))) :=
    .pair rfl trivial inner inner
  obtain ⟨form, read, meant, -⟩ :=
    print_forms.1 sharedCells _ _ _ outer ⟨⟨trivial, trivial⟩, trivial, trivial⟩
  exact ⟨form, read, meant⟩

end MessageMachine.Reader
