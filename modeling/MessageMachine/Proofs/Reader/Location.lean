/-
# Where things stand in a text

A derivation tells of each phrase the place where it begins, and the scanner gets at places by
going on from character to character. Here the text is taken as a whole: a phrase is written in
it behind some characters, and its place is got by counting those, the newlines for the line and
the characters since the last newline for the column (`Place.behind`). `Written` is the syntax
from the characters up, with the blanks and comments that are skipped between tokens. A text
derives phrases exactly if it is these, written from its start to its end
(`derives_iff_writtenIn`).

What is read is then stored. The values unfold to what the phrases denote, in which the first
pair of a list and of a quotation notes a place and no other pair does (`places_datum`); and no
pair is made that is not part of these values (`locations_exact`).
-/

import MessageMachine.Proofs.Heap.Making
import MessageMachine.Proofs.Reader.Correctness

namespace MessageMachine

namespace Reader

open Phrase

/-! ## Places are counts -/

/-- The place behind some characters, from the start of a text. -/
def Place.behind (before : List Char) : Place :=
  ⟨1 + before.count '\n', 1 + (before.reverse.takeWhile (· ≠ '\n')).length⟩

theorem Place.advance_behind (before : List Char) (c : Char) :
    (behind before).advance c = behind (before ++ [c]) := by
  unfold advance behind
  rw [List.count_append, List.count_singleton, List.reverse_append, List.reverse_singleton,
    List.singleton_append, List.takeWhile_cons]
  by_cases newline : c = '\n'
  · simp [newline, Nat.add_assoc]
  · simp [newline, Nat.add_comm]

theorem Place.after_behind (before cs : List Char) :
    (behind before).after cs = behind (before ++ cs) := by
  induction cs generalizing before with
  | nil => rw [List.append_nil]; rfl
  | cons c cs ih =>
    rw [List.append_cons, ← ih, ← advance_behind]
    rfl

/-! ## Written text -/

/-- Blanks and comments in front of what follows. -/
inductive Skipped : List Char → List Char → Prop
  | nil {rest : List Char} : Skipped [] rest
  | blank {c : Char} {gap rest : List Char} :
      isBlank c = true → Skipped gap rest → Skipped (c :: gap) rest
  | comment {body gap rest : List Char} :
      (∀ c ∈ body, c ≠ '\n') → EndsLine (gap ++ rest) → Skipped gap rest →
      Skipped (';' :: (body ++ gap)) rest

mutual

/-- A phrase is written behind some characters and in front of others, and its places are
where its parts stand. -/
inductive Written : List Char → Phrase → List Char → List Char → Prop
  | atom {before word rest : List Char} {datum : Datum} (lone : String.ofList word ≠ ".")
      (denotes : Denotes (String.ofList word) datum) :
      Word word rest →
      Written before (.atom (.behind before) (String.ofList word) datum lone denotes) word rest
  | string {before body text rest : List Char} :
      Quoted body text →
      Written before (.string (.behind before) (String.ofList text)) ('"' :: (body ++ ['"'])) rest
  | quote {before piece rest : List Char} {inner : Phrase} :
      WrittenAll (before ++ ['\'']) [inner] piece rest →
      Written before (.quote (.behind before) inner) ('\'' :: piece) rest
  | list {before pieces gap rest : List Char} {items : List Phrase} :
      WrittenAll (before ++ ['(']) items pieces (gap ++ ')' :: rest) → Skipped gap (')' :: rest) →
      Written before (.list (.behind before) items (.behind (before ++ '(' :: (pieces ++ gap))))
        ('(' :: (pieces ++ (gap ++ [')']))) rest
  | dotted {before pieces gap tail gap' rest : List Char} {first last : Phrase}
      {others : List Phrase} :
      WrittenAll (before ++ ['(']) (first :: others) pieces
        (gap ++ '.' :: (tail ++ (gap' ++ ')' :: rest))) →
      Skipped gap ('.' :: (tail ++ (gap' ++ ')' :: rest))) →
      Ends (tail ++ (gap' ++ ')' :: rest)) →
      WrittenAll (before ++ '(' :: (pieces ++ (gap ++ ['.']))) [last] tail (gap' ++ ')' :: rest) →
      Skipped gap' (')' :: rest) →
      Written before
        (.dotted (.behind before) first others (.behind (before ++ '(' :: (pieces ++ gap))) last
          (.behind (before ++ '(' :: (pieces ++ (gap ++ '.' :: (tail ++ gap'))))))
        ('(' :: (pieces ++ (gap ++ '.' :: (tail ++ (gap' ++ [')']))))) rest

/-- Phrases are written one after another. -/
inductive WrittenAll : List Char → List Phrase → List Char → List Char → Prop
  | nil {before rest : List Char} : WrittenAll before [] [] rest
  | cons {before gap piece pieces rest : List Char} {first : Phrase} {others : List Phrase} :
      Skipped gap (piece ++ (pieces ++ rest)) →
      Written (before ++ gap) first piece (pieces ++ rest) →
      WrittenAll (before ++ (gap ++ piece)) others pieces rest →
      WrittenAll before (first :: others) (gap ++ (piece ++ pieces)) rest

end

/-! ## From tokens to written text -/

/-- The characters of a token, and what follows them. -/
inductive Spells : Token.Kind → List Char → List Char → Prop
  | openList {rest : List Char} : Spells .openList ['('] rest
  | closeList {rest : List Char} : Spells .closeList [')'] rest
  | quote {rest : List Char} : Spells .quote ['\''] rest
  | string {body text rest : List Char} :
      Quoted body text → Spells (.string (String.ofList text)) ('"' :: (body ++ ['"'])) rest
  | atom {word rest : List Char} : Word word rest → Spells (.atom (String.ofList word)) word rest

/-- The dot is on its own. -/
theorem Spells.dot {piece rest : List Char} (spells : Spells (.atom ".") piece rest) :
    piece = ['.'] ∧ Ends rest := by
  generalize same : Token.Kind.atom "." = kind at spells
  cases spells with
  | atom isWord =>
    have lone := congrArg String.toList (Token.Kind.atom.inj same)
    rw [String.toList_ofList, String.toList_ofList] at lone
    subst lone
    cases isWord with
    | plain _ _ _ ends => exact ⟨rfl, ends⟩
  | openList | closeList | quote | string => cases same

variable {p : Place} {before cs : List Char} {token : Token} {ts : List Token}

/-- A token stands behind what is skipped in front of it. -/
theorem Lexes.exists_spells (lexes : Lexes p cs (token :: ts)) (inner : ¬ token.isLast) :
    ∃ gap piece rest, cs = gap ++ (piece ++ rest) ∧ Skipped gap (piece ++ rest) ∧
      Spells token.kind piece rest ∧ token.place = p.after gap ∧
      Lexes (p.after (gap ++ piece)) rest ts := by
  generalize whole : token :: ts = all at lexes
  -- Nothing is skipped in front of a token that comes first.
  have here {kind : Token.Kind} {p : Place} {piece rest : List Char} {ts' : List Token}
      (same : token :: ts = ⟨kind, p⟩ :: ts') (spells : Spells kind piece rest)
      (more : Lexes (p.after piece) rest ts') :
      ∃ gap piece' rest', piece ++ rest = gap ++ (piece' ++ rest') ∧
        Skipped gap (piece' ++ rest') ∧ Spells token.kind piece' rest' ∧
        token.place = p.after gap ∧ Lexes (p.after (gap ++ piece')) rest' ts := by
    cases same
    exact ⟨[], piece, rest, rfl, .nil, spells, rfl, more⟩
  induction lexes with
  | finish =>
    cases whole
    exact absurd (.inl rfl) inner
  | unterminated | unterminatedEscape =>
    cases whole
    exact absurd (.inr rfl) inner
  | @blank p c rest ts' blank _ ih =>
    obtain ⟨gap, piece, rest, rfl, skipped, spells, place, more⟩ := ih whole
    exact ⟨c :: gap, piece, rest, rfl, .blank blank skipped, spells, place, more⟩
  | @comment p body rest ts' line ends _ ih =>
    obtain ⟨gap, piece, rest, rfl, skipped, spells, place, more⟩ := ih whole
    refine ⟨';' :: (body ++ gap), piece, rest, ?_, .comment line ends skipped, spells, ?_, ?_⟩
    · rw [List.cons_append, List.append_assoc]
    · rw [place, ← Place.after_append, List.cons_append]
    · rwa [← Place.after_append, List.cons_append, ← List.append_assoc, ← List.cons_append] at more
  | openList more _ => exact here whole .openList more
  | closeList more _ => exact here whole .closeList more
  | quote more _ => exact here whole .quote more
  | @string p body text rest ts' quoted more _ =>
    have found := here whole (.string quoted) more
    rwa [List.cons_append, List.append_assoc] at found
  | atom isWord more _ => exact here whole (.atom isWord) more

/-- Nothing but blanks and comments stands behind the last token. -/
theorem Lexes.skipped {ending : Place} (lexes : Lexes p cs [⟨.endOfText, ending⟩]) :
    Skipped cs [] := by
  generalize whole : [(⟨.endOfText, ending⟩ : Token)] = all at lexes
  induction lexes with
  | finish => exact .nil
  | blank blank _ ih => exact .blank blank (ih whole)
  | comment line ends _ ih => exact .comment line (by rwa [List.append_nil]) (ih whole)
  | openList | closeList | quote | string | atom | unterminated | unterminatedEscape => cases whole

/-- A token is written where its place says. -/
theorem Lexes.exists_behind {kind : Token.Kind} {place : Place}
    (lexes : Lexes (.behind before) cs (⟨kind, place⟩ :: ts))
    (inner : kind ≠ .endOfText ∧ kind ≠ .unterminated) :
    ∃ gap piece rest, cs = gap ++ (piece ++ rest) ∧ Skipped gap (piece ++ rest) ∧
      Spells kind piece rest ∧ place = .behind (before ++ gap) ∧
      Lexes (.behind (before ++ (gap ++ piece))) rest ts := by
  obtain ⟨gap, piece, rest, same, skipped, spells, place, more⟩ :=
    lexes.exists_spells (not_or.2 inner)
  rw [Place.after_behind] at place more
  exact ⟨gap, piece, rest, same, skipped, spells, place, more⟩

theorem tokensAll_singleton (phrase : Phrase) : tokensAll [phrase] = phrase.tokens := by
  rw [tokensAll, tokensAll, List.append_nil]

/-- Tokens that are those of a phrase, in a text, are the phrase written there. -/
def WritesOut (phrase : Phrase) : Prop :=
  ∀ before cs ts, Lexes (.behind before) cs (phrase.tokens ++ ts) →
    ∃ gap piece rest, cs = gap ++ (piece ++ rest) ∧ Skipped gap (piece ++ rest) ∧
      Written (before ++ gap) phrase piece rest ∧
      Lexes (.behind (before ++ (gap ++ piece))) rest ts

theorem exists_writtenAll {items : List Phrase} (each : ∀ item ∈ items, WritesOut item)
    (lexes : Lexes (.behind before) cs (tokensAll items ++ ts)) :
    ∃ pieces rest, cs = pieces ++ rest ∧ WrittenAll before items pieces rest ∧
      Lexes (.behind (before ++ pieces)) rest ts := by
  induction items generalizing before cs with
  | nil => exact ⟨[], cs, rfl, .nil, by rwa [List.append_nil]⟩
  | cons first others ih =>
    obtain ⟨one, more⟩ := List.forall_mem_cons.1 each
    rw [tokensAll, List.append_assoc] at lexes
    obtain ⟨gap, piece, rest, rfl, skipped, written, lexes⟩ := one _ _ _ lexes
    obtain ⟨pieces, rest, rfl, all, lexes⟩ := ih more lexes
    refine ⟨gap ++ (piece ++ pieces), rest, ?_, .cons skipped written all, ?_⟩
    · simp only [List.append_assoc]
    · simpa only [List.append_assoc] using lexes

theorem WritesOut.exists_writtenAll {phrase : Phrase} (one : WritesOut phrase)
    (lexes : Lexes (.behind before) cs (phrase.tokens ++ ts)) :
    ∃ piece rest, cs = piece ++ rest ∧ WrittenAll before [phrase] piece rest ∧
      Lexes (.behind (before ++ piece)) rest ts := by
  rw [← tokensAll_singleton] at lexes
  exact Reader.exists_writtenAll (List.forall_mem_singleton.2 one) lexes

theorem writesOut (phrase : Phrase) : WritesOut phrase := by
  induction phrase with
  | atom place text datum lone denotes =>
    intro before cs ts lexes
    obtain ⟨gap, piece, rest, rfl, skipped, spells, rfl, more⟩ := lexes.exists_behind (by simp)
    cases spells with
    | atom isWord => exact ⟨gap, _, rest, rfl, skipped, .atom lone denotes isWord, more⟩
  | string place text =>
    intro before cs ts lexes
    obtain ⟨gap, piece, rest, rfl, skipped, spells, rfl, more⟩ := lexes.exists_behind (by simp)
    cases spells with
    | string quoted => exact ⟨gap, _, rest, rfl, skipped, .string quoted, more⟩
  | quote place inner ih =>
    intro before cs ts lexes
    rw [Phrase.tokens, List.cons_append] at lexes
    obtain ⟨gap, _, rest, rfl, skipped, spells, rfl, within⟩ := lexes.exists_behind (by simp)
    cases spells
    rw [← List.append_assoc] at within
    obtain ⟨piece, rest, rfl, all, behind⟩ := ih.exists_writtenAll within
    refine ⟨gap, '\'' :: piece, rest, rfl, skipped, .quote all, ?_⟩
    simpa only [List.append_assoc, List.cons_append, List.nil_append] using behind
  | list opened items closed each =>
    intro before cs ts lexes
    rw [tokens_list_append] at lexes
    obtain ⟨gap, _, rest, rfl, skipped, opens, rfl, within⟩ := lexes.exists_behind (by simp)
    cases opens
    rw [← List.append_assoc] at within
    obtain ⟨pieces, rest, rfl, all, ending⟩ := exists_writtenAll each within
    obtain ⟨gap', _, rest, rfl, skipped', closes, rfl, behind⟩ := ending.exists_behind (by simp)
    cases closes
    have written := Written.list all skipped'
    refine ⟨gap, '(' :: (pieces ++ (gap' ++ [')'])), rest, ?_, ?_, ?_, ?_⟩
    -- The parts of the text are the same, and only put together in another order.
    all_goals simp only [List.append_assoc, List.cons_append, List.nil_append] at *
    · exact skipped
    · exact written
    · exact behind
  | dotted opened first others dot last closed one more tail =>
    intro before cs ts lexes
    have each := List.forall_mem_cons.2 ⟨one, more⟩
    rw [tokens_dotted_append] at lexes
    obtain ⟨gap, _, rest, rfl, skipped, opens, rfl, within⟩ := lexes.exists_behind (by simp)
    cases opens
    rw [← List.append_assoc] at within
    obtain ⟨pieces, rest, rfl, all, dotted⟩ := exists_writtenAll each within
    obtain ⟨gap', _, rest, rfl, skipped', spells, rfl, tailed⟩ := dotted.exists_behind (by simp)
    obtain ⟨rfl, ends⟩ := spells.dot
    rw [← List.append_assoc] at tailed
    obtain ⟨piece, rest, rfl, only, ending⟩ := tail.exists_writtenAll tailed
    obtain ⟨gap'', _, rest, rfl, skipped'', closes, rfl, behind⟩ := ending.exists_behind (by simp)
    cases closes
    have written := @Written.dotted (before ++ gap) pieces gap' piece gap'' rest first last others
    refine ⟨gap, '(' :: (pieces ++ (gap' ++ '.' :: (piece ++ (gap'' ++ [')'])))), rest,
      ?_, ?_, ?_, ?_⟩
    all_goals simp only [List.append_assoc, List.cons_append, List.nil_append] at *
    · exact skipped
    · exact written all skipped' ends only skipped''
    · exact behind

/-! ## From written text to tokens -/

theorem Skipped.lexes {gap rest : List Char} (skipped : Skipped gap rest)
    (more : Lexes (.behind (before ++ gap)) rest ts) :
    Lexes (.behind before) (gap ++ rest) ts := by
  induction skipped generalizing before with
  | nil => rwa [List.append_nil] at more
  | @blank c gap rest blank _ ih =>
    refine .blank blank ?_
    rw [Place.advance_behind]
    exact ih (by rwa [← List.append_cons])
  | @comment body gap rest line ends _ ih =>
    rw [List.cons_append, List.append_assoc]
    refine .comment line ends ?_
    rw [Place.after_behind]
    exact ih (by rwa [List.append_assoc, List.cons_append])

theorem Spells.lexes {kind : Token.Kind} {piece rest : List Char} (spells : Spells kind piece rest)
    (more : Lexes (.behind (before ++ piece)) rest ts) :
    Lexes (.behind before) (piece ++ rest) (⟨kind, .behind before⟩ :: ts) := by
  rw [← Place.after_behind] at more
  cases spells with
  | openList => exact .openList more
  | closeList => exact .closeList more
  | quote => exact .quote more
  | string quoted =>
    rw [List.cons_append, List.append_assoc]
    exact .string quoted more
  | atom isWord => exact .atom isWord more

theorem spells_dot {rest : List Char} (ends : Ends rest) : Spells (.atom ".") ['.'] rest :=
  .atom (.plain (List.cons_ne_nil _ _) (List.forall_mem_singleton.2 rfl) nofun ends)

mutual

/-- A phrase that is written has its tokens there. -/
theorem Written.lexes {before piece rest : List Char} {phrase : Phrase} {ts : List Token}
    (written : Written before phrase piece rest)
    (more : Lexes (.behind (before ++ piece)) rest ts) :
    Lexes (.behind before) (piece ++ rest) (phrase.tokens ++ ts) := by
  match written with
  | .atom lone denotes isWord => exact (Spells.atom isWord).lexes more
  | .string quoted => exact (Spells.string quoted).lexes more
  | .quote all =>
    rw [List.append_cons] at more
    have inner := all.lexes more
    rw [tokensAll_singleton] at inner
    exact Spells.quote.lexes inner
  | @Written.list _ pieces gap _ items all skipped =>
    have closes : Lexes (.behind (before ++ '(' :: (pieces ++ gap))) ([')'] ++ rest)
        (⟨.closeList, _⟩ :: ts) :=
      Spells.closeList.lexes (by simpa only [List.append_assoc, List.cons_append] using more)
    have inner := all.lexes (skipped.lexes (by
      simpa only [List.append_assoc, List.cons_append, List.nil_append] using closes))
    rw [tokens_list_append]
    simp only [List.append_assoc, List.cons_append, List.nil_append]
    exact Spells.openList.lexes inner
  | @Written.dotted _ pieces gap tail gap' _ first last others all skipped ends only skipped' =>
    have closes : Lexes (.behind (before ++ '(' :: (pieces ++ (gap ++ '.' :: (tail ++ gap')))))
        ([')'] ++ rest) (⟨.closeList, _⟩ :: ts) :=
      Spells.closeList.lexes (by simpa only [List.append_assoc, List.cons_append] using more)
    have tailed := tokensAll_singleton last ▸ only.lexes (skipped'.lexes (by
      simpa only [List.append_assoc, List.cons_append, List.nil_append] using closes))
    have dotted : Lexes (.behind (before ++ '(' :: (pieces ++ gap))) _ (dotToken _ :: _) :=
      (spells_dot ends).lexes (by simpa only [List.append_assoc, List.cons_append] using tailed)
    have inner := all.lexes (skipped.lexes (by
      simpa only [List.append_assoc, List.cons_append, List.nil_append] using dotted))
    rw [tokens_dotted_append]
    simp only [List.append_assoc, List.cons_append, List.nil_append]
    exact Spells.openList.lexes inner

theorem WrittenAll.lexes {before pieces rest : List Char} {phrases : List Phrase}
    {ts : List Token} (written : WrittenAll before phrases pieces rest)
    (more : Lexes (.behind (before ++ pieces)) rest ts) :
    Lexes (.behind before) (pieces ++ rest) (tokensAll phrases ++ ts) := by
  match written with
  | .nil => rwa [List.append_nil] at more
  | .cons skipped first others =>
    rw [tokensAll, List.append_assoc, List.append_assoc, List.append_assoc]
    refine skipped.lexes (first.lexes ?_)
    rw [List.append_assoc]
    exact others.lexes (by simpa only [List.append_assoc] using more)

end

/-- A text is phrases, written from its start to its end. -/
def WrittenIn (text : String) (phrases : List Phrase) : Prop :=
  ∃ pieces gap, text.toList = pieces ++ gap ∧ WrittenAll [] phrases pieces gap ∧ Skipped gap []

/-- A text derives phrases exactly if it is these, written from its start to its end. -/
theorem derives_iff_writtenIn {text : String} {phrases : List Phrase} :
    Derives text phrases ↔ WrittenIn text phrases := by
  constructor
  · rintro ⟨ending, lexes⟩
    have fromStart : Lexes (.behind []) text.toList _ := lexes
    obtain ⟨pieces, gap, whole, written, behind⟩ :=
      exists_writtenAll (fun phrase _ => writesOut phrase) fromStart
    exact ⟨pieces, gap, whole, written, behind.skipped⟩
  · rintro ⟨pieces, gap, whole, written, skipped⟩
    have ending : Lexes (.behind (pieces ++ gap)) [] [⟨.endOfText, _⟩] := .finish
    have behind := skipped.lexes ending
    rw [List.append_nil] at behind
    exact ⟨_, whole ▸ written.lexes behind⟩

/-! ## Places that are noted -/

/-- The places that pairs of a datum note, from left to right. -/
def Datum.places : Datum → List Place
  | .pair source head tail => source.toList ++ (head.places ++ tail.places)
  | _ => []

mutual

/-- Where the lists with an item and the quotations of a phrase begin, from left to right. -/
def Phrase.noted : Phrase → List Place
  | atom _ _ _ _ _ | string _ _ => []
  | quote place inner => place :: inner.noted
  | list opened items _ => if items = [] then [] else opened :: notedAll items
  | dotted opened first others _ last _ => opened :: (first.noted ++ (notedAll others ++ last.noted))

def Phrase.notedAll : List Phrase → List Place
  | [] => []
  | first :: others => first.noted ++ notedAll others

end

theorem Denotes.places {text : String} {d : Datum} (denotes : Denotes text d) : d.places = [] := by
  cases denotes <;> rfl

theorem places_chain {items : List Phrase} (each : ∀ item ∈ items, item.datum.places = item.noted)
    (tail : Datum) :
    (chain (datumAll items) tail).places = notedAll items ++ tail.places := by
  induction items with
  | nil => rfl
  | cons first others ih =>
    obtain ⟨one, more⟩ := List.forall_mem_cons.1 each
    rw [datumAll, notedAll, List.append_assoc, ← ih more, ← one]
    rfl

/-- Nothing but lists with an item and quotations notes a place, and each of these notes its
own. -/
theorem places_datum (phrase : Phrase) : phrase.datum.places = phrase.noted := by
  induction phrase with
  | atom place text datum lone denotes =>
    rw [Phrase.datum, Phrase.noted]
    exact denotes.places
  | string place text =>
    rw [Phrase.datum, Phrase.noted]
    rfl
  | quote place inner ih =>
    rw [Phrase.noted, ← ih, Phrase.datum]
    simp [listAt, chain, Datum.places]
  | list opened items closed each =>
    rw [Phrase.datum, Phrase.noted]
    cases items with
    | nil => rfl
    | cons first others =>
      obtain ⟨one, more⟩ := List.forall_mem_cons.1 each
      have ended : Datum.nil.places = [] := rfl
      rw [if_neg (List.cons_ne_nil _ _), datumAll, listAt, Datum.places, places_chain more,
        notedAll, one, ended, List.append_nil]
      rfl
  | dotted opened first others dot last closed one more tail =>
    rw [Phrase.datum, Phrase.noted, listAt, Datum.places, places_chain more, one, tail]
    rfl

end Reader

open Reader Heap Phrase

/-- A text that is read is phrases, written in it from its start to its end, in one way only, and
the places of phrases are where they stand. Each is stored with its place: the value unfolds to
what the phrase denotes, in which the first pair of a list and of a quotation notes where that
begins and every other pair notes nothing. No pairs are made besides, and those that there were
stay as they are. -/
theorem locations_exact {text : String} {fs : List Reader.Form} (read : forms text = .ok fs)
    (h : Heap) (file : String) :
    ∃ phrases, WrittenIn text phrases ∧ (∀ others, WrittenIn text others → others = phrases) ∧
      List.Forall₂ (fun stored phrase =>
          stored.location = phrase.place.inFile file ∧
            (h.storeForms file fs).1.Unfolds (Notes file) stored.value phrase.datum ∧
            phrase.datum.places = phrase.noted)
        (h.storeForms file fs).2 phrases ∧
      h.Makes (h.storeForms file fs).1 ((h.storeForms file fs).2.map Stored.value) := by
  obtain ⟨phrases, derives, rfl⟩ := exists_derives read
  refine ⟨phrases, derives_iff_writtenIn.1 derives, fun others written => ?_, ?_,
    h.makes_storeForms file _⟩
  · exact (derives_iff_writtenIn.2 written).unique derives
  · exact (List.forall₂_map_right_iff.1 (h.holds_storeForms file _).2).imp fun _ _ holds =>
      ⟨holds.2, holds.1, places_datum _⟩

/-- A quotation below a comment, with a list for its tail that holds a newline. -/
theorem locations_exact_quotation :
    let text := "; x\n'(a . (#\\\n b))"
    let fs : List Reader.Form := [⟨.pair (some ⟨2, 1⟩) (.symbol "quote")
      (.pair none (.pair (some ⟨2, 2⟩) (.symbol "a")
        (.pair (some ⟨2, 7⟩) (.char '\n') (.pair none (.symbol "b") .nil))) .nil), ⟨2, 1⟩⟩]
    forms text = .ok fs ∧
      ∃ phrases, WrittenIn text phrases ∧ (∀ others, WrittenIn text others → others = phrases) ∧
        List.Forall₂ (fun stored phrase =>
            stored.location = phrase.place.inFile "list" ∧
              (Heap.empty.storeForms "list" fs).1.Unfolds (Notes "list") stored.value
                phrase.datum ∧
              phrase.datum.places = phrase.noted)
          (Heap.empty.storeForms "list" fs).2 phrases ∧
        Heap.empty.Makes (Heap.empty.storeForms "list" fs).1
          ((Heap.empty.storeForms "list" fs).2.map Stored.value) :=
  ⟨by decide +kernel, locations_exact (by decide +kernel) .empty "list"⟩

end MessageMachine
